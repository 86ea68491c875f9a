import ProjectAnalysis.Proofs.LookupAgreement

/-! The laws of merging. What a symbol has inside is an ordered table by name, and merging two
symbols puts the entries of the second that are new behind those of the first. This is a union in
which the first one leads: doing it twice changes nothing, and any grouping of several symbols, as
long as their order is kept, comes to the same symbol. -/
namespace ProjectAnalysis

variable {α β : Type}

namespace SymbolTable

variable {name : β → String} {t u v : SymbolTable β}

/-- The values of a table, put behind those of another one where their names are new. -/
def extend (name : β → String) (t u : SymbolTable β) : SymbolTable β :=
  (OrderedTable.values u).foldl (fun t b => SymbolTable.insertNew t (name b) b) t

theorem entries_foldl_insertNew (name : β → String) (entries : List (NameKey × β))
    (hnodup : (entries.map Prod.fst).Nodup) (hnamed : ∀ e ∈ entries, e.1 = .of (name e.2))
    (t : SymbolTable β) :
    ((entries.map Prod.snd).foldl (fun t b => SymbolTable.insertNew t (name b) b) t).entries =
      t.entries ++ entries.filter fun e => e.1 ∉ OrderedTable.keys t := by
  -- By induction on the entries, each of which is there already or goes to the end.
  induction entries generalizing t with
  | nil => exact (List.append_nil _).symm
  | cons e entries ih =>
    obtain ⟨hfresh, hnodup⟩ := List.nodup_cons.1 hnodup
    obtain ⟨he, hnamed⟩ := List.forall_mem_cons.1 hnamed
    have hstep : (SymbolTable.insertNew t (name e.2) e.2).entries =
        if e.1 ∈ OrderedTable.keys t then t.entries else t.entries ++ [e] := by
      rw [SymbolTable.insertNew, ← he, OrderedTable.entries_insertNew]
    rw [List.map_cons, List.foldl_cons, ih hnodup hnamed, hstep]
    by_cases hin : e.1 ∈ OrderedTable.keys t
    · have hkeys : OrderedTable.keys (SymbolTable.insertNew t (name e.2) e.2) =
          OrderedTable.keys t := by
        rw [OrderedTable.keys, hstep, if_pos hin, OrderedTable.keys]
      rw [if_pos hin, hkeys, List.filter_cons_of_neg (by simpa using hin)]
    · have hkeys : OrderedTable.keys (SymbolTable.insertNew t (name e.2) e.2) =
          OrderedTable.keys t ++ [e.1] := by
        rw [OrderedTable.keys, hstep, if_neg hin, List.map_append, OrderedTable.keys]
        rfl
      have hrest : (entries.filter fun e' => e'.1 ∉ OrderedTable.keys t ++ [e.1]) =
          entries.filter fun e' => e'.1 ∉ OrderedTable.keys t := by
        apply List.filter_congr
        intro e' he'
        have hne : e'.1 ≠ e.1 := fun h => hfresh (h ▸ List.mem_map_of_mem he')
        simp [hne]
      rw [if_neg hin, hkeys, hrest, List.filter_cons_of_pos (by simpa using hin),
        List.append_assoc, List.singleton_append]

theorem entries_extend (t : SymbolTable β) (hu : u.All fun key b => key = .of (name b)) :
    (extend name t u).entries =
      t.entries ++ u.entries.filter fun e => e.1 ∉ OrderedTable.keys t :=
  entries_foldl_insertNew name u.entries u.nodup
    (fun e he => hu e.1 e.2 (OrderedTable.get?_eq_some_iff.2 he)) t

theorem mem_keys_extend (t : SymbolTable β) (hu : u.All fun key b => key = .of (name b))
    {key : NameKey} : key ∈ OrderedTable.keys (extend name t u) ↔
      key ∈ OrderedTable.keys t ∨ key ∈ OrderedTable.keys u := by
  have hget := get?_foldl_values (get?_insertNew_self name) t u hu key
  exact mem_keys_merge hget

theorem All.extend {P : NameKey → β → Prop} (ht : t.All P) (hP : u.All P)
    (hu : u.All fun key b => key = .of (name b)) : (extend name t u).All P :=
  ht.merge hP (fun _ _ _ hfirst _ => hfirst)
    (get?_foldl_values (get?_insertNew_self name) t u hu)

/-- A table that has all the keys already takes in nothing. -/
theorem extend_of_subset (hu : u.All fun key b => key = .of (name b))
    (hkeys : ∀ key ∈ OrderedTable.keys u, key ∈ OrderedTable.keys t) :
    extend name t u = t := by
  apply OrderedTable.ext
  rw [entries_extend t hu, List.filter_eq_nil_iff.2, List.append_nil]
  intro e he
  simpa using hkeys e.1 (List.mem_map_of_mem he)

theorem extend_assoc (hu : u.All fun key b => key = .of (name b))
    (hv : v.All fun key b => key = .of (name b)) :
    extend name (extend name t u) v = extend name t (extend name u v) := by
  apply OrderedTable.ext
  have hnew : (v.entries.filter fun e => e.1 ∉ OrderedTable.keys (extend name t u)) =
      (v.entries.filter fun e => e.1 ∉ OrderedTable.keys u).filter
        fun e => e.1 ∉ OrderedTable.keys t := by
    rw [List.filter_filter]
    apply List.filter_congr
    intro e _
    simp [mem_keys_extend t hu]
  calc (extend name (extend name t u) v).entries
      = (t.entries ++ u.entries.filter fun e => e.1 ∉ OrderedTable.keys t) ++
          (v.entries.filter fun e => e.1 ∉ OrderedTable.keys u).filter
            fun e => e.1 ∉ OrderedTable.keys t := by
        rw [entries_extend _ hv, entries_extend t hu, hnew]
    _ = t.entries ++ (u.entries ++ v.entries.filter fun e => e.1 ∉ OrderedTable.keys u).filter
          fun e => e.1 ∉ OrderedTable.keys t := by
        rw [List.append_assoc, List.filter_append]
    _ = (extend name t (extend name u v)).entries := by
        rw [entries_extend t (hu.extend hv hv), entries_extend u hv]

end SymbolTable

/-- Symbols that are merged in pairs, in some grouping. -/
inductive Grouping (α : Type)
  | one (a : α)
  | join (left right : Grouping α)

namespace Grouping

/-- The symbols in their order. -/
def members : Grouping α → List α
  | one a => [a]
  | join left right => left.members ++ right.members

def merged [Symbol α] : Grouping α → α
  | one a => a
  | join left right => Symbol.merge left.merged right.merged

end Grouping

/-- Merging good symbols is a union of what they have inside, in which the first one leads. -/
structure Symbol.UnitesInOrder [Symbol α] (Good : α → Prop) (inner : α → SymbolTable β) :
    Prop where
  good : ∀ a b, Good a → Good b → Good (Symbol.merge a b)
  self : ∀ a, Good a → Symbol.merge a a = a
  again : ∀ a b, Good a → Good b → Symbol.merge (Symbol.merge a b) b = Symbol.merge a b
  assoc : ∀ a b c, Good a → Good b → Good c →
    Symbol.merge (Symbol.merge a b) c = Symbol.merge a (Symbol.merge b c)
  name : ∀ a b : α, Symbol.name (Symbol.merge a b) = Symbol.name a
  /-- The first symbol keeps its entries, and those of the second that are new come behind. -/
  entries : ∀ a b, Good b → (inner (Symbol.merge a b)).entries =
    (inner a).entries ++ (inner b).entries.filter fun e => e.1 ∉ OrderedTable.keys (inner a)
  keys : ∀ a b key, Good b → (key ∈ OrderedTable.keys (inner (Symbol.merge a b)) ↔
    key ∈ OrderedTable.keys (inner a) ∨ key ∈ OrderedTable.keys (inner b))

namespace Symbol.UnitesInOrder

variable [Symbol α] {Good : α → Prop} {inner : α → SymbolTable β}
  (h : Symbol.UnitesInOrder Good inner)
include h

theorem foldl_merge (more : List α) (hmore : ∀ b ∈ more, Good b) (a b : α) (ha : Good a)
    (hb : Good b) : more.foldl Symbol.merge (Symbol.merge a b) =
      Symbol.merge a (more.foldl Symbol.merge b) := by
  induction more generalizing b with
  | nil => rfl
  | cons c more ih =>
    obtain ⟨hc, hmore⟩ := List.forall_mem_cons.1 hmore
    rw [List.foldl_cons, List.foldl_cons, h.assoc a b c ha hb hc]
    exact ih hmore (Symbol.merge b c) (h.good b c hb hc)

theorem good_merged (q : Grouping α) (hq : ∀ a ∈ q.members, Good a) : Good q.merged := by
  induction q with
  | one a => exact hq a (List.mem_singleton_self a)
  | join left right ihl ihr =>
    obtain ⟨hl, hr⟩ := List.forall_mem_append.1 hq
    exact h.good _ _ (ihl hl) (ihr hr)

/-- In any grouping the symbols merge to what they do one after the other. -/
theorem mergeAll?_members (q : Grouping α) (hq : ∀ a ∈ q.members, Good a) :
    mergeAll? q.members = some q.merged := by
  induction q with
  | one a => rfl
  | join left right ihl ihr =>
    obtain ⟨hl, hr⟩ := List.forall_mem_append.1 hq
    have hleft := ihl hl
    have hright := ihr hr
    rw [Grouping.members, Grouping.merged]
    cases hmembers : left.members with
    | nil =>
      rw [hmembers] at hleft
      cases hleft
    | cons a front =>
      cases hmembers' : right.members with
      | nil =>
        rw [hmembers'] at hright
        cases hright
      | cons b back =>
        rw [hmembers] at hleft
        rw [hmembers'] at hright hr
        obtain ⟨hb, hback⟩ := List.forall_mem_cons.1 hr
        -- The left ones come to one symbol, which the right ones are merged into in turn.
        calc mergeAll? (a :: front ++ b :: back)
            = some (back.foldl Symbol.merge (Symbol.merge (front.foldl Symbol.merge a) b)) := by
              rw [List.cons_append, mergeAll?, List.foldl_append, List.foldl_cons]
          _ = some (back.foldl Symbol.merge (Symbol.merge left.merged b)) := by
              rw [Option.some.inj hleft]
          _ = some (Symbol.merge left.merged (back.foldl Symbol.merge b)) := by
              rw [h.foldl_merge back hback _ _ (h.good_merged left hl) hb]
          _ = some (Symbol.merge left.merged right.merged) := by
              rw [Option.some.inj hright]

end Symbol.UnitesInOrder

/-- If merging puts what is inside of the second symbol behind what is inside of the first, and
everything else is merged with laws of its own, it is a union in which the first symbol leads. -/
theorem Symbol.unitesInOrder_of_extend [Symbol α] {ρ : Type} {label : β → String}
    {inner : α → SymbolTable β} (rest : α → ρ) (op : ρ → ρ → ρ)
    (hinner : ∀ a b : α, inner (Symbol.merge a b) = SymbolTable.extend label (inner a) (inner b))
    (hrest : ∀ a b : α, rest (Symbol.merge a b) = op (rest a) (rest b))
    (hself : ∀ x, op x x = x) (hassoc : ∀ x y z, op (op x y) z = op x (op y z))
    (hext : ∀ a b : α, rest a = rest b → inner a = inner b → a = b)
    (hname : ∀ a b : α, Symbol.name (Symbol.merge a b) = Symbol.name a) :
    Symbol.UnitesInOrder (fun a => (inner a).All fun key b => key = .of (label b)) inner where
  good a b ha hb := hinner a b ▸ ha.extend hb hb
  self a ha := by
    apply hext
    · rw [hrest, hself]
    · rw [hinner, SymbolTable.extend_of_subset ha fun _ hkey => hkey]
  again a b ha hb := by
    apply hext
    · rw [hrest, hrest, hassoc, hself]
    · rw [hinner (Symbol.merge a b)]
      apply SymbolTable.extend_of_subset hb
      intro key hkey
      rw [hinner, SymbolTable.mem_keys_extend (inner a) hb]
      exact Or.inr hkey
  assoc a b c _ hb hc := by
    apply hext
    · rw [hrest, hrest, hrest, hrest, hassoc]
    · rw [hinner, hinner, hinner, hinner, SymbolTable.extend_assoc hb hc]
  name := hname
  entries a b hb := by rw [hinner, SymbolTable.entries_extend (inner a) hb]
  keys a b key hb := by rw [hinner, SymbolTable.mem_keys_extend (inner a) hb]

/-- The metadata of an item stands under its names. -/
def ItemInfo.Keyed (i : ItemInfo) : Prop :=
  i.metadata.All fun key m => key = .of m.name

/-- The parameters of a task stand under their names. -/
def TaskInfo.Keyed (t : TaskInfo) : Prop :=
  t.parameters.All fun key name => key = .of name

theorem ItemInfo.keyed_named (name : String) : (named name).Keyed :=
  SymbolTable.all_empty _

theorem ItemInfo.Keyed.addMetadata {i : ItemInfo} (h : i.Keyed) (name : String) :
    (i.addMetadata name).Keyed :=
  h.insertNew rfl

theorem ItemInfo.unitesInOrder : Symbol.UnitesInOrder ItemInfo.Keyed ItemInfo.metadata := by
  -- Of two descriptions the first one counts, if there is one.
  apply Symbol.unitesInOrder_of_extend (fun i : ItemInfo => (i.name, i.description))
    fun x y => (x.1, x.2.or y.2)
  · exact fun _ _ => rfl
  · exact fun _ _ => rfl
  · exact fun x => Prod.ext rfl (Option.or_self)
  · exact fun x y z => Prod.ext rfl Option.or_assoc
  · rintro ⟨name, description, metadata⟩ ⟨name', description', metadata'⟩ hrest rfl
    obtain ⟨rfl, rfl⟩ := Prod.mk.inj hrest
    rfl
  · exact fun _ _ => rfl

theorem TaskInfo.unitesInOrder : Symbol.UnitesInOrder TaskInfo.Keyed TaskInfo.parameters := by
  have hmerge (t u : TaskInfo) : Symbol.merge t u = { t with
      parameters := SymbolTable.extend (fun name => name) t.parameters u.parameters } :=
    foldl_addParameter _ t
  apply Symbol.unitesInOrder_of_extend (fun t : TaskInfo => (t.name, t.description)) fun x _ => x
  · exact fun t u => congrArg TaskInfo.parameters (hmerge t u)
  · intro t u
    rw [hmerge]
  · exact fun _ => rfl
  · exact fun _ _ _ => rfl
  · rintro ⟨name, description, parameters⟩ ⟨name', description', parameters'⟩ hrest rfl
    obtain ⟨rfl, rfl⟩ := Prod.mk.inj hrest
    rfl
  · exact fun t u => t.name_merge u

/-- Merging items and merging tasks are unions of their metadata and of their parameters in which
the first one leads: the same symbol again adds nothing, and three of them merge alike from either
end. So all views of a symbol in a document and its imports may be merged in any grouping. -/
theorem merge_unitesInOrder :
    Symbol.UnitesInOrder ItemInfo.Keyed ItemInfo.metadata ∧
    Symbol.UnitesInOrder TaskInfo.Keyed TaskInfo.parameters ∧
    (∀ q : Grouping ItemInfo, (∀ i ∈ q.members, i.Keyed) →
      mergeAll? q.members = some q.merged) ∧
    (∀ q : Grouping TaskInfo, (∀ t ∈ q.members, t.Keyed) →
      mergeAll? q.members = some q.merged) ∧
    ∀ (r : Resolver) (file : FilePath) (g : Generation), r.Arises file g → ∀ name,
      (∀ q : Grouping ItemInfo, q.members = g.views (·.items) name →
        g.item? name = some q.merged) ∧
      ∀ q : Grouping TaskInfo, q.members = g.views (·.tasks) name →
        g.task? name = some q.merged := by
  have hitems := ItemInfo.unitesInOrder.mergeAll?_members
  have htasks := TaskInfo.unitesInOrder.mergeAll?_members
  refine ⟨ItemInfo.unitesInOrder, TaskInfo.unitesInOrder, hitems, htasks, ?_⟩
  intro r file g h name
  constructor
  · intro q hq
    have hkeyed : ∀ i ∈ g.views (·.items) name, i.Keyed :=
      h.proper.views fun s hs i hi => (hs.items _ i hi).2
    rw [Generation.item?, Generation.lookup_eq, ← hq]
    exact hitems q (hq ▸ hkeyed)
  · intro q hq
    have hkeyed : ∀ t ∈ g.views (·.tasks) name, t.Keyed :=
      h.proper.views fun s hs t ht => (hs.tasks _ t ht).2
    rw [Generation.task?, Generation.lookup_eq, ← hq]
    exact htasks q (hq ▸ hkeyed)

/-- An item of a document and of two imports, spelled in three ways, merged from the right. -/
theorem merge_unitesInOrder_spellings :
    let r : Resolver := ⟨.standard, false⟩
    let file : FilePath := ⟨"/p/a.proj"⟩
    let s := (FileStore.empty.write ⟨"/p/x.props"⟩
      "<Project><ItemGroup><COMPILE Include='x' link='1' Pack='2' /></ItemGroup></Project>").write
      ⟨"/p/y.props"⟩
      "<Project><ItemGroup><compile Include='y' pack='3' Copy='4' /></ItemGroup></Project>"
    let d : Xml.Document := .ofText ("<Project><Import Project='x.props' />" ++
      "<Import Project='y.props' /><ItemGroup><Compile Include='a' Link='5' /></ItemGroup></Project>")
    let a := (ItemInfo.named "Compile").addMetadata "Link"
    let b := ((ItemInfo.named "COMPILE").addMetadata "link").addMetadata "Pack"
    let c := ((ItemInfo.named "compile").addMetadata "pack").addMetadata "Copy"
    ∃ g, (r.resolve file d none s).1 = .ok g ∧ r.Arises file g ∧
      g.views (·.items) "compile" = [a, b, c] ∧ a.Keyed ∧ b.Keyed ∧ c.Keyed ∧
      a.merge a = a ∧ (a.merge b).merge b = a.merge b ∧
      (a.merge b).merge c = a.merge (b.merge c) ∧
      g.item? "compile" = some (a.merge (b.merge c)) ∧
      (OrderedTable.values (a.merge (b.merge c)).metadata).map MetadataInfo.name =
        ["Link", "Pack", "Copy"] := by
  intro r file s d a b c
  have hviews : (r.resolve file d none s).1.toOption.map (fun g => g.views (·.items) "compile") =
      some [a, b, c] := by
    decide +kernel +revert
  have hnames : (OrderedTable.values (a.merge (b.merge c)).metadata).map MetadataInfo.name =
      ["Link", "Pack", "Copy"] := by
    clear hviews
    decide +kernel +revert
  obtain ⟨g, hg, -⟩ := r.exists_resolve file d none s
  rw [hg] at hviews
  have hviews : g.views (·.items) "compile" = [a, b, c] := Option.some.inj hviews
  have harises : r.Arises file g := .first hg
  have ha : a.Keyed := (ItemInfo.keyed_named _).addMetadata _
  have hb : b.Keyed := ((ItemInfo.keyed_named _).addMetadata _).addMetadata _
  have hc : c.Keyed := ((ItemInfo.keyed_named _).addMetadata _).addMetadata _
  obtain ⟨hitems, -, -, -, hgenerations⟩ := merge_unitesInOrder
  have hfound := (hgenerations r file g harises "compile").1
    (.join (.one a) (.join (.one b) (.one c))) hviews.symm
  exact ⟨g, hg, harises, hviews, ha, hb, hc, hitems.self a ha, hitems.again a b ha hb,
    hitems.assoc a b c ha hb hc, hfound, hnames⟩

end ProjectAnalysis
