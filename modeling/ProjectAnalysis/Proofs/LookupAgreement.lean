import ProjectAnalysis.Proofs.MergedViews
import ProjectAnalysis.Proofs.PrivateName

/-! Single lookups and whole tables. A lookup takes one key out of each table and hides imports by
the name that is asked for; the tables are put together entry by entry, and there imports are hidden
by the names of their entries. As every symbol stands under the key of its name, and the key tells
whether a name is private, both come to the same. -/
namespace ProjectAnalysis

variable {α : Type}

/-- Under one key there is at most one entry. -/
theorem filter_eq_find?_toList {κ : Type} [DecidableEq κ] {entries : List (κ × α)}
    (h : (entries.map Prod.fst).Nodup) (key : κ) :
    entries.filter (·.1 = key) = (entries.find? (·.1 = key)).toList := by
  induction entries with
  | nil => rfl
  | cons e entries ih =>
    obtain ⟨hfresh, hnodup⟩ := List.nodup_cons.1 h
    by_cases hkey : e.1 = key
    · -- The key is taken, so it does not come again.
      have hrest : entries.filter (·.1 = key) = [] := by
        rw [List.filter_eq_nil_iff]
        intro e' he' hkey'
        have hsame : e'.1 = e.1 := (of_decide_eq_true hkey').trans hkey.symm
        exact hfresh (hsame ▸ List.mem_map_of_mem he')
      rw [List.filter_cons_of_pos (by simp [hkey]), hrest, List.find?_cons_of_pos (by simp [hkey])]
      rfl
    · rw [List.filter_cons_of_neg (by simp [hkey]), ih hnodup,
        List.find?_cons_of_neg (by simp [hkey])]

namespace SymbolTable

variable [Symbol α] {t : SymbolTable α} {key : NameKey}

/-- Every symbol stands under the key of its name. -/
def Keyed (t : SymbolTable α) : Prop :=
  t.All fun key a => key = .of (Symbol.name a)

/-- The symbols of a table that have a key are the one that stands under it. -/
theorem Keyed.filter_values (h : t.Keyed) (key : NameKey) :
    (OrderedTable.values t).filter (fun a => NameKey.of (Symbol.name a) = key) =
      (OrderedTable.get? t key).toList := by
  have hkeys : t.entries.filter ((fun a : α => decide (NameKey.of (Symbol.name a) = key)) ∘
      Prod.snd) = t.entries.filter (·.1 = key) := by
    apply List.filter_congr
    intro e he
    have hname := h e.1 e.2 (OrderedTable.get?_eq_some_iff.2 he)
    simp [hname]
  rw [OrderedTable.values, List.filter_map, hkeys, filter_eq_find?_toList t.nodup,
    OrderedTable.get?]
  cases t.entries.find? (·.1 = key) <;> rfl

/-- What stands under a key once symbols are added: the merge of all that have the key. -/
theorem get?_addAll_eq (symbols : List α) (t : SymbolTable α) (key : NameKey) :
    OrderedTable.get? (t.addAll symbols) key =
      mergeAll? ((OrderedTable.get? t key).toList ++
        symbols.filter fun a => NameKey.of (Symbol.name a) = key) := by
  induction symbols generalizing t with
  | nil =>
    rw [addAll, List.foldl_nil, List.filter_nil, List.append_nil]
    cases OrderedTable.get? t key <;> rfl
  | cons a symbols ih =>
    have hstep : t.addAll (a :: symbols) = (t.add a).addAll symbols := rfl
    rw [hstep, ih, get?_add]
    by_cases hkey : NameKey.of (Symbol.name a) = key
    · rw [if_pos hkey, List.filter_cons_of_pos (by simp [hkey])]
      cases OrderedTable.get? t key <;> rfl
    · rw [if_neg hkey, List.filter_cons_of_neg (by simp [hkey])]

end SymbolTable

namespace Generation

section
variable [Symbol α] {g : Generation} {table : FileSymbols → SymbolTable α}

theorem isVisible_congr (g : Generation) {name other : String}
    (h : NameKey.of name = NameKey.of other) : g.isVisible name = g.isVisible other := by
  rw [isVisible, isPrivateName_congr h, isVisible]

/-- Of the symbols of the imports that are shown, those with the name that is asked for are all or
none. -/
theorem filter_visible (g : Generation) (symbols : List α) (name : String) :
    (symbols.filter fun a => g.isVisible (Symbol.name a)).filter
        (fun a => NameKey.of (Symbol.name a) = .of name) =
      if g.isVisible name then symbols.filter fun a => NameKey.of (Symbol.name a) = .of name
      else [] := by
  -- Spellings of one name are private together, so each symbol of the name is shown if `name` is.
  have hsame : ∀ a : α, NameKey.of (Symbol.name a) = .of name →
      g.isVisible (Symbol.name a) = g.isVisible name := fun a h => g.isVisible_congr h
  rw [List.filter_filter]
  split
  · next hvisible =>
    apply List.filter_congr
    intro a _
    by_cases hkey : NameKey.of (Symbol.name a) = .of name
    · rw [hsame a hkey, hvisible, Bool.and_true]
    · simp [hkey]
  · next hhidden =>
    rw [List.filter_eq_nil_iff]
    intro a _ h
    obtain ⟨hkey, hvisible⟩ := (Bool.and_eq_true ..).mp h
    rw [hsame a (of_decide_eq_true hkey)] at hvisible
    exact hhidden hvisible

theorem filter_flatMap_values {ss : List FileSymbols} (h : ∀ s ∈ ss, (table s).Keyed)
    (name : String) :
    (ss.flatMap fun s => (table s).values).filter
        (fun a => NameKey.of (Symbol.name a) = .of name) =
      ss.filterMap fun s => (table s).get? name := by
  induction ss with
  | nil => rfl
  | cons s ss ih =>
    obtain ⟨hs, hss⟩ := List.forall_mem_cons.1 h
    rw [List.flatMap_cons, List.filter_append, hs.filter_values, ih hss, List.filterMap_cons]
    unfold SymbolTable.get?
    cases OrderedTable.get? (table s) (.of name) <;> rfl

/-- In a table that is merged stands what is given under the key, merged with all views of the
symbol. -/
theorem get?_merged (hown : (table g.symbols).Keyed)
    (himports : ∀ s ∈ g.importedSymbols, (table s).Keyed) (given : SymbolTable α)
    (name : String) : (g.merged given table).get? name =
      mergeAll? ((given.get? name).toList ++ g.views table name) := by
  unfold merged SymbolTable.get?
  -- Of all that is added, the symbols of the name are left: the one of the document, and behind it
  -- one of each import that has it and is shown.
  rw [SymbolTable.get?_addAll_eq, List.filter_append, hown.filter_values, filter_visible,
    filter_flatMap_values himports]
  rfl

theorem lookup_eq_get?_merged (hown : (table g.symbols).Keyed)
    (himports : ∀ s ∈ g.importedSymbols, (table s).Keyed) (name : String) :
    g.lookup table name = (g.merged .empty table).get? name :=
  (get?_merged hown himports .empty name).symm

end

/-- The tables of a generation with the symbols under their keys. -/
theorem Proper.keyed [Symbol α] {g : Generation} (h : g.Proper)
    {table : FileSymbols → SymbolTable α} (htable : ∀ s : FileSymbols, s.Named → (table s).Keyed) :
    (table g.symbols).Keyed ∧ ∀ s ∈ g.importedSymbols, (table s).Keyed := by
  refine ⟨htable g.symbols h.symbols.named, fun s hs => ?_⟩
  obtain ⟨i, hi, rfl⟩ := List.mem_map.1 hs
  exact htable i.parsed.symbols (h.of_mem_imports hi).named

end Generation

namespace FileSymbols

variable {s : FileSymbols}

theorem Named.keyed_items (h : s.Named) : s.items.Keyed := fun key i hi => (h.items key i hi).1

theorem Named.keyed_tasks (h : s.Named) : s.tasks.Keyed := fun key t ht => (h.tasks key t ht).1

theorem Named.keyed_properties (h : s.Named) : s.properties.Keyed := h.properties

end FileSymbols

namespace Generation.Proper

variable {g : Generation} (h : g.Proper) (name : String)
include h

theorem item?_eq : g.item? name = g.items.get? name := by
  obtain ⟨hown, himports⟩ := h.keyed fun _ => FileSymbols.Named.keyed_items
  exact lookup_eq_get?_merged hown himports name

theorem task?_eq : g.task? name = g.tasks.get? name := by
  obtain ⟨hown, himports⟩ := h.keyed fun _ => FileSymbols.Named.keyed_tasks
  exact lookup_eq_get?_merged hown himports name

theorem property?_eq : g.property? name =
    ((g.properties false).get? name).or (g.builtins.properties.get? name) := by
  obtain ⟨hown, himports⟩ := h.keyed fun _ => FileSymbols.Named.keyed_properties
  exact congrArg (Option.or · _) (lookup_eq_get?_merged hown himports name)

end Generation.Proper

/-- Whatever generation a resolver gives, private names shown or not, and however a name is spelled:
the item and the task of that name are what the tables of all items and of all tasks have. -/
theorem Resolver.lookups_agree {r : Resolver} {file : FilePath} {g : Generation}
    (h : r.Arises file g) (name : String) :
    g.item? name = g.items.get? name ∧ g.task? name = g.tasks.get? name :=
  ⟨h.proper.item?_eq name, h.proper.task?_eq name⟩

/-- An item of the document and of an import, asked for in a third spelling. -/
theorem Resolver.lookups_agree_imported :
    let r : Resolver := ⟨.standard, false⟩
    let file : FilePath := ⟨"/p/a.proj"⟩
    let s := FileStore.empty.write ⟨"/p/x.props"⟩
      "<Project><ItemGroup><compile Include='a' Link='b' /></ItemGroup></Project>"
    let d : Xml.Document := .ofText ("<Project><Import Project='x.props' />" ++
      "<ItemGroup><Compile Include='c' Pack='d' /></ItemGroup></Project>")
    ∃ g i, (r.resolve file d none s).1 = .ok g ∧ g.item? "COMPILE" = some i ∧
      g.items.get? "COMPILE" = some i ∧ i.name = "Compile" ∧
      OrderedTable.keys i.metadata = [.of "pack", .of "link"] := by
  intro r file s d
  have hfirst : ((r.resolve file d none s).1.toOption.bind fun g => (g.item? "COMPILE").map fun i =>
      (i.name, OrderedTable.keys i.metadata)) = some ("Compile", [.of "pack", .of "link"]) := by
    decide +kernel +revert
  obtain ⟨g, hg, -⟩ := r.exists_resolve file d none s
  have harises : r.Arises file g := .first hg
  rw [hg] at hfirst
  obtain ⟨i, hi, hvalue⟩ := Option.map_eq_some_iff.1 hfirst
  obtain ⟨hname, hkeys⟩ := Prod.mk.inj hvalue
  exact ⟨g, i, hg, hi, (lookups_agree harises "COMPILE").1.symm.trans hi, hname, hkeys⟩

end ProjectAnalysis
