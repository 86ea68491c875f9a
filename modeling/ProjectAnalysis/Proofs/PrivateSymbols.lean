import ProjectAnalysis.Completion
import ProjectAnalysis.Proofs.LookupAgreement

/-! Private symbols. Those of an import are not seen: two generations that differ in nothing else
answer every question in the same way. Those of the document are seen as they are. -/
namespace ProjectAnalysis

variable {α : Type}

/-- The entries of a table that other files may see. -/
def SymbolTable.shared [Symbol α] (t : SymbolTable α) : List (NameKey × α) :=
  t.entries.filter fun e => !isPrivateName (Symbol.name e.2)

/-- What a file says of symbols whose names are not private. -/
structure SharedSymbols where
  items : List (NameKey × ItemInfo)
  tasks : List (NameKey × TaskInfo)
  properties : List (NameKey × PropertyInfo)
deriving DecidableEq

def FileSymbols.shared (s : FileSymbols) : SharedSymbols :=
  ⟨s.items.shared, s.tasks.shared, s.properties.shared⟩

namespace Generation

/-- Two generations of one document that differ at most in the private symbols of their imports. -/
structure SameShared (g h : Generation) : Prop where
  toolsVersion : g.toolsVersion = h.toolsVersion
  symbols : g.symbols = h.symbols
  imports : g.importedSymbols.map FileSymbols.shared = h.importedSymbols.map FileSymbols.shared

/-- What a generation tells of the private symbols of its own document, and of the metadata that
the document gives to an item. Well-known metadata stands in the place of that with its name. -/
structure ShowsOwn (g : Generation) : Prop where
  item : ∀ name i, isPrivateName name = true → g.symbols.items.get? name = some i →
    g.item? name = some i ∧ g.items.get? name = some i ∧
    ∀ typed enclosing, startsIgnoringCase typed.toList i.name.toList = true →
      .ofSymbol .item i ∈ g.expressionCompletions (.item typed) enclosing
  task : ∀ name t, isPrivateName name = true → g.symbols.tasks.get? name = some t →
    g.task? name = some t ∧ g.tasks.get? name = some t
  property : ∀ name p, isPrivateName name = true → g.symbols.properties.get? name = some p →
    g.property? name = some p ∧ (∀ wellKnown, (g.properties wellKnown).get? name = some p) ∧
    ∀ typed enclosing, startsIgnoringCase typed.toList p.name.toList = true →
      .ranked .property p.wellKnown p ∈ g.expressionCompletions (.property typed) enclosing
  metadata : ∀ name i m, g.symbols.items.get? name = some i → m ∈ OrderedTable.values i.metadata →
    m ∈ g.itemMetadata name false ∧ (g.builtins.isMetadata m.name = false →
      m ∈ g.itemMetadata name true ∧
      ∀ owner typed enclosing, owner.or enclosing = some name →
        startsIgnoringCase typed.toList m.name.toList = true →
        .ranked .metadata m.wellKnown m ∈ g.expressionCompletions (.metadata owner typed) enclosing)
  unshadowed : ∀ name, isPrivateName name = true →
    g.builtins.isProperty name = false ∧ g.builtins.isMetadata name = false

section
variable [Symbol α] {g h : Generation} {table : FileSymbols → SymbolTable α}
  (part : SharedSymbols → List (NameKey × α)) (hpart : ∀ s, (table s).shared = part s.shared)
include hpart

/-- What the imports share is all that is left of them when private names are hidden. -/
theorem filter_flatMap_shared (ss : List FileSymbols) :
    (ss.flatMap fun s => (table s).values).filter (fun a => !isPrivateName (Symbol.name a)) =
      (ss.map FileSymbols.shared).flatMap fun q => (part q).map Prod.snd := by
  have hone (s : FileSymbols) :
      (table s).values.filter (fun a => !isPrivateName (Symbol.name a)) =
        (part s.shared).map Prod.snd := by
    rw [OrderedTable.values, List.filter_map, ← hpart]
    rfl
  induction ss with
  | nil => rfl
  | cons s ss ih => rw [List.flatMap_cons, List.filter_append, hone, ih, List.map_cons,
      List.flatMap_cons]

/-- A table that is merged depends on no more of the imports than what they share. -/
theorem SameShared.merged_eq (hsame : g.SameShared h) (hidden : g.showPrivate = false)
    (hidden' : h.showPrivate = false) (given : SymbolTable α) :
    g.merged given table = h.merged given table := by
  unfold merged isVisible
  simp only [hidden, hidden', Bool.false_or]
  rw [filter_flatMap_shared part hpart, filter_flatMap_shared part hpart, hsame.imports,
    hsame.symbols]

end

section
variable {g h : Generation} (hsame : g.SameShared h) (hidden : g.showPrivate = false)
  (hidden' : h.showPrivate = false)
include hsame hidden hidden'

theorem SameShared.items_eq : g.items = h.items :=
  hsame.merged_eq SharedSymbols.items (fun _ => rfl) hidden hidden' .empty

theorem SameShared.tasks_eq : g.tasks = h.tasks :=
  hsame.merged_eq SharedSymbols.tasks (fun _ => rfl) hidden hidden' .empty

theorem SameShared.properties_eq (wellKnown : Bool) :
    g.properties wellKnown = h.properties wellKnown := by
  unfold properties builtins
  rw [hsame.toolsVersion]
  exact hsame.merged_eq SharedSymbols.properties (fun _ => rfl) hidden hidden' _

variable (hg : g.Proper) (hh : h.Proper) (name : String)
include hg hh

theorem SameShared.item?_eq : g.item? name = h.item? name := by
  rw [hg.item?_eq, hsame.items_eq hidden hidden', hh.item?_eq]

theorem SameShared.task?_eq : g.task? name = h.task? name := by
  rw [hg.task?_eq, hsame.tasks_eq hidden hidden', hh.task?_eq]

theorem SameShared.property?_eq : g.property? name = h.property? name := by
  rw [hg.property?_eq, hsame.properties_eq hidden hidden' false, builtins, hsame.toolsVersion,
    hh.property?_eq]
  rfl

theorem SameShared.itemMetadata_eq (wellKnown : Bool) :
    g.itemMetadata name wellKnown = h.itemMetadata name wellKnown := by
  unfold itemMetadata builtins
  rw [hsame.item?_eq hidden hidden' hg hh, hsame.toolsVersion]

end

end Generation

/-- Putting values under names adds no keys but those of the names. -/
theorem SymbolTable.mem_keys_foldl_insert {β : Type} (name : β → String) (value : β → α)
    (bs : List β) (t : SymbolTable α) {key : NameKey}
    (h : key ∈ OrderedTable.keys
      (bs.foldl (fun t b => SymbolTable.insert t (name b) (value b)) t)) :
    key ∈ OrderedTable.keys t ∨ ∃ b ∈ bs, NameKey.of (name b) = key := by
  induction bs generalizing t with
  | nil => exact Or.inl h
  | cons b bs ih =>
    rcases ih (SymbolTable.insert t (name b) (value b)) h with hkey | ⟨c, hc, hkey⟩
    · by_cases hb : NameKey.of (name b) = key
      · exact Or.inr ⟨b, List.mem_cons_self, hb⟩
      · rw [← OrderedTable.contains_iff, OrderedTable.contains, SymbolTable.insert,
          OrderedTable.get?_insert, if_neg hb] at hkey
        exact Or.inl (OrderedTable.contains_iff.1 hkey)
    · exact Or.inr ⟨c, List.mem_cons_of_mem _ hc, hkey⟩

/-- No well-known symbol is private. -/
theorem Builtins.not_contains_of_private (v : ToolsVersion) {name : String}
    (h : isPrivateName name = true) :
    (of v).isProperty name = false ∧ (of v).isMetadata name = false := by
  have hproperties : ∀ p ∈ builtinProperties, isPrivateName p.name = false := by decide
  have hmetadata : ∀ m ∈ builtinMetadata, isPrivateName m.name = false := by decide
  constructor
  · refine OrderedTable.contains_eq_false_iff.2 fun hkey => ?_
    obtain hkey | ⟨p, hp, hkey⟩ := SymbolTable.mem_keys_foldl_insert _ _ _ _ hkey
    · exact absurd hkey List.not_mem_nil
    · have hpublic := hproperties p (List.mem_filter.1 hp).1
      rw [isPrivateName_congr hkey, h] at hpublic
      cases hpublic
  · refine OrderedTable.contains_eq_false_iff.2 fun hkey => ?_
    obtain hkey | ⟨m, hm, hkey⟩ := SymbolTable.mem_keys_foldl_insert _ _ _ _ hkey
    · exact absurd hkey List.not_mem_nil
    · have hpublic := hmetadata m (List.mem_filter.1 hm).1
      rw [isPrivateName_congr hkey, h] at hpublic
      cases hpublic

namespace Generation

variable {g : Generation}

/-- Of a private name there is no view but that of the document. -/
theorem views_of_private {table : FileSymbols → SymbolTable α} {name : String} {a : α}
    (hidden : g.showPrivate = false) (hname : isPrivateName name = true)
    (ha : (table g.symbols).get? name = some a) : g.views table name = [a] := by
  have hshut : g.isVisible name = false := by
    rw [isVisible, hidden, hname]
    rfl
  rw [views, ha, hshut, if_neg Bool.false_ne_true]
  rfl

/-- Merging further views into an item keeps its metadata. -/
theorem foldl_merge_keeps {key : NameKey} (more : List ItemInfo)
    (hmore : ∀ j ∈ more, j.StandsUnder key) {i : ItemInfo} (hi : i.StandsUnder key) :
    (more.foldl Symbol.merge i).StandsUnder key ∧
      ∀ k m, OrderedTable.get? i.metadata k = some m →
        OrderedTable.get? (more.foldl Symbol.merge i).metadata k = some m := by
  -- Metadata stays with the first item that gives it, and `i` is the first of all.
  induction more generalizing i with
  | nil => exact ⟨hi, fun _ _ hm => hm⟩
  | cons j more ih =>
    obtain ⟨hj, hmore⟩ := List.forall_mem_cons.1 hmore
    obtain ⟨hgood, hkept⟩ := ih hmore (hi.merge hj)
    refine ⟨hgood, fun k m hm => hkept k m ?_⟩
    show OrderedTable.get? (i.merge j).metadata k = some m
    rw [i.get?_metadata_merge j hj.2, hm]
    cases OrderedTable.get? j.metadata k <;> rfl

theorem Proper.exists_item? (hg : g.Proper) {name : String} {i : ItemInfo}
    (hi : g.symbols.items.get? name = some i) : ∃ j, g.item? name = some j ∧
      j.StandsUnder (.of name) ∧ ∀ k m, OrderedTable.get? i.metadata k = some m →
        OrderedTable.get? j.metadata k = some m := by
  -- The view of the document is the first of all, and the others are merged into it.
  have hviews : ∀ j ∈ g.views (·.items) name, j.StandsUnder (.of name) :=
    hg.views fun s hs j hj => hs.items (.of name) j hj
  have hcons : g.views (·.items) name = i ::
      if g.isVisible name then g.importedSymbols.filterMap fun s => s.items.get? name else [] := by
    rw [Generation.views, hi]
    rfl
  rw [hcons] at hviews
  obtain ⟨hgood, hmore⟩ := List.forall_mem_cons.1 hviews
  exact ⟨_, (g.lookup_eq (·.items) name).trans (congrArg mergeAll? hcons),
    foldl_merge_keeps _ hmore hgood⟩

/-- The metadata that the document gives to an item is among that of the item. -/
theorem Proper.mem_itemMetadata (hg : g.Proper) {name : String} {i : ItemInfo} {m : MetadataInfo}
    (hi : g.symbols.items.get? name = some i) (hm : m ∈ OrderedTable.values i.metadata)
    {wellKnown : Bool} (hfree : wellKnown = true → g.builtins.isMetadata m.name = false) :
    m ∈ g.itemMetadata name wellKnown := by
  obtain ⟨j, hj, hgood, hkept⟩ := hg.exists_item? hi
  have hown : OrderedTable.get? j.metadata (.of m.name) = some m := by
    obtain ⟨k, hk⟩ := OrderedTable.mem_values_iff.1 hm
    obtain rfl := (hg.symbols.named.items _ i hi).2 k m hk
    exact hkept _ m hk
  have hgiven : OrderedTable.get?
      (if wellKnown then g.builtins.metadata else .empty : SymbolTable MetadataInfo)
      (.of m.name) = none := by
    cases wellKnown with
    | false => rfl
    | true => exact Option.not_isSome_iff_eq_none.1 (Bool.eq_false_iff.1 (hfree rfl))
  have hkeyed : SymbolTable.Keyed j.metadata := hgood.2
  -- The metadata of the item is put behind what is well known, and there its key is free.
  unfold itemMetadata
  rw [hj]
  refine OrderedTable.mem_values_iff.2 ⟨.of m.name, ?_⟩
  rw [SymbolTable.get?_addAll_eq, hgiven, hkeyed.filter_values, hown]
  rfl

theorem mem_continuing [Symbol α] {typed : String} {symbols : List α} {a : α} (ha : a ∈ symbols)
    (h : startsIgnoringCase typed.toList (Symbol.name a).toList = true) :
    a ∈ continuing typed symbols :=
  List.mem_filter.2 ⟨ha, h⟩

/-- The private symbols of a document are seen, whatever its imports have. -/
theorem Proper.showsOwn (hg : g.Proper) (hidden : g.showPrivate = false) : g.ShowsOwn where
  item name i hname hi := by
    have hfound : g.item? name = some i := by
      rw [item?, lookup_eq, views_of_private hidden hname hi]
      rfl
    have hall : g.items.get? name = some i := hg.item?_eq name ▸ hfound
    refine ⟨hfound, hall, fun typed enclosing htyped => List.mem_map_of_mem ?_⟩
    exact mem_continuing (OrderedTable.mem_values_iff.2 ⟨_, hall⟩) htyped
  task name t hname ht := by
    have hfound : g.task? name = some t := by
      rw [task?, lookup_eq, views_of_private hidden hname ht]
      rfl
    exact ⟨hfound, hg.task?_eq name ▸ hfound⟩
  property name p hname hp := by
    have hviews : g.views (·.properties) name = [p] := views_of_private hidden hname hp
    have hall (wellKnown : Bool) : (g.properties wellKnown).get? name = some p := by
      obtain ⟨hown, himports⟩ := hg.keyed fun _ => FileSymbols.Named.keyed_properties
      have hgiven : (if wellKnown then g.builtins.properties else .empty :
          SymbolTable PropertyInfo).get? name = none := by
        cases wellKnown with
        | false => rfl
        | true =>
          have hfree := (Builtins.not_contains_of_private g.toolsVersion hname).1
          exact Option.not_isSome_iff_eq_none.1 (Bool.eq_false_iff.1 hfree)
      rw [properties, get?_merged hown himports, hgiven, hviews]
      rfl
    refine ⟨?_, hall, fun typed enclosing htyped => ?_⟩
    · rw [hg.property?_eq, hall]
      rfl
    · have hmem := OrderedTable.mem_values_iff.2 ⟨_, hall true⟩
      exact List.mem_map.2 ⟨p, mem_continuing hmem htyped, rfl⟩
  metadata name i m hi hm := by
    refine ⟨hg.mem_itemMetadata hi hm nofun, fun hfree => ?_⟩
    have hmem : m ∈ g.itemMetadata name true := hg.mem_itemMetadata hi hm fun _ => hfree
    refine ⟨hmem, fun owner typed enclosing howner htyped => ?_⟩
    unfold expressionCompletions
    dsimp only
    rw [howner]
    exact List.mem_map.2 ⟨m, mem_continuing hmem htyped, rfl⟩
  unshadowed name hname := Builtins.not_contains_of_private g.toolsVersion hname

end Generation

/-- Nothing that is asked of a generation depends on the private symbols of its imports, as long as
these are not to be shown: of two that differ in nothing else, each table, each lookup and each list
of completions is the same. The private symbols of the document itself are all seen. -/
theorem Resolver.private_symbols_hidden {r r' : Resolver} {file file' : FilePath}
    {g h : Generation} (hg : r.Arises file g) (hh : r'.Arises file' h)
    (hidden : g.showPrivate = false) (hidden' : h.showPrivate = false) (hsame : g.SameShared h) :
    g.items = h.items ∧ g.tasks = h.tasks ∧
      (∀ wellKnown, g.properties wellKnown = h.properties wellKnown) ∧
      (∀ name, g.item? name = h.item? name ∧ g.task? name = h.task? name ∧
        g.property? name = h.property? name ∧
        ∀ wellKnown, g.itemMetadata name wellKnown = h.itemMetadata name wellKnown) ∧
      (∀ trigger enclosing,
        g.expressionCompletions trigger enclosing = h.expressionCompletions trigger enclosing) ∧
      g.ShowsOwn := by
  have hitems := hsame.items_eq hidden hidden'
  have hproperties := hsame.properties_eq hidden hidden'
  have hmetadata := hsame.itemMetadata_eq hidden hidden' hg.proper hh.proper
  -- Completions are made of the tables and of the metadata, which are the same already.
  refine ⟨hitems, hsame.tasks_eq hidden hidden', hproperties, fun name => ⟨?_, ?_, ?_, ?_⟩,
    fun trigger enclosing => ?_, hg.proper.showsOwn hidden⟩
  · exact hsame.item?_eq hidden hidden' hg.proper hh.proper name
  · exact hsame.task?_eq hidden hidden' hg.proper hh.proper name
  · exact hsame.property?_eq hidden hidden' hg.proper hh.proper name
  · exact hmetadata name
  · unfold Generation.expressionCompletions
    cases trigger with
    | property typed => rw [hproperties]
    | item typed => rw [hitems]
    | metadata owner typed => simp only [hmetadata]

/-- A private item that a document and an import have, the import with metadata of its own. -/
theorem Resolver.private_symbols_hidden_same_key :
    let r : Resolver := ⟨.standard, false⟩
    let file : FilePath := ⟨"/p/a.proj"⟩
    let x : FilePath := ⟨"/p/x.props"⟩
    let s := FileStore.empty.write x
      "<Project><ItemGroup><_T Link='b' /><Compile /></ItemGroup></Project>"
    let s' := FileStore.empty.write x "<Project><ItemGroup><Compile /></ItemGroup></Project>"
    let d : Xml.Document := .ofText ("<Project><Import Project='x.props' />" ++
      "<ItemGroup><_t Pack='d' /></ItemGroup></Project>")
    ∃ g h i, (r.resolve file d none s).1 = .ok g ∧ (r.resolve file d none s').1 = .ok h ∧
      (g.importedSymbols.map fun q => q.items.contains "_T") = [true] ∧
      (h.importedSymbols.map fun q => q.items.contains "_T") = [false] ∧
      g.items = h.items ∧ g.item? "_T" = some i ∧ h.item? "_T" = some i ∧
      OrderedTable.keys i.metadata = [.of "pack"] := by
  intro r file x s s' d
  -- The import of the first run has the private item and that of the second has not, and all that
  -- they share is the same.
  have hseen : (r.resolve file d none s).1.toOption.map (fun g =>
      (g.toolsVersion, g.showPrivate, g.importedSymbols.map FileSymbols.shared)) =
      (r.resolve file d none s').1.toOption.map fun h =>
        (h.toolsVersion, h.showPrivate, h.importedSymbols.map FileSymbols.shared) := by
    decide +kernel +revert
  have hfirst : (r.resolve file d none s).1.toOption.map (fun g => (g.showPrivate,
      g.importedSymbols.map fun q => q.items.contains "_T",
      (g.symbols.items.get? "_T").map fun i => OrderedTable.keys i.metadata)) =
      some (false, [true], some [.of "pack"]) := by
    clear hseen
    decide +kernel +revert
  have hsecond : (r.resolve file d none s').1.toOption.map (fun h =>
      h.importedSymbols.map fun q => q.items.contains "_T") = some [false] := by
    clear hseen hfirst
    decide +kernel +revert
  obtain ⟨g, hg, hsymbols⟩ := r.exists_resolve file d none s
  obtain ⟨h, hh, hsymbols'⟩ := r.exists_resolve file d none s'
  rw [hg] at hfirst hseen
  rw [hh] at hsecond hseen
  obtain ⟨hidden, hrest⟩ := Prod.mk.inj (Option.some.inj hfirst)
  obtain ⟨himported, hkeys⟩ := Prod.mk.inj hrest
  obtain ⟨i, hi, hkeys⟩ := Option.map_eq_some_iff.1 hkeys
  obtain ⟨hversion, hrest⟩ := Prod.mk.inj (Option.some.inj hseen)
  obtain ⟨hshow, himports⟩ := Prod.mk.inj hrest
  have hsame : g.SameShared h := ⟨hversion, hsymbols.trans hsymbols'.symm, himports⟩
  obtain ⟨hitems, -, -, hlookups, -, hown⟩ :=
    private_symbols_hidden (.first hg) (.first hh) hidden (hshow ▸ hidden) hsame
  have hfound : g.item? "_T" = some i := (hown.item "_T" i (by decide) hi).1
  exact ⟨g, h, i, hg, hh, himported, Option.some.inj hsecond, hitems, hfound,
    (hlookups "_T").1.symm.trans hfound, hkeys⟩

end ProjectAnalysis
