import ProjectAnalysis.GenerationView
import ProjectAnalysis.Proofs.GenerationOrigin

/-! What the merged views of a generation show. A lookup merges the views that the document and its
imports have of one symbol, and has inside whatever any of these views has. So a generation whose
document and imports say at least as much as those of another one shows at least as much. -/
namespace ProjectAnalysis

theorem OrderedTable.mem_values_iff {κ α : Type} [DecidableEq κ] {t : OrderedTable κ α} {a : α} :
    a ∈ t.values ↔ ∃ k, t.get? k = some a := by
  simp only [OrderedTable.get?_eq_some_iff, OrderedTable.values, List.mem_map]
  constructor
  · rintro ⟨e, he, rfl⟩
    exact ⟨e.1, he⟩
  · rintro ⟨k, hk⟩
    exact ⟨(k, a), hk, rfl⟩

/-- What holds of every file of a generation holds of each of its imports. -/
theorem Generation.All.of_mem_imports {Q : FileSymbols → Prop} {g : Generation} (h : g.All Q)
    {i : ResolvedImport} (hi : i ∈ OrderedTable.values g.imports) : Q i.parsed.symbols := by
  obtain ⟨k, hk⟩ := OrderedTable.mem_values_iff.1 hi
  exact h.2 k i hk

theorem Generation.Proper.of_mem_imports {g : Generation} (h : g.Proper) {i : ResolvedImport}
    (hi : i ∈ OrderedTable.values g.imports) : i.parsed.symbols.Proper :=
  (proper_iff.1 h).of_mem_imports hi

/-- A key of a table that has, key by key, what two tables have. -/
theorem SymbolTable.mem_keys_merge {α : Type} {f : α → α → α} {t other u : SymbolTable α}
    {key : NameKey} (h : OrderedTable.get? u key =
      Option.merge f (OrderedTable.get? t key) (OrderedTable.get? other key)) :
    key ∈ u.keys ↔ key ∈ t.keys ∨ key ∈ other.keys := by
  simp only [← OrderedTable.contains_iff, OrderedTable.contains, h]
  cases OrderedTable.get? t key <;> cases OrderedTable.get? other key <;> simp [Option.merge]

namespace Generation

variable {α : Type}

/-- The views that a lookup merges. -/
def views (g : Generation) (table : FileSymbols → SymbolTable α) (name : String) : List α :=
  ((table g.symbols).get? name).toList ++
    if g.isVisible name then g.importedSymbols.filterMap fun s => (table s).get? name else []

theorem mem_views {g : Generation} {table : FileSymbols → SymbolTable α} {name : String} {a : α} :
    a ∈ g.views table name ↔ (table g.symbols).get? name = some a ∨
      g.isVisible name = true ∧ ∃ i ∈ OrderedTable.values g.imports,
        (table i.parsed.symbols).get? name = some a := by
  unfold views importedSymbols
  rw [List.mem_append, Option.mem_toList]
  apply or_congr Iff.rfl
  split
  · rename_i hvisible
    simp [hvisible]
  · rename_i hhidden
    simp [hhidden]

/-- Every view is good if those of proper files are. -/
theorem Proper.views {g : Generation} (h : g.Proper) {table : FileSymbols → SymbolTable α}
    {name : String} {Good : α → Prop}
    (hgood : ∀ s : FileSymbols, s.Named → ∀ a, (table s).get? name = some a → Good a) :
    ∀ a ∈ g.views table name, Good a := by
  intro a ha
  rcases mem_views.1 ha with hown | ⟨-, i, hi, himported⟩
  · exact hgood g.symbols h.symbols.named a hown
  · exact hgood i.parsed.symbols (h.of_mem_imports hi).named a himported

end Generation

section
variable {α : Type} [Symbol α] {Good : α → Prop} {inner : α → List NameKey}

/-- Merging two views of a symbol keeps what is inside of both. -/
structure Symbol.Unites (Good : α → Prop) (inner : α → List NameKey) : Prop where
  good : ∀ a b, Good a → Good b → Good (Symbol.merge a b)
  inner : ∀ a b key, Good a → Good b →
    (key ∈ inner (Symbol.merge a b) ↔ key ∈ inner a ∨ key ∈ inner b)

theorem mem_foldl_merge (h : Symbol.Unites Good inner) (more : List α)
    (hmore : ∀ b ∈ more, Good b) (a : α) (ha : Good a) (key : NameKey) :
    key ∈ inner (more.foldl Symbol.merge a) ↔ key ∈ inner a ∨ ∃ b ∈ more, key ∈ inner b := by
  induction more generalizing a with
  | nil => simp
  | cons b more ih =>
    obtain ⟨hb, hmore⟩ := List.forall_mem_cons.1 hmore
    rw [List.foldl_cons, ih hmore _ (h.good a b ha hb), h.inner a b key ha hb, or_assoc]
    simp only [List.mem_cons, exists_eq_or_imp]

/-- The merge of some views has inside what any of them has. -/
theorem mem_mergeAll? (h : Symbol.Unites Good inner) {views : List α}
    (hviews : ∀ b ∈ views, Good b) {a : α} (ha : mergeAll? views = some a) (key : NameKey) :
    key ∈ inner a ↔ ∃ b ∈ views, key ∈ inner b := by
  cases views with
  | nil => cases ha
  | cons b more =>
    obtain ⟨hb, hmore⟩ := List.forall_mem_cons.1 hviews
    obtain rfl := Option.some.inj ha
    rw [mem_foldl_merge h more hmore b hb]
    simp only [List.mem_cons, exists_eq_or_imp]

theorem exists_mergeAll? {views : List α} {b : α} (hb : b ∈ views) :
    ∃ a, mergeAll? views = some a := by
  cases views with
  | nil => cases hb
  | cons c more => exact ⟨_, rfl⟩

namespace Generation

theorem lookup_eq (g : Generation) (table : FileSymbols → SymbolTable α) (name : String) :
    g.lookup table name = mergeAll? (g.views table name) := rfl

/-- A name that may be seen is found just if the document or one of its imports has it. -/
theorem isSome_lookup_iff {g : Generation} {table : FileSymbols → SymbolTable α} {name : String}
    (hvisible : g.isVisible name = true) :
    (g.lookup table name).isSome = true ↔ (table g.symbols).contains name = true ∨
      ∃ i ∈ OrderedTable.values g.imports, (table i.parsed.symbols).contains name = true := by
  have hsome : (g.lookup table name).isSome = true ↔ ∃ a, a ∈ g.views table name := by
    rw [lookup_eq]
    cases g.views table name with
    | nil => simp [mergeAll?]
    | cons a more => simp [mergeAll?]
  simp only [hsome, mem_views, hvisible, true_and, SymbolTable.contains, OrderedTable.contains,
    Option.isSome_iff_exists]
  constructor
  · rintro ⟨a, hown | ⟨i, hi, himported⟩⟩
    · exact Or.inl ⟨a, hown⟩
    · exact Or.inr ⟨i, hi, a, himported⟩
  · rintro (⟨a, hown⟩ | ⟨i, hi, a, himported⟩)
    · exact ⟨a, Or.inl hown⟩
    · exact ⟨a, Or.inr ⟨i, hi, himported⟩⟩

/-- A generation shows private names alike, and has whatever another one imports, as it was read
there. -/
structure Extends (n p : Generation) : Prop where
  showPrivate : n.showPrivate = p.showPrivate
  imports : ∀ i ∈ OrderedTable.values p.imports, ∃ j ∈ OrderedTable.values n.imports,
    j.parsed = i.parsed

end Generation

/-- Merging a table behind another one keeps each symbol, with what is inside. -/
theorem SymbolTable.exists_get?_merge (hunites : Symbol.Unites Good inner)
    {t other u : SymbolTable α} {name : String}
    (hu : OrderedTable.get? u (.of name) = Option.merge Symbol.merge
      (OrderedTable.get? t (.of name)) (OrderedTable.get? other (.of name)))
    (ht : ∀ a, t.get? name = some a → Good a) (hother : ∀ a, other.get? name = some a → Good a)
    {a : α} (ha : other.get? name = some a) :
    ∃ b, u.get? name = some b ∧ ∀ key ∈ inner a, key ∈ inner b := by
  have hfound : OrderedTable.get? other (.of name) = some a := ha
  rw [hfound] at hu
  cases hfirst : OrderedTable.get? t (.of name) with
  | none =>
    rw [hfirst, Option.merge_none_left] at hu
    exact ⟨a, hu, fun _ hkey => hkey⟩
  | some b =>
    rw [hfirst] at hu
    refine ⟨Symbol.merge b a, hu, fun key hkey => ?_⟩
    rw [hunites.inner b a key (ht b hfirst) (hother a ha)]
    exact Or.inr hkey

namespace Generation

/-- A lookup finds what it finds in another generation, with at least the same inside, if the own
symbol of the document does. -/
theorem Extends.lookup {n p : Generation} (h : n.Extends p) (hunites : Symbol.Unites Good inner)
    {table : FileSymbols → SymbolTable α} {name : String}
    (hn : ∀ a ∈ n.views table name, Good a) (hp : ∀ a ∈ p.views table name, Good a)
    (hown : ∀ a, (table p.symbols).get? name = some a →
      ∃ b, (table n.symbols).get? name = some b ∧ ∀ key ∈ inner a, key ∈ inner b)
    {a : α} (ha : p.lookup table name = some a) :
    ∃ b, n.lookup table name = some b ∧ ∀ key ∈ inner a, key ∈ inner b := by
  have hview : ∀ v ∈ p.views table name,
      ∃ u ∈ n.views table name, ∀ key ∈ inner v, key ∈ inner u := by
    intro v hv
    rcases mem_views.1 hv with hv | ⟨hvisible, i, hi, hv⟩
    · obtain ⟨u, hu, hinner⟩ := hown v hv
      exact ⟨u, mem_views.2 (Or.inl hu), hinner⟩
    · obtain ⟨j, hj, hparsed⟩ := h.imports i hi
      have hvisible' : n.isVisible name = true := by
        rwa [isVisible, h.showPrivate]
      exact ⟨v, mem_views.2 (Or.inr ⟨hvisible', j, hj, hparsed ▸ hv⟩), fun _ hkey => hkey⟩
  rw [lookup_eq] at ha ⊢
  have hsome : ∃ v, v ∈ p.views table name := by
    cases hviews : p.views table name with
    | nil =>
      rw [hviews] at ha
      cases ha
    | cons v _ => exact ⟨v, List.mem_cons_self⟩
  obtain ⟨v, hv⟩ := hsome
  obtain ⟨u, hu, -⟩ := hview v hv
  obtain ⟨b, hb⟩ := exists_mergeAll? hu
  refine ⟨b, hb, fun key hkey => ?_⟩
  rw [mem_mergeAll? hunites hp ha] at hkey
  rw [mem_mergeAll? hunites hn hb]
  obtain ⟨v, hv, hkey⟩ := hkey
  obtain ⟨u, hu, hinner⟩ := hview v hv
  exact ⟨u, hu, hinner key hkey⟩

/-- So it does if the document still says what the other generation has of it, merged behind what
its own text says. -/
theorem Extends.lookup_merge {n p : Generation} (h : n.Extends p) (hn : n.Proper) (hp : p.Proper)
    (hunites : Symbol.Unites Good inner) {table : FileSymbols → SymbolTable α} {name : String}
    (hgood : ∀ s : FileSymbols, s.Named → ∀ a, (table s).get? name = some a → Good a)
    {own : FileSymbols} (hown : own.Named)
    (hmerge : OrderedTable.get? (table n.symbols) (.of name) =
      Option.merge Symbol.merge (OrderedTable.get? (table own) (.of name))
        (OrderedTable.get? (table p.symbols) (.of name)))
    {a : α} (ha : p.lookup table name = some a) :
    ∃ b, n.lookup table name = some b ∧ ∀ key ∈ inner a, key ∈ inner b := by
  apply h.lookup hunites (hn.views hgood) (hp.views hgood) ?_ ha
  intro v hv
  exact SymbolTable.exists_get?_merge hunites hmerge (hgood own hown)
    (hgood p.symbols hp.symbols.named) hv

end Generation

end

theorem ItemInfo.unites (key : NameKey) :
    Symbol.Unites (fun i : ItemInfo => i.StandsUnder key)
      fun i => OrderedTable.keys i.metadata := by
  refine ⟨fun i j => StandsUnder.merge, fun i j name _ hj => ?_⟩
  exact SymbolTable.mem_keys_merge (i.get?_metadata_merge j hj.2 name)

theorem TaskInfo.unites (key : NameKey) :
    Symbol.Unites (fun t : TaskInfo => t.StandsUnder key)
      fun t => OrderedTable.keys t.parameters := by
  refine ⟨fun t u => StandsUnder.merge, fun t u name _ hu => ?_⟩
  exact SymbolTable.mem_keys_merge (t.get?_parameters_merge u hu.2 name)

theorem PropertyInfo.unites : Symbol.Unites (fun _ : PropertyInfo => True) fun _ => [] := by
  refine ⟨fun _ _ _ _ => trivial, fun _ _ _ _ _ => ?_⟩
  rw [or_self]

end ProjectAnalysis
