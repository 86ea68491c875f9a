import ProjectAnalysis.SymbolUnion
import ProjectAnalysis.Proofs.OrderedTableLookup

/-! Tables of symbols that are merged. Every symbol stands under the key of its own name, so adding
the symbols of one table to another merges the two tables key by key; the table that is added to
decides on the spelling. -/
namespace ProjectAnalysis.SymbolTable

variable {α : Type} {P : NameKey → α → Prop} {t other : SymbolTable α}

/-- A fact about every entry of a table. -/
def All (P : NameKey → α → Prop) (t : SymbolTable α) : Prop :=
  ∀ key a, OrderedTable.get? t key = some a → P key a

theorem all_empty (P : NameKey → α → Prop) : All P (.empty : SymbolTable α) := by
  intro key a h
  cases h

theorem All.insert (h : t.All P) {name : String} {a : α} (ha : P (.of name) a) :
    (SymbolTable.insert t name a).All P := by
  intro key b hb
  rw [SymbolTable.insert, OrderedTable.get?_insert] at hb
  split at hb
  · next hkey =>
    obtain rfl := Option.some.inj hb
    exact hkey ▸ ha
  · exact h key b hb

theorem All.foldl_insert {β : Type} (name : β → String) (value : β → α) (bs : List β) (h : t.All P)
    (hbs : ∀ b, P (.of (name b)) (value b)) :
    (bs.foldl (fun t b => SymbolTable.insert t (name b) (value b)) t).All P := by
  induction bs generalizing t with
  | nil => exact h
  | cons b bs ih => exact ih (h.insert (hbs b))

theorem All.insertNew (h : t.All P) {name : String} {a : α} (ha : P (.of name) a) :
    (t.insertNew name a).All P := by
  intro key b hb
  rw [SymbolTable.insertNew, OrderedTable.get?_insertNew] at hb
  split at hb
  · rename_i hkey
    obtain ⟨rfl, -⟩ := hkey
    obtain rfl := Option.some.inj hb
    exact ha
  · exact h key b hb

theorem All.modify (h : t.All P) (name : String) {f : α → α} (hf : ∀ key a, P key a → P key (f a)) :
    (t.modify name f).All P := by
  intro key b hb
  rw [SymbolTable.modify, OrderedTable.get?_modify] at hb
  split at hb
  · rename_i hkey
    obtain ⟨a, ha, rfl⟩ := Option.map_eq_some_iff.1 hb
    exact hf key a (h key a (hkey ▸ ha))
  · exact h key b hb

/-- A table that has, key by key, what two tables have. -/
theorem All.merge (h : t.All P) (hother : other.All P) {f : α → α → α}
    (hf : ∀ key a b, P key a → P key b → P key (f a b)) {u : SymbolTable α}
    (hu : ∀ key, OrderedTable.get? u key =
      Option.merge f (OrderedTable.get? t key) (OrderedTable.get? other key)) : u.All P := by
  intro key c hc
  rw [hu key] at hc
  cases ha : OrderedTable.get? t key with
  | none =>
    rw [ha, Option.merge_none_left] at hc
    exact hother key c hc
  | some a =>
    cases hb : OrderedTable.get? other key with
    | none =>
      rw [ha, hb, Option.merge_none_right] at hc
      exact h key c (ha.trans hc)
    | some b =>
      rw [ha, hb] at hc
      obtain rfl := Option.some.inj hc
      exact hf key a b (h key a ha) (hother key b hb)

section
variable {name : α → String} {f : α → α → α} {step : SymbolTable α → α → SymbolTable α}
  (hstep : ∀ t a key, OrderedTable.get? (step t a) key =
    if .of (name a) = key then Option.merge f (OrderedTable.get? t key) (some a)
    else OrderedTable.get? t key)
include hstep

theorem get?_foldl_of_not_mem (symbols : List α) (t : SymbolTable α) {key : NameKey}
    (h : ∀ a ∈ symbols, .of (name a) ≠ key) :
    OrderedTable.get? (symbols.foldl step t) key = OrderedTable.get? t key := by
  induction symbols generalizing t with
  | nil => rfl
  | cons a symbols ih =>
    obtain ⟨ha, hsymbols⟩ := List.forall_mem_cons.1 h
    rw [List.foldl_cons, ih (step t a) hsymbols, hstep, if_neg ha]

/-- Taking in the symbols of a table one after the other merges it key by key. -/
theorem get?_foldl_values (t other : SymbolTable α) (hother : other.All fun key a =>
    key = .of (name a)) (key : NameKey) :
    OrderedTable.get? ((OrderedTable.values other).foldl step t) key =
      Option.merge f (OrderedTable.get? t key) (OrderedTable.get? other key) := by
  obtain ⟨entries, hnodup⟩ := other
  have hnamed : ∀ e ∈ entries, e.1 = .of (name e.2) := fun e he =>
    hother e.1 e.2 (OrderedTable.get?_eq_some_iff.2 he)
  clear hother
  change OrderedTable.get? ((entries.map Prod.snd).foldl step t) key = _
  induction entries generalizing t with
  | nil =>
    have hnone : OrderedTable.get? (⟨[], hnodup⟩ : SymbolTable α) key = none := rfl
    rw [hnone, Option.merge_none_right]
    rfl
  | cons e entries ih =>
    obtain ⟨he, hentries⟩ := List.forall_mem_cons.1 hnamed
    obtain ⟨hfresh, hnodup'⟩ := List.nodup_cons.1 hnodup
    rw [List.map_cons, List.foldl_cons]
    by_cases hkey : e.1 = key
    · -- No later entry has the key, so this one is merged and stays.
      have hlater : ∀ a ∈ entries.map Prod.snd, NameKey.of (name a) ≠ key := by
        intro a ha hname
        obtain ⟨e', he', rfl⟩ := List.mem_map.1 ha
        rw [← hentries e' he', ← hkey] at hname
        exact hfresh (List.mem_map.2 ⟨e', he', hname⟩)
      have hfound : OrderedTable.get? (⟨e :: entries, hnodup⟩ : SymbolTable α) key = some e.2 :=
        OrderedTable.get?_eq_some_iff.2 (by rw [← hkey]; exact List.mem_cons_self)
      rw [get?_foldl_of_not_mem hstep _ _ hlater, hstep, if_pos (he.symm.trans hkey), hfound]
    · have hrest : OrderedTable.get? (⟨e :: entries, hnodup⟩ : SymbolTable α) key =
          OrderedTable.get? (⟨entries, hnodup'⟩ : SymbolTable α) key := by
        simp [OrderedTable.get?, hkey]
      rw [ih (step t e.2) hnodup' hentries, hstep, if_neg (he ▸ hkey), hrest]

end

theorem get?_insertNew_self (name : α → String) (t : SymbolTable α) (a : α) (key : NameKey) :
    OrderedTable.get? (t.insertNew (name a) a) key =
      if .of (name a) = key then
        Option.merge (fun first _ => first) (OrderedTable.get? t key) (some a)
      else OrderedTable.get? t key := by
  rw [SymbolTable.insertNew, OrderedTable.get?_insertNew]
  by_cases hkey : NameKey.of (name a) = key
  · subst hkey
    cases OrderedTable.get? t (.of (name a)) <;> simp [Option.merge]
  · simp [hkey]

theorem get?_add [Symbol α] (t : SymbolTable α) (a : α) (key : NameKey) :
    OrderedTable.get? (t.add a) key =
      if .of (Symbol.name a) = key then
        Option.merge Symbol.merge (OrderedTable.get? t key) (some a)
      else OrderedTable.get? t key := by
  unfold add SymbolTable.contains OrderedTable.contains
  dsimp only
  split
  · rename_i hin
    obtain ⟨x, hx⟩ := Option.isSome_iff_exists.1 hin
    rw [SymbolTable.modify, OrderedTable.get?_modify]
    split
    · rename_i hkey
      rw [← hkey, hx]
      rfl
    · rfl
  · rename_i hout
    have hnone : OrderedTable.get? t (.of (Symbol.name a)) = none := by simpa using hout
    rw [SymbolTable.insert, OrderedTable.get?_insert]
    split
    · rename_i hkey
      rw [← hkey, hnone, Option.merge_none_left]
    · rfl

section
variable [Symbol α] (hmerge : ∀ key a b, P key a → P key b → P key (Symbol.merge a b))
include hmerge

theorem All.add (h : t.All P) {a : α} (ha : P (.of (Symbol.name a)) a) : (t.add a).All P := by
  intro key b hb
  rw [get?_add] at hb
  split at hb
  · next hkey =>
    subst hkey
    cases hfirst : OrderedTable.get? t (.of (Symbol.name a)) with
    | none =>
      rw [hfirst, Option.merge_none_left] at hb
      exact Option.some.inj hb ▸ ha
    | some first =>
      rw [hfirst] at hb
      obtain rfl := Option.some.inj hb
      exact hmerge _ first a (h _ first hfirst) ha
  · exact h key b hb

theorem All.addAll (symbols : List α) (h : t.All P)
    (hsymbols : ∀ a ∈ symbols, P (.of (Symbol.name a)) a) : (t.addAll symbols).All P := by
  induction symbols generalizing t with
  | nil => exact h
  | cons a symbols ih =>
    obtain ⟨ha, hsymbols⟩ := List.forall_mem_cons.1 hsymbols
    exact ih (h.add hmerge ha) hsymbols

end

/-- The union of two tables, key by key. -/
theorem get?_addAll [Symbol α] (t other : SymbolTable α)
    (hother : other.All fun key a => key = .of (Symbol.name a)) (key : NameKey) :
    OrderedTable.get? (t.addAll other.values) key =
      Option.merge Symbol.merge (OrderedTable.get? t key) (OrderedTable.get? other key) :=
  get?_foldl_values get?_add t other hother key

/-- How a table spells the name under a key. -/
def spelling (name : α → String) (t : SymbolTable α) (key : NameKey) : Option String :=
  (OrderedTable.get? t key).map name

theorem spelling_merge {name : α → String} {f : α → α → α} (hf : ∀ a b, name (f a b) = name a)
    {u : SymbolTable α} (hu : ∀ key, OrderedTable.get? u key =
      Option.merge f (OrderedTable.get? t key) (OrderedTable.get? other key)) (key : NameKey) :
    u.spelling name key = (t.spelling name key).or (other.spelling name key) := by
  unfold spelling
  rw [hu key]
  cases OrderedTable.get? t key <;> cases OrderedTable.get? other key <;>
    simp [Option.merge, hf]

theorem isSome_spelling_iff (name : α → String) {key : NameKey} :
    (t.spelling name key).isSome = true ↔ key ∈ t.keys := by
  rw [spelling, Option.isSome_map, ← OrderedTable.contains_iff]
  rfl

end ProjectAnalysis.SymbolTable

namespace ProjectAnalysis

namespace ItemInfo

theorem name_merge (i other : ItemInfo) : (i.merge other).name = i.name := rfl

theorem get?_metadata_merge (i other : ItemInfo)
    (hother : other.metadata.All fun key m => key = .of m.name) (key : NameKey) :
    OrderedTable.get? (i.merge other).metadata key =
      Option.merge (fun first _ => first) (OrderedTable.get? i.metadata key)
        (OrderedTable.get? other.metadata key) :=
  SymbolTable.get?_foldl_values (SymbolTable.get?_insertNew_self MetadataInfo.name) i.metadata
    other.metadata hother key

end ItemInfo

namespace TaskInfo

theorem foldl_addParameter (names : List String) (t : TaskInfo) :
    names.foldl addParameter t = { t with
      parameters := names.foldl (fun p n => SymbolTable.insertNew p n n) t.parameters } := by
  induction names generalizing t with
  | nil => rfl
  | cons name names ih => exact ih (t.addParameter name)

theorem name_merge (t other : TaskInfo) : (t.merge other).name = t.name := by
  rw [merge, foldl_addParameter]

theorem get?_parameters_merge (t other : TaskInfo)
    (hother : other.parameters.All fun key name => key = .of name) (key : NameKey) :
    OrderedTable.get? (t.merge other).parameters key =
      Option.merge (fun first _ => first) (OrderedTable.get? t.parameters key)
        (OrderedTable.get? other.parameters key) := by
  rw [merge, foldl_addParameter]
  exact SymbolTable.get?_foldl_values (SymbolTable.get?_insertNew_self id) t.parameters
    other.parameters hother key

end TaskInfo

end ProjectAnalysis
