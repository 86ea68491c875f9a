import ProjectAnalysis.FileSymbols
import ProjectAnalysis.Proofs.SymbolTableMerge

/-! What a file remembers of its earlier texts. Merging in the symbols of an earlier text is a
union, table by table and inside each item and each task; what several texts say gathers so, and
the latest text that has a symbol spells its name. -/
namespace ProjectAnalysis

/-- An item stands under the key of its name, and so does its metadata. -/
def ItemInfo.StandsUnder (i : ItemInfo) (key : NameKey) : Prop :=
  key = .of i.name ∧ i.metadata.All fun key m => key = .of m.name

/-- A task stands under the key of its name, and so do its parameters. -/
def TaskInfo.StandsUnder (t : TaskInfo) (key : NameKey) : Prop :=
  key = .of t.name ∧ t.parameters.All fun key name => key = .of name

section
variable {key : NameKey}

theorem ItemInfo.StandsUnder.merge {i j : ItemInfo} (hi : i.StandsUnder key)
    (hj : j.StandsUnder key) : (i.merge j).StandsUnder key := by
  refine ⟨hi.1, hi.2.merge hj.2 ?_ (i.get?_metadata_merge j hj.2)⟩
  exact fun key m m' hm _ => hm

theorem TaskInfo.StandsUnder.merge {t u : TaskInfo} (ht : t.StandsUnder key)
    (hu : u.StandsUnder key) : (t.merge u).StandsUnder key := by
  refine ⟨?_, ht.2.merge hu.2 ?_ (t.get?_parameters_merge u hu.2)⟩
  · rw [TaskInfo.name_merge]
    exact ht.1
  · exact fun key n n' hn _ => hn

end

namespace SymbolTable

variable {α β : Type} {inner : α → SymbolTable β}

/-- The table inside of the symbol under a key; an empty one if there is no such symbol. -/
def within (inner : α → SymbolTable β) (t : SymbolTable α) (key : NameKey) : SymbolTable β :=
  ((OrderedTable.get? t key).map inner).getD .empty

/-- If merging two symbols merges what is inside, merging two tables does so under every key. -/
theorem get?_within_merge {f : α → α → α} {f' : β → β → β} {t other u : SymbolTable α}
    {owner key : NameKey} (hu : OrderedTable.get? u owner =
      Option.merge f (OrderedTable.get? t owner) (OrderedTable.get? other owner))
    (hinner : ∀ a b, OrderedTable.get? other owner = some b →
      OrderedTable.get? (inner (f a b)) key =
        Option.merge f' (OrderedTable.get? (inner a) key) (OrderedTable.get? (inner b) key)) :
    OrderedTable.get? (u.within inner owner) key =
      Option.merge f' (OrderedTable.get? (t.within inner owner) key)
        (OrderedTable.get? (other.within inner owner) key) := by
  have hnone : OrderedTable.get? (.empty : SymbolTable β) key = none := rfl
  unfold within
  rw [hu]
  cases OrderedTable.get? t owner with
  | none =>
    rw [Option.merge_none_left, Option.map_none, Option.getD_none, hnone, Option.merge_none_left]
  | some a =>
    cases hb : OrderedTable.get? other owner with
    | none =>
      rw [Option.merge_none_right, Option.map_none, Option.getD_none, hnone,
        Option.merge_none_right]
    | some b => exact hinner a b hb

end SymbolTable

namespace FileSymbols

/-- Every symbol stands under the key of its name. -/
structure Named (s : FileSymbols) : Prop where
  items : s.items.All fun key i => i.StandsUnder key
  tasks : s.tasks.All fun key t => t.StandsUnder key
  properties : s.properties.All fun key p => key = .of p.name

variable {s previous : FileSymbols}

theorem note_named (h : s.Named) (m : Mention) : (s.note m).Named := by
  have hitem (name : String) : (ItemInfo.named name).StandsUnder (.of name) :=
    ⟨rfl, SymbolTable.all_empty _⟩
  have htask (name : String) : (TaskInfo.named name).StandsUnder (.of name) :=
    ⟨rfl, SymbolTable.all_empty _⟩
  cases m with
  | property name => exact { h with properties := h.properties.insertNew rfl }
  | item name => exact { h with items := h.items.insertNew (hitem name) }
  | task name => exact { h with tasks := h.tasks.insertNew (htask name) }
  | metadata item name =>
    have hnew := h.items.insertNew (hitem item)
    refine { h with items := hnew.modify item fun key i hi => ⟨hi.1, ?_⟩ }
    exact hi.2.insertNew rfl
  | parameter task name =>
    have hnew := h.tasks.insertNew (htask task)
    refine { h with tasks := hnew.modify task fun key t ht => ⟨ht.1, ?_⟩ }
    exact ht.2.insertNew rfl

theorem ofDocument_named (b : Builtins) (x : ImportScope) (d : Xml.Document) :
    (ofDocument b x d).Named := by
  have hfold (mentions : List Mention) (s : FileSymbols) (h : s.Named) :
      (mentions.foldl note s).Named := by
    induction mentions generalizing s with
    | nil => exact h
    | cons m mentions ih => exact ih (s.note m) (note_named h m)
  have hempty : Named empty :=
    ⟨SymbolTable.all_empty _, SymbolTable.all_empty _, SymbolTable.all_empty _⟩
  have hall := hfold (d.walk.flatMap (·.mentions b)) empty hempty
  exact ⟨hall.items, hall.tasks, hall.properties⟩

section
variable (s) (h : previous.Named) (key : NameKey)
include h

theorem get?_items_merge : OrderedTable.get? (s.merge previous).items key =
    Option.merge ItemInfo.merge (OrderedTable.get? s.items key)
      (OrderedTable.get? previous.items key) :=
  SymbolTable.get?_addAll s.items previous.items (fun key i hi => (h.items key i hi).1) key

theorem get?_tasks_merge : OrderedTable.get? (s.merge previous).tasks key =
    Option.merge TaskInfo.merge (OrderedTable.get? s.tasks key)
      (OrderedTable.get? previous.tasks key) :=
  SymbolTable.get?_addAll s.tasks previous.tasks (fun key t ht => (h.tasks key t ht).1) key

theorem get?_properties_merge : OrderedTable.get? (s.merge previous).properties key =
    Option.merge (fun first _ => first) (OrderedTable.get? s.properties key)
      (OrderedTable.get? previous.properties key) :=
  SymbolTable.get?_addAll s.properties previous.properties h.properties key

end

theorem merge_named (h : s.Named) (hprevious : previous.Named) : (s.merge previous).Named := by
  have hitem (key : NameKey) (i j : ItemInfo) (hi : i.StandsUnder key) (hj : j.StandsUnder key) :
      (i.merge j).StandsUnder key := hi.merge hj
  have htask (key : NameKey) (t u : TaskInfo) (ht : t.StandsUnder key) (hu : u.StandsUnder key) :
      (t.merge u).StandsUnder key := ht.merge hu
  exact ⟨h.items.merge hprevious.items hitem (s.get?_items_merge hprevious),
    h.tasks.merge hprevious.tasks htask (s.get?_tasks_merge hprevious),
    h.properties.merge hprevious.properties (fun key p q hp _ => hp)
      (s.get?_properties_merge hprevious)⟩

/-- The metadata of an item; none if there is no such item. -/
def metadataOf (s : FileSymbols) (item : NameKey) : SymbolTable MetadataInfo :=
  match OrderedTable.get? s.items item with
  | some i => i.metadata
  | none => .empty

/-- The parameters of a task; none if there is no such task. -/
def parametersOf (s : FileSymbols) (task : NameKey) : SymbolTable String :=
  match OrderedTable.get? s.tasks task with
  | some t => t.parameters
  | none => .empty

theorem metadataOf_eq (s : FileSymbols) (item : NameKey) :
    s.metadataOf item = s.items.within ItemInfo.metadata item := by
  unfold metadataOf SymbolTable.within
  cases OrderedTable.get? s.items item <;> rfl

theorem parametersOf_eq (s : FileSymbols) (task : NameKey) :
    s.parametersOf task = s.tasks.within TaskInfo.parameters task := by
  unfold parametersOf SymbolTable.within
  cases OrderedTable.get? s.tasks task <;> rfl

theorem get?_metadataOf_merge (s : FileSymbols) (h : previous.Named) (item key : NameKey) :
    OrderedTable.get? ((s.merge previous).metadataOf item) key =
      Option.merge (fun first _ => first) (OrderedTable.get? (s.metadataOf item) key)
        (OrderedTable.get? (previous.metadataOf item) key) := by
  simp only [metadataOf_eq]
  apply SymbolTable.get?_within_merge (s.get?_items_merge h item)
  intro i j hj
  exact i.get?_metadata_merge j (h.items item j hj).2 key

theorem get?_parametersOf_merge (s : FileSymbols) (h : previous.Named) (task key : NameKey) :
    OrderedTable.get? ((s.merge previous).parametersOf task) key =
      Option.merge (fun first _ => first) (OrderedTable.get? (s.parametersOf task) key)
        (OrderedTable.get? (previous.parametersOf task) key) := by
  simp only [parametersOf_eq]
  apply SymbolTable.get?_within_merge (s.get?_tasks_merge h task)
  intro t u hu
  exact t.get?_parameters_merge u (h.tasks task u hu).2 key

theorem mem_imports_merge (s previous : FileSymbols) (raw : String) :
    raw ∈ (s.merge previous).imports ↔ raw ∈ s.imports ∨ raw ∈ previous.imports := by
  change raw ∈ s.imports ++ previous.imports.filter (!s.imports.contains ·) ↔ _
  rw [List.mem_append, List.mem_filter]
  by_cases hraw : raw ∈ s.imports <;> simp [hraw]

end FileSymbols

/-- A table holds what some numbered tables hold together, from number `first` to number `last`;
each name is spelled as by the last of these tables that has it. -/
structure SymbolTable.Gathers {α : Type} (name : α → String) (tables : Nat → SymbolTable α)
    (first last : Nat) (t : SymbolTable α) : Prop where
  keys : ∀ key, key ∈ t.keys ↔ ∃ i, first ≤ i ∧ i ≤ last ∧ key ∈ (tables i).keys
  spelling : ∀ key, key ∈ t.keys → ∃ i, first ≤ i ∧ i ≤ last ∧ key ∈ (tables i).keys ∧
    t.spelling name key = (tables i).spelling name key ∧
    ∀ j, i < j → j ≤ last → key ∉ (tables j).keys

/-- The symbols of a file are what some of its texts say together. -/
structure FileSymbols.Gathers (texts : Nat → FileSymbols) (first last : Nat) (s : FileSymbols) :
    Prop where
  items : s.items.Gathers ItemInfo.name (fun i => (texts i).items) first last
  metadata : ∀ item, (s.metadataOf item).Gathers MetadataInfo.name
    (fun i => (texts i).metadataOf item) first last
  tasks : s.tasks.Gathers TaskInfo.name (fun i => (texts i).tasks) first last
  parameters : ∀ task, (s.parametersOf task).Gathers id
    (fun i => (texts i).parametersOf task) first last
  properties : s.properties.Gathers PropertyInfo.name (fun i => (texts i).properties) first last
  imports : ∀ raw, raw ∈ s.imports ↔ ∃ i, first ≤ i ∧ i ≤ last ∧ raw ∈ (texts i).imports

section
variable {first last : Nat} {P : Nat → Prop}

theorem exists_between_self {n : Nat} : (∃ i, n ≤ i ∧ i ≤ n ∧ P i) ↔ P n := by
  constructor
  · rintro ⟨i, hn, hi, h⟩
    obtain rfl := Nat.le_antisymm hn hi
    exact h
  · exact fun h => ⟨n, Nat.le_refl n, Nat.le_refl n, h⟩

theorem exists_between_succ (hle : first ≤ last) :
    (∃ i, first ≤ i ∧ i ≤ last + 1 ∧ P i) ↔
      P (last + 1) ∨ ∃ i, first ≤ i ∧ i ≤ last ∧ P i := by
  constructor
  · rintro ⟨i, hi, hi', h⟩
    by_cases hlast : i = last + 1
    · exact Or.inl (hlast ▸ h)
    · exact Or.inr ⟨i, hi, by omega, h⟩
  · rintro (h | ⟨i, hi, hi', h⟩)
    · exact ⟨last + 1, by omega, Nat.le_refl _, h⟩
    · exact ⟨i, hi, by omega, h⟩

end

namespace SymbolTable

variable {α : Type} {name : α → String} {tables : Nat → SymbolTable α} {first last : Nat}
  {t u : SymbolTable α}

theorem gathers_one (name : α → String) (tables : Nat → SymbolTable α) (n : Nat) :
    Gathers name tables n n (tables n) := by
  refine ⟨fun key => (exists_between_self (P := fun i => key ∈ (tables i).keys)).symm,
    fun key h => ?_⟩
  exact ⟨n, Nat.le_refl n, Nat.le_refl n, h, rfl, fun j hj hj' => by omega⟩

/-- A further table in front of those that are gathered. -/
theorem Gathers.succ (h : Gathers name tables first last t) (hle : first ≤ last) {f : α → α → α}
    (hf : ∀ a b, name (f a b) = name a) (hu : ∀ key, OrderedTable.get? u key =
      Option.merge f (OrderedTable.get? (tables (last + 1)) key) (OrderedTable.get? t key)) :
    Gathers name tables first (last + 1) u := by
  have hspelling := spelling_merge hf hu
  have hkeys (key : NameKey) : key ∈ u.keys ↔ key ∈ (tables (last + 1)).keys ∨ key ∈ t.keys := by
    simp only [← isSome_spelling_iff name, hspelling, Option.isSome_or, Bool.or_eq_true]
  refine ⟨fun key => ?_, fun key hkey => ?_⟩
  · rw [hkeys, h.keys, exists_between_succ hle]
  by_cases hnew : key ∈ (tables (last + 1)).keys
  · -- The table in front has the name, so it spells it.
    obtain ⟨text, htext⟩ := Option.isSome_iff_exists.1 ((isSome_spelling_iff name).2 hnew)
    refine ⟨last + 1, by omega, Nat.le_refl _, hnew, ?_, fun j hj hj' => by omega⟩
    rw [hspelling, htext, Option.some_or]
  · have hnone : (tables (last + 1)).spelling name key = none := by
      rwa [← isSome_spelling_iff name, Bool.not_eq_true, Option.isSome_eq_false_iff,
        Option.isNone_iff_eq_none] at hnew
    have hold : key ∈ t.keys := ((hkeys key).1 hkey).resolve_left hnew
    obtain ⟨i, hi, hi', hin, hsame, hlater⟩ := h.spelling key hold
    refine ⟨i, hi, by omega, hin, ?_, fun j hj hj' => ?_⟩
    · rw [hspelling, hnone, Option.none_or, hsame]
    · by_cases hlast : j = last + 1
      · exact hlast ▸ hnew
      · exact hlater j hj (by omega)

end SymbolTable

namespace FileSymbols

variable {texts : Nat → FileSymbols} {first last : Nat} {s : FileSymbols}

theorem gathers_one (texts : Nat → FileSymbols) (n : Nat) : Gathers texts n n (texts n) :=
  ⟨SymbolTable.gathers_one _ _ n, fun _ => SymbolTable.gathers_one _ _ n,
    SymbolTable.gathers_one _ _ n, fun _ => SymbolTable.gathers_one _ _ n,
    SymbolTable.gathers_one _ _ n,
    fun raw => (exists_between_self (P := fun i => raw ∈ (texts i).imports)).symm⟩

/-- Merging in what was gathered gathers one text more. -/
theorem Gathers.succ (h : Gathers texts first last s) (hle : first ≤ last) (hs : s.Named) :
    Gathers texts first (last + 1) ((texts (last + 1)).merge s) := by
  refine ⟨h.items.succ hle ItemInfo.name_merge (get?_items_merge _ hs),
    fun item => (h.metadata item).succ hle (fun _ _ => rfl) (get?_metadataOf_merge _ hs item),
    h.tasks.succ hle TaskInfo.name_merge (get?_tasks_merge _ hs),
    fun task => (h.parameters task).succ hle (fun _ _ => rfl) (get?_parametersOf_merge _ hs task),
    h.properties.succ hle (fun _ _ => rfl) (get?_properties_merge _ hs), fun raw => ?_⟩
  rw [mem_imports_merge, h.imports, exists_between_succ hle]

end FileSymbols

end ProjectAnalysis
