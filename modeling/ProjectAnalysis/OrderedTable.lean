/-! Tables that keep their entries in the order in which the keys came in. No key occurs twice. -/
namespace ProjectAnalysis

structure OrderedTable (κ α : Type) where
  entries : List (κ × α)
  nodup : (entries.map Prod.fst).Nodup

namespace OrderedTable

variable {κ α : Type} [DecidableEq κ]

instance [DecidableEq α] : DecidableEq (OrderedTable κ α) := fun s t =>
  decidable_of_iff (s.entries = t.entries) ⟨fun h => by cases s; cases t; simp_all, congrArg _⟩

def empty : OrderedTable κ α :=
  ⟨[], List.nodup_nil⟩

instance : Inhabited (OrderedTable κ α) := ⟨empty⟩

def keys (t : OrderedTable κ α) : List κ :=
  t.entries.map Prod.fst

def values (t : OrderedTable κ α) : List α :=
  t.entries.map Prod.snd

def isEmpty (t : OrderedTable κ α) : Bool :=
  t.entries.isEmpty

def get? (t : OrderedTable κ α) (k : κ) : Option α :=
  (t.entries.find? (·.1 = k)).map Prod.snd

def contains (t : OrderedTable κ α) (k : κ) : Bool :=
  (t.get? k).isSome

/-- Changes the value under the key, if there is one. -/
def modify (t : OrderedTable κ α) (k : κ) (f : α → α) : OrderedTable κ α :=
  ⟨t.entries.map fun e => if e.1 = k then (e.1, f e.2) else e, by
    have h : (t.entries.map fun e => if e.1 = k then (e.1, f e.2) else e).map Prod.fst =
        t.entries.map Prod.fst := by
      rw [List.map_map]
      apply List.map_congr_left
      intro e _
      simp only [Function.comp_apply]
      split <;> rfl
    rw [h]
    exact t.nodup⟩

theorem contains_iff {t : OrderedTable κ α} {k : κ} : t.contains k = true ↔ k ∈ t.keys := by
  simp only [contains, get?, keys, Option.isSome_map, List.find?_isSome, List.mem_map,
    decide_eq_true_eq]

/-- Puts a value under a key that the table does not have, behind all others. -/
def append (t : OrderedTable κ α) (k : κ) (v : α) (h : t.contains k = false) :
    OrderedTable κ α :=
  ⟨t.entries ++ [(k, v)], by
    have hk : k ∉ t.keys := fun hk => by simp [contains_iff.2 hk] at h
    rw [List.map_append, List.nodup_append]
    refine ⟨t.nodup, by simp, ?_⟩
    intro a ha b hb hab
    simp only [List.map_cons, List.map_nil, List.mem_singleton] at hb
    exact hk (by rw [← hb, ← hab]; exact ha)⟩

/-- Puts a value under a key: in place of the one that is there, or else behind all others. -/
def insert (t : OrderedTable κ α) (k : κ) (v : α) : OrderedTable κ α :=
  if h : t.contains k then t.modify k fun _ => v else t.append k v (by simpa using h)

/-- Adds a value under a key that is new, and leaves the table alone otherwise. -/
def insertNew (t : OrderedTable κ α) (k : κ) (v : α) : OrderedTable κ α :=
  if h : t.contains k then t else t.append k v (by simpa using h)

/-- Takes the key out; the others keep their order. -/
def erase (t : OrderedTable κ α) (k : κ) : OrderedTable κ α :=
  ⟨t.entries.filter (·.1 ≠ k), (List.filter_sublist.map _).nodup t.nodup⟩

end OrderedTable

end ProjectAnalysis
