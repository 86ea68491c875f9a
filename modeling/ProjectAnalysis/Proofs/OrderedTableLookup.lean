import ProjectAnalysis.OrderedTable

/-! Lookups in ordered tables: what is found is an entry, and how the operations change it. -/
namespace ProjectAnalysis.OrderedTable

variable {κ α : Type}

theorem ext {t t' : OrderedTable κ α} (h : t.entries = t'.entries) : t = t' := by
  cases t
  cases t'
  cases h
  rfl

variable [DecidableEq κ]

theorem get?_eq_some_iff {t : OrderedTable κ α} {k : κ} {v : α} :
    t.get? k = some v ↔ (k, v) ∈ t.entries := by
  obtain ⟨entries, hnodup⟩ := t
  induction entries with
  | nil => simp [get?]
  | cons e es ih =>
    rw [List.map_cons, List.nodup_cons] at hnodup
    have ih := ih hnodup.2
    simp only [get?, List.find?_cons, List.mem_cons] at ih ⊢
    by_cases he : e.1 = k
    · have hk : (k, v) ∉ es := fun h => hnodup.1 (he ▸ List.mem_map_of_mem h)
      simp [he, hk, Prod.ext_iff, eq_comm]
    · have hk : (k, v) ≠ e := fun h => he (congrArg Prod.fst h).symm
      simpa [he, hk] using ih

theorem contains_eq_false_iff {t : OrderedTable κ α} {k : κ} :
    t.contains k = false ↔ k ∉ t.keys := by
  rw [← contains_iff, Bool.not_eq_true]

/-- A value under a key that is not there yet comes behind all others. -/
theorem entries_insert_of_not_mem {t : OrderedTable κ α} {k : κ} (v : α) (h : k ∉ t.keys) :
    (t.insert k v).entries = t.entries ++ [(k, v)] := by
  rw [insert, dif_neg (by rwa [contains_iff])]
  rfl

theorem entries_insertNew (t : OrderedTable κ α) (k : κ) (v : α) :
    (t.insertNew k v).entries = if k ∈ t.keys then t.entries else t.entries ++ [(k, v)] := by
  unfold insertNew
  by_cases hk : k ∈ t.keys
  · rw [dif_pos (contains_iff.2 hk), if_pos hk]
  · rw [dif_neg (by rwa [contains_iff]), if_neg hk, append]

theorem get?_append (t : OrderedTable κ α) (k k' : κ) (v : α) (h : t.contains k = false) :
    (t.append k v h).get? k' = if k = k' then some v else t.get? k' := by
  have hk (x : α) : (k, x) ∉ t.entries := fun hx =>
    contains_eq_false_iff.1 h (List.mem_map_of_mem hx)
  ext x
  rw [get?_eq_some_iff, append, List.mem_append, List.mem_singleton]
  split
  · rename_i he
    subst he
    simp [hk, eq_comm]
  · rename_i he
    simp [get?_eq_some_iff, Ne.symm he]

theorem get?_modify (t : OrderedTable κ α) (k k' : κ) (f : α → α) :
    (t.modify k f).get? k' = if k = k' then (t.get? k).map f else t.get? k' := by
  ext x
  rw [get?_eq_some_iff, modify, List.mem_map]
  split
  · rename_i he
    subst he
    simp only [Option.map_eq_some_iff, get?_eq_some_iff]
    constructor
    · rintro ⟨e, he, hx⟩
      split at hx
      · rename_i hk
        cases hx
        exact ⟨e.2, hk ▸ he, rfl⟩
      · rename_i hk
        exact absurd (congrArg Prod.fst hx) hk
    · rintro ⟨y, hy, rfl⟩
      exact ⟨(k, y), hy, if_pos rfl⟩
  · rename_i hne
    rw [get?_eq_some_iff]
    constructor
    · rintro ⟨e, he, hx⟩
      split at hx
      · rename_i hk
        exact absurd (hk.symm.trans (Prod.mk.inj hx).1) hne
      · exact hx ▸ he
    · intro hx
      exact ⟨(k', x), hx, if_neg (Ne.symm hne)⟩

theorem get?_insert (t : OrderedTable κ α) (k k' : κ) (v : α) :
    (t.insert k v).get? k' = if k = k' then some v else t.get? k' := by
  unfold insert
  split
  · rename_i h
    obtain ⟨x, hx⟩ := Option.isSome_iff_exists.1 h
    rw [get?_modify, hx]
    rfl
  · exact get?_append ..

theorem get?_insertNew (t : OrderedTable κ α) (k k' : κ) (v : α) :
    (t.insertNew k v).get? k' = if k = k' ∧ t.get? k = none then some v else t.get? k' := by
  unfold insertNew
  split
  · rename_i h
    obtain ⟨x, hx⟩ := Option.isSome_iff_exists.1 h
    simp [hx]
  · rename_i h
    have hnone : t.get? k = none := by simpa [contains] using h
    simp [get?_append, hnone]

theorem get?_erase (t : OrderedTable κ α) (k k' : κ) :
    (t.erase k).get? k' = if k = k' then none else t.get? k' := by
  ext x
  rw [get?_eq_some_iff, erase, List.mem_filter, decide_eq_true_eq]
  split
  · rename_i he
    simp [he]
  · rename_i hne
    simp [get?_eq_some_iff, Ne.symm hne]

end ProjectAnalysis.OrderedTable
