import ProjectAnalysis.NameKey

/-! Whether a name is private can be told from its key: nothing but an underscore has an underscore
as its lower-case form, or one that begins with it. So names that differ in case only are private
together. -/
namespace ProjectAnalysis

/-- No character beyond ASCII is lowered to an underscore. -/
theorem CaseTable.lowerRows_above : ∀ r ∈ lowerRows, 0x5F + r.down < r.first + r.up := by
  decide +kernel

theorem CaseTable.lower?_ne_underscore {r : LowerRow} (hr : r ∈ lowerRows) {n m : Nat}
    (h : r.lower? n = some m) : m ≠ 0x5F := by
  have habove := lowerRows_above r hr
  unfold LowerRow.lower? at h
  split at h
  · next hrow =>
    simp only [Bool.and_eq_true, decide_eq_true_eq] at hrow
    obtain rfl := Option.some.inj h
    omega
  · cases h

theorem toLower_eq_underscore_iff (c : Char) : c.toLower = '_' ↔ c = '_' := by
  by_cases hc : 'A'.val ≤ c.val ∧ c.val ≤ 'Z'.val
  · -- A capital letter is no underscore, and its lower-case form is behind all of these.
    have hcode : c.toLower.val = c.val + ('a'.val - 'A'.val) := congrArg Char.val (dif_pos hc)
    obtain ⟨hlo, hhi⟩ : 65 ≤ c.val.toNat ∧ c.val.toNat ≤ 90 := hc
    constructor
    · intro h
      rw [h] at hcode
      have hsum : 95 = (c.val + ('a'.val - 'A'.val)).toNat := congrArg UInt32.toNat hcode
      rw [UInt32.toNat_add, show ('a'.val - 'A'.val).toNat = 32 from rfl] at hsum
      omega
    · rintro rfl
      exact absurd hhi (by decide)
  · rw [show c.toLower = c from dif_neg hc]

/-- Among the characters, only an underscore is lowered to a text that begins with one. -/
theorem head?_lowerChar_iff (c : Char) : (lowerChar c).head? = some '_' ↔ c = '_' := by
  unfold lowerChar
  split
  · rw [List.head?_cons, Option.some_inj, toLower_eq_underscore_iff]
  · next hwide =>
    have hne : c ≠ '_' := by
      rintro rfl
      exact hwide (by decide)
    refine iff_of_false ?_ hne
    split
    · decide
    · split
      · next m hm =>
        obtain ⟨r, hr, hlower⟩ := List.exists_of_findSome?_eq_some hm
        have hm := CaseTable.lower?_ne_underscore hr hlower
        rw [List.head?_cons, Option.some_inj]
        intro hcode
        have hcode : (Char.ofNat m).toNat = 0x5F := congrArg Char.toNat hcode
        by_cases hvalid : m.isValidChar
        · rw [Char.ofNat, dif_pos hvalid] at hcode
          exact hm hcode
        · rw [Char.ofNat, dif_neg hvalid] at hcode
          cases hcode
      · rwa [List.head?_cons, Option.some_inj]

theorem lowerChar_ne_nil (c : Char) : lowerChar c ≠ [] := by
  unfold lowerChar
  split
  · nofun
  · split
    · nofun
    · split <;> nofun

/-- A final sigma apart, a text is lowered character by character. -/
theorem head?_lowercase_iff (cs : List Char) :
    (lowercase cs).head? = some '_' ↔ cs.head? = some '_' := by
  cases cs with
  | nil => rfl
  | cons c cs =>
    rw [lowercase, lowerAfter, List.head?_cons, Option.some_inj]
    by_cases hsigma : c = 'Σ'
    · subst hsigma
      rw [if_pos rfl]
      refine iff_of_false ?_ (by decide)
      split <;> simp
    · obtain ⟨x, xs, hlower⟩ := List.exists_cons_of_ne_nil (lowerChar_ne_nil c)
      rw [if_neg hsigma, ← head?_lowerChar_iff, hlower]
      rfl

/-- A name is private if and only if its key begins with an underscore. -/
theorem isPrivateName_iff (name : String) :
    isPrivateName name = true ↔ (NameKey.of name).text.toList.head? = some '_' := by
  rw [NameKey.of, String.toList_ofList, head?_lowercase_iff]
  unfold isPrivateName
  cases name.toList with
  | nil => simp
  | cons c cs => by_cases hc : c = '_' <;> simp [hc]

/-- Whether a name is private does not depend on its spelling. -/
theorem isPrivateName_congr {name other : String} (h : NameKey.of name = NameKey.of other) :
    isPrivateName name = isPrivateName other := by
  rw [Bool.eq_iff_iff, isPrivateName_iff, h, isPrivateName_iff]

end ProjectAnalysis
