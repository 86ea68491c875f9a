import ProjectAnalysis.ExprTokenizer

/-! Parentheses counted in a run of characters, whatever else stands there. The parenthesis that
closes is found where the count first comes down to nothing. -/
namespace ProjectAnalysis.Expr

/-- How many more parentheses are opened than closed. -/
def excess (cs : List Char) : Int :=
  cs.count '(' - cs.count ')'

theorem excess_nil : excess [] = 0 := rfl

theorem excess_append (a b : List Char) : excess (a ++ b) = excess a + excess b := by
  unfold excess
  rw [List.count_append, List.count_append]
  omega

theorem excess_cons (c : Char) (cs : List Char) : excess (c :: cs) = excess [c] + excess cs :=
  excess_append [c] cs

theorem excess_eq_zero {cs : List Char} (hopen : '(' ∉ cs) (hclose : ')' ∉ cs) :
    excess cs = 0 := by
  rw [excess, List.count_eq_zero.2 hopen, List.count_eq_zero.2 hclose]
  rfl

theorem excess_nonneg {cs : List Char} (hclose : ')' ∉ cs) : 0 ≤ excess cs := by
  rw [excess, List.count_eq_zero.2 hclose]
  omega

/-- One character closes one level at most. -/
theorem neg_one_le_excess (c : Char) : -1 ≤ excess [c] := by
  have hcount : [c].count ')' ≤ 1 := List.count_le_length
  unfold excess
  omega

/-- The first character closes the last level, or the rest is counted from one level more, one less
or the same. -/
theorem closingParen?_cons {depth : Int} (hdepth : 0 < depth) (c : Char) (cs : List Char) :
    TokenStream.closingParen? depth (c :: cs) =
      if depth + excess [c] = 0 then some 0
      else (TokenStream.closingParen? (depth + excess [c]) cs).map (· + 1) := by
  rw [TokenStream.closingParen?]
  by_cases hclose : c = ')'
  · have hone : excess [c] = -1 := by rw [hclose]; rfl
    rw [if_pos hclose, hone]
    rfl
  · by_cases hopen : c = '('
    · have hone : excess [c] = 1 := by rw [hopen]; rfl
      rw [if_neg hclose, if_pos hopen, hone, if_neg (by omega)]
    · have hzero : excess [c] = 0 := excess_eq_zero (by simpa using Ne.symm hopen)
        (by simpa using Ne.symm hclose)
      rw [if_neg hclose, if_neg hopen, hzero, Int.add_zero, if_neg (by omega)]

/-- The parenthesis behind some characters closes `depth` levels when it is the first at which as
many are closed. -/
theorem closingParen?_iff {depth : Int} (hdepth : 0 < depth) (body rest : List Char) :
    TokenStream.closingParen? depth (body ++ ')' :: rest) = some body.length ↔
      depth + excess body = 1 ∧ ∀ p, p <+: body → 0 < depth + excess p := by
  induction body generalizing depth with
  | nil =>
    have hclose : excess [')'] = -1 := rfl
    rw [List.nil_append, closingParen?_cons hdepth, hclose, excess_nil, Int.add_zero]
    constructor
    · intro h
      split at h
      · refine ⟨by omega, fun p hp => ?_⟩
        rw [List.prefix_nil.1 hp, excess_nil, Int.add_zero]
        exact hdepth
      · obtain ⟨_, -, h⟩ := Option.map_eq_some_iff.1 h
        cases h
    · rintro ⟨h, -⟩
      rw [if_pos (by omega)]
      rfl
  | cons c body ih =>
    have hle := neg_one_le_excess c
    rw [List.cons_append, closingParen?_cons hdepth]
    split
    · rename_i hzero
      constructor
      · intro h
        cases Option.some.inj h
      · rintro ⟨-, h⟩
        -- The last level would be closed before the body ends.
        have hone := h [c] ⟨body, rfl⟩
        omega
    · rename_i hne
      have hall : (∀ p, p <+: c :: body → 0 < depth + excess p) ↔
          ∀ p, p <+: body → 0 < depth + excess [c] + excess p := by
        constructor
        · intro h p hp
          have hlong := h (c :: p) (List.cons_prefix_cons.2 ⟨rfl, hp⟩)
          rw [excess_cons] at hlong
          omega
        · intro h p hp
          rcases List.prefix_cons_iff.1 hp with rfl | ⟨q, rfl, hq⟩
          · rwa [excess_nil, Int.add_zero]
          · have hshort := h q hq
            rw [excess_cons]
            omega
      have hmap {x : Option Nat} : x.map (· + 1) = some (c :: body).length ↔
          x = some body.length := by
        cases x <;> simp
      rw [hmap, ih (by omega), hall, excess_cons c body, ← Int.add_assoc]

end ProjectAnalysis.Expr
