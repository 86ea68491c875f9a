/-! Byte offsets into UTF-8 text: the width of a run of characters, spans that count both
ends as inside, and the characters between two offsets. -/
namespace ProjectAnalysis

/-- The width of a run of characters in UTF-8 bytes. -/
def byteLength : List Char → Nat
  | [] => 0
  | c :: cs => c.utf8Size + byteLength cs

@[simp] theorem byteLength_nil : byteLength [] = 0 := rfl

@[simp] theorem byteLength_cons (c : Char) (cs : List Char) :
    byteLength (c :: cs) = c.utf8Size + byteLength cs := rfl

@[simp] theorem byteLength_append (a b : List Char) :
    byteLength (a ++ b) = byteLength a + byteLength b := by
  induction a with
  | nil => simp
  | cons c cs ih => simp [ih, Nat.add_assoc]

theorem byteLength_pos {cs : List Char} (h : cs ≠ []) : 0 < byteLength cs := by
  cases cs with
  | nil => exact absurd rfl h
  | cons x xs => exact Nat.lt_of_lt_of_le x.utf8Size_pos (Nat.le_add_right _ _)

/-- Of two ways to split a text the one with the shorter first part splits the other one's. -/
theorem split_of_byteLength_le {a b c d : List Char} (h : a ++ b = c ++ d)
    (hle : byteLength a ≤ byteLength c) : ∃ u, c = a ++ u ∧ b = u ++ d := by
  rcases List.append_eq_append_iff.1 h with ⟨u, rfl, rfl⟩ | ⟨u, rfl, rfl⟩
  · exact ⟨u, rfl, rfl⟩
  · -- The first part of the other one is not longer, so there is nothing between.
    have hu : u = [] := by
      refine Decidable.byContradiction fun hne => ?_
      have hpos := byteLength_pos hne
      rw [byteLength_append] at hle
      omega
    subst hu
    exact ⟨[], by simp, rfl⟩

/-- A stretch of text from the offset `start` to the offset `stop`. -/
structure Span where
  start : Nat
  stop : Nat
deriving DecidableEq, Repr, Inhabited

namespace Span

/-- Both ends count as inside, so that a caret after the last character is still inside. -/
def contains (s : Span) (offset : Nat) : Bool :=
  s.start ≤ offset && offset ≤ s.stop

theorem contains_iff {s : Span} {offset : Nat} :
    s.contains offset = true ↔ s.start ≤ offset ∧ offset ≤ s.stop := by
  simp [contains]

/-- The smallest span that holds both. -/
def cover (a b : Span) : Span :=
  ⟨min a.start b.start, max a.stop b.stop⟩

end Span

/-- What is left after `n` bytes, if that is a place between characters. -/
def dropBytes? : List Char → Nat → Option (List Char)
  | cs, 0 => some cs
  | [], _ + 1 => none
  | c :: cs, n + 1 => if c.utf8Size ≤ n + 1 then dropBytes? cs (n + 1 - c.utf8Size) else none

/-- The first `n` bytes, if they are whole characters. -/
def takeBytes? : List Char → Nat → Option (List Char)
  | _, 0 => some []
  | [], _ + 1 => none
  | c :: cs, n + 1 =>
    if c.utf8Size ≤ n + 1 then (takeBytes? cs (n + 1 - c.utf8Size)).map (c :: ·) else none

/-- The characters of a span, if both its ends fall between characters. -/
def Span.slice? (s : Span) (text : List Char) : Option (List Char) :=
  if s.start ≤ s.stop then
    (dropBytes? text s.start).bind (takeBytes? · (s.stop - s.start))
  else none

theorem dropBytes?_append (a b : List Char) : dropBytes? (a ++ b) (byteLength a) = some b := by
  induction a with
  | nil => cases b <;> rfl
  | cons c cs ih =>
    have hc := c.utf8Size_pos
    obtain ⟨n, hn⟩ : ∃ n, c.utf8Size + byteLength cs = n + 1 := ⟨_, (Nat.succ_pred_eq_of_pos (by omega)).symm⟩
    simp only [List.cons_append, byteLength_cons, hn, dropBytes?]
    rw [if_pos (by omega), ← hn, Nat.add_sub_cancel_left, ih]

theorem takeBytes?_append (a b : List Char) : takeBytes? (a ++ b) (byteLength a) = some a := by
  induction a with
  | nil => cases b <;> rfl
  | cons c cs ih =>
    have hc := c.utf8Size_pos
    obtain ⟨n, hn⟩ : ∃ n, c.utf8Size + byteLength cs = n + 1 := ⟨_, (Nat.succ_pred_eq_of_pos (by omega)).symm⟩
    simp only [List.cons_append, byteLength_cons, hn, takeBytes?]
    rw [if_pos (by omega), ← hn, Nat.add_sub_cancel_left, ih, Option.map_some]

/-- The slice at the place where a run of characters stands is that run. -/
theorem slice?_append (a b c : List Char) :
    (Span.mk (byteLength a) (byteLength a + byteLength b)).slice? (a ++ b ++ c) = some b := by
  simp [Span.slice?, List.append_assoc, dropBytes?_append, takeBytes?_append]

section
variable {text cs rest : List Char} {k : Nat}

theorem split_of_dropBytes? (h : dropBytes? cs k = some rest) :
    ∃ before, cs = before ++ rest ∧ byteLength before = k := by
  induction cs generalizing k with
  | nil =>
    cases k with
    | zero => exact ⟨[], by simpa [dropBytes?] using h, rfl⟩
    | succ k => cases h
  | cons c cs ih =>
    cases k with
    | zero => exact ⟨[], by simpa [dropBytes?] using h, rfl⟩
    | succ k =>
      rw [dropBytes?] at h
      split at h
      · obtain ⟨before, rfl, hlength⟩ := ih h
        refine ⟨c :: before, rfl, ?_⟩
        rw [byteLength_cons]
        omega
      · cases h

theorem split_of_takeBytes? (h : takeBytes? text k = some cs) :
    ∃ after, text = cs ++ after ∧ byteLength cs = k := by
  induction text generalizing k cs with
  | nil =>
    cases k with
    | zero =>
      obtain rfl := Option.some.inj h
      exact ⟨[], rfl, rfl⟩
    | succ k => cases h
  | cons c text ih =>
    cases k with
    | zero =>
      obtain rfl : [] = cs := by simpa [takeBytes?] using h
      exact ⟨c :: text, rfl, rfl⟩
    | succ k =>
      rw [takeBytes?] at h
      split at h
      · obtain ⟨more, hmore, rfl⟩ := Option.map_eq_some_iff.1 h
        obtain ⟨after, rfl, hlength⟩ := ih hmore
        refine ⟨after, rfl, ?_⟩
        rw [byteLength_cons]
        omega
      · cases h

/-- What a span cuts out of a text stands there. -/
theorem Span.split_of_slice? {s : Span} (h : s.slice? text = some cs) :
    ∃ before after, text = before ++ (cs ++ after) ∧ s.start = byteLength before ∧
      s.stop = s.start + byteLength cs := by
  unfold slice? at h
  split at h
  · obtain ⟨rest, hdrop, htake⟩ := Option.bind_eq_some_iff.1 h
    obtain ⟨before, rfl, hbefore⟩ := split_of_dropBytes? hdrop
    obtain ⟨after, rfl, hlength⟩ := split_of_takeBytes? htake
    exact ⟨before, after, rfl, hbefore.symm, by omega⟩
  · cases h

end

end ProjectAnalysis
