import ProjectAnalysis.ExprReference
import ProjectAnalysis.Proofs.ReaderRun

/-! What the readers of characters give: which characters stand between the place where a reader
begins and the place where it stops, and what stands behind them. -/
namespace ProjectAnalysis

namespace Cursor

/-- These characters stand from one place to the other. -/
def Reads (c : Cursor) (cs : List Char) (d : Cursor) : Prop :=
  c.rest = cs ++ d.rest ∧ d.offset = c.offset + byteLength cs

variable {a b c : Cursor} {xs ys : List Char} {x : Char} {p : Char → Bool}

theorem reads_nil (c : Cursor) : c.Reads [] c :=
  ⟨rfl, rfl⟩

theorem Reads.trans (hb : a.Reads xs b) (hc : b.Reads ys c) : a.Reads (xs ++ ys) c := by
  obtain ⟨hx, ox⟩ := hb
  obtain ⟨hy, oy⟩ := hc
  refine ⟨?_, ?_⟩
  · rw [hx, hy, List.append_assoc]
  · rw [oy, ox, byteLength_append, Nat.add_assoc]

theorem Reads.reaches (h : a.Reads xs b) : a.Reaches b :=
  ⟨xs, h⟩

theorem Reaches.offset_le (h : a.Reaches b) : a.offset ≤ b.offset := by
  obtain ⟨xs, -, hoffset⟩ := h
  exact hoffset ▸ Nat.le_add_right _ _

theorem Reads.size_eq (h : a.Reads xs b) : Position.size a = xs.length + Position.size b := by
  change a.rest.length = xs.length + b.rest.length
  rw [h.1, List.length_append]

theorem Reads.size_lt {n : Nat} (h : a.Reads xs b) (ha : Position.size a < n) :
    Position.size b < n := by
  have hsize := h.size_eq
  omega

theorem reads_skip (k : Nat) (c : Cursor) : c.Reads (c.rest.take k) (c.skip k) :=
  ⟨(List.take_append_drop k c.rest).symm, rfl⟩

theorem reads_skipWhile (p : Char → Bool) (c : Cursor) : c.Reads (c.run p) (c.skipWhile p) :=
  ⟨List.takeWhile_append_dropWhile.symm, rfl⟩

theorem all_run (p : Char → Bool) (c : Cursor) : ∀ x ∈ c.run p, p x = true :=
  List.all_eq_true.1 List.all_takeWhile

/-- The place behind some characters is what is reached by reading them. -/
theorem Reads.eq_of_rest (h : a.Reads xs b) {rest : List Char} (hrest : a.rest = xs ++ rest) :
    b = ⟨a.offset + byteLength xs, rest⟩ := by
  obtain ⟨hx, ox⟩ := h
  obtain ⟨offset, rest'⟩ := b
  obtain rfl : rest' = rest := List.append_cancel_left (hx.symm.trans hrest)
  obtain rfl : offset = a.offset + byteLength xs := ox
  rfl

theorem Reads.skip_eq (h : a.Reads xs b) : a.skip xs.length = b := by
  have htake : a.rest.take xs.length = xs := by rw [h.1, List.take_left]
  have hskip := a.reads_skip xs.length
  rw [htake] at hskip
  exact (hskip.eq_of_rest h.1).trans (h.eq_of_rest h.1).symm

end Cursor

variable {ε : Type} {n : Nat} {c d : Cursor}

namespace Reader

theorem gives_peek {x : Option Char} : (peek : Reader Cursor ε n _).Gives c x d ↔
    Position.size c < n ∧ c.peek = x ∧ c = d := by
  constructor
  · rintro ⟨h, r, hr, rfl, rfl⟩
    cases hr
    exact ⟨h, rfl, rfl⟩
  · rintro ⟨h, rfl, rfl⟩
    exact ⟨h, _, rfl, rfl, rfl⟩

theorem gives_offset {k : Nat} : (offset : Reader Cursor ε n _).Gives c k d ↔
    Position.size c < n ∧ c.offset = k ∧ c = d := by
  constructor
  · rintro ⟨h, r, hr, rfl, rfl⟩
    cases hr
    exact ⟨h, rfl, rfl⟩
  · rintro ⟨h, rfl, rfl⟩
    exact ⟨h, _, rfl, rfl, rfl⟩

theorem gives_takeWhile {p : Char → Bool} {cs : List Char} :
    (takeWhile p : Reader Cursor ε n _).Gives c cs d ↔
      Position.size c < n ∧ c.run p = cs ∧ c.skipWhile p = d := by
  constructor
  · rintro ⟨h, r, hr, rfl, rfl⟩
    cases hr
    exact ⟨h, rfl, rfl⟩
  · rintro ⟨h, rfl, rfl⟩
    exact ⟨h, _, rfl, rfl, rfl⟩

theorem gives_take {k : Nat} {cs : List Char} : (take k : Reader Cursor ε n _).Gives c cs d ↔
    Position.size c < n ∧ c.rest.take k = cs ∧ c.skip k = d := by
  constructor
  · rintro ⟨h, r, hr, rfl, rfl⟩
    cases hr
    exact ⟨h, rfl, rfl⟩
  · rintro ⟨h, rfl, rfl⟩
    exact ⟨h, _, rfl, rfl, rfl⟩

theorem gives_blanks {a : Unit} : (blanks : Reader Cursor ε n _).Gives c a d ↔
    Position.size c < n ∧ c.skipWhile isBlank = d := by
  rw [blanks, gives_bind]
  simp only [gives_takeWhile, gives_pure]
  constructor
  · rintro ⟨_, u, ⟨h, -, rfl⟩, -, -, rfl⟩
    exact ⟨h, rfl⟩
  · rintro ⟨h, rfl⟩
    have hsize : Position.size (c.skipWhile isBlank) < n :=
      Nat.lt_of_le_of_lt (Position.size_le (c.reaches_skipWhile isBlank)) h
    exact ⟨_, _, ⟨h, rfl, rfl⟩, hsize, trivial, rfl⟩

section
variable {α β : Type} {b : β}

/-- What a reader asks about the place itself is known there. -/
theorem gives_offset_bind {f : Nat → Reader Cursor ε n β} :
    (offset >>= f).Gives c b d ↔ (f c.offset).Gives c b d := by
  rw [gives_bind]
  constructor
  · rintro ⟨_, _, hoffset, hthen⟩
    obtain ⟨-, rfl, rfl⟩ := gives_offset.1 hoffset
    exact hthen
  · rintro ⟨h, hthen⟩
    exact ⟨_, c, gives_offset.2 ⟨h, rfl, rfl⟩, h, hthen⟩

theorem gives_peek_bind {f : Option Char → Reader Cursor ε n β} :
    (peek >>= f).Gives c b d ↔ (f c.peek).Gives c b d := by
  rw [gives_bind]
  constructor
  · rintro ⟨_, _, hpeek, hthen⟩
    obtain ⟨-, rfl, rfl⟩ := gives_peek.1 hpeek
    exact hthen
  · rintro ⟨h, hthen⟩
    exact ⟨_, c, gives_peek.2 ⟨h, rfl, rfl⟩, h, hthen⟩

theorem gives_place_bind {f : Cursor → Reader Cursor ε n β} :
    (place >>= f).Gives c b d ↔ (f c).Gives c b d := by
  rw [gives_bind]
  constructor
  · rintro ⟨_, _, hplace, hthen⟩
    obtain ⟨-, rfl, rfl⟩ := gives_place.1 hplace
    exact hthen
  · rintro ⟨h, hthen⟩
    exact ⟨_, c, gives_place.2 ⟨h, rfl, rfl⟩, h, hthen⟩

theorem gives_blanks_bind {f : Unit → Reader Cursor ε n β} : (blanks >>= f).Gives c b d ↔
    Position.size c < n ∧ (f ()).Gives (c.skipWhile isBlank) b d := by
  rw [gives_bind]
  constructor
  · rintro ⟨_, _, hblanks, hthen⟩
    obtain ⟨h, rfl⟩ := gives_blanks.1 hblanks
    exact ⟨h, hthen⟩
  · rintro ⟨h, hthen⟩
    exact ⟨_, _, gives_blanks.2 ⟨h, rfl⟩, hthen⟩

/-- Where no white space comes next, none is skipped. -/
theorem gives_solid_bind {f : Unit → Reader Cursor ε n β} (hsolid : c.skipWhile isBlank = c)
    (h : (f ()).Gives c b d) : (blanks >>= f).Gives c b d := by
  -- What a reader gives it gives below its bound.
  obtain ⟨hsize, -⟩ := id h
  refine gives_blanks_bind.2 ⟨hsize, ?_⟩
  rwa [hsolid]

end

/-- Either the characters come next and are passed, or they do not. -/
theorem gives_eat {cs : List Char} {b : Bool} : (eat cs : Reader Cursor ε n _).Gives c b d ↔
    Position.size c < n ∧
      ((b = true ∧ c.Reads cs d) ∨ (b = false ∧ ¬cs <+: c.rest ∧ c = d)) := by
  rw [eat, gives_bind]
  simp only [gives_place]
  constructor
  · rintro ⟨_, u, ⟨h, rfl, rfl⟩, hthen⟩
    refine ⟨h, ?_⟩
    split at hthen
    · rename_i hcs
      obtain ⟨_, v, htake, hthen⟩ := gives_bind.1 hthen
      obtain ⟨-, rfl, rfl⟩ := gives_take.1 htake
      obtain ⟨-, rfl, rfl⟩ := gives_pure.1 hthen
      obtain ⟨rest, hrest⟩ := List.isPrefixOf_iff_prefix.1 hcs
      have hread := c.reads_skip cs.length
      rw [← hrest, List.take_left] at hread
      exact Or.inl ⟨rfl, hread⟩
    · rename_i hcs
      obtain ⟨-, rfl, rfl⟩ := gives_pure.1 hthen
      exact Or.inr ⟨rfl, mt List.isPrefixOf_iff_prefix.2 hcs, rfl⟩
  · rintro ⟨h, hthen⟩
    refine ⟨c, c, ⟨h, rfl, rfl⟩, ?_⟩
    rcases hthen with ⟨rfl, hread⟩ | ⟨rfl, hcs, rfl⟩
    · have hprefix : cs.isPrefixOf c.rest = true :=
        List.isPrefixOf_iff_prefix.2 ⟨d.rest, hread.1.symm⟩
      rw [if_pos hprefix]
      refine gives_bind.2 ⟨_, d, gives_take.2 ⟨h, rfl, hread.skip_eq⟩, ?_⟩
      exact gives_pure.2 ⟨hread.size_lt h, rfl, rfl⟩
    · rw [if_neg (mt List.isPrefixOf_iff_prefix.1 hcs)]
      exact gives_pure.2 ⟨h, rfl, rfl⟩

theorem gives_eat_of_reads {cs : List Char} (hsize : Position.size c < n) (h : c.Reads cs d) :
    (eat cs : Reader Cursor ε n _).Gives c true d :=
  gives_eat.2 ⟨hsize, Or.inl ⟨rfl, h⟩⟩

theorem gives_eat_of_peek {x : Char} (hsize : Position.size c < n) (h : c.peek ≠ some x) :
    (eat [x] : Reader Cursor ε n _).Gives c false c := by
  refine gives_eat.2 ⟨hsize, Or.inr ⟨rfl, ?_, rfl⟩⟩
  rintro ⟨tail, htail⟩
  exact h (by rw [Cursor.peek, ← htail]; rfl)

end Reader

namespace Branch

theorem takes_onChar {p : Char → Bool} {x : Char} :
    (onChar p : Branch Cursor ε n Char).Takes c x d ↔
      Position.size c < n ∧ p x = true ∧ c.Reads [x] d := by
  obtain ⟨k, rest⟩ := c
  cases rest with
  | nil =>
    constructor
    · rintro ⟨h, r, hr, -⟩
      cases hr
    · rintro ⟨h, -, hread, -⟩
      cases hread
  | cons y rest =>
    by_cases hy : p y = true
    · constructor
      · rintro ⟨h, r, hr, rfl, rfl⟩
        simp only [onChar, Cursor.take?, hy, ↓reduceIte, Except.ok.injEq, Option.some.injEq] at hr
        subst hr
        exact ⟨h, hy, rfl, by simp⟩
      · rintro ⟨h, -, hread⟩
        obtain ⟨rfl, hrest⟩ := List.cons.inj hread.1
        obtain rfl := hread.eq_of_rest rfl
        refine ⟨h, ⟨y, _, ⟨[y], rfl, rfl⟩, Nat.lt_succ_self _⟩, ?_, rfl, rfl⟩
        simp [onChar, Cursor.take?, hy]
    · constructor
      · rintro ⟨h, r, hr, -⟩
        simp [onChar, Cursor.take?, hy] at hr
      · rintro ⟨h, hx, hread⟩
        obtain ⟨rfl, -⟩ := List.cons.inj hread.1
        exact absurd hx hy

theorem passes_onChar {p : Char → Bool} : (onChar p : Branch Cursor ε n Char).Passes c ↔
    Position.size c < n ∧ ∀ x, c.peek = some x → p x = false := by
  obtain ⟨k, rest⟩ := c
  cases rest with
  | nil =>
    constructor
    · rintro ⟨h, -⟩
      exact ⟨h, fun _ hx => nomatch hx⟩
    · rintro ⟨h, -⟩
      exact ⟨h, rfl⟩
  | cons y rest =>
    have hpass (h : Position.size (Cursor.mk k (y :: rest)) < n) :
        (onChar p : Branch Cursor ε n Char) ⟨k, y :: rest⟩ h = .ok none ↔ p y = false := by
      simp [onChar, Cursor.take?]
    constructor
    · rintro ⟨h, hnone⟩
      refine ⟨h, fun x hx => ?_⟩
      obtain rfl : y = x := Option.some.inj hx
      exact (hpass h).1 hnone
    · rintro ⟨h, hall⟩
      exact ⟨h, (hpass h).2 (hall y rfl)⟩

theorem onChar_passes {x : Char} (hsize : Position.size c < n) (h : c.peek ≠ some x) :
    (onChar (· == x) : Branch Cursor ε n Char).Passes c := by
  refine passes_onChar.2 ⟨hsize, fun y hy => ?_⟩
  exact beq_eq_false_iff_ne.2 fun heq => h (heq ▸ hy)

/-- What is taken for being `x` is `x`. -/
theorem reads_of_onChar {x y : Char}
    (h : (onChar (· == x) : Branch Cursor ε n Char).Takes c y d) : c.Reads [x] d := by
  obtain ⟨-, hy, hread⟩ := takes_onChar.1 h
  rwa [eq_of_beq hy] at hread

theorem onChar_takes {x : Char} (hsize : Position.size c < n) (h : c.Reads [x] d) :
    (onChar (· == x) : Branch Cursor ε n Char).Takes c x d :=
  takes_onChar.2 ⟨hsize, beq_self_eq_true x, h⟩

end Branch

end ProjectAnalysis
