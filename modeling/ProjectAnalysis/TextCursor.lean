import ProjectAnalysis.TextSpan
import ProjectAnalysis.TextChar

/-! A cursor is a place in a text: its byte offset and what is still to be read. It only moves
forward, and its offset grows by the width of what was read. -/
namespace ProjectAnalysis

structure Cursor where
  offset : Nat
  rest : List Char
deriving DecidableEq, Repr, Inhabited

namespace Cursor

/-- The place before the first character. -/
def ofText (text : List Char) : Cursor :=
  ⟨0, text⟩

def size (c : Cursor) : Nat :=
  c.rest.length

/-- `d` is reached from `c` by reading characters. -/
def Reaches (c d : Cursor) : Prop :=
  ∃ read, c.rest = read ++ d.rest ∧ d.offset = c.offset + byteLength read

theorem Reaches.refl (c : Cursor) : c.Reaches c :=
  ⟨[], rfl, rfl⟩

theorem Reaches.trans {a b c : Cursor} (hb : a.Reaches b) (hc : b.Reaches c) : a.Reaches c := by
  obtain ⟨x, hx, ox⟩ := hb
  obtain ⟨y, hy, oy⟩ := hc
  exact ⟨x ++ y, by simp [hx, hy], by simp [ox, oy, Nat.add_assoc]⟩

theorem Reaches.size_le {a b : Cursor} (h : a.Reaches b) : b.size ≤ a.size := by
  obtain ⟨x, hx, -⟩ := h
  simp [size, hx]

/-- The next character. -/
def peek (c : Cursor) : Option Char :=
  c.rest.head?

/-- The place after the next `n` characters. -/
def skip (n : Nat) (c : Cursor) : Cursor :=
  ⟨c.offset + byteLength (c.rest.take n), c.rest.drop n⟩

theorem reaches_skip (n : Nat) (c : Cursor) : c.Reaches (c.skip n) :=
  ⟨c.rest.take n, by simp [skip], rfl⟩

theorem skip_size (n : Nat) (c : Cursor) : (c.skip n).size = c.size - n := by
  simp [skip, size]

/-- The next characters, as long as they are of the class. -/
def run (p : Char → Bool) (c : Cursor) : List Char :=
  c.rest.takeWhile p

/-- The place after the next characters of the class. -/
def skipWhile (p : Char → Bool) (c : Cursor) : Cursor :=
  ⟨c.offset + byteLength (c.run p), c.rest.dropWhile p⟩

theorem reaches_skipWhile (p : Char → Bool) (c : Cursor) : c.Reaches (c.skipWhile p) :=
  ⟨c.run p, (List.takeWhile_append_dropWhile).symm, rfl⟩

end Cursor

end ProjectAnalysis
