import ProjectAnalysis.TextCursor

/-! Readers that never move back. A reader hands over, with its value, the place where it stopped
and the proof that this place is reached from where it began; `Step` and `Branch` read at least
one character, so a repetition of them ends and a grammar may call itself after them. -/
namespace ProjectAnalysis

/-- A kind of place in an input, with a measure of what is left that reading never raises. -/
class Position (σ : Type) where
  size : σ → Nat
  Reaches : σ → σ → Prop
  refl (s : σ) : Reaches s s
  trans {a b c : σ} : Reaches a b → Reaches b c → Reaches a c
  size_le {a b : σ} : Reaches a b → size b ≤ size a

instance : Position Cursor where
  size := Cursor.size
  Reaches := Cursor.Reaches
  refl := Cursor.Reaches.refl
  trans := Cursor.Reaches.trans
  size_le := Cursor.Reaches.size_le

/-- A value and the place after what it was read from. -/
structure Reading {σ : Type} [Position σ] (α : Type) (s : σ) where
  value : α
  next : σ
  reaches : Position.Reaches s next

/-- A value that was read from at least one character. -/
structure Parsed {σ : Type} [Position σ] (α : Type) (s : σ) where
  value : α
  next : σ
  reaches : Position.Reaches s next
  shorter : Position.size next < Position.size s

variable {σ ε : Type} [Position σ] {n : Nat} {α β : Type}

/-- Reads a value from any place that has less than `n` left. -/
def Reader (σ ε : Type) [Position σ] (n : Nat) (α : Type) : Type :=
  (s : σ) → Position.size s < n → Except ε (Reading α s)

/-- Reads a value from at least one character. -/
def Step (σ ε : Type) [Position σ] (n : Nat) (α : Type) : Type :=
  (s : σ) → Position.size s < n → Except ε (Parsed α s)

/-- Reads a value from at least one character, or nothing if another construct begins here. -/
def Branch (σ ε : Type) [Position σ] (n : Nat) (α : Type) : Type :=
  (s : σ) → Position.size s < n → Except ε (Option (Parsed α s))

/-- Goes on with a reader after something was read. -/
def Parsed.andThen {s : σ} (p : Parsed α s) (f : α → Reader σ ε (Position.size s) β) :
    Except ε (Parsed β s) :=
  match f p.value p.next p.shorter with
  | .error e => .error e
  | .ok q => .ok ⟨q.value, q.next, Position.trans p.reaches q.reaches,
      Nat.lt_of_le_of_lt (Position.size_le q.reaches) p.shorter⟩

namespace Reader

def pure (a : α) : Reader σ ε n α :=
  fun s _ => .ok ⟨a, s, Position.refl s⟩

def bind (p : Reader σ ε n α) (f : α → Reader σ ε n β) : Reader σ ε n β :=
  fun s h => match p s h with
    | .error e => .error e
    | .ok r => match f r.value r.next (Nat.lt_of_le_of_lt (Position.size_le r.reaches) h) with
      | .error e => .error e
      | .ok q => .ok ⟨q.value, q.next, Position.trans r.reaches q.reaches⟩

instance : Monad (Reader σ ε n) where
  pure := Reader.pure
  bind := Reader.bind

/-- Gives up. -/
def fail (e : ε) : Reader σ ε n α :=
  fun _ _ => .error e

/-- The place itself. -/
def place : Reader σ ε n σ :=
  fun s _ => .ok ⟨s, s, Position.refl s⟩

end Reader

namespace Step

/-- A step is a reader. -/
def read (p : Step σ ε n α) : Reader σ ε n α :=
  fun s h => match p s h with
    | .error e => .error e
    | .ok r => .ok ⟨r.value, r.next, r.reaches⟩

/-- A step followed by a reader is a step. -/
def andThen (p : Step σ ε n α) (f : α → Reader σ ε n β) : Step σ ε n β :=
  fun s h => match p s h with
    | .error e => .error e
    | .ok r => r.andThen fun a t ht => f a t (Nat.lt_trans ht h)

/-- A step that is taken where the test holds. -/
def branch (test : σ → Bool) (p : Step σ ε n α) : Branch σ ε n α :=
  fun s h => if test s then
      match p s h with
      | .error e => .error e
      | .ok r => .ok (some r)
    else .ok none

end Step

namespace Branch

/-- A branch followed by a reader is a branch. -/
def andThen (p : Branch σ ε n α) (f : α → Reader σ ε n β) : Branch σ ε n β :=
  fun s h => match p s h with
    | .error e => .error e
    | .ok none => .ok none
    | .ok (some r) => match r.andThen fun a t ht => f a t (Nat.lt_trans ht h) with
      | .error e => .error e
      | .ok q => .ok (some q)

/-- The second branch where the first is not taken. -/
def orElse (p q : Branch σ ε n α) : Branch σ ε n α :=
  fun s h => match p s h with
    | .ok none => q s h
    | r => r

/-- The value of the branch, or nothing. -/
def optional (p : Branch σ ε n α) : Reader σ ε n (Option α) :=
  fun s h => match p s h with
    | .error e => .error e
    | .ok none => .ok ⟨none, s, Position.refl s⟩
    | .ok (some r) => .ok ⟨some r.value, r.next, r.reaches⟩

/-- Takes the branch again and again, each time with the value it gave before. -/
def iterate (step : α → Branch σ ε n α) (a : α) (s : σ) (h : Position.size s < n) :
    Except ε (Reading α s) :=
  match step a s h with
  | .error e => .error e
  | .ok none => .ok ⟨a, s, Position.refl s⟩
  | .ok (some r) =>
    match iterate step r.value r.next (Nat.lt_trans r.shorter h) with
    | .error e => .error e
    | .ok q => .ok ⟨q.value, q.next, Position.trans r.reaches q.reaches⟩
termination_by Position.size s
decreasing_by exact r.shorter

end Branch

/-- Repeats a branch until it is not taken. -/
def Reader.fold (step : α → Branch σ ε n α) (a : α) : Reader σ ε n α :=
  Branch.iterate step a

namespace Cursor

/-- Reads the next character if it is of the class. -/
def take? (p : Char → Bool) : (c : Cursor) → Option (Parsed Char c)
  | ⟨offset, x :: rest⟩ =>
    if p x then
      some ⟨x, ⟨offset + x.utf8Size, rest⟩, ⟨[x], rfl, by simp⟩, Nat.lt_succ_self _⟩
    else none
  | ⟨_, []⟩ => none

end Cursor

/-- The branch that begins with a character of the class. -/
def Branch.onChar (p : Char → Bool) : Branch Cursor ε n Char :=
  fun c _ => .ok (c.take? p)

namespace Reader

def peek : Reader Cursor ε n (Option Char) :=
  fun c _ => .ok ⟨c.peek, c, Position.refl c⟩

def offset : Reader Cursor ε n Nat :=
  fun c _ => .ok ⟨c.offset, c, Position.refl c⟩

/-- Reads the next characters of the class. -/
def takeWhile (p : Char → Bool) : Reader Cursor ε n (List Char) :=
  fun c _ => .ok ⟨c.run p, c.skipWhile p, c.reaches_skipWhile p⟩

/-- Reads the next `k` characters. -/
def take (k : Nat) : Reader Cursor ε n (List Char) :=
  fun c _ => .ok ⟨c.rest.take k, c.skip k, c.reaches_skip k⟩

/-- Skips white space. -/
def blanks : Reader Cursor ε n Unit := do
  let _ ← takeWhile isBlank

/-- Reads the characters if they come next. -/
def eat (chars : List Char) : Reader Cursor ε n Bool := do
  let c ← place
  if chars.isPrefixOf c.rest then
    let _ ← take chars.length
    return true
  else return false

end Reader

end ProjectAnalysis
