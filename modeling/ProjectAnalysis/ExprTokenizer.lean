import ProjectAnalysis.ExprLexeme

/-! Tokens of a condition one after the other. A stream has the current token and the place
after it; a tokenizer adds the input and one token that was put back. A fault leaves the current
token alone, and reading goes on after the character at fault. -/
namespace ProjectAnalysis.Expr

structure TokenStream where
  current : Token
  after : Cursor
deriving DecidableEq, Repr, Inhabited

namespace TokenStream

/-- Before the first token of a text. -/
def ofText (text : List Char) : TokenStream :=
  ⟨.beforeFirst, .ofText text⟩

def atEnd (s : TokenStream) : Bool :=
  s.current.kind = .finish

/-- One more than what is left, and nothing at the end. -/
def size (s : TokenStream) : Nat :=
  if s.atEnd then 0 else s.after.size + 1

/-- Goes on to the next token, if there is one, and says what was wrong if there is none. -/
def step (s : TokenStream) : TokenStream × Option Fault :=
  if s.atEnd then (s, some (.syntactic .pastEnd s.current.position))
  else
    let r := nextLexeme s.after
    match r.value with
    | none => (⟨.atEnd r.next.offset, r.next⟩, none)
    | some (.token token) => (⟨token, r.next⟩, none)
    | some (.fault cause ch position) => (⟨s.current, r.next⟩, some ⟨.lexical cause ch, position⟩)

/-- The number of characters before the parenthesis that closes `depth` levels. -/
def closingParen? (depth : Int) : List Char → Option Nat
  | [] => none
  | c :: cs =>
    if c = ')' then
      if depth - 1 = 0 then some 0 else (closingParen? (depth - 1) cs).map (· + 1)
    else (closingParen? (if c = '(' then depth + 1 else depth) cs).map (· + 1)

/-- Takes everything before the parenthesis that closes `depth` levels as one token, whatever it
is, quotes included; the parenthesis itself comes next. Without such a parenthesis everything is
passed over. -/
def scan (depth : Nat) (s : TokenStream) : TokenStream :=
  match closingParen? depth s.after.rest with
  | some k =>
    ⟨⟨.word, String.ofList (s.after.rest.take k), s.after.offset, false⟩, s.after.skip k⟩
  | none => ⟨.atEnd s.after.offset, s.after.skip s.after.rest.length⟩

instance : Position TokenStream where
  size := size
  Reaches s t := t.size ≤ s.size
  refl _ := Nat.le_refl _
  trans hb hc := Nat.le_trans hc hb
  size_le h := h

theorem step_size_lt {s t : TokenStream} (h : s.step = (t, none)) : t.size < s.size := by
  unfold step at h
  split at h
  · simp at h
  · rename_i he
    have hs : s.size = s.after.size + 1 := by simp [size, he]
    dsimp only at h
    split at h
    · simp only [Prod.mk.injEq, and_true] at h
      subst h
      rw [hs]
      exact Nat.succ_pos _
    · rename_i token ht
      have hlt := nextLexeme_size_lt (c := s.after) (by simp [ht])
      simp only [Prod.mk.injEq, and_true] at h
      subst h
      unfold size
      split <;> simp_all
    · simp at h

theorem scan_size_le (depth : Nat) (s : TokenStream) (h : s.atEnd = false) :
    (s.scan depth).size ≤ s.size := by
  have hs : s.size = s.after.size + 1 := by simp [size, h]
  unfold scan
  split
  · rename_i k _
    rw [hs]
    show (s.after.skip k).size + 1 ≤ _
    rw [Cursor.skip_size]
    omega
  · simp [size, atEnd, Token.atEnd]

end TokenStream

/-- A token stream over one input that can take one token back. -/
structure Tokenizer where
  input : String
  stream : TokenStream
  pending : Option Token
deriving DecidableEq, Repr

namespace Tokenizer

def current (t : Tokenizer) : Token :=
  t.stream.current

/-- Before the first token. -/
def before (input : String) : Tokenizer :=
  ⟨input, .ofText input.toList, none⟩

def withStream (t : Tokenizer) (s : TokenStream) : Tokenizer :=
  { t with stream := s }

/-- Goes on to the token that was put back, or else to the next one of the input. -/
def next (t : Tokenizer) : Tokenizer × Option Error :=
  match t.pending with
  | some token => ({ t with stream := ⟨token, t.stream.after⟩, pending := none }, none)
  | none =>
    let (stream, fault) := t.stream.step
    (t.withStream stream, fault.map (·.within t.input))

/-- On the first token of the input. -/
def start (input : String) : Tokenizer × Option Error :=
  (before input).next

/-- Makes the token the next one. -/
def putBack (t : Tokenizer) (token : Token) : Tokenizer :=
  { t with pending := some token }

/-- Goes on if the current token is of the kind. -/
def expect (t : Tokenizer) (kind : TokenKind) : Tokenizer × Option Error :=
  if t.current.kind = kind then t.next
  else (t, some ((Fault.syntactic (.expectedToken kind t.current) t.current.position).within t.input))

def scan (t : Tokenizer) (depth : Nat) : Tokenizer :=
  t.withStream (t.stream.scan depth)

end Tokenizer

/-- The current token and all after it. -/
def TokenStream.remaining (s : TokenStream) : Except Fault (List Token) :=
  if s.atEnd then .ok []
  else match _h : s.step with
    | (_, some fault) => .error fault
    | (t, none) =>
      match t.remaining with
      | .error fault => .error fault
      | .ok tokens => .ok (s.current :: tokens)
termination_by s.size
decreasing_by exact TokenStream.step_size_lt _h

/-- All tokens of a text. -/
def tokenize (input : String) : Except Error (List Token) :=
  match (TokenStream.ofText input.toList).step with
  | (_, some fault) => .error (fault.within input)
  | (s, none) => s.remaining.mapError (·.within input)

end ProjectAnalysis.Expr
