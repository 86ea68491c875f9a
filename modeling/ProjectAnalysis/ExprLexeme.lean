import ProjectAnalysis.ExprFault
import ProjectAnalysis.TextReader

/-! The next token of a condition: the longest one that begins at the first character that is not
white space. Every lexeme, a faulty one included, takes at least one character, so a text of
length n has at most n of them. -/
namespace ProjectAnalysis.Expr

/-- How a token goes on after its first character. -/
structure Extent where
  kind : TokenKind
  /-- The number of further characters. -/
  more : Nat
  quoted : Bool := false
deriving DecidableEq, Repr

/-- The characters before the apostrophe that closes a string. In a string that begins with an
item reference, an apostrophe inside parentheses opens or closes a literal of the reference;
parentheses inside such a literal do not count. -/
def closingQuote? (inItem : Bool) (depth : Int) (inLiteral : Bool) : List Char → Option Nat
  | [] => none
  | c :: cs =>
    let depth :=
      if inItem && !inLiteral then
        if c = '(' then depth + 1 else if c = ')' then depth - 1 else depth
      else depth
    if c = '\'' then
      if depth = 0 then some 0
      else (closingQuote? inItem depth (!inLiteral) cs).map (· + 1)
    else (closingQuote? inItem depth inLiteral cs).map (· + 1)

def wordKind (word : List Char) : TokenKind :=
  if sameIgnoringCase word ['a', 'n', 'd'] then .and
  else if sameIgnoringCase word ['o', 'r'] then .or
  else .word

/-- The token that begins with `c` and goes on in `rest`. -/
def extent (c : Char) (rest : List Char) : Except LexicalCause Extent :=
  if c = '\'' then
    if rest.isEmpty then .ok ⟨.apostrophe, 0, false⟩
    else match closingQuote? (rest.head? == some '@') 0 false rest with
      | some k => .ok ⟨.word, k + 1, true⟩
      | none => .error .openString
  else if c.isDigit then .ok ⟨.number, (rest.takeWhile isNumberPart).length, false⟩
  else if isNameStart c then
    let more := rest.takeWhile isNamePart
    .ok ⟨wordKind (c :: more), more.length, false⟩
  else match c, rest with
    | '-', '>' :: _ => .ok ⟨.arrow, 1, false⟩
    | '-', _ => .ok ⟨.number, (rest.takeWhile isNumberPart).length, false⟩
    | '!', '=' :: _ => .ok ⟨.notEqual, 1, false⟩
    | '<', '=' :: _ => .ok ⟨.lessOrEqual, 1, false⟩
    | '>', '=' :: _ => .ok ⟨.greaterOrEqual, 1, false⟩
    | '=', '=' :: _ => .ok ⟨.equal, 1, false⟩
    | '!', _ => .ok ⟨.not, 0, false⟩
    | '<', _ => .ok ⟨.less, 0, false⟩
    | '>', _ => .ok ⟨.greater, 0, false⟩
    | '=', _ => .ok ⟨.equal, 0, false⟩
    | '(', _ => .ok ⟨.leftParen, 0, false⟩
    | ')', _ => .ok ⟨.rightParen, 0, false⟩
    | '.', _ => .ok ⟨.dot, 0, false⟩
    | ',', _ => .ok ⟨.comma, 0, false⟩
    | '@', _ => .ok ⟨.item, 0, false⟩
    | '$', _ => .ok ⟨.property, 0, false⟩
    | '%', _ => .ok ⟨.metadata, 0, false⟩
    | c, _ => .error (if ' ' ≤ c && c ≤ '\x7f' then .punctuation else .character)

/-- What a lexeme is. -/
inductive LexemeValue
  | token (token : Token)
  | fault (cause : LexicalCause) (ch : Char) (position : Nat)
deriving DecidableEq, Repr

/-- What the extent of a token at `offset` means; without its quotes for a string. -/
def lexemeValue (offset : Nat) (c : Char) (rest : List Char) : LexemeValue :=
  match extent c rest with
  | .error cause => .fault cause c offset
  | .ok x =>
    let text := if x.quoted then rest.take (x.more - 1) else c :: rest.take x.more
    .token ⟨x.kind, String.ofList text, offset, x.quoted⟩

/-- How many characters after the first belong to the lexeme. -/
def lexemeMore (c : Char) (rest : List Char) : Nat :=
  match extent c rest with
  | .error _ => 0
  | .ok x => x.more

/-- The lexeme at the very start of what is left. -/
def lexemeAt : (c : Cursor) → Option (Parsed LexemeValue c)
  | ⟨_, []⟩ => none
  | ⟨offset, x :: rest⟩ =>
    some ⟨lexemeValue offset x rest, Cursor.skip (lexemeMore x rest + 1) ⟨offset, x :: rest⟩,
      Cursor.reaches_skip _ _, by
        show (Cursor.skip _ _).size < Cursor.size _
        rw [Cursor.skip_size]
        simp only [Cursor.size, List.length_cons]
        omega⟩

/-- The next lexeme after white space, or the place at the end. -/
def nextLexeme (c : Cursor) : Reading (Option LexemeValue) c :=
  let d := c.skipWhile isBlank
  match lexemeAt d with
  | none => ⟨none, d, c.reaches_skipWhile _⟩
  | some r => ⟨some r.value, r.next, (c.reaches_skipWhile _).trans r.reaches⟩

theorem nextLexeme_size_lt {c : Cursor} (h : (nextLexeme c).value.isSome) :
    (nextLexeme c).next.size < c.size := by
  have hd := (c.reaches_skipWhile isBlank).size_le
  unfold nextLexeme at h ⊢
  dsimp only at h ⊢
  split at h
  · simp at h
  · rename_i r _
    exact Nat.lt_of_lt_of_le r.shorter hd

end ProjectAnalysis.Expr
