import ProjectAnalysis.ExprReference
import ProjectAnalysis.ExprTokenizer

/-! Conditions:
```text
disjunction := conjunction ('or' conjunction)*
conjunction := negation ('and' negation)*
negation    := '!' negation | relation
relation    := factor (comparison factor)?
factor      := '(' disjunction ')' | number | quoted | word | word '(' (factor (',' factor)*)? ')'
             | reference
```
A reference is found by counting parentheses, whatever stands between them, and is then read as
in other text. Every construct takes its first token before it reads another construct. -/
namespace ProjectAnalysis.Expr

/-- The constructs that a condition may hold inside. -/
inductive Level
  | disjunction
  | conjunction
  | negation
  | factor
deriving DecidableEq, Repr

abbrev TokenRead (n : Nat) (α : Type) := Reader TokenStream Fault n α

/-- A reader of constructs, wherever less than `n` is left. -/
abbrev InnerLevel (n : Nat) := Level → Step TokenStream Fault n Node

variable {n : Nat} {α : Type}

/-- Goes on to the next token. -/
def advance (s : TokenStream) : Except Fault (Parsed Unit s) :=
  match h : s.step with
  | (_, some fault) => .error fault
  | (t, none) => .ok ⟨(), t, Nat.le_of_lt (TokenStream.step_size_lt h), TokenStream.step_size_lt h⟩

def nextToken : TokenRead n Unit :=
  Step.read fun s _ => advance s

/-- The current token, left behind, if it is of the kind. -/
def onToken (kind : TokenKind) : Branch TokenStream Fault n Token := fun s =>
  ((Step.branch (·.current.kind = kind) fun s _ => advance s).andThen fun _ =>
    return s.current) s

def currentToken : TokenRead n Token := do
  return (← Reader.place).current

def expectToken (kind : TokenKind) : TokenRead n Unit := do
  let found ← currentToken
  if found.kind = kind then nextToken
  else Reader.fail (.syntactic (.expectedToken kind found) found.position)

/-- A value that is read from other text. -/
def ofExcept (result : Except Fault α) : TokenRead n α :=
  match result with
  | .error fault => Reader.fail fault
  | .ok a => return a

/-- Passes over everything before the parenthesis that closes the one just opened. -/
def scanParen : TokenRead n Unit := fun s _ =>
  if h : s.atEnd = false then .ok ⟨(), s.scan 1, TokenStream.scan_size_le 1 s h⟩
  else .ok ⟨(), s, Position.refl s⟩

/-- The part of the text that a token without quotes was read from. -/
def Token.span (t : Token) : Span :=
  ⟨t.position, t.position + byteLength t.text.toList⟩

def binary (op : Operator) (left right : Node) : Node :=
  .mk (left.span.cover right.span) (.binary op left right)

def comparison? : TokenKind → Option Operator
  | .equal => some .equal
  | .notEqual => some .notEqual
  | .less => some .less
  | .lessOrEqual => some .lessOrEqual
  | .greater => some .greater
  | .greaterOrEqual => some .greaterOrEqual
  | _ => none

/-- Factors in parentheses, if the opening one is current. -/
def factorList (inner : InnerLevel n) : Branch TokenStream Fault n Node :=
  (onToken .leftParen).andThen fun opening => do
    let nodes ← if (← currentToken).kind = .rightParen then pure [] else do
      let first ← (inner .factor).read
      Reader.fold (fun nodes => (onToken .comma).andThen fun _ => do
        let node ← (inner .factor).read
        return nodes ++ [node]) [first]
    let closing ← currentToken
    expectToken .rightParen
    return .mk ⟨opening.position, closing.position + 1⟩ (.argumentList nodes)

/-- What follows a word: its arguments, or nothing. -/
def afterWord (inner : InnerLevel n) (word : Token) : TokenRead n Node := do
  match ← (factorList inner).optional with
  | none => return .mk word.span (.text word.text false)
  | some arguments =>
    let function : Node := .mk word.span (.functionName word.text)
    return .mk ⟨word.position, arguments.span.stop⟩ (.conditionFunction function arguments)

/-- What follows the sigil of a reference, which is the current token of `s`. -/
def afterSigil (o : Options) (s : TokenStream) : TokenRead n Node := do
  let sigil := s.current
  let opening ← currentToken
  if opening.kind ≠ .leftParen then
    Reader.fail (.syntactic (.expectedParenAfter sigil.text) opening.position)
  scanParen
  let closing ← Reader.place
  if closing.atEnd then Reader.fail (.syntactic .openReference sigil.position)
  let taken := s.after.rest.length - closing.after.rest.length + 1
  let body := sigil.text.toList ++ s.after.rest.take taken
  let node ← ofExcept ((reference o ⟨sigil.position, body⟩).map (·.value))
  nextToken
  expectToken .rightParen
  return node

def factor (o : Options) (s : TokenStream) (inner : InnerLevel (Position.size s)) :
    Except Fault (Parsed Node s) :=
  let token := s.current
  match token.kind with
  | .leftParen => do
    (← advance s).andThen fun _ => do
      let node ← (inner .disjunction).read
      expectToken .rightParen
      return node
  | .number => do
    (← advance s).andThen fun _ => return .mk token.span (.number token.text)
  | .word => do
    (← advance s).andThen fun _ =>
      if token.quoted then
        ofExcept (Read.from ⟨token.position + 1, token.text.toList⟩ (concat anywhere o true false))
      else afterWord inner token
  | .property | .item | .metadata => do
    (← advance s).andThen fun _ => afterSigil o s
  | _ => .error (.syntactic (.unexpectedToken token) token.position)

def relation (o : Options) (s : TokenStream) (inner : InnerLevel (Position.size s)) :
    Except Fault (Parsed Node s) := do
  (← factor o s inner).andThen fun left => do
    match comparison? (← currentToken).kind with
    | none => return left
    | some op =>
      nextToken
      let right ← (inner .factor).read
      return binary op left right

def negation (o : Options) (s : TokenStream) (inner : InnerLevel (Position.size s)) :
    Except Fault (Parsed Node s) :=
  if s.current.kind = .not then do
    (← advance s).andThen fun _ => do
      let operand ← (inner .negation).read
      return .mk ⟨s.current.position, operand.span.stop⟩ (.not operand)
  else relation o s inner

def conjunction (o : Options) (s : TokenStream) (inner : InnerLevel (Position.size s)) :
    Except Fault (Parsed Node s) := do
  (← negation o s inner).andThen fun left =>
    Reader.fold (fun left => (onToken .and).andThen fun _ => do
      let right ← (inner .negation).read
      return binary .and left right) left

def disjunction (o : Options) (s : TokenStream) (inner : InnerLevel (Position.size s)) :
    Except Fault (Parsed Node s) := do
  (← conjunction o s inner).andThen fun left =>
    Reader.fold (fun left => (onToken .or).andThen fun _ => do
      let right ← (inner .conjunction).read
      return binary .or left right) left

/-- A construct at `s`, given how to read the constructs inside it. -/
def levelWith (o : Options) (s : TokenStream) (inner : InnerLevel (Position.size s)) :
    Level → Except Fault (Parsed Node s)
  | .disjunction => disjunction o s inner
  | .conjunction => conjunction o s inner
  | .negation => negation o s inner
  | .factor => factor o s inner

/-- Reads a construct. -/
def level (o : Options) (l : Level) (s : TokenStream) : Except Fault (Parsed Node s) :=
  levelWith o s (fun l t _ => level o l t) l
termination_by Position.size s

/-- A whole condition. Without any token it is empty text. -/
def wholeCondition (o : Options) (text : List Char) : Except Fault Node :=
  match (TokenStream.ofText text).step with
  | (_, some fault) => .error fault
  | (s, none) =>
    if s.atEnd then .ok (.mk ⟨0, 0⟩ (.text "" false))
    else do
      let r ← level o .disjunction s
      if r.next.atEnd then return r.value
      else
        let token := r.next.current
        throw (.syntactic (.unexpectedToken token) token.position)

end ProjectAnalysis.Expr
