import ProjectAnalysis.ExprTree
import ProjectAnalysis.ExprFault
import ProjectAnalysis.TextReader

/-! Text with references in it:
```text
text      := (literal | reference)*
reference := '$(' property ')' | '@(' item ')' | '%(' metadata ')'
property  := name member* | '[' class ']::' name args? member* | 'Registry:' value
member    := '.' name args? | '[' arguments ']'
item      := name ('->' (quoted | name args))* (',' quoted)?
metadata  := name ('.' name)?
args      := '(' (argument (',' argument)*)? ')'
argument  := quoted | reference | number | name
```
White space may stand between the parts of a reference. Every reference begins with two
characters of its own, so the references inside it are read from less text. -/
namespace ProjectAnalysis.Expr

/-- What a text may hold. -/
structure Options where
  /-- `@(…)` -/
  items : Bool
  /-- `%(…)` -/
  metadata : Bool
  /-- Segments with `;` between them. -/
  lists : Bool
  /-- The text is a condition. -/
  condition : Bool
deriving DecidableEq, Repr

abbrev Read (n : Nat) (α : Type) := Reader Cursor Fault n α

/-- A reader of references, wherever less than `n` is left. -/
abbrev Inner (n : Nat) := Options → Step Cursor Fault n Node

variable {n : Nat} {α : Type}

def failAt (cause : SyntaxCause) (position : Nat) : Read n α :=
  Reader.fail (.syntactic cause position)

/-- Fails at the place that was reached. -/
def failHere (cause : SyntaxCause) : Read n α := do
  failAt cause (← Reader.offset)

def expect (ch : Char) : Read n Unit := do
  if ← Reader.eat [ch] then return
  else failHere (.expected ch (← Reader.peek))

def isSigil (c : Char) : Bool :=
  c == '$' || c == '@' || c == '%'

def isQuote (c : Char) : Bool :=
  c == '\'' || c == '"' || c == '\x60'

def startsReference (c : Cursor) : Bool :=
  match c.rest with
  | sigil :: '(' :: _ => isSigil sigil
  | _ => false

/-- The number of name characters in front. A `-` belongs to a name unless it begins `->`. -/
def nameTail : List Char → Nat
  | '-' :: '>' :: _ => 0
  | c :: cs => if isNamePart c || c == '-' then nameTail cs + 1 else 0
  | [] => 0

/-- The length of the name in front, or nothing. -/
def nameLength : List Char → Nat
  | c :: cs => if isNameStart c then nameTail cs + 1 else 0
  | [] => 0

/-- Reads a name. -/
def name (missing : SyntaxCause) : Read n String := do
  let c ← Reader.place
  match nameLength c.rest with
  | 0 => failAt missing c.offset
  | k => return String.ofList (← Reader.take k)

def functionName : Read n Node := do
  let start ← Reader.offset
  let function ← name .expectedFunctionName
  return .mk ⟨start, ← Reader.offset⟩ (.functionName function)

/-- The number of characters before the next reference, or before the next `;` in a list. -/
def literalLength (lists : Bool) : List Char → Nat
  | [] => 0
  | c :: cs =>
    if (lists && c == ';') || (isSigil c && cs.head? == some '(') then 0
    else literalLength lists cs + 1

/-- The literal text up to there, if there is any. -/
def literal (quoted lists : Bool) : Read n (List Node) := do
  let c ← Reader.place
  match literalLength lists c.rest with
  | 0 => return []
  | k =>
    let value ← Reader.take k
    return [.mk ⟨c.offset, ← Reader.offset⟩ (.text (String.ofList value) quoted)]

/-- Literal text and references in turn. -/
def parts (inner : Inner n) (o : Options) (quoted lists : Bool) : Read n (List Node) := do
  let first ← literal quoted lists
  Reader.fold (fun nodes => (Step.branch startsReference (inner o)).andThen fun reference => do
    let more ← literal quoted lists
    return nodes ++ reference :: more) first

/-- The parts as one node: no part is empty text, and one part stands for itself. -/
def concat (inner : Inner n) (o : Options) (quoted lists : Bool) : Read n Node := do
  let start ← Reader.offset
  let nodes ← parts inner o quoted lists
  let stop ← Reader.offset
  match nodes with
  | [] => return .mk ⟨start, stop⟩ (.text "" quoted)
  | [node] => return node
  | nodes => return .mk ⟨start, stop⟩ (.concat nodes)

/-- A literal in quotes of one kind; what is between them may hold references. -/
def quoted (inner : Inner n) (o : Options) : Branch Cursor Fault n Node
  | ⟨_, []⟩, _ => .ok none
  | ⟨offset, q :: rest⟩, h =>
    if isQuote q then
      let body := rest.takeWhile (· != q)
      have hb : body.length ≤ rest.length := (List.takeWhile_prefix _).length_le
      if rest.contains q then
        match concat inner o true false ⟨offset + q.utf8Size, body⟩
            (Nat.lt_trans (Nat.lt_succ_of_le hb) h) with
        | .error e => .error e
        | .ok r =>
          .ok (some ⟨r.value, Cursor.skip (body.length + 2) ⟨offset, q :: rest⟩,
            Cursor.reaches_skip _ _, by
              show (Cursor.skip _ _).size < Cursor.size _
              rw [Cursor.skip_size]
              simp only [Cursor.size, List.length_cons]
              omega⟩)
      else .error (.syntactic .openLiteral offset)
    else .ok none

/-- A number: a digit or `-`, then digits and dots. -/
def number : Read n Node := do
  let start ← Reader.offset
  let first ← Reader.take 1
  let more ← Reader.takeWhile isNumberPart
  return .mk ⟨start, ← Reader.offset⟩ (.number (String.ofList (first ++ more)))

/-- A bare word among the arguments. -/
def bareWord : Read n Node := do
  let start ← Reader.offset
  let word ← name .missingArgument
  return .mk ⟨start, ← Reader.offset⟩ (.text word false)

def argument (inner : Inner n) (o : Options) : Read n Node := do
  match ← ((quoted inner o).orElse (Step.branch startsReference (inner o))).optional with
  | some node => return node
  | none =>
    match ← Reader.peek with
    | none => failHere .missingArgument
    | some c =>
      if c.isDigit || c == '-' then number
      else if isNameStart c then bareWord
      else failHere (.unexpectedArgument c)

/-- The arguments after the opening bracket, with the closing one. -/
def arguments (inner : Inner n) (o : Options) (close : Char) : Read n (List Node) := do
  Reader.blanks
  if ← Reader.eat [close] then return []
  else
    let first ← argument inner o
    Reader.blanks
    let all ← Reader.fold (fun nodes => (Branch.onChar (· == ',')).andThen fun _ => do
      Reader.blanks
      let node ← argument inner o
      Reader.blanks
      return nodes ++ [node]) [first]
    if ← Reader.eat [close] then return all
    else failHere (.expectedArgumentEnd close)

/-- Arguments in brackets, if the opening bracket comes next. -/
def argumentList (inner : Inner n) (o : Options) (opening close : Char) :
    Branch Cursor Fault n Node := fun c =>
  ((Branch.onChar (· == opening)).andThen fun _ => do
    let nodes ← arguments inner o close
    return .mk ⟨c.offset, ← Reader.offset⟩ (.argumentList nodes)) c

def callArguments (inner : Inner n) (o : Options) : Branch Cursor Fault n Node :=
  argumentList inner o '(' ')'

/-- A member or a call after the value `target`, with the white space after it. -/
def dotMember (inner : Inner n) (o : Options) (target : Node) : Branch Cursor Fault n Node :=
  (Branch.onChar (· == '.')).andThen fun _ => do
    Reader.blanks
    let function ← functionName
    Reader.blanks
    let arguments ← (callArguments inner o).optional
    let stop ← Reader.offset
    Reader.blanks
    return .mk ⟨target.span.start, stop⟩ (.invocation target (some function) arguments)

/-- An index after the value `target`, with the white space after it. -/
def indexMember (inner : Inner n) (o : Options) (target : Node) : Branch Cursor Fault n Node :=
  (argumentList inner o '[' ']').andThen fun arguments => do
    let stop ← Reader.offset
    Reader.blanks
    return .mk ⟨target.span.start, stop⟩ (.invocation target none (some arguments))

/-- All members after a value. -/
def members (inner : Inner n) (o : Options) (target : Node) : Read n Node := do
  Reader.blanks
  Reader.fold (fun target => (dotMember inner o target).orElse (indexMember inner o target)) target

/-- `[class]::name`, a call of it or not, and the members after it. -/
def staticCall (inner : Inner n) (o : Options) : Branch Cursor Fault n Node := fun c =>
  ((Branch.onChar (· == '[')).andThen fun _ => do
    let className := trim (← Reader.takeWhile (· != ']'))
    if className.isEmpty then failHere .expectedClassName
    expect ']'
    let target : Node := .mk ⟨c.offset, ← Reader.offset⟩ (.classReference (String.ofList className))
    Reader.blanks
    if !(← Reader.eat [':', ':']) then failHere .expectedStaticMember
    Reader.blanks
    let function ← functionName
    Reader.blanks
    let arguments ← (callArguments inner o).optional
    let stop ← Reader.offset
    members inner o (.mk ⟨c.offset, stop⟩ (.invocation target (some function) arguments))) c

/-- What a reference to a registry value begins with, in any case. -/
def registryLead : List Char :=
  "registry:".toList

def registryValue : Read n Node := do
  let start ← Reader.offset
  let _ ← Reader.take registryLead.length
  let value ← Reader.takeWhile (· != ')')
  return .mk ⟨start, ← Reader.offset⟩ (.registryValue (String.ofList (trimEnd value)))

def propertyBody (inner : Inner n) (o : Options) : Read n Node := do
  match ← (staticCall inner o).optional with
  | some node => return node
  | none =>
    let c ← Reader.place
    if startsIgnoringCase registryLead c.rest then registryValue
    else
      let property ← name .expectedPropertyName
      members inner o (.mk ⟨c.offset, ← Reader.offset⟩ (.propertyName property))

/-- A property reference that began at `start`, after its opening parenthesis. -/
def propertyFrom (inner : Inner n) (o : Options) (start : Nat) : Read n Node := do
  Reader.blanks
  let body ← propertyBody inner o
  Reader.blanks
  expect ')'
  return .mk ⟨start, ← Reader.offset⟩ (.property body)

/-- `->` and a transform after the one before it, with the white space after it. A quoted
transform comes first or not at all, and may hold metadata references everywhere. -/
def transformAfter (inner : Inner n) (o : Options) (previous : Option Node) :
    Branch Cursor Fault n (Option Node) := fun c =>
  ((Branch.onChar (fun _ => ['-', '>'].isPrefixOf c.rest)).andThen fun _ => do
    let _ ← Reader.take 1
    Reader.blanks
    let here ← Reader.offset
    let quotedNext := ((← Reader.peek).map isQuote).getD false
    if quotedNext && previous.isSome then failAt .repeatedTransform here
    let node ← match ← (quoted inner { o with metadata := true }).optional with
      | some node => pure node
      | none => do
        let function ← functionName
        Reader.blanks
        match ← (callArguments inner o).optional with
        | none => failHere (.expected '(' (← Reader.peek))
        | some arguments =>
          let start := (previous.map (·.span.start)).getD here
          pure (.mk ⟨start, ← Reader.offset⟩ (.itemFunction previous function arguments))
    Reader.blanks
    return some node) c

/-- `,` and a separator in quotes. -/
def separator (inner : Inner n) (o : Options) : Branch Cursor Fault n Node :=
  (Branch.onChar (· == ',')).andThen fun _ => do
    Reader.blanks
    match ← (quoted inner o).optional with
    | some node => return node
    | none => failHere .expectedSeparator

/-- An item reference that began at `start`, after its opening parenthesis. -/
def itemFrom (inner : Inner n) (o : Options) (start : Nat) : Read n Node := do
  if !o.items then failAt .itemNotAllowed start
  Reader.blanks
  let item ← name .expectedItemName
  Reader.blanks
  let transform ← Reader.fold (transformAfter inner o) none
  let separator ← (separator inner o).optional
  Reader.blanks
  expect ')'
  return .mk ⟨start, ← Reader.offset⟩ (.item item transform separator)

/-- A metadata reference that began at `start`, after its opening parenthesis. -/
def metadataFrom (o : Options) (start : Nat) : Read n Node := do
  if !o.metadata then failAt .metadataNotAllowed start
  Reader.blanks
  let first ← name .expectedMetadataName
  Reader.blanks
  let qualified ← Reader.eat ['.']
  if qualified then Reader.blanks
  let second ← if qualified then some <$> name .expectedMetadataName else pure none
  Reader.blanks
  expect ')'
  let shape := match second with
    | some second => .metadata (some first) second
    | none => .metadata none first
  return .mk ⟨start, ← Reader.offset⟩ shape

/-- A reference at `c`, given how to read the references inside it. -/
def referenceWith (o : Options) (c : Cursor) (inner : Inner (Position.size c)) :
    Except Fault (Parsed Node c) :=
  match c.take? fun _ => true with
  | none => .error (.syntactic (.expected '(' none) c.offset)
  | some r => r.andThen fun sigil => do
    expect '('
    if sigil = '$' then propertyFrom inner o c.offset
    else if sigil = '@' then itemFrom inner o c.offset
    else if sigil = '%' then metadataFrom o c.offset
    else failAt .expectedReference c.offset

/-- Reads a reference. -/
def reference (o : Options) (c : Cursor) : Except Fault (Parsed Node c) :=
  referenceWith o c fun o d _ => reference o d
termination_by Position.size c

/-- Reads references anywhere. -/
def anywhere : Inner n :=
  fun o c _ => reference o c

/-- A whole text, or its segments with `;` between them. -/
def segments (o : Options) : Read n Node := do
  let start ← Reader.offset
  let first ← concat anywhere o false o.lists
  if o.lists then
    let nodes ← Reader.fold (fun nodes => (Branch.onChar (· == ';')).andThen fun _ => do
      let node ← concat anywhere o false true
      return nodes ++ [node]) [first]
    match nodes with
    | [node] => return node
    | nodes => return .mk ⟨start, ← Reader.offset⟩ (.list nodes)
  else return first

/-- The value that a reader gets from a text. -/
def Read.from (c : Cursor) (p : Read (Position.size c + 1) α) : Except Fault α :=
  (p c (Nat.lt_succ_self _)).map (·.value)

end ProjectAnalysis.Expr
