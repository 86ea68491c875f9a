import ProjectAnalysis.TextSpan

/-! Entity and character references in XML text. Only the five predefined entities have names. -/
namespace ProjectAnalysis.Xml

/-- What is wrong with the number of a character reference. -/
inductive NumberFault
  | sign
  | empty
  | digit
  | tooLarge
  | zero
  | notACharacter (value : Nat)
deriving DecidableEq, Repr

/-- What is wrong with a reference; offsets count from the start of the text that holds it. -/
inductive EntityFault
  | unterminated (start stop : Nat)
  | unknown (start stop : Nat) (name : String)
  | number (fault : NumberFault)
deriving DecidableEq, Repr

def NumberFault.message : NumberFault → String
  | .sign => "unexpected number sign"
  | .empty => "cannot parse integer from empty string"
  | .digit => "invalid digit found in string"
  | .tooLarge => "number too large to fit in target type"
  | .zero => "0x0 character is not permitted in XML"
  | .notACharacter value => s!"`{value}` is not a valid codepoint"

def EntityFault.message : EntityFault → String
  | .unterminated start stop =>
    s!"Error while escaping character at range {start}..{stop}: Cannot find ';' after '&'"
  | .unknown start stop name => s!"at {start}..{stop}: unrecognized entity `{name}`"
  | .number fault => s!"invalid character reference: {fault.message}"

/-- The value of a digit, letters counting on from ten in either case. -/
def digitValue? (radix : Nat) (c : Char) : Option Nat :=
  let value :=
    if c.isDigit then some (c.toNat - '0'.toNat)
    else if 'a' ≤ c && c ≤ 'f' then some (c.toNat - 'a'.toNat + 10)
    else if 'A' ≤ c && c ≤ 'F' then some (c.toNat - 'A'.toNat + 10)
    else none
  value.filter (· < radix)

/-- Reads digits from the left, up to numbers of 32 bits. -/
def numberFrom (radix value : Nat) : List Char → Except NumberFault Nat
  | [] => .ok value
  | c :: cs =>
    match digitValue? radix c with
    | none => .error .digit
    | some d =>
      let value := value * radix + d
      if value < 2 ^ 32 then numberFrom radix value cs else .error .tooLarge

def number (radix : Nat) (digits : List Char) : Except NumberFault Nat :=
  match digits with
  | [] => .error .empty
  | c :: _ => if c = '+' || c = '-' then .error .sign else numberFrom radix 0 digits

/-- The character with a number, given after `#`, in hexadecimal after `x`. -/
def numberedChar (digits : List Char) : Except NumberFault Char := do
  let value ← match digits with
    | 'x' :: digits => number 16 digits
    | digits => number 10 digits
  if value = 0 then throw .zero
  if value.isValidChar then return Char.ofNat value
  else throw (.notACharacter value)

/-- The characters of the predefined entities. -/
def predefined? (name : List Char) : Option Char :=
  if name = ['l', 't'] then some '<'
  else if name = ['g', 't'] then some '>'
  else if name = ['a', 'm', 'p'] then some '&'
  else if name = ['a', 'p', 'o', 's'] then some '\''
  else if name = ['q', 'u', 'o', 't'] then some '"'
  else none

/-- What the reference with this name, which begins at `start`, stands for. -/
def entity (start : Nat) (name : List Char) : Except EntityFault Char :=
  match name with
  | '#' :: digits => (numberedChar digits).mapError .number
  | name =>
    match predefined? name with
    | some c => .ok c
    | none => .error (.unknown start (start + byteLength name) (String.ofList name))

def isEntityEnd (c : Char) : Bool :=
  c == '&' || c == ';'

/-- Replaces every reference of a text that begins at `offset`. -/
def unescapeFrom (offset : Nat) : List Char → Except EntityFault (List Char)
  | [] => .ok []
  | c :: cs =>
    if c = '&' then
      let name := cs.takeWhile (!isEntityEnd ·)
      match h : cs.dropWhile (!isEntityEnd ·) with
      | ';' :: rest => do
        let value ← entity (offset + 1) name
        let tail ← unescapeFrom (offset + 1 + byteLength name + 1) rest
        return value :: tail
      | _ => .error (.unterminated offset (offset + byteLength (c :: cs)))
    else do
      let tail ← unescapeFrom (offset + c.utf8Size) cs
      return c :: tail
termination_by cs => cs.length
decreasing_by
  · have := (List.dropWhile_suffix (!isEntityEnd ·) (l := cs)).length_le
    simp only [h, List.length_cons] at this ⊢
    omega
  · simp

/-- Replaces every reference of a text. -/
def unescape (text : List Char) : Except EntityFault (List Char) :=
  unescapeFrom 0 text

end ProjectAnalysis.Xml
