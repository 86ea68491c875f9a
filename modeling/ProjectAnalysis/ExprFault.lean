import ProjectAnalysis.ExprToken

/-! Why a text is no expression, where, and in which words that is said. -/
namespace ProjectAnalysis.Expr

/-- A character at which no token begins. -/
inductive LexicalCause
  /-- A printable ASCII character that no token begins with. -/
  | punctuation
  /-- Any other character that no token begins with. -/
  | character
  /-- An apostrophe without its partner. -/
  | openString
deriving DecidableEq, Repr

/-- What a grammar rule missed or met. -/
inductive SyntaxCause
  | expected (ch : Char) (found : Option Char)
  | expectedReference
  | expectedPropertyName
  | expectedClassName
  | expectedStaticMember
  | expectedFunctionName
  | expectedArgumentEnd (close : Char)
  | missingArgument
  | unexpectedArgument (ch : Char)
  | openLiteral
  | itemNotAllowed
  | expectedItemName
  | repeatedTransform
  | expectedSeparator
  | metadataNotAllowed
  | expectedMetadataName
  | expectedToken (kind : TokenKind) (found : Token)
  | unexpectedToken (found : Token)
  | expectedParenAfter (sigil : String)
  | openReference
  | pastEnd
deriving DecidableEq, Repr

inductive Cause
  | lexical (cause : LexicalCause) (ch : Char)
  | syntactic (cause : SyntaxCause)
deriving DecidableEq, Repr

/-- A cause and the offset that it concerns. -/
structure Fault where
  cause : Cause
  position : Nat
deriving DecidableEq, Repr

def Fault.syntactic (cause : SyntaxCause) (position : Nat) : Fault :=
  ⟨.syntactic cause, position⟩

/-- The failure of a text to be an expression. -/
inductive Error
  | lexical (cause : LexicalCause) (ch : Char) (position : Nat)
  /-- A failure of the grammar keeps the whole text. -/
  | syntactic (cause : SyntaxCause) (text : String) (position : Nat)
deriving DecidableEq, Repr

/-- The failure of `text` by a fault in it. -/
def Fault.within (text : String) (f : Fault) : Error :=
  match f.cause with
  | .lexical cause ch => .lexical cause ch f.position
  | .syntactic cause => .syntactic cause text f.position

def LexicalCause.message (ch : Char) : LexicalCause → String
  | .punctuation => s!"Invalid punctuation: {ch}"
  | .character => s!"Invalid token: {ch}"
  | .openString => "Unterminated string"

/-- How a character that was found, or the end, is named. -/
def foundText : Option Char → String
  | none => "end of expression"
  | some ch => s!"'{ch}'"

def SyntaxCause.message (text : String) : SyntaxCause → String
  | .expected ch found => s!"Expected '{ch}', found {foundText found}"
  | .expectedReference => "Expected '$(', '@(' or '%('"
  | .expectedPropertyName => "Expected property name"
  | .expectedClassName => "Expected class name"
  | .expectedStaticMember => "Expected '::' after class reference"
  | .expectedFunctionName => "Expected function name"
  | .expectedArgumentEnd close => s!"Expected ',' or '{close}'"
  | .missingArgument => "Unexpected end of expression"
  | .unexpectedArgument ch => s!"Unexpected character '{ch}' in argument list"
  | .openLiteral => "Unterminated string"
  | .itemNotAllowed => "Item references are not allowed in this context"
  | .expectedItemName => "Expected item name"
  | .repeatedTransform => "A quoted transform cannot follow another transform"
  | .expectedSeparator => "Expected quoted separator"
  | .metadataNotAllowed => "Metadata references are not allowed in this context"
  | .expectedMetadataName => "Expected metadata name"
  | .expectedToken kind found =>
    s!"Expected token type of type: {kind.label}, got {found.kind.label} ({found.text})"
  | .unexpectedToken found => s!"Unexpected token {found.kind.label} ({found.text})"
  | .expectedParenAfter sigil => s!"Expected '(' after '{sigil}'"
  | .openReference => "Unterminated reference"
  | .pastEnd => s!"Error while parsing condition \"{text}\", ended abruptly."

namespace Error

def position : Error → Nat
  | .lexical _ _ position => position
  | .syntactic _ _ position => position

/-- The cause in words. -/
def description : Error → String
  | .lexical cause ch _ => cause.message ch
  | .syntactic cause text _ => cause.message text

/-- The cause in words, and its place. -/
def message (e : Error) : String :=
  s!"{e.description} at position {e.position}"

end Error

end ProjectAnalysis.Expr
