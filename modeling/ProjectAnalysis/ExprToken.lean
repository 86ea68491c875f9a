/-! Tokens of conditions. -/
namespace ProjectAnalysis.Expr

inductive TokenKind
  /-- Before the first token. -/
  | start
  /-- After the last token. -/
  | finish
  | number
  /-- A quoted string or a bare word. -/
  | word
  | and
  | or
  | equal
  | notEqual
  | less
  | greater
  | lessOrEqual
  | greaterOrEqual
  | leftParen
  | rightParen
  | dot
  | comma
  | not
  /-- `@` -/
  | item
  /-- `$` -/
  | property
  /-- `%` -/
  | metadata
  /-- An apostrophe with nothing after it. -/
  | apostrophe
  /-- `->` -/
  | arrow
  /-- A kind of no token. -/
  | invalid
deriving DecidableEq, Repr, Inhabited

namespace TokenKind

def all : List TokenKind :=
  [.start, .finish, .number, .word, .and, .or, .equal, .notEqual, .less, .greater, .lessOrEqual,
    .greaterOrEqual, .leftParen, .rightParen, .dot, .comma, .not, .item, .property, .metadata,
    .apostrophe, .arrow, .invalid]

/-- The name of the kind in messages. -/
def label : TokenKind → String
  | .start => "Bof"
  | .finish => "Eof"
  | .number => "Number"
  | .word => "String"
  | .and => "And"
  | .or => "Or"
  | .equal => "Equal"
  | .notEqual => "NotEqual"
  | .less => "Less"
  | .greater => "Greater"
  | .lessOrEqual => "LessOrEqual"
  | .greaterOrEqual => "GreaterOrEqual"
  | .leftParen => "LeftParen"
  | .rightParen => "RightParen"
  | .dot => "Dot"
  | .comma => "Comma"
  | .not => "Not"
  | .item => "Item"
  | .property => "Property"
  | .metadata => "Metadata"
  | .apostrophe => "Apostrophe"
  | .arrow => "Transform"
  | .invalid => "Invalid"

def isComparison : TokenKind → Bool
  | .equal | .notEqual | .less | .greater | .lessOrEqual | .greaterOrEqual => true
  | _ => false

def isPunctuation : TokenKind → Bool
  | .leftParen | .rightParen | .dot | .comma | .not | .item | .property | .metadata
  | .apostrophe => true
  | _ => false

end TokenKind

/-- A token, its text without quotes, and the offset at which it begins. -/
structure Token where
  kind : TokenKind
  text : String
  position : Nat
  /-- Set for strings that were written in quotes. -/
  quoted : Bool := false
deriving DecidableEq, Repr, Inhabited

/-- What stands for a token before the first one. -/
def Token.beforeFirst : Token :=
  ⟨.start, "", 0, false⟩

/-- What stands for a token at the end. -/
def Token.atEnd (position : Nat) : Token :=
  ⟨.finish, "", position, false⟩

end ProjectAnalysis.Expr
