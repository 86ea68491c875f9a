import ProjectAnalysis.XmlEntity

/-! Why a text is no well-formed document, where, and in which words that is said. -/
namespace ProjectAnalysis.Xml

inductive Cause
  /-- A tag without its `>`. -/
  | openTag
  | openCharacterData
  | openComment
  | openDoctype
  | openInstruction
  | unknownMarkup
  | missingDoctypeName
  | mismatchedEnd (expected found : String)
  | unmatchedEnd (found : String)
  | expectedElementName
  | expectedEquals (name : String)
  | expectedQuote (name : String)
  | openValue (name : String)
  | duplicateAttribute (name : String)
  | entity (fault : EntityFault)
  | secondRoot
  | unclosed (element : String)
  /-- A tag that cannot be cut out of the text, since its offsets do not fall between characters.
  Reading is given up there. -/
  | misplacedTag
deriving DecidableEq, Repr

structure Fault where
  cause : Cause
  span : Span
deriving DecidableEq, Repr

/-- A fault at one offset. -/
def Fault.at (cause : Cause) (offset : Nat) : Fault :=
  ⟨cause, ⟨offset, offset⟩⟩

/-- How a faulty piece of markup is announced. -/
def syntaxError (what : String) : String :=
  "syntax error: " ++ what

/-- How a break of the rules for documents is announced. -/
def illFormed (what : String) : String :=
  "ill-formed document: " ++ what

def Cause.message : Cause → String
  | .openTag => syntaxError "tag not closed: `>` not found before end of input"
  | .openCharacterData => syntaxError "CDATA not closed: `]]>` not found before end of input"
  | .openComment => syntaxError "comment not closed: `-->` not found before end of input"
  | .openDoctype => syntaxError "DOCTYPE not closed: `>` not found before end of input"
  | .openInstruction =>
    syntaxError "processing instruction or xml declaration not closed: `?>` not found before end of input"
  | .unknownMarkup => syntaxError "unknown or missed symbol in markup"
  | .missingDoctypeName =>
    illFormed "`<!DOCTYPE>` declaration does not contain a name of a document type"
  | .mismatchedEnd expected found => illFormed s!"expected `</{expected}>`, but `</{found}>` was found"
  | .unmatchedEnd found => illFormed s!"close tag `</{found}>` does not match any open tag"
  | .expectedElementName => "Expected element name"
  | .expectedEquals name => s!"Expected '=' after attribute '{name}'"
  | .expectedQuote name => s!"Expected quoted value for attribute '{name}'"
  | .openValue name => s!"Unterminated value for attribute '{name}'"
  | .duplicateAttribute name => s!"Duplicate attribute '{name}'"
  | .entity fault => fault.message
  | .secondRoot => "Multiple root elements"
  | .unclosed element => s!"Unexpected end of document, '{element}' is not closed"
  | .misplacedTag => "The offsets of a tag do not fall between characters"

def Fault.message (f : Fault) : String :=
  f.cause.message

end ProjectAnalysis.Xml
