import ProjectAnalysis.ExprFault
import ProjectAnalysis.TextSpan

/-! Problems of a document, each at a place in it. None of them ends the analysis. -/
namespace ProjectAnalysis

inductive Severity
  | error
  | warning
  | info
  | hint
deriving DecidableEq, Repr

/-- The number of the severity in the protocol of editors. -/
def Severity.number : Severity → Nat
  | .error => 1
  | .warning => 2
  | .info => 3
  | .hint => 4

inductive DiagnosticKind
  | unknownElement
  | unknownAttribute
  | invalidExpression
  | malformedXml
  | emptyImport
  | unresolvedImport
deriving DecidableEq, Repr

namespace DiagnosticKind

def code : DiagnosticKind → String
  | .unknownElement => "E0001"
  | .unknownAttribute => "E0002"
  | .invalidExpression => "E0003"
  | .malformedXml => "E0004"
  | .emptyImport => "W0001"
  | .unresolvedImport => "W0002"

def severity : DiagnosticKind → Severity
  | .unknownElement | .unknownAttribute | .invalidExpression | .malformedXml => .error
  | .emptyImport | .unresolvedImport => .warning

end DiagnosticKind

structure Diagnostic where
  kind : DiagnosticKind
  severity : Severity
  code : String
  message : String
  span : Span
deriving DecidableEq, Repr

namespace Diagnostic

/-- A diagnostic with the severity and the code of its kind. -/
def of (kind : DiagnosticKind) (span : Span) (message : String) : Diagnostic :=
  ⟨kind, kind.severity, kind.code, message, span⟩

def withSeverity (d : Diagnostic) (severity : Severity) : Diagnostic :=
  { d with severity := severity }

def isError (d : Diagnostic) : Bool :=
  d.severity = .error

def isWarning (d : Diagnostic) : Bool :=
  d.severity = .warning

def unknownElement (name : String) (span : Span) : Diagnostic :=
  .of .unknownElement span s!"Unknown element '{name}'"

def unknownAttribute (element name : String) (span : Span) : Diagnostic :=
  .of .unknownAttribute span s!"Unknown attribute '{name}' on element '{element}'"

/-- From the offset of the error, held inside the span of the value, to the end of the value. -/
def invalidExpression (error : Expr.Error) (offset : Nat) (value : Span) : Diagnostic :=
  .of .invalidExpression ⟨min (max offset value.start) value.stop, value.stop⟩ error.message

def malformedXml (message : String) (span : Span) : Diagnostic :=
  .of .malformedXml span message

def emptyImport (span : Span) : Diagnostic :=
  .of .emptyImport span "Import has an empty 'Project' value"

def unresolvedImport (message : String) (span : Span) : Diagnostic :=
  .of .unresolvedImport span message

end Diagnostic

end ProjectAnalysis
