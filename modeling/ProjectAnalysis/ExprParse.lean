import ProjectAnalysis.ExprCondition

/-! Texts of attributes and elements as expressions. -/
namespace ProjectAnalysis.Expr

namespace Options

/-- Property references only. -/
def plain : Options :=
  ⟨false, false, false, false⟩

/-- Items, metadata and lists. -/
def full : Options :=
  ⟨true, true, true, false⟩

/-- A condition with items and metadata. -/
def conditional : Options :=
  ⟨true, true, false, true⟩

end Options

/-- Reads a whole text; spans are offsets into it. -/
def parse (o : Options) (text : String) : Except Error Node :=
  let cs := text.toList
  (if o.condition then wholeCondition o cs else Read.from (.ofText cs) (segments o)).mapError
    (·.within text)

/-- Reads the text of a condition. -/
def parseCondition (text : String) : Except Error Node :=
  parse .conditional text

end ProjectAnalysis.Expr
