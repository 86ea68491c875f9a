import ProjectAnalysis.TextCase

/-! Names of properties, items, metadata and tasks are the same name when they differ in case
only: tables go by the key of a name, and keep its spelling for display. -/
namespace ProjectAnalysis

/-- A name in lower case. -/
structure NameKey where
  text : String
deriving DecidableEq, Repr

def NameKey.of (name : String) : NameKey :=
  ⟨String.ofList (lowercase name.toList)⟩

/-- A name with a leading underscore is meant for its own file only. -/
def isPrivateName (name : String) : Bool :=
  match name.toList with
  | '_' :: _ => true
  | _ => false

end ProjectAnalysis
