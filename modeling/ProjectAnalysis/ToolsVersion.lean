import ProjectAnalysis.TextChar

/-! The tools version that a project asks for in its root element. -/
namespace ProjectAnalysis

inductive ToolsVersion
  /-- No version, or one that is not known. -/
  | unspecified
  | v2
  | v3
  | v4
  | v12
  | v14
  | v15
  | current
deriving DecidableEq, Repr, Inhabited

namespace ToolsVersion

/-- Every version, from old to new. -/
def all : List ToolsVersion :=
  [.unspecified, .v2, .v3, .v4, .v12, .v14, .v15, .current]

/-- The version as it is written. -/
def text : ToolsVersion → String
  | .unspecified => ""
  | .v2 => "2.0"
  | .v3 => "3.5"
  | .v4 => "4.0"
  | .v12 => "12.0"
  | .v14 => "14.0"
  | .v15 => "15.0"
  | .current => "Current"

/-- Reads a version; white space around it and the case of `Current` do not count. -/
def ofText (value : String) : ToolsVersion :=
  let v := trim value.toList
  if v = "2.0".toList then .v2
  else if v = "3.5".toList then .v3
  else if v = "4.0".toList then .v4
  else if v = "12.0".toList then .v12
  else if v = "14.0".toList then .v14
  else if v = "15.0".toList then .v15
  else if sameIgnoringCase v "current".toList then .current
  else .unspecified

/-- The place of the version in the order of release. -/
def rank : ToolsVersion → Nat
  | .unspecified => 0
  | .v2 => 1
  | .v3 => 2
  | .v4 => 3
  | .v12 => 4
  | .v14 => 5
  | .v15 => 6
  | .current => 7

/-- Whether something that came with `since` is there; with no version given, all is there. -/
def supports (v since : ToolsVersion) : Bool :=
  v = .unspecified || since.rank ≤ v.rank

end ToolsVersion

end ProjectAnalysis
