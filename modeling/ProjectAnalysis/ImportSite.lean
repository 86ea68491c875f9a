import ProjectAnalysis.ImportValue
import ProjectAnalysis.DocumentWalk

/-! The imports of a document, in the order in which they take effect: the entry files of the SDKs
of the root, the imports as they are written, and the closing files of the SDKs. -/
namespace ProjectAnalysis

/-- Where an import leads. -/
inductive ImportTarget
  /-- To the first of these files that is there. -/
  | candidates (paths : List FilePath)
  /-- No path is given. -/
  | empty
  /-- Into an SDK, while the installation has none. -/
  | sdk
  /-- To all files that match a pattern. -/
  | wildcard
  | unevaluable (reason : String)
deriving DecidableEq, Repr

structure ImportSite where
  /-- The element, by its number; none if the import is remembered from an earlier text. -/
  element : Option Nat
  /-- The path as it is written. -/
  project : String
  /-- The place in the text; none if the import is remembered. -/
  span : Option Span
  target : ImportTarget
deriving DecidableEq, Repr

/-- What the imports of one file are evaluated with. -/
structure ImportScope where
  installation : Installation
  evaluation : Evaluation
  /-- The directory of the file. -/
  directory : Option FilePath

namespace ImportScope

/-- The scope of a file, by what is known of its project. -/
def ofFile (i : Installation) (project : Evaluation) (file : FilePath) : ImportScope :=
  ⟨i, project.forFile file, file.parent?⟩

/-- Where a path leads from a directory. -/
def candidates (base : Option FilePath) (values : List String) : ImportTarget :=
  .candidates (values.map fun v => FilePath.resolve base (String.ofList (trim v.toList)))

/-- Where an import leads, by its path and the SDK that it names. -/
def target (x : ImportScope) (project : String) (sdk : Option String) : ImportTarget :=
  if (trim project.toList).isEmpty then .empty
  else match x.evaluation.evaluate project with
    | .error fault => .unevaluable fault.message
    | .ok values =>
      if values.any isWildcard then .wildcard
      else match sdk with
        | none => candidates x.directory values
        | some sdk =>
          match x.installation.sdkDirectory? sdk with
          | some directory => candidates (some directory) values
          | none => .sdk

/-- The SDKs that the root names, one after the other with `;` between them. -/
def sdkNames (value : String) : List String :=
  (((splitAt ';' value.toList).map trim).filter (!·.isEmpty)).map String.ofList

/-- The imports of one file out of each SDK of the root. -/
def sdkSites (x : ImportScope) (project : String) (root : Xml.Element) : List ImportSite :=
  match root.attribute? "Sdk" with
  | some a => (sdkNames a.value).map fun sdk =>
    ⟨some root.id, project, some a.valueSpan, x.target project (some sdk)⟩
  | none => []

/-- The path of an import element as it is written. -/
def written (e : Xml.Element) : String :=
  (e.value? "Project").getD ""

/-- An import as it is written. -/
def site (x : ImportScope) (e : Xml.Element) : ImportSite :=
  let span := ((e.attribute? "Project").map (·.valueSpan)).getD e.nameSpan
  ⟨some e.id, written e, some span, x.target (written e) (e.value? "Sdk")⟩

end ImportScope

/-- The element of an event, if it is of the given kind. -/
def WalkEvent.elementOf? (kind : Kind) : WalkEvent → Option Xml.Element
  | .element e d => if d.kind = kind then some e else none
  | _ => none

/-- The imports of a document in the order in which they take effect. -/
def ImportScope.sites (x : ImportScope) (events : List WalkEvent) : List ImportSite :=
  let roots := events.filterMap (·.elementOf? .project)
  roots.flatMap (x.sdkSites "Sdk.props") ++
    (events.filterMap (·.elementOf? .fileImport)).map x.site ++
    roots.flatMap (x.sdkSites "Sdk.targets")

/-- The paths of the imports as they are written, each once, without blank ones. -/
def writtenImports (events : List WalkEvent) : List String :=
  (((events.filterMap (·.elementOf? .fileImport)).map ImportScope.written).filter fun project =>
    !(trim project.toList).isEmpty).eraseDups

end ProjectAnalysis
