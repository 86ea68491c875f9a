import Mathlib.Data.List.Forall2
import ProjectAnalysis.Proofs.GenerationPlace
import ProjectAnalysis.Proofs.ImportWalkPlain

/-! Which imports are reported. What a generation tells of bad imports is what the imports that its
document asks for come to, one verdict for each and in their order. No import of another file and
none of an earlier text adds to it. -/
namespace ProjectAnalysis

open Xml (Element Document)

/-- What a document asks to be imported. -/
structure ImportRequest where
  /-- The path as it is written. -/
  project : String
  /-- The SDK that the file belongs to, if one is named. -/
  sdk : Option String
  /-- The place in the text. -/
  span : Span

namespace ImportRequest

/-- A file out of each SDK that the root names. -/
def ofSdks (project : String) (root : Element) : List ImportRequest :=
  match root.attribute? "Sdk" with
  | some a => (ImportScope.sdkNames a.value).map fun sdk => ⟨project, some sdk, a.valueSpan⟩
  | none => []

/-- What an import element asks for, at its path or, without one, at its name. -/
def ofElement (e : Element) : ImportRequest :=
  ⟨ImportScope.written e, e.value? "Sdk",
    ((e.attribute? "Project").map (·.valueSpan)).getD e.nameSpan⟩

/-- All that a document asks for: the entry files of the SDKs, what is written, and the closing
files of the SDKs. -/
def ofEvents (events : List WalkEvent) : List ImportRequest :=
  let roots := events.filterMap (·.elementOf? .project)
  roots.flatMap (ofSdks "Sdk.props") ++
    (events.filterMap (·.elementOf? .fileImport)).map ofElement ++
    roots.flatMap (ofSdks "Sdk.targets")

/-- The directory that a request starts from, which may be unknown; nothing if it names an SDK that
is not installed. -/
def base? (x : ImportScope) (q : ImportRequest) : Option (Option FilePath) :=
  match q.sdk with
  | none => some x.directory
  | some sdk => (x.installation.sdkDirectory? sdk).map some

/-- The file that a value of the path stands for. -/
def candidate (base : Option FilePath) (value : String) : FilePath :=
  FilePath.resolve base (String.ofList (trim value.toList))

/-- The path of a request stands for these values, and none of them is a pattern. -/
structure Plain (x : ImportScope) (q : ImportRequest) (values : List String) : Prop where
  path : trim q.project.toList ≠ []
  evaluates : x.evaluation.evaluate q.project = .ok values
  noPattern : ∀ value ∈ values, isWildcard value = false

variable {x : ImportScope} {s : FileStore} {q : ImportRequest} {site : ImportSite}
  {told : Option Diagnostic}

/-- Where a plain path leads, by the directory that it starts from. -/
theorem Plain.target {values : List String} (h : Plain x q values) :
    x.target q.project q.sdk = match q.base? x with
      | some base => .candidates (values.map (candidate base))
      | none => .sdk := by
  have hpattern : values.any isWildcard = false := by simpa using h.noPattern
  rw [ImportScope.target, if_neg (by simpa using h.path), h.evaluates]
  dsimp only
  rw [hpattern, if_neg Bool.false_ne_true, base?]
  cases q.sdk with
  | none => rfl
  | some sdk =>
    dsimp only
    cases x.installation.sdkDirectory? sdk <;> rfl

end ImportRequest

namespace Xml

end Xml

namespace Findings

end Findings

theorem Resolution.Yields.valueIn {α : Type} {Q : α → Prop} {x : Resolution α} {s : FileStore}
    {a : α} (h : x.Yields Q) (hx : x.run.valueIn s = .ok a) : Q a := by
  have hrun := Access.Yields.runIn h .quiet ⟨0, s⟩
  rw [Access.runIn_quiet_fst] at hrun
  exact hrun a hx

namespace ImportWalk

variable {w : ImportWalk} {s : FileStore}

end ImportWalk

namespace Resolver

variable (r : Resolver) (file : FilePath) (d : Document) (previous : Option Generation)
  (s : FileStore)

-- A blank path and a missing file are told of; what an imported file misses is not.
example : ((⟨.standard, false⟩ : Resolver).resolve ⟨"/p/a.proj"⟩ (.ofText
    "<Project><Import Project='' /><Import Project='b' /><Import Project='c' /></Project>") none
    (FileStore.empty.write ⟨"/p/b"⟩ "<Project><Import Project='d' /></Project>")).1.toOption.map
      (fun g => g.diagnostics.map (·.kind)) = some [.emptyImport, .unresolvedImport] := by
  decide +kernel

end Resolver

end ProjectAnalysis
