import ProjectAnalysis.ExprParse
import ProjectAnalysis.Installation
import ProjectAnalysis.SymbolTable

/-! The value of an import: the paths that its text stands for. Known are the properties of the
installation, of the project and of the file at hand; any other is empty. A property that stands
for several directories gives a candidate for each. -/
namespace ProjectAnalysis

inductive EvaluationFault
  | expression (error : Expr.Error)
  | propertyFunction
  | registryValue
  | unsupported (source : String)
deriving DecidableEq, Repr

def EvaluationFault.message : EvaluationFault → String
  | .expression error => error.message
  | .propertyFunction => "property functions are not evaluated"
  | .registryValue => "registry values are not evaluated"
  | .unsupported source => s!"'{source}' cannot be evaluated in an import path"

/-- The properties that imports are evaluated with. -/
structure Evaluation where
  values : SymbolTable String
  /-- Properties that stand for several directories. -/
  searchPaths : SymbolTable (List String)

namespace Evaluation

def set (x : Evaluation) (name value : String) : Evaluation :=
  { x with values := x.values.insert name value }

def property? (x : Evaluation) (name : String) : Option String :=
  x.values.get? name

/-- What the path of a file says of it, by the ends of the names of the properties. -/
def fileProperties (file : FilePath) : List (String × String) :=
  let directory := match file.parent? with
    | some parent =>
      let text := parent.text.toList
      if text.getLast? = some '/' then text else text ++ ['/']
    | none => []
  let name := file.fileName?
  let split := name.map FilePath.splitExtension
  let stem := (split.map (·.1)).getD []
  let extension := match split.bind (·.2) with
    | some extension => '.' :: extension
    | none => []
  [("Directory", String.ofList directory),
    ("DirectoryNoRoot", String.ofList (directory.dropWhile (· == '/'))),
    ("File", String.ofList (name.getD [])),
    ("FullPath", file.text),
    ("Name", String.ofList stem),
    ("Extension", String.ofList extension)]

/-- Adds the properties of the project. -/
def withProject (x : Evaluation) (project : FilePath) : Evaluation :=
  (fileProperties project).foldl (fun x (name, value) => x.set ("MSBuildProject" ++ name) value) x

/-- Adds the properties of the file that holds the import. -/
def forFile (x : Evaluation) (file : FilePath) : Evaluation :=
  (fileProperties file).foldl (fun x (name, value) =>
    x.set (if name = "File" then "MSBuildThisFile" else "MSBuildThisFile" ++ name) value) x

/-- Adds one property for directories of extensions. -/
def setExtensions (paths : List String) (x : Evaluation) (name : String) : Evaluation :=
  let x := match paths with
    | first :: _ => x.set name first
    | [] => x
  if paths.length > 1 then { x with searchPaths := x.searchPaths.insert name paths } else x

/-- The properties of the installation. -/
def ofInstallation (i : Installation) : Evaluation :=
  let x : Evaluation := ⟨.empty, .empty⟩
  let x := x.set "MSBuildBinPath" i.binPath.text
  let x := x.set "MSBuildToolsPath" i.toolsPath.text
  let x := x.set "MSBuildToolsVersion" i.toolsVersion.text
  Installation.extensionProperties.foldl (setExtensions (i.extensionPaths.map (·.text))) x

/-- Puts what a property stands for behind each candidate. -/
def substitute (x : Evaluation) (name : String) (candidates : List String) : List String :=
  match x.searchPaths.get? name with
  | some paths => candidates.flatMap fun candidate => paths.map (candidate ++ ·)
  | none => candidates.map (· ++ (x.property? name).getD "")

/-- Puts what an expression stands for behind each candidate. -/
def extend (x : Evaluation) (text : List Char) (candidates : List String) (n : Expr.Node) :
    Except EvaluationFault (List String) :=
  match _h : n.shape with
  | .text value _ | .number value => .ok (candidates.map (· ++ value))
  | .concat parts | .list parts =>
    parts.attach.foldlM (fun candidates ⟨part, _⟩ => x.extend text candidates part) candidates
  | .property body =>
    match body.shape with
    | .propertyName name => .ok (x.substitute name candidates)
    | .registryValue _ => .error .registryValue
    | _ => .error .propertyFunction
  | _ => .error (.unsupported (String.ofList ((n.span.slice? text).getD [])))
termination_by sizeOf n
decreasing_by
  all_goals
    refine Expr.Node.sizeOf_lt_of_mem_children ?_
    simpa [Expr.Node.children, _h, Expr.Shape.children]

/-- The candidates that a text stands for, in the order of the search. -/
def evaluate (x : Evaluation) (text : String) : Except EvaluationFault (List String) :=
  match Expr.parse .plain text with
  | .error e => .error (.expression e)
  | .ok n => x.extend text.toList [""] n

end Evaluation

/-- Whether a path stands for many files. -/
def isWildcard (path : String) : Bool :=
  path.toList.any fun c => c == '*' || c == '?'

end ProjectAnalysis
