import ProjectAnalysis.SchemaKind
import ProjectAnalysis.ExprParse

/-! The schema of project files. What an element means depends on its name and on what its parent
means, so the same name can mean different things in different places. -/
namespace ProjectAnalysis

/-- What the schema says of one kind of element. -/
structure Descriptor where
  kind : Kind
  /-- The attributes that the schema knows. -/
  attributes : List String
  /-- The children with names of their own. -/
  children : List (String × Kind)
  /-- What any other child is. -/
  otherChild : Option Kind
  /-- The content is data of another program. -/
  isOpaque : Bool
  /-- Further attributes are symbols: metadata of an item, parameters of a task. -/
  hasCustomAttributes : Bool
deriving DecidableEq, Repr

namespace Descriptor

def general (kind : Kind) : Descriptor :=
  ⟨kind, ["Condition", "Label"], [], none, false, false⟩

/-- Whether an attribute is known, whatever its case. -/
def hasAttribute (d : Descriptor) (name : String) : Bool :=
  d.attributes.any fun a => sameIgnoringCase a.toList name.toList

/-- What a child with this name is. -/
def child? (d : Descriptor) (name : String) : Option Kind :=
  match d.children.find? (·.1 = name) with
  | some (_, kind) => some kind
  | none => d.otherChild

/-- What may stand in every place for groups of items and properties. -/
def groups : List (String × Kind) :=
  [("ItemGroup", .itemGroup), ("PropertyGroup", .propertyGroup)]

/-- What the schema says of a kind; kinds of references have no elements. -/
def of? : Kind → Option Descriptor
  | .project => some { general .project with
      attributes := ["DefaultTargets", "InitialTargets", "ToolsVersion", "TreatAsLocalProperty",
        "xmlns", "Sdk"]
      children := [("Choose", .choose), ("Import", .fileImport), ("ImportGroup", .importGroup),
        ("ItemDefinitionGroup", .itemDefinitionGroup), ("ItemGroup", .itemGroup),
        ("ProjectExtensions", .projectExtensions), ("PropertyGroup", .propertyGroup),
        ("Target", .target), ("UsingTask", .usingTask)] }
  | .choose => some { general .choose with
      attributes := []
      children := [("When", .when), ("Otherwise", .otherwise)] }
  | .when => some { general .when with
      attributes := ["Condition"]
      children := ("Choose", .choose) :: groups }
  | .otherwise => some { general .otherwise with
      attributes := []
      children := ("Choose", .choose) :: groups }
  | .fileImport => some { general .fileImport with
      attributes := ["Condition", "Project", "Label", "Sdk", "Version", "MinimumVersion"] }
  | .importGroup => some { general .importGroup with children := [("Import", .fileImport)] }
  | .itemGroup => some { general .itemGroup with otherChild := some .item }
  | .item => some { general .item with
      attributes := ["Condition", "Exclude", "Include", "Remove", "Update", "KeepMetadata",
        "RemoveMetadata", "KeepDuplicates", "Label"]
      otherChild := some .metadata
      hasCustomAttributes := true }
  | .itemDefinitionGroup =>
    some { general .itemDefinitionGroup with otherChild := some .itemDefinition }
  | .itemDefinition => some { general .itemDefinition with
      otherChild := some .metadata
      hasCustomAttributes := true }
  | .metadata => some { general .metadata with attributes := ["Condition"] }
  | .propertyGroup => some { general .propertyGroup with otherChild := some .property }
  | .property => some { general .property with attributes := ["Condition"] }
  | .target => some { general .target with
      attributes := ["AfterTargets", "BeforeTargets", "Condition", "DependsOnTargets", "Inputs",
        "KeepDuplicateOutputs", "Label", "Name", "Outputs", "Returns"]
      children := ("OnError", .onError) :: groups
      otherChild := some .task }
  | .onError => some { general .onError with
      attributes := ["Condition", "ExecuteTargets", "Label"] }
  | .task => some { general .task with
      attributes := ["Condition", "ContinueOnError", "Architecture", "Runtime"]
      children := [("Output", .output)]
      hasCustomAttributes := true }
  | .output => some { general .output with
      attributes := ["Condition", "ItemName", "PropertyName", "TaskParameter"] }
  | .usingTask => some { general .usingTask with
      attributes := ["AssemblyName", "AssemblyFile", "TaskName", "TaskFactory", "Condition",
        "Architecture", "Runtime"]
      children := [("ParameterGroup", .parameterGroup), ("Task", .taskBody)] }
  | .parameterGroup => some { general .parameterGroup with
      attributes := []
      otherChild := some .parameter }
  | .parameter => some { general .parameter with
      attributes := ["Output", "ParameterType", "Required"] }
  | .taskBody => some { general .taskBody with attributes := ["Evaluate"], isOpaque := true }
  | .projectExtensions =>
    some { general .projectExtensions with attributes := [], isOpaque := true }
  | .itemReference | .propertyReference | .metadataReference | .taskParameter => none

/-- What an element is, by its name and by what its parent is. Only `Project` may be the root. -/
def resolve (parent : Option Descriptor) (name : String) : Option Descriptor :=
  match parent with
  | none => if name = "Project" then of? .project else none
  | some parent => if parent.isOpaque then none else (parent.child? name).bind of?

/-- What the last of the elements is whose names are given from the root down. -/
def resolvePath (names : List String) : Option Descriptor :=
  go none names
where
  go (current : Option Descriptor) : List String → Option Descriptor
    | [] => current
    | name :: names => (resolve current name).bind fun d => go (some d) names

end Descriptor

/-- What the value of an attribute may hold. -/
def attributeOptions (kind : Kind) (name : String) : Expr.Options :=
  let is (other : String) := sameIgnoringCase name.toList other.toList
  if is "Condition" then .conditional
  else if (kind = .fileImport || kind = .project) && (is "Project" || is "Sdk") then
    .plain
  else .full

end ProjectAnalysis
