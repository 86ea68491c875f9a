/-! What an element of a project means, and what a reference in an expression names. -/
namespace ProjectAnalysis

inductive Kind
  | choose
  | fileImport
  | importGroup
  | item
  | itemDefinitionGroup
  | itemDefinition
  | itemGroup
  | metadata
  | onError
  | otherwise
  | output
  | parameter
  | parameterGroup
  | project
  | projectExtensions
  | property
  | propertyGroup
  | target
  | task
  | taskBody
  | usingTask
  | when
  | itemReference
  | propertyReference
  | metadataReference
  | taskParameter
deriving DecidableEq, Repr, Inhabited

namespace Kind

def text : Kind → String
  | .choose => "Choose"
  | .fileImport => "Import"
  | .importGroup => "ImportGroup"
  | .item => "Item"
  | .itemDefinitionGroup => "ItemDefinitionGroup"
  | .itemDefinition => "ItemDefinition"
  | .itemGroup => "ItemGroup"
  | .metadata => "Metadata"
  | .onError => "OnError"
  | .otherwise => "Otherwise"
  | .output => "Output"
  | .parameter => "Parameter"
  | .parameterGroup => "ParameterGroup"
  | .project => "Project"
  | .projectExtensions => "ProjectExtensions"
  | .property => "Property"
  | .propertyGroup => "PropertyGroup"
  | .target => "Target"
  | .task => "Task"
  | .taskBody => "TaskBody"
  | .usingTask => "UsingTask"
  | .when => "When"
  | .itemReference => "ItemReference"
  | .propertyReference => "PropertyReference"
  | .metadataReference => "MetadataReference"
  | .taskParameter => "TaskParameter"

def all : List Kind :=
  [.choose, .fileImport, .importGroup, .item, .itemDefinitionGroup, .itemDefinition, .itemGroup,
    .metadata, .onError, .otherwise, .output, .parameter, .parameterGroup, .project,
    .projectExtensions, .property, .propertyGroup, .target, .task, .taskBody, .usingTask, .when,
    .itemReference, .propertyReference, .metadataReference, .taskParameter]

/-- A kind of reference, which no element has. -/
def isReference : Kind → Bool
  | .itemReference | .propertyReference | .metadataReference | .taskParameter => true
  | _ => false

/-- Whether the name of the element is the name of the symbol. -/
def isNamedByElement : Kind → Bool
  | .item | .itemDefinition | .metadata | .property | .task => true
  | _ => false

end Kind

end ProjectAnalysis
