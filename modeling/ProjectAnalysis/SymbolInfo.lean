import ProjectAnalysis.SymbolTable
import ProjectAnalysis.SchemaKind

/-! What is known of a symbol. Merging two views of one symbol keeps everything of the first and
adds, behind it, what only the second has. -/
namespace ProjectAnalysis

inductive SymbolKind
  | item
  | metadata
  | property
  | task
  | taskParameter
deriving DecidableEq, Repr

namespace SymbolKind

def text : SymbolKind → String
  | .item => "item"
  | .metadata => "metadata"
  | .property => "property"
  | .task => "task"
  | .taskParameter => "task parameter"

/-- The kind of a reference to such a symbol. -/
def referenceKind : SymbolKind → Kind
  | .item => .itemReference
  | .metadata => .metadataReference
  | .property => .propertyReference
  | .task => .task
  | .taskParameter => .taskParameter

end SymbolKind

structure PropertyInfo where
  name : String
  description : Option String
  /-- Defined by the build engine itself. -/
  wellKnown : Bool
  /-- Not to be assigned by projects. -/
  reserved : Bool
deriving DecidableEq, Repr

def PropertyInfo.named (name : String) : PropertyInfo :=
  ⟨name, none, false, false⟩

structure MetadataInfo where
  name : String
  description : Option String
  /-- There on every item. -/
  wellKnown : Bool
deriving DecidableEq, Repr

def MetadataInfo.named (name : String) : MetadataInfo :=
  ⟨name, none, false⟩

structure ItemInfo where
  name : String
  description : Option String
  metadata : SymbolTable MetadataInfo
deriving DecidableEq

namespace ItemInfo

def named (name : String) : ItemInfo :=
  ⟨name, none, .empty⟩

def addMetadata (i : ItemInfo) (name : String) : ItemInfo :=
  { i with metadata := i.metadata.insertNew name (.named name) }

/-- Adds the metadata of another view of the item, and its description if there is none yet. -/
def merge (i other : ItemInfo) : ItemInfo :=
  { i with
    metadata := other.metadata.values.foldl (fun t m => SymbolTable.insertNew t m.name m) i.metadata
    description := i.description.or other.description }

end ItemInfo

structure TaskInfo where
  name : String
  description : Option String
  parameters : SymbolTable String
deriving DecidableEq

namespace TaskInfo

def named (name : String) : TaskInfo :=
  ⟨name, none, .empty⟩

def addParameter (t : TaskInfo) (name : String) : TaskInfo :=
  { t with parameters := t.parameters.insertNew name name }

/-- Adds the parameters of another view of the task. -/
def merge (t other : TaskInfo) : TaskInfo :=
  other.parameters.values.foldl addParameter t

end TaskInfo

end ProjectAnalysis
