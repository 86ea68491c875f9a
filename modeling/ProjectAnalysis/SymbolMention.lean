import ProjectAnalysis.DocumentWalk
import ProjectAnalysis.BuiltinSymbols

/-! What a document says of symbols. It mentions a symbol by declaring it or by referring to it;
references to well-known properties and metadata do not count. -/
namespace ProjectAnalysis

inductive Mention
  | property (name : String)
  | item (name : String)
  | metadata (item name : String)
  | task (name : String)
  | parameter (task name : String)
deriving DecidableEq, Repr

namespace Mention

/-- The attributes of an item or of a task that are symbols. -/
def customAttributes (e : Xml.Element) (d : Descriptor) : List String :=
  (e.attributes.filter fun a => !(a.name.isQualified || d.hasAttribute a.name.localName)).map
    (·.name.localName)

/-- What an attribute names, if it is there and not empty. -/
def named (e : Xml.Element) (label : String) (mention : String → Mention) : List Mention :=
  match e.value? label with
  | some name => if name.isEmpty then [] else [mention name]
  | none => []

def ofElement (e : Xml.Element) (d : Descriptor) : List Mention :=
  let name := e.name.localName
  match d.kind with
  | .output => named e "PropertyName" .property ++ named e "ItemName" .item
  | .item | .itemDefinition => .item name :: (customAttributes e d).map (.metadata name)
  | .property => [.property name]
  | .task => .task name :: (customAttributes e d).map (.parameter name)
  | _ => []

/-- Metadata without an item belongs to the item around it. -/
def ofReference (b : Builtins) (r : Expr.Reference) (item : Option String) : List Mention :=
  match r.referent with
  | .property => if b.isProperty r.name then [] else [.property r.name]
  | .item => [.item r.name]
  | .metadata owner =>
    if b.isMetadata r.name then []
    else (owner.or item).toList.map (.metadata · r.name)

end Mention

/-- The mentions of an event, in order. -/
def WalkEvent.mentions (b : Builtins) : WalkEvent → List Mention
  | .element e d => Mention.ofElement e d
  | .metadata item e => [.metadata item.name.localName e.name.localName]
  | .reference r item => Mention.ofReference b r item
  | .unknown _ | .problem _ => []

end ProjectAnalysis
