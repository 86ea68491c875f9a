import ProjectAnalysis.XmlDocument
import ProjectAnalysis.SchemaElement
import ProjectAnalysis.ExprListing
import ProjectAnalysis.Diagnostic

/-! A walk over a document by the schema, from the root down. It meets events in order: elements
with what they are, the references in their values, and problems. Elements with a qualified name
belong to other programs; they, unknown elements, and the content of opaque ones are not entered. -/
namespace ProjectAnalysis

open Xml (Element Tree Document OffsetMap)

/-- What the walk meets. -/
inductive WalkEvent
  /-- An element that the schema knows. -/
  | element (element : Element) (descriptor : Descriptor)
  | unknown (element : Element)
  | metadata (item element : Element)
  /-- A reference, its span in the document, and the name of the item that the value belongs to. -/
  | reference (reference : Expr.Reference) (item : Option String)
  | problem (diagnostic : Diagnostic)

namespace DocumentWalk

/-- An attribute that is no attribute of the schema: a qualified one, or the namespace. -/
def isForeign (a : Xml.Attribute) : Bool :=
  a.name.isQualified || a.name.localName = "xmlns"

/-- The attributes that the schema neither knows nor leaves open. -/
def unknownAttributes (e : Element) (d : Descriptor) : List WalkEvent :=
  if d.hasCustomAttributes then []
  else (e.attributes.filter fun a => !(isForeign a || d.hasAttribute a.name.localName)).map fun a =>
    .problem (.unknownAttribute e.name.localName a.name.localName a.span)

/-- The references of a value, or the one problem of it. An empty value has neither. -/
def value (options : Expr.Options) (text : String) (map : OffsetMap) (span : Span)
    (item : Option String) : List WalkEvent :=
  if text.isEmpty then []
  else match Expr.parse options text with
    | .ok root => root.references.map fun r =>
      .reference { r with span := map.spanToDocument r.span } item
    | .error e => [.problem (.invalidExpression e (map.toDocument e.position) span)]

def attributeValues (e : Element) (kind : Kind) (item : Option String) : List WalkEvent :=
  (e.attributes.filter (!isForeign ·)).flatMap fun a =>
    value (attributeOptions kind a.name.localName) a.value a.map a.valueSpan item

/-- The text of a property or of metadata. -/
def textValue (e : Element) (d : Descriptor) (item : Option String) : List WalkEvent :=
  if d.isOpaque || !(d.kind = .property || d.kind = .metadata) then []
  else match e.content with
    | some c => value .full c.value c.map c.span item
    | none => []

def isItem (kind : Kind) : Bool :=
  kind = .item || kind = .itemDefinition

/-- The events of an element without its children. -/
def ownEvents (e : Element) (d : Descriptor) (item : Option Element) : List WalkEvent :=
  let owner := item.map (·.name.localName)
  let metadata := match item with
    | some item => if d.kind = .metadata then [.metadata item e] else []
    | none => []
  unknownAttributes e d ++ .element e d :: (metadata ++ attributeValues e d.kind owner ++
    textValue e d owner)

mutual

/-- The events of an element under a parent of the schema, inside an item or not. -/
def events (parent : Option Descriptor) (item : Option Element) : Tree → List WalkEvent
  | .node e children =>
    if e.name.isQualified then []
    else match Descriptor.resolve parent e.name.localName with
      | none => [.problem (.unknownElement e.name.localName e.nameSpan), .unknown e]
      | some d =>
        let item := if isItem d.kind then some e else item
        ownEvents e d item ++ if d.isOpaque then [] else allEvents (some d) item children

def allEvents (parent : Option Descriptor) (item : Option Element) : List Tree → List WalkEvent
  | [] => []
  | t :: ts => events parent item t ++ allEvents parent item ts

end

end DocumentWalk

/-- The walk over a whole document; the faults of its text come first. -/
def Xml.Document.walk (d : Document) : List WalkEvent :=
  d.faults.map (fun f => .problem (.malformedXml f.message f.span)) ++
    (d.root.map (DocumentWalk.events none none)).getD []

namespace WalkEvent

def diagnostic? : WalkEvent → Option Diagnostic
  | .problem d => some d
  | _ => none

/-- An element of the schema by its number, with what it is. -/
def annotation? : WalkEvent → Option (Nat × Kind)
  | .element e d => some (e.id, d.kind)
  | _ => none

end WalkEvent

end ProjectAnalysis
