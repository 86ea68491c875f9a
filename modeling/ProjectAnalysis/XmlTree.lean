import ProjectAnalysis.XmlOffsetMap
import ProjectAnalysis.TextChar

/-! Trees of XML elements with the places they were read from. Elements are numbered in the
order of their opening tags. -/
namespace ProjectAnalysis.Xml

/-- A name, with the part before its first colon if it has one. -/
structure Name where
  qualifier : Option String
  localName : String
deriving DecidableEq, Repr, Inhabited

namespace Name

def ofText (text : List Char) : Name :=
  match splitOnce? ':' text with
  | some (qualifier, rest) => ⟨some (String.ofList qualifier), String.ofList rest⟩
  | none => ⟨none, String.ofList text⟩

def isQualified (n : Name) : Bool :=
  n.qualifier.isSome

/-- The name as it is written. -/
def text (n : Name) : String :=
  match n.qualifier with
  | some qualifier => qualifier ++ ":" ++ n.localName
  | none => n.localName

end Name

structure Attribute where
  name : Name
  /-- The value with its references replaced. -/
  value : String
  /-- From the name to the closing quote. -/
  span : Span
  /-- Between the quotes. -/
  valueSpan : Span
  map : OffsetMap
deriving DecidableEq, Repr

/-- The character data directly inside an element, with its references replaced. -/
structure Content where
  value : String
  /-- From the first of the character data to the last. -/
  span : Span
  map : OffsetMap
deriving DecidableEq, Repr

structure Element where
  id : Nat
  name : Name
  /-- From the opening tag to the closing one. -/
  span : Span
  nameSpan : Span
  attributes : List Attribute
  content : Option Content
  selfClosing : Bool
deriving DecidableEq, Repr

namespace Element

/-- The attribute with this name and no qualifier, whatever its case. -/
def attribute? (e : Element) (name : String) : Option Attribute :=
  e.attributes.find? fun a =>
    !a.name.isQualified && sameIgnoringCase a.name.localName.toList name.toList

def value? (e : Element) (name : String) : Option String :=
  (e.attribute? name).map (·.value)

/-- The character data without white space around it, if there is any. -/
def trimmed? (e : Element) : Option String :=
  (e.content.map fun c => trim c.value.toList).bind fun cs =>
    if cs.isEmpty then none else some (String.ofList cs)

end Element

inductive Tree
  | node (element : Element) (children : List Tree)

/-- An element with its place in the tree. -/
structure Placed where
  element : Element
  parent : Option Nat
  children : List Nat
  /-- The names from the root down to the element. -/
  path : List String

namespace Tree

def root : Tree → Element
  | .node e _ => e

mutual

/-- Every element of the tree, each before its children. -/
def elements : Tree → List Element
  | .node e children => e :: allElements children

def allElements : List Tree → List Element
  | [] => []
  | t :: ts => t.elements ++ allElements ts

end

mutual

/-- Every element with its place, under a parent whose path is given. -/
def placed (parent : Option Nat) (above : List String) : Tree → List Placed
  | .node e children =>
    let path := above ++ [e.name.localName]
    ⟨e, parent, children.map (·.root.id), path⟩ :: allPlaced (some e.id) path children

def allPlaced (parent : Option Nat) (above : List String) : List Tree → List Placed
  | [] => []
  | t :: ts => t.placed parent above ++ allPlaced parent above ts

end

mutual

/-- The innermost element around an offset. Of the children around it the first is entered. -/
def innermost (offset : Nat) : Tree → Option Element
  | .node e children =>
    if e.span.contains offset then some ((firstInnermost offset children).getD e) else none

def firstInnermost (offset : Nat) : List Tree → Option Element
  | [] => none
  | t :: ts =>
    match t.innermost offset with
    | some e => some e
    | none => firstInnermost offset ts

end

end Tree

end ProjectAnalysis.Xml
