import ProjectAnalysis.XmlTag
import ProjectAnalysis.XmlMarkup

/-! Documents. Reading a text never fails: the first fault is recorded, and the elements that
were read up to there are kept; those still open extend to the end of the text. A byte order mark
in front is not counted by the offsets of the pieces. -/
namespace ProjectAnalysis.Xml

structure Document where
  text : String
  root : Option Tree
  faults : List Fault

namespace Document

def rootElement? (d : Document) : Option Element :=
  d.root.map Tree.root

/-- Every element, in the order of the opening tags. -/
def elements (d : Document) : List Element :=
  (d.root.map Tree.elements).getD []

def placed (d : Document) : List Placed :=
  (d.root.map (Tree.placed none [])).getD []

/-- The innermost element around an offset. -/
def elementAt (d : Document) (offset : Nat) : Option Element :=
  d.root.bind (Tree.innermost offset)

/-- Whether reading was given up at a tag that could not be cut out. -/
def isGivenUp (d : Document) : Bool :=
  d.faults.any (·.cause == .misplacedTag)

end Document

/-- Character data of an open element. -/
structure OpenContent where
  mapped : Mapped
  span : Span

/-- An element whose closing tag was not read yet. -/
structure OpenElement where
  id : Nat
  tag : Tag
  span : Span
  /-- The name that the closing tag has to repeat. -/
  closer : List Char
  content : Option OpenContent
  /-- The children, the latest first. -/
  children : List Tree

namespace OpenElement

/-- The element as it ends at `stop`. -/
def close (e : OpenElement) (stop : Nat) (selfClosing : Bool) : Tree :=
  let content := e.content.map fun c =>
    { value := String.ofList c.mapped.chars, span := c.span, map := c.mapped.map : Content }
  .node ⟨e.id, e.tag.name, ⟨e.span.start, stop⟩, e.tag.nameSpan, e.tag.attributes, content,
    selfClosing⟩ e.children.reverse

def addChild (e : OpenElement) (t : Tree) : OpenElement :=
  { e with children := t :: e.children }

/-- Adds character data that stands at `span` with `raw` from `base` on. -/
def addText (e : OpenElement) (span : Span) (base : Nat) (raw : List Char) (verbatim : Bool) :
    OpenElement × Option EntityFault :=
  let before := (e.content.map (·.mapped)).getD .empty
  let span := match e.content with
    | some c => c.span.cover span
    | none => span
  let (mapped, fault) :=
    if verbatim then (before.appendVerbatim base raw, none) else before.appendEscaped base raw
  ({ e with content := some ⟨mapped, span⟩ }, fault)

end OpenElement

/-- A document as far as it was read. -/
structure Draft where
  source : List Char
  /-- The number of elements so far. -/
  count : Nat
  /-- The open elements, the innermost first. -/
  stack : List OpenElement
  root : Option Tree
  faults : List Fault

namespace Draft

def start (source : List Char) : Draft :=
  ⟨source, 0, [], none, []⟩

def addFault (p : Draft) (fault : Fault) : Draft :=
  { p with faults := p.faults ++ [fault] }

/-- Puts a finished element under the innermost open one, or in the place of the root. -/
def addTree (p : Draft) (t : Tree) : Draft :=
  match p.stack with
  | [] => { p with root := some t }
  | e :: stack => { p with stack := e.addChild t :: stack }

/-- Closes the innermost element at `stop`. -/
def closeInner (p : Draft) (stop : Nat) : Draft :=
  match p.stack with
  | [] => p
  | e :: stack => { p with stack := stack }.addTree (e.close stop false)

/-- The source of a piece. -/
def rawText (p : Draft) (span : Span) : List Char :=
  (span.slice? p.source).getD []

/-- The source of a tag, if the places before and after its first byte and behind its last one are
between characters. -/
def tagText? (p : Draft) (span : Span) : Option (List Char) :=
  (span.slice? p.source).filter (·.head?.any (·.utf8Size = 1))

/-- Adds the element that begins with a tag; `closer` is the name to be repeated, or nothing if the
tag closes the element too. -/
def addElement (p : Draft) (tag : Tag) (span : Span) (closer : Option (List Char)) : Draft :=
  let e : OpenElement := ⟨p.count, tag, span, closer.getD [], none, []⟩
  let p := { p with count := p.count + 1, faults := p.faults ++ tag.faults }
  match closer with
  | some _ => { p with stack := e :: p.stack }
  | none => p.addTree (e.close span.stop true)

/-- Takes in an opening tag. -/
def openTag (p : Draft) (span : Span) (closer : Option (List Char)) : Draft :=
  match p.tagText? span with
  | none => p.addFault ⟨.misplacedTag, span⟩
  | some raw =>
    match Tag.read ⟨span.start, raw⟩ with
    | .error fault => p.addFault fault
    | .ok tag =>
      if p.stack.isEmpty && p.root.isSome then p.addFault ⟨.secondRoot, span⟩
      else p.addElement tag span closer

def closeTag (p : Draft) (span : Span) (name : List Char) : Draft :=
  match p.stack with
  | [] => p.addFault (.at (.unmatchedEnd (String.ofList name)) span.start)
  | e :: _ =>
    if e.closer = name then p.closeInner span.stop
    else p.addFault
      (.at (.mismatchedEnd (String.ofList e.closer) (String.ofList name)) span.start)

/-- Takes in character data whose text stands at `inner`. Outside of all elements it is only
checked. -/
def addText (p : Draft) (span inner : Span) (verbatim : Bool) : Draft :=
  let raw := p.rawText inner
  let (p, fault) := match p.stack with
    | [] => (p, if verbatim then none else (Mapped.empty.appendEscaped inner.start raw).2)
    | e :: stack =>
      let (e, fault) := e.addText span inner.start raw verbatim
      ({ p with stack := e :: stack }, fault)
  match fault with
  | some fault => p.addFault ⟨.entity fault, span⟩
  | none => p

/-- Takes in the piece at `span`. -/
def add (p : Draft) (piece : Piece) (span : Span) : Draft :=
  match piece with
  | .text => p.addText span span false
  | .characterData => p.addText span ⟨span.start + 9, span.stop - 3⟩ true
  | .opening name => p.openTag span (some name)
  | .empty => p.openTag span none
  | .closing name => p.closeTag span name
  | .aside => p

/-- Takes in all pieces from `c` on, up to the first fault. -/
def addAll (p : Draft) (c : Cursor) : Draft :=
  match nextPiece c with
  | .error fault => p.addFault fault
  | .ok none => p
  | .ok (some r) =>
    let p := p.add r.value ⟨c.offset, r.next.offset⟩
    if p.faults.isEmpty then p.addAll r.next else p
termination_by c.size
decreasing_by exact r.shorter

/-- Closes every open element at `stop`. -/
def closeAll (p : Draft) (stop : Nat) : Draft :=
  p.stack.foldl (fun p _ => p.closeInner stop) p

/-- The document, once all is read. -/
def finish (p : Draft) (text : String) : Document :=
  let stop := byteLength p.source
  let p := match p.stack with
    | e :: _ =>
      if p.faults.isEmpty then p.addFault (.at (.unclosed e.tag.name.text) stop) else p
    | [] => p
  let p := p.closeAll stop
  ⟨text, p.root, p.faults⟩

end Draft

/-- The place where the pieces begin: after a byte order mark, which is not counted. -/
def firstPiece : List Char → Cursor
  | '\uFEFF' :: rest => ⟨0, rest⟩
  | text => ⟨0, text⟩

/-- Reads a document. -/
def Document.ofText (text : String) : Document :=
  let source := text.toList
  ((Draft.start source).addAll (firstPiece source)).finish text

end ProjectAnalysis.Xml
