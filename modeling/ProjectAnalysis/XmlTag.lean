import ProjectAnalysis.XmlTree
import ProjectAnalysis.XmlFault
import ProjectAnalysis.TextReader

/-! Opening tags: the name of the element and its attributes. A fault in an attribute ends the
tag there, and what was read before it is kept. -/
namespace ProjectAnalysis.Xml

structure Tag where
  name : Name
  nameSpan : Span
  attributes : List Attribute
  faults : List Fault

def isTagNameChar (c : Char) : Bool :=
  !(isMarkupBlank c || c == '/' || c == '>' || c == '=')

variable {n : Nat}

/-- Skips the white space of markup. -/
def markupBlanks : Reader Cursor Fault n Unit := do
  let _ ← Reader.takeWhile isMarkupBlank

def failHere {α : Type} (cause : Cause) : Reader Cursor Fault n α := do
  Reader.fail (.at cause (← Reader.offset))

/-- A value between quotes, which are passed over, and where it begins. -/
def quotedValue (name : String) : Reader Cursor Fault n (Nat × List Char) := do
  match (← Reader.peek).filter fun c => c == '"' || c == '\'' with
  | none => failHere (.expectedQuote name)
  | some quote =>
    let _ ← Reader.take 1
    let start ← Reader.offset
    let raw ← Reader.takeWhile (· != quote)
    if ← Reader.eat [quote] then return (start, raw)
    else Reader.fail (.at (.openValue name) start)

/-- The attribute with this name, which began at `start`. A value with a faulty reference is kept
as it is written. -/
def attributeNamed (name : List Char) (start : Nat) :
    Reader Cursor Fault n (Attribute × List Fault) := do
  let shown := String.ofList name
  let (valueStart, raw) ← quotedValue shown
  let stop ← Reader.offset
  let valueSpan : Span := ⟨valueStart, valueStart + byteLength raw⟩
  let (mapped, fault) : Mapped × List Fault := match Mapped.empty.appendEscaped valueStart raw with
    | (mapped, none) => (mapped, [])
    | (_, some fault) => (Mapped.empty.appendVerbatim valueStart raw, [.at (.entity fault) valueStart])
  return (⟨.ofText name, String.ofList mapped.chars, ⟨start, stop⟩, valueSpan, mapped.map⟩, fault)

/-- An attribute with the white space after it, unless the tag ends here. -/
def attributeBranch : Branch Cursor Fault n (Attribute × List Fault) := fun c =>
  ((Branch.onChar fun x => x != '/' && x != '>').andThen fun first => do
    let name ← if first = '=' then pure [] else do
      let more ← Reader.takeWhile isTagNameChar
      markupBlanks
      if !(← Reader.eat ['=']) then failHere (.expectedEquals (String.ofList (first :: more)))
      pure (first :: more)
    markupBlanks
    let found ← attributeNamed name c.offset
    markupBlanks
    return found) c

/-- The attributes from `c` on, after those that were read already. -/
def attributesFrom (seen : List Attribute) (c : Cursor) : List Attribute × List Fault :=
  match attributeBranch c (Nat.lt_succ_self _) with
  | .error fault => (seen, [fault])
  | .ok none => (seen, [])
  | .ok (some r) =>
    let (found, faults) := r.value
    let repeated := if seen.any (·.name.text = found.name.text) then
        [.at (.duplicateAttribute found.name.text) found.span.start]
      else []
    let (all, later) := attributesFrom (seen ++ [found]) r.next
    (all, faults ++ repeated ++ later)
termination_by c.size
decreasing_by exact r.shorter

/-- Reads the tag whose `<` is at `c`. -/
def Tag.read (c : Cursor) : Except Fault Tag :=
  let d := c.skip 1
  let name := d.run isTagNameChar
  if name.isEmpty then .error (.at .expectedElementName d.offset)
  else
    let e := d.skipWhile isTagNameChar
    let (attributes, faults) := attributesFrom [] (e.skipWhile isMarkupBlank)
    .ok ⟨.ofText name, ⟨d.offset, e.offset⟩, attributes, faults⟩

end ProjectAnalysis.Xml
