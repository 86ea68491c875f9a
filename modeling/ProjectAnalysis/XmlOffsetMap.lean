import ProjectAnalysis.XmlEntity

/-! From offsets in an unescaped value back to offsets in the document. An anchor stands at the
start of each stretch of source and after each reference; between two anchors value and source
run side by side. -/
namespace ProjectAnalysis.Xml

structure Anchor where
  value : Nat
  document : Nat
deriving DecidableEq, Repr

/-- Anchors in the order of the text. -/
structure OffsetMap where
  anchors : List Anchor
deriving DecidableEq, Repr, Inhabited

namespace OffsetMap

def empty : OffsetMap :=
  ⟨[]⟩

def push (m : OffsetMap) (value document : Nat) : OffsetMap :=
  ⟨m.anchors ++ [⟨value, document⟩]⟩

/-- The document offset as counted from an anchor. -/
def fromAnchor (anchor : Option Anchor) (value : Nat) : Nat :=
  match anchor with
  | some a => a.document + (value - a.value)
  | none => value

/-- The last anchor in front that passes the test, or else the first of all. -/
def lastBefore (m : OffsetMap) (test : Anchor → Bool) : Option Anchor :=
  (m.anchors.takeWhile test).getLast?.or m.anchors.head?

/-- The document offset of the start of a span. -/
def toDocument (m : OffsetMap) (value : Nat) : Nat :=
  fromAnchor (m.lastBefore (·.value ≤ value)) value

/-- The document offset of the end of a span: where two stretches meet, the end of the first. -/
def endToDocument (m : OffsetMap) (value : Nat) : Nat :=
  fromAnchor (m.lastBefore (·.value < value)) value

def spanToDocument (m : OffsetMap) (s : Span) : Span :=
  let start := m.toDocument s.start
  ⟨start, max (m.endToDocument s.stop) start⟩

end OffsetMap

/-- A value as it was put together so far. -/
structure Mapped where
  chars : List Char
  map : OffsetMap
deriving DecidableEq, Repr, Inhabited

namespace Mapped

def empty : Mapped :=
  ⟨[], .empty⟩

/-- Marks that source at `document` comes next. -/
def anchor (m : Mapped) (document : Nat) : Mapped :=
  { m with map := m.map.push (byteLength m.chars) document }

def append (m : Mapped) (chars : List Char) : Mapped :=
  { m with chars := m.chars ++ chars }

/-- A reference with its `;`, or all there is if it has none. -/
def referenceLength (raw : List Char) : Nat :=
  min raw.length ((raw.takeWhile (· != ';')).length + 1)

/-- Appends what is left of an escaped text, of which the next character is at `base`. At a
fault, what came before it stays appended. -/
def appendRest (m : Mapped) (base : Nat) (raw : List Char) : Mapped × Option EntityFault :=
  let plain := raw.takeWhile (· != '&')
  match _h : raw.dropWhile (· != '&') with
  | [] => (m.append plain, none)
  | amp :: escaped =>
    let k := referenceLength (amp :: escaped)
    match unescape ((amp :: escaped).take k) with
    | .error fault => (m.append plain, some fault)
    | .ok value =>
      let base := base + byteLength plain + byteLength ((amp :: escaped).take k)
      (((m.append plain).append value).anchor base).appendRest base ((amp :: escaped).drop k)
termination_by raw.length
decreasing_by
  have hs := (List.dropWhile_suffix (· != '&') (l := raw)).length_le
  rw [_h] at hs
  simp only [List.length_drop, List.length_cons, referenceLength] at hs ⊢
  omega

/-- Appends an escaped text that stands at `base`. -/
def appendEscaped (m : Mapped) (base : Nat) (raw : List Char) : Mapped × Option EntityFault :=
  (m.anchor base).appendRest base raw

/-- Appends a text without references that stands at `base`. -/
def appendVerbatim (m : Mapped) (base : Nat) (raw : List Char) : Mapped :=
  (m.anchor base).append raw

end Mapped

end ProjectAnalysis.Xml
