/-! Lines and columns. A line starts at offset 0 and after every line feed; an offset belongs to
the last line that starts at or before it. -/
namespace ProjectAnalysis

/-- The offsets after the line feeds of a text that begins at `offset`. -/
def lineStartsFrom (offset : Nat) : List Char → List Nat
  | [] => []
  | c :: cs =>
    let next := offset + c.utf8Size
    if c = '\n' then next :: lineStartsFrom next cs else lineStartsFrom next cs

/-- Where the lines of one text start. -/
structure LineIndex where
  /-- The starts of all lines but the first. -/
  laterStarts : List Nat
deriving DecidableEq, Repr

structure LineColumn where
  line : Nat
  column : Nat
deriving DecidableEq, Repr

namespace LineIndex

def ofText (text : String) : LineIndex :=
  ⟨lineStartsFrom 0 text.toList⟩

/-- All line starts; the first is 0. -/
def starts (x : LineIndex) : List Nat :=
  0 :: x.laterStarts

def count (x : LineIndex) : Nat :=
  x.starts.length

/-- The line and the column, counted from 0 in bytes, of an offset. -/
def locate (x : LineIndex) (offset : Nat) : LineColumn :=
  let passed := x.laterStarts.takeWhile (· ≤ offset)
  ⟨passed.length, offset - passed.getLastD 0⟩

end LineIndex

end ProjectAnalysis
