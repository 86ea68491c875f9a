import ProjectAnalysis.TextCaseTable

/-! Lower case over all of Unicode. Every character is lowered on its own, except that a capital
sigma at the end of a word becomes the final form of the letter. -/
namespace ProjectAnalysis

namespace CaseTable

/-- The lower-case form of a code point in one row, if the row has it. -/
def LowerRow.lower? (r : LowerRow) (n : Nat) : Option Nat :=
  if r.first ≤ n && n ≤ r.last && (n - r.first) % r.step == 0 then some (n + r.up - r.down)
  else none

def inRanges (ranges : List (Nat × Nat)) (n : Nat) : Bool :=
  ranges.any fun r => r.1 ≤ n && n ≤ r.2

end CaseTable

/-- Cased, and not to be skipped when the neighbourhood of a sigma is looked at. -/
def isCased (c : Char) : Bool :=
  CaseTable.inRanges CaseTable.casedRanges c.toNat

def isCaseIgnorable (c : Char) : Bool :=
  CaseTable.inRanges CaseTable.ignorableRanges c.toNat

/-- The lower-case form of one character out of context. -/
def lowerChar (c : Char) : List Char :=
  if c.toNat < 0x80 then [c.toLower]
  else if c = 'İ' then ['i', '\u0307']
  else match CaseTable.lowerRows.findSome? (·.lower? c.toNat) with
    | some n => [Char.ofNat n]
    | none => [c]

/-- Whether a cased character comes first, ignorable ones aside. -/
def meetsCased (cs : List Char) : Bool :=
  match cs.dropWhile isCaseIgnorable with
  | [] => false
  | c :: _ => isCased c

/-- Lowers a text of which `before` was read already, last character first. -/
def lowerAfter (before : List Char) : List Char → List Char
  | [] => []
  | c :: cs =>
    (if c = 'Σ' then
      if meetsCased before && !meetsCased cs then ['ς'] else ['σ']
    else lowerChar c) ++ lowerAfter (c :: before) cs

/-- The lower-case form of a text. -/
def lowercase (cs : List Char) : List Char :=
  lowerAfter [] cs

end ProjectAnalysis
