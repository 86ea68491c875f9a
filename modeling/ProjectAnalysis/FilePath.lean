import ProjectAnalysis.TextChar

/-! File paths with `/` between their parts. A path prints as it is written; two paths name the
same file when their parts agree, so doubled separators, a separator at the end and inner `.`
parts do not count. -/
namespace ProjectAnalysis

/-- One step of a path. -/
inductive PathPart
  | root
  /-- A leading `.`; elsewhere it is no part at all. -/
  | here
  | up
  | name (text : List Char)
deriving DecidableEq, Repr

def PathPart.text : PathPart → List Char
  | .root => ['/']
  | .here => ['.']
  | .up => ['.', '.']
  | .name text => text

structure FilePath where
  text : String
deriving DecidableEq, Repr, Inhabited

namespace FilePath

/-- How the text of a path begins. -/
inductive Lead
  | root
  | here
  | bare
deriving DecidableEq

def Lead.text : Lead → List Char
  | .root => ['/']
  | .here => ['.']
  | .bare => []

def Lead.parts : Lead → List PathPart
  | .root => [.root]
  | .here => [.here]
  | .bare => []

/-- The beginning of a path and what stands between its other separators. -/
def pieces : List Char → Lead × List (List Char)
  | '/' :: body => (.root, splitAt '/' body)
  | ['.'] => (.here, [])
  | '.' :: '/' :: body => (.here, [] :: splitAt '/' body)
  | text => (.bare, splitAt '/' text)

/-- A piece that is no part of the path. -/
def isIdle (piece : List Char) : Bool :=
  piece == [] || piece == ['.']

def partOf (piece : List Char) : PathPart :=
  if piece = ['.', '.'] then .up else .name piece

def parts (p : FilePath) : List PathPart :=
  let (lead, pieces) := pieces p.text.toList
  lead.parts ++ (pieces.filter (!isIdle ·)).map partOf

/-- Whether two paths name the same file. -/
def same (p q : FilePath) : Bool :=
  p.parts == q.parts

def isAbsolute (p : FilePath) : Bool :=
  p.text.toList.head? == some '/'

/-- The path without its last part, as written up to there. -/
def parent? (p : FilePath) : Option FilePath :=
  let (lead, pieces) := pieces p.text.toList
  match pieces.reverse.dropWhile isIdle with
  | _ :: before =>
    let kept := (before.dropWhile isIdle).reverse
    some ⟨String.ofList (lead.text ++ joinWith ['/'] kept)⟩
  | [] => if lead = .here then some ⟨""⟩ else none

/-- The last part, if it is a name. -/
def fileName? (p : FilePath) : Option (List Char) :=
  match (pieces p.text.toList).2.reverse.dropWhile isIdle with
  | last :: _ => if last = ['.', '.'] then none else some last
  | [] => none

/-- The parts of a file name before and after its last dot. A dot in front does not count. -/
def splitExtension (name : List Char) : List Char × Option (List Char) :=
  match name.reverse.span (· != '.') with
  | (_, []) => (name, none)
  | (_, [_]) => (name, none)
  | (after, _ :: before) => (before.reverse, some after.reverse)

/-- The second path as seen from the first. -/
def join (base p : FilePath) : FilePath :=
  if p.isAbsolute then p
  else
    let b := base.text.toList
    let gap := if b = [] || b.getLast? = some '/' then [] else ['/']
    ⟨String.ofList (b ++ gap ++ p.text.toList)⟩

/-- Adds one part to a path without `.` parts, held last part first. A step up takes away the
last part, a step up included, but not the root. -/
def descend : List PathPart → PathPart → List PathPart
  | stack, .here => stack
  | [], .up => [.up]
  | .root :: stack, .up => .up :: .root :: stack
  | _ :: stack, .up => stack
  | stack, part => part :: stack

/-- The path with these parts and no needless separators. -/
def ofParts : List PathPart → FilePath
  | .root :: parts => ⟨String.ofList ('/' :: joinWith ['/'] (parts.map PathPart.text))⟩
  | parts => ⟨String.ofList (joinWith ['/'] (parts.map PathPart.text))⟩

/-- Turns each `\` into `/` and works off the `.` and `..` parts, without looking at any disk. -/
def normalize (text : String) : FilePath :=
  let slashed : FilePath := ⟨String.ofList (text.toList.map fun c => if c = '\\' then '/' else c)⟩
  ofParts (slashed.parts.foldl descend []).reverse

/-- A path as written in a file of the directory `base`. -/
def resolve (base? : Option FilePath) (text : String) : FilePath :=
  let normal := normalize text
  match base? with
  | some base => if normal.isAbsolute then normal else normalize (base.join normal).text
  | none => normal

end FilePath

end ProjectAnalysis
