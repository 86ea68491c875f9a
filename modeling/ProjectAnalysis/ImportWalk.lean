import ProjectAnalysis.FileAccess
import ProjectAnalysis.Generation

/-! The files that a document imports, directly or not: each once, a file before what it imports
itself. A file that the generation before knows is not read again while it is unchanged; all
others of one level are read ahead. Problems are told of the imports of the document only. -/
namespace ProjectAnalysis

/-- A resolution that is not wanted any more. -/
inductive Cancelled
  | cancelled
deriving DecidableEq, Repr

def Cancelled.message : Cancelled → String
  | .cancelled => "resolution was cancelled"

/-- A computation that asks for files and may end as cancelled. -/
abbrev Resolution (α : Type) := ExceptT Cancelled Access α

/-- Ends a resolution that is cancelled. -/
def checkpoint : Resolution Unit := do
  if ← Access.cancelled then throw .cancelled

namespace ImportSite

/-- The first of these files that is there. -/
def firstPresent : List FilePath → Access (Option FilePath)
  | [] => pure none
  | p :: ps => do if ← Access.present p then pure (some p) else firstPresent ps

/-- The file that an import leads to. -/
def locate (site : ImportSite) : Access (Option FilePath) :=
  match site.target with
  | .candidates paths => firstPresent paths
  | _ => pure none

/-- Each import with its file. -/
def locateAll : List ImportSite → Access (List (ImportSite × Option FilePath))
  | [] => pure []
  | site :: sites => do
    let file ← site.locate
    let rest ← locateAll sites
    pure ((site, file) :: rest)

/-- The problem of an import whose file was or was not found. -/
def problem? (site : ImportSite) (file : Option FilePath) : Option Diagnostic :=
  site.span.bind fun span =>
    match site.target, file with
    | .candidates _, none =>
      some (.unresolvedImport s!"Could not resolve import '{site.project}'" span)
    | .empty, _ => some (.emptyImport span)
    | .unevaluable reason, _ =>
      some (.unresolvedImport s!"Could not evaluate import '{site.project}': {reason}" span)
    | _, _ => none

end ImportSite

/-- What a walk has found so far. -/
structure Findings where
  imports : ImportTable
  targets : OrderedTable Nat FilePath
  links : List (Span × FilePath)
  diagnostics : List Diagnostic

namespace Findings

def empty : Findings :=
  ⟨.empty, .empty, [], []⟩

/-- Notes where an import of the document leads. -/
def link (f : Findings) (site : ImportSite) (file : FilePath) : Findings :=
  { f with
    targets := match site.element with
      | some element => f.targets.insertNew element file
      | none => f.targets
    links := f.links ++ (site.span.map fun span => (span, file)).toList }

/-- Notes what is to be told of an import of the document. -/
def report (f : Findings) (site : ImportSite) (file : Option FilePath) : Findings :=
  let f := { f with diagnostics := f.diagnostics ++ (site.problem? file).toList }
  match file with
  | some file => f.link site file
  | none => f

/-- Notes an import of the document; those of imported files are not noted. -/
def noted (f : Findings) (report : Bool) (site : ImportSite) (file : Option FilePath) : Findings :=
  if report then f.report site file else f

def withImport (f : Findings) (found : ResolvedImport) : Findings :=
  { f with imports := f.imports.add found }

end Findings

/-- Files that were read ahead; nothing stands for one that could not be read. -/
abbrev ReadAhead := OrderedTable (List PathPart) (Option ParsedImport)

/-- What a walk through imports goes by. -/
structure ImportWalk where
  /-- The document, which is never entered as an import. -/
  root : FilePath
  installation : Installation
  /-- What is known of the project, to evaluate the imports with. -/
  project : Evaluation
  builtins : Builtins
  /-- The imports of the generation before, where they may be used again. -/
  reusable : ImportTable

namespace ImportWalk

variable (w : ImportWalk)

/-- A file that is not to be entered again. -/
def isKnown (f : Findings) (p : FilePath) : Bool :=
  p.same w.root || f.imports.contains p

/-- The file as the generation before knows it, if it has not changed since. -/
def reuse? (p : FilePath) : Access (Option ParsedImport) :=
  match w.reusable.get? p with
  | none => pure none
  | some known => do
    match ← Access.modified p with
    | .ok time => pure (if time ≤ known.parsed.timestamp then some known.parsed else none)
    | .error _ => pure none

/-- What the text of a file says. -/
def parse (p : FilePath) (timestamp : Nat) (text : String) : ParsedImport :=
  let document := Xml.Document.ofText text
  ⟨p, timestamp, document,
    .ofDocument w.builtins (.ofFile w.installation w.project p) document⟩

/-- Reads a file. -/
def load? (p : FilePath) : Access (Option ParsedImport) := do
  if ← Access.cancelled then pure none
  else
    match ← Access.modified p with
    | .error _ => pure none
    | .ok time =>
      match ← Access.read p with
      | .error _ => pure none
      | .ok text => pure (some (w.parse p time text))

/-- Those files that cannot be used again. -/
def outdated : List FilePath → Access (List FilePath)
  | [] => pure []
  | p :: ps => do
    let known ← w.reuse? p
    let rest ← outdated ps
    pure (if known.isSome then rest else p :: rest)

def loadAll : List FilePath → Access ReadAhead
  | [] => pure .empty
  | p :: ps => do
    let parsed ← w.load? p
    let rest ← loadAll ps
    pure (rest.insert p.parts parsed)

/-- Reads ahead the new ones among the files of one level. -/
def readAhead (f : Findings) (files : List FilePath) : Access ReadAhead := do
  let fresh ← w.outdated ((files.filter (!w.isKnown f ·)).eraseDupsBy FilePath.same)
  w.loadAll fresh

/-- A new import: used again, read ahead or read now. -/
def fetch? (p : FilePath) (ahead : ReadAhead) : Access (Option ResolvedImport) := do
  match ← w.reuse? p with
  | some parsed => pure (some ⟨p, parsed, true⟩)
  | none =>
    let parsed ← match ahead.get? p.parts with
      | some parsed => pure parsed
      | none => w.load? p
    pure (parsed.map fun parsed => ⟨p, parsed, false⟩)

/-- Visits the imports of one file in order; `enter` goes through the imports of a new file. -/
def visit (enter : List ImportSite → Findings → Resolution Findings) (report : Bool) :
    List (ImportSite × Option FilePath) → ReadAhead → Findings → Resolution Findings
  | [], _, f => pure f
  | (site, file) :: sites, ahead, f => do
    checkpoint
    let f := f.noted report site file
    match file.filter (!w.isKnown f ·) with
    | none => visit enter report sites ahead f
    | some file =>
      match ← (w.fetch? file ahead : Access _) with
      | none => visit enter report sites (ahead.erase file.parts) f
      | some found =>
        let f ← enter found.parsed.symbols.sites (f.withImport found)
        visit enter report sites (ahead.erase file.parts) f

/-- Goes through the imports of one file and of the files below it, down to `depth` levels. A walk
with more levels than there are files leaves out nothing. -/
def resolveSites : Nat → Bool → List ImportSite → Findings → Resolution Findings
  | 0, _, _, f => pure f
  | depth + 1, report, sites, f => do
    let located ← (ImportSite.locateAll sites : Access _)
    let ahead ← (w.readAhead f (located.filterMap (·.2)) : Access _)
    w.visit (resolveSites depth false) report located ahead f

end ImportWalk

end ProjectAnalysis
