import ProjectAnalysis.FileSymbols

/-! What is known of a document and of all files that it imports, at one point of its history. -/
namespace ProjectAnalysis

/-- An imported file, as it was read. -/
structure ParsedImport where
  file : FilePath
  /-- The time of the last change, asked for before the text. -/
  timestamp : Nat
  document : Xml.Document
  symbols : FileSymbols

/-- An imported file of a generation. -/
structure ResolvedImport where
  path : FilePath
  parsed : ParsedImport
  /-- Taken over from the generation before. -/
  reused : Bool

/-- Imported files in the order in which they take effect, by the parts of their paths. -/
abbrev ImportTable := OrderedTable (List PathPart) ResolvedImport

namespace ImportTable

def get? (t : ImportTable) (p : FilePath) : Option ResolvedImport :=
  OrderedTable.get? t p.parts

def contains (t : ImportTable) (p : FilePath) : Bool :=
  OrderedTable.contains t p.parts

def add (t : ImportTable) (r : ResolvedImport) : ImportTable :=
  OrderedTable.insert t r.path.parts r

end ImportTable

structure Generation where
  file : FilePath
  document : Xml.Document
  toolsVersion : ToolsVersion
  /-- What the document says by itself. -/
  symbols : FileSymbols
  /-- Every file that is imported, directly or not. -/
  imports : ImportTable
  /-- The file that an element imports first, by the number of the element. -/
  targets : OrderedTable Nat FilePath
  /-- The values that name imports, with the files. -/
  links : List (Span × FilePath)
  diagnostics : List Diagnostic
  /-- Private names of imported files are shown. -/
  showPrivate : Bool

end ProjectAnalysis
