import ProjectAnalysis.ImportWalk

/-! The resolution of a document: from its text and the files to a generation. A document with
errors of its own also keeps what the generation before knew of it, so that an edit that is not
finished yet loses nothing. -/
namespace ProjectAnalysis

structure Resolver where
  installation : Installation
  showPrivate : Bool

namespace Resolver

/-- The tools version that the root asks for. -/
def toolsVersion (d : Xml.Document) : ToolsVersion :=
  ((d.rootElement?.bind (·.value? "ToolsVersion")).map .ofText).getD .unspecified

/-- What is known of the project of a file. -/
def project (r : Resolver) (file : FilePath) : Evaluation :=
  (Evaluation.ofInstallation r.installation).withProject file

/-- What a document says by itself. -/
def ownSymbols (r : Resolver) (file : FilePath) (d : Xml.Document) : FileSymbols :=
  .ofDocument (.of (toolsVersion d)) (.ofFile r.installation (r.project file) file) d

/-- What a document says, with what is remembered of the generation before. -/
def symbols (r : Resolver) (file : FilePath) (d : Xml.Document) (previous : Option Generation) :
    FileSymbols :=
  let own := r.ownSymbols file d
  match previous with
  | some p => if own.hasErrors then own.merge p.symbols else own
  | none => own

/-- The walk through the imports. Those of the generation before are used again if it was read
for the same tools version. -/
def walk (r : Resolver) (file : FilePath) (d : Xml.Document) (previous : Option Generation) :
    ImportWalk where
  root := file
  installation := r.installation
  project := r.project file
  builtins := .of (toolsVersion d)
  reusable := match previous with
    | some p => if p.toolsVersion = toolsVersion d then p.imports else .empty
    | none => .empty

/-- The generation of a document whose walk has ended with `found`. -/
def generation (r : Resolver) (file : FilePath) (d : Xml.Document) (previous : Option Generation)
    (found : Findings) : Generation :=
  let symbols := r.symbols file d previous
  ⟨file, d, toolsVersion d, symbols, found.imports, found.targets, found.links,
    symbols.diagnostics ++ found.diagnostics, r.showPrivate⟩

/-- The resolution of a document, with imports down to `depth` levels. -/
def resolution (r : Resolver) (depth : Nat) (file : FilePath) (d : Xml.Document)
    (previous : Option Generation) : Resolution Generation := do
  checkpoint
  let symbols := r.symbols file d previous
  checkpoint
  let found ← (r.walk file d previous).resolveSites depth true symbols.sites .empty
  checkpoint
  pure (r.generation file d previous found)

/-- The resolution of a document beside the given files: as many levels as there can be. -/
def start (r : Resolver) (file : FilePath) (d : Xml.Document) (previous : Option Generation)
    (s : FileStore) : Access (Except Cancelled Generation) :=
  (r.resolution (s.files.entries.length + 1) file d previous).run

/-- Resolves a document undisturbed. -/
def resolve (r : Resolver) (file : FilePath) (d : Xml.Document) (previous : Option Generation)
    (s : FileStore) : Except Cancelled Generation × FileStore :=
  let result := (r.start file d previous s).runIn .quiet ⟨0, s⟩
  (result.1, result.2.store)

end Resolver

end ProjectAnalysis
