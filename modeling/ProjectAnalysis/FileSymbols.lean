import ProjectAnalysis.SymbolMention
import ProjectAnalysis.SymbolUnion
import ProjectAnalysis.ImportSite

/-! What one file says by itself, without its imports. -/
namespace ProjectAnalysis

structure FileSymbols where
  items : SymbolTable ItemInfo
  tasks : SymbolTable TaskInfo
  properties : SymbolTable PropertyInfo
  /-- The paths of the imports as they are written, each once. -/
  imports : List String
  sites : List ImportSite
  /-- What each element of the schema is, by its number. -/
  annotations : List (Nat × Kind)
  diagnostics : List Diagnostic

namespace FileSymbols

def empty : FileSymbols :=
  ⟨.empty, .empty, .empty, [], [], [], []⟩

/-- Takes in a mention. The first one decides on the spelling. -/
def note (s : FileSymbols) : Mention → FileSymbols
  | .property name => { s with properties := s.properties.insertNew name (.named name) }
  | .item name => { s with items := s.items.insertNew name (.named name) }
  | .metadata item name => { s with
      items := (s.items.insertNew item (.named item)).modify item (·.addMetadata name) }
  | .task name => { s with tasks := s.tasks.insertNew name (.named name) }
  | .parameter task name => { s with
      tasks := (s.tasks.insertNew task (.named task)).modify task (·.addParameter name) }

/-- What the events of a document say. -/
def ofEvents (b : Builtins) (x : ImportScope) (events : List WalkEvent) : FileSymbols :=
  { (events.flatMap (·.mentions b)).foldl note empty with
    imports := writtenImports events
    sites := x.sites events
    annotations := events.filterMap (·.annotation?)
    diagnostics := events.filterMap (·.diagnostic?) }

/-- What a document says. -/
def ofDocument (b : Builtins) (x : ImportScope) (d : Xml.Document) : FileSymbols :=
  ofEvents b x d.walk

/-- Whether the file mentions a symbol; metadata and parameters with any owner. -/
def contains (s : FileSymbols) (kind : SymbolKind) (name : String) : Bool :=
  match kind with
  | .item => s.items.contains name
  | .property => s.properties.contains name
  | .task => s.tasks.contains name
  | .metadata => s.items.values.any fun i => i.metadata.contains name
  | .taskParameter => s.tasks.values.any fun t => t.parameters.contains name

def hasErrors (s : FileSymbols) : Bool :=
  s.diagnostics.any (·.isError)

/-- Whether an import is worth remembering: it leads somewhere, and not where one of the given
imports leads. -/
def isMissing (sites : List ImportSite) (site : ImportSite) : Bool :=
  match site.target with
  | .candidates _ => !sites.any (·.target = site.target)
  | _ => false

/-- Remembers an import without its place. -/
def remember (sites : List ImportSite) (site : ImportSite) : List ImportSite :=
  if isMissing sites site then sites ++ [{ site with element := none, span := none }] else sites

/-- Adds what an earlier text of the file said. Its annotations and diagnostics are gone. -/
def merge (s previous : FileSymbols) : FileSymbols :=
  { s with
    items := s.items.addAll previous.items.values
    tasks := s.tasks.addAll previous.tasks.values
    properties := s.properties.addAll previous.properties.values
    imports := s.imports ++ previous.imports.filter (!s.imports.contains ·)
    sites := previous.sites.foldl remember s.sites }

end FileSymbols

end ProjectAnalysis
