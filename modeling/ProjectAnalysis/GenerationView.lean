import ProjectAnalysis.Generation

/-! What a generation shows: the symbols of the document merged with those of its imports, in the
order of the imports. Private names of imported files are hidden unless they are asked for. -/
namespace ProjectAnalysis.Generation

variable (g : Generation)

def builtins : Builtins :=
  .of g.toolsVersion

def hasErrors : Bool :=
  g.diagnostics.any (·.isError)

/-- What an element of the document is. -/
def kindOf (element : Nat) : Option Kind :=
  (g.symbols.annotations.find? (·.1 = element)).map (·.2)

/-- The file that an element imports. -/
def importTarget (element : Nat) : Option FilePath :=
  g.targets.get? element

/-- The file whose import is written around an offset. -/
def importAt (offset : Nat) : Option FilePath :=
  (g.links.find? (·.1.contains offset)).map (·.2)

/-- Whether a name of an imported file is shown. -/
def isVisible (name : String) : Bool :=
  g.showPrivate || !isPrivateName name

/-- What the imported files say, each by itself. -/
def importedSymbols : List FileSymbols :=
  g.imports.values.map (·.parsed.symbols)

section
variable {α : Type} [Symbol α]

/-- All symbols of one table, behind those that are given. -/
def merged (given : SymbolTable α) (table : FileSymbols → SymbolTable α) : SymbolTable α :=
  let imported := g.importedSymbols.flatMap fun s => (table s).values
  given.addAll ((table g.symbols).values ++ imported.filter fun a => g.isVisible (Symbol.name a))

/-- One symbol of a table, merged from all files that have it. -/
def lookup (table : FileSymbols → SymbolTable α) (name : String) : Option α :=
  let own := ((table g.symbols).get? name).toList
  let imported := if g.isVisible name then
      g.importedSymbols.filterMap fun s => (table s).get? name else []
  mergeAll? (own ++ imported)

end

def items : SymbolTable ItemInfo :=
  g.merged .empty (·.items)

def item? (name : String) : Option ItemInfo :=
  g.lookup (·.items) name

def tasks : SymbolTable TaskInfo :=
  g.merged .empty (·.tasks)

def task? (name : String) : Option TaskInfo :=
  g.lookup (·.tasks) name

/-- The properties, behind the well-known ones if those are asked for. -/
def properties (wellKnown : Bool) : SymbolTable PropertyInfo :=
  g.merged (if wellKnown then g.builtins.properties else .empty) (·.properties)

/-- A property of the files, or else a well-known one. -/
def property? (name : String) : Option PropertyInfo :=
  (g.lookup (·.properties) name).or (g.builtins.properties.get? name)

/-- The metadata of an item, behind the well-known ones if those are asked for. -/
def itemMetadata (item : String) (wellKnown : Bool) : List MetadataInfo :=
  let own := match g.item? item with
    | some i => i.metadata.values
    | none => []
  let given := if wellKnown then g.builtins.metadata else .empty
  (given.addAll own).values

/-- The files that mention a symbol, the document first. -/
def filesSeenIn (kind : SymbolKind) (name : String) : List FilePath :=
  (if g.symbols.contains kind name then [g.file] else []) ++
    (g.imports.values.filter (·.parsed.symbols.contains kind name)).map (·.path)

end ProjectAnalysis.Generation
