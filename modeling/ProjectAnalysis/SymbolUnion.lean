import ProjectAnalysis.SymbolInfo

/-! Unions of tables of symbols. A symbol that several tables have is merged, the first one
leading; it keeps the place and the spelling of its first mention. -/
namespace ProjectAnalysis

/-- What can be put into a table under its own name. -/
class Symbol (α : Type) where
  name : α → String
  description : α → Option String
  /-- The first view, with what only the second one adds. -/
  merge : α → α → α

instance : Symbol PropertyInfo := ⟨PropertyInfo.name, PropertyInfo.description, fun p _ => p⟩

instance : Symbol MetadataInfo := ⟨MetadataInfo.name, MetadataInfo.description, fun m _ => m⟩

instance : Symbol ItemInfo := ⟨ItemInfo.name, ItemInfo.description, ItemInfo.merge⟩

instance : Symbol TaskInfo := ⟨TaskInfo.name, TaskInfo.description, TaskInfo.merge⟩

namespace SymbolTable

variable {α : Type} [Symbol α]

/-- Adds a symbol, or merges it into the one that is there. -/
def add (t : SymbolTable α) (a : α) : SymbolTable α :=
  let name := Symbol.name a
  if SymbolTable.contains t name then SymbolTable.modify t name (Symbol.merge · a)
  else SymbolTable.insert t name a

def addAll (t : SymbolTable α) (symbols : List α) : SymbolTable α :=
  symbols.foldl add t

end SymbolTable

/-- The merge of all views of one symbol. -/
def mergeAll? {α : Type} [Symbol α] : List α → Option α
  | [] => none
  | a :: more => some (more.foldl Symbol.merge a)

end ProjectAnalysis
