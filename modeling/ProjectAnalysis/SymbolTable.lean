import ProjectAnalysis.NameKey
import ProjectAnalysis.OrderedTable

/-! Tables of symbols by name, in the order of their first mention; case does not count. -/
namespace ProjectAnalysis

/-- A table whose keys are names without regard to case. -/
abbrev SymbolTable (α : Type) := OrderedTable NameKey α

namespace SymbolTable

variable {α : Type}

def get? (t : SymbolTable α) (name : String) : Option α :=
  OrderedTable.get? t (.of name)

def contains (t : SymbolTable α) (name : String) : Bool :=
  OrderedTable.contains t (.of name)

/-- Puts a value under a name, in place of one whose name differs in case only. -/
def insert (t : SymbolTable α) (name : String) (value : α) : SymbolTable α :=
  OrderedTable.insert t (.of name) value

/-- Adds a value under a name that is new. -/
def insertNew (t : SymbolTable α) (name : String) (value : α) : SymbolTable α :=
  OrderedTable.insertNew t (.of name) value

def modify (t : SymbolTable α) (name : String) (f : α → α) : SymbolTable α :=
  OrderedTable.modify t (.of name) f

def erase (t : SymbolTable α) (name : String) : SymbolTable α :=
  OrderedTable.erase t (.of name)

end SymbolTable

end ProjectAnalysis
