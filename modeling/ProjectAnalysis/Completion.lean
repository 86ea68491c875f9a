import ProjectAnalysis.GenerationView
import ProjectAnalysis.CompletionTrigger

/-! What an editor offers at a place of a document: what the schema allows there, and the symbols
of a generation. -/
namespace ProjectAnalysis

inductive CompletionKind
  | element
  | attributeName
  | item
  | property
  | metadata
  | task
  | taskParameter
deriving DecidableEq, Repr

/-- The number of the kind in the protocol of editors. -/
def CompletionKind.number : CompletionKind → Nat
  | .element => 7
  | .attributeName => 5
  | .item => 18
  | .property => 10
  | .metadata => 5
  | .task => 3
  | .taskParameter => 6

structure Completion where
  /-- The text to insert. -/
  label : String
  kind : CompletionKind
  documentation : Option String
  /-- The lower, the earlier it is offered. -/
  priority : Nat
deriving DecidableEq, Repr

namespace Completion

/-- A name of the schema. -/
def ofSchema (kind : CompletionKind) (name : String) : Completion :=
  ⟨name, kind, none, 10⟩

def ofSymbol {α : Type} [Symbol α] (kind : CompletionKind) (a : α) : Completion :=
  ⟨Symbol.name a, kind, Symbol.description a, 100⟩

/-- A symbol in an expression; those of the files come before the well-known ones. -/
def ranked {α : Type} [Symbol α] (kind : CompletionKind) (wellKnown : Bool) (a : α) : Completion :=
  { ofSymbol kind a with priority := if wellKnown then 50 else 10 }

end Completion

/-- A place in a document, by the names of the elements around it. -/
structure ElementPath where
  /-- From the root down, as they are written. -/
  names : List String
  /-- What the last of them is. -/
  descriptor : Descriptor
  /-- The attribute at the place. -/
  attributeName : Option String

namespace ElementPath

/-- The place that names stand for, if the schema knows each of them. -/
def ofNames? (names : List String) (attributeName : Option String) : Option ElementPath :=
  (Descriptor.resolvePath names).map fun d => ⟨names, d, attributeName⟩

/-- The name of the innermost element. -/
def name (p : ElementPath) : String :=
  p.names.getLast?.getD ""

/-- The name of the element around the innermost one. -/
def parentName? (p : ElementPath) : Option String :=
  p.names.dropLast.getLast?

end ElementPath

namespace Generation

variable (g : Generation)

/-- The children that can stand at a place. -/
def inferredChildren (p : ElementPath) : List Completion :=
  p.descriptor.children.map (fun c => .ofSchema .element c.1) ++
    match p.descriptor.kind with
    | .itemGroup => g.items.values.map (.ofSymbol .item)
    | .propertyGroup => (g.properties false).values.map (.ofSymbol .property)
    | .target => g.tasks.values.map (.ofSymbol .task)
    | .item | .itemDefinition => (g.itemMetadata p.name false).map (.ofSymbol .metadata)
    | _ => []

/-- The attributes that can stand at a place. -/
def inferredAttributes (p : ElementPath) : List Completion :=
  p.descriptor.attributes.map (.ofSchema .attributeName) ++
    match p.descriptor.kind with
    | .item | .itemDefinition => (g.itemMetadata p.name false).map (.ofSymbol .metadata)
    | .task =>
      match g.task? p.name with
      | some t => t.parameters.values.map fun name => ⟨name, .taskParameter, none, 100⟩
      | none => []
    | _ => []

/-- Those symbols whose names begin with what is typed, whatever its case. -/
def continuing {α : Type} [Symbol α] (typed : String) (symbols : List α) : List α :=
  symbols.filter fun a => startsIgnoringCase typed.toList (Symbol.name a).toList

/-- What can follow in an expression. Metadata without an item is that of the item around. -/
def expressionCompletions (t : Trigger) (enclosing : Option String) : List Completion :=
  match t with
  | .property typed =>
    (continuing typed (g.properties true).values).map fun p => .ranked .property p.wellKnown p
  | .item typed => (continuing typed g.items.values).map (.ofSymbol .item)
  | .metadata item typed =>
    match item.or enclosing with
    | some item =>
      (continuing typed (g.itemMetadata item true)).map fun m => .ranked .metadata m.wellKnown m
    | none => []

end Generation

end ProjectAnalysis
