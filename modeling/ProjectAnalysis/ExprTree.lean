import ProjectAnalysis.TextSpan

/-! The tree of an expression: literal text and references to properties, items and metadata, and
in conditions the operators over them. `Shape` is one node with its children left open, so the same
shapes serve for the tree and for its listing by number. -/
namespace ProjectAnalysis.Expr

/-- The operators of conditions that take two operands. -/
inductive Operator
  | and
  | or
  | equal
  | notEqual
  | less
  | lessOrEqual
  | greater
  | greaterOrEqual
deriving DecidableEq, Repr

def Operator.text : Operator → String
  | .and => "and"
  | .or => "or"
  | .equal => "=="
  | .notEqual => "!="
  | .less => "<"
  | .lessOrEqual => "<="
  | .greater => ">"
  | .greaterOrEqual => ">="

/-- What a node is, over its children. -/
inductive Shape (α : Type)
  /-- Literal text; `quoted` inside quotes. -/
  | text (value : String) (quoted : Bool)
  | number (value : String)
  /-- `$(body)` -/
  | property (body : α)
  | propertyName (name : String)
  /-- `Registry:value` in a property reference. -/
  | registryValue (value : String)
  /-- `[name]` before a static call. -/
  | classReference (name : String)
  /-- A member, an index or a call after a value; at least one of the two parts is there. -/
  | invocation (target : α) (function : Option α) (arguments : Option α)
  | functionName (name : String)
  | argumentList (arguments : List α)
  /-- `@(name->transform, separator)` -/
  | item (name : String) (transform : Option α) (separator : Option α)
  /-- `->function(arguments)` after an item or after the transform before it. -/
  | itemFunction (target : Option α) (function : α) (arguments : α)
  /-- `%(owner.name)` or `%(name)`; the owner is an item. -/
  | metadata (owner : Option String) (name : String)
  | concat (parts : List α)
  /-- Segments with `;` between them. -/
  | list (segments : List α)
  | not (operand : α)
  | binary (op : Operator) (left right : α)
  /-- `name(arguments)` in a condition. -/
  | conditionFunction (name arguments : α)
deriving Repr

namespace Shape

variable {α β σ : Type}

/-- The children, in the order of the text. -/
def children : Shape α → List α
  | .text _ _ | .number _ | .propertyName _ | .registryValue _ | .classReference _
  | .functionName _ | .metadata _ _ => []
  | .property body | .not body => [body]
  | .invocation target function arguments => target :: (function.toList ++ arguments.toList)
  | .argumentList xs | .concat xs | .list xs => xs
  | .item _ transform separator => transform.toList ++ separator.toList
  | .itemFunction target function arguments => target.toList ++ [function, arguments]
  | .binary _ left right => [left, right]
  | .conditionFunction name arguments => [name, arguments]

/-- Replaces the children, in the order of the text, while a state is handed along. -/
def mapState (f : σ → α → σ × β) (s : σ) : Shape α → σ × Shape β
  | .text value quoted => (s, .text value quoted)
  | .number value => (s, .number value)
  | .property body =>
    let (s, body) := f s body
    (s, .property body)
  | .propertyName name => (s, .propertyName name)
  | .registryValue value => (s, .registryValue value)
  | .classReference name => (s, .classReference name)
  | .invocation target function arguments =>
    let (s, target) := f s target
    let (s, function) := onOption s function
    let (s, arguments) := onOption s arguments
    (s, .invocation target function arguments)
  | .functionName name => (s, .functionName name)
  | .argumentList xs =>
    let (s, xs) := onList s xs
    (s, .argumentList xs)
  | .item name transform separator =>
    let (s, transform) := onOption s transform
    let (s, separator) := onOption s separator
    (s, .item name transform separator)
  | .itemFunction target function arguments =>
    let (s, target) := onOption s target
    let (s, function) := f s function
    let (s, arguments) := f s arguments
    (s, .itemFunction target function arguments)
  | .metadata owner name => (s, .metadata owner name)
  | .concat xs =>
    let (s, xs) := onList s xs
    (s, .concat xs)
  | .list xs =>
    let (s, xs) := onList s xs
    (s, .list xs)
  | .not operand =>
    let (s, operand) := f s operand
    (s, .not operand)
  | .binary op left right =>
    let (s, left) := f s left
    let (s, right) := f s right
    (s, .binary op left right)
  | .conditionFunction name arguments =>
    let (s, name) := f s name
    let (s, arguments) := f s arguments
    (s, .conditionFunction name arguments)
where
  onOption (s : σ) : Option α → σ × Option β
    | none => (s, none)
    | some a =>
      let (s, b) := f s a
      (s, some b)
  onList (s : σ) : List α → σ × List β
    | [] => (s, [])
    | a :: as =>
      let (s, b) := f s a
      let (s, bs) := onList s as
      (s, b :: bs)

/-- A member without arguments, as in `$(Name.Length)`. -/
def isMember : Shape α → Bool
  | .invocation _ (some _) none => true
  | _ => false

/-- An index, as in `$(Name[0])`. -/
def isIndex : Shape α → Bool
  | .invocation _ none (some _) => true
  | _ => false

end Shape

/-- An expression: what it is, and the part of the text that it was read from. -/
inductive Node
  | mk (span : Span) (shape : Shape Node)

namespace Node

def span : Node → Span
  | .mk span _ => span

def shape : Node → Shape Node
  | .mk _ shape => shape

def children (n : Node) : List Node :=
  n.shape.children

theorem sizeOf_lt_of_mem_children {n c : Node} (h : c ∈ n.children) : sizeOf c < sizeOf n := by
  obtain ⟨span, shape⟩ := n
  cases shape <;>
    simp only [children, Node.shape, Shape.children, List.mem_cons, List.mem_append,
      Option.mem_toList, List.not_mem_nil, or_false] at h
  case property => subst h; simp; omega
  case invocation =>
    rcases h with rfl | h | h
    · simp; omega
    · subst h; simp; omega
    · subst h; simp; omega
  case argumentList | concat | list =>
    have := List.sizeOf_lt_of_mem h
    simp; omega
  case item =>
    rcases h with h | h <;> (subst h; simp; omega)
  case itemFunction =>
    rcases h with h | rfl | rfl
    · subst h; simp; omega
    · simp; omega
    · simp; omega
  case not => subst h; simp; omega
  case binary | conditionFunction => rcases h with rfl | rfl <;> (simp; omega)

/-- The nodes of the tree, children before their parent. -/
def postorder (n : Node) : List Node :=
  (n.children.attach.flatMap fun ⟨c, _⟩ => c.postorder) ++ [n]
termination_by sizeOf n
decreasing_by exact sizeOf_lt_of_mem_children ‹_›

/-- The nodes of the tree, each parent before its children: the order of the text. -/
def preorder (n : Node) : List Node :=
  n :: n.children.attach.flatMap fun ⟨c, _⟩ => c.preorder
termination_by sizeOf n
decreasing_by exact sizeOf_lt_of_mem_children ‹_›

/-- How many nodes the tree has. -/
def count (n : Node) : Nat :=
  (n.children.attach.map fun ⟨c, _⟩ => c.count).foldr (· + ·) 0 + 1
termination_by sizeOf n
decreasing_by exact sizeOf_lt_of_mem_children ‹_›

end Node

end ProjectAnalysis.Expr
