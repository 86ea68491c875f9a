import ProjectAnalysis.ExprTree

/-! The nodes of an expression by number, children before their parent, and what is asked of an
expression: its references, and the nodes around an offset. -/
namespace ProjectAnalysis.Expr

/-- A node with the numbers of its children and of its parent. -/
structure Entry where
  span : Span
  shape : Shape Nat
  parent : Option Nat

namespace Node

/-- The number of a node whose tree is numbered from `first` on. -/
def number (first : Nat) (n : Node) : Nat :=
  first + n.count - 1

/-- The shape with each child replaced by its number, the children numbered from `first` on. -/
def numberedShape (first : Nat) (n : Node) : Shape Nat :=
  (n.shape.mapState (fun next c => (next + c.count, c.number next)) first).2

/-- The children, each with the first number of its tree. -/
def numberedChildren (first : Nat) (n : Node) : List (Nat × Node) :=
  go first n.children
where
  go (first : Nat) : List Node → List (Nat × Node)
    | [] => []
    | c :: cs => (first, c) :: go (first + c.count) cs

theorem mem_children_of_mem_numberedChildren {first : Nat} {n : Node} {p : Nat × Node}
    (h : p ∈ n.numberedChildren first) : p.2 ∈ n.children := by
  have hgo : ∀ (first : Nat) (cs : List Node), p ∈ numberedChildren.go first cs → p.2 ∈ cs := by
    intro first cs
    induction cs generalizing first with
    | nil => simp [numberedChildren.go]
    | cons c cs ih =>
      intro hp
      simp only [numberedChildren.go, List.mem_cons] at hp
      rcases hp with rfl | hp
      · simp
      · exact List.mem_cons_of_mem _ (ih _ hp)
  exact hgo first n.children h

/-- The entries of a tree numbered from `first` on. -/
def entriesFrom (first : Nat) (parent : Option Nat) (n : Node) : List Entry :=
  let me := n.number first
  ((n.numberedChildren first).attach.flatMap fun ⟨p, _⟩ => p.2.entriesFrom p.1 (some me)) ++
    [⟨n.span, n.numberedShape first, parent⟩]
termination_by sizeOf n
decreasing_by exact sizeOf_lt_of_mem_children (mem_children_of_mem_numberedChildren ‹_›)

/-- All entries; the number of an entry is its place in the list, and the root comes last. -/
def entries (n : Node) : List Entry :=
  n.entriesFrom 0 none

/-- The numbers of the nodes around an offset, from the node down. Of the children around it the
first is entered. -/
def pathFrom (first : Nat) (offset : Nat) (n : Node) : List Nat :=
  n.number first ::
    match _h : (n.numberedChildren first).find? (·.2.span.contains offset) with
    | none => []
    | some p => p.2.pathFrom p.1 offset
termination_by sizeOf n
decreasing_by
  exact sizeOf_lt_of_mem_children (mem_children_of_mem_numberedChildren (List.mem_of_find?_eq_some _h))

/-- The numbers of the nodes around an offset, from the root to the innermost. -/
def pathAt (n : Node) (offset : Nat) : List Nat :=
  if n.span.contains offset then n.pathFrom 0 offset else []

end Node

/-- What a reference names. -/
inductive Referent
  | property
  | item
  /-- Metadata of the named item, or of the item at hand. -/
  | metadata (owner : Option String)
deriving DecidableEq, Repr

/-- A name in an expression, with the part of the text that refers to it. -/
structure Reference where
  referent : Referent
  name : String
  span : Span
deriving DecidableEq, Repr

namespace Node

/-- The reference that a node itself is. -/
def reference? (n : Node) : Option Reference :=
  match n.shape with
  | .propertyName name => some ⟨.property, name, n.span⟩
  | .item name _ _ => some ⟨.item, name, n.span⟩
  | .metadata owner name => some ⟨.metadata owner, name, n.span⟩
  | _ => none

/-- All references, in the order of the text. -/
def references (n : Node) : List Reference :=
  n.preorder.filterMap reference?

end Node

end ProjectAnalysis.Expr
