import ProjectAnalysis.XmlDocument
import ProjectAnalysis.Proofs.CursorRun

/-! Where the elements of a tree stand: each subtree with the elements around it, and trees whose
elements are numbered in the order of their opening tags, the children inside their parent and one
behind the other. -/
namespace ProjectAnalysis.Xml

def Tree.children : Tree → List Tree
  | .node _ children => children

/-- A tree in another one, with the elements around it from the outermost on. -/
structure Subtree where
  above : List Element
  tree : Tree

namespace Subtree

def element (s : Subtree) : Element :=
  s.tree.root

/-- The elements from the outermost down to the one that the subtree begins with. -/
def path (s : Subtree) : List Element :=
  s.above ++ [s.element]

/-- The element with its links. -/
def placed (s : Subtree) : Placed :=
  ⟨s.element, s.above.getLast?.map (·.id), s.tree.children.map (·.root.id),
    s.path.map (·.name.localName)⟩

end Subtree

namespace Tree

mutual

/-- Every tree in a tree, the tree itself first, below some elements. -/
def subtrees (above : List Element) : Tree → List Subtree
  | .node e children => ⟨above, .node e children⟩ :: allSubtrees (above ++ [e]) children

def allSubtrees (above : List Element) : List Tree → List Subtree
  | [] => []
  | t :: ts => t.subtrees above ++ allSubtrees above ts

end

mutual

theorem elements_eq (above : List Element) (t : Tree) :
    t.elements = (t.subtrees above).map Subtree.element := by
  match t with
  | .node e children =>
    rw [elements, subtrees, List.map_cons, allElements_eq (above ++ [e]) children]
    rfl

theorem allElements_eq (above : List Element) (ts : List Tree) :
    allElements ts = (allSubtrees above ts).map Subtree.element := by
  match ts with
  | [] => rfl
  | t :: ts =>
    rw [allElements, allSubtrees, List.map_append, elements_eq above t, allElements_eq above ts]

end

mutual

theorem placed_eq (above : List Element) (t : Tree) :
    t.placed (above.getLast?.map (·.id)) (above.map (·.name.localName)) =
      (t.subtrees above).map Subtree.placed := by
  match t with
  | .node e children =>
    have hbelow := allPlaced_eq (above ++ [e]) children
    rw [List.getLast?_concat, List.map_append] at hbelow
    rw [placed, subtrees, List.map_cons, ← hbelow]
    simp [Subtree.placed, Subtree.path, Subtree.element, root, Tree.children]

theorem allPlaced_eq (above : List Element) (ts : List Tree) :
    allPlaced (above.getLast?.map (·.id)) (above.map (·.name.localName)) ts =
      (allSubtrees above ts).map Subtree.placed := by
  match ts with
  | [] => rfl
  | t :: ts =>
    rw [allPlaced, allSubtrees, List.map_append, placed_eq above t, allPlaced_eq above ts]

end

variable {above : List Element} {ts : List Tree} {t : Tree} {s : Subtree}

theorem mem_subtrees_self (above : List Element) (t : Tree) : ⟨above, t⟩ ∈ t.subtrees above := by
  cases t with
  | node e children =>
    rw [subtrees]
    exact List.mem_cons_self

theorem mem_allSubtrees_iff : s ∈ allSubtrees above ts ↔ ∃ t ∈ ts, s ∈ t.subtrees above := by
  induction ts with
  | nil => simp [allSubtrees]
  | cons t ts ih => simp [allSubtrees, ih]

theorem subtrees_eq (above : List Element) (t : Tree) :
    t.subtrees above = ⟨above, t⟩ :: allSubtrees (above ++ [t.root]) t.children := by
  cases t with
  | node e children =>
    rw [subtrees]
    rfl

theorem elements_cons (t : Tree) : t.elements = t.root :: allElements t.children := by
  cases t with
  | node e children =>
    rw [elements]
    rfl

theorem root_mem (h : t ∈ ts) : t.root ∈ allElements ts := by
  rw [allElements_eq []]
  exact List.mem_map.2 ⟨⟨[], t⟩, mem_allSubtrees_iff.2 ⟨t, h, mem_subtrees_self _ t⟩, rfl⟩

mutual

theorem subtrees_children (above : List Element) (t : Tree) {s : Subtree}
    (hs : s ∈ t.subtrees above) :
    ∀ u ∈ s.tree.children, (⟨s.path, u⟩ : Subtree) ∈ t.subtrees above := by
  match t with
  | .node e children =>
    intro u hu
    rw [subtrees] at hs ⊢
    rcases List.mem_cons.1 hs with rfl | hs
    · exact List.mem_cons_of_mem _ (mem_allSubtrees_iff.2 ⟨u, hu, mem_subtrees_self _ u⟩)
    · exact List.mem_cons_of_mem _ (allSubtrees_children _ children hs u hu)

/-- The children of a subtree are subtrees. -/
theorem allSubtrees_children (above : List Element) (ts : List Tree) {s : Subtree}
    (hs : s ∈ allSubtrees above ts) :
    ∀ u ∈ s.tree.children, (⟨s.path, u⟩ : Subtree) ∈ allSubtrees above ts := by
  match ts with
  | [] => exact absurd hs List.not_mem_nil
  | t :: ts =>
    intro u hu
    rw [allSubtrees] at hs ⊢
    rcases List.mem_append.1 hs with hs | hs
    · exact List.mem_append_left _ (subtrees_children above t hs u hu)
    · exact List.mem_append_right _ (allSubtrees_children above ts hs u hu)

end

mutual

theorem subtrees_parent (above : List Element) (t : Tree) {s : Subtree}
    (hs : s ∈ t.subtrees above) :
    (s.above = above ∧ s.tree = t) ∨
      ∃ q ∈ t.subtrees above, s.above = q.path ∧ s.tree ∈ q.tree.children := by
  match t with
  | .node e children =>
    rw [subtrees] at hs ⊢
    rcases List.mem_cons.1 hs with rfl | hs
    · exact Or.inl ⟨rfl, rfl⟩
    · right
      rcases allSubtrees_parent _ children hs with ⟨habove, hmem⟩ | ⟨q, hq, hlink⟩
      · exact ⟨⟨above, .node e children⟩, List.mem_cons_self, habove, hmem⟩
      · exact ⟨q, List.mem_cons_of_mem _ hq, hlink⟩

/-- A subtree is one of the trees, or it is the child of a subtree. -/
theorem allSubtrees_parent (above : List Element) (ts : List Tree) {s : Subtree}
    (hs : s ∈ allSubtrees above ts) :
    (s.above = above ∧ s.tree ∈ ts) ∨
      ∃ q ∈ allSubtrees above ts, s.above = q.path ∧ s.tree ∈ q.tree.children := by
  match ts with
  | [] => exact absurd hs List.not_mem_nil
  | t :: ts =>
    rw [allSubtrees] at hs ⊢
    rcases List.mem_append.1 hs with hs | hs
    · rcases subtrees_parent above t hs with ⟨habove, htree⟩ | ⟨q, hq, hlink⟩
      · exact Or.inl ⟨habove, htree ▸ List.mem_cons_self⟩
      · exact Or.inr ⟨q, List.mem_append_left _ hq, hlink⟩
    · rcases allSubtrees_parent above ts hs with ⟨habove, htree⟩ | ⟨q, hq, hlink⟩
      · exact Or.inl ⟨habove, List.mem_cons_of_mem _ htree⟩
      · exact Or.inr ⟨q, List.mem_append_right _ hq, hlink⟩

end

end Tree

/-- Trees one behind the other from the offset `lo` to `hi`, which are as `P` says, with elements
numbered from `n` up to `n'`, and so on inside each of them. -/
inductive InOrder (P : Tree → Prop) : Nat → Nat → List Tree → Nat → Nat → Prop
  | nil {n lo hi : Nat} (h : lo ≤ hi) : InOrder P n lo [] n hi
  | cons {n m n' lo hi : Nat} {e : Element} {children more : List Tree} (hid : e.id = n)
      (hlo : lo ≤ e.span.start) (own : P (.node e children))
      (inside : InOrder P (n + 1) (e.span.start + 1) children m e.span.stop)
      (behind : InOrder P m e.span.stop more n' hi) :
      InOrder P n lo (.node e children :: more) n' hi

namespace InOrder

variable {P : Tree → Prop} {n m n' lo mid hi : Nat} {t : Tree} {ts us : List Tree}
  {above : List Element} {s : Subtree} {e : Element}

theorem le (h : InOrder P n lo ts n' hi) : n ≤ n' ∧ lo ≤ hi := by
  induction h with
  | nil h => exact ⟨Nat.le_refl _, h⟩
  | cons hid hlo _ _ _ ihinside ihbehind => omega

theorem weaken_start {lo' : Nat} (h : InOrder P n lo ts n' hi) (hlo : lo' ≤ lo) :
    InOrder P n lo' ts n' hi := by
  cases h with
  | nil h => exact .nil (Nat.le_trans hlo h)
  | cons hid h own inside behind => exact .cons hid (Nat.le_trans hlo h) own inside behind

theorem append (hx : InOrder P n lo ts m mid) (hy : InOrder P m mid us n' hi) :
    InOrder P n lo (ts ++ us) n' hi := by
  induction hx with
  | nil h => exact hy.weaken_start h
  | cons hid hlo own inside _ _ ihbehind => exact .cons hid hlo own inside (ihbehind hy)

theorem weaken_stop {hi' : Nat} (h : InOrder P n lo ts n' hi) (hhi : hi ≤ hi') :
    InOrder P n lo ts n' hi' := by
  have hmore := h.append (.nil hhi)
  rwa [List.append_nil] at hmore

/-- The elements are numbered in a row. -/
theorem ids (h : InOrder P n lo ts n' hi) :
    (Tree.allElements ts).map (·.id) = List.range' n (n' - n) := by
  induction h with
  | nil => simp [Tree.allElements]
  | @cons n m n' lo hi e children more hid hlo own inside behind ihinside ihbehind =>
    obtain ⟨k, rfl⟩ := Nat.exists_eq_add_of_le inside.le.1
    obtain ⟨j, rfl⟩ := Nat.exists_eq_add_of_le behind.le.1
    rw [Nat.add_sub_cancel_left] at ihinside ihbehind
    have hnext : n + 1 + k = n + (k + 1) := by omega
    rw [Tree.allElements, Tree.elements, List.map_append, List.map_cons, ihinside, ihbehind, hid,
      ← List.range'_succ, hnext, List.range'_append_1, Nat.add_assoc n,
      Nat.add_sub_cancel_left]

theorem id_range (h : InOrder P n lo ts n' hi) (he : e ∈ Tree.allElements ts) :
    n ≤ e.id ∧ e.id < n' := by
  have hmem := List.mem_map_of_mem (f := (·.id)) he
  rw [h.ids, List.mem_range'_1, Nat.add_sub_cancel' h.le.1] at hmem
  exact hmem

theorem within (h : InOrder P n lo ts n' hi) : ∀ e ∈ Tree.allElements ts,
    lo ≤ e.span.start ∧ e.span.start < e.span.stop ∧ e.span.stop ≤ hi := by
  induction h with
  | nil => exact List.forall_mem_nil _
  | cons hid hlo own inside behind ihinside ihbehind =>
    have hinside := inside.le.2
    have hbehind := behind.le.2
    rw [Tree.allElements, Tree.elements, List.forall_mem_append, List.forall_mem_cons]
    refine ⟨⟨⟨hlo, hinside, hbehind⟩, fun a ha => ?_⟩, fun a ha => ?_⟩
    · have := ihinside a ha
      omega
    · have := ihbehind a ha
      omega

/-- One opening tag comes behind the other. -/
theorem starts (h : InOrder P n lo ts n' hi) :
    (Tree.allElements ts).Pairwise fun a b => a.span.start < b.span.start := by
  induction h with
  | nil => exact .nil
  | cons hid hlo own inside behind ihinside ihbehind =>
    have hinside := inside.within
    have hbehind := behind.within
    rw [Tree.allElements, Tree.elements]
    refine List.pairwise_append.2 ⟨.cons (fun a ha => (hinside a ha).1) ihinside, ihbehind,
      fun a ha b hb => ?_⟩
    have hb := hbehind b hb
    rcases List.mem_cons.1 ha with rfl | ha
    · have := inside.le.2
      omega
    · have := hinside a ha
      omega

/-- The trees are numbered in their order, and none reaches into the next. -/
theorem pairwise (h : InOrder P n lo ts n' hi) : ts.Pairwise fun t u =>
    t.root.id < u.root.id ∧ t.root.span.stop ≤ u.root.span.start := by
  induction h with
  | nil => exact .nil
  | @cons n m n' lo hi e children more hid hlo own inside behind ihinside ihbehind =>
    refine .cons (fun u hu => ?_) ihbehind
    have hroot := Tree.root_mem hu
    have hlt := Nat.lt_of_lt_of_le (Nat.lt_succ_self n) inside.le.1
    exact ⟨hid ▸ Nat.lt_of_lt_of_le hlt (behind.id_range hroot).1, (behind.within _ hroot).1⟩

/-- What holds of the trees holds of every tree in them. -/
theorem subtree (h : InOrder P n lo ts n' hi) (hs : s ∈ Tree.allSubtrees above ts) :
    P s.tree ∧ ∃ m, InOrder P (s.element.id + 1) (s.element.span.start + 1) s.tree.children m
      s.element.span.stop := by
  induction h generalizing above with
  | nil => exact absurd hs List.not_mem_nil
  | cons hid hlo own inside behind ihinside ihbehind =>
    rw [Tree.allSubtrees, Tree.subtrees] at hs
    rcases List.mem_append.1 hs with hs | hs
    · rcases List.mem_cons.1 hs with rfl | hs
      · exact ⟨own, _, hid ▸ inside⟩
      · exact ihinside hs
    · exact ihbehind hs

end InOrder

end ProjectAnalysis.Xml
