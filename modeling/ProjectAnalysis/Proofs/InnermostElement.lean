import ProjectAnalysis.Proofs.DocumentTree

/-! The element around an offset. The lookup enters the first child that the offset is in and never
goes back, and still no element around the offset is deeper than the one that it finds: where two
siblings meet the offset is in both, but there the later one has only just begun, and all that is
in it begins behind the offset. -/
namespace ProjectAnalysis.Xml

/-- The element stands among some subtrees around the offset, and none of these that does so is
below more elements. -/
def Deepest (offset : Nat) (ss : List Subtree) (e : Element) : Prop :=
  ∃ s ∈ ss, s.element = e ∧ e.span.contains offset = true ∧
    ∀ q ∈ ss, q.element.span.contains offset = true → q.above.length ≤ s.above.length

section
variable {P : Tree → Prop} {n n' lo hi offset : Nat} {ts more : List Tree} {e : Element}
  {above : List Element} {s : Subtree} {ss rest : List Subtree}

namespace Deepest

theorem behind (h : Deepest offset rest e)
    (hout : ∀ q ∈ ss, q.element.span.contains offset = false) :
    Deepest offset (ss ++ rest) e := by
  obtain ⟨s, hs, hse, hin, hdeep⟩ := h
  refine ⟨s, List.mem_append_right _ hs, hse, hin, ?_⟩
  refine List.forall_mem_append.2 ⟨fun q hq hqin => ?_, hdeep⟩
  exact Bool.noConfusion (hqin.symm.trans (hout q hq))

/-- What comes behind and is around the offset as well is no deeper than all of these. -/
theorem before (h : Deepest offset ss e) (hlong : ∀ s ∈ ss, above.length ≤ s.above.length)
    (hshort : ∀ q ∈ rest, q.element.span.contains offset = true →
      q.above.length ≤ above.length) : Deepest offset (ss ++ rest) e := by
  obtain ⟨s, hs, hse, hin, hdeep⟩ := h
  refine ⟨s, List.mem_append_left _ hs, hse, hin, ?_⟩
  refine List.forall_mem_append.2 ⟨hdeep, fun q hq hqin => ?_⟩
  exact Nat.le_trans (hshort q hq hqin) (hlong s hs)

theorem below (h : Deepest offset ss e) (hlong : ∀ q ∈ ss, s.above.length ≤ q.above.length) :
    Deepest offset (s :: ss) e := by
  obtain ⟨q, hq, hqe, hin, hdeep⟩ := h
  refine ⟨q, List.mem_cons_of_mem _ hq, hqe, hin, ?_⟩
  exact List.forall_mem_cons.2 ⟨fun _ => hlong q hq, hdeep⟩

end Deepest

namespace Tree

mutual

theorem length_above_subtrees (above : List Element) (t : Tree) :
    ∀ s ∈ t.subtrees above, above.length ≤ s.above.length := by
  match t with
  | .node e children =>
    rw [subtrees, List.forall_mem_cons]
    refine ⟨Nat.le_refl _, fun s hs => ?_⟩
    have hbelow := length_above_allSubtrees (above ++ [e]) children s hs
    rw [List.length_append] at hbelow
    exact Nat.le_of_add_right_le hbelow

/-- The elements around some trees are around all that is in these. -/
theorem length_above_allSubtrees (above : List Element) (ts : List Tree) :
    ∀ s ∈ allSubtrees above ts, above.length ≤ s.above.length := by
  match ts with
  | [] => exact List.forall_mem_nil _
  | t :: ts =>
    rw [allSubtrees, List.forall_mem_append]
    exact ⟨length_above_subtrees above t, length_above_allSubtrees above ts⟩

end

theorem firstInnermost_inside {children : List Tree} (h : e.span.contains offset = true) :
    firstInnermost offset (.node e children :: more) =
      some ((firstInnermost offset children).getD e) := by
  rw [firstInnermost, innermost, if_pos h]

theorem firstInnermost_outside {children : List Tree} (h : e.span.contains offset = false) :
    firstInnermost offset (.node e children :: more) = firstInnermost offset more := by
  rw [firstInnermost, innermost, h, if_neg Bool.false_ne_true]

theorem firstInnermost_eq_none :
    firstInnermost offset ts = none ↔ ∀ t ∈ ts, t.root.span.contains offset = false := by
  induction ts with
  | nil => exact ⟨fun _ => List.forall_mem_nil _, fun _ => rfl⟩
  | cons t ts ih =>
    obtain ⟨e, children⟩ := t
    rw [List.forall_mem_cons, ← ih, root]
    cases h : e.span.contains offset with
    | true => simp [firstInnermost_inside h]
    | false => simp [firstInnermost_outside h]

end Tree

namespace InOrder

/-- Where some trees begin, no element below another one is around the offset. -/
theorem above_of_start (h : InOrder P n lo ts n' hi) (hoffset : offset ≤ lo)
    (hs : s ∈ Tree.allSubtrees above ts) (hin : s.element.span.contains offset = true) :
    s.above = above := by
  rcases Tree.allSubtrees_parent above ts hs with ⟨habove, -⟩ | ⟨q, hq, -, hchild⟩
  · exact habove
  · -- A child begins behind the first character of its parent.
    obtain ⟨-, m, hinside⟩ := h.subtree hq
    have hmem : q.element ∈ Tree.allElements ts :=
      Tree.allElements_eq above ts ▸ List.mem_map_of_mem hq
    have hparent := (h.within _ hmem).1
    have hbegin := (hinside.within _ (Tree.root_mem hchild)).1
    have hstart : s.tree.root.span.start ≤ offset := (Span.contains_iff.1 hin).1
    omega

/-- With an element the tree that it is in is around the offset. -/
theorem exists_root_contains (h : InOrder P n lo ts n' hi) (hs : s ∈ Tree.allSubtrees above ts)
    (hin : s.element.span.contains offset = true) :
    ∃ t ∈ ts, t.root.span.contains offset = true := by
  induction h with
  | nil => exact absurd hs List.not_mem_nil
  | @cons _ _ _ _ _ e children more hid hlo own inside behind ihinside ihbehind =>
    rw [Tree.allSubtrees, Tree.subtrees] at hs
    rcases List.mem_append.1 hs with hs | hs
    · refine ⟨_, List.mem_cons_self, ?_⟩
      rcases List.mem_cons.1 hs with rfl | hs
      · exact hin
      · have hmem : s.element ∈ Tree.allElements children :=
          Tree.allElements_eq (above ++ [e]) children ▸ List.mem_map_of_mem hs
        have hwithin := inside.within _ hmem
        obtain ⟨hstart, hstop⟩ := Span.contains_iff.1 hin
        refine Span.contains_iff.2 ⟨?_, ?_⟩ <;> dsimp only [Tree.root] <;> omega
    · obtain ⟨t, ht, hroot⟩ := ihbehind hs
      exact ⟨t, List.mem_cons_of_mem _ ht, hroot⟩

theorem contains_eq_false (h : InOrder P n lo ts n' hi) (above : List Element)
    (hout : ∀ t ∈ ts, t.root.span.contains offset = false) :
    ∀ s ∈ Tree.allSubtrees above ts, s.element.span.contains offset = false := by
  intro s hs
  by_contra hin
  obtain ⟨t, ht, hroot⟩ := h.exists_root_contains hs ((Bool.not_eq_false _).mp hin)
  exact Bool.noConfusion (hroot.symm.trans (hout t ht))

/-- Among trees in order the lookup finds a deepest element. -/
theorem deepest_firstInnermost (h : InOrder P n lo ts n' hi) (above : List Element)
    (hfound : Tree.firstInnermost offset ts = some e) :
    Deepest offset (Tree.allSubtrees above ts) e := by
  induction h generalizing above e with
  | nil => cases hfound
  | @cons n m n' lo hi a children more hid hlo own inside behind ihinside ihbehind =>
    rw [Tree.allSubtrees]
    cases ha : a.span.contains offset with
    | false =>
      rw [Tree.firstInnermost_outside ha] at hfound
      have hone : InOrder P n lo [.node a children] m a.span.stop :=
        .cons hid hlo own inside (.nil (Nat.le_refl _))
      have hout := hone.contains_eq_false above (List.forall_mem_singleton.2 ha)
      rw [Tree.allSubtrees, Tree.allSubtrees, List.append_nil] at hout
      exact (ihbehind above hfound).behind hout
    | true =>
      rw [Tree.firstInnermost_inside ha] at hfound
      obtain rfl := Option.some.inj hfound
      refine Deepest.before ?_ (Tree.length_above_subtrees above _) fun q hq hqin => ?_
      · rw [Tree.subtrees]
        cases hbelow : Tree.firstInnermost offset children with
        | none =>
          have hout := inside.contains_eq_false (above ++ [a])
            (Tree.firstInnermost_eq_none.1 hbelow)
          refine ⟨⟨above, .node a children⟩, List.mem_cons_self, rfl, ha, ?_⟩
          refine List.forall_mem_cons.2 ⟨fun _ => Nat.le_refl _, fun q hq hqin => ?_⟩
          exact Bool.noConfusion (hqin.symm.trans (hout q hq))
        | some b =>
          refine (ihinside (above ++ [a]) hbelow).below fun q hq => ?_
          have hlong := Tree.length_above_allSubtrees _ _ q hq
          rw [List.length_append] at hlong
          exact Nat.le_of_add_right_le hlong
      · -- Later siblings around the offset begin there, so nothing in them is around it.
        exact Nat.le_of_eq
          (congrArg List.length (behind.above_of_start (Span.contains_iff.1 ha).2 hq hqin))

end InOrder

end

namespace Document

theorem elementAt_eq (d : Document) (offset : Nat) :
    d.elementAt offset = Tree.firstInnermost offset d.root.toList := by
  unfold elementAt
  cases d.root with
  | none => rfl
  | some t =>
    change t.innermost offset = Tree.firstInnermost offset [t]
    rw [Tree.firstInnermost]
    cases t.innermost offset <;> rfl

/-- Whatever the text is, there is an element around an offset if the root is around it, and then
the lookup finds one: an element around the offset so that no other one that is around it has a
longer path from the root. -/
theorem elementAt_deepest (text : String) (offset : Nat) :
    ((ofText text).elementAt offset = none ↔
      ∀ root, (ofText text).rootElement? = some root → root.span.contains offset = false) ∧
    ∀ e, (ofText text).elementAt offset = some e → e.span.contains offset = true ∧
      ∃ p ∈ (ofText text).placed, p.element = e ∧
        ∀ q ∈ (ofText text).placed, q.element.span.contains offset = true →
          q.path.length ≤ p.path.length := by
  rw [elementAt_eq, placed_eq]
  constructor
  · rw [Tree.firstInnermost_eq_none, rootElement?]
    cases (ofText text).root <;> simp
  · intro e hfound
    obtain ⟨n, h⟩ := inOrder_ofText text
    obtain ⟨s, hs, hse, hin, hdeep⟩ := h.deepest_firstInnermost [] hfound
    have hlength (q : Subtree) : q.placed.path.length = q.above.length + 1 := by
      simp [Subtree.placed, Subtree.path]
    refine ⟨hin, s.placed, List.mem_map_of_mem hs, hse, List.forall_mem_map.2 fun q hq hqin => ?_⟩
    rw [hlength, hlength]
    exact Nat.succ_le_succ (hdeep q hq hqin)

-- Where two siblings meet the first of them is entered, and in it the child that ends there.
example : ((ofText "<a><b><c/></b><d/>").elementAt 10).map (·.name.localName) = some "c" ∧
    ((ofText "<a><b><c/></b><d/>").elementAt 14).map (·.name.localName) = some "b" ∧
    (ofText "<a><b><c/></b><d/>").elementAt 19 = none := by
  decide +kernel

end Document

end ProjectAnalysis.Xml
