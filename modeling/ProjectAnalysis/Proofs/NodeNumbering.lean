import ProjectAnalysis.ExprListing

/-! The numbers of the nodes of a tree: which node is listed where, which numbers a node has for its
children, and that the listing is the tree walked in postorder. -/
namespace ProjectAnalysis.Expr

theorem Shape.children_mapState {α β σ : Type} (f : σ → α → σ × β) (s : σ) (shape : Shape α) :
    (shape.mapState f s).2.children = (mapState.onList f s shape.children).2 := by
  cases shape with
  | invocation target function arguments => cases function <;> cases arguments <;> rfl
  | item name transform separator => cases transform <;> cases separator <;> rfl
  | itemFunction target function arguments => cases target <;> rfl
  | _ => rfl

namespace Node

/-- What holds of a node once it holds of its children holds of every node. -/
theorem children_induction {P : Node → Prop} (h : ∀ n, (∀ c ∈ n.children, P c) → P n) (n : Node) :
    P n :=
  h n fun c _ => children_induction h c
termination_by sizeOf n
decreasing_by exact sizeOf_lt_of_mem_children ‹_›

/-- How many nodes some trees have. -/
def countAll (cs : List Node) : Nat :=
  (cs.map count).foldr (· + ·) 0

theorem count_eq (n : Node) : n.count = countAll n.children + 1 := by
  rw [count, List.map_subtype (g := count) fun _ _ => rfl, List.unattach_attach]
  rfl

/-- What is listed for a node. -/
def entry (first : Nat) (parent : Option Nat) (n : Node) : Entry :=
  ⟨n.span, n.numberedShape first, parent⟩

/-- The entries of trees one after the other, numbered from `first` on. -/
def entriesOf (first : Nat) (parent : Option Nat) (cs : List Node) : List Entry :=
  (numberedChildren.go first cs).flatMap fun p => p.2.entriesFrom p.1 parent

theorem entriesFrom_eq (first : Nat) (parent : Option Nat) (n : Node) :
    n.entriesFrom first parent = entriesOf first (some (n.number first)) n.children ++
      [n.entry first parent] := by
  rw [entriesFrom]
  dsimp only
  rw [List.flatMap_subtype (g := fun p => p.2.entriesFrom p.1 (some (n.number first)))
    fun _ _ => rfl, List.unattach_attach]
  rfl

theorem entriesOf_cons (first : Nat) (parent : Option Nat) (c : Node) (cs : List Node) :
    entriesOf first parent (c :: cs) =
      c.entriesFrom first parent ++ entriesOf (first + c.count) parent cs := by
  unfold entriesOf
  rw [numberedChildren.go, List.flatMap_cons]

/-- A node has the numbers of its children in the order of the children. -/
theorem children_numberedShape (first : Nat) (n : Node) :
    (n.numberedShape first).children =
      (n.numberedChildren first).map fun p => p.2.number p.1 := by
  have hgo (cs : List Node) (first : Nat) :
      (Shape.mapState.onList (fun next c => (next + c.count, c.number next)) first cs).2 =
        (numberedChildren.go first cs).map fun p => p.2.number p.1 := by
    induction cs generalizing first with
    | nil => rfl
    | cons c cs ih =>
      rw [numberedChildren.go, List.map_cons, ← ih]
      rfl
  rw [numberedShape, Shape.children_mapState, hgo]
  rfl

theorem map_numberedChildren (first : Nat) (n : Node) :
    (n.numberedChildren first).map Prod.snd = n.children := by
  have hgo (cs : List Node) (first : Nat) :
      (numberedChildren.go first cs).map Prod.snd = cs := by
    induction cs generalizing first with
    | nil => rfl
    | cons c cs ih => rw [numberedChildren.go, List.map_cons, ih]
  exact hgo n.children first

theorem length_entriesFrom (first : Nat) (parent : Option Nat) (n : Node) :
    (n.entriesFrom first parent).length = n.count := by
  induction n using children_induction generalizing first parent with
  | h n ih =>
    have hgo (cs : List Node) (hcs : ∀ c ∈ cs, c ∈ n.children) (first : Nat)
        (parent : Option Nat) : (entriesOf first parent cs).length = countAll cs := by
      induction cs generalizing first with
      | nil => rfl
      | cons c cs ihcs =>
        obtain ⟨hc, hcs⟩ := List.forall_mem_cons.1 hcs
        rw [entriesOf_cons, List.length_append, ih c hc, ihcs hcs]
        rfl
    rw [entriesFrom_eq, List.length_append, hgo n.children (fun _ h => h), count_eq]
    rfl

/-- The nodes of a tree, each with the first number in it and the number of its parent. -/
inductive Numbered (root : Node) : Nat → Option Nat → Node → Prop
  | root : Numbered root 0 none root
  | child {first k : Nat} {parent : Option Nat} {n c : Node} (h : Numbered root first parent n)
      (hc : (k, c) ∈ n.numberedChildren first) : Numbered root k (some (n.number first)) c

/-- The entries of a child stand among those of its siblings, at the child's numbers. -/
theorem exists_entriesOf {first k : Nat} (parent : Option Nat) {cs : List Node} {c : Node}
    (h : (k, c) ∈ numberedChildren.go first cs) : ∃ before after,
      entriesOf first parent cs = before ++ c.entriesFrom k parent ++ after ∧
        first + before.length = k := by
  induction cs generalizing first with
  | nil => cases h
  | cons c' cs ih =>
    rw [entriesOf_cons]
    rcases List.mem_cons.1 h with hhead | htail
    · obtain ⟨rfl, rfl⟩ := Prod.mk.inj hhead
      exact ⟨[], _, rfl, rfl⟩
    · obtain ⟨before, after, hentries, hk⟩ := ih htail
      refine ⟨c'.entriesFrom first parent ++ before, after, ?_, ?_⟩
      · rw [hentries]
        simp only [List.append_assoc]
      · rw [List.length_append, length_entriesFrom, ← Nat.add_assoc, hk]

/-- Each entry among those of some siblings is one of the entries of a sibling. -/
theorem exists_child_of_entriesOf {first j : Nat} {parent : Option Nat} {cs : List Node}
    {e : Entry} (h : (entriesOf first parent cs)[j]? = some e) :
    ∃ k c i, (k, c) ∈ numberedChildren.go first cs ∧
      (c.entriesFrom k parent)[i]? = some e ∧ first + j = k + i := by
  induction cs generalizing first j with
  | nil => cases h
  | cons c' cs ih =>
    rw [entriesOf_cons] at h
    by_cases hj : j < (c'.entriesFrom first parent).length
    · rw [List.getElem?_append_left hj] at h
      exact ⟨first, c', j, List.mem_cons_self, h, rfl⟩
    · rw [List.getElem?_append_right (Nat.le_of_not_lt hj)] at h
      obtain ⟨k, c, i, hc, he, hk⟩ := ih h
      rw [length_entriesFrom] at hj hk
      exact ⟨k, c, i, List.mem_cons_of_mem _ hc, he, by omega⟩

/-- The entries of a node stand together, from its first number on. -/
theorem Numbered.entries {root n : Node} {first : Nat} {parent : Option Nat}
    (h : Numbered root first parent n) : ∃ before after,
      root.entries = before ++ n.entriesFrom first parent ++ after ∧ before.length = first := by
  induction h with
  | root => exact ⟨[], [], by rw [List.nil_append, List.append_nil]; rfl, rfl⟩
  | @child first k parent n c h hc ih =>
    obtain ⟨before, after, hentries, rfl⟩ := ih
    obtain ⟨left, right, hchildren, hk⟩ := exists_entriesOf (some (n.number _)) hc
    rw [entriesFrom_eq, hchildren] at hentries
    refine ⟨before ++ left, right ++ [n.entry before.length parent] ++ after, ?_, ?_⟩
    · rw [hentries]
      unfold entry
      simp only [List.append_assoc]
    · rw [List.length_append, hk]

/-- A node is listed at its number. -/
theorem Numbered.getElem? {root n : Node} {first : Nat} {parent : Option Nat}
    (h : Numbered root first parent n) :
    root.entries[n.number first]? = some (n.entry first parent) := by
  obtain ⟨before, after, hentries, rfl⟩ := h.entries
  have hlength := length_entriesFrom before.length parent n
  rw [entriesFrom_eq] at hentries hlength
  generalize entriesOf before.length _ n.children = below at hentries hlength
  have hnumber : n.number before.length = before.length + below.length := by
    rw [number, ← hlength, List.length_append]
    rfl
  rw [hentries, hnumber]
  simp

/-- Whatever is listed is a node of the tree. -/
theorem exists_numbered {root : Node} {k : Nat} {e : Entry} (h : root.entries[k]? = some e) :
    ∃ first parent n, Numbered root first parent n ∧ k = n.number first ∧
      e = n.entry first parent := by
  -- By induction on the node: an entry is one of a child, or the last one.
  have hall (n : Node) : ∀ first parent j, Numbered root first parent n →
      (n.entriesFrom first parent)[j]? = some e → ∃ f p m, Numbered root f p m ∧
        first + j = m.number f ∧ e = m.entry f p := by
    induction n using children_induction with
    | h n ih =>
      intro first parent j hn he
      have hlength := length_entriesFrom first parent n
      rw [entriesFrom_eq] at he hlength
      by_cases hj : j < (entriesOf first (some (n.number first)) n.children).length
      · rw [List.getElem?_append_left hj] at he
        obtain ⟨k, c, i, hc, he, hk⟩ := exists_child_of_entriesOf he
        obtain ⟨f, p, m, hm, hi, he⟩ :=
          ih c (mem_children_of_mem_numberedChildren hc) k _ i (hn.child hc) he
        exact ⟨f, p, m, hm, hk.trans hi, he⟩
      · rw [List.getElem?_append_right (Nat.le_of_not_lt hj), List.getElem?_singleton] at he
        obtain ⟨hlast, he⟩ := Option.ite_none_right_eq_some.1 he
        rw [List.length_append, List.length_singleton] at hlength
        refine ⟨first, parent, n, hn, ?_, (Option.some.inj he).symm⟩
        rw [number, ← hlength]
        omega
  obtain ⟨f, p, m, hm, hk, he⟩ := hall root 0 none k .root h
  rw [Nat.zero_add] at hk
  exact ⟨f, p, m, hm, hk, he⟩

end Node

/-- The numbers of some trees in postorder: all below the first one, the first one, and so on. -/
inductive Visits (entries : List Entry) : List Nat → List Nat → Prop
  | nil : Visits entries [] []
  | cons {i : Nat} {e : Entry} {is below more : List Nat} (hi : entries[i]? = some e)
      (children : Visits entries e.shape.children below) (rest : Visits entries is more) :
      Visits entries (i :: is) (below ++ i :: more)

namespace Node

/-- A node is visited right after all that have the numbers before it in its tree. -/
theorem Numbered.visits {root n : Node} {first : Nat} {parent : Option Nat}
    (h : Numbered root first parent n) :
    Visits root.entries (n.entry first parent).shape.children
      (List.range' first (countAll n.children)) := by
  induction n using children_induction generalizing first parent with
  | h n ih =>
    -- The numbers of one sibling end where those of the next begin.
    have hgo (cs : List Node) (k : Nat)
        (hcs : ∀ p ∈ numberedChildren.go k cs, p ∈ n.numberedChildren first) :
        Visits root.entries ((numberedChildren.go k cs).map fun p => p.2.number p.1)
          (List.range' k (countAll cs)) := by
      induction cs generalizing k with
      | nil => exact .nil
      | cons c cs ihcs =>
        obtain ⟨hc, hcs⟩ := List.forall_mem_cons.1 hcs
        have hchild := h.child hc
        have hbelow := ih c (mem_children_of_mem_numberedChildren hc) hchild
        have hvisit := Visits.cons hchild.getElem? hbelow (ihcs (k + c.count) hcs)
        have hcount : countAll (c :: cs) = countAll c.children + (countAll cs + 1) := by
          have hsum : countAll (c :: cs) = c.count + countAll cs := rfl
          rw [hsum, count_eq, Nat.add_assoc, Nat.add_comm 1]
        have hnext : k + c.count = c.number k + 1 := by
          rw [number, count_eq]
          rfl
        have hnumber : c.number k = k + countAll c.children := by
          rw [number, count_eq]
          rfl
        rw [hcount, ← List.range'_append_1, List.range'_succ, ← hnumber, ← hnext]
        exact hvisit
    have hall := hgo n.children first fun _ hp => hp
    rwa [← Node.numberedChildren, ← children_numberedShape] at hall

end Node

end ProjectAnalysis.Expr
