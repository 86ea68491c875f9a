import ProjectAnalysis.Proofs.NodeSpacing

/-! The node around an offset. The lookup enters the first child that the offset is in and never
goes back, though the parts of an expression may meet and may be empty. No node around the offset is
deeper than the one that it finds: where a later sibling begins at the end of an earlier one, it has
no node inside that begins there as well. -/
namespace ProjectAnalysis.Expr

/-- The number of parents around an entry. -/
inductive Nested (entries : List Entry) : Nat → Nat → Prop
  | root {k : Nat} {e : Entry} (he : entries[k]? = some e) (h : e.parent = none) :
      Nested entries k 0
  | child {k p depth : Nat} {e : Entry} (he : entries[k]? = some e) (hp : e.parent = some p)
      (h : Nested entries p depth) : Nested entries k (depth + 1)

/-- The entry is around the offset, and none that is so is nested deeper. -/
def Innermost (entries : List Entry) (offset k : Nat) : Prop :=
  ∃ e depth, entries[k]? = some e ∧ e.span.contains offset = true ∧ Nested entries k depth ∧
    ∀ j e', entries[j]? = some e' → e'.span.contains offset = true →
      ∃ depth' ≤ depth, Nested entries j depth'

/-- The node is so many levels below the other one. -/
inductive Node.Within : Node → Nat → Node → Prop
  | self {n : Node} : Within n 0 n
  | child {n c m : Node} {depth : Nat} (hc : c ∈ n.children) (h : Within c depth m) :
      Within n (depth + 1) m

variable {text : List Char} {lo hi first offset depth : Nat} {parent : Option Nat}
  {root n m a b c : Node} {xs : List Node}

namespace Node

theorem Within.snoc (h : n.Within depth m) (hc : c ∈ m.children) : n.Within (depth + 1) c := by
  induction h with
  | self => exact .child hc .self
  | child hchild _ ih => exact .child hchild (ih hc)

/-- The depth of a node in the tree is that of its entry. -/
theorem Numbered.nested (h : root.Numbered first parent n) :
    ∃ depth, root.Within depth n ∧ Nested root.entries (n.number first) depth := by
  induction h with
  | root => exact ⟨0, .self, .root Numbered.root.getElem? rfl⟩
  | child h hc ih =>
    obtain ⟨depth, hwithin, hnested⟩ := ih
    exact ⟨depth + 1, hwithin.snoc (mem_children_of_mem_numberedChildren hc),
      .child (h.child hc).getElem? rfl hnested⟩

theorem pathFrom_none
    (h : (n.numberedChildren first).find? (·.2.span.contains offset) = none) :
    n.pathFrom first offset = [n.number first] := by
  rw [pathFrom]
  split
  · rfl
  · rename_i hsome
    cases h.symm.trans hsome

theorem pathFrom_some {p : Nat × Node}
    (h : (n.numberedChildren first).find? (·.2.span.contains offset) = some p) :
    n.pathFrom first offset = n.number first :: p.2.pathFrom p.1 offset := by
  rw [pathFrom]
  split
  · rename_i hnone
    cases h.symm.trans hnone
  · rename_i hsome
    rw [Option.some.inj (h.symm.trans hsome)]

theorem length_pathFrom_pos : 0 < (n.pathFrom first offset).length := by
  rw [pathFrom]
  exact Nat.succ_pos _

/-- The last node of the path is around the offset, and as deep as the path is long. -/
theorem Numbered.getLast?_pathFrom (h : root.Numbered first parent n)
    (hnested : Nested root.entries (n.number first) depth) (hin : n.span.contains offset = true) :
    ∃ k e extra, (n.pathFrom first offset).getLast? = some k ∧ root.entries[k]? = some e ∧
      e.span.contains offset = true ∧ (n.pathFrom first offset).length = extra + 1 ∧
      Nested root.entries k (depth + extra) := by
  induction n using children_induction generalizing first parent depth with
  | h n ih =>
    cases hfind : (n.numberedChildren first).find? (·.2.span.contains offset) with
    | none =>
      rw [pathFrom_none hfind]
      exact ⟨_, _, 0, rfl, h.getElem?, hin, rfl, hnested⟩
    | some p =>
      have hmem := List.mem_of_find?_eq_some hfind
      have hchild := h.child hmem
      have hpin : p.2.span.contains offset = true :=
        List.find?_some (p := fun (q : Nat × Node) => q.2.span.contains offset) hfind
      obtain ⟨k, e, extra, hlast, he, hine, hlength, hdeep⟩ :=
        ih p.2 (mem_children_of_mem_numberedChildren hmem) hchild
          (.child hchild.getElem? rfl hnested) hpin
      rw [pathFrom_some hfind]
      refine ⟨k, e, extra + 1, ?_, he, hine, congrArg Nat.succ hlength, ?_⟩
      · rw [List.getLast?_cons, hlast]
        rfl
      · rwa [Nat.add_comm extra, ← Nat.add_assoc]

end Node

theorem Laid.child (h : Laid text lo [n] hi) (hc : c ∈ n.children) :
    Laid text n.span.start [c] n.span.stop := by
  obtain ⟨-, -, -, -, hinside⟩ := h.of_mem List.mem_cons_self
  obtain ⟨hstart, hstop, hlo, hhi, hbelow⟩ := hinside.of_mem hc
  exact .cons hstart hlo hhi hbelow (.nil hstop)

/-- Around a node all that it is below are around the offset as well. -/
theorem Laid.contains_of_within (h : Laid text lo [n] hi) (hm : n.Within depth m)
    (hin : m.span.contains offset = true) : n.span.contains offset = true := by
  induction hm generalizing lo hi with
  | self => exact hin
  | child hc _ ih =>
    have hchild := h.child hc
    obtain ⟨hstart, hstop⟩ := Span.contains_iff.1 (ih hchild hin)
    obtain ⟨hlo, hhi, -⟩ := hchild.of_mem List.mem_cons_self
    exact Span.contains_iff.2 ⟨Nat.le_trans hlo hstart, Nat.le_trans hstop hhi⟩

/-- At the beginning of such a node there is no other node in it. -/
theorem Node.Indented.depth_eq_zero (hindented : n.Indented) (h : Laid text lo [n] hi)
    (hstart : offset ≤ n.span.start) (hm : n.Within depth m)
    (hin : m.span.contains offset = true) : depth = 0 := by
  cases hm with
  | self => rfl
  | child hc hm =>
    have hbehind := hindented _ hc
    have hbegin := (Span.contains_iff.1 ((h.child hc).contains_of_within hm hin)).1
    omega

/-- Of some siblings around an offset all behind the first begin there. -/
theorem Laid.first_around {before after : List Node} (h : Laid text lo (before ++ a :: after) hi)
    (hapart : (before ++ a :: after).Pairwise Node.Apart)
    (hbefore : ∀ b ∈ before, b.span.contains offset = false) (ha : a.span.contains offset = true)
    (hc : c ∈ before ++ a :: after) (hin : c.span.contains offset = true) :
    c = a ∨ (offset ≤ c.span.start ∧ c.Indented) := by
  rcases List.mem_append.1 hc with hc | hc
  · cases (hbefore c hc).symm.trans hin
  · rcases List.mem_cons.1 hc with rfl | hc
    · exact Or.inl rfl
    · have hle := List.rel_of_pairwise_cons (List.pairwise_append.1 h.pairwise).2.1 hc
      have happart := List.rel_of_pairwise_cons (List.pairwise_append.1 hapart).2.1 hc
      have hstop := (Span.contains_iff.1 ha).2
      have hstart := (Span.contains_iff.1 hin).1
      refine Or.inr ⟨Nat.le_trans hstop hle, happart.resolve_left fun hlt => ?_⟩
      omega

/-- The path to an offset is as long as the way down to any node around it. -/
theorem Laid.lt_length_pathFrom (h : Laid text lo [n] hi) (first : Nat)
    (hspaced : ∀ m ∈ n.preorder, m.Spaced) (hm : n.Within depth m)
    (hin : m.span.contains offset = true) : depth < (n.pathFrom first offset).length := by
  induction n using Node.children_induction generalizing lo hi first depth with
  | h n ih =>
    cases hm with
    | self => exact Node.length_pathFrom_pos
    | @child _ c _ depth hc hm =>
      have hcin := (h.child hc).contains_of_within hm hin
      have hchildren := n.map_numberedChildren first
      cases hfind : (n.numberedChildren first).find? (·.2.span.contains offset) with
      | none =>
        rw [← hchildren] at hc
        obtain ⟨p, hp, rfl⟩ := List.mem_map.1 hc
        exact absurd hcin (List.find?_eq_none.1 hfind p hp)
      | some p =>
        rw [Node.pathFrom_some hfind, List.length_cons]
        obtain ⟨hpin, before, after, hsplit, hbefore⟩ := List.find?_eq_some_iff_append.1 hfind
        obtain ⟨-, -, -, -, hlaid⟩ := h.of_mem List.mem_cons_self
        have hapart := hspaced n Node.mem_preorder_self
        rw [hsplit, List.map_append, List.map_cons] at hchildren
        rw [Node.Spaced, ← hchildren] at hapart
        rw [← hchildren] at hlaid hc
        have hout : ∀ b ∈ before.map Prod.snd, b.span.contains offset = false :=
          List.forall_mem_map.2 fun q hq => by simpa using hbefore q hq
        rcases hlaid.first_around hapart hout hpin hc hcin with rfl | ⟨hstart, hindented⟩
        · have hp : p.2 ∈ n.children := hchildren ▸ hc
          have hbelow : ∀ m ∈ p.2.preorder, m.Spaced := fun m hm =>
            hspaced m (Node.mem_preorder_iff.2 (Or.inr ⟨p.2, hp, hm⟩))
          exact Nat.succ_lt_succ (ih p.2 hp (h.child hp) p.1 hbelow hm)
        · -- The way through a later sibling ends there, one step below this node.
          rw [hchildren] at hc
          rw [hindented.depth_eq_zero (h.child hc) hstart hm hin]
          exact Nat.succ_lt_succ Node.length_pathFrom_pos

/-- In every expression that is read a node is found around an offset just when the root is around
it, and the one that is found is a deepest of those around the offset. -/
theorem parse_pathAt_innermost {o : Options} {text : String} (h : parse o text = .ok n)
    (offset : Nat) : ((n.pathAt offset).getLast? = none ↔ n.span.contains offset = false) ∧
      ∀ k, (n.pathAt offset).getLast? = some k → Innermost n.entries offset k := by
  obtain ⟨hi, hlaid⟩ := parse_laid h
  have hspaced := (parse_spaced h).inside n List.mem_cons_self
  rw [List.getLast?_eq_none_iff]
  unfold Node.pathAt
  cases hroot : n.span.contains offset with
  | false => exact ⟨⟨fun _ => rfl, fun _ => rfl⟩, nofun⟩
  | true =>
    rw [if_pos rfl]
    have hpos : 0 < (n.pathFrom 0 offset).length := Node.length_pathFrom_pos
    refine ⟨⟨fun hnil => ?_, nofun⟩, fun k hk => ?_⟩
    · rw [hnil] at hpos
      cases hpos
    · have hnested : Nested n.entries (n.number 0) 0 := .root Node.Numbered.root.getElem? rfl
      obtain ⟨k', e, depth, hlast, he, hin, hlength, hdeep⟩ :=
        Node.Numbered.root.getLast?_pathFrom hnested hroot
      obtain rfl := Option.some.inj (hlast.symm.trans hk)
      rw [Nat.zero_add] at hdeep
      refine ⟨e, depth, he, hin, hdeep, fun j e' hj hin' => ?_⟩
      -- Every entry is that of a node below the root, and no way down is longer than the path.
      obtain ⟨f, parent, m, hm, rfl, rfl⟩ := Node.exists_numbered hj
      obtain ⟨depth', hwithin, hnested'⟩ := hm.nested
      have hlt := hlaid.lt_length_pathFrom 0 hspaced hwithin hin'
      rw [hlength] at hlt
      exact ⟨depth', Nat.le_of_lt_succ hlt, hnested'⟩

/-- Where a property meets an index and where two references meet. -/
theorem parse_pathAt_innermost_touching :
    ∃ n, parse .full "$(A[0])$(B)" = .ok n ∧ n.pathAt 3 = [7, 4, 3, 0] ∧
      Innermost n.entries 3 0 ∧ n.pathAt 7 = [7, 4] ∧ Innermost n.entries 7 4 := by
  have hread : (parse .full "$(A[0])$(B)").toOption.map
      (fun n => (n.pathAt 3, n.pathAt 7)) = some ([7, 4, 3, 0], [7, 4]) := by decide +kernel
  cases hparse : parse .full "$(A[0])$(B)" with
  | error e =>
    rw [hparse] at hread
    cases hread
  | ok n =>
    rw [hparse] at hread
    obtain ⟨hthree, hseven⟩ := Prod.mk.inj (Option.some.inj hread)
    exact ⟨n, rfl, hthree, (parse_pathAt_innermost hparse 3).2 0 (by rw [hthree]; rfl),
      hseven, (parse_pathAt_innermost hparse 7).2 4 (by rw [hseven]; rfl)⟩

end ProjectAnalysis.Expr
