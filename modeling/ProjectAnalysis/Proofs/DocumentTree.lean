import ProjectAnalysis.Proofs.DraftFault

/-! Whatever is read as a document, its elements make up one tree: listed in preorder, each linked
with its parent and its children, and each standing in the text inside its parent and behind its
siblings. -/
namespace ProjectAnalysis.Xml

open ProjectAnalysis.Expr (Inside)

/-- The pieces of a text that are taken in when it is read as a document. -/
def piecesOf (text : String) : List SourcePiece :=
  (Draft.start text.toList).piecesTaken (firstPiece text.toList)

/-- Every subtree of a document, in the order of the opening tags. -/
def Document.subtrees (d : Document) : List Subtree :=
  Tree.allSubtrees [] d.root.toList

/-- The numbers of some trees in preorder: the first one, all below it, and so on. -/
inductive Visits (arena : List Placed) : List Nat → List Nat → Prop
  | nil : Visits arena [] []
  | cons {i : Nat} {p : Placed} {is below more : List Nat} (hi : arena[i]? = some p)
      (children : Visits arena p.children below) (rest : Visits arena is more) :
      Visits arena (i :: is) (i :: below ++ more)

/-- The elements are one tree in preorder over a text of some width. -/
structure PreorderArena (width : Nat) (root : Option Element) (arena : List Placed) : Prop where
  numbered : arena.map (·.element.id) = List.range arena.length
  /-- The root has the number zero, and there is one as soon as there are elements. -/
  rooted : root = arena[0]?.map (·.element)
  /-- From the root down every number is visited once, and they are visited in order. -/
  visits : Visits arena (root.map (·.id)).toList (List.range arena.length)
  linked : ∀ c ∈ arena, ∀ p ∈ arena,
    c.parent = some p.element.id ↔ c.element.id ∈ p.children
  /-- Every element but the root is a child of just one element, which has a smaller number. -/
  parent : ∀ c ∈ arena, c.element.id ≠ 0 → ∃ p ∈ arena, c.parent = some p.element.id ∧
    p.element.id < c.element.id ∧ ∀ q ∈ arena, c.element.id ∈ q.children → q = p
  parentless : ∀ c ∈ arena, c.element.id = 0 → c.parent = none
  increasing : ∀ p ∈ arena, p.children.Pairwise (· < ·)
  nested : ∀ c ∈ arena, ∀ p ∈ arena, c.parent = some p.element.id →
    p.element.span.start ≤ c.element.span.start ∧ c.element.span.stop ≤ p.element.span.stop
  ordered : ∀ a ∈ arena, ∀ b ∈ arena, a.parent = b.parent → a.element.id < b.element.id →
    a.element.span.stop ≤ b.element.span.start
  starts : arena.Pairwise fun a b => a.element.span.start < b.element.span.start
  spans : ∀ p ∈ arena, p.element.span.start ≤ p.element.span.stop ∧ p.element.span.stop ≤ width
  names : ∀ p ∈ arena, p.element.span.start ≤ p.element.nameSpan.start ∧
    p.element.nameSpan.start ≤ p.element.nameSpan.stop ∧
    p.element.nameSpan.stop ≤ p.element.span.stop
  attributes : ∀ p ∈ arena, ∀ a ∈ p.element.attributes,
    p.element.span.start ≤ a.span.start ∧ a.span.start ≤ a.span.stop ∧
    a.span.stop ≤ p.element.span.stop

section
variable {P : Tree → Prop} {n m lo hi : Nat} {ts us : List Tree} {t : Tree} {s q : Subtree}
  {arena : List Placed}

mutual

theorem visits_below (above : List Element) (t : Tree)
    (h : ∀ s ∈ t.subtrees above, arena[s.element.id]? = some s.placed) :
    Visits arena (t.children.map (·.root.id)) ((Tree.allElements t.children).map (·.id)) := by
  match t with
  | .node e children =>
    rw [Tree.subtrees] at h
    exact visits_all (above ++ [e]) children (List.forall_mem_cons.1 h).2

/-- Trees that are listed by their numbers are visited as they are listed. -/
theorem visits_all (above : List Element) (ts : List Tree)
    (h : ∀ s ∈ Tree.allSubtrees above ts, arena[s.element.id]? = some s.placed) :
    Visits arena (ts.map (·.root.id)) ((Tree.allElements ts).map (·.id)) := by
  match ts with
  | [] => exact .nil
  | t :: ts =>
    rw [Tree.allSubtrees] at h
    obtain ⟨hfirst, hmore⟩ := List.forall_mem_append.1 h
    have hvisits := Visits.cons (hfirst _ (t.mem_subtrees_self above))
      (visits_below above t hfirst) (visits_all above ts hmore)
    rw [Tree.allElements, t.elements_cons, List.map_append]
    exact hvisits

end

theorem InOrder.ids_eq_range (h : InOrder P 0 lo ts n hi) :
    (Tree.allElements ts).map (·.id) = List.range (Tree.allSubtrees [] ts).length := by
  have hids := h.ids
  have hlength := congrArg List.length hids
  rw [Tree.allElements_eq [], List.length_map, List.length_map, List.length_range'] at hlength
  rw [hids, hlength, List.range_eq_range', Nat.sub_zero]

/-- In trees that are numbered from zero on a subtree is where its number says. -/
theorem InOrder.getElem?_subtree (h : InOrder P 0 lo ts n hi) (hs : s ∈ Tree.allSubtrees [] ts) :
    (Tree.allSubtrees [] ts)[s.element.id]? = some s := by
  have hids := h.ids_eq_range
  rw [Tree.allElements_eq [], List.map_map] at hids
  obtain ⟨k, hk⟩ := List.mem_iff_getElem?.1 hs
  have hnumber : (List.range (Tree.allSubtrees [] ts).length)[k]? = some s.element.id := by
    rw [← hids, List.getElem?_map, hk]
    rfl
  obtain ⟨hlt, heq⟩ := List.getElem?_eq_some_iff.1 hnumber
  rw [List.getElem_range] at heq
  subst heq
  exact hk

/-- Subtrees with the same number are the same. -/
theorem InOrder.subtree_unique (h : InOrder P 0 lo ts n hi) (hs : s ∈ Tree.allSubtrees [] ts)
    (hq : q ∈ Tree.allSubtrees [] ts) (hid : s.element.id = q.element.id) : s = q := by
  have hsame := h.getElem?_subtree hs
  rw [hid, h.getElem?_subtree hq] at hsame
  exact (Option.some.inj hsame).symm

theorem InOrder.parent_iff (h : InOrder P 0 lo ts n hi) (hs : s ∈ Tree.allSubtrees [] ts)
    (hq : q ∈ Tree.allSubtrees [] ts) :
    s.placed.parent = some q.element.id ↔ s.above = q.path ∧ s.tree ∈ q.tree.children := by
  constructor
  · intro hparent
    rcases Tree.allSubtrees_parent [] ts hs with ⟨habove, -⟩ | ⟨r, hr, habove, hmem⟩
    · rw [Subtree.placed, habove] at hparent
      cases hparent
    · rw [Subtree.placed, habove, Subtree.path, List.getLast?_concat] at hparent
      obtain rfl := h.subtree_unique hr hq (Option.some.inj hparent)
      exact ⟨habove, hmem⟩
  · rintro ⟨habove, -⟩
    rw [Subtree.placed, habove, Subtree.path, List.getLast?_concat]
    rfl

theorem InOrder.child_iff (h : InOrder P 0 lo ts n hi) (hs : s ∈ Tree.allSubtrees [] ts)
    (hq : q ∈ Tree.allSubtrees [] ts) :
    s.element.id ∈ q.placed.children ↔ s.above = q.path ∧ s.tree ∈ q.tree.children := by
  constructor
  · intro hchild
    obtain ⟨t, ht, hid⟩ := List.mem_map.1 hchild
    obtain rfl := h.subtree_unique hs (Tree.allSubtrees_children [] ts hq t ht) hid.symm
    exact ⟨rfl, ht⟩
  · rintro ⟨-, hmem⟩
    exact List.mem_map.2 ⟨s.tree, hmem, rfl⟩

theorem Subtree.element_of_path (h : s.path = q.path) : s.element = q.element := by
  have hlast := congrArg List.getLast? h
  rw [path, path, List.getLast?_concat, List.getLast?_concat] at hlast
  exact Option.some.inj hlast

/-- What is below an element has greater numbers and stands inside it. -/
theorem InOrder.child_within (h : InOrder P n lo ts m hi) (hq : q ∈ Tree.allSubtrees [] ts)
    (hs : s.tree ∈ q.tree.children) : q.element.id < s.element.id ∧
      q.element.span.start ≤ s.element.span.start ∧ s.element.span.stop ≤ q.element.span.stop := by
  obtain ⟨-, k, hinside⟩ := h.subtree hq
  have hroot := Tree.root_mem hs
  have hid := (hinside.id_range hroot).1
  obtain ⟨hstart, -, hstop⟩ := hinside.within _ hroot
  exact ⟨hid, Nat.le_of_succ_le hstart, hstop⟩

/-- Of two siblings the one with the smaller number stands before the other one. -/
theorem InOrder.siblings (h : InOrder P n lo ts m hi) : ∀ t ∈ ts, ∀ u ∈ ts,
    t.root.id < u.root.id → t.root.span.stop ≤ u.root.span.start := by
  have hpairs := h.pairwise
  refine fun t ht u hu => List.Pairwise.forall_of_forall_of_flip
    (R := fun t u : Tree => t.root.id < u.root.id → t.root.span.stop ≤ u.root.span.start)
    (fun t _ hlt => absurd hlt (Nat.lt_irrefl _)) (hpairs.imp fun h _ => h.2)
    (hpairs.imp fun h hlt => absurd hlt (Nat.lt_asymm h.1)) ht hu

/-- The name and the attributes of the element stand in it. -/
structure Element.Framed (e : Element) : Prop where
  name : e.span.start ≤ e.nameSpan.start ∧ e.nameSpan.start ≤ e.nameSpan.stop ∧
    e.nameSpan.stop ≤ e.span.stop
  attributes : ∀ a ∈ e.attributes,
    e.span.start ≤ a.span.start ∧ a.span.start ≤ a.span.stop ∧ a.span.stop ≤ e.span.stop

variable {root : Option Tree} {width : Nat}

theorem InOrder.root_id (h : InOrder P 0 lo root.toList n hi) (ht : t ∈ root.toList) :
    t.root.id = 0 := by
  obtain rfl := Option.mem_toList.1 ht
  cases h with
  | cons hid _ _ _ _ => exact hid

theorem InOrder.preorderArena (h : InOrder P 0 0 root.toList n width)
    (hframed : ∀ t, P t → t.root.Framed) : PreorderArena width (root.map Tree.root)
      ((Tree.allSubtrees [] root.toList).map Subtree.placed) where
  numbered := by
    have hids := h.ids_eq_range
    rw [Tree.allElements_eq [], List.map_map] at hids
    rw [List.map_map, List.length_map]
    exact hids
  rooted := by
    cases root with
    | none => rfl
    | some t =>
      change _ = ((Tree.subtrees [] t ++ []).map Subtree.placed)[0]?.map _
      rw [List.append_nil, Tree.subtrees_eq]
      rfl
  visits := by
    have hplaced : ∀ s ∈ Tree.allSubtrees [] root.toList,
        ((Tree.allSubtrees [] root.toList).map Subtree.placed)[s.element.id]? = some s.placed := by
      intro s hs
      rw [List.getElem?_map, h.getElem?_subtree hs, Option.map_some]
    have hvisits := visits_all [] root.toList hplaced
    rw [h.ids_eq_range, ← List.length_map (f := Subtree.placed)] at hvisits
    cases root with
    | none => exact hvisits
    | some t => exact hvisits
  -- A number belongs to one subtree, so links by number are links between subtrees.
  linked := by
    simp only [List.forall_mem_map]
    exact fun s hs q hq => (h.parent_iff hs hq).trans (h.child_iff hs hq).symm
  parent := by
    simp only [List.forall_mem_map]
    intro s hs hid
    rcases Tree.allSubtrees_parent [] _ hs with ⟨-, hroot⟩ | ⟨q, hq, hlink⟩
    · exact absurd (h.root_id hroot) hid
    · refine ⟨q.placed, List.mem_map_of_mem hq, (h.parent_iff hs hq).2 hlink,
        (h.child_within hq hlink.2).1, ?_⟩
      intro r hr hchild
      have hpath := ((h.child_iff hs hr).1 hchild).1.symm.trans hlink.1
      rw [h.subtree_unique hr hq (congrArg Element.id (Subtree.element_of_path hpath))]
  parentless := by
    simp only [List.forall_mem_map]
    intro s hs hid
    rcases Tree.allSubtrees_parent [] _ hs with ⟨habove, -⟩ | ⟨q, hq, hlink⟩
    · rw [Subtree.placed, habove]
      rfl
    · have hlt := (h.child_within hq hlink.2).1
      exact absurd (hid ▸ hlt) (Nat.not_lt_zero _)
  increasing := by
    simp only [List.forall_mem_map]
    intro s hs
    obtain ⟨-, k, hinside⟩ := h.subtree hs
    exact List.pairwise_map.2 (hinside.pairwise.imp And.left)
  nested := by
    simp only [List.forall_mem_map]
    intro s hs q hq hparent
    exact (h.child_within hq ((h.parent_iff hs hq).1 hparent).2).2
  ordered := by
    simp only [List.forall_mem_map]
    intro s hs r hr hparent hlt
    rcases Tree.allSubtrees_parent [] _ hs with ⟨habove, hroot⟩ | ⟨q, hq, hlink⟩
    · rcases Tree.allSubtrees_parent [] _ hr with ⟨-, hroot'⟩ | ⟨q, hq, hlink⟩
      · rw [show s.placed.element.id = 0 from h.root_id hroot,
          show r.placed.element.id = 0 from h.root_id hroot'] at hlt
        exact absurd hlt (Nat.lt_irrefl 0)
      · rw [(h.parent_iff hr hq).2 hlink, Subtree.placed, habove] at hparent
        cases hparent
    · obtain ⟨-, k, hinside⟩ := h.subtree hq
      have hr' := (h.parent_iff hr hq).1 (hparent ▸ (h.parent_iff hs hq).2 hlink)
      exact hinside.siblings _ hlink.2 _ hr'.2 hlt
  starts := by
    have hstarts := h.starts
    rw [Tree.allElements_eq [], List.pairwise_map] at hstarts
    exact List.pairwise_map.2 hstarts
  spans := by
    simp only [List.forall_mem_map]
    intro s hs
    have hmem : s.element ∈ Tree.allElements root.toList :=
      Tree.allElements_eq [] _ ▸ List.mem_map_of_mem hs
    obtain ⟨-, hlt, hstop⟩ := h.within _ hmem
    exact ⟨Nat.le_of_lt hlt, hstop⟩
  names := by
    simp only [List.forall_mem_map]
    exact fun s hs => (hframed _ (h.subtree hs).1).name
  attributes := by
    simp only [List.forall_mem_map]
    exact fun s hs => (hframed _ (h.subtree hs).1).attributes

end

theorem Document.placed_eq (d : Document) : d.placed = d.subtrees.map Subtree.placed := by
  unfold placed subtrees
  cases d.root with
  | none => rfl
  | some t =>
    have hplaced := t.placed_eq []
    change t.placed none [] = ((t.subtrees []) ++ []).map Subtree.placed
    rw [List.append_nil]
    exact hplaced

theorem Document.elements_eq (d : Document) : d.elements = d.subtrees.map Subtree.element := by
  unfold elements subtrees
  cases d.root with
  | none => rfl
  | some t =>
    change t.elements = ((t.subtrees []) ++ []).map Subtree.element
    rw [List.append_nil]
    exact t.elements_eq []

section
variable {text : List Char} {all : List SourcePiece} {clean : Prop} {t : Tree} {f : Fault}

theorem Tree.Closed.framed (h : t.Closed text all clean) : t.root.Framed := by
  obtain ⟨tag, span, hstands, hstart, hstop, -, hname, hattributes⟩ := h.standsAt
  obtain ⟨raw, hslice, hread⟩ := hstands.read
  obtain ⟨-, -, -, -, hwidth⟩ := Span.split_of_slice? hslice
  obtain ⟨hlo, hle⟩ := hread.name_range
  have hhi := hread.name_stop
  dsimp only at hlo hhi
  refine ⟨?_, fun a ha => ?_⟩
  · rw [hname, hstart]
    omega
  · rw [hattributes] at ha
    obtain ⟨_, _, _, _, -, -, -, hspan, -⟩ := hread.attributes.written a ha
    obtain ⟨-, -, -, -, hwide⟩ := Span.split_of_slice? hspan
    obtain ⟨hfirst, hlast⟩ := hread.attributes.within a ha
    dsimp only at hlast
    rw [hstart]
    omega

theorem firstPiece_cases (text : List Char) : firstPiece text = ⟨0, text⟩ ∨
    ∃ rest, text = '\uFEFF' :: rest ∧ firstPiece text = ⟨0, rest⟩ := by
  unfold firstPiece
  split
  · exact Or.inr ⟨_, rfl, rfl⟩
  · exact Or.inl rfl

theorem firstPiece_range (text : List Char) : (firstPiece text).offset = 0 ∧
    byteLength (firstPiece text).rest ≤ byteLength text := by
  rcases firstPiece_cases text with h | ⟨rest, rfl, h⟩
  · rw [h]
    exact ⟨rfl, Nat.le_refl _⟩
  · rw [h]
    exact ⟨rfl, Nat.le_add_left _ _⟩

theorem firstPiece_eq (h : text.head? ≠ some '\uFEFF') : firstPiece text = ⟨0, text⟩ := by
  refine (firstPiece_cases text).resolve_right ?_
  rintro ⟨rest, rfl, -⟩
  exact h rfl

/-- Only behind a byte order mark the offsets of the pieces do not fit the text. -/
theorem inside_firstPiece (h : text.head? ≠ some '\uFEFF') : Inside text (firstPiece text) :=
  firstPiece_eq h ▸ Expr.inside_ofText text

end

section
variable (text : String)

theorem sound_start (all : List SourcePiece) (clean : Prop) :
    (Draft.start text.toList).Sound text.toList all clean (firstPiece text.toList).offset := by
  refine ⟨rfl, ?_⟩
  rw [(firstPiece_range _).1]
  exact .bottom (.nil (Nat.le_refl 0))

theorem faultless_addAll {text : String} (h : (Document.ofText text).faults = []) :
    ((Draft.start text.toList).addAll (firstPiece text.toList)).faults = [] := by
  rcases Draft.finish_faults _ text with heq | ⟨cause, -, heq⟩
  · exact heq.symm.trans h
  · exact absurd (heq.symm.trans h) (by simp)

/-- The pieces that are taken in lie side by side in the text. -/
theorem tiles_piecesOf : ∃ stop, Tiles 0 (piecesOf text) stop ∧ stop ≤ byteLength text.toList := by
  obtain ⟨d, hreach, htiles, -⟩ :=
    (Draft.start text.toList).tiles_piecesTaken (firstPiece text.toList)
  obtain ⟨hzero, hwidth⟩ := firstPiece_range text.toList
  have hend := (Cursor.Reaches.within hreach).2
  rw [hzero] at htiles hend
  exact ⟨d.offset, htiles, by omega⟩

/-- The elements of a document are in order, whatever the text is. -/
theorem inOrder_ofText : ∃ n, InOrder
    (Tree.Closed text.toList (piecesOf text) ((Document.ofText text).faults = [])) 0 0
    (Document.ofText text).root.toList n (byteLength text.toList) := by
  obtain ⟨stop, htiles, hstop⟩ := tiles_piecesOf text
  obtain ⟨o, hsound, ho⟩ :=
    Draft.sound_addAll _ _ (sound_start text _ _) htiles (fun _ hs => hs) faultless_addAll
  rw [(firstPiece_range _).1] at ho
  obtain rfl := htiles.stop_unique ho
  exact hsound.finish htiles hstop text

/-- The faults of a document stand in the text, and a tag can only be misplaced behind a byte order
mark. -/
theorem faults_ofText : ∀ f ∈ (Document.ofText text).faults, f.span.start ≤ f.span.stop ∧
    f.span.stop ≤ byteLength text.toList ∧
    (f.cause = .misplacedTag → text.toList.head? = some '\uFEFF') := by
  obtain ⟨stop, htiles, -⟩ := tiles_piecesOf text
  obtain ⟨hzero, hwidth⟩ := firstPiece_range text.toList
  have hrun := Draft.addAll_blames _ _ (sound_start text (piecesOf text) False) htiles
    (fun _ hs => hs) rfl
  obtain ⟨_, hsound, -⟩ :=
    Draft.sound_addAll _ _ (sound_start text (piecesOf text) False) htiles (fun _ hs => hs) nofun
  have hread : ∀ f ∈ ((Draft.start text.toList).addAll (firstPiece text.toList)).faults,
      f.span.start ≤ f.span.stop ∧ f.span.stop ≤ byteLength text.toList ∧
        (f.cause = .misplacedTag → text.toList.head? = some '\uFEFF') := by
    intro f hf
    rcases hrun f hf with ⟨hcause, -, hle, hstop⟩ | ⟨-, -, hle, hstop, hinside⟩
    · exact ⟨hle, by omega, fun h => absurd h hcause⟩
    · exact ⟨hle, by omega, fun _ => not_not.1 fun h => hinside (inside_firstPiece h)⟩
  rcases Draft.finish_faults ((Draft.start text.toList).addAll (firstPiece text.toList)) text with
    heq | ⟨cause, hcause, heq⟩
  · exact fun f hf => hread f (heq ▸ hf)
  · intro f hf
    rcases List.mem_append.1 (heq ▸ hf : f ∈ _ ++ [_]) with hf | hf
    · exact hread f hf
    · obtain rfl := List.mem_singleton.1 hf
      rw [hsound.source]
      exact ⟨Nat.le_refl _, Nat.le_refl _, fun h => absurd h hcause⟩

/-- Whatever the text is, the elements that are read from it are one tree over it and the faults
are in it, and reading is given up only behind a byte order mark. -/
theorem document_preorderArena : PreorderArena (byteLength text.toList)
      (Document.ofText text).rootElement? (Document.ofText text).placed ∧
    (∀ f ∈ (Document.ofText text).faults,
      f.span.start ≤ f.span.stop ∧ f.span.stop ≤ byteLength text.toList) ∧
    ((Document.ofText text).isGivenUp = true → text.toList.head? = some '\uFEFF') := by
  obtain ⟨n, h⟩ := inOrder_ofText text
  have hfaults := faults_ofText text
  refine ⟨?_, fun f hf => ⟨(hfaults f hf).1, (hfaults f hf).2.1⟩, fun hgiven => ?_⟩
  · rw [Document.placed_eq]
    exact h.preorderArena fun t ht => ht.framed
  · obtain ⟨f, hf, hcause⟩ := List.any_eq_true.1 hgiven
    exact (hfaults f hf).2.2 (eq_of_beq hcause)

end

end ProjectAnalysis.Xml
