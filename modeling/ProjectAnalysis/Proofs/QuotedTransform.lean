import ProjectAnalysis.Proofs.CapturedReference
import ProjectAnalysis.Proofs.ExpressionArena

/-! Which nodes of a tree stand inside the quoted transform of an item, and which items and metadata
a text may hold. A quoted transform comes first among the transforms of an item, so it stands at the
end of a chain of calls, each of which holds the transform before it. Metadata may stand in it even
where it may stand nowhere else. In a tree over a text a node that takes up some of that text stands
at one place, so it is not both in a quoted transform and outside of them. -/
namespace ProjectAnalysis.Expr

namespace Shape

variable {α : Type}

def isItem : Shape α → Bool
  | .item _ _ _ => true
  | _ => false

/-- A call of a function in the transforms of an item. -/
def isItemFunction : Shape α → Bool
  | .itemFunction _ _ _ => true
  | _ => false

def isMetadata : Shape α → Bool
  | .metadata _ _ => true
  | _ => false

/-- The transform of an item, or the transform before a call. -/
def transform? : Shape α → Option α
  | .item _ transform _ => transform
  | .itemFunction target _ _ => target
  | _ => none

/-- The children beside the transform. -/
def others : Shape α → List α
  | .item _ _ separator => separator.toList
  | .itemFunction _ function arguments => [function, arguments]
  | shape => shape.children

theorem children_eq (shape : Shape α) :
    shape.children = shape.transform?.toList ++ shape.others := by
  cases shape <;> rfl

end Shape

namespace Node

variable {n m t : Node}

theorem mem_children_iff : m ∈ n.children ↔ m ∈ n.shape.transform? ∨ m ∈ n.shape.others := by
  rw [children, Shape.children_eq, List.mem_append, Option.mem_toList, Option.mem_def]

theorem mem_children_of_transform? (h : n.shape.transform? = some t) : t ∈ n.children :=
  mem_children_iff.2 (Or.inl h)

theorem mem_children_of_others (h : m ∈ n.shape.others) : m ∈ n.children :=
  mem_children_iff.2 (Or.inr h)

/-- The transform that a chain of calls begins with. -/
def firstTransform? (n : Node) : Option Node :=
  if n.shape.isItemFunction then
    match _h : n.shape.transform? with
    | none => none
    | some t => t.firstTransform?
  else some n
termination_by sizeOf n
decreasing_by exact sizeOf_lt_of_mem_children (mem_children_of_transform? ‹_›)

/-- The quoted transform of an item. -/
def quotedTransform? (n : Node) : Option Node :=
  if n.shape.isItem then n.shape.transform?.bind firstTransform? else none

/-- The nodes of a tree but those of the quoted transforms of items. In a chain of calls what is no
call is the quoted transform. -/
def exposedIn (chain : Bool) (n : Node) : List Node :=
  if chain && !n.shape.isItemFunction then []
  else n :: ((n.shape.transform?.toList.attach.flatMap fun ⟨t, _⟩ =>
      t.exposedIn (chain || n.shape.isItem)) ++
    n.shape.others.attach.flatMap fun ⟨c, _⟩ => c.exposedIn false)
termination_by sizeOf n
decreasing_by
  · exact sizeOf_lt_of_mem_children (mem_children_of_transform? (Option.mem_toList.1 ‹_›))
  · exact sizeOf_lt_of_mem_children (mem_children_of_others ‹_›)

theorem firstTransform?_eq (n : Node) : n.firstTransform? =
    if n.shape.isItemFunction then n.shape.transform?.bind firstTransform? else some n := by
  rw [firstTransform?]
  cases n.shape.transform? <;> rfl

theorem exposedIn_eq (chain : Bool) (n : Node) : n.exposedIn chain =
    if chain && !n.shape.isItemFunction then []
    else n :: (n.shape.transform?.toList.flatMap (exposedIn (chain || n.shape.isItem)) ++
      n.shape.others.flatMap (exposedIn false)) := by
  have hflat (b : Bool) (xs : List Node) :
      (xs.attach.flatMap fun ⟨c, _⟩ => c.exposedIn b) = xs.flatMap (exposedIn b) := by
    rw [List.flatMap_subtype (g := exposedIn b) fun _ _ => rfl, List.unattach_attach]
  rw [exposedIn, hflat, hflat]

theorem mem_preorder_iff : m ∈ n.preorder ↔ m = n ∨ ∃ c ∈ n.children, m ∈ c.preorder := by
  rw [preorder_eq, List.mem_cons, List.mem_flatMap]

theorem mem_preorder_self : n ∈ n.preorder :=
  mem_preorder_iff.2 (Or.inl rfl)

theorem mem_preorder_trans (hm : m ∈ t.preorder) (ht : t ∈ n.preorder) : m ∈ n.preorder := by
  induction n using children_induction with
  | h n ih =>
    obtain rfl | ⟨c, hc, ht⟩ := mem_preorder_iff.1 ht
    · exact hm
    · exact mem_preorder_iff.2 (Or.inr ⟨c, hc, ih c hc ht⟩)

theorem sizeOf_le_of_mem_preorder (h : m ∈ n.preorder) : sizeOf m ≤ sizeOf n := by
  induction n using children_induction with
  | h n ih =>
    obtain rfl | ⟨c, hc, hm⟩ := mem_preorder_iff.1 h
    · exact Nat.le_refl _
    · exact Nat.le_trans (ih c hc hm) (Nat.le_of_lt (sizeOf_lt_of_mem_children hc))

theorem mem_preorder_of_firstTransform? (h : n.firstTransform? = some t) : t ∈ n.preorder := by
  induction n using children_induction with
  | h n ih =>
    rw [firstTransform?_eq] at h
    split at h
    · obtain ⟨c, hc, ht⟩ := Option.bind_eq_some_iff.1 h
      have hmem := mem_children_of_transform? hc
      exact mem_preorder_iff.2 (Or.inr ⟨c, hmem, ih c hmem ht⟩)
    · obtain rfl := Option.some.inj h
      exact mem_preorder_self

/-- The node stands in the quoted transform that the chain begins with, or in the one of an item. -/
def QuotedIn (chain : Bool) (n m : Node) : Prop :=
  (chain = true ∧ ∃ t, n.firstTransform? = some t ∧ m ∈ t.preorder) ∨
    ∃ item ∈ n.preorder, ∃ t, item.quotedTransform? = some t ∧ m ∈ t.preorder

theorem QuotedIn.mem_preorder {chain : Bool} (h : n.QuotedIn chain m) : m ∈ n.preorder := by
  obtain ⟨-, t, ht, hm⟩ | ⟨item, hitem, t, ht, hm⟩ := h
  · exact mem_preorder_trans hm (mem_preorder_of_firstTransform? ht)
  · unfold quotedTransform? at ht
    split at ht
    · obtain ⟨c, hc, ht⟩ := Option.bind_eq_some_iff.1 ht
      have hinside := mem_preorder_trans hm (mem_preorder_of_firstTransform? ht)
      have hbelow := mem_preorder_iff.2 (Or.inr ⟨c, mem_children_of_transform? hc, hinside⟩)
      exact mem_preorder_trans hbelow hitem
    · cases ht

/-- In a chain of calls what is no call is the quoted transform. -/
theorem quotedIn_of_quoted {chain : Bool} (hquoted : (chain && !n.shape.isItemFunction) = true)
    (h : m ∈ n.preorder) : n.QuotedIn chain m := by
  obtain ⟨hchain, hfunction⟩ := Bool.and_eq_true_iff.1 hquoted
  rw [Bool.not_eq_true'] at hfunction
  refine Or.inl ⟨hchain, n, ?_, h⟩
  rw [firstTransform?_eq, hfunction]
  rfl

/-- Any other node passes its chain on to its transform, and an item begins one. -/
theorem quotedIn_iff {chain : Bool} (hopen : (chain && !n.shape.isItemFunction) = false) :
    n.QuotedIn chain m ↔ (∃ t ∈ n.shape.transform?, t.QuotedIn (chain || n.shape.isItem) m) ∨
      ∃ c ∈ n.shape.others, c.QuotedIn false m := by
  have hbelow {c item : Node} (hc : c ∈ n.children) (hitem : item ∈ c.preorder) :
      item ∈ n.preorder :=
    mem_preorder_iff.2 (Or.inr ⟨c, hc, hitem⟩)
  constructor
  · rintro (⟨rfl, t, ht, hm⟩ | ⟨item, hitem, t, ht, hm⟩)
    · have hfunction : n.shape.isItemFunction = true := by simpa using hopen
      rw [firstTransform?_eq, if_pos hfunction] at ht
      obtain ⟨c, hc, ht⟩ := Option.bind_eq_some_iff.1 ht
      exact Or.inl ⟨c, hc, Or.inl ⟨rfl, t, ht, hm⟩⟩
    · obtain rfl | ⟨c, hc, hitem⟩ := mem_preorder_iff.1 hitem
      · unfold quotedTransform? at ht
        split at ht
        · rename_i hshape
          obtain ⟨c, hc, ht⟩ := Option.bind_eq_some_iff.1 ht
          exact Or.inl ⟨c, hc, Or.inl ⟨by rw [hshape, Bool.or_true], t, ht, hm⟩⟩
        · cases ht
      · rcases mem_children_iff.1 hc with hc | hc
        · exact Or.inl ⟨c, hc, Or.inr ⟨item, hitem, t, ht, hm⟩⟩
        · exact Or.inr ⟨c, hc, Or.inr ⟨item, hitem, t, ht, hm⟩⟩
  · rintro (⟨c, hc, ⟨hchain, t, ht, hm⟩ | ⟨item, hitem, hin⟩⟩ |
      ⟨c, hc, ⟨hchain, -⟩ | ⟨item, hitem, hin⟩⟩)
    · have hbind : n.shape.transform?.bind firstTransform? = some t :=
        Option.bind_eq_some_iff.2 ⟨c, hc, ht⟩
      cases hitem : n.shape.isItem with
      | true =>
        refine Or.inr ⟨n, mem_preorder_self, t, ?_, hm⟩
        rwa [quotedTransform?, if_pos hitem]
      | false =>
        rw [hitem, Bool.or_false] at hchain
        subst hchain
        have hfunction : n.shape.isItemFunction = true := by simpa using hopen
        refine Or.inl ⟨rfl, t, ?_, hm⟩
        rwa [firstTransform?_eq, if_pos hfunction]
    · exact Or.inr ⟨item, hbelow (mem_children_of_transform? hc) hitem, hin⟩
    · cases hchain
    · exact Or.inr ⟨item, hbelow (mem_children_of_others hc) hitem, hin⟩

theorem mem_exposedIn_iff {chain : Bool} (hopen : (chain && !n.shape.isItemFunction) = false) :
    m ∈ n.exposedIn chain ↔ m = n ∨
      (∃ t ∈ n.shape.transform?, m ∈ t.exposedIn (chain || n.shape.isItem)) ∨
      ∃ c ∈ n.shape.others, m ∈ c.exposedIn false := by
  rw [exposedIn_eq, hopen, if_neg Bool.false_ne_true]
  simp only [List.mem_cons, List.mem_append, List.mem_flatMap, Option.mem_toList, Option.mem_def]

theorem not_mem_exposedIn_of_quoted {chain : Bool}
    (hquoted : (chain && !n.shape.isItemFunction) = true) : m ∉ n.exposedIn chain := by
  rw [exposedIn_eq, if_pos hquoted]
  exact List.not_mem_nil

/-- What is not exposed stands in a quoted transform. -/
theorem exposedIn_or_quotedIn (chain : Bool) (h : m ∈ n.preorder) :
    m ∈ n.exposedIn chain ∨ n.QuotedIn chain m := by
  induction n using children_induction generalizing chain with
  | h n ih =>
    cases hopen : chain && !n.shape.isItemFunction with
    | true => exact Or.inr (quotedIn_of_quoted hopen h)
    | false =>
      rw [mem_exposedIn_iff hopen, quotedIn_iff hopen]
      obtain rfl | ⟨c, hc, hm⟩ := mem_preorder_iff.1 h
      · exact Or.inl (Or.inl rfl)
      · rcases mem_children_iff.1 hc with ht | hothers
        · rcases ih c hc (chain || n.shape.isItem) hm with hexposed | hquoted
          · exact Or.inl (Or.inr (Or.inl ⟨c, ht, hexposed⟩))
          · exact Or.inr (Or.inl ⟨c, ht, hquoted⟩)
        · rcases ih c hc false hm with hexposed | hquoted
          · exact Or.inl (Or.inr (Or.inr ⟨c, hothers, hexposed⟩))
          · exact Or.inr (Or.inr ⟨c, hothers, hquoted⟩)

theorem mem_preorder_of_exposedIn {chain : Bool} (h : m ∈ n.exposedIn chain) :
    m ∈ n.preorder := by
  induction n using children_induction generalizing chain with
  | h n ih =>
    cases hopen : chain && !n.shape.isItemFunction with
    | true => exact absurd h (not_mem_exposedIn_of_quoted hopen)
    | false =>
      rcases (mem_exposedIn_iff hopen).1 h with rfl | ⟨c, hc, hm⟩ | ⟨c, hc, hm⟩
      · exact mem_preorder_self
      · have hmem := mem_children_of_transform? hc
        exact mem_preorder_iff.2 (Or.inr ⟨c, hmem, ih c hmem hm⟩)
      · have hmem := mem_children_of_others hc
        exact mem_preorder_iff.2 (Or.inr ⟨c, hmem, ih c hmem hm⟩)

end Node

section
variable {text : List Char} {lo hi : Nat} {n m a b : Node} {xs : List Node}

theorem Laid.of_mem_preorder (h : Laid text n.span.start n.children n.span.stop)
    (hm : m ∈ n.preorder) : n.span.start ≤ m.span.start ∧ m.span.stop ≤ n.span.stop := by
  induction n using Node.children_induction with
  | h n ih =>
    obtain rfl | ⟨c, hc, hm⟩ := Node.mem_preorder_iff.1 hm
    · exact ⟨Nat.le_refl _, Nat.le_refl _⟩
    · obtain ⟨hlo, hhi, -, -, hinside⟩ := h.of_mem hc
      obtain ⟨hstart, hstop⟩ := ih c hc hinside hm
      exact ⟨Nat.le_trans hlo hstart, Nat.le_trans hstop hhi⟩

theorem Laid.apart (h : Laid text lo xs hi) (ha : a ∈ xs) (hb : b ∈ xs) :
    a = b ∨ a.span.stop ≤ b.span.start ∨ b.span.stop ≤ a.span.start := by
  have hpairs := List.pairwise_iff_getElem.1 h.pairwise
  obtain ⟨i, hi, rfl⟩ := List.getElem_of_mem ha
  obtain ⟨j, hj, rfl⟩ := List.getElem_of_mem hb
  rcases Nat.lt_trichotomy i j with hlt | rfl | hlt
  · exact Or.inr (Or.inl (hpairs i j hi hj hlt))
  · exact Or.inl rfl
  · exact Or.inr (Or.inr (hpairs j i hj hi hlt))

/-- A node that takes up some of the text stands at one place of the tree. -/
theorem Laid.not_quotedIn {chain : Bool} (h : Laid text n.span.start n.children n.span.stop)
    (hm : m.span.start < m.span.stop) (hexposed : m ∈ n.exposedIn chain) :
    ¬n.QuotedIn chain m := by
  induction n using Node.children_induction generalizing chain with
  | h n ih =>
    have hinside {c : Node} (hc : c ∈ n.children) :
        Laid text c.span.start c.children c.span.stop :=
      (h.of_mem hc).2.2.2.2
    have hapart {a b : Node} (ha : a ∈ n.children) (hb : b ∈ n.children)
        (hma : m ∈ a.preorder) (hmb : m ∈ b.preorder) : ¬a.span.stop ≤ b.span.start := by
      intro hle
      have hstop := ((hinside ha).of_mem_preorder hma).2
      have hstart := ((hinside hb).of_mem_preorder hmb).1
      omega
    have hordered := h.pairwise
    rw [Node.children, Shape.children_eq, List.pairwise_append] at hordered
    have htransform {t c : Node} (ht : t ∈ n.shape.transform?) (hc : c ∈ n.shape.others)
        (hmt : m ∈ t.preorder) : m ∉ c.preorder := fun hmc =>
      hapart (Node.mem_children_of_transform? ht) (Node.mem_children_of_others hc) hmt hmc
        (hordered.2.2 t (Option.mem_toList.2 ht) c hc)
    intro hquoted
    cases hopen : chain && !n.shape.isItemFunction with
    | true => exact Node.not_mem_exposedIn_of_quoted hopen hexposed
    | false =>
      rcases (Node.mem_exposedIn_iff hopen).1 hexposed with rfl | ⟨t, ht, hmt⟩ | ⟨c, hc, hmc⟩
      · -- A quoted transform stands below its item, so the node is larger than all in it.
        have hbelow : ∃ c ∈ m.children, m ∈ c.preorder := by
          rcases (Node.quotedIn_iff hopen).1 hquoted with ⟨c, hc, hin⟩ | ⟨c, hc, hin⟩
          · exact ⟨c, Node.mem_children_of_transform? hc, hin.mem_preorder⟩
          · exact ⟨c, Node.mem_children_of_others hc, hin.mem_preorder⟩
        obtain ⟨c, hc, hmc⟩ := hbelow
        have hsize := Node.sizeOf_le_of_mem_preorder hmc
        exact Nat.not_lt.2 hsize (Node.sizeOf_lt_of_mem_children hc)
      · -- Exposed below the transform: it is quoted there too, or it is in two of the children.
        have hmem := Node.mem_children_of_transform? ht
        have hpreorder := Node.mem_preorder_of_exposedIn hmt
        rcases (Node.quotedIn_iff hopen).1 hquoted with ⟨t', ht', hin⟩ | ⟨c, hc, hin⟩
        · obtain rfl := Option.mem_unique ht ht'
          exact ih t hmem (hinside hmem) hmt hin
        · exact htransform ht hc hpreorder hin.mem_preorder
      · have hmem := Node.mem_children_of_others hc
        have hpreorder := Node.mem_preorder_of_exposedIn hmc
        rcases (Node.quotedIn_iff hopen).1 hquoted with ⟨t, ht, hin⟩ | ⟨c', hc', hin⟩
        · exact htransform ht hc hin.mem_preorder hpreorder
        · have hmem' := Node.mem_children_of_others hc'
          rcases h.apart hmem hmem' with rfl | hle | hle
          · exact ih c hmem (hinside hmem) hmc hin
          · exact hapart hmem hmem' hpreorder hin.mem_preorder hle
          · exact hapart hmem' hmem hin.mem_preorder hpreorder hle

end

/-- A tree has no item where items are not read, and no metadata outside the quoted transforms of
items where metadata is not read. -/
structure AllowedIn (chain : Bool) (o : Options) (n : Node) : Prop where
  items : o.items = false → ∀ m ∈ n.preorder, m.shape.isItem = false
  metadata : o.metadata = false → ∀ m ∈ n.exposedIn chain, m.shape.isMetadata = false

/-- What may stand anywhere in a text. -/
abbrev Allowed (o : Options) (n : Node) : Prop :=
  AllowedIn false o n

/-- What may stand in the chain of transforms of an item. -/
abbrev AllowedTransform (o : Options) (n : Node) : Prop :=
  AllowedIn true o n

variable {o : Options} {n : Node}

theorem allowedIn_iff {chain : Bool} (h : (chain && !n.shape.isItemFunction) = false) :
    AllowedIn chain o n ↔
      ((n.shape.isItem = true → o.items = true) ∧ (n.shape.isMetadata = true → o.metadata = true)) ∧
      (∀ t ∈ n.shape.transform?, AllowedIn (chain || n.shape.isItem) o t) ∧
      ∀ c ∈ n.shape.others, Allowed o c := by
  have hitems : (∀ m ∈ n.preorder, m.shape.isItem = false) ↔ n.shape.isItem = false ∧
      (∀ t ∈ n.shape.transform?, ∀ m ∈ t.preorder, m.shape.isItem = false) ∧
      ∀ c ∈ n.shape.others, ∀ m ∈ c.preorder, m.shape.isItem = false := by
    rw [Node.preorder_eq, Node.children, Shape.children_eq]
    simp only [List.forall_mem_cons, List.flatMap_append, List.forall_mem_append,
      List.forall_mem_flatMap, Option.mem_toList, Option.mem_def]
  have hmetadata : (∀ m ∈ n.exposedIn chain, m.shape.isMetadata = false) ↔
      n.shape.isMetadata = false ∧
      (∀ t ∈ n.shape.transform?, ∀ m ∈ t.exposedIn (chain || n.shape.isItem),
        m.shape.isMetadata = false) ∧
      ∀ c ∈ n.shape.others, ∀ m ∈ c.exposedIn false, m.shape.isMetadata = false := by
    rw [Node.exposedIn_eq, h, if_neg Bool.false_ne_true]
    simp only [List.forall_mem_cons, List.forall_mem_append, List.forall_mem_flatMap,
      Option.mem_toList, Option.mem_def]
  have hgate {p q : Bool} : (p = true → q = true) ↔ (q = false → p = false) := by
    cases p <;> cases q <;> simp
  constructor
  · rintro ⟨hi, hm⟩
    rw [hitems] at hi
    rw [hmetadata] at hm
    refine ⟨⟨hgate.2 fun ho => (hi ho).1, hgate.2 fun ho => (hm ho).1⟩, fun t ht => ?_,
      fun c hc => ?_⟩
    · exact ⟨fun ho => (hi ho).2.1 t ht, fun ho => (hm ho).2.1 t ht⟩
    · exact ⟨fun ho => (hi ho).2.2 c hc, fun ho => (hm ho).2.2 c hc⟩
  · rintro ⟨⟨hi, hm⟩, ht, hc⟩
    refine ⟨fun ho => hitems.2 ⟨hgate.1 hi ho, ?_, ?_⟩,
      fun ho => hmetadata.2 ⟨hgate.1 hm ho, ?_, ?_⟩⟩
    · exact fun t hmem => (ht t hmem).items ho
    · exact fun c hmem => (hc c hmem).items ho
    · exact fun t hmem => (ht t hmem).metadata ho
    · exact fun c hmem => (hc c hmem).metadata ho

/-- The quoted transform may hold metadata. -/
theorem allowedTransform_quoted (h : n.shape.isItemFunction = false) :
    AllowedTransform o n ↔ Allowed { o with metadata := true } n := by
  have hexposed : n.exposedIn true = [] := by
    rw [Node.exposedIn_eq, h]
    rfl
  constructor
  · exact fun hn => ⟨hn.items, nofun⟩
  · refine fun hn => ⟨hn.items, fun _ => ?_⟩
    rw [hexposed]
    exact List.forall_mem_nil _

/-- Some nodes of which each may stand in a text. -/
def AllowedAll (o : Options) (nodes : List Node) : Prop :=
  ∀ a ∈ nodes, Allowed o a

section
variable {span : Span} {nodes more : List Node}

theorem allowedAll_nil : AllowedAll o [] :=
  List.forall_mem_nil _

theorem allowedAll_singleton : AllowedAll o [n] ↔ Allowed o n :=
  List.forall_mem_singleton

theorem allowedAll_append : AllowedAll o (nodes ++ more) ↔ AllowedAll o nodes ∧ AllowedAll o more :=
  List.forall_mem_append

theorem allowedAll_cons : AllowedAll o (n :: nodes) ↔ Allowed o n ∧ AllowedAll o nodes :=
  List.forall_mem_cons

theorem allowedAll_toList {found : Option Node} :
    AllowedAll o found.toList ↔ ∀ a ∈ found, Allowed o a := by
  simp [AllowedAll]

theorem allowed_children (hitem : n.shape.isItem = false) (hmetadata : n.shape.isMetadata = false) :
    Allowed o n ↔ AllowedAll o n.children := by
  refine (allowedIn_iff rfl).trans ?_
  rw [hitem, hmetadata, Node.children, Shape.children_eq, allowedAll_append, allowedAll_toList]
  simp [AllowedAll]

theorem allowed_leaf (hitem : n.shape.isItem = false) (hmetadata : n.shape.isMetadata = false)
    (hleaf : n.children = []) : Allowed o n := by
  rw [allowed_children hitem hmetadata, hleaf]
  exact allowedAll_nil

theorem allowed_item {name : String} {transform separator : Option Node} :
    Allowed o (.mk span (.item name transform separator)) ↔ (o.items = true ∧
      ∀ t ∈ transform, AllowedTransform o t) ∧ ∀ s ∈ separator, Allowed o s := by
  refine (allowedIn_iff rfl).trans ?_
  simp [Node.shape, Shape.isItem, Shape.isMetadata, Shape.transform?, Shape.others, and_assoc]

theorem allowed_metadata {owner : Option String} {name : String} :
    Allowed o (.mk span (.metadata owner name)) ↔ o.metadata = true := by
  refine (allowedIn_iff rfl).trans ?_
  simp [Node.shape, Shape.isItem, Shape.isMetadata, Shape.transform?, Shape.others, Shape.children]

theorem allowedTransform_function {target : Option Node} {function arguments : Node} :
    AllowedTransform o (.mk span (.itemFunction target function arguments)) ↔
      ((∀ t ∈ target, AllowedTransform o t) ∧ Allowed o function) ∧ Allowed o arguments := by
  refine (allowedIn_iff rfl).trans ?_
  simp [Node.shape, Shape.isItem, Shape.isMetadata, Shape.transform?, Shape.others, and_assoc]

theorem allowed_invocation {target : Node} {function arguments : Option Node} :
    Allowed o (.mk span (.invocation target function arguments)) ↔
      (Allowed o target ∧ ∀ f ∈ function, Allowed o f) ∧ ∀ a ∈ arguments, Allowed o a := by
  refine (allowed_children rfl rfl).trans ?_
  change AllowedAll o (target :: (function.toList ++ arguments.toList)) ↔ _
  rw [allowedAll_cons, allowedAll_append, allowedAll_toList, allowedAll_toList, and_assoc]

/-- Parts of a text may stand there as one node if each of them may. -/
theorem allowed_joined {q : Bool} : Allowed o (joined span q nodes) ↔ AllowedAll o nodes := by
  unfold joined
  split
  · exact allowed_children rfl rfl
  · exact allowedAll_singleton.symm
  · exact allowed_children rfl rfl

end

/-- Calls stand in chains of transforms only. -/
theorem Spells.not_itemFunction {c d : Cursor} (h : Spells o .quoted c [n] d) :
    n.shape.isItemFunction = false := by
  cases h with
  | @quoted _ _ _ e q _ _ _ _ _ hparts _ =>
    let span : Span := ⟨c.offset + q.utf8Size, e.offset⟩
    rcases hparts.shape_joined span with ⟨value, h⟩ | ⟨parts, h⟩ | hreference
    · rw [h]
      rfl
    · rw [h]
      rfl
    · revert hreference
      cases (joined span true _).shape <;> first | exact fun _ => rfl | exact nofun

end ProjectAnalysis.Expr
