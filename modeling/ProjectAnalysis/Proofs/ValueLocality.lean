import ProjectAnalysis.Proofs.WalkPlace

/-! What one value does to a walk. What an element is and which item it is in are told by names
alone, so a value bears on nothing but its own events: with another one in its place, whatever the
two are, all that is met before and behind them stays. -/
namespace ProjectAnalysis

open Xml (Element Tree Document Subtree OffsetMap)
open Descriptor (ofPath)

namespace Xml

def Attribute.outline (a : Attribute) : Attribute :=
  { a with value := "", map := .empty }

def Content.outline (c : Content) : Content :=
  { c with value := "", map := .empty }

namespace Element

/-- The element without its values. -/
def outline (e : Element) : Element :=
  { e with attributes := e.attributes.map Attribute.outline
           content := e.content.map Content.outline }

/-- The element with another value at one place. -/
def withValue (e : Element) (value : String) (map : OffsetMap) : ValueSlot → Element
  | .attribute i =>
    { e with attributes := e.attributes.modify i fun a => { a with value := value, map := map } }
  | .content => { e with content := e.content.map fun c => { c with value := value, map := map } }

end Element

namespace Tree

/-- The subtree that is reached when at each step the child with this number is entered. -/
def at? : List Nat → List Element → Tree → Option Subtree
  | [], above, t => some ⟨above, t⟩
  | i :: place, above, .node e children => children[i]?.bind (at? place (above ++ [e]))

/-- The tree with the element at a place changed. -/
def modifyAt (change : Element → Element) : List Nat → Tree → Tree
  | [], .node e children => .node (change e) children
  | i :: place, .node e children => .node e (children.modify i (modifyAt change place))

end Tree

namespace Document

def at? (doc : Document) (place : List Nat) : Option Subtree :=
  doc.root.bind (Tree.at? place [])

/-- The document with another value in the element at a place. -/
def withValue (doc : Document) (place : List Nat) (slot : ValueSlot) (value : String)
    (map : OffsetMap) : Document :=
  { doc with root := doc.root.map (Tree.modifyAt (·.withValue value map slot) place) }

/-- No value ends before it begins, as in every document that is read from a text. -/
def Spanned (doc : Document) : Prop :=
  ∀ e ∈ doc.elements, (∀ a ∈ e.attributes, a.valueSpan.start ≤ a.valueSpan.stop) ∧
    ∀ c, e.content = some c → c.span.start ≤ c.span.stop

end Document

namespace Subtree

def outline (s : Subtree) : Subtree :=
  ⟨s.above.map Element.outline, .node s.element.outline []⟩

/-- The same element, in places that differ at most by the values around it. -/
structure Alike (s q : Subtree) : Prop where
  element : s.element = q.element
  outline : s.outline = q.outline

/-- The subtree with another value in the element that it begins with. -/
def withValue (s : Subtree) (slot : ValueSlot) (value : String) (map : OffsetMap) : Subtree :=
  ⟨s.above, .node (s.element.withValue value map slot) s.tree.children⟩

end Subtree

end Xml

/-- The event without the values of the elements in it. -/
def WalkEvent.outline : WalkEvent → WalkEvent
  | .element e d => .element e.outline d
  | .unknown e => .unknown e.outline
  | .metadata item e => .metadata item.outline e.outline
  | .reference r item => .reference r item
  | .problem d => .problem d

def WalkedValue.withText (v : WalkedValue) (text : String) (map : OffsetMap) : WalkedValue :=
  { v with text := text, map := map }

variable {e : Element} {d : Descriptor} {path above : List Element} {s q : Subtree}
  {value : String} {map : OffsetMap} {slot other : ValueSlot} {place : List Nat} {t : Tree}

namespace Xml.Element

theorem outline_withValue (e : Element) (value : String) (map : OffsetMap) (slot : ValueSlot) :
    (e.withValue value map slot).outline = e.outline := by
  match slot with
  | .content =>
    unfold withValue outline
    cases e.content <;> rfl
  | .attribute i =>
    have hattributes (attributes : List Attribute) :
        (attributes.modify i fun a => { a with value := value, map := map }).map
          Attribute.outline = attributes.map Attribute.outline := by
      apply List.ext_getElem?
      intro k
      rw [List.getElem?_map, List.getElem?_map, List.getElem?_modify]
      by_cases hk : i = k
      · cases attributes[k]? <;> simp [hk, Attribute.outline]
      · simp [hk]
    exact congrArg (fun attributes => { e.outline with attributes := attributes })
      (hattributes e.attributes)

theorem slots_withValue (e : Element) (value : String) (map : OffsetMap) (slot : ValueSlot) :
    (e.withValue value map slot).slots = e.slots := by
  match slot with
  | .content => rfl
  | .attribute i => rw [slots, withValue, List.length_modify, slots]

/-- The value that is put in is read as the one before it was. -/
theorem walked?_withValue (e : Element) (d : Descriptor) (item : Option String) :
    (e.withValue value map slot).walked? d item slot =
      (e.walked? d item slot).map (·.withText value map) := by
  match slot with
  | .content =>
    rw [walked?, withValue, walked?]
    cases e.content with
    | none => rfl
    | some c =>
      simp only [Option.map_some, Option.bind_some, WalkedValue.ofContent?]
      split <;> rfl
  | .attribute i =>
    rw [walked?, withValue, walked?, List.getElem?_modify]
    cases e.attributes[i]? with
    | none => rfl
    | some a =>
      simp only [if_pos, Option.map_some, Option.map_eq_map, Option.bind_some]
      unfold WalkedValue.ofAttribute? DocumentWalk.isForeign
      cases a.name.isQualified || a.name.localName = "xmlns" <;> rfl

theorem walked?_withValue_of_ne (e : Element) (d : Descriptor) (item : Option String)
    (h : other ≠ slot) :
    (e.withValue value map slot).walked? d item other = e.walked? d item other := by
  match slot, other with
  | .content, .content => exact absurd rfl h
  | .content, .attribute i => rfl
  | .attribute i, .content => rfl
  | .attribute i, .attribute k =>
    have hne : i ≠ k := fun hik => h (congrArg _ hik.symm)
    rw [walked?, withValue, walked?, List.getElem?_modify]
    simp only [if_neg hne, id_map']

theorem walked?_of_not_mem (d : Descriptor) (item : Option String) (h : slot ∉ e.slots) :
    e.walked? d item slot = none := by
  match slot with
  | .content => exact absurd (List.mem_append_right _ List.mem_cons_self) h
  | .attribute i =>
    have hlength : e.attributes.length ≤ i := by
      apply Nat.not_lt.1
      intro hi
      exact h (List.mem_append_left _ (List.mem_map_of_mem (List.mem_range.2 hi)))
    rw [walked?, List.getElem?_eq_none hlength]
    rfl

theorem nodup_slots (e : Element) : e.slots.Nodup := by
  rw [slots]
  refine List.nodup_append.2 ⟨?_, List.pairwise_singleton _ _, ?_⟩
  · exact List.Pairwise.map _ (fun i k hne heq => hne (ValueSlot.attribute.inj heq))
      List.nodup_range
  · intro a ha b hb
    obtain ⟨i, -, rfl⟩ := List.mem_map.1 ha
    obtain rfl := List.mem_singleton.1 hb
    exact ValueSlot.noConfusion

/-- What is met before the values does not tell of them. -/
theorem remarks_outline (e : Element) (d : Descriptor) (item : Option Element) :
    e.outline.remarks d (item.map outline) = (e.remarks d item).map WalkEvent.outline := by
  have hunknown : DocumentWalk.unknownAttributes e.outline d =
      (DocumentWalk.unknownAttributes e d).map WalkEvent.outline := by
    unfold DocumentWalk.unknownAttributes
    split
    · rfl
    · rw [List.map_map, outline, List.filter_map, List.map_map]
      rfl
  unfold remarks
  rw [hunknown, List.map_append, List.map_cons]
  cases item with
  | none => rfl
  | some item =>
    simp only [Option.map_some]
    split <;> rfl

end Xml.Element

namespace Descriptor

theorem ofPath_outline (path : List Element) : ofPath (path.map Element.outline) = ofPath path := by
  unfold ofPath
  rw [List.any_map, List.map_map]
  rfl

theorem innermostItem_outline (path : List Element) :
    innermostItem (path.map Element.outline) = (innermostItem path).map Element.outline := by
  -- From the inside out: the last element is the innermost item, or the search goes on above it.
  induction path using List.reverseRecOn with
  | nil => rfl
  | append_singleton above e ih =>
    have hends : endsInItem ((above ++ [e]).map Element.outline) = endsInItem (above ++ [e]) := by
      rw [endsInItem, ofPath_outline, endsInItem]
    rw [List.map_append, List.map_singleton] at hends ⊢
    rw [innermostItem_concat, innermostItem_concat, hends, ih]
    split <;> rfl

end Descriptor

namespace Xml.Subtree

theorem path_outline (s : Subtree) : s.outline.path = s.path.map Element.outline := by
  rw [path, path, List.map_append]
  rfl

theorem descriptor?_outline (s : Subtree) : s.outline.descriptor? = s.descriptor? := by
  rw [descriptor?, path_outline, Descriptor.ofPath_outline, descriptor?]

theorem item?_outline (s : Subtree) : s.outline.item? = s.item?.map Element.outline := by
  rw [item?, path_outline, Descriptor.innermostItem_outline, item?]

theorem isStranger_outline (s : Subtree) : s.outline.isStranger = s.isStranger := by
  have habove : ofPath s.outline.above = ofPath s.above := Descriptor.ofPath_outline s.above
  have hempty : s.outline.above.isEmpty = s.above.isEmpty := List.isEmpty_map
  rw [isStranger, path_outline, Descriptor.ofPath_outline, habove, hempty, isStranger]
  rfl

theorem remarks_outline (s : Subtree) : s.outline.remarks = s.remarks.map WalkEvent.outline := by
  rw [remarks, descriptor?_outline, item?_outline, isStranger_outline, remarks]
  cases s.descriptor? with
  | none =>
    dsimp only
    split <;> rfl
  | some d => exact s.element.remarks_outline d s.item?

/-- A value is read by what its own element says and by the names around it. -/
theorem walkedValue?_eq (s : Subtree) (slot : ValueSlot) : s.walkedValue? slot =
    s.outline.descriptor?.bind fun d =>
      s.element.walked? d (s.outline.item?.map (·.name.localName)) slot := by
  rw [descriptor?_outline, item?_outline, Option.map_map]
  rfl

theorem Alike.events (h : s.Alike q) :
    s.events.map WalkEvent.outline = q.events.map WalkEvent.outline := by
  have hvalue (slot : ValueSlot) : s.walkedValue? slot = q.walkedValue? slot := by
    rw [walkedValue?_eq, h.outline, h.element, walkedValue?_eq]
  have hvalues : s.walkedValues = q.walkedValues := by
    rw [walkedValues, funext hvalue, h.element, walkedValues]
  rw [Subtree.events, List.map_append, ← remarks_outline, h.outline, remarks_outline, hvalues,
    Subtree.events, List.map_append]

theorem outline_withValue (s : Subtree) (slot : ValueSlot) (value : String) (map : OffsetMap) :
    (s.withValue slot value map).outline = s.outline := by
  unfold outline
  rw [← s.element.outline_withValue value map slot]
  rfl

end Xml.Subtree

/-- What a function makes of one member of a list without repetitions is between what it makes of
those before and behind it. -/
theorem exists_filterMap_split {α β : Type} {xs : List α} (hxs : xs.Nodup) (x : α)
    (f : α → Option β) (hf : x ∉ xs → f x = none) : ∃ pre post : List β,
    xs.filterMap f = pre ++ (f x).toList ++ post ∧
    ∀ g : α → Option β, (∀ y, y ≠ x → g y = f y) → (x ∉ xs → g x = none) →
      xs.filterMap g = pre ++ (g x).toList ++ post := by
  by_cases hmem : x ∈ xs
  · obtain ⟨as, bs, rfl⟩ := List.append_of_mem hmem
    obtain ⟨-, hbs, hapart⟩ := List.nodup_append.1 hxs
    refine ⟨as.filterMap f, bs.filterMap f, ?_, fun g hg _ => ?_⟩
    · rw [List.filterMap_append, filterMap_cons_eq_append, List.append_assoc]
    · have has : as.filterMap g = as.filterMap f :=
        List.filterMap_congr fun y hy => hg y (hapart y hy x List.mem_cons_self)
      have hbs : bs.filterMap g = bs.filterMap f :=
        List.filterMap_congr fun y hy => hg y fun heq => (List.nodup_cons.1 hbs).1 (heq ▸ hy)
      rw [List.filterMap_append, filterMap_cons_eq_append, has, hbs, List.append_assoc]
  · -- Nothing comes of what is no member, so it may as well stand at the end.
    refine ⟨xs.filterMap f, [], ?_, fun g hg hnone => ?_⟩
    · rw [hf hmem]
      simp
    · have hall : xs.filterMap g = xs.filterMap f :=
        List.filterMap_congr fun y hy => hg y fun heq => hmem (heq ▸ hy)
      rw [hnone hmem, hall]
      simp

namespace Xml.Subtree

theorem walkedValue?_of_not_mem (s : Subtree) (h : slot ∉ s.element.slots) :
    s.walkedValue? slot = none := by
  rw [walkedValue?, Option.bind_eq_none_iff]
  exact fun d _ => s.element.walked?_of_not_mem d _ h

theorem walkedValue?_withValue (s : Subtree) (slot : ValueSlot) (value : String)
    (map : OffsetMap) : (s.withValue slot value map).walkedValue? slot =
      (s.walkedValue? slot).map (·.withText value map) := by
  rw [walkedValue?_eq, outline_withValue, walkedValue?_eq, Option.map_bind]
  exact congrArg _ (funext fun d => s.element.walked?_withValue d _)

theorem walkedValue?_withValue_of_ne (s : Subtree) (h : other ≠ slot) (value : String)
    (map : OffsetMap) : (s.withValue slot value map).walkedValue? other = s.walkedValue? other := by
  rw [walkedValue?_eq, outline_withValue, walkedValue?_eq]
  exact congrArg _ (funext fun d => s.element.walked?_withValue_of_ne d _ h)

/-- The values before and behind one stay when that one is replaced. -/
theorem exists_walkedValues_split (s : Subtree) (slot : ValueSlot) : ∃ pre post,
    s.walkedValues = pre ++ (s.walkedValue? slot).toList ++ post ∧
    ∀ value map, (s.withValue slot value map).walkedValues =
      pre ++ ((s.walkedValue? slot).map (·.withText value map)).toList ++ post := by
  obtain ⟨pre, post, hsplit, hothers⟩ := exists_filterMap_split s.element.nodup_slots slot
    s.walkedValue? s.walkedValue?_of_not_mem
  refine ⟨pre, post, hsplit, fun value map => ?_⟩
  have hvalues := hothers (s.withValue slot value map).walkedValue?
    (fun other h => s.walkedValue?_withValue_of_ne h value map)
    (fun h => by rw [walkedValue?_withValue, s.walkedValue?_of_not_mem h]; rfl)
  rw [walkedValue?_withValue] at hvalues
  rw [← hvalues, walkedValues]
  exact congrArg _ (s.element.slots_withValue value map slot)

end Xml.Subtree

namespace Xml

open List (Forall₂)

theorem Subtree.Alike.flatMap_events {ss us : List Subtree} (h : Forall₂ Subtree.Alike ss us) :
    (ss.flatMap Subtree.events).map WalkEvent.outline =
      (us.flatMap Subtree.events).map WalkEvent.outline := by
  induction h with
  | nil => rfl
  | cons hsame _ ih =>
    rw [List.flatMap_cons, List.map_append, hsame.events, ih, List.flatMap_cons, List.map_append]

namespace Tree

theorem allSubtrees_append (above : List Element) (ts us : List Tree) :
    allSubtrees above (ts ++ us) = allSubtrees above ts ++ allSubtrees above us := by
  induction ts with
  | nil => rfl
  | cons t ts ih => rw [List.cons_append, allSubtrees, allSubtrees, ih, List.append_assoc]

mutual

theorem alike_subtrees {above above' : List Element}
    (h : above.map Element.outline = above'.map Element.outline) (t : Tree) :
    Forall₂ Subtree.Alike (t.subtrees above) (t.subtrees above') := by
  match t with
  | .node e children =>
    have hbelow : (above ++ [e]).map Element.outline = (above' ++ [e]).map Element.outline := by
      rw [List.map_append, h, List.map_append]
    rw [subtrees, subtrees]
    refine .cons ⟨rfl, ?_⟩ (alike_allSubtrees hbelow children)
    rw [Subtree.outline, h]
    rfl

/-- The values of the elements around some trees do not matter to what is in the trees. -/
theorem alike_allSubtrees {above above' : List Element}
    (h : above.map Element.outline = above'.map Element.outline) (ts : List Tree) :
    Forall₂ Subtree.Alike (allSubtrees above ts) (allSubtrees above' ts) := by
  match ts with
  | [] => exact .nil
  | t :: ts =>
    rw [allSubtrees, allSubtrees]
    exact List.rel_append (alike_subtrees h t) (alike_allSubtrees h ts)

end

/-- The subtrees before and behind one, and what becomes of them when its element is changed. -/
theorem exists_subtrees_split {above : List Element} (h : t.at? place above = some s) :
    ∃ pre post, t.subtrees above = pre ++ s :: post ∧
      ∀ change : Element → Element, (∀ e, (change e).outline = e.outline) → ∃ pre' post',
        (t.modifyAt change place).subtrees above =
          pre' ++ ⟨s.above, .node (change s.element) s.tree.children⟩ :: post' ∧
        Forall₂ Subtree.Alike pre' pre ∧ Forall₂ Subtree.Alike post' post := by
  -- Along the place: each step goes into one child, and the trees beside it stay as they are.
  induction place generalizing above t with
  | nil =>
    obtain ⟨e, children⟩ := t
    obtain rfl := Option.some.inj h
    refine ⟨[], allSubtrees (above ++ [e]) children, by rw [subtrees]; rfl,
      fun change hchange => ?_⟩
    -- The changed element is around all that is below it.
    have hbelow : (above ++ [change e]).map Element.outline =
        (above ++ [e]).map Element.outline := by
      rw [List.map_append, List.map_append, List.map_singleton, hchange]
      rfl
    refine ⟨[], _, ?_, .nil, alike_allSubtrees hbelow children⟩
    rw [modifyAt, subtrees]
    rfl
  | cons i place ih =>
    obtain ⟨e, children⟩ := t
    obtain ⟨u, hu, hs⟩ := Option.bind_eq_some_iff.1 h
    obtain ⟨pre, post, hsplit, hmodify⟩ := ih hs
    obtain ⟨hi, rfl⟩ := List.getElem?_eq_some_iff.1 hu
    -- The element itself and the children before and behind the one that is entered.
    let before := allSubtrees (above ++ [e]) (children.take i)
    let behind := allSubtrees (above ++ [e]) (children.drop (i + 1))
    have hall (u : Tree) : allSubtrees (above ++ [e]) (children.take i ++ u ::
        children.drop (i + 1)) = before ++ (u.subtrees (above ++ [e]) ++ behind) := by
      rw [allSubtrees_append, allSubtrees]
    have hstay (ss : List Subtree) : Forall₂ Subtree.Alike ss ss :=
      List.forall₂_same.2 fun _ _ => ⟨rfl, rfl⟩
    refine ⟨⟨above, .node e children⟩ :: before ++ pre, post ++ behind, ?_,
      fun change hchange => ?_⟩
    · have hwhole := hall children[i]
      rw [List.getElem_cons_drop, List.take_append_drop] at hwhole
      rw [subtrees, hwhole, hsplit]
      simp
    · obtain ⟨pre', post', hsplit', hpre, hpost⟩ := hmodify change hchange
      refine ⟨⟨above, .node e (children.modify i (modifyAt change place))⟩ :: before ++ pre',
        post' ++ behind, ?_, ?_, ?_⟩
      · rw [modifyAt, subtrees, List.modify_eq_take_cons_drop hi, hall, hsplit']
        simp
      · exact .cons ⟨rfl, rfl⟩ (List.rel_append (hstay before) hpre)
      · exact List.rel_append hpost (hstay behind)

mutual

theorem exists_at?_of_mem_subtrees {above : List Element} (t : Tree)
    (hs : s ∈ t.subtrees above) : ∃ place, t.at? place above = some s := by
  match t with
  | .node e children =>
    rw [subtrees] at hs
    rcases List.mem_cons.1 hs with rfl | hs
    · exact ⟨[], rfl⟩
    · obtain ⟨i, u, place, hu, hplace⟩ := exists_at?_of_mem_allSubtrees children hs
      exact ⟨i :: place, by rw [at?, hu]; exact hplace⟩

theorem exists_at?_of_mem_allSubtrees {above : List Element} (ts : List Tree)
    (hs : s ∈ allSubtrees above ts) :
    ∃ (i : Nat) (u : Tree) (place : List Nat), ts[i]? = some u ∧ u.at? place above = some s := by
  match ts with
  | [] => exact absurd hs List.not_mem_nil
  | t :: ts =>
    rw [allSubtrees] at hs
    rcases List.mem_append.1 hs with hs | hs
    · obtain ⟨place, hplace⟩ := exists_at?_of_mem_subtrees t hs
      exact ⟨0, t, place, rfl, hplace⟩
    · obtain ⟨i, u, place, hu, hplace⟩ := exists_at?_of_mem_allSubtrees ts hs
      exact ⟨i + 1, u, place, hu, hplace⟩

end

end Tree

/-- The places lead to the elements of the document, to each of them and to nothing else. -/
theorem Document.mem_subtrees_iff {doc : Document} :
    s ∈ doc.subtrees ↔ ∃ place, doc.at? place = some s := by
  unfold subtrees at?
  cases doc.root with
  | none => simp [Tree.allSubtrees]
  | some t =>
    rw [Option.toList_some, Tree.mem_allSubtrees_iff]
    constructor
    · rintro ⟨u, hu, hs⟩
      obtain rfl := List.mem_singleton.1 hu
      exact Tree.exists_at?_of_mem_subtrees u hs
    · rintro ⟨place, hplace⟩
      obtain ⟨pre, post, hsplit, -⟩ := Tree.exists_subtrees_split hplace
      refine ⟨t, List.mem_singleton_self t, ?_⟩
      rw [hsplit]
      exact List.mem_append_right _ List.mem_cons_self

theorem Document.exists_subtrees_split {doc : Document} (h : doc.at? place = some s)
    (slot : ValueSlot) : ∃ pre post, doc.subtrees = pre ++ s :: post ∧
      ∀ value map, ∃ pre' post', (doc.withValue place slot value map).subtrees =
          pre' ++ s.withValue slot value map :: post' ∧
        Forall₂ Subtree.Alike pre' pre ∧ Forall₂ Subtree.Alike post' post := by
  have hroot (root : Option Tree) (t : Tree) (ht : root = some t) :
      Tree.allSubtrees [] root.toList = t.subtrees [] := by
    rw [ht, Option.toList_some, Tree.allSubtrees, Tree.allSubtrees, List.append_nil]
  obtain ⟨t, ht, hplace⟩ := Option.bind_eq_some_iff.1 h
  obtain ⟨pre, post, hsplit, hmodify⟩ := Tree.exists_subtrees_split hplace
  refine ⟨pre, post, (hroot _ t ht).trans hsplit, fun value map => ?_⟩
  obtain ⟨pre', post', hsplit', hpre, hpost⟩ :=
    hmodify (·.withValue value map slot) fun e => e.outline_withValue value map slot
  refine ⟨pre', post', ?_, hpre, hpost⟩
  rw [← Subtree.withValue] at hsplit'
  exact (hroot _ _ (congrArg (Option.map _) ht)).trans hsplit'

theorem Document.Spanned.of_walkedValue? {doc : Document} (h : doc.Spanned)
    (hs : s ∈ doc.subtrees) {v : WalkedValue} (hv : s.walkedValue? slot = some v) :
    v.span.start ≤ v.span.stop := by
  obtain ⟨hattributes, hcontent⟩ := h s.element (by
    rw [Document.elements_eq]
    exact List.mem_map_of_mem hs)
  obtain ⟨d, -, hwalked⟩ := Option.bind_eq_some_iff.1 hv
  obtain ⟨-, ⟨a, ha, hspan⟩ | ⟨c, hc, hspan⟩⟩ := Element.of_walked? hwalked
  · exact hspan ▸ hattributes a ha
  · exact hspan ▸ hcontent c hc

/-- In a document that was read from a text no value ends before it begins. -/
theorem Document.spanned_ofText (text : String) : (Document.ofText text).Spanned := by
  intro e he
  have hspans := Document.spansIn_ofText text e he
  exact ⟨fun a ha => (hspans.attributes a ha).2.1, fun c hc => (hspans.content c hc).1⟩

end Xml

/-- What a value has to do with a walk is what is met at it: whatever takes its place, what is met
before it and behind it differs at most by the values of the elements told of. At a value that
cannot be read one problem is met, which is inside of it, and no references; at any other, its
references and no problem. For a text, `spanned_ofText` gives the assumption. -/
theorem Xml.Document.walk_withValue {doc : Document} (hspans : doc.Spanned)
    (hs : doc.at? place = some s) (slot : ValueSlot) :
    (∃ before after : List WalkEvent,
      doc.walk =
        before ++ (s.walkedValue? slot).toList.flatMap WalkedValue.events ++ after ∧
      ∀ value map, ∃ before' after' : List WalkEvent,
        (doc.withValue place slot value map).walk = before' ++
          ((s.walkedValue? slot).map (·.withText value map)).toList.flatMap WalkedValue.events ++
          after' ∧
        before'.map WalkEvent.outline = before.map WalkEvent.outline ∧
        after'.map WalkEvent.outline = after.map WalkEvent.outline) ∧
    ∀ v, s.walkedValue? slot = some v →
      (∀ fault, Expr.parse v.options v.text = .error fault → ∃ d : Diagnostic,
        v.events = [.problem d] ∧ d.kind = .invalidExpression ∧ v.span.start ≤ d.span.start ∧
        d.span.start ≤ d.span.stop ∧ d.span.stop ≤ v.span.stop) ∧
      ∀ root, Expr.parse v.options v.text = .ok root →
        v.events = root.references.map fun r =>
          .reference { r with span := v.map.spanToDocument r.span } v.item := by
  refine ⟨?_, fun v hv => ⟨fun fault hfault => ?_, fun root => WalkedValue.events_of_ok⟩⟩
  · obtain ⟨pre, post, hsplit, hmodify⟩ := Document.exists_subtrees_split hs slot
    obtain ⟨first, last, hvalues, hreplaced⟩ := s.exists_walkedValues_split slot
    -- Behind the values of the element itself come the elements in it and all that follow.
    refine ⟨_, _, Document.walk_split hsplit hvalues, fun value map => ?_⟩
    obtain ⟨pre', post', hsplit', hpre, hpost⟩ := hmodify value map
    have hremarks : (s.withValue slot value map).remarks.map WalkEvent.outline =
        s.remarks.map WalkEvent.outline := by
      rw [← Subtree.remarks_outline, Subtree.outline_withValue, Subtree.remarks_outline]
    refine ⟨_, _, Document.walk_split hsplit' (hreplaced value map), ?_, ?_⟩
    · simp only [List.map_append, hremarks, Subtree.Alike.flatMap_events hpre]
      rfl
    · simp only [List.map_append, Subtree.Alike.flatMap_events hpost]
  · have hspan := hspans.of_walkedValue? (Document.mem_subtrees_iff.2 ⟨place, hs⟩) hv
    exact ⟨_, WalkedValue.events_of_error hfault, rfl,
      Diagnostic.invalidExpression_span fault _ hspan⟩

/-- The condition of a group cannot be read, and all that is in the group comes after it. -/
theorem Xml.Document.walk_withValue_condition :
    let doc := Document.ofText
      "<Project><PropertyGroup Condition=\"$(\"><P>$(A)</P></PropertyGroup></Project>"
    ∃ s v d, doc.at? [0] = some s ∧ s.walkedValue? (.attribute 0) = some v ∧
      v.events = [.problem d] ∧ d.kind = .invalidExpression ∧
      ∃ before after : List WalkEvent, doc.walk = before ++ v.events ++ after ∧
        ∀ value map, ∃ before' after' : List WalkEvent,
          (doc.withValue [0] (.attribute 0) value map).walk =
            before' ++ (v.withText value map).events ++ after' ∧
          before'.map WalkEvent.outline = before.map WalkEvent.outline ∧
          after'.map WalkEvent.outline = after.map WalkEvent.outline := by
  intro doc
  have hunread : ((doc.at? [0]).bind (·.walkedValue? (.attribute 0))).any
      (fun v => !(Expr.parse v.options v.text).isOk) = true := by decide +kernel
  obtain ⟨v, hv, hfault⟩ := (Option.any_eq_true ..).1 hunread
  obtain ⟨s, hs, hv⟩ := Option.bind_eq_some_iff.1 hv
  obtain ⟨hplaces, hvalues⟩ := walk_withValue (spanned_ofText _) hs (.attribute 0)
  cases hparse : Expr.parse v.options v.text with
  | ok root => simp [hparse, Except.isOk, Except.toBool] at hfault
  | error fault =>
    obtain ⟨d, hevents, hkind, -⟩ := (hvalues v hv).1 fault hparse
    rw [hv] at hplaces
    simp only [Option.toList_some, Option.map_some, List.flatMap_singleton] at hplaces
    exact ⟨s, v, d, hs, hv, hevents, hkind, hplaces⟩

end ProjectAnalysis
