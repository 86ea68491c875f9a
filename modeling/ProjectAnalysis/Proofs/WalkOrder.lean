import Mathlib.Data.List.Infix
import ProjectAnalysis.Proofs.SchemaWalk

/-! The walk told element by element. What it meets at an element depends on the elements around
that one and on nothing else, so a whole walk is what is met at each element, in the order of the
opening tags: first what the element is, then its values one after the other. -/
namespace ProjectAnalysis

open Xml (Element Tree Document Subtree OffsetMap)
open Descriptor (Silent Entered ofPath)

/-- A value that the walk reads as an expression. -/
structure WalkedValue where
  options : Expr.Options
  text : String
  map : OffsetMap
  span : Span
  /-- The name of the item that the value belongs to. -/
  item : Option String

namespace WalkedValue

def events (v : WalkedValue) : List WalkEvent :=
  DocumentWalk.value v.options v.text v.map v.span v.item

/-- The references in the value; none if it cannot be read. -/
def references (v : WalkedValue) : List Expr.Reference :=
  match Expr.parse v.options v.text with
  | .ok root => root.references
  | .error _ => []

/-- The value of an attribute, unless that is none of the schema. -/
def ofAttribute? (kind : Kind) (item : Option String) (a : Xml.Attribute) : Option WalkedValue :=
  if DocumentWalk.isForeign a then none
  else some ⟨attributeOptions kind a.name.localName, a.value, a.map, a.valueSpan, item⟩

/-- The character data of an element, if it is a property or metadata. -/
def ofContent? (d : Descriptor) (item : Option String) (c : Xml.Content) : Option WalkedValue :=
  if d.isOpaque || !(d.kind = .property || d.kind = .metadata) then none
  else some ⟨.full, c.value, c.map, c.span, item⟩

end WalkedValue

/-- The place of a value in its element. -/
inductive ValueSlot
  | attribute (index : Nat)
  | content
deriving DecidableEq, Repr

namespace Xml.Element

/-- The places of all values, in the order in which the walk comes to them. -/
def slots (e : Element) : List ValueSlot :=
  (List.range e.attributes.length).map .attribute ++ [.content]

/-- The value at a place of a known element, if it is read as an expression. -/
def walked? (e : Element) (d : Descriptor) (item : Option String) : ValueSlot → Option WalkedValue
  | .attribute i => e.attributes[i]?.bind (WalkedValue.ofAttribute? d.kind item)
  | .content => e.content.bind (WalkedValue.ofContent? d item)

/-- What the walk meets at a known element before it comes to the values. -/
def remarks (e : Element) (d : Descriptor) (item : Option Element) : List WalkEvent :=
  DocumentWalk.unknownAttributes e d ++ .element e d ::
    match item with
    | some item => if d.kind = .metadata then [.metadata item e] else []
    | none => []

end Xml.Element

namespace Descriptor

/-- Whether the last of some elements is an item. -/
def endsInItem (path : List Element) : Bool :=
  (ofPath path).any fun d => DocumentWalk.isItem d.kind

/-- The innermost item among some elements, each of which is inside the one before. -/
def innermostItem (path : List Element) : Option Element :=
  (path.inits.reverse.find? endsInItem).bind (·.getLast?)

end Descriptor

namespace Xml.Subtree

def descriptor? (s : Subtree) : Option Descriptor :=
  ofPath s.path

/-- The item that the values of the element belong to. -/
def item? (s : Subtree) : Option Element :=
  Descriptor.innermostItem s.path

def walkedValue? (s : Subtree) (slot : ValueSlot) : Option WalkedValue :=
  s.descriptor?.bind fun d => s.element.walked? d (s.item?.map (·.name.localName)) slot

/-- The values of the element that are read as expressions. -/
def walkedValues (s : Subtree) : List WalkedValue :=
  s.element.slots.filterMap s.walkedValue?

/-- What the walk meets at the element before it comes to the values. -/
def remarks (s : Subtree) : List WalkEvent :=
  match s.descriptor? with
  | some d => s.element.remarks d s.item?
  | none => if s.isStranger then [.problem s.diagnostic, .unknown s.element] else []

/-- What the walk meets at the element. -/
def events (s : Subtree) : List WalkEvent :=
  s.remarks ++ s.walkedValues.flatMap (·.events)

end Xml.Subtree

variable {above path : List Element} {e : Element} {d : Descriptor} {parent : Option Descriptor}
  {s : Subtree}

theorem Descriptor.innermostItem_concat (above : List Element) (e : Element) :
    innermostItem (above ++ [e]) =
      if endsInItem (above ++ [e]) then some e else innermostItem above := by
  have hinits : (above ++ [e]).inits = above.inits ++ [above ++ [e]] := by
    rw [List.inits_append]
    rfl
  rw [innermostItem, hinits, List.reverse_append, List.reverse_singleton, List.singleton_append,
    List.find?_cons]
  cases endsInItem (above ++ [e]) with
  | true => exact List.getLast?_concat
  | false => rfl

namespace WalkedValue

variable {v : WalkedValue}

/-- An empty text is an expression, and nothing is referred to in it. -/
theorem parse_empty (o : Expr.Options) :
    ∃ root, Expr.parse o "" = .ok root ∧ root.references = [] := by
  have hread : (match Expr.parse o "" with
      | .ok root => root.references.isEmpty
      | .error _ => false) = true := by
    obtain ⟨_ | _, _ | _, _ | _, _ | _⟩ := o <;> decide +kernel
  cases h : Expr.parse o "" with
  | ok root =>
    rw [h] at hread
    exact ⟨root, rfl, List.isEmpty_iff.1 hread⟩
  | error fault =>
    rw [h] at hread
    cases hread

-- The walk does not parse an empty value. As nothing is in one, neither of these has to except it.

theorem events_of_ok {root : Expr.Node} (h : Expr.parse v.options v.text = .ok root) :
    v.events = root.references.map fun r =>
      .reference { r with span := v.map.spanToDocument r.span } v.item := by
  unfold events DocumentWalk.value
  split
  · rename_i hempty
    obtain ⟨root', hparse, hnone⟩ := parse_empty v.options
    rw [String.isEmpty_iff.1 hempty, hparse] at h
    obtain rfl := Except.ok.inj h
    rw [hnone]
    rfl
  · rw [h]

theorem events_of_error {fault : Expr.Error} (h : Expr.parse v.options v.text = .error fault) :
    v.events = [.problem (.invalidExpression fault (v.map.toDocument fault.position) v.span)] := by
  unfold events DocumentWalk.value
  split
  · rename_i hempty
    obtain ⟨root, hparse, -⟩ := parse_empty v.options
    rw [String.isEmpty_iff.1 hempty, hparse] at h
    cases h
  · rw [h]

end WalkedValue

/-- A value that is read stands at an attribute or where the content does. -/
theorem Xml.Element.of_walked? {item : Option String} {slot : ValueSlot} {v : WalkedValue}
    (h : e.walked? d item slot = some v) : v.item = item ∧
      ((∃ a ∈ e.attributes, v.span = a.valueSpan) ∨ ∃ c, e.content = some c ∧ v.span = c.span) := by
  match slot with
  | .content =>
    obtain ⟨c, hc, hv⟩ := Option.bind_eq_some_iff.1 h
    unfold WalkedValue.ofContent? at hv
    split at hv
    · cases hv
    · obtain rfl := Option.some.inj hv
      exact ⟨rfl, Or.inr ⟨c, hc, rfl⟩⟩
  | .attribute i =>
    obtain ⟨a, ha, hv⟩ := Option.bind_eq_some_iff.1 h
    unfold WalkedValue.ofAttribute? at hv
    split at hv
    · cases hv
    · obtain rfl := Option.some.inj hv
      exact ⟨rfl, Or.inl ⟨a, List.mem_of_getElem? ha, rfl⟩⟩

/-- What is made of the first member of a list stands before all else. -/
theorem filterMap_cons_eq_append {α β : Type} (f : α → Option β) (x : α) (xs : List α) :
    (x :: xs).filterMap f = (f x).toList ++ xs.filterMap f := by
  rw [List.filterMap_cons]
  cases f x <;> rfl

namespace DocumentWalk

theorem filterMap_range_getElem? {α β : Type} (xs : List α) (f : α → Option β) :
    (List.range xs.length).filterMap (fun i => xs[i]?.bind f) = xs.filterMap f := by
  -- Within its length, a list is looked up without a miss.
  have hall : (List.range xs.length).map (fun i => xs[i]?) = xs.map some := by
    apply List.ext_getElem
    · simp
    · intro i hi hi'
      simp
  calc (List.range xs.length).filterMap (fun i => xs[i]?.bind f)
      = ((List.range xs.length).map fun i => xs[i]?).filterMap (·.bind f) := by
        rw [List.filterMap_map]
        rfl
    _ = xs.filterMap f := by
        rw [hall, List.filterMap_map]
        rfl

theorem attributeValues_eq (e : Element) (kind : Kind) (item : Option String) :
    attributeValues e kind item =
      (e.attributes.filterMap (WalkedValue.ofAttribute? kind item)).flatMap WalkedValue.events := by
  unfold attributeValues
  induction e.attributes with
  | nil => rfl
  | cons a attributes ih =>
    cases ha : isForeign a with
    | true =>
      rw [List.filter_cons_of_neg (by simp [ha]), ih,
        List.filterMap_cons_none (by rw [WalkedValue.ofAttribute?, if_pos ha])]
    | false =>
      have hsome : WalkedValue.ofAttribute? kind item a =
          some ⟨attributeOptions kind a.name.localName, a.value, a.map, a.valueSpan, item⟩ := by
        rw [WalkedValue.ofAttribute?, ha, if_neg Bool.false_ne_true]
      rw [List.filter_cons_of_pos (by simp [ha]), List.filterMap_cons_some hsome,
        List.flatMap_cons, List.flatMap_cons, ih]
      rfl

theorem textValue_eq (e : Element) (d : Descriptor) (item : Option String) :
    textValue e d item =
      (e.content.bind (WalkedValue.ofContent? d item)).toList.flatMap WalkedValue.events := by
  unfold textValue
  cases e.content with
  | none => exact ite_self _
  | some c =>
    rw [Option.bind_some, WalkedValue.ofContent?]
    split
    · rfl
    · exact (List.append_nil _).symm

/-- The events of a known element are those of its values behind what is met first. -/
theorem ownEvents_eq (e : Element) (d : Descriptor) (item : Option Element) :
    ownEvents e d item = e.remarks d item ++
      (e.slots.filterMap (e.walked? d (item.map (·.name.localName)))).flatMap (·.events) := by
  have hslots (item : Option String) : e.slots.filterMap (e.walked? d item) =
      e.attributes.filterMap (WalkedValue.ofAttribute? d.kind item) ++
        (e.content.bind (WalkedValue.ofContent? d item)).toList := by
    rw [Element.slots, List.filterMap_append, List.filterMap_map]
    apply congrArg₂
    · exact filterMap_range_getElem? e.attributes _
    · rw [filterMap_cons_eq_append, Element.walked?, List.filterMap_nil, List.append_nil]
  rw [hslots, List.flatMap_append, ← attributeValues_eq, ← textValue_eq]
  unfold ownEvents Element.remarks
  cases item <;> simp

end DocumentWalk

namespace Xml.Subtree

theorem walkedValues_of_unknown (h : s.descriptor? = none) : s.walkedValues = [] := by
  refine List.filterMap_eq_nil_iff.2 fun slot _ => ?_
  rw [walkedValue?, h]
  rfl

theorem events_of_unknown (hpath : ofPath s.path = none) : s.events =
    if s.isStranger then [.problem s.diagnostic, .unknown s.element] else [] := by
  have hdescriptor : s.descriptor? = none := hpath
  rw [events, remarks, walkedValues_of_unknown hdescriptor, hdescriptor]
  exact List.append_nil _

theorem events_of_known (hpath : ofPath s.path = some d) :
    s.events = DocumentWalk.ownEvents s.element d s.item? := by
  have hdescriptor : s.descriptor? = some d := hpath
  have hvalue : s.walkedValue? = s.element.walked? d (s.item?.map (·.name.localName)) := by
    funext slot
    rw [walkedValue?, hdescriptor]
    rfl
  rw [events, remarks, hdescriptor, walkedValues, hvalue, DocumentWalk.ownEvents_eq]

end Xml.Subtree

namespace DocumentWalk

theorem flatMap_events_of_silent (h : Silent above) (ts : List Tree) :
    (Tree.allSubtrees above ts).flatMap Subtree.events = [] := by
  rw [List.flatMap_eq_nil_iff]
  intro s hs
  obtain ⟨hpath, hstranger⟩ := strange_allSubtrees h ts s hs
  rw [Subtree.events_of_unknown hpath, hstranger, if_neg Bool.false_ne_true]

/-- Where the walk is going on, an unknown element with a plain name is met as such. -/
theorem isStranger_of_entered (h : Entered above parent) (he : e.name.isQualified = false)
    (hnone : ofPath (above ++ [e]) = none) (children : List Tree) :
    (⟨above, .node e children⟩ : Subtree).isStranger = true := by
  have hpath : ofPath (⟨above, .node e children⟩ : Subtree).path = none := hnone
  -- It is the root, or the element around it is known and not opaque.
  have hopen : (above.isEmpty || (ofPath above).any (!·.isOpaque)) = true := by
    rcases h.2.2 with rfl | ⟨d, rfl, hshut⟩
    · rfl
    · rw [h.1, Option.any_some, hshut, Bool.not_false, Bool.or_true]
  rw [Subtree.isStranger, hpath, hopen, Subtree.element, Tree.root, he]
  rfl

/-- An element that is not known hides all that is in it. -/
theorem flatMap_events_of_unknown (hnone : ofPath (above ++ [e]) = none) (children : List Tree) :
    ((Xml.Tree.node e children).subtrees above).flatMap Subtree.events =
      (⟨above, .node e children⟩ : Subtree).events := by
  rw [Tree.subtrees, List.flatMap_cons, flatMap_events_of_silent (Descriptor.silent_of_none hnone),
    List.append_nil]

-- The walk hands down what the path of elements around a tree amounts to: the descriptor of the
-- last of them and the innermost item among them. `Entered` says so of the one, and the other is a
-- function of the path.
mutual

theorem events_eq_flatMap {above : List Element} {parent : Option Descriptor}
    (h : Entered above parent) (t : Tree) :
    events parent (Descriptor.innermostItem above) t =
      (t.subtrees above).flatMap Subtree.events := by
  match t with
  | .node e children =>
    let s : Subtree := ⟨above, .node e children⟩
    rw [events]
    cases he : e.name.isQualified with
    | true =>
      have hnone : ofPath (above ++ [e]) = none := Descriptor.ofPath_of_qualified he
      have hstranger : s.isStranger = false := by
        rw [Subtree.isStranger, Subtree.element, Tree.root, he]
        rfl
      rw [flatMap_events_of_unknown hnone, Subtree.events_of_unknown (s := s) hnone, hstranger]
      rfl
    | false =>
      have hpath := h.ofPath_concat he
      rw [if_neg Bool.false_ne_true]
      cases hd : Descriptor.resolve parent e.name.localName with
      | none =>
        rw [hd] at hpath
        rw [flatMap_events_of_unknown hpath, Subtree.events_of_unknown (s := s) hpath,
          isStranger_of_entered h he hpath children]
        rfl
      | some d =>
        rw [hd] at hpath
        have hitem : Descriptor.innermostItem (above ++ [e]) =
            if isItem d.kind then some e else Descriptor.innermostItem above := by
          rw [Descriptor.innermostItem_concat, Descriptor.endsInItem, hpath]
          rfl
        rw [Tree.subtrees, List.flatMap_cons, Subtree.events_of_known (s := s) hpath]
        dsimp only
        rw [← hitem]
        apply congrArg
        -- The content of an opaque element is passed over, like that of an unknown one.
        cases hshut : d.isOpaque with
        | true =>
          exact (flatMap_events_of_silent (Descriptor.silent_of_opaque hpath hshut) children).symm
        | false => exact allEvents_eq_flatMap (h.concat he hd hshut) children

/-- What the walk meets in some trees is what it meets at each element of them. -/
theorem allEvents_eq_flatMap {above : List Element} {parent : Option Descriptor}
    (h : Entered above parent) (ts : List Tree) :
    allEvents parent (Descriptor.innermostItem above) ts =
      (Tree.allSubtrees above ts).flatMap Subtree.events := by
  match ts with
  | [] => rfl
  | t :: ts =>
    rw [allEvents, Tree.allSubtrees, List.flatMap_append, events_eq_flatMap h t,
      allEvents_eq_flatMap h ts]

end

end DocumentWalk

/-- Behind the faults of the text, a walk is what is met at each element in turn. -/
theorem Xml.Document.walk_eq (doc : Document) : doc.walk =
    doc.faults.map (fun f => .problem (.malformedXml f.message f.span)) ++
      doc.subtrees.flatMap Subtree.events := by
  have hstart : Entered [] none := ⟨rfl, rfl, Or.inl rfl⟩
  have hroot : (doc.root.map (DocumentWalk.events none none)).getD [] =
      DocumentWalk.allEvents none none doc.root.toList := by
    cases doc.root with
    | none => rfl
    | some t => exact (List.append_nil _).symm
  rw [walk, hroot]
  exact congrArg _ (DocumentWalk.allEvents_eq_flatMap hstart doc.root.toList)

/-- A walk taken apart at some of the values of one element. -/
theorem Xml.Document.walk_split {doc : Document} {pre post : List Subtree}
    {first middle last : List WalkedValue} (hsubtrees : doc.subtrees = pre ++ s :: post)
    (hvalues : s.walkedValues = first ++ middle ++ last) : doc.walk =
      (doc.faults.map (fun f => .problem (.malformedXml f.message f.span)) ++
        pre.flatMap Subtree.events ++ s.remarks ++ first.flatMap WalkedValue.events) ++
      middle.flatMap WalkedValue.events ++
      (last.flatMap WalkedValue.events ++ post.flatMap Subtree.events) := by
  rw [walk_eq, hsubtrees, List.flatMap_append, List.flatMap_cons, Subtree.events, hvalues]
  simp only [List.flatMap_append, List.append_assoc]

end ProjectAnalysis
