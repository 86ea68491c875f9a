import ProjectAnalysis.ImportSite
import ProjectAnalysis.Proofs.WalkOrder

/-! What a walk over a document tells is told of that document: every problem stands in its text,
every element that is met is one of its elements, and so the imports that it asks for stand at its
elements and in its text. -/
namespace ProjectAnalysis

open Xml (Element Document Subtree SourcePiece OpenContent contentOf)

/-- A stretch of the text. -/
def Span.InText (text : String) (s : Span) : Prop :=
  s.start ≤ s.stop ∧ s.stop ≤ byteLength text.toList

/-- The name of the element and all its values stand in the text. -/
structure Xml.Element.SpansIn (text : String) (e : Element) : Prop where
  name : e.nameSpan.InText text
  attributes : ∀ a ∈ e.attributes, a.span.InText text ∧ a.valueSpan.InText text
  content : ∀ c, e.content = some c → c.span.InText text

/-- The event is one of an element of the document, or a problem in its text. -/
def WalkEvent.PlacedIn (doc : Document) : WalkEvent → Prop
  | .element e _ => e ∈ doc.elements
  | .problem d => d.span.InText doc.text
  | _ => True

/-- The import is told to stand in the document, if it is told to stand anywhere. -/
structure ImportSite.PlacedIn (doc : Document) (site : ImportSite) : Prop where
  span : ∀ span, site.span = some span → span.InText doc.text
  element : ∀ id, site.element = some id → ∃ e ∈ doc.elements, e.id = id

variable {text : String} {doc : Document} {e : Element} {s : Subtree} {v : WalkedValue}
  {event : WalkEvent} {events : List WalkEvent}

namespace Xml

/-- The content of an element stands where its character data does. -/
theorem contentOf_inText {source : List Char} {ds : List SourcePiece} {c : OpenContent}
    (hds : ∀ d ∈ ds, d.span.InText text) (h : contentOf source ds = some c) :
    c.span.InText text := by
  induction ds using List.reverseRecOn generalizing c with
  | nil => cases h
  | append_singleton ds d ih =>
    obtain ⟨hfront, hlast⟩ := List.forall_mem_append.1 hds
    have hd := List.forall_mem_singleton.1 hlast
    rw [contentOf_append] at h
    obtain rfl := Option.some.inj h
    cases hc : contentOf source ds with
    | none => exact hd
    | some c =>
      obtain ⟨hspan, hstop⟩ := ih hfront hc
      obtain ⟨hspan', hstop'⟩ := hd
      show min c.span.start d.span.start ≤ max c.span.stop d.span.stop ∧
        max c.span.stop d.span.stop ≤ byteLength text.toList
      omega

/-- In a document that was read from a text, names and values of all elements stand in it. -/
theorem Document.spansIn_ofText (text : String) :
    ∀ e ∈ (Document.ofText text).elements, e.SpansIn text := by
  obtain ⟨stop, htiles, hwidth⟩ := tiles_piecesOf text
  obtain ⟨n, horder⟩ := inOrder_ofText text
  intro e he
  have hstop := (horder.within e (by rwa [elements_eq, subtrees, ← Tree.allElements_eq] at he)).2.2
  rw [elements_eq] at he
  obtain ⟨s, hs, rfl⟩ := List.mem_map.1 he
  have hclosed := (horder.subtree hs).1
  have hframed : s.element.Framed := hclosed.framed
  refine ⟨⟨hframed.name.2.1, Nat.le_trans hframed.name.2.2 hstop⟩, fun a ha => ?_, fun c hc => ?_⟩
  · obtain ⟨tag, span, hstands, -, -, -, -, hattributes⟩ := hclosed.standsAt
    obtain ⟨raw, -, hread⟩ := hstands.read
    have hmem : a ∈ tag.attributes := hattributes ▸ ha
    obtain ⟨-, hlt, hle⟩ := hframed.attributes a ha
    -- The value is cut out of the attribute, between its quotes.
    obtain ⟨_, _, _, _, -, -, -, -, hslice, -, hquote⟩ := hread.attributes.written a hmem
    obtain ⟨_, _, -, -, hvalue⟩ := Span.split_of_slice? hslice
    exact ⟨⟨hlt, by omega⟩, by omega, by omega⟩
  · rw [show s.element.content = _ from hclosed.content] at hc
    obtain ⟨content, hcontent, rfl⟩ := Option.map_eq_some_iff.1 hc
    refine contentOf_inText (fun d hd => ?_) hcontent
    obtain ⟨-, hlt, hle⟩ := htiles.within d (List.mem_filter.1 hd).1
    exact ⟨Nat.le_of_lt hlt, Nat.le_trans hle hwidth⟩

end Xml

theorem Diagnostic.invalidExpression_span (fault : Expr.Error) (offset : Nat) {span : Span}
    (h : span.start ≤ span.stop) :
    span.start ≤ (invalidExpression fault offset span).span.start ∧
    (invalidExpression fault offset span).span.start ≤
      (invalidExpression fault offset span).span.stop ∧
    (invalidExpression fault offset span).span.stop ≤ span.stop := by
  show span.start ≤ min (max offset span.start) span.stop ∧
    min (max offset span.start) span.stop ≤ span.stop ∧ span.stop ≤ span.stop
  omega

/-- The problem of a value is held inside the value. -/
theorem WalkedValue.placedIn (h : v.span.InText doc.text) :
    ∀ event ∈ v.events, event.PlacedIn doc := by
  intro event hevent
  cases hparse : Expr.parse v.options v.text with
  | ok root =>
    rw [events_of_ok hparse] at hevent
    obtain ⟨r, -, rfl⟩ := List.mem_map.1 hevent
    trivial
  | error fault =>
    rw [events_of_error hparse] at hevent
    obtain rfl := List.mem_singleton.1 hevent
    obtain ⟨-, hspan, hstop⟩ :=
      Diagnostic.invalidExpression_span fault (v.map.toDocument fault.position) h.1
    exact ⟨hspan, Nat.le_trans hstop h.2⟩

theorem Xml.Element.SpansIn.of_walked? {d : Descriptor} {item : Option String} {slot : ValueSlot}
    (h : e.SpansIn text) (hv : e.walked? d item slot = some v) : v.span.InText text := by
  obtain ⟨-, ⟨a, ha, hspan⟩ | ⟨c, hc, hspan⟩⟩ := Element.of_walked? hv
  · exact hspan ▸ (h.attributes a ha).2
  · exact hspan ▸ h.content c hc

/-- What is met at a known element before it comes to the values. -/
theorem Xml.Element.SpansIn.remarks (h : e.SpansIn doc.text) (he : e ∈ doc.elements)
    (d : Descriptor) (item : Option Element) :
    ∀ event ∈ e.remarks d item, event.PlacedIn doc := by
  refine List.forall_mem_append.2 ⟨?_, List.forall_mem_cons.2 ⟨he, ?_⟩⟩
  · unfold DocumentWalk.unknownAttributes
    split
    · exact List.forall_mem_nil _
    · refine List.forall_mem_map.2 fun a ha => ?_
      exact (h.attributes a (List.mem_filter.1 ha).1).1
  · cases item with
    | none => exact List.forall_mem_nil _
    | some item =>
      dsimp only
      split
      · exact List.forall_mem_singleton.2 trivial
      · exact List.forall_mem_nil _

theorem Xml.Subtree.events_placedIn (h : s.element.SpansIn doc.text)
    (he : s.element ∈ doc.elements) : ∀ event ∈ s.events, event.PlacedIn doc := by
  refine List.forall_mem_append.2 ⟨?_, fun event hevent => ?_⟩
  · unfold remarks
    split
    · exact h.remarks he _ _
    · split
      · exact List.forall_mem_cons.2 ⟨h.name, List.forall_mem_singleton.2 trivial⟩
      · exact List.forall_mem_nil _
  · obtain ⟨v, hv, hevent⟩ := List.mem_flatMap.1 hevent
    obtain ⟨slot, -, hslot⟩ := List.mem_filterMap.1 hv
    obtain ⟨d, -, hwalked⟩ := Option.bind_eq_some_iff.1 hslot
    exact v.placedIn (h.of_walked? hwalked) event hevent

/-- Whatever the text is, all that a walk over it meets is placed in it. -/
theorem Xml.Document.walk_placedIn (text : String) :
    ∀ event ∈ (Document.ofText text).walk, event.PlacedIn (Document.ofText text) := by
  rw [walk_eq]
  refine List.forall_mem_append.2 ⟨List.forall_mem_map.2 fun f hf => ?_, fun event hevent => ?_⟩
  · obtain ⟨hspan, hstop, -⟩ := faults_ofText text f hf
    exact ⟨hspan, hstop⟩
  · obtain ⟨s, hs, hevent⟩ := List.mem_flatMap.1 hevent
    have he : s.element ∈ (Document.ofText text).elements := by
      rw [elements_eq]
      exact List.mem_map_of_mem hs
    exact s.events_placedIn (spansIn_ofText text _ he) he event hevent

section
variable (hevents : ∀ event ∈ events, event.PlacedIn doc)
include hevents

theorem diagnostic_inText {d : Diagnostic} (hd : d ∈ events.filterMap (·.diagnostic?)) :
    d.span.InText doc.text := by
  obtain ⟨event, hevent, hsome⟩ := List.mem_filterMap.1 hd
  have hplaced := hevents event hevent
  cases event with
  | problem d' =>
    obtain rfl := Option.some.inj hsome
    exact hplaced
  | _ => cases hsome

theorem exists_element_of_annotation {a : Nat × Kind}
    (ha : a ∈ events.filterMap (·.annotation?)) : ∃ e ∈ doc.elements, e.id = a.1 := by
  obtain ⟨event, hevent, hsome⟩ := List.mem_filterMap.1 ha
  have hplaced := hevents event hevent
  cases event with
  | element e d =>
    obtain rfl := Option.some.inj hsome
    exact ⟨e, hplaced, rfl⟩
  | _ => cases hsome

theorem mem_elements_of_elementOf? {kind : Kind}
    (he : e ∈ events.filterMap (·.elementOf? kind)) : e ∈ doc.elements := by
  obtain ⟨event, hevent, hsome⟩ := List.mem_filterMap.1 he
  have hplaced := hevents event hevent
  cases event with
  | element e' d =>
    obtain ⟨-, hsome⟩ := Option.ite_none_right_eq_some.1 hsome
    obtain rfl := Option.some.inj hsome
    exact hplaced
  | _ => cases hsome

/-- The imports of a walk stand in the document: at an element, and there at a value or the name. -/
theorem ImportScope.sites_placedIn (x : ImportScope)
    (hspans : ∀ e ∈ doc.elements, e.SpansIn doc.text) :
    ∀ site ∈ x.sites events, site.PlacedIn doc := by
  have hattribute {e : Element} {name : String} {a : Xml.Attribute} (he : e ∈ doc.elements)
      (ha : e.attribute? name = some a) : a.valueSpan.InText doc.text :=
    ((hspans e he).attributes a (List.mem_of_find?_eq_some ha)).2
  have hsdk (project : String) : ∀ site ∈ (events.filterMap (·.elementOf? .project)).flatMap
      (x.sdkSites project), site.PlacedIn doc := by
    intro site hsite
    obtain ⟨root, hroot, hsite⟩ := List.mem_flatMap.1 hsite
    have hmem := mem_elements_of_elementOf? hevents hroot
    unfold sdkSites at hsite
    split at hsite
    · rename_i a ha
      obtain ⟨sdk, -, rfl⟩ := List.mem_map.1 hsite
      exact ⟨fun _ hspan => Option.some.inj hspan ▸ hattribute hmem ha,
        fun _ hid => ⟨root, hmem, Option.some.inj hid⟩⟩
    · cases hsite
  refine List.forall_mem_append.2 ⟨List.forall_mem_append.2 ⟨hsdk _, ?_⟩, hsdk _⟩
  refine List.forall_mem_map.2 fun e he => ?_
  have hmem := mem_elements_of_elementOf? hevents he
  refine ⟨fun span hspan => ?_, fun _ hid => ⟨e, hmem, Option.some.inj hid⟩⟩
  obtain rfl := Option.some.inj hspan
  cases ha : e.attribute? "Project" with
  | none => exact (hspans e hmem).name
  | some a => exact hattribute hmem ha

end

end ProjectAnalysis
