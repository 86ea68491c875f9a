import ProjectAnalysis.DocumentWalk
import ProjectAnalysis.Proofs.DocumentTree

/-! The walk over a document and the lookup by path agree on what an element is. The walk goes from
the root down and stops at elements that it does not know or must not enter, the lookup is asked
for one path; in every tree, however deep, they tell the same. -/
namespace ProjectAnalysis

open Xml (Element Tree Document Subtree InOrder)

/-- What the lookup by path says of the last of some elements, if none has a qualified name. -/
def Descriptor.ofPath (path : List Element) : Option Descriptor :=
  if path.any (·.name.isQualified) then none else resolvePath (path.map (·.name.localName))

/-- The diagnostic of an unknown element. -/
def WalkEvent.stranger? (event : WalkEvent) : Option Diagnostic :=
  event.diagnostic?.filter (·.kind = .unknownElement)

namespace Xml.Subtree

/-- The number of the element with what the lookup by path says of it. -/
def annotation? (s : Subtree) : Option (Nat × Kind) :=
  (Descriptor.ofPath s.path).map fun d => (s.element.id, d.kind)

/-- Whether the lookup by path does not know the element, which is the root or directly in an
element that it knows and that may be entered. -/
def isStranger (s : Subtree) : Bool :=
  !s.element.name.isQualified && (Descriptor.ofPath s.path).isNone &&
    (s.above.isEmpty || (Descriptor.ofPath s.above).any (!·.isOpaque))

def diagnostic (s : Subtree) : Diagnostic :=
  .unknownElement s.element.name.localName s.element.nameSpan

end Xml.Subtree

variable {name : String} {above path : List Element} {e : Element}
  {d : Descriptor} {parent : Option Descriptor} {kind : Kind}

namespace Descriptor

theorem kind_of? (h : of? kind = some d) : d.kind = kind := by
  cases kind <;> cases h <;> rfl

theorem of?_resolve (h : resolve parent name = some d) : of? d.kind = some d := by
  have hkind : ∃ kind, of? kind = some d := by
    unfold resolve at h
    split at h
    · split at h
      · exact ⟨_, h⟩
      · cases h
    · split at h
      · cases h
      · obtain ⟨kind, -, hkind⟩ := Option.bind_eq_some_iff.1 h
        exact ⟨kind, hkind⟩
  obtain ⟨kind, hkind⟩ := hkind
  rw [kind_of? hkind, hkind]

theorem resolvePath_concat (names : List String) (name : String) :
    resolvePath (names ++ [name]) =
      if names = [] then resolve none name
      else (resolvePath names).bind fun d => resolve (some d) name := by
  have hgo (names : List String) (d : Descriptor) : resolvePath.go (some d) (names ++ [name]) =
      (resolvePath.go (some d) names).bind fun d => resolve (some d) name := by
    induction names generalizing d with
    | nil => simp [resolvePath.go]
    | cons y names ih =>
      rw [List.cons_append, resolvePath.go, resolvePath.go, Option.bind_assoc]
      exact congrArg _ (funext ih)
  cases names with
  | nil => simp [resolvePath, resolvePath.go]
  | cons y names =>
    rw [if_neg (List.cons_ne_nil _ _), resolvePath, resolvePath, List.cons_append,
      resolvePath.go, resolvePath.go, Option.bind_assoc]
    exact congrArg _ (funext (hgo names))

/-- A kind has one description, so the kind of what a path leads to says all of it. -/
theorem of?_ofPath (h : ofPath path = some d) : of? d.kind = some d := by
  unfold ofPath at h
  split at h
  · cases h
  rcases List.eq_nil_or_concat path with rfl | ⟨above, e, rfl⟩
  · cases h
  rw [List.concat_eq_append, List.map_append, List.map_singleton, resolvePath_concat] at h
  split at h
  · exact of?_resolve h
  · obtain ⟨_, -, hlast⟩ := Option.bind_eq_some_iff.1 h
    exact of?_resolve hlast

theorem bind_of?_ofPath (path : List Element) :
    ((ofPath path).map (·.kind)).bind of? = ofPath path := by
  cases h : ofPath path with
  | none => rfl
  | some d => exact of?_ofPath h

theorem ofPath_kind_iff : (ofPath path).map (·.kind) = some kind ↔
    (∀ e ∈ path, e.name.isQualified = false) ∧
      (resolvePath (path.map (·.name.localName))).map (·.kind) = some kind := by
  unfold ofPath
  split
  · next hany =>
    obtain ⟨e, he, hqualified⟩ := List.any_eq_true.1 hany
    exact ⟨nofun, fun h => absurd (hqualified.symm.trans (h.1 e he)) nofun⟩
  · next hany =>
    have hplain : ∀ e ∈ path, e.name.isQualified = false := by simpa using hany
    exact (and_iff_right hplain).symm

/-- Below these elements the walk is not going on: the last one is unknown, or it must not be
entered. -/
def Silent (above : List Element) : Prop :=
  above ≠ [] ∧ ∀ d, ofPath above = some d → d.isOpaque = true

/-- Below these elements the walk is going on, and `parent` is what the last one is. -/
def Entered (above : List Element) (parent : Option Descriptor) : Prop :=
  ofPath above = parent ∧ above.any (·.name.isQualified) = false ∧
    (above = [] ∨ ∃ d, parent = some d ∧ d.isOpaque = false)

theorem ofPath_of_qualified (h : e.name.isQualified = true) : ofPath (above ++ [e]) = none := by
  rw [ofPath, if_pos]
  rw [List.any_append, List.any_cons, h, Bool.true_or, Bool.or_true]

theorem ofPath_concat (he : e.name.isQualified = false)
    (habove : above.any (·.name.isQualified) = false) : ofPath (above ++ [e]) =
      if above = [] then resolve none e.name.localName
      else (ofPath above).bind fun d => resolve (some d) e.name.localName := by
  have hall : (above ++ [e]).any (·.name.isQualified) = false := by
    rw [List.any_append, habove, List.any_cons, he]
    rfl
  rw [ofPath, ofPath, hall, habove, if_neg Bool.false_ne_true, if_neg Bool.false_ne_true,
    List.map_append, List.map_singleton, resolvePath_concat]
  simp only [List.map_eq_nil_iff]

theorem Silent.ofPath_concat (h : Silent above) (e : Element) : ofPath (above ++ [e]) = none := by
  cases he : e.name.isQualified with
  | true => exact ofPath_of_qualified he
  | false =>
    cases habove : above.any (·.name.isQualified) with
    | true =>
      rw [ofPath, if_pos]
      rw [List.any_append, habove, Bool.true_or]
    | false =>
      rw [Descriptor.ofPath_concat he habove, if_neg h.1]
      cases hpath : ofPath above with
      | none => rfl
      | some d => rw [Option.bind_some, resolve, if_pos (h.2 d hpath)]

theorem silent_of_none (h : ofPath (above ++ [e]) = none) : Silent (above ++ [e]) :=
  ⟨List.append_ne_nil_of_right_ne_nil _ (List.cons_ne_nil _ _),
    fun _ hd => absurd (h.symm.trans hd) nofun⟩

theorem silent_of_opaque (h : ofPath (above ++ [e]) = some d) (hshut : d.isOpaque = true) :
    Silent (above ++ [e]) := by
  refine ⟨List.append_ne_nil_of_right_ne_nil _ (List.cons_ne_nil _ _), fun d' hd => ?_⟩
  obtain rfl := Option.some.inj (h.symm.trans hd)
  exact hshut

theorem Entered.ofPath_concat (h : Entered above parent) (he : e.name.isQualified = false) :
    ofPath (above ++ [e]) = resolve parent e.name.localName := by
  obtain ⟨habove, hplain, hcases⟩ := h
  rw [Descriptor.ofPath_concat he hplain, habove]
  split
  · next hnil =>
    subst hnil
    obtain rfl : none = parent := habove
    rfl
  · next hne =>
    obtain ⟨d, rfl, -⟩ := hcases.resolve_left hne
    rfl

theorem Entered.concat (h : Entered above parent) (he : e.name.isQualified = false)
    (hd : resolve parent e.name.localName = some d) (hshut : d.isOpaque = false) :
    Entered (above ++ [e]) (some d) := by
  refine ⟨(h.ofPath_concat he).trans hd, ?_, Or.inr ⟨d, rfl, hshut⟩⟩
  rw [List.any_append, h.2.1, List.any_cons, he]
  rfl

end Descriptor

open Descriptor (Silent Entered ofPath)

mutual

theorem strange_subtrees {above : List Element} (h : Silent above) (t : Tree) :
    ∀ s ∈ t.subtrees above, ofPath s.path = none ∧ s.isStranger = false := by
  match t with
  | .node e children =>
    have hpath := h.ofPath_concat e
    have hstranger : (⟨above, .node e children⟩ : Subtree).isStranger = false := by
      have hclosed : (ofPath above).any (!·.isOpaque) = false := by
        cases habove : ofPath above with
        | none => rfl
        | some d => simp [h.2 d habove]
      have hnil : above.isEmpty = false := List.isEmpty_eq_false_iff.2 h.1
      rw [Subtree.isStranger, hclosed, hnil, Bool.or_false, Bool.and_false]
    rw [Tree.subtrees]
    exact List.forall_mem_cons.2 ⟨⟨hpath, hstranger⟩,
      strange_allSubtrees (Descriptor.silent_of_none hpath) children⟩

/-- Where the walk does not go, the lookup knows nothing, and nothing is worth a diagnostic. -/
theorem strange_allSubtrees {above : List Element} (h : Silent above) (ts : List Tree) :
    ∀ s ∈ Tree.allSubtrees above ts, ofPath s.path = none ∧ s.isStranger = false := by
  match ts with
  | [] => exact List.forall_mem_nil _
  | t :: ts =>
    rw [Tree.allSubtrees]
    exact List.forall_mem_append.2 ⟨strange_subtrees h t, strange_allSubtrees h ts⟩

end

/-- Events that tell of some subtrees what the lookup by path tells of them. -/
structure Tells (events : List WalkEvent) (subtrees : List Subtree) : Prop where
  annotations : events.filterMap WalkEvent.annotation? = subtrees.filterMap Subtree.annotation?
  strangers : events.filterMap WalkEvent.stranger? =
    (subtrees.filter Subtree.isStranger).map Subtree.diagnostic

namespace Tells

variable {events more : List WalkEvent} {ss us : List Subtree}

theorem append (h : Tells events ss) (hmore : Tells more us) :
    Tells (events ++ more) (ss ++ us) where
  annotations := by
    rw [List.filterMap_append, List.filterMap_append, h.annotations, hmore.annotations]
  strangers := by
    rw [List.filterMap_append, List.filter_append, List.map_append, h.strangers, hmore.strangers]

theorem single {s : Subtree}
    (hnote : events.filterMap WalkEvent.annotation? = s.annotation?.toList)
    (hstranger : events.filterMap WalkEvent.stranger? =
      if s.isStranger then [s.diagnostic] else []) : Tells events [s] where
  annotations := by
    rw [hnote, List.filterMap_cons]
    cases s.annotation? <;> rfl
  strangers := by
    rw [hstranger, List.filter_singleton]
    cases s.isStranger <;> rfl

theorem nothing (h : ∀ s ∈ ss, ofPath s.path = none ∧ s.isStranger = false) : Tells [] ss where
  annotations := by
    refine (List.filterMap_eq_nil_iff.2 fun s hs => ?_).symm
    rw [Subtree.annotation?, (h s hs).1]
    rfl
  strangers := by
    have hnone : ss.filter Subtree.isStranger = [] :=
      List.filter_eq_nil_iff.2 fun s hs => by rw [(h s hs).2]; exact Bool.false_ne_true
    rw [hnone]
    rfl

/-- Events that say of no element what it is or that it is unknown. -/
theorem minor (h : ∀ event ∈ events, event.annotation? = none ∧ event.stranger? = none) :
    Tells events [] where
  annotations := List.filterMap_eq_nil_iff.2 fun event hevent => (h event hevent).1
  strangers := List.filterMap_eq_nil_iff.2 fun event hevent => (h event hevent).2

end Tells

namespace DocumentWalk

variable {item : Option Element}

theorem tells_unknownAttributes (e : Element) (d : Descriptor) :
    Tells (unknownAttributes e d) [] := by
  refine .minor fun event hevent => ?_
  unfold unknownAttributes at hevent
  split at hevent
  · exact absurd hevent List.not_mem_nil
  · obtain ⟨a, -, rfl⟩ := List.mem_map.1 hevent
    exact ⟨rfl, rfl⟩

theorem minor_value {options : Expr.Options} {text : String} {map : Xml.OffsetMap} {span : Span}
    {owner : Option String} : ∀ event ∈ value options text map span owner,
      event.annotation? = none ∧ event.stranger? = none := by
  unfold value
  split
  · exact List.forall_mem_nil _
  · split
    · exact List.forall_mem_map.2 fun r _ => ⟨rfl, rfl⟩
    · exact List.forall_mem_singleton.2 ⟨rfl, rfl⟩

theorem tells_attributeValues (e : Element) (kind : Kind) (owner : Option String) :
    Tells (attributeValues e kind owner) [] := by
  refine .minor fun event hevent => ?_
  obtain ⟨a, -, hvalue⟩ := List.mem_flatMap.1 hevent
  exact minor_value event hvalue

theorem tells_textValue (e : Element) (d : Descriptor) (owner : Option String) :
    Tells (textValue e d owner) [] := by
  refine .minor ?_
  unfold textValue
  split
  · exact List.forall_mem_nil _
  · split
    · exact minor_value
    · exact List.forall_mem_nil _

/-- Of all the events of a known element one tells what it is. -/
theorem tells_ownEvents (hd : ofPath (above ++ [e]) = some d) (children : List Tree) :
    Tells (ownEvents e d item) [⟨above, .node e children⟩] := by
  have hknown : Tells [.element e d] [⟨above, .node e children⟩] := by
    have hpath : ofPath (⟨above, .node e children⟩ : Subtree).path = some d := hd
    refine .single ?_ ?_
    · rw [Subtree.annotation?, hpath]
      rfl
    · rw [Subtree.isStranger, hpath, Option.isNone_some, Bool.and_false, Bool.false_and]
      rfl
  unfold ownEvents
  refine (tells_unknownAttributes e d).append (hknown.append (Tells.append (Tells.append
    (.minor ?_) (tells_attributeValues e d.kind _)) (tells_textValue e d _)))
  split
  · split
    · exact List.forall_mem_singleton.2 ⟨rfl, rfl⟩
    · exact List.forall_mem_nil _
  · exact List.forall_mem_nil _

/-- An unknown element in a place where the walk is going on has a diagnostic. -/
theorem tells_unknown (h : Entered above parent) (he : e.name.isQualified = false)
    (hnone : ofPath (above ++ [e]) = none) (children : List Tree) :
    Tells [.problem (.unknownElement e.name.localName e.nameSpan), .unknown e]
      [⟨above, .node e children⟩] := by
  have hpath : ofPath (⟨above, .node e children⟩ : Subtree).path = none := hnone
  have hopen : (above.isEmpty || (ofPath above).any (!·.isOpaque)) = true := by
    rcases h.2.2 with rfl | ⟨d, rfl, hshut⟩
    · rfl
    · rw [h.1, Option.any_some, hshut, Bool.not_false, Bool.or_true]
  refine .single ?_ ?_
  · rw [Subtree.annotation?, hpath]
    rfl
  · rw [Subtree.isStranger, hpath, hopen, Subtree.element, Tree.root, he]
    rfl

mutual

theorem tells_events {above : List Element} {parent : Option Descriptor}
    (h : Entered above parent) (item : Option Element) (t : Tree) :
    Tells (events parent item t) (t.subtrees above) := by
  match t with
  | .node e children =>
    rw [events, Tree.subtrees]
    -- Where the walk stops, every path that goes on from there leads to nothing as well.
    cases he : e.name.isQualified with
    | true =>
      have hnone : ofPath (above ++ [e]) = none := Descriptor.ofPath_of_qualified he
      refine .nothing (List.forall_mem_cons.2 ⟨⟨hnone, ?_⟩,
        strange_allSubtrees (Descriptor.silent_of_none hnone) children⟩)
      rw [Subtree.isStranger, Subtree.element, Tree.root, he]
      rfl
    | false =>
      have hpath := h.ofPath_concat he
      rw [if_neg Bool.false_ne_true]
      cases hd : Descriptor.resolve parent e.name.localName with
      | none =>
        rw [hd] at hpath
        exact (tells_unknown h he hpath children).append
          (.nothing (strange_allSubtrees (Descriptor.silent_of_none hpath) children))
      | some d =>
        rw [hd] at hpath
        refine (tells_ownEvents hpath children).append ?_
        cases hshut : d.isOpaque with
        | true =>
          exact .nothing (strange_allSubtrees (Descriptor.silent_of_opaque hpath hshut) children)
        | false => exact tells_allEvents (h.concat he hd hshut) _ children

/-- Wherever the walk goes it tells what the lookup by path tells. -/
theorem tells_allEvents {above : List Element} {parent : Option Descriptor}
    (h : Entered above parent) (item : Option Element) (ts : List Tree) :
    Tells (allEvents parent item ts) (Tree.allSubtrees above ts) := by
  match ts with
  | [] => exact ⟨rfl, rfl⟩
  | t :: ts =>
    rw [allEvents, Tree.allSubtrees]
    exact (tells_events h item t).append (tells_allEvents h item ts)

end

end DocumentWalk

namespace Xml.Document

/-- What the walk annotates the element with this number with. -/
def kindOf? (doc : Document) (id : Nat) : Option Kind :=
  ((doc.walk.filterMap (·.annotation?)).find? (·.1 = id)).map (·.2)

/-- Whether the walk leaves an element with a plain name without annotation, and it is the root or
the child of an annotated element that may be entered. -/
def isStranger (doc : Document) (s : Subtree) : Bool :=
  !s.element.name.isQualified && (doc.kindOf? s.element.id).isNone &&
    s.placed.parent.all fun p => ((doc.kindOf? p).bind Descriptor.of?).any (!·.isOpaque)

theorem tells_walk (doc : Document) : Tells doc.walk doc.subtrees := by
  have hfaults : Tells (doc.faults.map fun f => .problem (.malformedXml f.message f.span)) [] :=
    .minor (List.forall_mem_map.2 fun f _ => ⟨rfl, rfl⟩)
  have hstart : Entered [] none := ⟨rfl, rfl, Or.inl rfl⟩
  have hroot : (doc.root.map (DocumentWalk.events none none)).getD [] =
      DocumentWalk.allEvents none none doc.root.toList := by
    cases doc.root with
    | none => rfl
    | some t => exact (List.append_nil _).symm
  rw [walk, hroot]
  exact hfaults.append (DocumentWalk.tells_allEvents hstart none _)

section
variable {doc : Document} {P : Tree → Prop} {n hi : Nat} {s : Subtree}

/-- Elements are numbered apart, so what is said of the number is said of the element. -/
theorem kindOf?_eq (h : InOrder P 0 0 doc.root.toList n hi) (hs : s ∈ doc.subtrees) :
    doc.kindOf? s.element.id = (ofPath s.path).map (·.kind) := by
  -- An annotation with this number is one of this subtree.
  have hfound : ∀ a ∈ doc.subtrees.filterMap Subtree.annotation?, a.1 = s.element.id →
      s.annotation? = some a := by
    intro a ha hid
    obtain ⟨q, hq, hnote⟩ := List.mem_filterMap.1 ha
    obtain ⟨d, -, rfl⟩ := Option.map_eq_some_iff.1 hnote
    rwa [h.subtree_unique hs hq hid.symm]
  rw [kindOf?, doc.tells_walk.annotations]
  cases hfind : (doc.subtrees.filterMap Subtree.annotation?).find? (·.1 = s.element.id) with
  | none =>
    cases hpath : ofPath s.path with
    | none => rfl
    | some d =>
      have hnote : s.annotation? = some (s.element.id, d.kind) := by
        rw [Subtree.annotation?, hpath]
        rfl
      have hmem := List.mem_filterMap.2 ⟨s, hs, hnote⟩
      exact absurd (decide_eq_true rfl) (List.find?_eq_none.1 hfind _ hmem)
  | some a =>
    have hid := List.find?_some hfind
    have hnote := hfound a (List.mem_of_find?_eq_some hfind) (of_decide_eq_true hid)
    obtain ⟨d, hpath, rfl⟩ := Option.map_eq_some_iff.1 hnote
    rw [hpath]
    rfl

theorem isStranger_eq (h : InOrder P 0 0 doc.root.toList n hi) (hs : s ∈ doc.subtrees) :
    s.isStranger = doc.isStranger s := by
  have hparent : (s.above.isEmpty || (ofPath s.above).any (!·.isOpaque)) =
      s.placed.parent.all fun p => ((doc.kindOf? p).bind Descriptor.of?).any (!·.isOpaque) := by
    rcases Tree.allSubtrees_parent [] _ hs with ⟨habove, -⟩ | ⟨q, hq, hlink⟩
    · rw [Subtree.placed, habove]
      rfl
    · have hnonempty : q.path.isEmpty = false := by simp [Subtree.path]
      rw [(h.parent_iff hs hq).2 hlink, Option.all_some, kindOf?_eq h hq,
        Descriptor.bind_of?_ofPath, hlink.1, hnonempty, Bool.false_or]
  rw [Subtree.isStranger, isStranger, hparent, kindOf?_eq h hs, Option.isNone_map]

end

/-- The walk annotates an element with what the lookup by path says of it if no name on its path is
qualified, and it reports as unknown, in order, the other elements that stand where it looks. -/
theorem walk_agrees_lookup (text : String) :
    (∀ s ∈ (ofText text).subtrees, ∀ kind, (ofText text).kindOf? s.element.id = some kind ↔
      (∀ e ∈ s.path, e.name.isQualified = false) ∧
        (Descriptor.resolvePath (s.path.map (·.name.localName))).map (·.kind) = some kind) ∧
    (ofText text).walk.filterMap (·.stranger?) =
      ((ofText text).subtrees.filter (ofText text).isStranger).map Subtree.diagnostic := by
  obtain ⟨n, h⟩ := Xml.inOrder_ofText text
  refine ⟨fun s hs kind => ?_, ?_⟩
  · rw [kindOf?_eq h hs]
    exact Descriptor.ofPath_kind_iff
  · have hsame := List.filter_congr fun s hs => isStranger_eq h hs
    exact hsame ▸ (ofText text).tells_walk.strangers

example :
    (ofText ("<Project><PropertyGroup><Output/></PropertyGroup><Target><Csc><Output/></Csc>" ++
      "</Target><x:A><Target/></x:A><B><Target/></B></Project>")).walk.filterMap (·.annotation?) =
      [(0, .project), (1, .propertyGroup), (2, .property), (3, .target), (4, .task),
        (5, .output)] := by
  decide +kernel

end Xml.Document

end ProjectAnalysis
