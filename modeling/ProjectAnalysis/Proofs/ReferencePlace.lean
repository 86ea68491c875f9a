import ProjectAnalysis.DocumentWalk
import ProjectAnalysis.Proofs.DocumentTree
import ProjectAnalysis.Proofs.ReferenceText

/-! The references that a walk over a document meets stand in the document where they are reported:
what the document has there is what the value has at the reference, as long as neither a reference
to a character nor the end of a stretch of source comes in between. -/
namespace ProjectAnalysis.Xml

open ProjectAnalysis.Expr (Inside)

/-- A value of a document, with the stretches of source that it was put together from. -/
structure SourceValue where
  text : String
  map : OffsetMap
  segments : List Segment

/-- A stretch of source stands in the text from its base on. -/
def Segment.StandsIn (text : List Char) (s : Segment) : Prop :=
  s.raw = [] ∨ (Span.mk s.base (s.base + byteLength s.raw)).slice? text = some s.raw

/-- The value is what its stretches of source come to, and these stand in the text. -/
structure SourceValue.GatheredFrom (text : List Char) (v : SourceValue) : Prop where
  text_eq : v.text = String.ofList (gather v.segments).chars
  map_eq : v.map = (gather v.segments).map
  stands : ∀ s ∈ v.segments, s.StandsIn text

/-- The values of an element: those of its attributes, and its content. -/
def Subtree.values (text : List Char) (pieces : List SourcePiece) (s : Subtree) :
    List SourceValue :=
  s.element.attributes.map (fun a => ⟨a.value, a.map, [a.segment text]⟩) ++
    s.element.content.toList.map fun c => ⟨c.value, c.map, (directPieces pieces
      s.element.span.start s.element.span.stop s.tree.children).map (·.segment text)⟩

variable {text cs ws : List Char} {all : List SourcePiece} {clean : Prop} {t : Tree}
  {s : Subtree} {v : SourceValue} {segments : List Segment} {value document : Nat}
  {r : Expr.Reference} {item : Option String}

theorem standsIn_slice (span : Span) (verbatim : Bool) :
    Segment.StandsIn text ⟨span.start, (span.slice? text).getD [], verbatim⟩ := by
  unfold Segment.StandsIn
  cases hslice : span.slice? text with
  | none => exact Or.inl rfl
  | some raw =>
    obtain ⟨-, -, -, -, hstop⟩ := Span.split_of_slice? hslice
    right
    dsimp only [Option.getD_some]
    rw [← hstop]
    exact hslice

/-- The values of a finished element are put together from the text. -/
theorem Tree.Closed.gatheredFrom (h : t.Closed text all clean) (above : List Element) :
    ∀ v ∈ (Subtree.mk above t).values text all, v.GatheredFrom text := by
  obtain ⟨tag, span, hstands, -, -, -, -, hattributes⟩ := h.standsAt
  obtain ⟨raw, -, hread⟩ := hstands.read
  refine List.forall_mem_append.2 ⟨?_, ?_⟩
  · refine List.forall_mem_map.2 fun a ha => ?_
    have ha : a ∈ tag.attributes := hattributes ▸ ha
    obtain ⟨hvalue, hmap⟩ := hread.attributes.gathered a ha
    exact ⟨hvalue, hmap, List.forall_mem_singleton.2 (standsIn_slice _ _)⟩
  · refine List.forall_mem_map.2 fun c hc => ?_
    have hcontent := h.content
    rw [show t.root.content = some c from Option.mem_toList.1 hc] at hcontent
    obtain ⟨content, hsome, rfl⟩ := Option.map_eq_some_iff.1 hcontent.symm
    have hmapped := contentOf_mapped hsome
    exact ⟨congrArg (String.ofList ·.chars) hmapped, congrArg Mapped.map hmapped,
      List.forall_mem_map.2 fun _ _ => standsIn_slice _ _⟩

/-- What was copied stands in the text where it comes from. -/
theorem Copied.split (h : Copied segments value document cs)
    (hstands : ∀ s ∈ segments, s.StandsIn text) (hne : cs ≠ []) :
    ∃ before after, text = before ++ (cs ++ after) ∧ document = byteLength before := by
  induction h with
  | @here s more before lead cs after hraw _ _ =>
    have hslice := (hstands s List.mem_cons_self).resolve_left (by simp [hraw, hne])
    obtain ⟨first, last, rfl, hbase, -⟩ := Span.split_of_slice? hslice
    dsimp only at hbase
    refine ⟨first ++ before, after ++ last, ?_, ?_⟩
    · rw [hraw]
      simp only [List.append_assoc]
    · rw [byteLength_append, hbase]
  | behind _ _ ih => exact ih (List.forall_mem_cons.1 hstands).2 hne

/-- The document has at the reported place what the value has at the span, if that is within what
was copied. -/
theorem SourceValue.GatheredFrom.slice (h : v.GatheredFrom text)
    (hcopied : Copied v.segments value document cs) {span : Span}
    (hvalue : span.slice? v.text.toList = some ws) (hne : ws ≠ []) (hlo : value ≤ span.start)
    (hhi : span.stop ≤ value + byteLength cs) :
    (v.map.spanToDocument span).slice? text = some ws := by
  obtain ⟨n, hwidth, hleads, hgrows⟩ := hcopied.leads (m := .empty) nofun
  rw [show byteLength Mapped.empty.chars = 0 from rfl, Nat.zero_add] at hwidth
  obtain ⟨before, after, hsplit, hstart, hstop⟩ := Span.split_of_slice? hvalue
  have hpos := byteLength_pos hne
  -- The span is within what was copied, so what stands there is a part of that.
  obtain ⟨u, w, hcs, hu⟩ : ∃ u w, cs = u ++ ws ++ w ∧ value + byteLength u = span.start := by
    obtain ⟨more, -, hchars, -⟩ := hgrows
    have hwhole : n.chars ++ (cs ++ more) = before ++ (ws ++ after) := by
      rw [← hsplit, h.text_eq, String.toList_ofList, ← List.append_assoc]
      exact hchars.symm
    obtain ⟨u, rfl, hbehind⟩ := split_of_byteLength_le hwhole (by omega)
    rw [byteLength_append, hwidth] at hstart
    rw [← List.append_assoc] at hbehind
    obtain ⟨w, hcs, -⟩ := split_of_byteLength_le hbehind.symm (by rw [byteLength_append]; omega)
    exact ⟨u, w, hcs, hstart.symm⟩
  have hcsne : cs ≠ [] := by
    rw [hcs]
    simp [hne]
  obtain ⟨first, last, rfl, hdocument⟩ := hcopied.split h.stands hcsne
  have hspan := hleads.span hgrows (hwidth ▸ hlo) (by omega) (hwidth ▸ hhi)
  rw [hwidth, hdocument] at hspan
  have hslice := slice?_append (first ++ u) ws (w ++ last)
  have hplace : byteLength first + (span.start - value) = byteLength (first ++ u) ∧
      byteLength first + (span.stop - value) = byteLength (first ++ u) + byteLength ws := by
    rw [byteLength_append]
    omega
  rw [h.map_eq]
  change ((gather v.segments).map.spanToDocument span).slice? _ = _
  rw [gather, hspan, hplace.1, hplace.2, hcs]
  simpa only [List.append_assoc] using hslice

/-- The value is read as an expression in which this reference stands, and the walk tells of it with
its span in the document. -/
def SourceValue.Reports (v : SourceValue) (ref r : Expr.Reference) : Prop :=
  ∃ (options : Expr.Options) (root : Expr.Node), Expr.parse options v.text = .ok root ∧
    ref ∈ root.references ∧ r = { ref with span := v.map.spanToDocument ref.span }

section
variable {e : Element} {d : Descriptor} {owner : Option Element}

theorem reports_of_value {options : Expr.Options} {span : Span} {item' : Option String}
    (h : .reference r item ∈ DocumentWalk.value options v.text v.map span item') :
    ∃ ref, v.Reports ref r := by
  unfold DocumentWalk.value at h
  split at h
  · exact absurd h List.not_mem_nil
  · split at h
    · rename_i root hroot
      obtain ⟨ref, href, heq⟩ := List.mem_map.1 h
      exact ⟨ref, options, root, hroot, href, (WalkEvent.reference.inj heq).1.symm⟩
    · exact absurd (List.mem_singleton.1 h) nofun

theorem reports_of_attributeValues {kind : Kind} {item' : Option String} (text : List Char)
    (all : List SourcePiece) (s : Subtree)
    (h : .reference r item ∈ DocumentWalk.attributeValues s.element kind item') :
    ∃ v ∈ s.values text all, ∃ ref, v.Reports ref r := by
  obtain ⟨a, ha, hvalue⟩ := List.mem_flatMap.1 h
  have hmem := List.mem_map_of_mem
    (f := fun a : Attribute => (⟨a.value, a.map, [a.segment text]⟩ : SourceValue))
    (List.mem_filter.1 ha).1
  exact ⟨_, List.mem_append_left _ hmem, reports_of_value (v := ⟨_, _, _⟩) hvalue⟩

theorem reports_of_textValue {item' : Option String} (text : List Char) (all : List SourcePiece)
    (s : Subtree) (h : .reference r item ∈ DocumentWalk.textValue s.element d item') :
    ∃ v ∈ s.values text all, ∃ ref, v.Reports ref r := by
  unfold DocumentWalk.textValue at h
  split at h
  · exact absurd h List.not_mem_nil
  · split at h
    · rename_i c hc
      refine ⟨⟨c.value, c.map, _⟩, List.mem_append_right _ (List.mem_map.2 ⟨c, ?_, rfl⟩),
        reports_of_value (v := ⟨c.value, c.map, _⟩) h⟩
      exact Option.mem_toList.2 hc
    · exact absurd h List.not_mem_nil

/-- Of the events of an element those of its values are the references. -/
theorem reference_of_ownEvents (h : .reference r item ∈ DocumentWalk.ownEvents e d owner) :
    .reference r item ∈
        DocumentWalk.attributeValues e d.kind (owner.map (·.name.localName)) ∨
      .reference r item ∈ DocumentWalk.textValue e d (owner.map (·.name.localName)) := by
  unfold DocumentWalk.ownEvents at h
  rcases List.mem_append.1 h with h | h
  · unfold DocumentWalk.unknownAttributes at h
    split at h
    · exact absurd h List.not_mem_nil
    · obtain ⟨a, -, heq⟩ := List.mem_map.1 h
      cases heq
  · rcases List.mem_append.1 ((List.mem_cons.1 h).resolve_left nofun) with h | h
    · refine Or.inl ((List.mem_append.1 h).resolve_left fun h => ?_)
      split at h
      · split at h
        · exact absurd (List.mem_singleton.1 h) nofun
        · exact absurd h List.not_mem_nil
      · exact absurd h List.not_mem_nil
    · exact Or.inr h

/-- The references that the walk meets at an element are those of its values. -/
theorem reports_of_ownEvents (text : List Char) (all : List SourcePiece) (s : Subtree)
    (h : .reference r item ∈ DocumentWalk.ownEvents s.element d owner) :
    ∃ v ∈ s.values text all, ∃ ref, v.Reports ref r := by
  rcases reference_of_ownEvents h with h | h
  · exact reports_of_attributeValues text all s h
  · exact reports_of_textValue text all s h

mutual

theorem reports_of_events (text : List Char) (all : List SourcePiece) (above : List Element)
    (parent : Option Descriptor) (owner : Option Element) (t : Tree)
    (h : .reference r item ∈ DocumentWalk.events parent owner t) :
    ∃ s ∈ t.subtrees above, ∃ v ∈ s.values text all, ∃ ref, v.Reports ref r := by
  match t with
  | .node e children =>
    rw [DocumentWalk.events] at h
    rw [Tree.subtrees]
    split at h
    · exact absurd h List.not_mem_nil
    · split at h
      · simp at h
      · dsimp only at h
        rcases List.mem_append.1 h with h | h
        · exact ⟨_, List.mem_cons_self,
            reports_of_ownEvents text all ⟨above, .node e children⟩ h⟩
        · split at h
          · exact absurd h List.not_mem_nil
          · obtain ⟨s, hs, hreports⟩ :=
              reports_of_allEvents text all (above ++ [e]) _ _ children h
            exact ⟨s, List.mem_cons_of_mem _ hs, hreports⟩

/-- The references that the walk meets in some trees are those of the values in them. -/
theorem reports_of_allEvents (text : List Char) (all : List SourcePiece) (above : List Element)
    (parent : Option Descriptor) (owner : Option Element) (ts : List Tree)
    (h : .reference r item ∈ DocumentWalk.allEvents parent owner ts) :
    ∃ s ∈ Tree.allSubtrees above ts, ∃ v ∈ s.values text all, ∃ ref, v.Reports ref r := by
  match ts with
  | [] => exact absurd h List.not_mem_nil
  | t :: ts =>
    rw [DocumentWalk.allEvents] at h
    rw [Tree.allSubtrees]
    rcases List.mem_append.1 h with h | h
    · obtain ⟨s, hs, hreports⟩ := reports_of_events text all above parent owner t h
      exact ⟨s, List.mem_append_left _ hs, hreports⟩
    · obtain ⟨s, hs, hreports⟩ := reports_of_allEvents text all above parent owner ts h
      exact ⟨s, List.mem_append_right _ hs, hreports⟩

end

end

/-- Every reference that a walk reports is a reference of an expression in one of the values of the
document. If it stands within what was copied, the document has at its span what the value has at
the reference, and for a property that is the name. -/
theorem walk_reference_slice (text : String)
    (h : .reference r item ∈ (Document.ofText text).walk) :
    ∃ s ∈ (Document.ofText text).subtrees, ∃ v ∈ s.values text.toList (piecesOf text),
      v.GatheredFrom text.toList ∧ ∃ ref, v.Reports ref r ∧
        ∀ value document cs, Copied v.segments value document cs → value ≤ ref.span.start →
          ref.span.stop ≤ value + byteLength cs →
          ∃ ws, ref.span.slice? v.text.toList = some ws ∧ r.span.slice? text.toList = some ws ∧
            (ref.referent = .property → ws = ref.name.toList) := by
  have hroot : .reference r item ∈
      DocumentWalk.allEvents none none (Document.ofText text).root.toList := by
    rcases List.mem_append.1 h with h | h
    · obtain ⟨f, -, heq⟩ := List.mem_map.1 h
      cases heq
    · cases hroot : (Document.ofText text).root with
      | none =>
        rw [hroot] at h
        exact absurd h List.not_mem_nil
      | some t =>
        rw [hroot] at h
        exact List.mem_append_left _ h
  obtain ⟨s, hs, v, hv, ref, hreports⟩ :=
    reports_of_allEvents text.toList (piecesOf text) [] none none _ hroot
  obtain ⟨n, horder⟩ := inOrder_ofText text
  have hgathered := (horder.subtree hs).1.gatheredFrom s.above v hv
  refine ⟨s, hs, v, hv, hgathered, ref, hreports, fun value document cs hcopied hlo hhi => ?_⟩
  obtain ⟨options, root, hparse, href, rfl⟩ := hreports
  obtain ⟨x, more, hslice, hname⟩ := Expr.parse_mentions hparse ref href
  exact ⟨x :: more, hslice, hgathered.slice hcopied hslice (List.cons_ne_nil _ _) hlo hhi,
    fun hproperty => (hname hproperty).symm⟩

/-- A property behind escaped characters, a comment, raw data and characters of two bytes. -/
theorem walk_reference_slice_mixed :
    let text := "<Project><PropertyGroup><P>é&lt;$(A)<!-- é --><![CDATA[&$(B)]]>&#233;$(C)&amp;" ++
      "</P></PropertyGroup></Project>"
    ∃ r item, .reference r item ∈ (Document.ofText text).walk ∧ r.name = "C" ∧
      ∃ s ∈ (Document.ofText text).subtrees, ∃ v ∈ s.values text.toList (piecesOf text),
        v.GatheredFrom text.toList ∧ ∃ ref, v.Reports ref r ∧
          ∀ value document cs, Copied v.segments value document cs → value ≤ ref.span.start →
            ref.span.stop ≤ value + byteLength cs →
            ∃ ws, ref.span.slice? v.text.toList = some ws ∧ r.span.slice? text.toList = some ws ∧
              (ref.referent = .property → ws = ref.name.toList) := by
  intro text
  have hany : ((Document.ofText text).walk.any fun
      | .reference r _ => r.name = "C"
      | _ => false) = true := by decide +kernel
  obtain ⟨event, hmem, hevent⟩ := List.any_eq_true.1 hany
  cases event with
  | reference r item =>
    exact ⟨r, item, hmem, of_decide_eq_true hevent, walk_reference_slice text hmem⟩
  | element | unknown | metadata | problem => cases hevent

example :
    let text := "<Project><PropertyGroup><P>é&lt;$(A)<!-- é --><![CDATA[&$(B)]]>&#233;$(C)&amp;" ++
      "</P></PropertyGroup></Project>"
    ((Document.ofText text).walk.filterMap fun
      | .reference r _ => r.span.slice? text.toList
      | _ => none) = [['A'], ['B'], ['C']] := by decide +kernel

end ProjectAnalysis.Xml
