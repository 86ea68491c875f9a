import Mathlib.Data.List.Induction
import Mathlib.Data.List.TakeWhile
import ProjectAnalysis.Proofs.DocumentTree

/-! The anchors of a value are in order, and from each to the next the document goes on at least as
far as the value does. So the offsets of a value are taken to the document in order, and none is
taken out of the span that the value was read from. -/
namespace ProjectAnalysis.Xml

/-- The second anchor is not before the first, and the document goes at least as far to it as the
value. -/
def Anchor.LeadsTo (a b : Anchor) : Prop :=
  a.value ≤ b.value ∧ a.document + (b.value - a.value) ≤ b.document

/-- The map takes the offsets of a value of some width into a span, and keeps their order. -/
structure OffsetMap.OrderedInto (m : OffsetMap) (width : Nat) (span : Span) : Prop where
  start_mono : ∀ v v', v ≤ v' → v' ≤ width → m.toDocument v ≤ m.toDocument v'
  stop_mono : ∀ v v', v ≤ v' → v' ≤ width → m.endToDocument v ≤ m.endToDocument v'
  stop_le_start : ∀ v ≤ width, m.endToDocument v ≤ m.toDocument v
  start_within : ∀ v ≤ width, span.start ≤ m.toDocument v ∧ m.toDocument v ≤ span.stop
  stop_within : ∀ v ≤ width, span.start ≤ m.endToDocument v ∧ m.endToDocument v ≤ span.stop
  /-- No offset is counted from an anchor behind it. -/
  start_anchor : ∀ v ≤ width, ∃ a, m.lastBefore (·.value ≤ v) = some a ∧ a.value ≤ v
  stop_anchor : ∀ v ≤ width, ∃ a, m.lastBefore (·.value < v) = some a ∧ a.value ≤ v

namespace Mapped

/-- The anchors of a value, and its end at an offset of the document as one more. -/
def marks (m : Mapped) (hi : Nat) : List Anchor :=
  m.map.anchors ++ [⟨byteLength m.chars, hi⟩]

/-- The value was put together from what stands between two offsets, from front to back. -/
structure Advances (m : Mapped) (lo hi : Nat) : Prop where
  first : ∃ a, m.map.anchors.head? = some a ∧ a.value = 0
  sorted : (m.marks hi).Pairwise Anchor.LeadsTo
  start_le : ∀ a ∈ m.map.anchors, lo ≤ a.document

end Mapped

variable {m : Mapped} {lo hi base : Nat} {cs : List Char} {a b : Anchor}

/-- If a test holds wherever another one does, it goes on at least as far. -/
theorem length_takeWhile_le {α : Type} {p q : α → Bool} (h : ∀ x, p x = true → q x = true)
    (xs : List α) : (xs.takeWhile p).length ≤ (xs.takeWhile q).length := by
  have hboth : (fun x => decide (p x = true ∧ q x = true)) = p := by
    funext x
    by_cases hx : p x = true
    · simp [hx, h x hx]
    · simp [hx]
  have hprefix := List.takeWhile_prefix p (l := xs.takeWhile q)
  rw [List.takeWhile_takeWhile, hboth] at hprefix
  exact hprefix.length_le

namespace OffsetMap

variable {m : OffsetMap} {p q : Anchor → Bool}

/-- The anchor that offsets are counted from, by its number. -/
theorem lastBefore_eq (m : OffsetMap) (test : Anchor → Bool) :
    m.lastBefore test = m.anchors[(m.anchors.takeWhile test).length - 1]? := by
  have hprefix := List.takeWhile_prefix test (l := m.anchors)
  rw [lastBefore, List.getLast?_eq_getElem?]
  by_cases hnone : m.anchors.takeWhile test = []
  · rw [hnone]
    exact List.head?_eq_getElem?
  · have hpos := List.length_pos_of_ne_nil hnone
    have hlast : (m.anchors.takeWhile test).length - 1 < (m.anchors.takeWhile test).length := by
      omega
    have hfound := List.getElem?_eq_getElem hlast
    rw [hfound, Option.some_or, hprefix.getElem hlast, List.getElem?_eq_getElem]

/-- Where all that passes one test passes another one, the first has no later anchor. -/
theorem leadsTo_of_lastBefore (hsorted : m.anchors.Pairwise Anchor.LeadsTo)
    (h : ∀ a, p a = true → q a = true) (ha : m.lastBefore p = some a)
    (hb : m.lastBefore q = some b) : a = b ∨ a.LeadsTo b := by
  rw [lastBefore_eq] at ha hb
  obtain ⟨hi, rfl⟩ := List.getElem?_eq_some_iff.1 ha
  obtain ⟨hj, rfl⟩ := List.getElem?_eq_some_iff.1 hb
  have hle := length_takeWhile_le h m.anchors
  rcases Nat.lt_or_ge ((m.anchors.takeWhile p).length - 1)
    ((m.anchors.takeWhile q).length - 1) with hlt | hge
  · exact Or.inr (List.pairwise_iff_getElem.1 hsorted _ _ hi hj hlt)
  · left
    have hsame : (m.anchors.takeWhile p).length - 1 = (m.anchors.takeWhile q).length - 1 := by
      omega
    simp only [hsame]

/-- Counting from a later anchor gives no smaller offset. -/
theorem fromAnchor_le {v v' : Nat} (h : a = b ∨ a.LeadsTo b) (hb : b.value ≤ v') (hle : v ≤ v') :
    fromAnchor (some a) v ≤ fromAnchor (some b) v' := by
  change a.document + (v - a.value) ≤ b.document + (v' - b.value)
  rcases h with rfl | ⟨hvalue, hdocument⟩
  · omega
  · omega

end OffsetMap

namespace Mapped

/-- What the end is led to by is known of the anchors alone. -/
theorem pairwise_marks : (m.marks hi).Pairwise Anchor.LeadsTo ↔
    m.map.anchors.Pairwise Anchor.LeadsTo ∧
      ∀ a ∈ m.map.anchors, a.LeadsTo ⟨byteLength m.chars, hi⟩ := by
  rw [marks, List.pairwise_append]
  simp

namespace Advances

theorem weaken (h : m.Advances lo hi) {hi' : Nat} (hle : hi ≤ hi') : m.Advances lo hi' := by
  obtain ⟨hanchors, hend⟩ := pairwise_marks.1 h.sorted
  refine ⟨h.first, pairwise_marks.2 ⟨hanchors, fun a ha => ?_⟩, h.start_le⟩
  exact ⟨(hend a ha).1, Nat.le_trans (hend a ha).2 hle⟩

/-- A value that grows by no more than the document does. -/
theorem append (h : m.Advances lo hi) (hle : hi + byteLength cs ≤ base) :
    (m.append cs).Advances lo base := by
  obtain ⟨hanchors, hend⟩ := pairwise_marks.1 h.sorted
  refine ⟨h.first, pairwise_marks.2 ⟨hanchors, fun a ha => ?_⟩, h.start_le⟩
  obtain ⟨hvalue, hdocument⟩ := hend a ha
  dsimp only at hvalue hdocument
  simp only [Anchor.LeadsTo, Mapped.append, byteLength_append]
  omega

theorem le (h : m.Advances lo hi) : lo ≤ hi := by
  obtain ⟨a, ha, -⟩ := h.first
  have hmem := List.mem_of_mem_head? ha
  have hstart := h.start_le a hmem
  have hend := ((pairwise_marks.1 h.sorted).2 a hmem).2
  dsimp only at hend
  omega

/-- Behind an anchor at the end of the value the document may have gone on. -/
theorem anchor (h : m.Advances lo hi) (hle : hi ≤ base) : (m.anchor base).Advances lo base := by
  have hlater := h.weaken hle
  have hend := (pairwise_marks.1 hlater.sorted).2
  obtain ⟨first, hfirst, hzero⟩ := h.first
  -- What was the end is now the last anchor.
  refine ⟨⟨first, ?_, hzero⟩, pairwise_marks.2 ⟨hlater.sorted, fun a ha => ?_⟩, fun a ha => ?_⟩
  · change (m.map.anchors ++ _).head? = some first
    rw [List.head?_append, hfirst]
    rfl
  · rcases List.mem_append.1 ha with ha | ha
    · exact hend a ha
    · obtain rfl := List.mem_singleton.1 ha
      exact ⟨Nat.le_refl _, Nat.le_of_eq (by simp [Mapped.anchor])⟩
  · rcases List.mem_append.1 ha with ha | ha
    · exact h.start_le a ha
    · obtain rfl := List.mem_singleton.1 ha
      exact hlater.le

/-- A text that is appended with its references replaced takes up no more of the value than of the
document. -/
theorem appendRest (h : m.Advances lo base) (raw : List Char) :
    (m.appendRest base raw).1.Advances lo (base + byteLength raw) := by
  induction raw using raw_induction generalizing m base with
  | nil =>
    rw [appendRest_nil]
    exact h
  | char c cs hc ih =>
    rw [appendRest_char hc, byteLength_cons, ← Nat.add_assoc]
    apply ih
    exact h.append (Nat.le_refl _)
  | reference written v cs hrefers ih =>
    have hwidth := hrefers.width_lt
    rw [appendRest_reference hrefers, byteLength_append, ← Nat.add_assoc]
    apply ih
    refine (h.append ?_).anchor (Nat.le_refl _)
    rw [byteLength_cons, byteLength_nil]
    omega
  | faulty raw hfaulty =>
    obtain ⟨fault, hfault⟩ := appendRest_faulty hfaulty m base
    rw [hfault]
    exact h.weaken (Nat.le_add_right _ _)

end Advances

theorem advances_start (h : lo ≤ base) : (empty.anchor base).Advances lo base := by
  refine ⟨⟨⟨0, base⟩, rfl, rfl⟩, pairwise_marks.2 ⟨List.pairwise_singleton _ _, ?_⟩, ?_⟩
  · exact List.forall_mem_singleton.2 ⟨Nat.le_refl _, Nat.le_refl _⟩
  · exact List.forall_mem_singleton.2 h

/-- So does a segment, whatever faults are in it. -/
theorem advances_appendTo {s : Segment} (h : (m.anchor s.base).Advances lo s.base) :
    (s.appendTo m).Advances lo (s.base + byteLength s.raw) := by
  unfold Segment.appendTo
  split
  · exact h.append (Nat.le_refl _)
  · exact h.appendRest s.raw

section
variable {v : Nat} {p q : Anchor → Bool}

/-- There is an anchor to count an offset from, and it is not behind the offset. -/
theorem Advances.exists_lastBefore (h : m.Advances lo hi) (hp : ∀ a, p a = true → a.value ≤ v) :
    ∃ a, m.map.lastBefore p = some a ∧ a ∈ m.map.anchors ∧ a.value ≤ v := by
  obtain ⟨first, hfirst, hzero⟩ := h.first
  unfold OffsetMap.lastBefore
  cases hlast : (m.map.anchors.takeWhile p).getLast? with
  | some a =>
    have ha := List.mem_of_mem_getLast? hlast
    refine ⟨a, rfl, (List.takeWhile_subset p) ha, hp a (List.mem_takeWhile_imp ha)⟩
  | none =>
    refine ⟨first, hfirst, List.mem_of_mem_head? hfirst, ?_⟩
    omega

/-- If one test passes no more anchors than another one and the offset is no greater, counting from
its last anchor comes no further. -/
theorem Advances.counted_le {v' : Nat} (h : m.Advances lo hi) (hp : ∀ a, p a = true → a.value ≤ v)
    (hq : ∀ a, q a = true → a.value ≤ v') (hpq : ∀ a, p a = true → q a = true) (hle : v ≤ v') :
    OffsetMap.fromAnchor (m.map.lastBefore p) v ≤ OffsetMap.fromAnchor (m.map.lastBefore q) v' := by
  obtain ⟨a, ha, -, -⟩ := h.exists_lastBefore hp
  obtain ⟨b, hb, -, hvalue⟩ := h.exists_lastBefore hq
  have hsorted := (pairwise_marks.1 h.sorted).1
  rw [ha, hb]
  exact OffsetMap.fromAnchor_le (OffsetMap.leadsTo_of_lastBefore hsorted hpq ha hb) hvalue hle

/-- Wherever offsets of the value are counted from, they stay between the two ends. -/
theorem Advances.counted_within (h : m.Advances lo hi) (hp : ∀ a, p a = true → a.value ≤ v)
    (hv : v ≤ byteLength m.chars) : lo ≤ OffsetMap.fromAnchor (m.map.lastBefore p) v ∧
      OffsetMap.fromAnchor (m.map.lastBefore p) v ≤ hi := by
  obtain ⟨a, ha, hmem, hvalue⟩ := h.exists_lastBefore hp
  have hstart := h.start_le a hmem
  have hend := ((pairwise_marks.1 h.sorted).2 a hmem).2
  rw [ha]
  change lo ≤ a.document + (v - a.value) ∧ a.document + (v - a.value) ≤ hi
  dsimp only at hend
  omega

end

/-- If a value advances, its offsets lead in order between the two ends. -/
theorem Advances.orderedInto (h : m.Advances lo hi) :
    m.map.OrderedInto (byteLength m.chars) ⟨lo, hi⟩ := by
  have hat {v : Nat} (a : Anchor) (ha : decide (a.value ≤ v) = true) : a.value ≤ v :=
    of_decide_eq_true ha
  have hbefore {v : Nat} (a : Anchor) (ha : decide (a.value < v) = true) : a.value ≤ v :=
    Nat.le_of_lt (of_decide_eq_true ha)
  refine ⟨fun v v' hle _ => ?_, fun v v' hle _ => ?_, fun v _ => ?_, fun v hv => ?_,
    fun v hv => ?_, fun v _ => ?_, fun v _ => ?_⟩
  · apply h.counted_le hat hat _ hle
    intro a ha
    exact decide_eq_true (Nat.le_trans (hat a ha) hle)
  · apply h.counted_le hbefore hbefore _ hle
    intro a ha
    exact decide_eq_true (Nat.lt_of_lt_of_le (of_decide_eq_true ha) hle)
  · apply h.counted_le hbefore hat _ (Nat.le_refl v)
    intro a ha
    exact decide_eq_true (hbefore a ha)
  · exact h.counted_within hat hv
  · exact h.counted_within hbefore hv
  · obtain ⟨a, ha, -, hvalue⟩ := h.exists_lastBefore (p := (·.value ≤ v)) hat
    exact ⟨a, ha, hvalue⟩
  · obtain ⟨a, ha, -, hvalue⟩ := h.exists_lastBefore (p := (·.value < v)) hbefore
    exact ⟨a, ha, hvalue⟩

end Mapped

namespace SourcePiece

/-- The segment of a piece stands in the piece. -/
def HoldsSegment (text : List Char) (s : SourcePiece) : Prop :=
  s.span.start ≤ (s.segment text).base ∧
    (s.segment text).base + byteLength (s.segment text).raw ≤ s.span.stop

variable {text : List Char} {s : SourcePiece}

theorem byteLength_slice_le (text : List Char) (span : Span) (h : span.start ≤ span.stop) :
    span.start + byteLength ((span.slice? text).getD []) ≤ span.stop := by
  cases hslice : span.slice? text with
  | none => simpa using h
  | some raw =>
    obtain ⟨-, -, -, -, hstop⟩ := Span.split_of_slice? hslice
    exact Nat.le_of_eq hstop.symm

/-- A piece is wide enough for its segment, even if its span does not fit the text. -/
theorem holdsSegment_of_spelled (hspelled : s.piece.Spelled cs)
    (hstop : s.span.stop = s.span.start + byteLength cs) : s.HoldsSegment text := by
  obtain ⟨piece, span⟩ := s
  by_cases hdata : piece = .characterData
  · subst hdata
    obtain ⟨raw, rfl⟩ := hspelled
    have hopen : byteLength "<![CDATA[".toList = 9 := by decide
    have hclose : byteLength "]]>".toList = 3 := by decide
    rw [byteLength_append, byteLength_append, hopen, hclose] at hstop
    have hslice := byteLength_slice_le text ⟨span.start + 9, span.stop - 3⟩
      (by dsimp only at hstop ⊢; omega)
    constructor
    · exact Nat.le_add_right _ _
    · exact Nat.le_trans hslice (Nat.sub_le _ _)
  · have hinner : (⟨piece, span⟩ : SourcePiece).inner = span := if_neg hdata
    unfold HoldsSegment segment
    dsimp only
    rw [hinner]
    refine ⟨Nat.le_refl _, byteLength_slice_le text span ?_⟩
    dsimp only at hstop
    omega

end SourcePiece

/-- Every piece is as wide as what it is spelled by. -/
theorem Draft.wide_piecesTaken (p : Draft) (c : Cursor) : ∀ s ∈ p.piecesTaken c,
    ∃ cs, s.piece.Spelled cs ∧ s.span.stop = s.span.start + byteLength cs := by
  have hwide {c : Cursor} {r : Parsed Piece c} (h : nextPiece c = .ok (some r)) :
      ∃ cs, r.value.Spelled cs ∧ r.next.offset = c.offset + byteLength cs := by
    obtain ⟨cs, hread, hspelled⟩ := reads_of_nextPiece h
    exact ⟨cs, hspelled, hread.2⟩
  induction p, c using run_induction with
  | fault p c f h =>
    rw [(run_fault h).2]
    exact List.forall_mem_nil _
  | done p c h =>
    rw [(run_end h).2]
    exact List.forall_mem_nil _
  | stop p c q r h hq hfaults =>
    rw [(run_stop h hq hfaults).2]
    exact List.forall_mem_singleton.2 (hwide h)
  | step p c q r h hq hfaults ih =>
    rw [(run_step h hq hfaults).2]
    exact List.forall_mem_cons.2 ⟨hwide h, ih⟩

/-- The content of pieces in order advances from the first of them to the last. -/
theorem contentOf_advances {text : List Char} {ds : List SourcePiece}
    (hsorted : ds.Pairwise fun s t => s.span.stop ≤ t.span.start)
    (hholds : ∀ s ∈ ds, s.HoldsSegment text) {c : OpenContent} (hc : contentOf text ds = some c) :
    c.mapped.Advances c.span.start c.span.stop ∧
      ∀ s, ds.getLast? = some s → c.span.stop = s.span.stop := by
  induction ds using List.reverseRecOn generalizing c with
  | nil => cases hc
  | append_singleton ds s ih =>
    obtain ⟨hds, -, hbehind⟩ := List.pairwise_append.1 hsorted
    obtain ⟨hbefore, hs⟩ := List.forall_mem_append.1 hholds
    obtain ⟨hstart, hstop⟩ := List.forall_mem_singleton.1 hs
    rw [contentOf_append] at hc
    rw [List.getLast?_concat]
    cases hcontent : contentOf text ds with
    | none =>
      rw [hcontent] at hc
      obtain rfl := Option.some.inj hc
      refine ⟨?_, fun t ht => by rw [← Option.some.inj ht]⟩
      exact (Mapped.advances_appendTo (Mapped.advances_start hstart)).weaken hstop
    | some before =>
      obtain ⟨hadvances, hlast⟩ := ih hds hbefore hcontent
      -- The new piece stands behind the last one, and that is where the content ended.
      have hsome : ds ≠ [] := by
        intro hnil
        rw [contentOf_eq_none.2 hnil] at hcontent
        cases hcontent
      obtain ⟨last, hlast?⟩ := Option.ne_none_iff_exists'.1 (mt List.getLast?_eq_none_iff.1 hsome)
      have hgap : before.span.stop ≤ s.span.start := by
        rw [hlast last hlast?]
        exact hbehind last (List.mem_of_mem_getLast? hlast?) s List.mem_cons_self
      have hgrown := Mapped.advances_appendTo (hadvances.anchor (Nat.le_trans hgap hstart))
      have hle := hadvances.le
      have hcover : before.span.cover s.span = ⟨before.span.start, s.span.stop⟩ := by
        have hnew := (Mapped.advances_start hstart).le
        rw [Span.cover, Nat.min_eq_left (by omega), Nat.max_eq_right (by omega)]
      rw [hcontent] at hc
      obtain rfl := Option.some.inj hc
      dsimp only
      rw [hcover]
      exact ⟨hgrown.weaken hstop, fun t ht => by rw [← Option.some.inj ht]⟩

section
variable {text : List Char} {all : List SourcePiece} {clean : Prop} {t : Tree} {a : Attribute}

/-- The offsets of an attribute lead in order into what stands between its quotes. -/
theorem Attribute.Gathered.orderedInto (h : a.Gathered text) (hwritten : a.WrittenIn text) :
    a.map.OrderedInto (byteLength a.value.toList) a.valueSpan := by
  obtain ⟨_, _, _, raw, -, -, -, -, hslice, -⟩ := hwritten
  obtain ⟨-, -, -, -, hstop⟩ := Span.split_of_slice? hslice
  have hsegment := Attribute.segment_eq hslice
  have hadvances := Mapped.advances_appendTo (s := a.segment text)
    (Mapped.advances_start (Nat.le_refl (a.segment text).base))
  have horder := hadvances.orderedInto
  have hspan : a.valueSpan = ⟨(a.segment text).base,
      (a.segment text).base + byteLength (a.segment text).raw⟩ := by
    rw [hsegment]
    change a.valueSpan = ⟨a.valueSpan.start, a.valueSpan.start + byteLength raw⟩
    rw [← hstop]
  rw [h.1, h.2, gather_singleton, String.toList_ofList, hspan]
  exact horder

theorem Tree.Closed.maps_ordered (h : t.Closed text all clean) (hsorted : all.Pairwise
      fun s t => s.span.stop ≤ t.span.start) (hholds : ∀ s ∈ all, s.HoldsSegment text) :
    (∀ a ∈ t.root.attributes, a.map.OrderedInto (byteLength a.value.toList) a.valueSpan) ∧
      ∀ c, t.root.content = some c → c.map.OrderedInto (byteLength c.value.toList) c.span := by
  constructor
  · obtain ⟨tag, span, hstands, -, -, -, -, hattributes⟩ := h.standsAt
    obtain ⟨raw, -, hread⟩ := hstands.read
    rw [hattributes]
    intro a ha
    exact (hread.attributes.gathered a ha).orderedInto (hread.attributes.written a ha)
  · intro c hc
    rw [h.content] at hc
    obtain ⟨content, hsome, rfl⟩ := Option.map_eq_some_iff.1 hc
    have hadvances := (contentOf_advances (hsorted.sublist List.filter_sublist)
      (fun s hs => hholds s (List.mem_of_mem_filter hs)) hsome).1
    rw [String.toList_ofList]
    exact hadvances.orderedInto

end

/-- Whatever a text is, the maps of its attributes and of the content of its elements keep the order
of offsets and lead into the source of the value, and no offset is counted from an anchor behind
it. -/
theorem document_maps_ordered (text : String) : ∀ e ∈ (Document.ofText text).elements,
    (∀ a ∈ e.attributes, a.map.OrderedInto (byteLength a.value.toList) a.valueSpan) ∧
      ∀ c, e.content = some c → c.map.OrderedInto (byteLength c.value.toList) c.span := by
  obtain ⟨stop, htiles, -⟩ := tiles_piecesOf text
  obtain ⟨n, hinOrder⟩ := inOrder_ofText text
  have hholds : ∀ s ∈ piecesOf text, s.HoldsSegment text.toList := by
    intro s hs
    obtain ⟨cs, hspelled, hwidth⟩ := Draft.wide_piecesTaken _ _ s hs
    exact SourcePiece.holdsSegment_of_spelled hspelled hwidth
  intro e he
  rw [Document.elements_eq] at he
  obtain ⟨s, hs, rfl⟩ := List.mem_map.1 he
  exact (hinOrder.subtree hs).1.maps_ordered htiles.pairwise hholds

/-- References in the value of an attribute, and content from three pieces, the last of which has a
fault. -/
theorem document_maps_ordered_faulty :
    let d := Document.ofText "<P A='x&lt;&#233;'>a&gt;<!-- c --><![CDATA[&d]]>&bad</P>"
    d.faults ≠ [] ∧ ∃ e ∈ d.elements, ∃ a c, a ∈ e.attributes ∧ e.content = some c ∧
      a.map.OrderedInto 4 ⟨6, 17⟩ ∧ c.map.OrderedInto 4 ⟨19, 52⟩ := by
  intro d
  have hread : d.elements.map (fun e =>
      (e.attributes.map fun a => (byteLength a.value.toList, a.valueSpan),
        e.content.map fun c => (byteLength c.value.toList, c.span))) =
      [([(4, ⟨6, 17⟩)], some (4, ⟨19, 52⟩))] := by
    decide +kernel
  obtain ⟨e, he, hparts⟩ := List.mem_map.1 (hread ▸ List.mem_cons_self)
  obtain ⟨hattributes, hcontent⟩ := Prod.mk.inj hparts
  obtain ⟨a, ha, hvalue⟩ := List.mem_map.1 (hattributes ▸ List.mem_cons_self)
  obtain ⟨c, hc, htext⟩ := Option.map_eq_some_iff.1 hcontent
  obtain ⟨hwidth, hspan⟩ := Prod.mk.inj hvalue
  obtain ⟨hwidth', hspan'⟩ := Prod.mk.inj htext
  obtain ⟨hmaps, hmap⟩ := document_maps_ordered _ e he
  refine ⟨by decide +kernel, e, he, a, c, ha, hc, ?_, ?_⟩
  · have horder := hmaps a ha
    rwa [hwidth, hspan] at horder
  · have horder := hmap c hc
    rwa [hwidth', hspan'] at horder

end ProjectAnalysis.Xml
