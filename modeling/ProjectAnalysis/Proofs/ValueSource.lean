import ProjectAnalysis.Proofs.DocumentValue

/-! The source of part of a value. Led back to the document, a range of the value of an attribute
begins where its source begins, and ends where the source ends unless the last character is written
by a reference: then it ends inside of that reference. -/
namespace ProjectAnalysis.Xml

/-- What is written at the span stands for these characters. -/
def SourceAt (text : List Char) (span : Span) (cs : List Char) : Prop :=
  ∃ raw, span.slice? text = some raw ∧ unescape raw = .ok cs

/-- The character that ends at an offset of the value is written by a reference. -/
def Attribute.EndsInReference (text : List Char) (a : Attribute) (stop : Nat) : Prop :=
  ∃ before written behind vs v, a.valueSpan.slice? text = some (before ++ (written ++ behind)) ∧
    unescape before = .ok vs ∧ Refers written v ∧ byteLength vs + v.utf8Size = stop

variable {text raw front middle written behind xs ys mid cs : List Char} {v : Char} {base : Nat}
  {m : Mapped} {a : Attribute} {range : Span}

/-- When a value was read up to some character, its anchors lead to the source of the character. -/
theorem Mapped.leads_to_source (h : Replaces front xs) (hlast : Replaces written [v])
    (hm : m.Leads base) (more : List Char) : ∃ n : Mapped, n.chars = m.chars ++ xs ∧
      n.Leads (base + byteLength front) ∧
      (n.append [v]).Grows (m.appendRest base (front ++ (written ++ more))).1 := by
  obtain ⟨n, hchars, hn, hmore⟩ := appendRest_append h hm
  refine ⟨n, hchars, hn, ?_⟩
  rw [hmore]
  rcases hlast.single with ⟨rfl, hv⟩ | hrefers
  · rw [List.singleton_append, appendRest_char hv]
    exact grows_appendRest _ _ _
  · rw [appendRest_reference hrefers]
    exact (grows_anchor _ _).trans (grows_appendRest _ _ _)

/-- Before anything is appended there is an anchor at the start of the source. -/
theorem Mapped.leads_start (base : Nat) : (Mapped.empty.anchor base).Leads base :=
  leads_anchor (m := .empty) (List.forall_mem_nil _) base

/-- Some characters of a value are led to the start of their source. -/
theorem Mapped.toDocument_source (hfront : Replaces front xs) (hmiddle : Replaces middle cs)
    (hne : cs ≠ []) (base : Nat) (behind : List Char) :
    (Mapped.empty.appendEscaped base (front ++ (middle ++ behind))).1.map.toDocument
      (byteLength xs) = base + byteLength front := by
  obtain ⟨v, rest, rfl⟩ := List.exists_cons_of_ne_nil hne
  have hparts : Replaces middle ([v] ++ rest) := hmiddle
  obtain ⟨first, others, rfl, hfirst, -⟩ := hparts.split
  obtain ⟨n, hchars, hn, hgrows⟩ := leads_to_source hfront hfirst (leads_start base)
    (others ++ behind)
  have hwidth : byteLength n.chars = byteLength xs := congrArg byteLength hchars
  have hpos := v.utf8Size_pos
  rw [List.append_assoc, ← hwidth]
  refine (hn.toDocument hgrows (Nat.le_refl _) ?_).trans ?_
  · rw [byteLength_cons]
    omega
  · omega

/-- The end of some characters is led to as many bytes behind the start of the last one's source as
that one has. -/
theorem Mapped.endToDocument_source (hfront : Replaces front xs) (hlast : Replaces written [v])
    (base : Nat) (behind : List Char) :
    (Mapped.empty.appendEscaped base (front ++ (written ++ behind))).1.map.endToDocument
      (byteLength xs + v.utf8Size) = base + byteLength front + v.utf8Size := by
  obtain ⟨n, hchars, hn, hgrows⟩ := leads_to_source hfront hlast (leads_start base) behind
  have hwidth : byteLength n.chars = byteLength xs := congrArg byteLength hchars
  have hpos := v.utf8Size_pos
  rw [← hwidth]
  refine (hn.endToDocument hgrows (Nat.lt_add_of_pos_right hpos) (Nat.le_refl _)).trans ?_
  omega

/-- A range begins at the start of its source, and ends behind the start of its last character by as
many bytes as that character has. -/
theorem Mapped.spanToDocument_source (hfront : Replaces front xs) (hmiddle : Replaces middle mid)
    (hlast : Replaces written [v]) (base : Nat) (behind : List Char) :
    (Mapped.empty.appendEscaped base
        (front ++ (middle ++ (written ++ behind)))).1.map.spanToDocument
          ⟨byteLength xs, byteLength xs + byteLength (mid ++ [v])⟩ =
      ⟨base + byteLength front, base + byteLength front + byteLength middle + v.utf8Size⟩ := by
  have hwhole : Replaces (middle ++ written) (mid ++ [v]) :=
    (replaces_append_iff hmiddle).2 ⟨[v], hlast, rfl⟩
  have hboth : Replaces (front ++ middle) (xs ++ mid) :=
    (replaces_append_iff hfront).2 ⟨mid, hmiddle, rfl⟩
  have hstart := toDocument_source hfront hwhole (by simp) base behind
  have hstop := endToDocument_source hboth hlast base behind
  have hrange : byteLength xs + byteLength (mid ++ [v]) = byteLength (xs ++ mid) + v.utf8Size := by
    simp only [byteLength_append, byteLength_cons, byteLength_nil]
    omega
  rw [List.append_assoc] at hstart hstop
  rw [OffsetMap.spanToDocument, hrange, hstart, hstop, byteLength_append]
  rw [Nat.max_eq_left (by omega), ← Nat.add_assoc base]

/-- Of two ways to split a text whose first parts are of one width both parts are the same. -/
theorem append_inj_of_byteLength {a b c d : List Char} (h : a ++ b = c ++ d)
    (hwidth : byteLength a = byteLength c) : a = c ∧ b = d := by
  obtain ⟨u, rfl, rfl⟩ := split_of_byteLength_le h (Nat.le_of_eq hwidth)
  have hnil : u = [] := by
    refine Decidable.byContradiction fun hne => ?_
    have hpos := byteLength_pos hne
    rw [byteLength_append] at hwidth
    omega
  rw [hnil]
  exact ⟨(List.append_nil a).symm, rfl⟩

/-- What stands at some place within a slice. -/
theorem slice?_within {span : Span} (h : span.slice? text = some (front ++ (middle ++ behind))) :
    (Span.mk (span.start + byteLength front)
      (span.start + byteLength front + byteLength middle)).slice? text = some middle := by
  obtain ⟨before, after, rfl, hstart, -⟩ := Span.split_of_slice? h
  have hslice := slice?_append (before ++ front) middle (behind ++ after)
  rw [byteLength_append, ← hstart] at hslice
  simpa only [List.append_assoc] using hslice

/-- Of two slices with one start the shorter begins the longer. -/
theorem slice?_prefix {start stop stop' : Nat} {short long : List Char}
    (h : (Span.mk start stop).slice? text = some short)
    (h' : (Span.mk start stop').slice? text = some long) (hle : stop ≤ stop') :
    ∃ rest, long = short ++ rest := by
  obtain ⟨before, after, htext, hstart, hstop⟩ := Span.split_of_slice? h
  obtain ⟨before', after', rfl, hstart', hstop'⟩ := Span.split_of_slice? h'
  dsimp only at hstart hstart' hstop hstop'
  obtain ⟨-, hbehind⟩ := append_inj_of_byteLength htext (by omega)
  obtain ⟨rest, hlong, -⟩ := split_of_byteLength_le hbehind.symm (by omega)
  exact ⟨rest, hlong⟩

/-- A text in the parts that stand for what is before a range, for the range up to its last
character, and for that. -/
theorem Replaces.parts (h : Replaces raw (xs ++ (mid ++ [v] ++ ys))) :
    ∃ front middle written behind, raw = front ++ (middle ++ (written ++ behind)) ∧
      Replaces front xs ∧ Replaces middle mid ∧ Replaces written [v] := by
  obtain ⟨front, rest, rfl, hfront, hrest⟩ := h.split
  obtain ⟨source, behind, rfl, hsource, -⟩ := hrest.split
  obtain ⟨middle, written, rfl, hmiddle, hlast⟩ := hsource.split
  exact ⟨front, middle, written, behind, by rw [List.append_assoc middle], hfront, hmiddle, hlast⟩

namespace Attribute

/-- The source of a range, to the end of what its last character is written by. -/
theorem sourceAt_parts
    (hraw : a.valueSpan.slice? text = some (front ++ (middle ++ (written ++ behind))))
    (hmiddle : Replaces middle mid) (hlast : Replaces written [v]) :
    SourceAt text ⟨a.valueSpan.start + byteLength front,
      a.valueSpan.start + byteLength front + byteLength (middle ++ written)⟩ (mid ++ [v]) := by
  rw [← List.append_assoc middle] at hraw
  refine ⟨_, slice?_within hraw, unescape_eq_ok.2 ?_⟩
  exact (replaces_append_iff hmiddle).2 ⟨[v], hlast, rfl⟩

/-- What ends with as many bytes of the last character's source as that character has is the source
of a range just if the character stands for itself. -/
theorem sourceAt_iff
    (hraw : a.valueSpan.slice? text = some (front ++ (middle ++ (written ++ behind))))
    (hmiddle : Replaces middle mid) (hlast : Replaces written [v]) :
    SourceAt text ⟨a.valueSpan.start + byteLength front,
        a.valueSpan.start + byteLength front + byteLength middle + v.utf8Size⟩ (mid ++ [v]) ↔
      ¬Refers written v := by
  have hsource := sourceAt_parts hraw hmiddle hlast
  constructor
  · rintro ⟨raw, hslice, hvalue⟩ hrefers
    -- What is written at the span stops inside of the reference, which so is cut off.
    have hwidth := hrefers.width_lt
    have hpos := v.utf8Size_pos
    rw [← List.append_assoc middle] at hraw
    have hwhole := slice?_within hraw
    rw [byteLength_append, ← Nat.add_assoc] at hwhole
    obtain ⟨rest, hrest⟩ := slice?_prefix hslice hwhole (by omega)
    obtain ⟨-, -, -, -, hstop⟩ := Span.split_of_slice? hslice
    dsimp only at hstop
    obtain ⟨part, rfl, rfl⟩ := split_of_byteLength_le hrest (by omega)
    obtain ⟨tail, htail, -⟩ := (replaces_append_iff hmiddle).1 (unescape_eq_ok.1 hvalue)
    rw [byteLength_append] at hwidth hstop
    refine hrefers.not_replaces_cut ?_ ?_ htail
    · rintro rfl
      rw [byteLength_nil] at hstop
      omega
    · rintro rfl
      rw [byteLength_nil] at hwidth
      omega
  · intro hplain
    obtain ⟨rfl, -⟩ := hlast.single.resolve_right hplain
    rwa [byteLength_append, ← Nat.add_assoc] at hsource

/-- Where the source ends with a reference, it is parted as the value before that offset is. -/
theorem EndsInReference.parts (h : a.EndsInReference text (byteLength xs + byteLength (mid ++ [v])))
    (hraw : a.valueSpan.slice? text = some raw) (hvalue : Replaces raw (xs ++ (mid ++ [v] ++ ys))) :
    ∃ front middle written behind,
      a.valueSpan.slice? text = some (front ++ (middle ++ (written ++ behind))) ∧
        Replaces front xs ∧ Replaces middle mid ∧ Refers written v := by
  obtain ⟨before, written, behind, vs, w, hslice, hbefore, hrefers, hstop⟩ := h
  obtain rfl := Option.some.inj (hraw.symm.trans hslice)
  have hbefore := unescape_eq_ok.1 hbefore
  obtain ⟨tail, htail, hall⟩ := (replaces_append_iff hbefore).1 hvalue
  obtain ⟨rest, -, rfl⟩ := (replaces_reference_iff hrefers).1 htail
  have hsame : vs ++ [w] = xs ++ mid ++ [v] := by
    rw [List.append_assoc]
    refine (append_inj_of_byteLength (b := rest) (d := ys) ?_ ?_).1
    · simpa using hall
    · simpa using hstop
  obtain ⟨rfl, hlast⟩ := List.append_inj' hsame rfl
  obtain rfl := List.singleton_inj.1 hlast
  obtain ⟨front, middle, rfl, hfront, hmiddle⟩ := hbefore.split
  rw [List.append_assoc] at hslice
  exact ⟨front, middle, written, behind, hslice, hfront, hmiddle, hrefers⟩

namespace Gathered

theorem map_eq (h : a.Gathered text) (hraw : a.valueSpan.slice? text = some raw)
    (hreplaced : (a.segment text).verbatim = false) :
    a.map = (Mapped.empty.appendEscaped a.valueSpan.start raw).1.map := by
  have hsegment := segment_eq hraw
  rw [h.2, gather_singleton, Segment.appendTo, hreplaced, if_neg Bool.false_ne_true, hsegment]
  rfl

theorem spanToDocument_eq (h : a.Gathered text) (hreplaced : (a.segment text).verbatim = false)
    (hraw : a.valueSpan.slice? text = some (front ++ (middle ++ (written ++ behind))))
    (hfront : Replaces front xs) (hmiddle : Replaces middle mid) (hlast : Replaces written [v]) :
    a.map.spanToDocument ⟨byteLength xs, byteLength xs + byteLength (mid ++ [v])⟩ =
      ⟨a.valueSpan.start + byteLength front,
        a.valueSpan.start + byteLength front + byteLength middle + v.utf8Size⟩ := by
  rw [h.map_eq hraw hreplaced]
  exact Mapped.spanToDocument_source hfront hmiddle hlast _ _

/-- A range of the value of an attribute without faults begins where its source begins, and does not
end behind it. It is led to its source just if its last character is not written by a reference. -/
theorem range_sourceAt_iff (h : a.Gathered text) (hwritten : a.WrittenIn text)
    (hreplaced : (a.segment text).verbatim = false) (hcs : range.slice? a.value.toList = some cs)
    (hne : cs ≠ []) :
    (∃ stop, (a.map.spanToDocument range).stop ≤ stop ∧ stop ≤ a.valueSpan.stop ∧
        SourceAt text ⟨(a.map.spanToDocument range).start, stop⟩ cs) ∧
      (SourceAt text (a.map.spanToDocument range) cs ↔ ¬a.EndsInReference text range.stop) := by
  obtain ⟨raw, hraw, hvalue⟩ := h.unescape_eq hwritten hreplaced
  obtain ⟨xs, ys, hsplit, hstart, hstop⟩ := Span.split_of_slice? hcs
  obtain ⟨mid, v, rfl⟩ := (List.eq_nil_or_concat' cs).resolve_left hne
  have hvalue := unescape_eq_ok.1 hvalue
  rw [hsplit] at hvalue
  obtain rfl : range = ⟨byteLength xs, byteLength xs + byteLength (mid ++ [v])⟩ := by
    rw [← hstart, ← hstop]
  obtain ⟨front, middle, written, behind, rfl, hfront, hmiddle, hlast⟩ := hvalue.parts
  have hspan := h.spanToDocument_eq hreplaced hraw hfront hmiddle hlast
  constructor
  · refine ⟨a.valueSpan.start + byteLength front + byteLength (middle ++ written), ?_, ?_, ?_⟩
    · have hwidth := hlast.single_width
      rw [hspan, byteLength_append]
      dsimp only
      omega
    · obtain ⟨-, -, -, -, hend⟩ := Span.split_of_slice? hraw
      simp only [byteLength_append] at hend ⊢
      omega
    · rw [hspan]
      exact sourceAt_parts hraw hmiddle hlast
  · constructor
    · intro hsource hends
      obtain ⟨_, _, _, _, hslice, hfront', hmiddle', hrefers⟩ := hends.parts hraw hvalue
      rw [h.spanToDocument_eq hreplaced hslice hfront' hmiddle' hrefers.replaces] at hsource
      exact (sourceAt_iff hslice hmiddle' hrefers.replaces).1 hsource hrefers
    · intro hends
      rw [hspan, sourceAt_iff hraw hmiddle hlast]
      intro hrefers
      apply hends
      refine ⟨front ++ middle, written, behind, xs ++ mid, v, ?_, ?_, hrefers, ?_⟩
      · rw [hraw, List.append_assoc]
      · exact unescape_eq_ok.2 ((replaces_append_iff hfront).2 ⟨mid, hmiddle, rfl⟩)
      · simp only [byteLength_append, byteLength_cons, byteLength_nil]
        omega

end Gathered

end Attribute

/-- Without faults, every range of the value of an attribute that is not empty is led to the start
of its source and not behind its end. What is written where it is led to stands for the range of the
value just if the last character of the range is not written by a reference. -/
theorem document_range_source_iff (text : String) (hclean : (Document.ofText text).faults = []) :
    ∀ e ∈ (Document.ofText text).elements, ∀ a ∈ e.attributes, ∀ (range : Span) (cs : List Char),
      range.slice? a.value.toList = some cs → cs ≠ [] →
        (∃ stop, (a.map.spanToDocument range).stop ≤ stop ∧ stop ≤ a.valueSpan.stop ∧
            SourceAt text.toList ⟨(a.map.spanToDocument range).start, stop⟩ cs) ∧
          (SourceAt text.toList (a.map.spanToDocument range) cs ↔
            ¬a.EndsInReference text.toList range.stop) := by
  obtain ⟨n, hinOrder⟩ := inOrder_ofText text
  intro e he a ha range cs hcs hne
  rw [Document.elements_eq] at he
  obtain ⟨s, hs, rfl⟩ := List.mem_map.1 he
  obtain ⟨tag, span, hstands, -, -, -, -, hattributes⟩ := (hinOrder.subtree hs).1.standsAt
  obtain ⟨raw, -, hread⟩ := hstands.read
  have hmem : a ∈ tag.attributes := by
    rw [← hattributes]
    exact ha
  exact (hread.attributes.gathered a hmem).range_sourceAt_iff (hread.attributes.written a hmem)
    (hread.attributes.replaced (hstands.faultless hclean) a hmem) hcs hne

/-- In `x&lt;y` the range of `<y` begins with a reference and is led to its source. The range of
`x<` ends with the reference, and is led to `x&`. -/
theorem document_range_source_iff_reference :
    let text := "<P A=\"x&lt;y\"/>"
    (Document.ofText text).faults = [] ∧
      ∃ e ∈ (Document.ofText text).elements, ∃ a ∈ e.attributes, a.value = "x<y" ∧
        (¬a.EndsInReference text.toList 3 ∧
          SourceAt text.toList (a.map.spanToDocument ⟨1, 3⟩) ['<', 'y']) ∧
        a.EndsInReference text.toList 2 ∧
          ¬SourceAt text.toList (a.map.spanToDocument ⟨0, 2⟩) ['x', '<'] := by
  intro text
  have hclean : (Document.ofText text).faults = [] := by decide +kernel
  have hread : (Document.ofText text).elements.map (fun e =>
      e.attributes.map fun a => (a.value, a.valueSpan, a.map)) =
      [[("x<y", ⟨6, 12⟩, ⟨[⟨0, 6⟩, ⟨2, 11⟩]⟩)]] := by
    decide +kernel
  obtain ⟨e, he, hattributes⟩ := List.mem_map.1 (hread ▸ List.mem_cons_self)
  obtain ⟨a, ha, hparts⟩ := List.mem_map.1 (hattributes ▸ List.mem_cons_self)
  obtain ⟨hvalue, hrest⟩ := Prod.mk.inj hparts
  obtain ⟨hspan, hmap⟩ := Prod.mk.inj hrest
  have hrange (range : Span) (cs : List Char) (hcs : range.slice? "x<y".toList = some cs)
      (hne : cs ≠ []) := (document_range_source_iff text hclean e he a ha range cs
        (by rw [hvalue]; exact hcs) hne).2
  have hsource : SourceAt text.toList (a.map.spanToDocument ⟨1, 3⟩) ['<', 'y'] := by
    rw [hmap]
    exact ⟨"&lt;y".toList, by decide +kernel, by decide +kernel⟩
  have hends : a.EndsInReference text.toList 2 := by
    refine ⟨['x'], "&lt;".toList, ['y'], ['x'], '<', ?_, by decide +kernel, ?_, by decide⟩
    · rw [hspan]
      decide +kernel
    · exact ⟨['l', 't'], 1, rfl, by simp [isEntityEnd], rfl⟩
  refine ⟨hclean, e, he, a, ha, hvalue, ⟨?_, hsource⟩, hends, fun h => ?_⟩
  · exact (hrange ⟨1, 3⟩ ['<', 'y'] (by decide +kernel) nofun).1 hsource
  · exact (hrange ⟨0, 2⟩ ['x', '<'] (by decide +kernel) nofun).1 h hends

end ProjectAnalysis.Xml
