import Mathlib.Data.List.Forall2
import ProjectAnalysis.Proofs.EntityReplacement

/-! Values that were put together from stretches of source. Where characters were copied as they
stand, the anchors of the value lead back to the place that they were copied from. -/
namespace ProjectAnalysis.Xml

/-- A stretch of source that is part of a value: taken as it is, or with its references replaced. -/
structure Segment where
  base : Nat
  raw : List Char
  verbatim : Bool
deriving DecidableEq, Repr

namespace Segment

/-- What some source of a segment comes to. -/
def Means (s : Segment) (raw value : List Char) : Prop :=
  if s.verbatim then value = raw else unescape raw = .ok value

/-- Puts the segment behind a value. -/
def appendTo (m : Mapped) (s : Segment) : Mapped :=
  if s.verbatim then m.appendVerbatim s.base s.raw else (m.appendEscaped s.base s.raw).1

end Segment

/-- The value that is put together from segments, up to the faults in them. -/
def gather (segments : List Segment) : Mapped :=
  segments.foldl Segment.appendTo .empty

/-- Characters that stand at `value` in what the segments come to, and that were copied from
`document` on: no reference and no end of a segment lies between them. -/
inductive Copied : List Segment → Nat → Nat → List Char → Prop
  | here {s : Segment} {more : List Segment} {before lead cs after : List Char}
      (hraw : s.raw = before ++ cs ++ after) (hlead : s.Means before lead)
      (hplain : s.verbatim = true ∨ '&' ∉ cs) :
      Copied (s :: more) (byteLength lead) (s.base + byteLength before) cs
  | behind {s : Segment} {more : List Segment} {vs cs : List Char} {value document : Nat}
      (hvalue : s.Means s.raw vs) (h : Copied more value document cs) :
      Copied (s :: more) (byteLength vs + value) document cs

/-- The one value is the other with more behind it, and so are the anchors. -/
def Mapped.Grows (m n : Mapped) : Prop :=
  ∃ cs anchors, n.chars = m.chars ++ cs ∧ n.map.anchors = m.map.anchors ++ anchors ∧
    ∀ a ∈ anchors, byteLength m.chars ≤ a.value ∧ a.value ≤ byteLength n.chars

/-- From the last anchor one comes from the end of the value to this place. -/
def Mapped.Leads (m : Mapped) (base : Nat) : Prop :=
  ∃ before a, m.map.anchors = before ++ [a] ∧ (∀ b ∈ before ++ [a], b.value ≤ byteLength m.chars) ∧
    a.document + (byteLength m.chars - a.value) = base

variable {m n : Mapped} {cs raw vs lead plain written : List Char} {v : Char} {base k : Nat}
  {s : Segment} {segments more : List Segment}

namespace Mapped

theorem Grows.refl (m : Mapped) : m.Grows m :=
  ⟨[], [], by simp, by simp, nofun⟩

theorem Grows.trans {l : Mapped} (h : l.Grows m) (h' : m.Grows n) : l.Grows n := by
  obtain ⟨x, xs, hx, hxs, hxb⟩ := h
  obtain ⟨y, ys, hy, hys, hyb⟩ := h'
  have hle : byteLength l.chars ≤ byteLength m.chars ∧ byteLength m.chars ≤ byteLength n.chars := by
    rw [hy, hx]
    simp only [byteLength_append]
    omega
  refine ⟨x ++ y, xs ++ ys, by rw [hy, hx, List.append_assoc],
    by rw [hys, hxs, List.append_assoc], fun a ha => ?_⟩
  rcases List.mem_append.1 ha with ha | ha
  · exact ⟨(hxb a ha).1, Nat.le_trans (hxb a ha).2 hle.2⟩
  · exact ⟨Nat.le_trans hle.1 (hyb a ha).1, (hyb a ha).2⟩

theorem grows_append (m : Mapped) (cs : List Char) : m.Grows (m.append cs) :=
  ⟨cs, [], rfl, by simp [append], nofun⟩

theorem grows_anchor (m : Mapped) (base : Nat) : m.Grows (m.anchor base) :=
  ⟨[], [⟨byteLength m.chars, base⟩], by simp [anchor], rfl, by simp [anchor]⟩

theorem grows_appendRest (m : Mapped) (base : Nat) (raw : List Char) :
    m.Grows (m.appendRest base raw).1 := by
  induction raw using raw_induction generalizing m base with
  | nil =>
    rw [appendRest_nil]
    exact .refl m
  | char c cs hc ih =>
    rw [appendRest_char hc]
    exact (m.grows_append _).trans (ih _ _)
  | reference written v cs hrefers ih =>
    rw [appendRest_reference hrefers]
    exact (m.grows_append _).trans ((grows_anchor _ _).trans (ih _ _))
  | faulty raw hfaulty =>
    obtain ⟨fault, hfault⟩ := appendRest_faulty hfaulty m base
    rw [hfault]
    exact .refl m

theorem grows_appendTo (m : Mapped) (s : Segment) : m.Grows (s.appendTo m) := by
  unfold Segment.appendTo
  split
  · exact (m.grows_anchor _).trans (grows_append _ _)
  · exact (m.grows_anchor _).trans (grows_appendRest _ _ _)

theorem grows_foldl (m : Mapped) (segments : List Segment) :
    m.Grows (segments.foldl Segment.appendTo m) := by
  induction segments generalizing m with
  | nil => exact .refl m
  | cons s more ih => exact (m.grows_appendTo s).trans (ih _)

theorem Leads.append (h : m.Leads base) (cs : List Char) :
    (m.append cs).Leads (base + byteLength cs) := by
  obtain ⟨before, a, hanchors, hle, hbase⟩ := h
  have hvalue := hle a (List.mem_append_right _ List.mem_cons_self)
  refine ⟨before, a, hanchors, fun b hb => ?_, ?_⟩
  · rw [Mapped.append, byteLength_append]
    exact Nat.le_add_right_of_le (hle b hb)
  · rw [Mapped.append, byteLength_append]
    omega

/-- No anchor stands behind the end of the value. -/
def Bounded (m : Mapped) : Prop :=
  ∀ a ∈ m.map.anchors, a.value ≤ byteLength m.chars

theorem Bounded.grows (h : m.Bounded) (hgrows : m.Grows n) : n.Bounded := by
  obtain ⟨cs, anchors, hchars, hanchors, hbound⟩ := hgrows
  intro a ha
  rw [hanchors] at ha
  rcases List.mem_append.1 ha with ha | ha
  · rw [hchars, byteLength_append]
    exact Nat.le_add_right_of_le (h a ha)
  · exact (hbound a ha).2

theorem Leads.bounded (h : m.Leads base) : m.Bounded := by
  obtain ⟨before, a, hanchors, hle, -⟩ := h
  rw [Bounded, hanchors]
  exact hle

theorem leads_anchor (h : m.Bounded) (base : Nat) : (m.anchor base).Leads base := by
  refine ⟨m.map.anchors, ⟨byteLength m.chars, base⟩, rfl, fun b hb => ?_, ?_⟩
  · rcases List.mem_append.1 hb with hb | hb
    · exact h b hb
    · obtain rfl := List.mem_singleton.1 hb
      exact Nat.le_refl _
  · exact (congrArg _ (Nat.sub_self _)).trans (Nat.add_zero _)

/-- Behind a text that has a value appending goes on as it began. -/
theorem appendRest_append (h : Replaces raw vs) (hleads : m.Leads base) : ∃ n : Mapped,
    n.chars = m.chars ++ vs ∧ n.Leads (base + byteLength raw) ∧
      ∀ more, m.appendRest base (raw ++ more) = n.appendRest (base + byteLength raw) more := by
  induction h generalizing m base with
  | nil => exact ⟨m, by simp, hleads, fun _ => rfl⟩
  | @char c cs vs hc _ ih =>
    obtain ⟨n, hchars, hn, hmore⟩ := ih (hleads.append [c])
    have hbase : base + byteLength [c] + byteLength cs = base + byteLength (c :: cs) := by
      rw [byteLength_cons, byteLength_cons, byteLength_nil, Nat.add_zero, Nat.add_assoc]
    rw [hbase] at hn hmore
    refine ⟨n, by rw [hchars]; simp [append], hn, fun more => ?_⟩
    rw [List.cons_append, appendRest_char hc, ← hmore more]
    rfl
  | @reference written cs vs v hrefers _ ih =>
    obtain ⟨n, hchars, hn, hmore⟩ := ih (m := (m.append [v]).anchor (base + byteLength written))
      (leads_anchor (hleads.append [v]).bounded _)
    rw [Nat.add_assoc, ← byteLength_append] at hn hmore
    refine ⟨n, by rw [hchars]; simp [append, anchor], hn, fun more => ?_⟩
    rw [List.append_assoc, appendRest_reference hrefers, hmore more]

/-- From the value as it was before some characters were appended the anchors lead to their place,
if of all anchors just those up to the characters pass a test. -/
theorem Leads.fromAnchor (h : m.Leads base) (hn : (m.append cs).Grows n) {test : Anchor → Bool}
    (hbefore : ∀ a : Anchor, a.value ≤ byteLength m.chars → test a = true)
    (hbehind : ∀ a : Anchor, byteLength m.chars + byteLength cs ≤ a.value → test a = false)
    {v : Nat} (hv : byteLength m.chars ≤ v) :
    OffsetMap.fromAnchor (n.map.lastBefore test) v = base + (v - byteLength m.chars) := by
  obtain ⟨before, a, hanchors, hle, hbase⟩ := h
  obtain ⟨-, behind, -, hall, hbound⟩ := hn
  rw [Mapped.append, hanchors] at hall
  have hvalue := hle a (List.mem_append_right _ List.mem_cons_self)
  have hlast : n.map.lastBefore test = some a := by
    have htake : (before ++ [a] ++ behind).takeWhile test = before ++ [a] := by
      rw [List.takeWhile_append_of_pos fun b hb => hbefore b (hle b hb)]
      cases behind with
      | nil => simp
      | cons b behind =>
        have hb := (hbound b List.mem_cons_self).1
        rw [Mapped.append, byteLength_append] at hb
        rw [List.takeWhile_cons_of_neg (by simp [hbehind b hb]), List.append_nil]
    rw [OffsetMap.lastBefore, hall, htake, List.getLast?_concat]
    rfl
  rw [hlast]
  change a.document + (v - a.value) = _
  omega

theorem Leads.toDocument (h : m.Leads base) (hn : (m.append cs).Grows n) {v : Nat}
    (hlo : byteLength m.chars ≤ v) (hhi : v < byteLength m.chars + byteLength cs) :
    n.map.toDocument v = base + (v - byteLength m.chars) := by
  apply h.fromAnchor hn _ _ hlo
  · exact fun a ha => decide_eq_true (Nat.le_trans ha hlo)
  · exact fun a ha => decide_eq_false (by omega)

theorem Leads.endToDocument (h : m.Leads base) (hn : (m.append cs).Grows n) {v : Nat}
    (hlo : byteLength m.chars < v) (hhi : v ≤ byteLength m.chars + byteLength cs) :
    n.map.endToDocument v = base + (v - byteLength m.chars) := by
  apply h.fromAnchor hn _ _ (Nat.le_of_lt hlo)
  · exact fun a ha => decide_eq_true (Nat.lt_of_le_of_lt ha hlo)
  · exact fun a ha => decide_eq_false (by omega)

/-- From the value as it was before some characters were copied the anchors lead to their place. -/
theorem Leads.span (h : m.Leads base) (hn : (m.append cs).Grows n) {span : Span}
    (hlo : byteLength m.chars ≤ span.start) (hlt : span.start < span.stop)
    (hhi : span.stop ≤ byteLength m.chars + byteLength cs) :
    n.map.spanToDocument span = ⟨base + (span.start - byteLength m.chars),
      base + (span.stop - byteLength m.chars)⟩ := by
  have hstart := h.toDocument hn hlo (Nat.lt_of_lt_of_le hlt hhi)
  have hstop := h.endToDocument hn (Nat.lt_of_le_of_lt hlo hlt) hhi
  rw [OffsetMap.spanToDocument, hstart, hstop, Nat.max_eq_left (by omega)]

end Mapped

theorem Segment.appendTo_chars (h : s.Means s.raw vs) : (s.appendTo m).chars = m.chars ++ vs := by
  unfold Means at h
  unfold appendTo
  split at h
  · rename_i hverbatim
    rw [if_pos hverbatim, h]
    rfl
  · rename_i hverbatim
    rw [if_neg hverbatim]
    exact Mapped.appendRest_chars (unescape_eq_ok.1 h)

/-- Segments that all have a value come to one value after the other. -/
theorem gather_chars {values : List (List Char)}
    (h : List.Forall₂ (fun s vs => s.Means s.raw vs) segments values) :
    (gather segments).chars = values.flatten := by
  have hfold : ∀ m : Mapped,
      (segments.foldl Segment.appendTo m).chars = m.chars ++ values.flatten := by
    induction h with
    | nil => exact fun m => (List.append_nil _).symm
    | cons hs _ ih =>
      intro m
      rw [List.foldl_cons, ih, Segment.appendTo_chars hs, List.flatten_cons, List.append_assoc]
  exact hfold .empty

/-- Characters that were copied are in the value, and the anchors lead to where they come from. -/
theorem Copied.leads {value document : Nat} (h : Copied segments value document cs)
    (hm : m.Bounded) : ∃ n : Mapped, byteLength n.chars = byteLength m.chars + value ∧
      n.Leads document ∧ (n.append cs).Grows (segments.foldl Segment.appendTo m) := by
  -- Up to the characters the value is `n`; all that is appended later only makes it grow.
  induction h generalizing m with
  | @here s more before lead cs after hraw hlead hplain =>
    have hanchor := Mapped.leads_anchor hm s.base
    unfold Segment.Means at hlead
    cases hverbatim : s.verbatim with
    | true =>
      rw [hverbatim, if_pos rfl] at hlead
      subst hlead
      refine ⟨(m.anchor s.base).append lead, byteLength_append _ _, hanchor.append _, ?_⟩
      have hsegment : s.appendTo m = (((m.anchor s.base).append lead).append cs).append after := by
        rw [Segment.appendTo, hverbatim, if_pos rfl, hraw, Mapped.append_append,
          Mapped.append_append, ← List.append_assoc]
        rfl
      rw [List.foldl_cons, hsegment]
      exact (Mapped.grows_append _ _).trans (Mapped.grows_foldl _ _)
    | false =>
      have hamp := hplain.resolve_left (by rw [hverbatim]; exact Bool.false_ne_true)
      rw [hverbatim, if_neg Bool.false_ne_true] at hlead
      obtain ⟨n, hchars, hn, hmore⟩ := Mapped.appendRest_append (unescape_eq_ok.1 hlead) hanchor
      refine ⟨n, by rw [hchars, byteLength_append]; rfl, hn, ?_⟩
      have hsegment : s.appendTo m = ((n.append cs).appendRest
          (s.base + byteLength before + byteLength cs) after).1 := by
        rw [Segment.appendTo, hverbatim, if_neg Bool.false_ne_true, hraw, List.append_assoc,
          Mapped.appendEscaped, hmore, Mapped.appendRest_plain_append hamp]
      rw [List.foldl_cons, hsegment]
      exact (Mapped.grows_appendRest _ _ _).trans (Mapped.grows_foldl _ _)
  | @behind s more vs cs value document hvalue _ ih =>
    obtain ⟨n, hchars, hn, hgrows⟩ := ih (hm.grows (m.grows_appendTo s))
    refine ⟨n, ?_, hn, hgrows⟩
    rw [hchars, Segment.appendTo_chars hvalue, byteLength_append, Nat.add_assoc]

end ProjectAnalysis.Xml
