import Mathlib.Data.List.Chain
import ProjectAnalysis.Proofs.EntityName

/-! A text whose references are replaced one by one, each in a piece of its own, comes to the same
as the whole text at once, and fails where that fails. The anchors that are added on the way part
the text into stretches: in each the value is the source up to the next reference, and behind that
reference the next stretch begins. -/
namespace ProjectAnalysis.Xml

/-- The second anchor is behind the first in the value and in the document. -/
def Anchor.Precedes (a b : Anchor) : Prop :=
  a.value < b.value ∧ a.document < b.document

/-- At the anchor a text that begins at `base` goes on with `source`, and its value with `value`. -/
def Anchor.Stands (a : Anchor) (base : Nat) (raw out source value : List Char) : Prop :=
  ∃ before front, raw = before ++ source ∧ out = front ++ value ∧
    a = ⟨byteLength front, base + byteLength before⟩

/-- From one anchor to the next the value is the text up to a reference, and what that one stands
for. -/
def SideBySide (base : Nat) (raw out : List Char) (a b : Anchor) : Prop :=
  ∃ plain written v source value, '&' ∉ plain ∧ Refers written v ∧
    a.Stands base raw out (plain ++ (written ++ source)) (plain ++ v :: value) ∧
    b.Stands base raw out source value

/-- From the anchor to its end the value is the text up to `rest`, which is the end or an `&` that
belongs to no reference. -/
def RunsOut (base : Nat) (raw out rest : List Char) (a : Anchor) : Prop :=
  ∃ plain, '&' ∉ plain ∧ a.Stands base raw out (plain ++ rest) plain ∧ (rest = [] ∨ Faulty rest)

/-- A text at an offset of the document and its value at an offset of all that was put together,
with an anchor at the start of each stretch, up to the part of the text that was not replaced. -/
inductive Aligned : Nat → Nat → List Char → List Char → List Anchor → List Char → Prop
  | last {base value : Nat} {plain rest : List Char} (h : '&' ∉ plain)
      (hrest : rest = [] ∨ Faulty rest) :
      Aligned base value (plain ++ rest) plain [⟨value, base⟩] rest
  | reference {base value : Nat} {plain written raw vs rest : List Char} {v : Char}
      {anchors : List Anchor} (h : '&' ∉ plain) (hrefers : Refers written v)
      (behind : Aligned (base + byteLength (plain ++ written)) (value + byteLength (plain ++ [v]))
        raw vs anchors rest) :
      Aligned base value (plain ++ (written ++ raw)) (plain ++ v :: vs) (⟨value, base⟩ :: anchors)
        rest

variable {base value : Nat} {raw vs rest plain : List Char} {anchors : List Anchor} {m : Mapped}

/-- An induction from stretch to stretch. -/
theorem stretch_induction {motive : List Char → Prop} (last : ∀ plain, '&' ∉ plain → motive plain)
    (reference : ∀ plain written v cs, '&' ∉ plain → Refers written v → motive cs →
      motive (plain ++ (written ++ cs)))
    (faulty : ∀ plain rest, '&' ∉ plain → Faulty rest → motive (plain ++ rest))
    (raw : List Char) : motive raw := by
  -- What was read of the stretch so far stands in front.
  have hfront : ∀ plain, '&' ∉ plain → motive (plain ++ raw) := by
    induction raw using raw_induction with
    | nil =>
      intro plain h
      rw [List.append_nil]
      exact last plain h
    | char c cs hc ih =>
      intro plain h
      have hmore := ih (plain ++ [c]) (by simp [h, Ne.symm hc])
      rwa [List.append_assoc] at hmore
    | reference written v cs hrefers ih =>
      intro plain h
      exact reference plain written v cs h hrefers (ih [] List.not_mem_nil)
    | faulty raw hfaulty =>
      intro plain h
      exact faulty plain raw h hfaulty
  exact hfront [] List.not_mem_nil

theorem Faulty.ne_nil (h : Faulty rest) : rest ≠ [] := by
  rintro rfl
  cases h.1

namespace Mapped

/-- Whatever is appended is aligned with its source, from an anchor at the start on, and there is no
fault just if all was replaced. -/
theorem aligned_appendRest (m : Mapped) (base : Nat) (raw : List Char) : ∃ vs anchors rest,
    Aligned base (byteLength m.chars) raw vs (⟨byteLength m.chars, base⟩ :: anchors) rest ∧
      (m.appendRest base raw).1 = ⟨m.chars ++ vs, ⟨m.map.anchors ++ anchors⟩⟩ ∧
      ((m.appendRest base raw).2 = none ↔ rest = []) := by
  induction raw using stretch_induction generalizing m base with
  | last plain h =>
    have haligned : Aligned base (byteLength m.chars) (plain ++ []) plain _ [] :=
      .last h (Or.inl rfl)
    rw [List.append_nil] at haligned
    rw [appendRest_plain h]
    refine ⟨plain, [], [], haligned, ?_, Iff.intro (fun _ => rfl) fun _ => rfl⟩
    rw [List.append_nil]
    rfl
  | reference plain written v cs h hrefers ih =>
    -- The value behind the reference, with the anchor of the next stretch.
    let n := ((m.append plain).append [v]).anchor (base + byteLength (plain ++ written))
    have hreads : m.appendRest base (plain ++ (written ++ cs)) =
        n.appendRest (base + byteLength (plain ++ written)) cs := by
      rw [appendRest_plain_append h, appendRest_reference hrefers, Nat.add_assoc,
        ← byteLength_append]
    obtain ⟨vs, anchors, rest, haligned, hresult, hfault⟩ :=
      ih n (base + byteLength (plain ++ written))
    have hwidth : byteLength n.chars = byteLength m.chars + byteLength (plain ++ [v]) := by
      rw [← byteLength_append, ← List.append_assoc]
      rfl
    have hchars : n.chars ++ vs = m.chars ++ (plain ++ v :: vs) := by
      simp [n, append, anchor]
    have hanchors : n.map.anchors ++ anchors = m.map.anchors ++
        (⟨byteLength n.chars, base + byteLength (plain ++ written)⟩ :: anchors) :=
      List.append_assoc _ _ _
    rw [hreads, hresult, hchars, hanchors, hwidth]
    rw [hwidth] at haligned
    exact ⟨plain ++ v :: vs, _ :: anchors, rest, .reference h hrefers haligned, rfl, hfault⟩
  | faulty plain rest h hfaulty =>
    obtain ⟨fault, hfault⟩ := appendRest_faulty hfaulty (m.append plain) (base + byteLength plain)
    rw [appendRest_plain_append h, hfault]
    refine ⟨plain, [], rest, .last h (Or.inr hfaulty), ?_, ?_⟩
    · rw [List.append_nil]
      rfl
    · exact iff_of_false (Option.some_ne_none fault) hfaulty.ne_nil

end Mapped

namespace Aligned

theorem head (h : Aligned base value raw vs anchors rest) :
    anchors.head? = some ⟨value, base⟩ := by
  cases h <;> rfl

/-- All anchors but the first stand behind the start. -/
theorem start_lt (h : Aligned base value raw vs anchors rest) :
    ∀ a ∈ anchors.tail, value < a.value ∧ base < a.document := by
  induction h with
  | last => exact List.forall_mem_nil _
  | @reference base value plain written raw vs rest v anchors _ hrefers behind ih =>
    have hpos := v.utf8Size_pos
    have hwidth := hrefers.width_lt
    have hstart : value < value + byteLength (plain ++ [v]) ∧
        base < base + byteLength (plain ++ written) := by
      simp only [byteLength_append, byteLength_cons, byteLength_nil]
      omega
    -- The next stretch begins behind this one, and all later ones begin behind that.
    obtain ⟨later, hanchors⟩ := List.head?_eq_some_iff.1 behind.head
    rw [List.tail_cons, hanchors]
    rw [hanchors] at ih
    refine List.forall_mem_cons.2 ⟨hstart, fun a ha => ?_⟩
    have hlater := ih a ha
    omega

theorem sorted (h : Aligned base value raw vs anchors rest) :
    anchors.Pairwise Anchor.Precedes := by
  induction h with
  | last => exact List.pairwise_singleton _ _
  | reference h hrefers behind ih =>
    exact .cons (Aligned.reference h hrefers behind).start_lt ih

/-- From each anchor to the next, and from the last one on, source and value run side by side. -/
theorem sideBySide {start : Nat} (h : Aligned base value raw vs anchors rest)
    (before front : List Char) (hbase : base = start + byteLength before)
    (hvalue : value = byteLength front) :
    anchors.IsChain (SideBySide start (before ++ raw) (front ++ vs)) ∧
      ∃ a, anchors.getLast? = some a ∧ RunsOut start (before ++ raw) (front ++ vs) rest a := by
  induction h generalizing before front with
  | last h hrest =>
    subst hbase hvalue
    exact ⟨.singleton _, _, rfl, _, h, ⟨before, front, rfl, rfl, rfl⟩, hrest⟩
  | @reference base value plain written raw vs rest v anchors h hrefers behind ih =>
    subst hbase hvalue
    have hraw : before ++ (plain ++ written) ++ raw = before ++ (plain ++ (written ++ raw)) := by
      simp
    have hvs : front ++ (plain ++ [v]) ++ vs = front ++ (plain ++ v :: vs) := by
      simp
    have hbase : start + byteLength before + byteLength (plain ++ written) =
        start + byteLength (before ++ (plain ++ written)) := by
      rw [byteLength_append before, Nat.add_assoc]
    have hvalue := (byteLength_append front (plain ++ [v])).symm
    obtain ⟨hchain, last, hlast, hout⟩ := ih _ _ hbase hvalue
    obtain ⟨later, hanchors⟩ := List.head?_eq_some_iff.1 behind.head
    rw [hraw, hvs] at hchain hout
    rw [hanchors] at hchain hlast ⊢
    refine ⟨.cons_cons ?_ hchain, last, hlast, hout⟩
    refine ⟨plain, written, v, raw, vs, h, hrefers, ⟨before, front, rfl, rfl, rfl⟩, ?_⟩
    refine ⟨before ++ (plain ++ written), front ++ (plain ++ [v]), hraw.symm, hvs.symm, ?_⟩
    rw [hbase, hvalue]

end Aligned

/-- Replacing the references of a text one by one gives no fault just if the whole text has a value,
and then appends that value. The anchors it adds begin at the end of what was there and at the start
of the text, are in order, and part the text and its value into stretches side by side. The value of
the whole replaces references, and references have the five names and the numbers of characters. -/
theorem appendEscaped_unescapes (m : Mapped) (base : Nat) (raw : List Char) :
    ((m.appendEscaped base raw).2 = none ↔ ∃ vs, unescape raw = .ok vs) ∧
    (∀ vs, unescape raw = .ok vs → (m.appendEscaped base raw).1.chars = m.chars ++ vs) ∧
    (∃ added rest, (m.appendEscaped base raw).1.map.anchors = m.map.anchors ++ added ∧
      added.head? = some ⟨byteLength m.chars, base⟩ ∧
      added.Pairwise Anchor.Precedes ∧
      added.IsChain (SideBySide base raw (m.appendEscaped base raw).1.chars) ∧
      (∃ last, added.getLast? = some last ∧
        RunsOut base raw (m.appendEscaped base raw).1.chars rest last) ∧
      ((m.appendEscaped base raw).2 = none ↔ rest = [])) ∧
    (∀ vs, unescape raw = .ok vs ↔ Replaces raw vs) ∧
    ∀ written v, Refers written v ↔ ∃ name, written = '&' :: (name ++ [';']) ∧ Denotes name v := by
  refine ⟨?_, fun vs h => ?_, ?_, fun vs => unescape_eq_ok, fun written v => refers_iff⟩
  · simp only [unescape_eq_ok]
    exact Mapped.appendRest_eq_none
  · exact Mapped.appendRest_chars (unescape_eq_ok.1 h)
  · obtain ⟨vs, anchors, rest, haligned, hresult, hfault⟩ :=
      (m.anchor base).aligned_appendRest base raw
    obtain ⟨hchain, hlast⟩ := haligned.sideBySide [] m.chars rfl rfl
    refine ⟨_, rest, ?_, haligned.head, haligned.sorted, ?_, ?_, hfault⟩
    · rw [Mapped.appendEscaped, hresult]
      exact List.append_assoc _ _ _
    · rw [Mapped.appendEscaped, hresult]
      exact hchain
    · rw [Mapped.appendEscaped, hresult]
      exact hlast

/-- A value of one byte goes on with `é<b`, up to a reference that is cut off by another one. -/
example : (Mapped.mk ['x'] ⟨[⟨0, 3⟩]⟩).appendEscaped 10 "é&lt;b&amp&#62;".toList =
    (⟨"xé<b".toList, ⟨[⟨0, 3⟩, ⟨1, 10⟩, ⟨4, 16⟩]⟩⟩, some (.unterminated 0 9)) := by
  decide +kernel

end ProjectAnalysis.Xml
