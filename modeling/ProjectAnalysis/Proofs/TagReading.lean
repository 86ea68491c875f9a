import Mathlib.Data.List.TakeDrop
import ProjectAnalysis.XmlTag
import ProjectAnalysis.Proofs.NodeLayout
import ProjectAnalysis.Proofs.ReaderKeep
import ProjectAnalysis.Proofs.ValueSegment

/-! What is read from an opening tag: the name and the attributes stand where their spans say, the
value of an attribute is what stands between its quotes, and every fault is within the tag. -/
namespace ProjectAnalysis.Xml

open ProjectAnalysis.Expr (Inside)

/-- Nothing but white space of markup stands between two places. -/
def MarkupGap (c d : Cursor) : Prop :=
  ∃ ws, c.Reads ws d ∧ ∀ x ∈ ws, isMarkupBlank x = true

/-- The source of a value: with its references replaced, or as it stands if one is faulty. -/
def valueSegment (base : Nat) (raw : List Char) : Segment :=
  ⟨base, raw, (unescape raw).toOption.isNone⟩

namespace Attribute

/-- The source of the value. -/
def segment (text : List Char) (a : Attribute) : Segment :=
  valueSegment a.valueSpan.start ((a.valueSpan.slice? text).getD [])

/-- The attribute is written at its span, and its value between the quotes that end it. -/
def WrittenIn (text : List Char) (a : Attribute) : Prop :=
  ∃ gap gap' quote raw, (quote = '"' ∨ quote = '\'') ∧ quote ∉ raw ∧
    (∀ x ∈ gap ++ gap', isMarkupBlank x = true) ∧
    a.span.slice? text =
      some (a.name.text.toList ++ gap ++ '=' :: gap' ++ quote :: raw ++ [quote]) ∧
    a.valueSpan.slice? text = some raw ∧
    a.span.start < a.valueSpan.start ∧ a.valueSpan.stop + 1 = a.span.stop

/-- The value is what its source comes to. -/
def Gathered (text : List Char) (a : Attribute) : Prop :=
  a.value = String.ofList (gather [a.segment text]).chars ∧ a.map = (gather [a.segment text]).map

end Attribute

/-- A fault of what is written from one offset to another. -/
def Fault.Within (lo hi : Nat) (f : Fault) : Prop :=
  f.cause ≠ .misplacedTag ∧ lo ≤ f.span.start ∧ f.span.start ≤ f.span.stop ∧ f.span.stop ≤ hi

def DistinctNames (attributes : List Attribute) : Prop :=
  attributes.Pairwise fun a b => a.name.text ≠ b.name.text

/-- What is read between two offsets, after some attributes that were read before. -/
structure ReadAttributes (text : List Char) (lo hi : Nat) (seen attributes : List Attribute)
    (faults : List Fault) : Prop where
  written : ∀ a ∈ attributes, a.WrittenIn text
  gathered : ∀ a ∈ attributes, a.Gathered text
  within : ∀ a ∈ attributes, lo ≤ a.span.start ∧ a.span.stop ≤ hi
  ordered : attributes.Pairwise fun a b => a.span.stop ≤ b.span.start
  faults_within : ∀ f ∈ faults, f.Within lo hi
  /-- Without faults the references of all values are replaced. -/
  replaced : faults = [] → ∀ a ∈ attributes, (a.segment text).verbatim = false
  distinct : faults = [] → DistinctNames seen → DistinctNames (seen ++ attributes)

/-- What is read from the tag whose `<` is at `c`. -/
structure Tag.ReadAt (text : List Char) (c : Cursor) (tag : Tag) : Prop where
  start_eq : tag.nameSpan.start = c.offset + byteLength (c.rest.take 1)
  name_slice : tag.nameSpan.slice? text = some tag.name.text.toList
  name_stop : tag.nameSpan.stop ≤ c.offset + byteLength c.rest
  attributes : ReadAttributes text tag.nameSpan.stop (c.offset + byteLength c.rest) []
    tag.attributes tag.faults

variable {text cs raw : List Char} {c d e : Cursor} {n lo hi : Nat} {a : Attribute}
  {faults : List Fault} {seen : List Attribute}

theorem Name.text_ofText (cs : List Char) : (Name.ofText cs).text = String.ofList cs := by
  unfold Name.ofText
  split
  · rename_i before after hsplit
    unfold splitOnce? at hsplit
    rw [List.span_eq_takeWhile_dropWhile] at hsplit
    split at hsplit
    · cases hsplit
    · rename_i sep rest hspan
      obtain ⟨rfl, rfl⟩ := Prod.mk.inj (Option.some.inj hsplit)
      obtain ⟨rfl, hdrop⟩ := Prod.mk.inj hspan
      have hhead := List.head?_dropWhile_not (· != ':') cs
      rw [hdrop] at hhead
      have hsep : sep = ':' := by simpa using hhead
      have hcs := List.takeWhile_append_dropWhile (p := (· != ':')) (l := cs)
      rw [hdrop, hsep] at hcs
      change String.ofList _ ++ ":" ++ String.ofList rest = _
      conv => rhs; rw [← hcs]
      rw [← String.toList_inj]
      simp
  · rfl

theorem Cursor.Reaches.end_eq (h : c.Reaches d) :
    d.offset + byteLength d.rest = c.offset + byteLength c.rest := by
  obtain ⟨cs, hrest, hoffset⟩ := h
  rw [hrest, hoffset, byteLength_append, Nat.add_assoc]

theorem MarkupGap.reaches (h : MarkupGap c d) : c.Reaches d := by
  obtain ⟨ws, hread, -⟩ := h
  exact hread.reaches

theorem markupGap_skipWhile (c : Cursor) : MarkupGap c (c.skipWhile isMarkupBlank) :=
  ⟨_, c.reads_skipWhile isMarkupBlank, c.all_run isMarkupBlank⟩

section
variable {α : Type} {b : α}

theorem gap_of_gives {f : Unit → Reader Cursor Fault n α}
    (h : (markupBlanks >>= f).Gives c b d) : ∃ e, MarkupGap c e ∧ (f ()).Gives e b d := by
  rw [markupBlanks, Reader.gives_bind] at h
  obtain ⟨_, e, hblanks, hthen⟩ := h
  obtain ⟨_, _, hrun, hpure⟩ := Reader.gives_bind.1 hblanks
  obtain ⟨-, -, rfl⟩ := Reader.gives_takeWhile.1 hrun
  obtain ⟨-, -, rfl⟩ := Reader.gives_pure.1 hpure
  exact ⟨_, markupGap_skipWhile c, hthen⟩

end

/-- A value in quotes, and where it begins. -/
theorem reads_of_quotedValue {name : String} {start : Nat}
    (h : (quotedValue name : Reader Cursor Fault n _).Gives c (start, raw) d) :
    ∃ quote, (quote = '"' ∨ quote = '\'') ∧ quote ∉ raw ∧ c.Reads (quote :: raw ++ [quote]) d ∧
      start = c.offset + 1 := by
  rw [quotedValue, Reader.gives_peek_bind] at h
  split at h
  · obtain ⟨_, _, -, hfail⟩ := Reader.gives_bind.1 h
    exact absurd hfail (Reader.not_gives_fail _ _)
  · rename_i quote hquote
    obtain ⟨hpeek, hquote⟩ := Option.filter_eq_some_iff.1 hquote
    have hquote : quote = '"' ∨ quote = '\'' := by simpa using hquote
    have hwidth : quote.utf8Size = 1 := by
      rcases hquote with rfl | rfl <;> rfl
    obtain ⟨_, e₁, htake, h⟩ := Reader.gives_bind.1 h
    obtain ⟨-, -, rfl⟩ := Reader.gives_take.1 htake
    rw [Reader.gives_offset_bind] at h
    obtain ⟨value, e₂, hrun, h⟩ := Reader.gives_bind.1 h
    obtain ⟨-, hvalue, rfl⟩ := Reader.gives_takeWhile.1 hrun
    obtain ⟨closed, e₃, heat, h⟩ := Reader.gives_bind.1 h
    have hopen : c.Reads [quote] (c.skip 1) := by
      have hskip := c.reads_skip 1
      obtain ⟨tail, hrest⟩ := List.head?_eq_some_iff.1 hpeek
      rwa [hrest, List.take_succ_cons, List.take_zero] at hskip
    have hread := (c.skip 1).reads_skipWhile (· != quote)
    have hall := (c.skip 1).all_run (· != quote)
    rw [hvalue] at hread hall
    rcases (Reader.gives_eat.1 heat).2 with ⟨rfl, hclose⟩ | ⟨rfl, -⟩
    · obtain ⟨-, hpair, rfl⟩ := Reader.gives_pure.1 h
      obtain ⟨rfl, rfl⟩ := Prod.mk.inj hpair
      refine ⟨quote, hquote, fun hmem => ?_, (hopen.trans hread).trans hclose, ?_⟩
      · exact absurd rfl (bne_iff_ne.1 (hall quote hmem))
      · rw [hopen.2, byteLength_cons, hwidth]
        rfl
    · exact absurd h (Reader.not_gives_fail _ _)

theorem Attribute.segment_eq (h : a.valueSpan.slice? text = some raw) :
    a.segment text = valueSegment a.valueSpan.start raw := by
  rw [segment, h]
  rfl

theorem gather_singleton (s : Segment) : gather [s] = s.appendTo .empty :=
  rfl

/-- A value comes to what its source comes to, whether there is a fault in it or not. -/
theorem gather_valueSegment (k : Nat) (raw : List Char) :
    (∃ mapped, Mapped.empty.appendEscaped k raw = (mapped, none) ∧
      gather [valueSegment k raw] = mapped ∧ (valueSegment k raw).verbatim = false) ∨
    ∃ mapped fault, Mapped.empty.appendEscaped k raw = (mapped, some fault) ∧
      gather [valueSegment k raw] = Mapped.empty.appendVerbatim k raw := by
  have hnone : (Mapped.empty.appendEscaped k raw).2 = none ↔ ∃ vs, Replaces raw vs :=
    Mapped.appendRest_eq_none
  cases happend : Mapped.empty.appendEscaped k raw with
  | mk mapped fault =>
    rw [happend] at hnone
    cases hvalue : unescape raw with
    | ok vs =>
      obtain rfl : fault = none := hnone.2 ⟨vs, unescape_eq_ok.1 hvalue⟩
      have hverbatim : (valueSegment k raw).verbatim = false := by
        rw [valueSegment, hvalue]
        rfl
      refine Or.inl ⟨mapped, rfl, ?_, hverbatim⟩
      rw [gather_singleton, Segment.appendTo, hverbatim, if_neg Bool.false_ne_true]
      exact congrArg Prod.fst happend
    | error e =>
      have hverbatim : (valueSegment k raw).verbatim = true := by
        rw [valueSegment, hvalue]
        rfl
      have hgather : gather [valueSegment k raw] = Mapped.empty.appendVerbatim k raw := by
        rw [gather_singleton, Segment.appendTo, hverbatim, if_pos rfl]
        rfl
      cases fault with
      | some fault => exact Or.inr ⟨mapped, fault, rfl, hgather⟩
      | none =>
        obtain ⟨vs, hreplaces⟩ := hnone.1 rfl
        rw [unescape_eq_ok.2 hreplaces] at hvalue
        cases hvalue

/-- The quotes and what stands between them. -/
theorem reads_of_attributeNamed {name : List Char} {start : Nat} (hc : Inside text c)
    (h : (attributeNamed name start : Reader Cursor Fault n _).Gives c (a, faults) d) :
    ∃ quote raw, (quote = '"' ∨ quote = '\'') ∧ quote ∉ raw ∧
      c.Reads (quote :: raw ++ [quote]) d ∧ a.name = .ofText name ∧ a.span = ⟨start, d.offset⟩ ∧
      a.valueSpan = ⟨c.offset + 1, c.offset + 1 + byteLength raw⟩ ∧
      a.valueSpan.slice? text = some raw ∧ a.Gathered text ∧
      (faults = [] → (a.segment text).verbatim = false) := by
  rw [attributeNamed] at h
  obtain ⟨⟨k, raw⟩, e, hquoted, h⟩ := Reader.gives_bind.1 h
  obtain ⟨quote, hquote, hraw, hread, rfl⟩ := reads_of_quotedValue hquoted
  rw [Reader.gives_offset_bind] at h
  have hwidth : byteLength [quote] = 1 := by
    rcases hquote with rfl | rfl <;> rfl
  have hslice : (Span.mk (c.offset + 1) (c.offset + 1 + byteLength raw)).slice? text =
      some raw := by
    have hopen : c.Reads [quote] ⟨c.offset + 1, raw ++ [quote] ++ e.rest⟩ :=
      ⟨by rw [hread.1]; simp, by rw [hwidth]⟩
    exact (hc.reaches hopen.reaches).slice?_eq
      (d := ⟨_, [quote] ++ e.rest⟩) ⟨by simp, rfl⟩
  refine ⟨quote, raw, hquote, hraw, ?_⟩
  rcases gather_valueSegment (c.offset + 1) raw with
    ⟨mapped, happend, hgather, hverbatim⟩ | ⟨mapped, fault, happend, hgather⟩
  all_goals
    dsimp only at h
    rw [happend] at h
    obtain ⟨-, hpair, rfl⟩ := Reader.gives_pure.1 h
    obtain ⟨rfl, rfl⟩ := Prod.mk.inj hpair
    refine ⟨hread, rfl, rfl, rfl, hslice, ⟨?_, ?_⟩, ?_⟩
    · rw [Attribute.segment_eq hslice, hgather]
    · rw [Attribute.segment_eq hslice, hgather]
  · intro _
    rw [Attribute.segment_eq hslice]
    exact hverbatim
  · exact nofun

/-- Reads what comes behind the name of an attribute and the `=`. -/
def attributeBehind (name : List Char) (start : Nat) :
    Reader Cursor Fault n (Attribute × List Fault) := do
  markupBlanks
  let found ← attributeNamed name start
  markupBlanks
  return found

theorem reads_of_attributeBehind {name : List Char} {start : Nat}
    (h : (attributeBehind name start : Reader Cursor Fault n _).Gives c (a, faults) d) :
    ∃ gap e e', (∀ x ∈ gap, isMarkupBlank x = true) ∧ c.Reads gap e ∧
      (attributeNamed name start : Reader Cursor Fault n _).Gives e (a, faults) e' ∧
      MarkupGap e' d := by
  rw [attributeBehind] at h
  obtain ⟨e, ⟨gap, hread, hgap⟩, h⟩ := gap_of_gives h
  obtain ⟨found, e', hvalue, h⟩ := Reader.gives_bind.1 h
  obtain ⟨_, hend, h⟩ := gap_of_gives h
  obtain ⟨-, rfl, rfl⟩ := Reader.gives_pure.1 h
  exact ⟨gap, e, e', hgap, hread, hvalue, hend⟩

/-- An attribute begins with its name, if there is one, and an `=`. -/
theorem reads_of_attributeBranch
    (h : (attributeBranch : Branch Cursor Fault n _).Takes c (a, faults) d) :
    ∃ name gap e, (∀ x ∈ gap, isMarkupBlank x = true) ∧ c.Reads (name ++ gap ++ ['=']) e ∧
      (attributeBehind name c.offset : Reader Cursor Fault n _).Gives e (a, faults) d := by
  obtain ⟨first, c₁, hfirst, h⟩ := Branch.takes_andThen.1 (Branch.takes_at.1 h)
  obtain ⟨-, -, hfirst⟩ := Branch.takes_onChar.1 hfirst
  dsimp only at h
  split at h
  · rename_i heq
    obtain ⟨_, _, hnone, h⟩ := Reader.gives_bind.1 h
    obtain ⟨-, rfl, rfl⟩ := Reader.gives_pure.1 hnone
    exact ⟨[], [], _, List.forall_mem_nil _, heq ▸ hfirst, h⟩
  · obtain ⟨more, c₂, hrun, h⟩ := Reader.gives_bind.1 h
    obtain ⟨-, hmore, rfl⟩ := Reader.gives_takeWhile.1 hrun
    have hname := c₁.reads_skipWhile isTagNameChar
    rw [hmore] at hname
    obtain ⟨c₃, ⟨gap, hgap, hblank⟩, h⟩ := gap_of_gives h
    obtain ⟨eaten, c₄, heat, h⟩ := Reader.gives_bind.1 h
    rcases (Reader.gives_eat.1 heat).2 with ⟨rfl, hequals⟩ | ⟨rfl, -⟩
    · obtain ⟨_, _, hpure, h⟩ := Reader.gives_bind.1 h
      obtain ⟨-, rfl, rfl⟩ := Reader.gives_pure.1 hpure
      exact ⟨first :: more, gap, _, hblank, ((hfirst.trans hname).trans hgap).trans hequals, h⟩
    · obtain ⟨_, _, hfail, -⟩ := Reader.gives_bind.1 h
      obtain ⟨_, _, -, hfail⟩ := Reader.gives_bind.1 hfail
      exact absurd hfail (Reader.not_gives_fail _ _)

/-- An attribute is read from where it begins to its closing quote, and white space behind it. -/
theorem written_of_attributeBranch (hc : Inside text c)
    (h : (attributeBranch : Branch Cursor Fault n _).Takes c (a, faults) d) :
    a.WrittenIn text ∧ a.Gathered text ∧ (faults = [] → (a.segment text).verbatim = false) ∧
      a.span.start = c.offset ∧ a.span.stop ≤ d.offset ∧ c.Reaches d := by
  obtain ⟨name, gap, c₂, hblank, hname, h⟩ := reads_of_attributeBranch h
  obtain ⟨gap', c₃, c₄, hblank', hread', hvalue, hbehind⟩ := reads_of_attributeBehind h
  have hhead := hname.trans hread'
  obtain ⟨quote, raw, hquote, hraw, hread, hlabel, hspan, hvalueSpan, hslice, hgathered, hclean⟩ :=
    reads_of_attributeNamed (hc.reaches hhead.reaches) hvalue
  have hwhole := hhead.trans hread
  have hwidth : byteLength [quote] = 1 := by
    rcases hquote with rfl | rfl <;> rfl
  refine ⟨⟨gap, gap', quote, raw, hquote, hraw, ?_, ?_, hslice, ?_, ?_⟩, hgathered, hclean, ?_, ?_,
    hwhole.reaches.trans hbehind.reaches⟩
  · exact fun x hx => (List.mem_append.1 hx).elim (hblank x) (hblank' x)
  · rw [hspan, hc.slice?_eq hwhole, hlabel, Name.text_ofText, String.toList_ofList]
    simp
  · rw [hspan, hvalueSpan]
    exact Nat.lt_succ_of_le hhead.reaches.offset_le
  · rw [hspan, hvalueSpan, hread.2]
    simp only [List.cons_append, byteLength_cons, byteLength_append] at hwidth ⊢
    simp only [byteLength_nil] at hwidth ⊢
    omega
  · rw [hspan]
  · rw [hspan]
    exact hbehind.reaches.offset_le

theorem Cursor.Reaches.within (h : c.Reaches d) :
    c.offset ≤ d.offset ∧ d.offset ≤ c.offset + byteLength c.rest := by
  have hend := Cursor.Reaches.end_eq h
  have hstart := h.offset_le
  omega

theorem Fault.within_at {cause : Cause} {k : Nat} (hcause : cause ≠ .misplacedTag)
    (h : lo ≤ k ∧ k ≤ hi) : (Fault.at cause k).Within lo hi :=
  ⟨hcause, h.1, Nat.le_refl _, h.2⟩

theorem Fault.Within.widen {f : Fault} {lo' hi' : Nat} (h : f.Within lo hi) (hlo : lo' ≤ lo)
    (hhi : hi ≤ hi') : f.Within lo' hi' :=
  ⟨h.1, Nat.le_trans hlo h.2.1, h.2.2.1, Nat.le_trans h.2.2.2 hhi⟩

/-- Within what is left at a place. -/
def WithinRest (c : Cursor) (f : Fault) : Prop :=
  f.Within c.offset (c.offset + byteLength c.rest)

section
variable {α : Type} {P : α → Prop} {E : Fault → Prop} {p : Char → Bool}

theorem keeps_takeWhile :
    (Reader.takeWhile p : Reader Cursor Fault n _).Keeps (c.Reaches ·) E fun _ => True :=
  fun d _ hd => ⟨hd.trans (d.reaches_skipWhile p), trivial⟩

theorem keeps_take {k : Nat} :
    (Reader.take k : Reader Cursor Fault n _).Keeps (c.Reaches ·) E fun _ => True :=
  fun d _ hd => ⟨hd.trans (d.reaches_skip k), trivial⟩

theorem keeps_markupBlanks :
    (markupBlanks : Reader Cursor Fault n _).Keeps (c.Reaches ·) E fun _ => True :=
  keeps_takeWhile.bind fun _ _ => .pure trivial

theorem keeps_eat :
    (Reader.eat cs : Reader Cursor Fault n _).Keeps (c.Reaches ·) E fun _ => True :=
  .bind .place fun _ _ => .ite (keeps_take.bind fun _ _ => .pure trivial) (.pure trivial)

theorem keeps_peek :
    (Reader.peek : Reader Cursor Fault n _).Keeps (c.Reaches ·) E fun _ => True :=
  fun _ _ hd => ⟨hd, trivial⟩

theorem keeps_offset : (Reader.offset : Reader Cursor Fault n _).Keeps (c.Reaches ·) E
    fun k => c.offset ≤ k ∧ k ≤ c.offset + byteLength c.rest :=
  fun _ _ hd => ⟨hd, Cursor.Reaches.within hd⟩

theorem keeps_failHere {cause : Cause} (hcause : cause ≠ .misplacedTag) :
    (failHere cause : Reader Cursor Fault n α).Keeps (c.Reaches ·) (WithinRest c) P :=
  keeps_offset.bind fun _ hk => .fail (Fault.within_at hcause hk)

end

theorem keeps_quotedValue {name : String} :
    (quotedValue name : Reader Cursor Fault n _).Keeps (c.Reaches ·) (WithinRest c)
      fun found => c.offset ≤ found.1 ∧ found.1 ≤ c.offset + byteLength c.rest := by
  refine keeps_peek.bind fun _ _ => ?_
  split
  · exact keeps_failHere nofun
  · refine keeps_take.bind fun _ _ => keeps_offset.bind fun start hstart => ?_
    refine keeps_takeWhile.bind fun _ _ => keeps_eat.bind fun _ _ => ?_
    exact .ite (.pure hstart) (.fail (Fault.within_at nofun hstart))

theorem keeps_attributeNamed {name : List Char} {start : Nat} :
    (attributeNamed name start : Reader Cursor Fault n _).Keeps (c.Reaches ·) (WithinRest c)
      fun found => ∀ f ∈ found.2, WithinRest c f := by
  refine keeps_quotedValue.bind fun value hvalue => keeps_offset.bind fun _ _ => ?_
  rcases gather_valueSegment value.1 value.2 with ⟨_, happend, -⟩ | ⟨_, _, happend, -⟩
  all_goals
    dsimp only
    rw [happend]
    refine .pure ?_
  · exact List.forall_mem_nil _
  · exact List.forall_mem_singleton.2 (Fault.within_at nofun hvalue)

theorem keeps_attributeBehind {name : List Char} {start : Nat} :
    (attributeBehind name start : Reader Cursor Fault n _).Keeps (c.Reaches ·) (WithinRest c)
      fun found => ∀ f ∈ found.2, WithinRest c f :=
  keeps_markupBlanks.bind fun _ _ => keeps_attributeNamed.bind fun _ hfound =>
    keeps_markupBlanks.bind fun _ _ => .pure hfound

/-- The faults of an attribute are within what is left of its tag. -/
theorem keeps_attributeBranch :
    (attributeBranch : Branch Cursor Fault n _).Keeps (c.Reaches ·) (WithinRest c)
      fun found => ∀ f ∈ found.2, WithinRest c f := by
  have hchar {p : Char → Bool} : (Branch.onChar p : Branch Cursor Fault n _).Keeps (c.Reaches ·)
      (WithinRest c) fun _ => True := fun _ _ hd r _ => ⟨hd.trans r.reaches, trivial⟩
  have hnamed {name : List Char} {start : Nat} :
      (pure name >>= fun name => attributeBehind name start : Reader Cursor Fault n _).Keeps
        (c.Reaches ·) (WithinRest c) fun found => ∀ f ∈ found.2, WithinRest c f :=
    Reader.Keeps.bind (P := fun _ => True) (.pure trivial) fun _ _ => keeps_attributeBehind
  unfold attributeBranch
  refine Branch.Keeps.at_place fun d _ => hchar.andThen fun first _ => ?_
  dsimp only
  split
  · exact hnamed
  · refine keeps_takeWhile.bind fun _ _ => keeps_markupBlanks.bind fun _ _ => ?_
    refine keeps_eat.bind fun _ _ => ?_
    split
    · refine (keeps_failHere ?_).stop
      intro h
      cases h
    · exact hnamed

theorem DistinctNames.snoc (h : DistinctNames seen)
    (ha : seen.any (·.name.text = a.name.text) = false) : DistinctNames (seen ++ [a]) := by
  refine List.pairwise_append.2 ⟨h, List.pairwise_singleton _ _, fun b hb c hc => ?_⟩
  obtain rfl := List.mem_singleton.1 hc
  simpa using List.any_eq_false.1 ha b hb

theorem readAttributes_nil (hfaults : ∀ f ∈ faults, f.Within lo hi) :
    ReadAttributes text lo hi seen [] faults where
  written := List.forall_mem_nil _
  gathered := List.forall_mem_nil _
  within := List.forall_mem_nil _
  ordered := .nil
  faults_within := hfaults
  replaced _ := List.forall_mem_nil _
  distinct _ h := by rwa [List.append_nil]

theorem ReadAttributes.weaken {lo' : Nat} {attributes : List Attribute}
    (h : ReadAttributes text lo hi seen attributes faults) (hlo : lo' ≤ lo) :
    ReadAttributes text lo' hi seen attributes faults :=
  { h with
    within := fun a ha => ⟨Nat.le_trans hlo (h.within a ha).1, (h.within a ha).2⟩
    faults_within := fun f hf => (h.faults_within f hf).widen hlo (Nat.le_refl hi) }

/-- The fault of an attribute whose name was read before. -/
def repetition (seen : List Attribute) (a : Attribute) : List Fault :=
  if seen.any (·.name.text = a.name.text) then
    [.at (.duplicateAttribute a.name.text) a.span.start]
  else []

/-- One attribute more in front. -/
theorem ReadAttributes.cons {mid : Nat} {more : List Attribute} {later : List Fault}
    (h : ReadAttributes text mid hi (seen ++ [a]) more later) (hwritten : a.WrittenIn text)
    (hgathered : a.Gathered text) (hfaults : ∀ f ∈ faults, f.Within lo hi)
    (hclean : faults = [] → (a.segment text).verbatim = false) (hstart : lo = a.span.start)
    (hstop : a.span.stop ≤ mid) (hlo : lo ≤ mid) (hhi : mid ≤ hi) :
    ReadAttributes text lo hi seen (a :: more) (faults ++ repetition seen a ++ later) where
  written := List.forall_mem_cons.2 ⟨hwritten, h.written⟩
  gathered := List.forall_mem_cons.2 ⟨hgathered, h.gathered⟩
  within := List.forall_mem_cons.2 ⟨⟨Nat.le_of_eq hstart, Nat.le_trans hstop hhi⟩,
    fun b hb => ⟨Nat.le_trans hlo (h.within b hb).1, (h.within b hb).2⟩⟩
  ordered := .cons (fun b hb => Nat.le_trans hstop (h.within b hb).1) h.ordered
  faults_within := by
    have hrepeated : ∀ f ∈ repetition seen a, f.Within lo hi := by
      unfold repetition
      split
      · refine List.forall_mem_singleton.2 (Fault.within_at nofun ?_)
        exact ⟨Nat.le_of_eq hstart, hstart ▸ Nat.le_trans hlo hhi⟩
      · exact List.forall_mem_nil _
    refine List.forall_mem_append.2 ⟨List.forall_mem_append.2 ⟨hfaults, hrepeated⟩, fun f hf => ?_⟩
    exact (h.faults_within f hf).widen hlo (Nat.le_refl hi)
  replaced hnone := by
    obtain ⟨hown, hlater⟩ := List.append_eq_nil_iff.1 hnone
    refine List.forall_mem_cons.2 ⟨hclean (List.append_eq_nil_iff.1 hown).1, h.replaced hlater⟩
  distinct hnone hseen := by
    obtain ⟨hown, hlater⟩ := List.append_eq_nil_iff.1 hnone
    have hnew : seen.any (·.name.text = a.name.text) = false := by
      have hrepeated := (List.append_eq_nil_iff.1 hown).2
      unfold repetition at hrepeated
      split at hrepeated
      · cases hrepeated
      · rename_i hany
        exact Bool.not_eq_true _ ▸ hany
    have hall := h.distinct hlater (hseen.snoc hnew)
    rwa [List.append_assoc] at hall

/-- The attributes of a tag, from the first that was not read yet on. -/
theorem readAttributes_attributesFrom (seen : List Attribute) (c : Cursor) (hc : Inside text c) :
    ∃ more, (attributesFrom seen c).1 = seen ++ more ∧
      ReadAttributes text c.offset (c.offset + byteLength c.rest) seen more
        (attributesFrom seen c).2 := by
  -- Each attribute takes up some of the tag, and the ones behind it are read from what is left.
  induction hsize : Position.size c using Nat.strongRecOn generalizing c seen with
  | ind k ih =>
    have hfaults := keeps_attributeBranch c (Nat.lt_succ_self _) (.refl c)
    rw [attributesFrom]
    split
    · rename_i fault hfault
      rw [hfault] at hfaults
      exact ⟨[], (List.append_nil _).symm,
        readAttributes_nil (List.forall_mem_singleton.2 hfaults)⟩
    · exact ⟨[], (List.append_nil _).symm, readAttributes_nil (List.forall_mem_nil _)⟩
    · rename_i r hr
      rw [hr] at hfaults
      obtain ⟨hreach, hown⟩ := hfaults r rfl
      obtain ⟨⟨a, own⟩, d, _, hshorter⟩ := r
      obtain ⟨hwritten, hgathered, hclean, hstart, hstop, -⟩ :=
        written_of_attributeBranch hc ⟨_, _, hr, rfl, rfl⟩
      obtain ⟨more, hall, hmore⟩ := ih _ (hsize ▸ hshorter) (seen ++ [a]) d (hc.reaches hreach) rfl
      have hend := Cursor.Reaches.end_eq hreach
      have hle := hreach.offset_le
      refine ⟨a :: more, ?_, ?_⟩
      · rw [hall, List.append_assoc]
        rfl
      · rw [hend] at hmore
        exact hmore.cons hwritten hgathered hown hclean hstart.symm hstop hle
          (Cursor.Reaches.within hreach).2

/-- What is read from a tag stands in the text that holds it. -/
theorem readAt_of_read {tag : Tag} (hc : Inside text c) (h : Tag.read c = .ok tag) :
    tag.ReadAt text c := by
  unfold Tag.read at h
  dsimp only at h
  split at h
  · cases h
  · obtain rfl := Except.ok.inj h
    have hskip := c.reads_skip 1
    have hname := (c.skip 1).reads_skipWhile isTagNameChar
    obtain ⟨ws, hgap, -⟩ := markupGap_skipWhile ((c.skip 1).skipWhile isTagNameChar)
    have hbehind := (hskip.trans hname).reaches.trans hgap.reaches
    obtain ⟨more, hall, hmore⟩ :=
      readAttributes_attributesFrom [] _ (hc.reaches hbehind)
    rw [List.nil_append] at hall
    rw [Cursor.Reaches.end_eq hbehind, ← hall] at hmore
    refine ⟨rfl, ?_, (Cursor.Reaches.within (hskip.trans hname).reaches).2, ?_⟩
    · rw [Name.text_ofText, String.toList_ofList]
      exact (hc.reaches hskip.reaches).slice?_eq hname
    · exact hmore.weaken hgap.reaches.offset_le

/-- A tag without a name fails within it. -/
theorem within_of_read {fault : Fault} (h : Tag.read c = .error fault) : WithinRest c fault := by
  unfold Tag.read at h
  dsimp only at h
  split at h
  · obtain rfl := Except.error.inj h
    exact Fault.within_at nofun (Cursor.Reaches.within (c.reaches_skip 1))
  · cases h

end ProjectAnalysis.Xml
