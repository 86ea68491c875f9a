import ProjectAnalysis.Proofs.SourcePiece
import ProjectAnalysis.Proofs.TreeLayout

/-! What holds of a document while it is read. The finished elements are in order, the open ones
stand around them, and the content of each is what the character data directly in it comes to; every
piece that is taken in keeps this, and so does the end of the text. -/
namespace ProjectAnalysis.Xml

open ProjectAnalysis.Expr (Inside)

/-- Whether an element begins with the piece. -/
def Piece.opens : Piece → Bool
  | .opening _ | .empty => true
  | _ => false

/-- The character data between two offsets that is in none of the trees. -/
def directPieces (all : List SourcePiece) (lo hi : Nat) (trees : List Tree) : List SourcePiece :=
  all.filter (·.isDirect lo hi trees)

section
variable (text : List Char) (all : List SourcePiece) (clean : Prop)

/-- The tag is what one of the pieces, at this span, was read as. -/
structure Tag.StandsAt (tag : Tag) (span : Span) : Prop where
  piece : ∃ piece : Piece, piece.opens = true ∧ ⟨piece, span⟩ ∈ all
  read : ∃ raw, span.slice? text = some raw ∧ tag.ReadAt text ⟨span.start, raw⟩
  faultless : clean → tag.faults = []

/-- The element is what was read of it up to an offset. -/
structure OpenElement.Fits (e : OpenElement) (hi : Nat) : Prop where
  tag : e.tag.StandsAt text all clean e.span
  stop_le : e.span.stop ≤ hi
  content : e.content = contentOf text (directPieces all e.span.start hi e.children.reverse)
  meaning : clean → ∀ s ∈ directPieces all e.span.start hi e.children.reverse,
    ∃ vs, (s.segment text).Means (s.segment text).raw vs

/-- The tree is what an element became that was read up to its end. -/
def Tree.Closed (t : Tree) : Prop :=
  ∃ (e : OpenElement) (stop : Nat) (selfClosing : Bool), t = e.close stop selfClosing ∧
    e.Fits text all clean stop

/-- The open elements around what was read up to the offset `o`, as `n` elements. -/
inductive Spine : Option Tree → List OpenElement → Nat → Nat → Prop
  | bottom {root : Option Tree} {n o : Nat}
      (h : InOrder (Tree.Closed text all clean) 0 0 root.toList n o) : Spine root [] n o
  | inner {e : OpenElement} {stack : List OpenElement} {n o : Nat}
      (outer : Spine none stack e.id e.span.start) (fits : e.Fits text all clean o)
      (inside : InOrder (Tree.Closed text all clean) (e.id + 1) (e.span.start + 1)
        e.children.reverse n o) : Spine none (e :: stack) n o

/-- What was read up to the offset `o` is in order. -/
structure Draft.Sound (p : Draft) (o : Nat) : Prop where
  source : p.source = text
  spine : Spine text all clean p.root p.stack p.count o

end

variable {text : List Char} {all : List SourcePiece} {clean : Prop} {lo hi k n o o' : Nat}
  {s : SourcePiece} {trees : List Tree} {t : Tree} {e : OpenElement} {p : Draft} {tag : Tag}
  {root : Option Tree} {stack : List OpenElement} {closer : Option (List Char)}

/-- The name stands behind the `<`. -/
theorem Tag.ReadAt.name_range {c : Cursor} (h : tag.ReadAt text c) :
    c.offset ≤ tag.nameSpan.start ∧ tag.nameSpan.start ≤ tag.nameSpan.stop := by
  obtain ⟨before, after, -, -, hstop⟩ := Span.split_of_slice? h.name_slice
  have hstart := h.start_eq
  omega

/-- A finished element is named and has attributes as its tag says. -/
theorem Tree.Closed.standsAt (h : t.Closed text all clean) : ∃ (tag : Tag) (span : Span),
    tag.StandsAt text all clean span ∧ t.root.span.start = span.start ∧
      span.stop ≤ t.root.span.stop ∧ t.root.name = tag.name ∧ t.root.nameSpan = tag.nameSpan ∧
      t.root.attributes = tag.attributes := by
  obtain ⟨e, stop, selfClosing, rfl, hfits⟩ := h
  exact ⟨e.tag, e.span, hfits.tag, rfl, hfits.stop_le, rfl, rfl, rfl⟩

/-- The content of a finished element is what the character data directly in it comes to. -/
theorem Tree.Closed.content (h : t.Closed text all clean) :
    t.root.content = (contentOf text
      (directPieces all t.root.span.start t.root.span.stop t.children)).map fun c =>
        { value := String.ofList c.mapped.chars, span := c.span, map := c.mapped.map } := by
  obtain ⟨e, stop, selfClosing, rfl, hfits⟩ := h
  have hcontent := hfits.content
  unfold OpenElement.close Tree.root
  dsimp only
  rw [hcontent]
  rfl

theorem Tree.Closed.meaning (h : t.Closed text all clean) (hclean : clean) :
    ∀ s ∈ directPieces all t.root.span.start t.root.span.stop t.children,
      ∃ vs, (s.segment text).Means (s.segment text).raw vs := by
  obtain ⟨e, stop, selfClosing, rfl, hfits⟩ := h
  exact hfits.meaning hclean

theorem Spine.outside (h : Spine text all clean root [] n o) :
    InOrder (Tree.Closed text all clean) 0 0 root.toList n o := by
  cases h with
  | bottom h => exact h

/-- Where no character data ends in between, a later offset makes no difference. -/
theorem directPieces_weaken (hle : o ≤ o')
    (hgap : ∀ x ∈ all, x.isData = true → x.span.stop ≤ o' → x.span.stop ≤ o) :
    directPieces all k o' trees = directPieces all k o trees := by
  refine List.filter_congr fun x hx => ?_
  rw [Bool.eq_iff_iff, SourcePiece.isDirect_iff, SourcePiece.isDirect_iff]
  constructor
  · rintro ⟨hdata, hstart, hstop, htrees⟩
    exact ⟨hdata, hstart, hgap x hx hdata hstop, htrees⟩
  · rintro ⟨hdata, hstart, hstop, htrees⟩
    exact ⟨hdata, hstart, Nat.le_trans hstop hle, htrees⟩

/-- A piece that is no character data leaves no character data behind it. -/
theorem gap_of_markup (hall : Tiles lo all hi) (hs : s ∈ all) (hdata : s.isData = false) :
    ∀ x ∈ all, x.isData = true → x.span.stop ≤ s.span.stop → x.span.stop ≤ s.span.start := by
  intro x hx hxdata hstop
  have hx' := hall.within x hx
  rcases hall.apart hx hs with h | rfl | h
  · exact h
  · exact absurd hxdata (by simp [hdata])
  · omega

/-- Character data comes behind what was directly in the element before. -/
theorem directPieces_snoc (hall : Tiles lo all hi) (hs : s ∈ all) (hdata : s.isData = true)
    (hk : k ≤ s.span.start) (htrees : ∀ t ∈ trees, t.root.span.stop ≤ s.span.start) :
    directPieces all k s.span.stop trees = directPieces all k s.span.start trees ++ [s] := by
  obtain ⟨before, behind, rfl⟩ := List.append_of_mem hs
  obtain ⟨-, hbehind, hbefore⟩ := List.pairwise_append.1 hall.pairwise
  have hslt := (hall.within s hs).2.1
  -- What is behind the piece ends later, and what is before it does not end in it.
  have hnone (o : Nat) (ho : o ≤ s.span.stop) :
      behind.filter (·.isDirect k o trees) = [] := by
    refine List.filter_eq_nil_iff.2 fun x hx hdirect => ?_
    have hx' := hall.within x (List.mem_append_right _ (List.mem_cons_of_mem _ hx))
    have hfirst := (List.pairwise_cons.1 hbehind).1 x hx
    have hstop := (SourcePiece.isDirect_iff.1 hdirect).2.2.1
    omega
  have hsame : before.filter (·.isDirect k s.span.stop trees) =
      before.filter (·.isDirect k s.span.start trees) := by
    refine directPieces_weaken (Nat.le_of_lt hslt) fun x hx _ _ => ?_
    exact hbefore x hx s List.mem_cons_self
  have hyes : s.isDirect k s.span.stop trees = true := by
    refine SourcePiece.isDirect_iff.2 ⟨hdata, hk, Nat.le_refl _, fun t ht => ?_⟩
    have hstop := htrees t ht
    simp only [Span.encloses, Bool.and_eq_false_iff, decide_eq_false_iff_not]
    omega
  have hno : ¬s.isDirect k s.span.start trees = true := by
    intro hdirect
    have hstop := (SourcePiece.isDirect_iff.1 hdirect).2.2.1
    omega
  rw [directPieces, directPieces, List.filter_append, List.filter_append, hsame,
    List.filter_cons_of_pos hyes, List.filter_cons_of_neg hno, hnone _ (Nat.le_refl _),
    hnone _ (Nat.le_of_lt hslt), List.append_nil]

/-- What is in a new child is not directly in the element, and nothing else is left out. -/
theorem directPieces_child (hall : Tiles lo all hi)
    (hcut : ∀ x ∈ all, x.span.stop ≤ o ∨ o ≤ x.span.start) (hle : o ≤ o')
    (ht : t.root.span = ⟨o, o'⟩) :
    directPieces all k o' (trees ++ [t]) = directPieces all k o trees := by
  refine List.filter_congr fun x hx => ?_
  have hx' := hall.within x hx
  rw [Bool.eq_iff_iff, SourcePiece.isDirect_iff, SourcePiece.isDirect_iff,
    List.forall_mem_append, List.forall_mem_singleton, ht]
  simp only [Span.encloses, Bool.and_eq_false_iff, decide_eq_false_iff_not]
  constructor
  · rintro ⟨hdata, hstart, hstop, htrees, hchild⟩
    refine ⟨hdata, hstart, ?_, htrees⟩
    rcases hcut x hx with h | h <;> omega
  · rintro ⟨hdata, hstart, hstop, htrees⟩
    exact ⟨hdata, hstart, Nat.le_trans hstop hle, htrees, by omega⟩

/-- No character data is directly in an element that just began. -/
theorem directPieces_start (hall : Tiles lo all hi) (hs : s ∈ all) (hdata : s.isData = false) :
    directPieces all s.span.start s.span.stop [] = [] := by
  refine List.filter_eq_nil_iff.2 fun x hx hdirect => ?_
  obtain ⟨hxdata, hstart, hstop, -⟩ := SourcePiece.isDirect_iff.1 hdirect
  have hstop := gap_of_markup hall hs hdata x hx hxdata hstop
  have hx' := hall.within x hx
  omega

namespace OpenElement

/-- An element that is still open at a later offset is as it was before. -/
theorem Fits.weaken (h : e.Fits text all clean o) (hle : o ≤ o')
    (hgap : ∀ x ∈ all, x.isData = true → x.span.stop ≤ o' → x.span.stop ≤ o) :
    e.Fits text all clean o' := by
  have hsame : directPieces all e.span.start o' e.children.reverse = _ :=
    directPieces_weaken hle hgap
  exact ⟨h.tag, Nat.le_trans h.stop_le hle, hsame ▸ h.content, hsame ▸ h.meaning⟩

theorem Fits.addChild (h : e.Fits text all clean o) (hall : Tiles lo all hi)
    (hcut : ∀ x ∈ all, x.span.stop ≤ o ∨ o ≤ x.span.start) (hle : o ≤ o')
    (ht : t.root.span = ⟨o, o'⟩) : (e.addChild t).Fits text all clean o' := by
  have hsame : directPieces all e.span.start o' (e.children.reverse ++ [t]) = _ :=
    directPieces_child hall hcut hle ht
  have hchildren : (e.addChild t).children.reverse = e.children.reverse ++ [t] :=
    List.reverse_cons
  refine ⟨h.tag, Nat.le_trans h.stop_le hle, ?_, ?_⟩
  · rw [hchildren]
    exact hsame ▸ h.content
  · rw [hchildren]
    exact hsame ▸ h.meaning

/-- Character data is put behind the content, and without a fault it has a value. -/
theorem addText_eq (text : List Char) (e : OpenElement) (s : SourcePiece) : ∃ fault,
    e.addText s.span (s.segment text).base (s.segment text).raw (s.segment text).verbatim =
      ({ e with content := OpenContent.extend text e.content s }, fault) ∧
    (fault = none → ∃ vs, (s.segment text).Means (s.segment text).raw vs) := by
  unfold addText OpenContent.extend Segment.appendTo Segment.Means
  cases hverbatim : (s.segment text).verbatim with
  | true => exact ⟨none, rfl, fun _ => ⟨_, rfl⟩⟩
  | false =>
    refine ⟨_, rfl, fun hnone => ?_⟩
    obtain ⟨vs, hvs⟩ := Mapped.appendRest_eq_none.1 hnone
    exact ⟨vs, unescape_eq_ok.2 hvs⟩

theorem Fits.extend (h : e.Fits text all clean s.span.start) (hall : Tiles lo all hi)
    (hs : s ∈ all) (hdata : s.isData = true)
    (htrees : ∀ t ∈ e.children.reverse, t.root.span.stop ≤ s.span.start)
    (hmeans : clean → ∃ vs, (s.segment text).Means (s.segment text).raw vs) :
    OpenElement.Fits text all clean { e with content := OpenContent.extend text e.content s }
      s.span.stop := by
  have hlt := (hall.within s hs).2.1
  have hstart : e.span.start ≤ s.span.start := by
    obtain ⟨piece, -, hpiece⟩ := h.tag.piece
    exact Nat.le_trans (Nat.le_of_lt (hall.within _ hpiece).2.1) h.stop_le
  have hsnoc := directPieces_snoc hall hs hdata hstart htrees
  refine ⟨h.tag, Nat.le_trans h.stop_le (Nat.le_of_lt hlt), ?_, fun hclean => ?_⟩
  · change OpenContent.extend text e.content s = contentOf text (directPieces _ _ _ _)
    rw [hsnoc, contentOf_append, h.content]
  · change ∀ x ∈ directPieces _ _ _ _, _
    rw [hsnoc]
    exact List.forall_mem_append.2 ⟨h.meaning hclean, List.forall_mem_singleton.2 (hmeans hclean)⟩

end OpenElement

theorem InOrder.stop_le {P : Tree → Prop} (h : InOrder P k lo trees n hi) :
    ∀ t ∈ trees, t.root.span.stop ≤ hi :=
  fun _ ht => (h.within _ (Tree.root_mem ht)).2.2

namespace Draft

theorem Sound.weaken (h : p.Sound text all clean o) (hle : o ≤ o')
    (hgap : ∀ x ∈ all, x.isData = true → x.span.stop ≤ o' → x.span.stop ≤ o) :
    p.Sound text all clean o' := by
  obtain ⟨source, count, stack, root, faults⟩ := p
  refine ⟨h.source, ?_⟩
  cases h.spine with
  | bottom h => exact .bottom (h.weaken_stop hle)
  | inner outer fits inside => exact .inner outer (fits.weaken hle hgap) (inside.weaken_stop hle)

/-- A finished element is put in its place. -/
theorem sound_addTree (hsource : p.source = text)
    (hspine : Spine text all clean none p.stack k o) (hroot : p.root = none)
    (hall : Tiles lo all hi) (hcut : ∀ x ∈ all, x.span.stop ≤ o ∨ o ≤ x.span.start)
    (ht : InOrder (Tree.Closed text all clean) k o [t] p.count o') (hle : o ≤ o')
    (hspan : t.root.span = ⟨o, o'⟩) : (p.addTree t).Sound text all clean o' := by
  unfold addTree
  split
  · rename_i hstack
    rw [hstack] at hspine
    refine ⟨hsource, ?_⟩
    dsimp only
    rw [hstack]
    cases hspine with
    | bottom h =>
      cases h with
      | nil _ => exact .bottom (ht.weaken_start (Nat.zero_le o))
  · rename_i e stack hstack
    rw [hstack] at hspine
    refine ⟨hsource, ?_⟩
    dsimp only
    rw [hroot]
    cases hspine with
    | inner outer fits inside =>
      refine .inner outer (fits.addChild hall hcut hle hspan) ?_
      change InOrder _ _ _ (t :: e.children).reverse _ _
      rw [List.reverse_cons]
      exact inside.append ht

/-- The innermost element ends where the reading is. -/
theorem Sound.closeInner (h : p.Sound text all clean o) (hall : Tiles lo all hi) :
    (p.closeInner o).Sound text all clean o := by
  unfold Draft.closeInner
  split
  · exact h
  · rename_i e stack hstack
    obtain ⟨source, count, opened, root, faults⟩ := p
    obtain rfl : opened = e :: stack := hstack
    cases h.spine with
    | inner outer fits inside =>
      obtain ⟨piece, -, hpiece⟩ := fits.tag.piece
      have hle : e.span.start ≤ o :=
        Nat.le_trans (Nat.le_of_lt (hall.within _ hpiece).2.1) fits.stop_le
      refine sound_addTree (p := ⟨source, count, stack, none, faults⟩) (t := e.close o false)
        h.source outer rfl hall (fun x hx => hall.cut hx hpiece) ?_ hle rfl
      exact .cons rfl (Nat.le_refl _) ⟨e, o, false, rfl, fits⟩ inside (.nil (Nat.le_refl _))

/-- Taking in character data changes the content of the innermost element, if there is one. -/
theorem add_data (p : Draft) (hdata : s.isData = true) (hsource : p.source = text) :
    ∃ q fault, p.add s.piece s.span = (match fault with
        | some f => q.addFault ⟨.entity f, s.span⟩
        | none => q) ∧ q.faults = p.faults ∧
      ((p.stack = [] ∧ q = p) ∨ ∃ e stack, p.stack = e :: stack ∧
        q = { p with stack := { e with content := OpenContent.extend text e.content s } :: stack } ∧
        (fault = none → ∃ vs, (s.segment text).Means (s.segment text).raw vs)) := by
  have hadd : p.add s.piece s.span = p.addText s.span s.inner (s.segment text).verbatim := by
    obtain ⟨piece, span⟩ := s
    cases piece <;> first | rfl | cases hdata
  rw [hadd, addText, rawText, hsource]
  cases hstack : p.stack with
  | nil =>
    dsimp only
    exact ⟨p, _, rfl, rfl, Or.inl ⟨rfl, rfl⟩⟩
  | cons e stack =>
    obtain ⟨fault, heq, hmeans⟩ := OpenElement.addText_eq text e s
    dsimp only
    change e.addText s.span s.inner.start ((s.inner.slice? text).getD [])
      (s.segment text).verbatim = _ at heq
    rw [heq]
    exact ⟨_, fault, rfl, rfl, Or.inr ⟨e, stack, rfl, rfl, hmeans⟩⟩

/-- An opening tag is not read at all, or it has a fault, or it adds an element. -/
theorem openTag_cases (p : Draft) (span : Span) (closer : Option (List Char)) :
    (p.tagText? span = none ∧ p.openTag span closer = p.addFault ⟨.misplacedTag, span⟩) ∨
    ∃ raw, p.tagText? span = some raw ∧
      ((∃ fault, Tag.read ⟨span.start, raw⟩ = .error fault ∧
          p.openTag span closer = p.addFault fault) ∨
        ∃ tag, Tag.read ⟨span.start, raw⟩ = .ok tag ∧
          (p.openTag span closer = p.addFault ⟨.secondRoot, span⟩ ∨
            ((p.stack = [] → p.root = none) ∧
              p.openTag span closer = p.addElement tag span closer))) := by
  unfold openTag
  cases hraw : p.tagText? span with
  | none => exact Or.inl ⟨rfl, rfl⟩
  | some raw =>
    refine Or.inr ⟨raw, rfl, ?_⟩
    dsimp only
    cases htag : Tag.read ⟨span.start, raw⟩ with
    | error fault => exact Or.inl ⟨fault, rfl, rfl⟩
    | ok tag =>
      refine Or.inr ⟨tag, rfl, ?_⟩
      dsimp only
      split
      · exact Or.inl rfl
      · rename_i hroot
        refine Or.inr ⟨fun hstack => ?_, rfl⟩
        simpa [hstack] using hroot

theorem closeTag_cases (p : Draft) (span : Span) (name : List Char) :
    (∃ cause, cause ≠ .misplacedTag ∧ p.closeTag span name = p.addFault (.at cause span.start)) ∨
      p.closeTag span name = p.closeInner span.stop := by
  unfold closeTag
  split
  · exact Or.inl ⟨.unmatchedEnd _, nofun, rfl⟩
  · split
    · exact Or.inr rfl
    · exact Or.inl ⟨.mismatchedEnd _ _, nofun, rfl⟩

/-- A fault changes nothing else. -/
theorem Sound.addFault (h : p.Sound text all clean o) (fault : Fault) :
    (p.addFault fault).Sound text all clean o :=
  ⟨h.source, h.spine⟩

theorem Sound.add_data (h : p.Sound text all clean s.span.start) (hall : Tiles lo all hi)
    (hs : s ∈ all) (hdata : s.isData = true)
    (hclean : clean → (p.add s.piece s.span).faults = []) :
    (p.add s.piece s.span).Sound text all clean s.span.stop := by
  obtain ⟨q, fault, heq, -, hq⟩ := Draft.add_data p hdata h.source
  have hle := Nat.le_of_lt (hall.within s hs).2.1
  have hsound : q.Sound text all clean s.span.stop := by
    rcases hq with ⟨hstack, rfl⟩ | ⟨e, stack, hstack, rfl, hmeans⟩
    · obtain ⟨source, count, opened, root, faults⟩ := q
      obtain rfl : opened = [] := hstack
      refine ⟨h.source, ?_⟩
      cases h.spine with
      | bottom h => exact .bottom (h.weaken_stop hle)
    · obtain ⟨source, count, opened, root, faults⟩ := p
      obtain rfl : opened = e :: stack := hstack
      refine ⟨h.source, ?_⟩
      cases h.spine with
      | inner outer fits inside =>
        refine .inner outer (fits.extend hall hs hdata inside.stop_le fun h => hmeans ?_)
          (inside.weaken_stop hle)
        have hnone := hclean h
        rw [heq] at hnone
        cases fault with
        | none => rfl
        | some f => exact absurd hnone (by simp [Draft.addFault])
  rw [heq]
  split
  · exact hsound.addFault _
  · exact hsound

/-- An element begins with a tag. -/
theorem Sound.addElement (h : p.Sound text all clean s.span.start) (hall : Tiles lo all hi)
    (hs : s ∈ all) (hdata : s.isData = false) (htag : tag.StandsAt text all clean s.span)
    (hroot : p.stack = [] → p.root = none) :
    (p.addElement tag s.span closer).Sound text all clean s.span.stop := by
  have hlt := (hall.within s hs).2.1
  have hspine : p.root = none ∧ Spine text all clean none p.stack p.count s.span.start := by
    obtain ⟨source, count, stack, root, faults⟩ := p
    cases h.spine with
    | bottom h =>
      obtain rfl : root = none := hroot rfl
      exact ⟨rfl, .bottom h⟩
    | inner outer fits inside => exact ⟨rfl, .inner outer fits inside⟩
  have hfits : OpenElement.Fits text all clean ⟨p.count, tag, s.span, closer.getD [], none, []⟩
      s.span.stop := by
    have hnone := directPieces_start hall hs hdata
    refine ⟨htag, Nat.le_refl _, ?_, fun _ => ?_⟩
    · change none = contentOf text (directPieces all s.span.start s.span.stop [])
      rw [hnone]
      rfl
    · change ∀ x ∈ directPieces all s.span.start s.span.stop [], _
      rw [hnone]
      exact List.forall_mem_nil _
  have hinside : InOrder (Tree.Closed text all clean) (p.count + 1) (s.span.start + 1) []
      (p.count + 1) s.span.stop := .nil hlt
  unfold Draft.addElement
  cases closer with
  | some name =>
    refine ⟨h.source, ?_⟩
    dsimp only
    rw [hspine.1]
    exact .inner hspine.2 hfits hinside
  | none =>
    refine sound_addTree (p := { p with count := p.count + 1, faults := p.faults ++ tag.faults })
      h.source hspine.2 hspine.1 hall (fun x hx => hall.cut hx hs) ?_ (Nat.le_of_lt hlt) rfl
    exact .cons rfl (Nat.le_refl _) ⟨_, _, true, rfl, hfits⟩ hinside (.nil (Nat.le_refl _))

theorem addTree_faults (p : Draft) (t : Tree) : (p.addTree t).faults = p.faults := by
  unfold addTree
  split <;> rfl

theorem addTree_stack_length (p : Draft) (t : Tree) :
    (p.addTree t).stack.length = p.stack.length := by
  unfold addTree
  split
  · rfl
  · rename_i e stack hstack
    rw [hstack]
    rfl

theorem closeInner_stack_length (h : p.stack.length = n + 1) (stop : Nat) :
    (p.closeInner stop).stack.length = n := by
  unfold Draft.closeInner
  split
  · rename_i hnil
    rw [hnil] at h
    cases h
  · rename_i e stack hstack
    rw [addTree_stack_length]
    rw [hstack] at h
    exact Nat.succ.inj h

theorem closeInner_faults (p : Draft) (stop : Nat) : (p.closeInner stop).faults = p.faults := by
  unfold Draft.closeInner
  split
  · rfl
  · exact addTree_faults _ _

theorem addElement_faults (p : Draft) (tag : Tag) (span : Span) (closer : Option (List Char)) :
    (p.addElement tag span closer).faults = p.faults ++ tag.faults := by
  unfold Draft.addElement
  cases closer with
  | some name => rfl
  | none => exact addTree_faults _ _

/-- A tag that is cut out stands in the text. -/
theorem inside_of_tagText? {span : Span} {raw : List Char} (h : p.tagText? span = some raw) :
    span.slice? p.source = some raw ∧ Inside p.source ⟨span.start, raw⟩ ∧
      span.stop = span.start + byteLength raw := by
  obtain ⟨hslice, -⟩ := Option.filter_eq_some_iff.1 h
  obtain ⟨before, after, htext, hstart, hstop⟩ := Span.split_of_slice? hslice
  exact ⟨hslice, ⟨before, after, htext, hstart⟩, hstop⟩

theorem Sound.openTag (h : p.Sound text all clean s.span.start) (hall : Tiles lo all hi)
    (hs : s ∈ all) (hopens : s.piece.opens = true)
    (hclean : clean → (p.openTag s.span closer).faults = []) :
    (p.openTag s.span closer).Sound text all clean s.span.stop := by
  have hdata : s.isData = false := by
    obtain ⟨piece, span⟩ := s
    cases piece <;> first | rfl | cases hopens
  have hlater := h.weaken (Nat.le_of_lt (hall.within s hs).2.1) (gap_of_markup hall hs hdata)
  rcases p.openTag_cases s.span closer with
    ⟨-, heq⟩ | ⟨raw, hraw, ⟨fault, -, heq⟩ | ⟨tag, htag, heq | ⟨hroot, heq⟩⟩⟩
  · exact heq ▸ hlater.addFault _
  · exact heq ▸ hlater.addFault _
  · exact heq ▸ hlater.addFault _
  -- The element begins at the tag, where all that was open is as it was before the tag.
  · obtain ⟨hslice, hinside, -⟩ := inside_of_tagText? hraw
    rw [h.source] at hslice hinside
    rw [heq] at hclean ⊢
    refine h.addElement hall hs hdata ⟨⟨s.piece, hopens, hs⟩, ⟨raw, hslice, ?_⟩, ?_⟩ hroot
    · exact readAt_of_read hinside htag
    · intro hc
      have hnone := hclean hc
      rw [addElement_faults] at hnone
      exact (List.append_eq_nil_iff.1 hnone).2

/-- Every piece that is taken in leaves everything in order. -/
theorem Sound.add (h : p.Sound text all clean s.span.start) (hall : Tiles lo all hi)
    (hs : s ∈ all) (hclean : clean → (p.add s.piece s.span).faults = []) :
    (p.add s.piece s.span).Sound text all clean s.span.stop := by
  have hlater (hdata : s.isData = false) : p.Sound text all clean s.span.stop :=
    h.weaken (Nat.le_of_lt (hall.within s hs).2.1) (gap_of_markup hall hs hdata)
  obtain ⟨piece, span⟩ := s
  cases piece with
  | text => exact h.add_data hall hs rfl hclean
  | characterData => exact h.add_data hall hs rfl hclean
  | opening name => exact h.openTag hall hs rfl hclean
  | empty => exact h.openTag hall hs rfl hclean
  | closing name =>
    change (p.closeTag span name).Sound text all clean span.stop
    rcases p.closeTag_cases span name with ⟨cause, -, heq⟩ | heq
    · exact heq ▸ (hlater rfl).addFault _
    · exact heq ▸ (hlater rfl).closeInner hall
  | aside => exact hlater rfl

theorem sound_addAll (p : Draft) (c : Cursor) (h : p.Sound text all clean c.offset)
    (hall : Tiles lo all hi) (hsub : ∀ s ∈ p.piecesTaken c, s ∈ all)
    (hclean : clean → (p.addAll c).faults = []) :
    ∃ o, (p.addAll c).Sound text all clean o ∧ Tiles c.offset (p.piecesTaken c) o := by
  -- A step is only followed by another one if it left no fault, so `clean` is needed of the last.
  induction p, c using run_induction with
  | fault p c f hnext =>
    obtain ⟨hrun, htaken⟩ := run_fault (p := p) hnext
    rw [hrun, htaken]
    exact ⟨_, h.addFault f, .nil⟩
  | done p c hnext =>
    obtain ⟨hrun, htaken⟩ := run_end (p := p) hnext
    rw [hrun, htaken]
    exact ⟨_, h, .nil⟩
  | stop p c q r hnext hq hfaults =>
    obtain ⟨hrun, htaken⟩ := run_stop hnext hq hfaults
    rw [hrun] at hclean ⊢
    rw [htaken] at hsub ⊢
    subst hq
    refine ⟨_, h.add hall (hsub _ List.mem_cons_self) hclean, ?_⟩
    exact .cons rfl (offset_lt_of_nextPiece hnext) .nil
  | step p c q r hnext hq hfaults ih =>
    obtain ⟨hrun, htaken⟩ := run_step hnext hq hfaults
    rw [hrun] at hclean ⊢
    rw [htaken] at hsub ⊢
    obtain ⟨hfirst, hmore⟩ := List.forall_mem_cons.1 hsub
    have hq' : q.Sound text all clean r.next.offset := by
      rw [← hq]
      exact h.add hall hfirst fun _ => hq ▸ List.isEmpty_iff.1 hfaults
    obtain ⟨o, hsound, htiles⟩ := ih hq' hmore hclean
    exact ⟨o, hsound, .cons rfl (offset_lt_of_nextPiece hnext) htiles⟩

/-- Closing one element after the other leaves none open. -/
theorem Sound.closeAll (h : p.Sound text all clean o) (hall : Tiles lo all hi)
    (l : List OpenElement) (hlength : p.stack.length = l.length) :
    (l.foldl (fun p _ => p.closeInner o) p).Sound text all clean o ∧
      (l.foldl (fun p _ => p.closeInner o) p).stack = [] := by
  induction l generalizing p with
  | nil => exact ⟨h, List.length_eq_zero_iff.1 hlength⟩
  | cons _ l ih =>
    exact ih (h.closeInner hall) (closeInner_stack_length hlength o)

theorem closeAll_faults (p : Draft) (stop : Nat) : (p.closeAll stop).faults = p.faults := by
  have hfold (l : List OpenElement) (p : Draft) :
      (l.foldl (fun p _ => p.closeInner stop) p).faults = p.faults := by
    induction l generalizing p with
    | nil => rfl
    | cons _ l ih => exact (ih _).trans (closeInner_faults p stop)
  exact hfold p.stack p

/-- The end of the text is a fault where an element is still open. -/
theorem finish_faults (p : Draft) (t : String) : (p.finish t).faults = p.faults ∨
    ∃ cause, cause ≠ .misplacedTag ∧
      (p.finish t).faults = p.faults ++ [.at cause (byteLength p.source)] := by
  unfold finish
  dsimp only
  rw [closeAll_faults]
  split
  · split
    · exact Or.inr ⟨.unclosed _, nofun, rfl⟩
    · exact Or.inl rfl
  · exact Or.inl rfl

/-- At the end of the text all elements are finished. -/
theorem Sound.finish (h : p.Sound text all clean o) (hall : Tiles lo all o)
    (ho : o ≤ byteLength text) (t : String) : ∃ n,
      InOrder (Tree.Closed text all clean) 0 0 (p.finish t).root.toList n (byteLength text) := by
  -- Nothing stands behind the last piece, so the open elements reach to the end as they are.
  have hend : p.Sound text all clean (byteLength p.source) := by
    rw [h.source]
    exact h.weaken ho fun x hx _ _ => (hall.within x hx).2.2
  have hclosed (q : Draft) (hq : q.Sound text all clean (byteLength p.source)) : ∃ n,
      InOrder (Tree.Closed text all clean) 0 0 (q.closeAll (byteLength p.source)).root.toList n
        (byteLength p.source) := by
    obtain ⟨hsound, hstack⟩ := hq.closeAll hall q.stack rfl
    have hspine := hsound.spine
    rw [hstack] at hspine
    exact ⟨_, hspine.outside⟩
  rw [← congrArg byteLength h.source]
  unfold Draft.finish
  dsimp only
  split
  · split
    · exact hclosed _ (hend.addFault _)
    · exact hclosed _ hend
  · exact hclosed _ hend

end Draft

end ProjectAnalysis.Xml
