import ProjectAnalysis.Proofs.DraftRun

/-! The faults that are met when a document is read: each is within what was read, and only behind
a byte order mark a tag cannot be cut out of the text. -/
namespace ProjectAnalysis.Xml

open ProjectAnalysis.Expr (Inside)

namespace Draft

/-- A fault in a piece: it is within the piece, or the piece is a tag that cannot be cut out. -/
def Blames (p : Draft) (piece : Piece) (span : Span) (f : Fault) : Prop :=
  f.Within span.start span.stop ∨
    (f = ⟨.misplacedTag, span⟩ ∧ piece.opens = true ∧ p.tagText? span = none)

variable {text : List Char} {all : List SourcePiece} {lo hi : Nat} {p : Draft} {c : Cursor}
  {f : Fault} {span : Span} {piece : Piece} {raw : List Char} {tag : Tag}

theorem addFault_blames (h : p.Blames piece span f) :
    ∀ g ∈ (p.addFault f).faults, g ∈ p.faults ∨ p.Blames piece span g :=
  List.forall_mem_append.2 ⟨fun _ hg => Or.inl hg, List.forall_mem_singleton.2 (Or.inr h)⟩

theorem add_data_blames (p : Draft) (s : SourcePiece) (hdata : s.isData = true)
    (hle : s.span.start ≤ s.span.stop) :
    ∀ f ∈ (p.add s.piece s.span).faults, f ∈ p.faults ∨ p.Blames s.piece s.span f := by
  obtain ⟨q, fault, heq, hfaults, -⟩ := add_data p hdata rfl
  rw [heq, ← hfaults]
  cases fault with
  | none => exact fun f hf => Or.inl hf
  | some fault =>
    have hwithin : Fault.Within s.span.start s.span.stop ⟨.entity fault, s.span⟩ :=
      ⟨nofun, Nat.le_refl _, hle, Nat.le_refl _⟩
    exact List.forall_mem_append.2 ⟨fun _ hf => Or.inl hf,
      List.forall_mem_singleton.2 (Or.inr (Or.inl hwithin))⟩

theorem openTag_blames (p : Draft) (closer : Option (List Char)) (hopens : piece.opens = true)
    (hle : span.start ≤ span.stop) :
    ∀ f ∈ (p.openTag span closer).faults, f ∈ p.faults ∨ p.Blames piece span f := by
  rcases p.openTag_cases span closer with
    ⟨hnone, heq⟩ | ⟨raw, hraw, ⟨fault, hread, heq⟩ | ⟨tag, hread, heq | ⟨-, heq⟩⟩⟩
  · exact heq ▸ addFault_blames (Or.inr ⟨rfl, hopens, hnone⟩)
  · have hwithin := within_of_read hread
    rw [WithinRest, ← (inside_of_tagText? hraw).2.2] at hwithin
    exact heq ▸ addFault_blames (Or.inl hwithin)
  · exact heq ▸ addFault_blames (Or.inl ⟨nofun, Nat.le_refl _, hle, Nat.le_refl _⟩)
  · obtain ⟨-, hinside, hstop⟩ := inside_of_tagText? hraw
    have htag := readAt_of_read hinside hread
    rw [heq, addElement_faults]
    refine List.forall_mem_append.2 ⟨fun f hf => Or.inl hf, fun f hf => Or.inr (Or.inl ?_)⟩
    rw [hstop]
    have hlo := Nat.le_trans htag.name_range.1 htag.name_range.2
    exact (htag.attributes.faults_within f hf).widen hlo (Nat.le_refl _)

/-- Taking in a piece adds no faults but those of the piece. -/
theorem add_blames (p : Draft) (piece : Piece) (span : Span) (hle : span.start ≤ span.stop) :
    ∀ f ∈ (p.add piece span).faults, f ∈ p.faults ∨ p.Blames piece span f := by
  cases piece with
  | text => exact p.add_data_blames ⟨.text, span⟩ rfl hle
  | characterData => exact p.add_data_blames ⟨.characterData, span⟩ rfl hle
  | opening name => exact p.openTag_blames (some name) rfl hle
  | empty => exact p.openTag_blames none rfl hle
  | closing name =>
    change ∀ f ∈ (p.closeTag span name).faults, _
    rcases p.closeTag_cases span name with ⟨cause, hcause, heq⟩ | heq
    · exact heq ▸ addFault_blames (Or.inl (Fault.within_at hcause ⟨Nat.le_refl _, hle⟩))
    · rw [heq, closeInner_faults]
      exact fun f hf => Or.inl hf
  | aside => exact fun f hf => Or.inl hf

/-- Where the offsets are right every tag can be cut out. -/
theorem tagText?_ne_none {r : Parsed Piece c} (hc : Inside p.source c)
    (h : nextPiece c = .ok (some r)) (hopens : r.value.opens = true) :
    p.tagText? ⟨c.offset, r.next.offset⟩ ≠ none := by
  obtain ⟨cs, hread, hspelled⟩ := reads_of_nextPiece h
  obtain ⟨inside, rfl⟩ : ∃ inside, cs = '<' :: inside ++ ['>'] := by
    cases hvalue : r.value with
    | opening name => rwa [hvalue] at hspelled
    | empty => rwa [hvalue] at hspelled
    | text | characterData | closing _ | aside =>
      rw [hvalue] at hopens
      cases hopens
  rw [tagText?, hc.slice?_eq hread]
  exact nofun

/-- A fault of what is read from a place on. A tag that cannot be cut out means that the offsets do
not fit the text. -/
def BlamesFrom (text : List Char) (c : Cursor) (f : Fault) : Prop :=
  WithinRest c f ∨ (f.cause = .misplacedTag ∧ c.offset ≤ f.span.start ∧
    f.span.start ≤ f.span.stop ∧ f.span.stop ≤ c.offset + byteLength c.rest ∧ ¬Inside text c)

theorem Blames.from {r : Parsed Piece c} (h : nextPiece c = .ok (some r))
    (hf : p.Blames r.value ⟨c.offset, r.next.offset⟩ f) : BlamesFrom p.source c f := by
  have hle := r.reaches.offset_le
  have hend := (Cursor.Reaches.within r.reaches).2
  rcases hf with hwithin | ⟨rfl, hopens, hnone⟩
  · exact Or.inl (hwithin.widen (Nat.le_refl _) hend)
  · exact Or.inr ⟨rfl, Nat.le_refl _, hle, hend, fun hc => tagText?_ne_none hc h hopens hnone⟩

theorem BlamesFrom.before {d : Cursor} (h : BlamesFrom text d f) (hreach : c.Reaches d) :
    BlamesFrom text c f := by
  have hle := hreach.offset_le
  have hend := Cursor.Reaches.end_eq hreach
  rcases h with hwithin | ⟨hcause, hstart, hspan, hstop, hinside⟩
  · exact Or.inl (hwithin.widen hle (Nat.le_of_eq hend))
  · exact Or.inr ⟨hcause, Nat.le_trans hle hstart, hspan, hend ▸ hstop,
      fun hc => hinside (hc.reaches hreach)⟩

/-- The faults that are met are faults of what is read. -/
theorem addAll_blames (p : Draft) (c : Cursor) (h : p.Sound text all False c.offset)
    (hall : Tiles lo all hi) (hsub : ∀ s ∈ p.piecesTaken c, s ∈ all) (hnone : p.faults = []) :
    ∀ f ∈ (p.addAll c).faults, BlamesFrom text c f := by
  have hadd {p : Draft} {c : Cursor} {q : Draft} {r : Parsed Piece c}
      (hsource : p.source = text) (hnone : p.faults = []) (hnext : nextPiece c = .ok (some r))
      (hq : p.add r.value ⟨c.offset, r.next.offset⟩ = q) : ∀ f ∈ q.faults, BlamesFrom text c f := by
    intro f hf
    subst hq hsource
    rcases p.add_blames _ _ r.reaches.offset_le f hf with hf | hf
    · exact absurd hf (by simp [hnone])
    · exact hf.from hnext
  induction p, c using run_induction with
  | fault p c f hnext =>
    rw [(run_fault hnext).1, addFault, hnone]
    exact List.forall_mem_singleton.2 (Or.inl (within_of_nextPiece hnext))
  | done p c hnext =>
    rw [(run_end hnext).1, hnone]
    exact List.forall_mem_nil _
  | stop p c q r hnext hq hfaults =>
    rw [(run_stop hnext hq hfaults).1]
    exact hadd h.source hnone hnext hq
  | step p c q r hnext hq hfaults ih =>
    obtain ⟨hrun, htaken⟩ := run_step hnext hq hfaults
    rw [htaken] at hsub
    rw [hrun]
    obtain ⟨hfirst, hmore⟩ := List.forall_mem_cons.1 hsub
    have hsound : q.Sound text all False r.next.offset := hq ▸ h.add hall hfirst False.elim
    intro f hf
    exact (ih hsound hmore (List.isEmpty_iff.1 hfaults) f hf).before r.reaches

end Draft

end ProjectAnalysis.Xml
