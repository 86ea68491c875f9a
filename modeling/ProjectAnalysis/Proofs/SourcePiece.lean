import ProjectAnalysis.XmlDocument
import ProjectAnalysis.Proofs.MarkupPiece

/-! The pieces that are taken in when a document is read: they lie side by side, and the character
data among them is what the content of elements is put together from. -/
namespace ProjectAnalysis

/-- One span around another. -/
def Span.encloses (a b : Span) : Bool :=
  a.start ≤ b.start && b.stop ≤ a.stop

namespace Xml

open ProjectAnalysis.Expr (Inside)

/-- A piece of a text and where it stands. -/
structure SourcePiece where
  piece : Piece
  span : Span

namespace SourcePiece

/-- Character data, escaped or not. -/
def isData (s : SourcePiece) : Bool :=
  s.piece = .text || s.piece = .characterData

/-- Where the text of character data stands. -/
def inner (s : SourcePiece) : Span :=
  if s.piece = .characterData then ⟨s.span.start + 9, s.span.stop - 3⟩ else s.span

/-- What character data adds to a value. -/
def segment (text : List Char) (s : SourcePiece) : Segment :=
  ⟨s.inner.start, (s.inner.slice? text).getD [], s.piece = .characterData⟩

/-- Whether the piece is character data between two offsets that is in none of the trees. -/
def isDirect (lo hi : Nat) (trees : List Tree) (s : SourcePiece) : Bool :=
  s.isData && (Span.mk lo hi).encloses s.span && !trees.any (·.root.span.encloses s.span)

end SourcePiece

/-- The content with one more piece of character data. -/
def OpenContent.extend (text : List Char) (c : Option OpenContent) (s : SourcePiece) :
    Option OpenContent :=
  some ⟨(s.segment text).appendTo ((c.map (·.mapped)).getD .empty), match c with
    | some c => c.span.cover s.span
    | none => s.span⟩

/-- The content that pieces of character data come to. -/
def contentOf (text : List Char) (pieces : List SourcePiece) : Option OpenContent :=
  pieces.foldl (OpenContent.extend text) none

/-- The pieces that are taken in from `c` on, up to the first fault. -/
def Draft.piecesTaken (p : Draft) (c : Cursor) : List SourcePiece :=
  match nextPiece c with
  | .error _ => []
  | .ok none => []
  | .ok (some r) =>
    let q := p.add r.value ⟨c.offset, r.next.offset⟩
    ⟨r.value, ⟨c.offset, r.next.offset⟩⟩ :: if q.faults.isEmpty then q.piecesTaken r.next else []
termination_by c.size
decreasing_by exact r.shorter

/-- Pieces side by side from one offset to another, none of them empty. -/
inductive Tiles : Nat → List SourcePiece → Nat → Prop
  | nil {lo : Nat} : Tiles lo [] lo
  | cons {lo hi : Nat} {s : SourcePiece} {more : List SourcePiece} (hstart : s.span.start = lo)
      (hlt : lo < s.span.stop) (behind : Tiles s.span.stop more hi) : Tiles lo (s :: more) hi

variable {text cs : List Char} {lo hi : Nat} {s x y : SourcePiece} {all ds : List SourcePiece}
  {trees : List Tree} {p : Draft} {c : Cursor}

namespace SourcePiece

theorem isDirect_iff : s.isDirect lo hi trees = true ↔ s.isData = true ∧ lo ≤ s.span.start ∧
    s.span.stop ≤ hi ∧ ∀ t ∈ trees, t.root.span.encloses s.span = false := by
  simp [isDirect, Span.encloses, and_assoc]

end SourcePiece

theorem contentOf_append (ds : List SourcePiece) (s : SourcePiece) :
    contentOf text (ds ++ [s]) = OpenContent.extend text (contentOf text ds) s := by
  rw [contentOf, List.foldl_append]
  rfl

theorem contentOf_eq_none : contentOf text ds = none ↔ ds = [] := by
  rcases List.eq_nil_or_concat ds with rfl | ⟨ds, s, rfl⟩
  · exact ⟨fun _ => rfl, fun _ => rfl⟩
  · rw [List.concat_eq_append, contentOf_append]
    exact ⟨nofun, fun h => absurd h (by simp)⟩

/-- The value of the content is what the character data comes to. -/
theorem contentOf_mapped {content : OpenContent} (h : contentOf text ds = some content) :
    content.mapped = gather (ds.map (·.segment text)) := by
  have hfold (ds : List SourcePiece) (c : Option OpenContent) :
      ((ds.foldl (OpenContent.extend text) c).map (·.mapped)).getD .empty =
        (ds.map (·.segment text)).foldl Segment.appendTo ((c.map (·.mapped)).getD .empty) := by
    induction ds generalizing c with
    | nil => rfl
    | cons s ds ih =>
      rw [List.foldl_cons, ih, List.map_cons, List.foldl_cons]
      rfl
  have hmapped := hfold ds none
  change ((contentOf text ds).map (·.mapped)).getD .empty = _ at hmapped
  rw [h] at hmapped
  exact hmapped

namespace Tiles

theorem le (h : Tiles lo all hi) : lo ≤ hi := by
  induction h with
  | nil => exact Nat.le_refl _
  | cons _ hlt _ ih => omega

theorem within (h : Tiles lo all hi) : ∀ s ∈ all,
    lo ≤ s.span.start ∧ s.span.start < s.span.stop ∧ s.span.stop ≤ hi := by
  induction h with
  | nil => exact List.forall_mem_nil _
  | cons hstart hlt behind ih =>
    refine List.forall_mem_cons.2 ⟨?_, fun s hs => ?_⟩
    · have hle := behind.le
      omega
    · have hs := ih s hs
      omega

theorem stop_unique {hi' : Nat} (h : Tiles lo all hi) (h' : Tiles lo all hi') : hi = hi' := by
  induction h with
  | nil =>
    cases h' with
    | nil => rfl
  | cons _ _ _ ih =>
    cases h' with
    | cons _ _ behind => exact ih behind

/-- Each piece stands before the ones behind it. -/
theorem pairwise (h : Tiles lo all hi) : all.Pairwise fun s t => s.span.stop ≤ t.span.start := by
  induction h with
  | nil => exact .nil
  | cons _ _ behind ih => exact .cons (fun s hs => (behind.within s hs).1) ih

/-- A piece does not reach into another one. -/
theorem apart (h : Tiles lo all hi) (hx : x ∈ all) (hy : y ∈ all) :
    x.span.stop ≤ y.span.start ∨ x = y ∨ y.span.stop ≤ x.span.start := by
  induction h with
  | nil => exact absurd hx List.not_mem_nil
  | cons _ _ behind ih =>
    rcases List.mem_cons.1 hx with rfl | hxmore
    · rcases List.mem_cons.1 hy with rfl | hymore
      · exact Or.inr (Or.inl rfl)
      · exact Or.inl (behind.within _ hymore).1
    · rcases List.mem_cons.1 hy with rfl | hymore
      · exact Or.inr (Or.inr (behind.within _ hxmore).1)
      · exact ih hxmore hymore

/-- Where one piece begins no other one goes on. -/
theorem cut (h : Tiles lo all hi) (hx : x ∈ all) (hy : y ∈ all) :
    x.span.stop ≤ y.span.start ∨ y.span.start ≤ x.span.start := by
  have hy' := h.within y hy
  rcases h.apart hx hy with h | rfl | h <;> omega

end Tiles

namespace Draft

theorem run_fault {fault : Fault} (h : nextPiece c = .error fault) :
    p.addAll c = p.addFault fault ∧ p.piecesTaken c = [] := by
  rw [addAll, piecesTaken, h]
  exact ⟨rfl, rfl⟩

theorem run_end (h : nextPiece c = .ok none) : p.addAll c = p ∧ p.piecesTaken c = [] := by
  rw [addAll, piecesTaken, h]
  exact ⟨rfl, rfl⟩

theorem run_stop {r : Parsed Piece c} {q : Draft} (h : nextPiece c = .ok (some r))
    (hq : p.add r.value ⟨c.offset, r.next.offset⟩ = q) (hfaults : q.faults.isEmpty = false) :
    p.addAll c = q ∧ p.piecesTaken c = [⟨r.value, ⟨c.offset, r.next.offset⟩⟩] := by
  rw [addAll, piecesTaken, h]
  dsimp only
  rw [hq, if_neg (by simp [hfaults]), if_neg (by simp [hfaults])]
  exact ⟨rfl, rfl⟩

theorem run_step {r : Parsed Piece c} {q : Draft} (h : nextPiece c = .ok (some r))
    (hq : p.add r.value ⟨c.offset, r.next.offset⟩ = q) (hfaults : q.faults.isEmpty = true) :
    p.addAll c = q.addAll r.next ∧
      p.piecesTaken c = ⟨r.value, ⟨c.offset, r.next.offset⟩⟩ :: q.piecesTaken r.next := by
  rw [addAll, piecesTaken, h]
  dsimp only
  rw [hq, if_pos hfaults, if_pos hfaults]
  exact ⟨rfl, rfl⟩

/-- A run over pieces takes the faults, the end and one piece after the other. -/
theorem run_induction {motive : Draft → Cursor → Prop}
    (fault : ∀ p c f, nextPiece c = .error f → motive p c)
    (done : ∀ p c, nextPiece c = .ok none → motive p c)
    (stop : ∀ p c q (r : Parsed Piece c), nextPiece c = .ok (some r) →
      p.add r.value ⟨c.offset, r.next.offset⟩ = q → q.faults.isEmpty = false → motive p c)
    (step : ∀ p c q (r : Parsed Piece c), nextPiece c = .ok (some r) →
      p.add r.value ⟨c.offset, r.next.offset⟩ = q → q.faults.isEmpty = true →
      motive q r.next → motive p c) (p : Draft) (c : Cursor) : motive p c := by
  -- Each piece takes up some of what is left.
  induction hsize : c.size using Nat.strongRecOn generalizing p c with
  | ind k ih =>
    cases hnext : nextPiece c with
    | error f => exact fault p c f hnext
    | ok found =>
      cases found with
      | none => exact done p c hnext
      | some r =>
        cases hfaults : (p.add r.value ⟨c.offset, r.next.offset⟩).faults.isEmpty with
        | false => exact stop p c _ r hnext rfl hfaults
        | true => exact step p c _ r hnext rfl hfaults (ih _ (hsize ▸ r.shorter) _ _ rfl)

/-- The pieces lie side by side, up to the end if there is no fault. -/
theorem tiles_piecesTaken (p : Draft) (c : Cursor) : ∃ d, c.Reaches d ∧
    Tiles c.offset (p.piecesTaken c) d.offset ∧ ((p.addAll c).faults = [] → d.rest = []) := by
  induction p, c using run_induction with
  | fault p c f h =>
    obtain ⟨hall, htaken⟩ := run_fault (p := p) h
    rw [hall, htaken]
    exact ⟨c, .refl c, .nil, fun hnone => absurd hnone (by simp [addFault])⟩
  | done p c h =>
    rw [(run_end h).2]
    exact ⟨c, .refl c, .nil, fun _ => rest_of_nextPiece h⟩
  | stop p c q r h hq hfaults =>
    obtain ⟨hall, htaken⟩ := run_stop h hq hfaults
    rw [hall, htaken]
    refine ⟨r.next, r.reaches, .cons rfl (offset_lt_of_nextPiece h) .nil, fun hnone => ?_⟩
    rw [hnone] at hfaults
    cases hfaults
  | step p c q r h hq hfaults ih =>
    obtain ⟨hall, htaken⟩ := run_step h hq hfaults
    rw [hall, htaken]
    obtain ⟨d, hreach, htiles, hend⟩ := ih
    exact ⟨d, r.reaches.trans hreach, .cons rfl (offset_lt_of_nextPiece h) htiles, hend⟩

/-- Each piece is spelled by what its span cuts out of the text. -/
theorem spelled_piecesTaken (p : Draft) (c : Cursor) (hc : Inside text c) :
    ∀ s ∈ p.piecesTaken c, ∃ cs, s.span.slice? text = some cs ∧ s.piece.Spelled cs := by
  induction p, c using run_induction with
  | fault p c f h =>
    rw [(run_fault h).2]
    exact List.forall_mem_nil _
  | done p c h =>
    rw [(run_end h).2]
    exact List.forall_mem_nil _
  | stop p c q r h hq hfaults =>
    obtain ⟨cs, hread, hspelled⟩ := reads_of_nextPiece h
    rw [(run_stop h hq hfaults).2]
    exact List.forall_mem_singleton.2 ⟨cs, hc.slice?_eq hread, hspelled⟩
  | step p c q r h hq hfaults ih =>
    obtain ⟨cs, hread, hspelled⟩ := reads_of_nextPiece h
    rw [(run_step h hq hfaults).2]
    exact List.forall_mem_cons.2 ⟨⟨cs, hc.slice?_eq hread, hspelled⟩, ih (hc.reaches r.reaches)⟩

end Draft

end Xml

end ProjectAnalysis
