import ProjectAnalysis.Proofs.DocumentTree

/-! The values of a document that has no faults are those of its text: the names and attributes of
an element are written in its opening tag, and its content is the character data directly in it. -/
namespace ProjectAnalysis.Xml

open ProjectAnalysis.Expr (Inside)

/-- What character data stands for: its text with the references replaced, or the text between the
marks of raw data. -/
def SourcePiece.Says (text : List Char) (s : SourcePiece) (vs : List Char) : Prop :=
  match s.piece with
  | .text => ∃ raw, s.span.slice? text = some raw ∧ unescape raw = .ok vs
  | .characterData => s.span.slice? text = some ("<![CDATA[".toList ++ vs ++ "]]>".toList)
  | _ => False

/-- An attribute is written at its span, and its value is that of what stands between its quotes. -/
def Attribute.Faithful (text : List Char) (a : Attribute) : Prop :=
  a.WrittenIn text ∧ ∃ raw, a.valueSpan.slice? text = some raw ∧ unescape raw = .ok a.value.toList

/-- The element that a subtree begins with is what the pieces of the text say. -/
structure Subtree.Faithful (text : List Char) (pieces : List SourcePiece) (s : Subtree) : Prop where
  name : s.element.nameSpan.slice? text = some s.element.name.text.toList
  attributes : ∀ a ∈ s.element.attributes, a.Faithful text
  ordered : s.element.attributes.Pairwise fun a b => a.span.stop ≤ b.span.start
  distinct : DistinctNames s.element.attributes
  /-- One of the pieces is the opening tag, with the name and the attributes in it. -/
  tag : ∃ tag ∈ pieces, tag.piece.opens = true ∧ tag.span.start = s.element.span.start ∧
    tag.span.stop ≤ s.element.span.stop ∧ tag.span.start < s.element.nameSpan.start ∧
    ∀ a ∈ s.element.attributes,
      s.element.nameSpan.stop ≤ a.span.start ∧ a.span.stop ≤ tag.span.stop
  empty : s.element.content = none ↔
    directPieces pieces s.element.span.start s.element.span.stop s.tree.children = []
  content : ∀ c, s.element.content = some c → ∃ values, c.value = String.ofList values.flatten ∧
    List.Forall₂ (SourcePiece.Says text)
      (directPieces pieces s.element.span.start s.element.span.stop s.tree.children) values

variable {text cs vs : List Char} {all ds : List SourcePiece} {clean : Prop} {t : Tree}
  {s : SourcePiece} {a : Attribute}

/-- An attribute of a tag without faults has the value of its source. -/
theorem Attribute.Gathered.unescape_eq (h : a.Gathered text) (hwritten : a.WrittenIn text)
    (hreplaced : (a.segment text).verbatim = false) :
    ∃ raw, a.valueSpan.slice? text = some raw ∧ unescape raw = .ok a.value.toList := by
  obtain ⟨_, _, _, raw, -, -, -, -, hslice, -⟩ := hwritten
  have hsegment := Attribute.segment_eq hslice
  rw [hsegment] at hreplaced
  cases hvalue : unescape raw with
  | error e =>
    rw [valueSegment, hvalue] at hreplaced
    cases hreplaced
  | ok vs =>
    have hmeans : (a.segment text).Means (a.segment text).raw vs := by
      rw [hsegment, Segment.Means, hreplaced, if_neg Bool.false_ne_true]
      exact hvalue
    have hchars := gather_chars (.cons hmeans .nil)
    refine ⟨raw, hslice, ?_⟩
    rw [h.1, hchars, String.toList_ofList, hvalue, List.flatten_singleton]

/-- What is between the marks of raw data. -/
theorem slice?_inner {raw : List Char} {span : Span}
    (h : span.slice? text = some ("<![CDATA[".toList ++ raw ++ "]]>".toList)) :
    (Span.mk (span.start + 9) (span.stop - 3)).slice? text = some raw := by
  obtain ⟨before, after, rfl, hstart, hstop⟩ := Span.split_of_slice? h
  have hinner := slice?_append (before ++ "<![CDATA[".toList) raw ("]]>".toList ++ after)
  have hopen : byteLength "<![CDATA[".toList = 9 := by decide
  have hclose : byteLength "]]>".toList = 3 := by decide
  rw [byteLength_append, hopen, ← hstart] at hinner
  have hlast : span.stop - 3 = span.start + 9 + byteLength raw := by
    rw [hstop, byteLength_append, byteLength_append, hopen, hclose]
    omega
  rw [hlast]
  simpa only [List.append_assoc] using hinner

/-- What a segment of character data comes to is what the character data says. -/
theorem SourcePiece.says_of_means (hdata : s.isData = true) (hslice : s.span.slice? text = some cs)
    (hspelled : s.piece.Spelled cs) (h : (s.segment text).Means (s.segment text).raw vs) :
    s.Says text vs := by
  obtain ⟨piece, span⟩ := s
  cases piece with
  | text =>
    refine ⟨cs, hslice, ?_⟩
    change unescape ((span.slice? text).getD []) = .ok vs at h
    rwa [hslice] at h
  | characterData =>
    obtain ⟨raw, rfl⟩ := hspelled
    change vs = ((Span.mk (span.start + 9) (span.stop - 3)).slice? text).getD [] at h
    rw [slice?_inner hslice] at h
    obtain rfl : vs = raw := h
    exact hslice
  | opening _ | empty | closing _ | aside => cases hdata

/-- Each of some things with something that belongs to it. -/
theorem exists_forall₂ {α β : Type} {R : α → β → Prop} {xs : List α} (h : ∀ x ∈ xs, ∃ y, R x y) :
    ∃ ys, List.Forall₂ R xs ys := by
  induction xs with
  | nil => exact ⟨[], .nil⟩
  | cons x xs ih =>
    obtain ⟨⟨y, hy⟩, hmore⟩ := List.forall_mem_cons.1 h
    obtain ⟨ys, hys⟩ := ih hmore
    exact ⟨y :: ys, .cons hy hys⟩

/-- The character data directly in a finished element says what its segments come to. -/
theorem Tree.Closed.says (h : t.Closed text all clean) (hclean : clean)
    (hspelled : ∀ s ∈ all, ∃ cs, s.span.slice? text = some cs ∧ s.piece.Spelled cs) :
    ∃ values, List.Forall₂ (fun s vs => (s.segment text).Means (s.segment text).raw vs ∧
      s.Says text vs) (directPieces all t.root.span.start t.root.span.stop t.children) values := by
  refine exists_forall₂ fun s hs => ?_
  obtain ⟨vs, hvs⟩ := h.meaning hclean s hs
  obtain ⟨hs, hdirect⟩ := List.mem_filter.1 hs
  obtain ⟨cs, hcs, hspell⟩ := hspelled s hs
  exact ⟨vs, hvs,
    SourcePiece.says_of_means (SourcePiece.isDirect_iff.1 hdirect).1 hcs hspell hvs⟩

/-- A finished element is what its text says, if there are no faults and the offsets are right. -/
theorem Tree.Closed.faithful (h : t.Closed text all clean) (hclean : clean)
    (hspelled : ∀ s ∈ all, ∃ cs, s.span.slice? text = some cs ∧ s.piece.Spelled cs)
    (above : List Element) : (Subtree.mk above t).Faithful text all := by
  obtain ⟨tag, span, hstands, hstart, hstop, hname, hnameSpan, hattributes⟩ := h.standsAt
  obtain ⟨raw, hslice, hread⟩ := hstands.read
  have hfaultless := hstands.faultless hclean
  obtain ⟨piece, hopens, hpiece⟩ := hstands.piece
  have hcontent := h.content
  refine ⟨?_, ?_, ?_, ?_, ?_, ?_, ?_⟩
  all_goals dsimp only [Subtree.element]
  · rw [hnameSpan, hname]
    exact hread.name_slice
  · rw [hattributes]
    intro a ha
    have hwritten := hread.attributes.written a ha
    exact ⟨hwritten, (hread.attributes.gathered a ha).unescape_eq hwritten
      (hread.attributes.replaced hfaultless a ha)⟩
  · rw [hattributes]
    exact hread.attributes.ordered
  · rw [hattributes]
    exact hread.attributes.distinct hfaultless .nil
  · refine ⟨⟨piece, span⟩, hpiece, hopens, hstart.symm, hstop, ?_, ?_⟩
    · obtain ⟨cs, hcs, hspell⟩ := hspelled _ hpiece
      obtain rfl : raw = cs := Option.some.inj (hslice.symm.trans hcs)
      rw [hnameSpan, hread.start_eq]
      cases raw with
      | nil => exact absurd hspell.length_pos (Nat.lt_irrefl 0)
      | cons x more => exact Nat.lt_add_of_pos_right (Nat.lt_add_right _ x.utf8Size_pos)
    · rw [hattributes, hnameSpan]
      obtain ⟨-, -, -, -, hwidth⟩ := Span.split_of_slice? hslice
      intro a ha
      obtain ⟨hfirst, hlast⟩ := hread.attributes.within a ha
      exact ⟨hfirst, hwidth ▸ hlast⟩
  · rw [hcontent, Option.map_eq_none_iff, contentOf_eq_none]
  · intro c hc
    rw [hcontent] at hc
    obtain ⟨content, hsome, rfl⟩ := Option.map_eq_some_iff.1 hc
    obtain ⟨values, hvalues⟩ := h.says hclean hspelled
    refine ⟨values, ?_, hvalues.imp fun _ _ h => h.2⟩
    rw [contentOf_mapped hsome, gather_chars]
    exact List.forall₂_map_left_iff.2 (hvalues.imp fun _ _ h => h.1)

/-- Without faults the pieces are the whole text. -/
theorem tiles_piecesOf_whole {text : String} (hmark : text.toList.head? ≠ some '\uFEFF')
    (hclean : (Document.ofText text).faults = []) :
    Tiles 0 (piecesOf text) (byteLength text.toList) := by
  obtain ⟨d, hreach, htiles, hend⟩ :=
    (Draft.start text.toList).tiles_piecesTaken (firstPiece text.toList)
  have hlast := Cursor.Reaches.end_eq hreach
  rw [hend (faultless_addAll hclean), firstPiece_eq hmark] at hlast
  have hstop : d.offset = byteLength text.toList := hlast.trans (Nat.zero_add _)
  rw [firstPiece_eq hmark] at htiles
  rw [piecesOf, firstPiece_eq hmark, ← hstop]
  exact htiles

/-- Without faults, and without a byte order mark in front, every element of a document is what the
pieces say that its text is made of. -/
theorem document_faithful (text : String) (hmark : text.toList.head? ≠ some '\uFEFF')
    (hclean : (Document.ofText text).faults = []) :
    Tiles 0 (piecesOf text) (byteLength text.toList) ∧
      (∀ s ∈ piecesOf text, ∃ cs, s.span.slice? text.toList = some cs ∧ s.piece.Spelled cs) ∧
      ∀ s ∈ (Document.ofText text).subtrees, s.Faithful text.toList (piecesOf text) := by
  have hinside := inside_firstPiece hmark
  have hspelled := (Draft.start text.toList).spelled_piecesTaken _ hinside
  obtain ⟨n, h⟩ := inOrder_ofText text
  exact ⟨tiles_piecesOf_whole hmark hclean, hspelled,
    fun s hs => (h.subtree hs).1.faithful hclean hspelled s.above⟩

/-- Escaped data on both sides of a comment, of a child and of raw data, and attributes in both
quotes with the end of a tag in their values. -/
theorem document_faithful_mixed :
    let text := "<?xml version=\"1.0\"?><p:a x = \"1 > 2 &amp; 3\" y='\"é/'>é&lt;<!-- c --><b/>" ++
      "<![CDATA[]]&]]>z</p:a >"
    text.toList.head? ≠ some '\uFEFF' ∧ (Document.ofText text).faults = [] ∧
      ∀ s ∈ (Document.ofText text).subtrees, s.Faithful text.toList (piecesOf text) :=
  ⟨by decide +kernel, by decide +kernel,
    (document_faithful _ (by decide +kernel) (by decide +kernel)).2.2⟩

end ProjectAnalysis.Xml
