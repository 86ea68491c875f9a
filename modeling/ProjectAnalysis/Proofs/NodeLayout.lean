import ProjectAnalysis.Proofs.TextSound
import ProjectAnalysis.Proofs.TokenPlace

/-! Where the nodes of an expression stand in its text: every node between two characters or behind
the last, its children inside it, and one child behind the other. -/
namespace ProjectAnalysis.Expr

/-- An offset before, between or behind the characters of a text. -/
def Boundary (text : List Char) (k : Nat) : Prop :=
  ∃ before after, text = before ++ after ∧ k = byteLength before

/-- What is left at the place is a stretch of the text. -/
def Inside (text : List Char) (c : Cursor) : Prop :=
  ∃ before after, text = before ++ (c.rest ++ after) ∧ c.offset = byteLength before

/-- Nodes one behind the other from one offset to another, and so on inside each of them. -/
inductive Laid (text : List Char) : Nat → List Node → Nat → Prop
  | nil {lo hi : Nat} (h : lo ≤ hi) : Laid text lo [] hi
  | cons {lo hi : Nat} {a : Node} {more : List Node} (h : lo ≤ a.span.start)
      (hstart : Boundary text a.span.start) (hstop : Boundary text a.span.stop)
      (inside : Laid text a.span.start a.children a.span.stop)
      (behind : Laid text a.span.stop more hi) : Laid text lo (a :: more) hi

variable {text cs : List Char} {c d : Cursor} {lo mid hi : Nat} {a : Node} {xs ys : List Node}

theorem inside_ofText (text : List Char) : Inside text (.ofText text) :=
  ⟨[], [], by simp [Cursor.ofText], rfl⟩

theorem Inside.boundary (h : Inside text c) : Boundary text c.offset := by
  obtain ⟨before, after, htext, hoffset⟩ := h
  exact ⟨before, _, htext, hoffset⟩

theorem Inside.reaches (h : Inside text c) (hd : c.Reaches d) : Inside text d := by
  obtain ⟨before, after, htext, hoffset⟩ := h
  obtain ⟨cs, hrest, hstop⟩ := hd
  refine ⟨before ++ cs, after, ?_, ?_⟩
  · rw [htext, hrest, List.append_assoc, List.append_assoc]
  · rw [hstop, hoffset, byteLength_append]

/-- Whatever is read is the slice of the text between the two places. -/
theorem Inside.slice?_eq (hc : Inside text c) (h : c.Reads cs d) :
    (Span.mk c.offset d.offset).slice? text = some cs := by
  obtain ⟨before, after, rfl, hoffset⟩ := hc
  rw [h.2, hoffset, h.1, List.append_assoc, ← List.append_assoc]
  exact slice?_append before cs _

/-- A stretch of what is left may be read by itself, and that does not go beyond it. -/
theorem Inside.slice (h : Inside text c) (hread : c.Reads cs d) : Inside text ⟨c.offset, cs⟩ ∧
    ∀ e, Cursor.Reaches ⟨c.offset, cs⟩ e → e.offset ≤ d.offset := by
  obtain ⟨before, after, htext, hoffset⟩ := h
  refine ⟨⟨before, d.rest ++ after, ?_, hoffset⟩, fun e he => ?_⟩
  · rw [htext, hread.1, List.append_assoc]
  · obtain ⟨read, hrest, hstop⟩ := he
    have hlength : byteLength cs = byteLength read + byteLength e.rest := by
      rw [← byteLength_append]
      exact congrArg byteLength hrest
    rw [hread.2, hlength, hstop, ← Nat.add_assoc]
    exact Nat.le_add_right _ _

namespace Laid

theorem le (h : Laid text lo xs hi) : lo ≤ hi := by
  induction h with
  | nil h => exact h
  | cons h _ _ _ _ ihinside ihbehind => exact Nat.le_trans h (Nat.le_trans ihinside ihbehind)

theorem start_le (h : Laid text lo (a :: xs) hi) : lo ≤ a.span.start := by
  cases h with
  | cons h _ _ _ _ => exact h

theorem weaken_start {lo' : Nat} (h : Laid text lo xs hi) (hlo : lo' ≤ lo) :
    Laid text lo' xs hi := by
  cases h with
  | nil h => exact .nil (Nat.le_trans hlo h)
  | cons h hstart hstop inside behind =>
    exact .cons (Nat.le_trans hlo h) hstart hstop inside behind

theorem append (hx : Laid text lo xs mid) (hy : Laid text mid ys hi) :
    Laid text lo (xs ++ ys) hi := by
  induction hx with
  | nil h => exact hy.weaken_start h
  | cons h hstart hstop inside _ _ ihbehind => exact .cons h hstart hstop inside (ihbehind hy)

theorem weaken_stop {hi' : Nat} (h : Laid text lo xs hi) (hhi : hi ≤ hi') :
    Laid text lo xs hi' := by
  have hmore := h.append (.nil hhi)
  rwa [List.append_nil] at hmore

/-- The first node begins where nothing is left out before it. -/
theorem from_first (h : Laid text lo (a :: xs) hi) : Laid text a.span.start (a :: xs) hi := by
  cases h with
  | cons _ hstart hstop inside behind => exact .cons (Nat.le_refl _) hstart hstop inside behind

/-- A node that stands alone ends where nothing is left out behind it. -/
theorem to_last (h : Laid text lo [a] hi) :
    Laid text lo [a] a.span.stop ∧ Boundary text a.span.stop ∧ a.span.stop ≤ hi := by
  cases h with
  | cons h hstart hstop inside behind =>
    exact ⟨.cons h hstart hstop inside (.nil (Nat.le_refl _)), hstop, behind.le⟩

theorem head? (h : Laid text lo xs hi) : Laid text lo xs.head?.toList hi := by
  cases h with
  | nil h => exact .nil h
  | cons h hstart hstop inside behind => exact .cons h hstart hstop inside (.nil behind.le)

end Laid

theorem Laid.within {b e : Cursor} (h : Laid text b.offset xs e.offset) (hb : c.Reaches b)
    (he : e.Reaches d) : Laid text c.offset xs d.offset :=
  (h.weaken_start hb.offset_le).weaken_stop he.offset_le

/-- A node from one place to another around nodes that stand there. -/
theorem laid_node (hc : Inside text c) (hd : c.Reaches d) {shape : Shape Node}
    (h : Laid text c.offset shape.children d.offset) :
    Laid text c.offset [.mk ⟨c.offset, d.offset⟩ shape] d.offset :=
  .cons (Nat.le_refl _) hc.boundary (hc.reaches hd).boundary h (.nil (Nat.le_refl _))

theorem laid_leaf (hc : Inside text c) (hd : c.Reaches d) {shape : Shape Node}
    (h : shape.children = []) : Laid text c.offset [.mk ⟨c.offset, d.offset⟩ shape] d.offset := by
  refine laid_node hc hd ?_
  rw [h]
  exact .nil hd.offset_le

/-- The name of a function and what it is called with. -/
theorem laid_call {b e : Cursor} (hc : Inside text c) (hname : Named c cs b) (w : Blanks b e)
    (h : Laid text e.offset ys d.offset) :
    Laid text c.offset (.mk ⟨c.offset, b.offset⟩ (.functionName (String.ofList cs)) :: ys)
      d.offset :=
  (laid_leaf hc hname.1.reaches rfl).append (h.weaken_start w.reaches.offset_le)

/-- A node around a node that was read before and what stands behind that. -/
theorem laid_around (hd : Boundary text hi) {shape : Shape Node} (h : shape.children = a :: ys)
    (ha : Laid text lo [a] mid) (hy : Laid text mid ys hi) :
    Laid text lo [.mk ⟨a.span.start, hi⟩ shape] hi := by
  have hinside := ha.from_first.append hy
  rw [List.singleton_append, ← h] at hinside
  cases ha with
  | cons hlo hstart _ _ _ => exact .cons hlo hstart hd hinside (.nil (Nat.le_refl _))

theorem laid_joined {q : Bool} (hc : Inside text c) (hd : c.Reaches d)
    (h : Laid text c.offset xs d.offset) :
    Laid text c.offset [joined ⟨c.offset, d.offset⟩ q xs] d.offset := by
  unfold joined
  split
  · exact laid_leaf hc hd rfl
  · exact h
  · exact laid_node hc hd h

/-- Every construct takes a stretch of the text. -/
theorem Spells.reaches {o : Options} {rule : TextRule} (h : Spells o rule c xs d) :
    c.Reaches d := by
  induction h with
  | noParts | noCall | noTransform | noSeparator => exact .refl _
  | segment _ ih | body _ ih | call _ ih | quotedArgument _ ih | referenceArgument _ ih => exact ih
  | literal _ hcs _ ih => exact ih.trans hcs.reaches
  | part _ _ ihbefore ih | index _ _ ihbefore ih => exact ihbefore.trans ih
  | nextSegment _ hsep _ ihbefore ih => exact ihbefore.trans (hsep.reaches.trans ih)
  | property hopen w₁ _ w₃ hclose ih =>
    exact hopen.reaches.trans (w₁.reaches.trans (ih.trans (w₃.reaches.trans hclose.reaches)))
  | item _ hopen w₁ hname w₃ _ _ w₆ hclose iht ihs =>
    have hhead := hopen.reaches.trans (w₁.reaches.trans (hname.1.reaches.trans w₃.reaches))
    exact hhead.trans (iht.trans (ihs.trans (w₆.reaches.trans hclose.reaches)))
  | metadata _ hopen w₁ hname w₃ hclose =>
    have hhead := hopen.reaches.trans (w₁.reaches.trans hname.1.reaches)
    exact hhead.trans (w₃.reaches.trans hclose.reaches)
  | ownedMetadata _ hopen w₁ howner w₃ hdot w₅ hname w₇ hclose =>
    have hhead := hopen.reaches.trans (w₁.reaches.trans (howner.1.reaches.trans w₃.reaches))
    have hdotted := hdot.reaches.trans (w₅.reaches.trans hname.1.reaches)
    exact hhead.trans (hdotted.trans (w₇.reaches.trans hclose.reaches))
  | name hname | word hname => exact hname.1.reaches
  | staticCall hclass w₁ hcolons w₃ hname w₅ _ ih =>
    have hhead := hclass.reaches.trans (w₁.reaches.trans (hcolons.reaches.trans w₃.reaches))
    exact hhead.trans (hname.1.reaches.trans (w₅.reaches.trans ih))
  | member _ hdot w₂ hname w₄ _ ihbefore ih =>
    have hhead := ihbefore.trans (hdot.reaches.trans w₂.reaches)
    exact hhead.trans (hname.1.reaches.trans (w₄.reaches.trans ih))
  | afterValue _ w ih | afterTransforms _ w ih | arguments _ w ih => exact ih.trans w.reaches
  | registry _ hcs _ | number hcs _ | quoted _ hcs _ _ _ _ => exact hcs.reaches
  | noArguments hopen w₁ hclose => exact hopen.reaches.trans (w₁.reaches.trans hclose.reaches)
  | argumentList hopen w₁ _ hclose ih =>
    exact hopen.reaches.trans (w₁.reaches.trans (ih.trans hclose.reaches))
  | nextArgument _ hsep w₂ _ w₄ ihbefore ih =>
    exact ihbefore.trans (hsep.reaches.trans (w₂.reaches.trans (ih.trans w₄.reaches)))
  | quotedTransform _ harrow w₂ _ ihbefore ih =>
    exact ihbefore.trans (harrow.reaches.trans (w₂.reaches.trans ih))
  | functionTransform _ harrow w₂ hname w₄ _ ihbefore ih =>
    have hhead := ihbefore.trans (harrow.reaches.trans w₂.reaches)
    exact hhead.trans (hname.1.reaches.trans (w₄.reaches.trans ih))
  | separator hcomma w₁ _ ih => exact hcomma.reaches.trans (w₁.reaches.trans ih)

/-- Text between quotes is read by itself, and ends before the text behind the quotes begins. -/
theorem Inside.quoted {q : Char} {e : Cursor} (hc : Inside text c)
    (hcs : c.Reads (q :: (cs ++ [q])) d) (he : Cursor.Reaches ⟨c.offset + q.utf8Size, cs⟩ e) :
    Inside text ⟨c.offset + q.utf8Size, cs⟩ ∧ e.offset ≤ d.offset := by
  let first : Cursor := ⟨c.offset + q.utf8Size, cs ++ (q :: d.rest)⟩
  let last : Cursor := ⟨first.offset + byteLength cs, q :: d.rest⟩
  have hquote : c.Reads [q] first := ⟨by rw [hcs.1]; simp [first], by simp [first]⟩
  have hcontent : first.Reads cs last := ⟨rfl, rfl⟩
  have hlast : last.offset ≤ d.offset := by
    have hstop := hcs.2
    simp only [byteLength_cons, byteLength_append, byteLength_nil] at hstop
    show c.offset + q.utf8Size + byteLength cs ≤ d.offset
    omega
  obtain ⟨hinside, hstop⟩ := (hc.reaches hquote.reaches).slice hcontent
  exact ⟨hinside, Nat.le_trans (hstop e he) hlast⟩

/-- The nodes of a construct stand between its two ends. -/
theorem Spells.laid {o : Options} {rule : TextRule} (h : Spells o rule c xs d)
    (hc : Inside text c) : Laid text c.offset xs d.offset := by
  induction h with
  | noParts | noCall | noTransform | noSeparator => exact .nil (Nat.le_refl _)
  | body _ ih | call _ ih | quotedArgument _ ih | referenceArgument _ ih => exact ih hc
  | literal before hcs _ ih =>
    exact (ih hc).append (laid_leaf (hc.reaches before.reaches) hcs.reaches rfl)
  | part before _ ihbefore ih => exact (ihbefore hc).append (ih (hc.reaches before.reaches))
  | segment h ih => exact laid_joined hc h.reaches (ih hc)
  | nextSegment before hsep h ihbefore ih =>
    have hsegment := hc.reaches (before.reaches.trans hsep.reaches)
    have hlaid := laid_joined (q := false) hsegment h.reaches (ih hsegment)
    exact (ihbefore hc).append (hlaid.within hsep.reaches (.refl _))
  | property hopen w₁ body w₃ hclose ih =>
    have hhead := hopen.reaches.trans w₁.reaches
    have htail := w₃.reaches.trans hclose.reaches
    refine laid_node hc (hhead.trans (body.reaches.trans htail)) ?_
    exact (ih (hc.reaches hhead)).within hhead htail
  | item _ hopen w₁ hname w₃ ht hs w₆ hclose iht ihs =>
    have hhead := hopen.reaches.trans (w₁.reaches.trans (hname.1.reaches.trans w₃.reaches))
    have htail := w₆.reaches.trans hclose.reaches
    have hfirst := hc.reaches hhead
    refine laid_node hc (hhead.trans (ht.reaches.trans (hs.reaches.trans htail))) ?_
    exact ((iht hfirst).head?.append (ihs (hfirst.reaches ht.reaches)).head?).within hhead htail
  | metadata ho hopen w₁ hname w₃ hclose =>
    exact laid_leaf hc (Spells.metadata ho hopen w₁ hname w₃ hclose).reaches rfl
  | ownedMetadata ho hopen w₁ howner w₃ hdot w₅ hname w₇ hclose =>
    exact laid_leaf hc
      (Spells.ownedMetadata ho hopen w₁ howner w₃ hdot w₅ hname w₇ hclose).reaches rfl
  | name hname | word hname => exact laid_leaf hc hname.1.reaches rfl
  | staticCall hclass w₁ hcolons w₃ hname w₅ ha ih =>
    have hbetween := w₁.reaches.trans (hcolons.reaches.trans w₃.reaches)
    have hfunction := hc.reaches (hclass.reaches.trans hbetween)
    have harguments := hname.1.reaches.trans w₅.reaches
    have hmember := laid_call hfunction hname w₅ (ih (hfunction.reaches harguments)).head?
    refine laid_node hc (hclass.reaches.trans (hbetween.trans (harguments.trans ha.reaches))) ?_
    exact (laid_leaf hc hclass.reaches rfl).append (hmember.within hbetween (.refl _))
  | member before hdot w₂ hname w₄ ha ihbefore ih =>
    have hbetween := hdot.reaches.trans w₂.reaches
    have hfunction := hc.reaches (before.reaches.trans hbetween)
    have harguments := hfunction.reaches (hname.1.reaches.trans w₄.reaches)
    have hmember := laid_call hfunction hname w₄ (ih harguments).head?
    -- A member goes around the value before it, and so begins where that begins.
    exact laid_around (harguments.reaches ha.reaches).boundary rfl (ihbefore hc)
      (hmember.within hbetween (.refl _))
  | index before ha ihbefore ih =>
    have harguments := hc.reaches before.reaches
    exact laid_around (harguments.reaches ha.reaches).boundary rfl (ihbefore hc) (ih harguments)
  | afterValue _ w ih | afterTransforms _ w ih | arguments _ w ih =>
    exact (ih hc).within (.refl _) w.reaches
  | registry _ hcs _ | number hcs _ => exact laid_leaf hc hcs.reaches rfl
  | noArguments hopen w₁ hclose =>
    exact laid_leaf hc (hopen.reaches.trans (w₁.reaches.trans hclose.reaches)) rfl
  | argumentList hopen w₁ ha hclose ih =>
    have hhead := hopen.reaches.trans w₁.reaches
    refine laid_node hc (hhead.trans (ha.reaches.trans hclose.reaches)) ?_
    exact (ih (hc.reaches hhead)).within hhead hclose.reaches
  | nextArgument before hsep w₂ _ w₄ ihbefore ih =>
    have hbetween := hsep.reaches.trans w₂.reaches
    have hlaid := ih (hc.reaches (before.reaches.trans hbetween))
    exact (ihbefore hc).append (hlaid.within hbetween w₄.reaches)
  | quoted _ hcs _ h _ ih =>
    obtain ⟨hinside, hstop⟩ := hc.quoted hcs h.reaches
    -- No node has the quotes in it.
    have hlaid := laid_joined (q := true) hinside h.reaches (ih hinside)
    exact (hlaid.weaken_start (Nat.le_add_right _ _)).weaken_stop hstop
  | quotedTransform before harrow w₂ _ _ ih =>
    have hbetween := before.reaches.trans (harrow.reaches.trans w₂.reaches)
    exact (ih (hc.reaches hbetween)).within hbetween (.refl _)
  | @functionTransform o c d c₁ c₂ c₃ c₄ c₅ _ previous _ before harrow w₂ hname w₄ ha ihbefore ih =>
    have hbetween := harrow.reaches.trans w₂.reaches
    have hfunction := hc.reaches (before.reaches.trans hbetween)
    have harguments := hname.1.reaches.trans w₄.reaches
    have hcall := laid_call hfunction hname w₄ (ih (hfunction.reaches harguments))
    -- The node begins where the transform before it begins, and with its own name if there is none.
    cases previous with
    | nil =>
      refine Laid.within (laid_node hfunction (harguments.trans ha.reaches) ?_)
        (before.reaches.trans hbetween) (.refl _)
      exact hcall
    | cons a more =>
      exact laid_around (hfunction.reaches (harguments.trans ha.reaches)).boundary rfl
        (ihbefore hc).head? (hcall.within hbetween (.refl _))
  | separator hcomma w₁ _ ih =>
    have hbetween := hcomma.reaches.trans w₁.reaches
    exact (ih (hc.reaches hbetween)).within hbetween (.refl _)

section
variable {s u v : TokenStream} {o : Options}

/-- A token that was not quoted is as long as its text. -/
theorem TokenStream.At.span_eq (hs : s.At c) (hbare : s.current.quoted = false) :
    s.current.span = ⟨c.offset, s.after.offset⟩ := by
  rw [Token.span, hs.position, (hs.reads_bare hbare).2]

theorem TokenStream.At.advance (hs : s.At c) {x : Unit} (h : Parsed.Gives (advance s) x u) :
    ∃ d, u.At d ∧ s.after.Reaches d ∧ c.Reaches d := by
  obtain ⟨d, hblanks, hd⟩ := at_of_advance h
  exact ⟨d, hd, hblanks.reaches, hs.reads.reaches.trans hblanks.reaches⟩

/-- What a quoted string stands for is read from the text between its quotes. -/
theorem spells_of_stands (hc : Inside text c) (hs : s.At c) (hquoted : s.current.quoted = true)
    (h : Stands o s.current a) : ∃ b e nodes, Spells o (.parts true) b nodes e ∧ Inside text b ∧
      a = joined ⟨b.offset, e.offset⟩ true nodes ∧ c.offset ≤ b.offset ∧
      e.offset ≤ s.after.offset := by
  obtain ⟨e, hconcat⟩ := from_eq_ok.1 h
  obtain ⟨nodes, hnodes, rfl, -⟩ := spells_concat innerSpells_anywhere hconcat
  have hread := hs.reads
  rw [Token.written, if_pos hquoted] at hread
  rw [hs.position] at hnodes ⊢
  obtain ⟨hinside, hstop⟩ := hc.quoted hread hnodes.reaches
  exact ⟨_, e, nodes, hnodes, hinside, rfl, Nat.le_add_right _ _, hstop⟩

/-- A reference in a condition is read from its sigil to the parenthesis that closes it. -/
theorem spells_of_sliced {slice e : Cursor} (hc : Inside text c) (hs : s.At c)
    (hslice : Sliced s slice u) (hu : u.current.kind = .rightParen)
    (h : Parsed.Gives (reference o slice) a e) : Spells o .reference slice [a] e ∧
      Inside text slice ∧ slice.offset = c.offset ∧ e.offset ≤ u.after.offset ∧
      ∃ d, u.At d ∧ c.Reaches d := by
  obtain ⟨sigil, ws, body, d, -, -, hread, hd, -, rfl⟩ := hslice.reads hs
  have hclose : d.Reads [')'] u.after := hd.reads_sign (by rw [hu]; rfl)
  have hwhole : c.Reads (sigil :: (ws ++ '(' :: (body ++ [')']))) u.after := by
    have hmore := hread.trans hclose
    rwa [List.cons_append, List.append_assoc, List.cons_append] at hmore
  have hreference := spells_reference h
  obtain ⟨hinside, hstop⟩ := hc.slice hwhole
  exact ⟨hreference, hinside, rfl, hstop e hreference.reaches, d, hd, hread.reaches⟩

/-- What a quoted string stands for stands between its quotes. -/
theorem laid_of_stands (hc : Inside text c) (hs : s.At c) (hquoted : s.current.quoted = true)
    (h : Stands o s.current a) : Laid text c.offset [a] s.after.offset := by
  obtain ⟨b, e, nodes, hnodes, hinside, rfl, hstart, hstop⟩ := spells_of_stands hc hs hquoted h
  have hlaid := laid_joined (q := true) hinside hnodes.reaches (hnodes.laid hinside)
  exact (hlaid.weaken_start hstart).weaken_stop hstop

/-- A reference in a condition stands between its sigil and the parenthesis that closes it. -/
theorem laid_of_sliced {slice e : Cursor} (hc : Inside text c) (hs : s.At c)
    (hslice : Sliced s slice u) (hu : u.current.kind = .rightParen)
    (h : Parsed.Gives (reference o slice) a e) :
    ∃ d, u.At d ∧ c.Reaches d ∧ Laid text c.offset [a] u.after.offset := by
  obtain ⟨hreference, hinside, hstart, hstop, d, hd, hcd⟩ := spells_of_sliced hc hs hslice hu h
  have hlaid := hreference.laid hinside
  rw [hstart] at hlaid
  exact ⟨d, hd, hcd, hlaid.weaken_stop hstop⟩

/-- Two nodes one behind the other are covered from the start of the one to the end of the other. -/
theorem laid_binary {op : Operator} {b : Node} (ha : Laid text lo [a] mid)
    (hb : Laid text mid [b] hi) : Laid text lo [binary op a b] hi := by
  obtain ⟨hright, hboundary, hstop⟩ := hb.to_last
  have hcover : a.span.cover b.span = ⟨a.span.start, b.span.stop⟩ := by
    have hwithin := ha.from_first.le
    have hmid := hb.start_le
    have hwithin' := hb.from_first.to_last.1.le
    have hstop' := ha.to_last.2.2
    rw [Span.cover, Nat.min_eq_left (by omega), Nat.max_eq_right (by omega)]
  rw [binary, hcover]
  exact (laid_around hboundary rfl ha hright).weaken_stop hstop

/-- A construct, a token and a construct behind it. -/
theorem laid_operands {t : TokenStream} (hc : Inside text c)
    (hleft : ∃ d, t.At d ∧ c.Reaches d ∧ Laid text c.offset xs d.offset)
    (hu : Parsed.Gives (advance t) () u)
    (hright : ∀ e, u.At e → Inside text e →
      ∃ f, v.At f ∧ e.Reaches f ∧ Laid text e.offset ys f.offset) :
    ∃ d f : Cursor, v.At f ∧ c.Reaches f ∧ Laid text c.offset xs d.offset ∧
      Laid text d.offset ys f.offset := by
  obtain ⟨d, hd, hcd, hxs⟩ := hleft
  obtain ⟨e, he, -, hde⟩ := hd.advance hu
  obtain ⟨f, hf, hef, hys⟩ := hright e he (hc.reaches (hcd.trans hde))
  exact ⟨d, f, hf, hcd.trans (hde.trans hef), hxs, hys.weaken_start hde.offset_le⟩

/-- A token and the nodes that it stands for alone. -/
theorem laid_token (hs : s.At c) (hu : Parsed.Gives (advance s) () u)
    (h : Laid text c.offset xs s.after.offset) :
    ∃ d, u.At d ∧ c.Reaches d ∧ Laid text c.offset xs d.offset := by
  obtain ⟨d, hd, hafter, hcd⟩ := hs.advance hu
  exact ⟨d, hd, hcd, h.weaken_stop hafter.offset_le⟩

/-- The nodes of a condition stand between its first token and the token behind it. -/
theorem Forms.laid {rule : Rule} (h : Forms o rule s xs u) (hs : s.At c) (hc : Inside text c) :
    ∃ d, u.At d ∧ c.Reaches d ∧ Laid text c.offset xs d.offset := by
  induction h generalizing c with
  | disjunction _ ih | conjunction _ ih | negation _ ih | relation _ ih | arguments _ ih
  | factors _ ih => exact ih hs hc
  | or _ _ hu _ ihleft ihright | and _ _ hu _ ihleft ihright
  | comparison _ _ hu _ ihleft ihright =>
    obtain ⟨d, f, hf, hcf, hleft, hright⟩ :=
      laid_operands hc (ihleft hs hc) hu fun _ => ihright
    exact ⟨f, hf, hcf, laid_binary hleft hright⟩
  | comma _ _ hu _ ihleft ihright =>
    obtain ⟨d, f, hf, hcf, hleft, hright⟩ :=
      laid_operands hc (ihleft hs hc) hu fun _ => ihright
    exact ⟨f, hf, hcf, hleft.append hright⟩
  | not _ ht _ ih =>
    obtain ⟨e, he, -, hce⟩ := hs.advance ht
    obtain ⟨d, hd, hed, hlaid⟩ := ih he (hc.reaches hce)
    -- The node ends where its operand ends, and not where the next token begins.
    obtain ⟨hoperand, hboundary, hstop⟩ := (hlaid.weaken_start hce.offset_le).to_last
    refine ⟨d, hd, hce.trans hed, ?_⟩
    rw [hs.position]
    exact .cons (Nat.le_refl _) hc.boundary hboundary hoperand (.nil hstop)
  | parentheses _ ht _ _ hv ih =>
    obtain ⟨e, he, -, hce⟩ := hs.advance ht
    obtain ⟨d, hd, hed, hlaid⟩ := ih he (hc.reaches hce)
    obtain ⟨f, hf, -, hdf⟩ := hd.advance hv
    exact ⟨f, hf, hce.trans (hed.trans hdf), hlaid.within hce hdf⟩
  | number hkind hu =>
    rw [hs.span_eq (hs.bare hkind TokenKind.noConfusion)]
    exact laid_token hs hu (laid_leaf hc hs.reads.reaches rfl)
  | word _ hbare hu =>
    rw [hs.span_eq hbare]
    exact laid_token hs hu (laid_leaf hc hs.reads.reaches rfl)
  | quoted _ hquoted h hu => exact laid_token hs hu (laid_of_stands hc hs hquoted h)
  | @call s t u v w nodes _ hbare ht _ hu _ hright hw ih =>
    obtain ⟨c₁, h₁, hafter, hc₁⟩ := hs.advance ht
    obtain ⟨c₂, h₂, -, h₁₂⟩ := h₁.advance hu
    obtain ⟨c₃, h₃, h₂₃, hlaid⟩ := ih h₂ (hc.reaches (hc₁.trans h₁₂))
    obtain ⟨e, he, hbehind, h₃e⟩ := h₃.advance hw
    have hclose : c₃.Reads [')'] v.after := h₃.reads_sign (by rw [hright]; rfl)
    -- The list of arguments goes from one parenthesis to the other.
    have hlist : Laid text c₁.offset [.mk ⟨c₁.offset, v.after.offset⟩ (.argumentList nodes)]
        v.after.offset :=
      laid_node (hc.reaches hc₁) (h₁₂.trans (h₂₃.trans hclose.reaches))
        (hlaid.within h₁₂ hclose.reaches)
    have hstop : c₃.offset + 1 = _ := hclose.2.symm
    refine ⟨e, he, hc₁.trans (h₁₂.trans (h₂₃.trans h₃e)), ?_⟩
    rw [callNode, hs.span_eq hbare, hs.position, h₁.position, h₃.position, hstop]
    refine (laid_node hc (hc₁.trans (h₁₂.trans (h₂₃.trans hclose.reaches))) ?_).weaken_stop
      hbehind.offset_le
    exact (laid_leaf hc hs.reads.reaches rfl).append (hlist.weaken_start hafter.offset_le)
  | reference hslice h hu hv =>
    obtain ⟨d, hd, hcd, hlaid⟩ := laid_of_sliced hc hs hslice hu h
    obtain ⟨e, he, hafter, hde⟩ := hd.advance hv
    exact ⟨e, he, hcd.trans hde, hlaid.weaken_stop hafter.offset_le⟩
  | noArguments => exact ⟨c, hs, .refl c, .nil (Nat.le_refl _)⟩

end

end ProjectAnalysis.Expr
