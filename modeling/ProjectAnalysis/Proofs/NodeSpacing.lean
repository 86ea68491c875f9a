import ProjectAnalysis.Proofs.ReferenceText

/-! How the children of a node stand to each other. Something is written between two operands, two
segments or two arguments, so they do not meet. The parts of a text do meet, and so do a value and
what it is called with; but there the later of the two holds nothing at its very beginning. -/
namespace ProjectAnalysis.Expr

/-- All children begin behind the beginning of the node. -/
def Node.Indented (a : Node) : Prop :=
  ∀ c ∈ a.children, a.span.start < c.span.start

/-- If the later of two nodes begins where the earlier one ends, only the node itself does so. -/
def Node.Apart (a b : Node) : Prop :=
  a.span.stop < b.span.start ∨ b.Indented

def Node.Spaced (a : Node) : Prop :=
  a.children.Pairwise Node.Apart

/-- Trees that can be the children of one node, with all nodes in them spaced. -/
structure SpacedAll (xs : List Node) : Prop where
  apart : xs.Pairwise Node.Apart
  inside : Throughout Node.Spaced xs

variable {text cs : List Char} {o : Options} {rule : TextRule} {c d e : Cursor} {a b : Node}
  {xs ys : List Node} {lo mid mid' hi : Nat} {s t u v : TokenStream}

theorem spacedAll_nil : SpacedAll [] :=
  ⟨.nil, throughout_nil⟩

theorem spacedAll_node (h : SpacedAll a.children) : SpacedAll [a] :=
  ⟨List.pairwise_singleton _ _, throughout_node h.apart h.inside⟩

theorem spacedAll_leaf (h : a.children = []) : SpacedAll [a] :=
  spacedAll_node (h ▸ spacedAll_nil)

theorem indented_leaf (h : a.children = []) : a.Indented := by
  unfold Node.Indented
  rw [h]
  exact List.forall_mem_nil _

theorem Laid.indented (h : Laid text lo a.children hi) (hlo : a.span.start < lo) : a.Indented :=
  fun _ hc => Nat.lt_of_lt_of_le hlo (h.of_mem hc).1

namespace SpacedAll

theorem head? (h : SpacedAll xs) : SpacedAll xs.head?.toList := by
  refine ⟨?_, h.inside.head?⟩
  cases xs with
  | nil => exact .nil
  | cons a xs => exact List.pairwise_singleton _ _

theorem append_indented (hx : SpacedAll xs) (hy : SpacedAll ys) (h : ∀ b ∈ ys, b.Indented) :
    SpacedAll (xs ++ ys) :=
  ⟨List.pairwise_append.2 ⟨hx.apart, hy.apart, fun _ _ b hb => Or.inr (h b hb)⟩,
    hx.inside.append hy.inside⟩

/-- Something stands between the last tree and what comes behind it. -/
theorem append_behind (hx : SpacedAll xs) (hy : SpacedAll ys) (hleft : Laid text lo xs mid)
    (hright : Laid text mid' ys hi) (hmid : mid < mid') : SpacedAll (xs ++ ys) := by
  refine ⟨List.pairwise_append.2 ⟨hx.apart, hy.apart, fun a ha b hb => Or.inl ?_⟩,
    hx.inside.append hy.inside⟩
  have hstop := (hleft.of_mem ha).2.1
  have hstart := (hright.of_mem hb).1
  omega

end SpacedAll

theorem spacedAll_joined {span : Span} {q : Bool} (h : SpacedAll xs) :
    SpacedAll [joined span q xs] := by
  unfold joined
  split
  · exact spacedAll_leaf rfl
  · exact h
  · exact spacedAll_node h

/-- What stands before a function, the name of the function and what it is called with. -/
theorem spacedAll_call {span : Span} {name : String} (hx : SpacedAll xs) (hy : SpacedAll ys)
    (h : ∀ b ∈ ys, b.Indented) : SpacedAll (xs ++ .mk span (.functionName name) :: ys) := by
  have hname : SpacedAll [.mk span (.functionName name)] := spacedAll_leaf rfl
  refine hx.append_indented (hname.append_indented hy h) ?_
  exact List.forall_mem_cons.2 ⟨indented_leaf rfl, h⟩

theorem Spells.indented_reference (h : Spells o .reference c [a] d) (hc : Inside text c) :
    a.Indented := by
  unfold Node.Indented
  rw [h.isReference.2]
  exact h.start_lt hc

theorem Spells.indented_argumentList {opening close : Char}
    (h : Spells o (.argumentList opening close) c [a] d) (hc : Inside text c) : a.Indented := by
  cases h with
  | noArguments => exact indented_leaf rfl
  | argumentList hopen w₁ ha =>
    have hfirst := hc.reaches (hopen.reaches.trans w₁.reaches)
    refine (ha.laid hfirst).indented (Nat.lt_of_lt_of_le ?_ w₁.reaches.offset_le)
    exact offset_lt_of_reads hopen (List.cons_ne_nil _ _)

theorem Spells.indented_call (h : Spells o .call c xs d) (hc : Inside text c) :
    ∀ a ∈ xs.head?.toList, a.Indented := by
  cases h with
  | noCall => exact List.forall_mem_nil _
  | call h => exact List.forall_mem_singleton.2 (h.indented_argumentList hc)

/-- The nodes that the grammar spells are spaced. -/
theorem Spells.spaced (h : Spells o rule c xs d) (hc : Inside text c) : SpacedAll xs := by
  induction h with
  | noParts | noCall | noTransform | noSeparator => exact spacedAll_nil
  | body _ ih | call _ ih | quotedArgument _ ih | referenceArgument _ ih | afterValue _ _ ih
  | afterTransforms _ _ ih | arguments _ _ ih => exact ih hc
  | literal _ _ _ ih =>
    exact (ih hc).append_indented (spacedAll_leaf rfl)
      (List.forall_mem_singleton.2 (indented_leaf rfl))
  | part before h ihbefore ih =>
    have hpart := hc.reaches before.reaches
    exact (ihbefore hc).append_indented (ih hpart)
      (List.forall_mem_singleton.2 (h.indented_reference hpart))
  | segment _ ih => exact spacedAll_joined (ih hc)
  | nextSegment before hsep h ihbefore ih =>
    have hsegment := hc.reaches (before.reaches.trans hsep.reaches)
    exact (ihbefore hc).append_behind (spacedAll_joined (ih hsegment)) (before.laid hc)
      (laid_joined hsegment h.reaches (h.laid hsegment))
      (offset_lt_of_reads hsep (List.cons_ne_nil _ _))
  | property hopen w₁ _ _ _ ih =>
    exact spacedAll_node (ih (hc.reaches (hopen.reaches.trans w₁.reaches)))
  | item _ hopen w₁ hname w₃ ht hs _ _ iht ihs =>
    have hhead := hopen.reaches.trans (w₁.reaches.trans (hname.1.reaches.trans w₃.reaches))
    have hfirst := hc.reaches hhead
    have hsecond := hfirst.reaches ht.reaches
    have htransform := (iht hfirst).head?
    refine spacedAll_node ?_
    cases hs with
    | noSeparator => exact htransform.append_indented spacedAll_nil (List.forall_mem_nil _)
    | separator hcomma w₁ h =>
      -- The comma stands between the last transform and the quoted separator.
      have hquote := hsecond.reaches (hcomma.reaches.trans w₁.reaches)
      refine htransform.append_behind (ihs hsecond).head? (ht.laid hfirst).head? (h.laid hquote) ?_
      exact Nat.lt_of_lt_of_le (offset_lt_of_reads hcomma (List.cons_ne_nil _ _))
        w₁.reaches.offset_le
  | metadata | ownedMetadata | name | registry | number | word | noArguments =>
    exact spacedAll_leaf rfl
  | staticCall hclass w₁ hcolons w₃ hname w₅ ha ih =>
    have hbetween := w₁.reaches.trans (hcolons.reaches.trans w₃.reaches)
    have hfunction := hc.reaches (hclass.reaches.trans hbetween)
    have harguments := hfunction.reaches (hname.1.reaches.trans w₅.reaches)
    exact spacedAll_node (spacedAll_call (spacedAll_leaf rfl) (ih harguments).head?
      (ha.indented_call harguments))
  | member before hdot w₂ hname w₄ ha ihbefore ih =>
    have hfunction := hc.reaches (before.reaches.trans (hdot.reaches.trans w₂.reaches))
    have harguments := hfunction.reaches (hname.1.reaches.trans w₄.reaches)
    exact spacedAll_node (spacedAll_call (ihbefore hc) (ih harguments).head?
      (ha.indented_call harguments))
  | index before ha ihbefore ih =>
    have harguments := hc.reaches before.reaches
    exact spacedAll_node ((ihbefore hc).append_indented (ih harguments)
      (List.forall_mem_singleton.2 (ha.indented_argumentList harguments)))
  | argumentList hopen w₁ _ _ ih =>
    exact spacedAll_node (ih (hc.reaches (hopen.reaches.trans w₁.reaches)))
  | nextArgument before hsep w₂ h _ ihbefore ih =>
    have hargument := hc.reaches (before.reaches.trans (hsep.reaches.trans w₂.reaches))
    refine (ihbefore hc).append_behind (ih hargument) (before.laid hc) (h.laid hargument) ?_
    exact Nat.lt_of_lt_of_le (offset_lt_of_reads hsep (List.cons_ne_nil _ _)) w₂.reaches.offset_le
  | quoted _ hcs _ h _ ih => exact spacedAll_joined (ih (hc.quoted hcs h.reaches).1)
  | quotedTransform before harrow w₂ _ _ ih =>
    exact ih (hc.reaches (before.reaches.trans (harrow.reaches.trans w₂.reaches)))
  | functionTransform before harrow w₂ hname w₄ ha ihbefore ih =>
    have hbetween := before.reaches.trans (harrow.reaches.trans w₂.reaches)
    have harguments := (hc.reaches hbetween).reaches (hname.1.reaches.trans w₄.reaches)
    exact spacedAll_node (spacedAll_call (ihbefore hc).head? (ih harguments)
      (List.forall_mem_singleton.2 (ha.indented_argumentList harguments)))
  | separator hcomma w₁ _ ih => exact ih (hc.reaches (hcomma.reaches.trans w₁.reaches))

theorem TokenKind.isBetween_of_comparison? {kind : TokenKind} {op : Operator}
    (h : comparison? kind = some op) : kind.isBetween = true := by
  cases kind <;> first | rfl | cases h

/-- Behind a token that stands between two operands the next one begins later. -/
theorem advance_between (hs : s.At c) (hkind : s.current.kind.isBetween = true)
    (h : Parsed.Gives (advance s) () u) : ∃ d, u.At d ∧ c.Reaches d ∧ c.offset < d.offset := by
  obtain ⟨d, hd, hafter, hcd⟩ := hs.advance h
  have hwritten := offset_lt_of_reads hs.reads (hs.between hkind)
  exact ⟨d, hd, hcd, Nat.lt_of_lt_of_le hwritten hafter.offset_le⟩

/-- Two constructs with a token between them. -/
theorem spacedAll_operands {left right : Rule} (hs : s.At c) (hc : Inside text c)
    (hleft : Forms o left s xs t) (hkind : t.current.kind.isBetween = true)
    (hu : Parsed.Gives (advance t) () u) (hright : Forms o right u ys v) (hx : SpacedAll xs)
    (hy : ∀ e, u.At e → Inside text e → SpacedAll ys) : SpacedAll (xs ++ ys) := by
  obtain ⟨d, hd, hcd, hxs⟩ := hleft.laid hs hc
  obtain ⟨e, he, hde, hlt⟩ := advance_between hd hkind hu
  have hinside := hc.reaches (hcd.trans hde)
  obtain ⟨f, -, -, hys⟩ := hright.laid he hinside
  exact hx.append_behind (hy e he hinside) hxs hys hlt

/-- The nodes of a condition are spaced. -/
theorem Forms.spaced {rule : Rule} (h : Forms o rule s xs u) (hs : s.At c) (hc : Inside text c) :
    SpacedAll xs := by
  induction h generalizing c with
  | disjunction _ ih | conjunction _ ih | negation _ ih | relation _ ih | arguments _ ih
  | factors _ ih => exact ih hs hc
  | or hleft hkind hu hright ihleft ihright | and hleft hkind hu hright ihleft ihright =>
    exact spacedAll_node (spacedAll_operands hs hc hleft (by rw [hkind]; rfl) hu hright
      (ihleft hs hc) fun _ => ihright)
  | comparison hleft hkind hu hright ihleft ihright =>
    have hbetween := TokenKind.isBetween_of_comparison? hkind
    exact spacedAll_node (spacedAll_operands hs hc hleft hbetween hu hright (ihleft hs hc)
      fun _ => ihright)
  | comma hleft hkind hu hright ihleft ihright =>
    exact spacedAll_operands hs hc hleft (by rw [hkind]; rfl) hu hright (ihleft hs hc)
      fun _ => ihright
  | not _ ht _ ih =>
    obtain ⟨e, he, -, hce⟩ := hs.advance ht
    exact spacedAll_node (ih he (hc.reaches hce))
  | parentheses _ ht _ _ _ ih =>
    obtain ⟨e, he, -, hce⟩ := hs.advance ht
    exact ih he (hc.reaches hce)
  | number | word => exact spacedAll_leaf rfl
  | quoted _ hquoted h _ =>
    obtain ⟨_, _, _, hnodes, hinside, rfl, -⟩ := spells_of_stands hc hs hquoted h
    exact spacedAll_joined (hnodes.spaced hinside)
  | @call s t _ v _ nodes _ _ ht hleft hu h _ _ ih =>
    obtain ⟨c₁, h₁, -, hc₁⟩ := hs.advance ht
    obtain ⟨c₂, h₂, hafter, h₁₂⟩ := h₁.advance hu
    have hinside := hc.reaches (hc₁.trans h₁₂)
    obtain ⟨_, -, -, hlaid⟩ := h.laid h₂ hinside
    -- The list begins at its parenthesis, and the arguments begin behind it.
    have hopen : c₁.Reads ['('] t.after := h₁.reads_sign (by rw [hleft]; rfl)
    have hlist : Node.Indented (.mk ⟨t.current.position, v.current.position + 1⟩
        (.argumentList nodes)) := by
      refine hlaid.indented ?_
      rw [Node.span, h₁.position]
      exact Nat.lt_of_lt_of_le (offset_lt_of_reads hopen (List.cons_ne_nil _ _)) hafter.offset_le
    exact spacedAll_node (spacedAll_call spacedAll_nil (spacedAll_node (ih h₂ hinside))
      (List.forall_mem_singleton.2 hlist))
  | reference hslice h hu _ =>
    obtain ⟨hreference, hinside, -⟩ := spells_of_sliced hc hs hslice hu h
    exact hreference.spaced hinside
  | noArguments => exact spacedAll_nil

/-- The nodes of every expression that is read are spaced. -/
theorem parse_spaced {text : String} {n : Node} (h : parse o text = .ok n) : SpacedAll [n] := by
  have hstart : Inside text.toList (.ofText text.toList) := inside_ofText _
  replace h := mapError_eq_ok.1 h
  split at h
  · obtain ⟨s, hstep, ⟨-, rfl⟩ | ⟨-, u, hlevel, -⟩⟩ := wholeCondition_eq_ok.1 h
    · exact spacedAll_leaf rfl
    · obtain ⟨c, hblanks, hc⟩ := at_of_step hstep
      exact (forms_level .disjunction hlevel).spaced hc (hstart.reaches hblanks.reaches)
  · obtain ⟨d, hsegments⟩ := from_eq_ok.1 h
    obtain ⟨-, nodes, hspells, rfl | rfl⟩ := spells_segments hsegments
    · exact hspells.spaced hstart
    · exact spacedAll_node (hspells.spaced hstart)

end ProjectAnalysis.Expr
