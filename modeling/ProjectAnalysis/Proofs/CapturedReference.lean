import ProjectAnalysis.Proofs.LooseParens
import ProjectAnalysis.Proofs.ReferenceAgreement

/-! What becomes of the references in a condition. Each one outside of quotes is found by counting
parentheses, and is then read from the slice that was found. The reader starts where the slice
starts, but need not come to its end: parentheses in the values of the reference are counted like
all others, and where they do not come in pairs the rest of the slice is left out of the tree. -/
namespace ProjectAnalysis.Expr

/-- From `s` on there is a reference outside of quotes with this slice. -/
inductive Captured : TokenStream → Cursor → Prop
  | here {s v : TokenStream} {slice : Cursor} (h : Sliced s slice v) : Captured s slice
  | behind {s v : TokenStream} {slice other : Cursor} (h : Sliced s other v)
      (more : Captured v slice) : Captured s slice
  | next {s t : TokenStream} {slice : Cursor} (hs : s.current.kind.isReference = false)
      (ht : Parsed.Gives (advance s) () t) (more : Captured t slice) : Captured s slice

/-- The node is a reference that was read from the beginning of the slice, and from all of it just
if the parentheses in its values come in pairs. -/
structure ReadFrom (slice : Cursor) (n : Node) : Prop where
  reference : n.shape.isReference = true
  start_eq : n.span.start = slice.offset
  stop_le : n.span.stop ≤ slice.offset + byteLength slice.rest
  whole_iff : n.span.stop = slice.offset + byteLength slice.rest ↔ n.loose = 0

/-- Somewhere in the trees there is the reference of the slice. -/
def Shows (slice : Cursor) (xs : List Node) : Prop :=
  ∃ n ∈ xs, ∃ m ∈ n.preorder, ReadFrom slice m

variable {o : Options} {s t u v : TokenStream} {c d slice : Cursor} {a : Node} {xs ys : List Node}

theorem Shows.left (h : Shows slice xs) : Shows slice (xs ++ ys) := by
  obtain ⟨n, hn, hm⟩ := h
  exact ⟨n, List.mem_append_left ys hn, hm⟩

theorem Shows.right (h : Shows slice ys) : Shows slice (xs ++ ys) := by
  obtain ⟨n, hn, hm⟩ := h
  exact ⟨n, List.mem_append_right xs hn, hm⟩

theorem Shows.node (h : Shows slice a.children) : Shows slice [a] := by
  obtain ⟨n, hn, m, hm, hread⟩ := h
  refine ⟨a, List.mem_singleton_self a, m, ?_, hread⟩
  rw [Node.preorder_eq]
  exact List.mem_cons_of_mem a (List.mem_flatMap.2 ⟨n, hn, hm⟩)

theorem Shows.binary_left {op : Operator} {b : Node} (h : Shows slice [a]) :
    Shows slice [binary op a b] :=
  Shows.node (a := binary op a b) (h.left : Shows slice ([a] ++ [b]))

theorem Shows.binary_right {op : Operator} {b : Node} (h : Shows slice [b]) :
    Shows slice [binary op a b] :=
  Shows.node (a := binary op a b) (h.right : Shows slice ([a] ++ [b]))

theorem isReference_of_comparison? {kind : TokenKind} {op : Operator}
    (h : comparison? kind = some op) : kind.isReference = false := by
  cases kind <;> first | rfl | cases h

theorem Sliced.unique {other : Cursor} (h : Sliced s slice u) (h' : Sliced s other v) :
    slice = other ∧ u = v := by
  obtain ⟨-, t, ht, -, -, rfl, hu⟩ := h
  obtain ⟨-, t', ht', -, -, rfl, hv⟩ := h'
  obtain ⟨-, rfl⟩ := ht.unique ht'
  exact ⟨rfl, (hu.unique hv).2⟩

/-- A token that begins no reference is passed. -/
theorem Captured.after_token {kind : TokenKind} (h : Captured s slice)
    (hkind : s.current.kind = kind) (hs : kind.isReference = false)
    (ht : Parsed.Gives (advance s) () t) : Captured t slice := by
  have hplain {p : Prop} (h : s.current.kind.isReference = true) : p := by
    rw [hkind, hs] at h
    cases h
  cases h with
  | here h => exact hplain h.1
  | behind h _ => exact hplain h.1
  | next _ ht' more =>
    obtain ⟨-, rfl⟩ := ht.unique ht'
    exact more

theorem Captured.after_slice {other : Cursor} (h : Captured s slice) (hs : Sliced s other v) :
    slice = other ∨ Captured v slice := by
  cases h with
  | here h => exact Or.inl (h.unique hs).1
  | behind h more => exact Or.inr ((h.unique hs).2 ▸ more)
  | next hplain _ _ =>
    rw [hs.1] at hplain
    cases hplain

theorem Spells.isReference (h : Spells o .reference c [a] d) :
    a.shape.isReference = true ∧ a.span = ⟨c.offset, d.offset⟩ := by
  cases h <;> exact ⟨rfl, rfl⟩

theorem Spells.part_shape {q : Bool} (h : Spells o (.parts q) c xs d) :
    ∀ a ∈ xs, (∃ value, a.shape = .text value q) ∨ a.shape.isReference = true := by
  generalize hrule : TextRule.parts q = rule at h
  induction h with
  | noParts => exact List.forall_mem_nil _
  | literal _ _ _ ih =>
    cases hrule
    exact List.forall_mem_append.2 ⟨ih rfl, List.forall_mem_singleton.2 (Or.inl ⟨_, rfl⟩)⟩
  | part _ h ih _ =>
    exact List.forall_mem_append.2 ⟨ih hrule, List.forall_mem_singleton.2 (Or.inr h.isReference.1)⟩
  | _ => cases hrule

/-- Parts become text, a reference, or several of these in a row. -/
theorem Spells.shape_joined (span : Span) {q : Bool} (h : Spells o (.parts q) c xs d) :
    (∃ value, (joined span q xs).shape = .text value q) ∨
      (∃ parts, (joined span q xs).shape = .concat parts) ∨
      (joined span q xs).shape.isReference = true := by
  unfold joined
  split
  · exact Or.inl ⟨_, rfl⟩
  · exact (h.part_shape _ List.mem_cons_self).imp_right Or.inr
  · exact Or.inr (Or.inl ⟨_, rfl⟩)

/-- A reference begins with two characters of its own. -/
theorem reads_of_reference (h : Parsed.Gives (reference o c) a d) :
    ∃ sigil q, excess [sigil] = 0 ∧ c.Reads (sigil :: '(' :: q) d := by
  rw [reference] at h
  obtain ⟨sigil, e, hopen, hthen⟩ := gives_referenceWith.1 h
  have hbehind : e.Reaches d ∧ excess [sigil] = 0 := by
    rcases hthen with ⟨rfl, hthen⟩ | ⟨rfl, hthen⟩ | ⟨rfl, hthen⟩ <;> exact ⟨hthen.reaches, rfl⟩
  obtain ⟨⟨q, hq⟩, hsigil⟩ := hbehind
  exact ⟨sigil, q, hsigil, hopen.trans hq⟩

/-- Of the text behind an opening parenthesis and up to the one that closes it, a part at the
beginning opens nothing just if it is all of it. -/
theorem eq_nil_iff_excess {body q tail rest : List Char} (h : body ++ [')'] = q ++ tail)
    (hclosing : TokenStream.closingParen? 1 (body ++ ')' :: rest) = some body.length) :
    tail = [] ↔ 1 + excess q = 0 := by
  obtain ⟨hbody, hprefix⟩ := (closingParen?_iff (by omega) body rest).1 hclosing
  constructor
  · rintro rfl
    have hclose : excess [')'] = -1 := rfl
    rw [List.append_nil] at h
    rw [← h, excess_append]
    omega
  · intro hzero
    rcases List.prefix_concat_iff.1 (⟨tail, h.symm⟩ : q <+: body ++ [')']) with rfl | hq
    · exact List.append_cancel_left (h.symm.trans (List.append_nil _).symm)
    · have hpos := hprefix q hq
      omega

/-- A slice is read from its beginning, and to its end just if the parentheses in its values come in
pairs. -/
theorem Sliced.readFrom (hs : s.At c) (hslice : Sliced s slice v)
    (hright : v.current.kind = .rightParen) (h : Parsed.Gives (reference o slice) a d) :
    ReadFrom slice a := by
  obtain ⟨sigil, ws, body, e, -, hws, -, he, hclosing, rfl⟩ := hslice.reads hs
  have hspells := spells_reference h
  obtain ⟨hreference, hspan⟩ := hspells.isReference
  obtain ⟨read, hread, hopens⟩ := hspells.opens
  obtain ⟨x, q, hx, hread'⟩ := reads_of_reference h
  obtain rfl : read = x :: '(' :: q := List.append_cancel_right (hread.1.symm.trans hread'.1)
  obtain ⟨rfl, hbehind⟩ := List.cons.inj hread.1
  -- Nothing stands between the sigil and its parenthesis.
  obtain rfl : ws = [] := by
    cases ws with
    | nil => rfl
    | cons w ws =>
      obtain ⟨rfl, -⟩ := List.cons.inj hbehind
      cases hws '(' List.mem_cons_self
  obtain ⟨-, hbody⟩ := List.cons.inj hbehind
  have hclose : e.Reads [')'] v.after := he.reads_sign (by rw [hright]; rfl)
  rw [hclose.1] at hclosing
  have hall := eq_nil_iff_excess hbody hclosing
  -- What was read opens what the values open, and the sigil opens nothing.
  have hloose : a.loose = 1 + excess q := by
    have hone : excess ['('] = 1 := rfl
    have hsum : looseAll [a] + 0 = _ := hopens.symm
    rw [looseAll_singleton, excess_cons, excess_cons '(' q] at hsum
    omega
  have hlength := congrArg byteLength hread.1
  rw [byteLength_append] at hlength
  have hstop := hread.2
  have hspan' : a.span.stop = d.offset := by rw [hspan]
  refine ⟨hreference, by rw [hspan], by omega, ?_⟩
  rw [hloose, ← hall]
  constructor
  · intro hwhole
    refine Decidable.byContradiction fun hne => ?_
    have hpos := byteLength_pos hne
    omega
  · intro hnil
    rw [hnil] at hlength
    exact hspan'.trans (hstop.trans (congrArg _ hlength.symm))

/-- Each reference is shown by the tree of the construct that holds it. -/
theorem Forms.shows {rule : Rule} (h : Forms o rule s xs u) (hs : ∃ c, s.At c)
    (hc : Captured s slice) : Shows slice xs ∨ Captured u slice := by
  have hnext {s t : TokenStream} (h : Parsed.Gives (advance s) () t) : ∃ c, t.At c := by
    obtain ⟨c, -, hc⟩ := at_of_advance h
    exact ⟨c, hc⟩
  -- The reference is in what was read so far, or it is still to come.
  induction h with
  | disjunction _ ih | conjunction _ ih | negation _ ih | relation _ ih | arguments _ ih
  | factors _ ih => exact ih hs hc
  | or _ ht hu _ ihleft ihright | and _ ht hu _ ihleft ihright =>
    rcases ihleft hs hc with hshows | hc
    · exact Or.inl hshows.binary_left
    · exact (ihright (hnext hu) (hc.after_token ht rfl hu)).imp_left Shows.binary_right
  | comparison _ ht hu _ ihleft ihright =>
    rcases ihleft hs hc with hshows | hc
    · exact Or.inl hshows.binary_left
    · have hmore := hc.after_token rfl (isReference_of_comparison? ht) hu
      exact (ihright (hnext hu) hmore).imp_left Shows.binary_right
  | comma _ ht hu _ ihleft ihright =>
    rcases ihleft hs hc with hshows | hc
    · exact Or.inl hshows.left
    · exact (ihright (hnext hu) (hc.after_token ht rfl hu)).imp_left Shows.right
  | not hkind ht _ ih =>
    exact (ih (hnext ht) (hc.after_token hkind rfl ht)).imp_left Shows.node
  | parentheses hkind ht _ hright hv ih =>
    exact (ih (hnext ht) (hc.after_token hkind rfl ht)).imp_right fun hc =>
      hc.after_token hright rfl hv
  | number hkind hu | quoted hkind _ _ hu | word hkind _ hu =>
    exact Or.inr (hc.after_token hkind rfl hu)
  | call hkind _ ht hleft hu _ hright hw ih =>
    have hinside := (hc.after_token hkind rfl ht).after_token hleft rfl hu
    rcases ih (hnext hu) hinside with hshows | hc
    · refine Or.inl (Shows.node ?_)
      change Shows slice ([_] ++ [_])
      exact (Shows.node hshows).right
    · exact Or.inr (hc.after_token hright rfl hw)
  | reference hslice h hright hv =>
    obtain ⟨c, hs⟩ := hs
    rcases hc.after_slice hslice with rfl | hc
    · refine Or.inl ⟨_, List.mem_singleton_self _, _, ?_, hslice.readFrom hs hright h⟩
      rw [Node.preorder_eq]
      exact List.mem_cons_self
    · exact Or.inr (hc.after_token hright rfl hv)
  | noArguments => exact Or.inr hc

theorem not_captured_of_atEnd (hend : s.atEnd = true) : ¬Captured s slice := by
  have hkind : s.current.kind = .finish := of_decide_eq_true hend
  have hstop {p : Prop} (h : s.current.kind.isReference = true) : p := by
    rw [hkind] at h
    cases h
  intro h
  cases h with
  | here h => exact hstop h.1
  | behind h _ => exact hstop h.1
  | next _ ht _ =>
    have hstart := ((step_eq_iff rfl).1 (gives_advance.1 ht)).1
    rw [hend] at hstart
    cases hstart

/-- Every reference outside of quotes in a condition that is accepted is in its tree, beginning
where its slice begins and ending where its slice ends just if the parentheses in its values come in
pairs. -/
theorem parseCondition_captured {text : String} (h : parseCondition text = .ok a)
    (hs : (TokenStream.ofText text.toList).step = (s, none)) (hc : Captured s slice) :
    ∃ n ∈ a.preorder, ReadFrom slice n := by
  rcases (parseCondition_eq_ok hs).1 h with ⟨hend, -⟩ | ⟨-, u, hlevel, hend⟩
  · exact absurd hc (not_captured_of_atEnd hend)
  · obtain ⟨c, -, hc'⟩ := at_of_step hs
    rcases (forms_level .disjunction hlevel).shows ⟨c, hc'⟩ hc with hshows | hc
    · obtain ⟨n, hn, hm⟩ := hshows
      obtain rfl := List.mem_singleton.1 hn
      exact hm
    · exact absurd hc (not_captured_of_atEnd hend)

/-- Two references whose quoted parentheses pair up with each other are found as one slice. Only the
first one is in the tree; the operator and the second one are left out. -/
theorem parseCondition_captured_dropped :
    let text := "$(A.Contains('(')) or $(B.Contains(')'))"
    ∃ s a, (TokenStream.ofText text.toList).step = (s, none) ∧ parseCondition text = .ok a ∧
      Captured s (.ofText text.toList) ∧ (∃ n ∈ a.preorder, ReadFrom (.ofText text.toList) n) ∧
      a.span = ⟨0, 18⟩ ∧ ∀ n ∈ a.preorder, n.span.stop < byteLength text.toList := by
  intro text
  let body : List Char := "A.Contains('(')) or $(B.Contains(')')".toList
  have hbody : text.toList = '$' :: '(' :: (body ++ [')']) := by decide +kernel
  have hclosing : TokenStream.closingParen? 1 (body ++ [')']) = some body.length := by
    decide +kernel
  obtain ⟨s, v, u, hs, -, hslice, -⟩ := sliced_whole (show isSigil '$' = true from rfl) hclosing
  rw [← hbody] at hs hslice
  have hread : ((parseCondition text).toOption.map fun a => (a.span, a.preorder.all fun n =>
      decide (n.span.stop < byteLength text.toList))) = some (⟨0, 18⟩, true) := by decide +kernel
  cases hparse : parseCondition text with
  | error e =>
    rw [hparse] at hread
    cases hread
  | ok a =>
    rw [hparse] at hread
    obtain ⟨hspan, hall⟩ := Prod.mk.inj (Option.some.inj hread)
    refine ⟨s, a, hs, rfl, .here hslice, parseCondition_captured hparse hs (.here hslice), hspan,
      fun n hn => ?_⟩
    exact of_decide_eq_true (List.all_eq_true.1 hall n hn)

end ProjectAnalysis.Expr
