import ProjectAnalysis.Proofs.LosslessTree

/-! What stands at the references of an expression: a property is referred to by its name, and an
item or metadata from the sigil to the parenthesis that closes the reference. This holds for
conditions as well, whose references are read from slices of the text. -/
namespace ProjectAnalysis.Expr

/-- What may stand in the reference to an item behind the name: transforms and a separator. -/
def ItemTail (cs : List Char) : Prop :=
  ∃ o c c₁ c₂ d transform separator, c.Reads cs d ∧ Spells o .transforms c transform c₁ ∧
    Spells o .separator c₁ separator c₂ ∧ Blanks c₂ d

/-- How what is referred to by a name may be written. -/
inductive Referent.Spelling : Referent → String → List Char → Prop
  | property {cs : List Char} (hname : IsName cs) : Spelling .property (String.ofList cs) cs
  | item {ws cs ws' tail : List Char} (hws : ∀ x ∈ ws, isBlank x = true) (hname : IsName cs)
      (hws' : ∀ x ∈ ws', isBlank x = true) (htail : ItemTail tail) :
      Spelling .item (String.ofList cs) ('@' :: '(' :: (ws ++ cs ++ ws' ++ tail ++ [')']))
  | metadata {ws cs ws' : List Char} (hws : ∀ x ∈ ws, isBlank x = true) (hname : IsName cs)
      (hws' : ∀ x ∈ ws', isBlank x = true) :
      Spelling (.metadata none) (String.ofList cs) ('%' :: '(' :: (ws ++ cs ++ ws' ++ [')']))
  | ownedMetadata {ws owner ws₁ ws₂ cs ws' : List Char} (hws : ∀ x ∈ ws, isBlank x = true)
      (howner : IsName owner) (hws₁ : ∀ x ∈ ws₁, isBlank x = true)
      (hws₂ : ∀ x ∈ ws₂, isBlank x = true) (hname : IsName cs)
      (hws' : ∀ x ∈ ws', isBlank x = true) :
      Spelling (.metadata (some (String.ofList owner))) (String.ofList cs)
        ('%' :: '(' :: (ws ++ owner ++ ws₁ ++ '.' :: (ws₂ ++ cs ++ ws' ++ [')'])))

/-- At the span of the reference it is written out. -/
def Reference.SpelledIn (text : List Char) (r : Reference) : Prop :=
  ∃ cs, r.span.slice? text = some cs ∧ r.referent.Spelling r.name cs

/-- Something is written at the span of the reference, and for a property it is the name. -/
def Reference.WrittenIn (text : List Char) (r : Reference) : Prop :=
  ∃ x cs, r.span.slice? text = some (x :: cs) ∧ (r.referent = .property → r.name.toList = x :: cs)

/-- If the node is a reference it is written out, and all children begin behind its beginning. -/
def Node.Refers (text : List Char) (a : Node) : Prop :=
  ∀ r, a.reference? = some r →
    r.SpelledIn text ∧ ∀ c ∈ a.children, r.span.start < c.span.start

/-- All nodes of some trees that are references are written in the text. -/
def Mentions (text : List Char) (xs : List Node) : Prop :=
  ∀ a ∈ xs, ∀ m ∈ a.preorder, m.Refers text

variable {text cs : List Char} {o : Options} {rule : TextRule} {c d e : Cursor} {a b : Node}
  {xs ys : List Node} {q : Bool} {r : Reference} {s t u v : TokenStream}

theorem Referent.Spelling.ne_nil {referent : Referent} {name : String}
    (h : referent.Spelling name cs) : ∃ x more, cs = x :: more := by
  cases h with
  | property hname =>
    obtain ⟨x, more, rfl, -⟩ := hname
    exact ⟨x, more, rfl⟩
  | item | metadata | ownedMetadata => exact ⟨_, _, rfl⟩

theorem Reference.SpelledIn.writtenIn (h : r.SpelledIn text) : r.WrittenIn text := by
  obtain ⟨cs, hslice, hspelling⟩ := h
  obtain ⟨x, more, rfl⟩ := hspelling.ne_nil
  refine ⟨x, more, hslice, fun hproperty => ?_⟩
  obtain ⟨referent, name, span⟩ := r
  subst hproperty
  cases hspelling
  exact String.toList_ofList

theorem Node.reference_of_mem (h : r ∈ a.references) :
    a.reference? = some r ∨ ∃ c ∈ a.children, r ∈ c.references := by
  obtain ⟨m, hm, hr⟩ := List.mem_filterMap.1 h
  rcases Node.mem_preorder_iff.1 hm with rfl | ⟨c, hc, hm⟩
  · exact Or.inl hr
  · exact Or.inr ⟨c, hc, List.mem_filterMap.2 ⟨m, hm, hr⟩⟩

theorem offset_lt_of_reads (h : c.Reads cs d) (hcs : cs ≠ []) : c.offset < d.offset := by
  rw [h.2]
  exact Nat.lt_add_of_pos_right (byteLength_pos hcs)

theorem mentions_nil : Mentions text [] :=
  throughout_nil

theorem Mentions.append (hx : Mentions text xs) (hy : Mentions text ys) :
    Mentions text (xs ++ ys) :=
  Throughout.append hx hy

theorem Mentions.head? (h : Mentions text xs) : Mentions text xs.head?.toList :=
  Throughout.head? h

theorem mentions_node (ha : a.Refers text) (h : Mentions text a.children) :
    Mentions text [a] :=
  throughout_node ha h

/-- A node that is no reference itself. -/
theorem mentions_around (ha : a.reference? = none) (h : Mentions text a.children) :
    Mentions text [a] :=
  mentions_node (fun _ hr => absurd (ha.symm.trans hr) nofun) h

theorem mentions_joined {span : Span} (h : Mentions text xs) :
    Mentions text [joined span q xs] := by
  unfold joined
  split
  · exact mentions_around rfl mentions_nil
  · exact h
  · exact mentions_around rfl h

/-- The name of a function and what it is called with. -/
theorem mentions_call {span : Span} {name : String} (h : Mentions text ys) :
    Mentions text (.mk span (.functionName name) :: ys) :=
  (mentions_around rfl mentions_nil : Mentions text [.mk span (.functionName name)]).append h

/-- A reference is written between its two ends as its kind is. -/
theorem Spells.spelling (h : Spells o .reference c [a] d) (ha : a.reference? = some r) :
    ∃ cs, c.Reads cs d ∧ r.referent.Spelling r.name cs := by
  cases h with
  | property => cases ha
  | item _ hopen w₁ hname w₃ ht hs w₆ hclose =>
    obtain rfl := Option.some.inj ha
    obtain ⟨ws, hws, hblank⟩ := w₁
    obtain ⟨ws', hws', hblank'⟩ := w₃
    obtain ⟨tail, htail⟩ := ht.reaches.trans (hs.reaches.trans w₆.reaches)
    have hend : Cursor.Reads _ (tail ++ [')']) d := Cursor.Reads.trans htail hclose
    refine ⟨_, hopen.trans (hws.trans (hname.1.trans (hws'.trans hend))), ?_⟩
    have hitem := Referent.Spelling.item hblank hname.2 hblank'
      ⟨o, _, _, _, _, _, _, htail, ht, hs, w₆⟩
    simpa only [List.cons_append, List.nil_append, List.append_assoc] using hitem
  | metadata _ hopen w₁ hname w₃ hclose =>
    obtain rfl := Option.some.inj ha
    obtain ⟨ws, hws, hblank⟩ := w₁
    obtain ⟨ws', hws', hblank'⟩ := w₃
    refine ⟨_, hopen.trans (hws.trans (hname.1.trans (hws'.trans hclose))), ?_⟩
    have hmetadata := Referent.Spelling.metadata hblank hname.2 hblank'
    simpa only [List.cons_append, List.nil_append, List.append_assoc] using hmetadata
  | ownedMetadata _ hopen w₁ howner w₃ hdot w₅ hname w₇ hclose =>
    obtain rfl := Option.some.inj ha
    obtain ⟨ws, hws, hblank⟩ := w₁
    obtain ⟨ws₁, hws₁, hblank₁⟩ := w₃
    obtain ⟨ws₂, hws₂, hblank₂⟩ := w₅
    obtain ⟨ws', hws', hblank'⟩ := w₇
    have htail := hdot.trans (hws₂.trans (hname.1.trans (hws'.trans hclose)))
    refine ⟨_, hopen.trans (hws.trans (howner.1.trans (hws₁.trans htail))), ?_⟩
    have hmetadata := Referent.Spelling.ownedMetadata hblank howner.2 hblank₁ hblank₂ hname.2
      hblank'
    simpa only [List.cons_append, List.nil_append, List.append_assoc] using hmetadata

/-- Whatever a reference holds comes behind the parenthesis that opens it. -/
theorem Spells.start_lt (h : Spells o .reference c [a] d) (hc : Inside text c) :
    ∀ x ∈ a.children, c.offset < x.span.start := by
  have hbehind {e : Cursor} {sigil : Char} (hopen : c.Reads [sigil, '('] e) : c.offset < e.offset :=
    offset_lt_of_reads hopen (List.cons_ne_nil _ _)
  intro x hx
  cases h with
  | property hopen w₁ body =>
    have hlaid := body.laid (hc.reaches (hopen.reaches.trans w₁.reaches))
    have hstart := Nat.le_trans w₁.reaches.offset_le (hlaid.of_mem hx).1
    exact Nat.lt_of_lt_of_le (hbehind hopen) hstart
  | item _ hopen w₁ hname w₃ ht hs =>
    have hhead := w₁.reaches.trans (hname.1.reaches.trans w₃.reaches)
    have hfirst := hc.reaches (hopen.reaches.trans hhead)
    have hlaid := (ht.laid hfirst).head?.append (hs.laid (hfirst.reaches ht.reaches)).head?
    have hstart := Nat.le_trans hhead.offset_le (hlaid.of_mem hx).1
    exact Nat.lt_of_lt_of_le (hbehind hopen) hstart
  | metadata | ownedMetadata => cases hx

theorem Node.span_of_reference (h : a.reference? = some r) : r.span = a.span := by
  obtain ⟨span, shape⟩ := a
  cases shape <;> first | (cases h; rfl) | cases h

theorem Spells.refers (h : Spells o .reference c [a] d) (hc : Inside text c) : a.Refers text := by
  intro r ha
  obtain ⟨cs, hread, hspelling⟩ := h.spelling ha
  have hspan : r.span = ⟨c.offset, d.offset⟩ := (Node.span_of_reference ha).trans h.isReference.2
  rw [Reference.SpelledIn, hspan]
  exact ⟨⟨cs, hc.slice?_eq hread, hspelling⟩, h.start_lt hc⟩

/-- The references that the grammar spells are written where they were read. -/
theorem Spells.mentions (h : Spells o rule c xs d) (hc : Inside text c) : Mentions text xs := by
  induction h with
  | noParts | noCall | noTransform | noSeparator => exact mentions_nil
  | body _ ih | call _ ih | quotedArgument _ ih | referenceArgument _ ih | afterValue _ _ ih
  | afterTransforms _ _ ih | arguments _ _ ih => exact ih hc
  | literal before hcs _ ih => exact (ih hc).append (mentions_around rfl mentions_nil)
  | part before _ ihbefore ih => exact (ihbefore hc).append (ih (hc.reaches before.reaches))
  | segment h ih => exact mentions_joined (ih hc)
  | nextSegment before hsep h ihbefore ih =>
    have hsegment := hc.reaches (before.reaches.trans hsep.reaches)
    exact (ihbefore hc).append (mentions_joined (ih hsegment))
  | property hopen w₁ _ _ _ ih =>
    exact mentions_around rfl (ih (hc.reaches (hopen.reaches.trans w₁.reaches)))
  | item ho hopen w₁ hname w₃ ht hs w₆ hclose iht ihs =>
    have hhead := hopen.reaches.trans (w₁.reaches.trans (hname.1.reaches.trans w₃.reaches))
    have hfirst := hc.reaches hhead
    have hsecond := hfirst.reaches ht.reaches
    have hitem := Spells.item ho hopen w₁ hname w₃ ht hs w₆ hclose
    exact mentions_node (hitem.refers hc) ((iht hfirst).head?.append (ihs hsecond).head?)
  | metadata ho hopen w₁ hname w₃ hclose =>
    have hmetadata := Spells.metadata ho hopen w₁ hname w₃ hclose
    exact mentions_node (hmetadata.refers hc) mentions_nil
  | ownedMetadata ho hopen w₁ howner w₃ hdot w₅ hname w₇ hclose =>
    have hmetadata := Spells.ownedMetadata ho hopen w₁ howner w₃ hdot w₅ hname w₇ hclose
    exact mentions_node (hmetadata.refers hc) mentions_nil
  | registry | number => exact mentions_around rfl mentions_nil
  | word => exact mentions_around rfl mentions_nil
  | name hname =>
    refine mentions_node (fun r hr => ?_) mentions_nil
    obtain rfl := Option.some.inj hr
    exact ⟨⟨_, hc.slice?_eq hname.1, .property hname.2⟩, List.forall_mem_nil _⟩
  | staticCall hclass w₁ hcolons w₃ hname w₅ _ ih =>
    have hbetween := w₁.reaches.trans (hcolons.reaches.trans w₃.reaches)
    have hfunction := hc.reaches (hclass.reaches.trans hbetween)
    have harguments := ih (hfunction.reaches (hname.1.reaches.trans w₅.reaches))
    exact mentions_around rfl
      ((mentions_around rfl mentions_nil).append (mentions_call harguments.head?))
  | member before hdot w₂ hname w₄ _ ihbefore ih =>
    have hfunction := hc.reaches (before.reaches.trans (hdot.reaches.trans w₂.reaches))
    have harguments := ih (hfunction.reaches (hname.1.reaches.trans w₄.reaches))
    exact mentions_around rfl ((ihbefore hc).append (mentions_call harguments.head?))
  | index before _ ihbefore ih =>
    exact mentions_around rfl ((ihbefore hc).append (ih (hc.reaches before.reaches)))
  | noArguments => exact mentions_around rfl mentions_nil
  | argumentList hopen w₁ _ _ ih =>
    exact mentions_around rfl (ih (hc.reaches (hopen.reaches.trans w₁.reaches)))
  | nextArgument before hsep w₂ _ _ ihbefore ih =>
    have hbetween := before.reaches.trans (hsep.reaches.trans w₂.reaches)
    exact (ihbefore hc).append (ih (hc.reaches hbetween))
  | quoted _ hcs _ h _ ih => exact mentions_joined (ih (hc.quoted hcs h.reaches).1)
  | quotedTransform before harrow w₂ _ _ ih =>
    exact ih (hc.reaches (before.reaches.trans (harrow.reaches.trans w₂.reaches)))
  | functionTransform before harrow w₂ hname w₄ _ ihbefore ih =>
    have hbetween := before.reaches.trans (harrow.reaches.trans w₂.reaches)
    have harguments := ih ((hc.reaches hbetween).reaches (hname.1.reaches.trans w₄.reaches))
    exact mentions_around rfl ((ihbefore hc).head?.append (mentions_call harguments))
  | separator hcomma w₁ _ ih => exact ih (hc.reaches (hcomma.reaches.trans w₁.reaches))

/-- What a quoted string of a condition stands for. -/
theorem mentions_of_stands (hc : Inside text c) (hs : s.At c) (hquoted : s.current.quoted = true)
    (h : Stands o s.current a) : Mentions text [a] := by
  obtain ⟨b, e, nodes, hnodes, hinside, rfl, -⟩ := spells_of_stands hc hs hquoted h
  exact mentions_joined (hnodes.mentions hinside)

theorem mentions_of_sliced {slice : Cursor} (hc : Inside text c) (hs : s.At c)
    (hslice : Sliced s slice u) (hu : u.current.kind = .rightParen)
    (h : Parsed.Gives (reference o slice) a e) : Mentions text [a] := by
  obtain ⟨hreference, hinside, -⟩ := spells_of_sliced hc hs hslice hu h
  exact hreference.mentions hinside

/-- Behind a construct and a token there is the next construct of a condition. -/
theorem Forms.next {rule : Rule} (h : Forms o rule s xs t) (hs : s.At c) (hc : Inside text c)
    (hu : Parsed.Gives (advance t) () u) : ∃ e, u.At e ∧ Inside text e := by
  obtain ⟨d, hd, hcd, -⟩ := h.laid hs hc
  obtain ⟨e, he, -, hde⟩ := hd.advance hu
  exact ⟨e, he, hc.reaches (hcd.trans hde)⟩

/-- The references of a condition are written where they were read. -/
theorem Forms.mentions {rule : Rule} (h : Forms o rule s xs u) (hs : s.At c)
    (hc : Inside text c) : Mentions text xs := by
  induction h generalizing c with
  | disjunction _ ih | conjunction _ ih | negation _ ih | relation _ ih | arguments _ ih
  | factors _ ih => exact ih hs hc
  | or hleft _ hu _ ihleft ihright | and hleft _ hu _ ihleft ihright
  | comparison hleft _ hu _ ihleft ihright =>
    obtain ⟨e, he, hinside⟩ := hleft.next hs hc hu
    exact mentions_around rfl ((ihleft hs hc).append (ihright he hinside))
  | comma hleft _ hu _ ihleft ihright =>
    obtain ⟨e, he, hinside⟩ := hleft.next hs hc hu
    exact (ihleft hs hc).append (ihright he hinside)
  | not _ ht _ ih =>
    obtain ⟨e, he, -, hce⟩ := hs.advance ht
    exact mentions_around rfl (ih he (hc.reaches hce))
  | parentheses _ ht _ _ _ ih =>
    obtain ⟨e, he, -, hce⟩ := hs.advance ht
    exact ih he (hc.reaches hce)
  | number | word => exact mentions_around rfl mentions_nil
  | quoted _ hquoted h _ => exact mentions_of_stands hc hs hquoted h
  | call _ _ ht _ hu _ _ _ ih =>
    obtain ⟨c₁, h₁, -, hc₁⟩ := hs.advance ht
    obtain ⟨c₂, h₂, -, h₁₂⟩ := h₁.advance hu
    refine mentions_around rfl (mentions_call (mentions_around rfl ?_))
    exact ih h₂ (hc.reaches (hc₁.trans h₁₂))
  | reference hslice h hu _ => exact mentions_of_sliced hc hs hslice hu h
  | noArguments => exact mentions_nil

/-- All nodes of an expression that are references are written where they were read. -/
theorem parse_refers {text : String} {n : Node} (h : parse o text = .ok n) :
    ∀ m ∈ n.preorder, m.Refers text.toList := by
  have hstart : Inside text.toList (.ofText text.toList) := inside_ofText _
  suffices hall : Mentions text.toList [n] from hall n List.mem_cons_self
  replace h := mapError_eq_ok.1 h
  split at h
  · obtain ⟨s, hstep, ⟨-, rfl⟩ | ⟨-, u, hlevel, -⟩⟩ := wholeCondition_eq_ok.1 h
    · exact mentions_around rfl mentions_nil
    · obtain ⟨c, hblanks, hc⟩ := at_of_step hstep
      exact (forms_level .disjunction hlevel).mentions hc (hstart.reaches hblanks.reaches)
  · obtain ⟨d, hsegments⟩ := from_eq_ok.1 h
    obtain ⟨-, nodes, hspells, rfl | rfl⟩ := spells_segments hsegments
    · exact hspells.mentions hstart
    · exact mentions_around rfl (hspells.mentions hstart)

/-- At every reference of an expression that is read something is written, for a property its
name. -/
theorem parse_mentions {text : String} {n : Node} (h : parse o text = .ok n) :
    ∀ r ∈ n.references, r.WrittenIn text.toList := by
  intro r hr
  obtain ⟨m, hm, href⟩ := List.mem_filterMap.1 hr
  exact (parse_refers h m hm r href).1.writtenIn

end ProjectAnalysis.Expr
