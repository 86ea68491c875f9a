import ProjectAnalysis.Proofs.PlainReading

/-! References that are printed are read back: their values and members, their transforms and
separators, over the arguments and the quoted texts inside them. -/
namespace ProjectAnalysis.Expr

variable {n : Nat} {c d e : Cursor} {a : Node}

theorem gives_functionName_of_named {f : List Char} (hsize : Position.size c < n)
    (hname : Named c f d) (hd : Delimited d) : (functionName : Read n Node).Gives c
      (.mk ⟨c.offset, d.offset⟩ (.functionName (String.ofList f))) d :=
  gives_functionName.2 ⟨hsize, f, hname, hname.nameLength_eq hd, rfl⟩

theorem gives_name_of_named {missing : SyntaxCause} {f : List Char} (hsize : Position.size c < n)
    (hname : Named c f d) (hd : Delimited d) :
    (name missing : Read n String).Gives c (String.ofList f) d :=
  gives_name.2 ⟨hsize, f, hname, hname.nameLength_eq hd, rfl⟩

section
variable {inner : Inner n} {o : Options}

theorem argumentList_passes {opening close : Char} (hsize : Position.size c < n)
    (hpeek : c.peek ≠ some opening) : (argumentList inner o opening close).Passes c := by
  unfold argumentList
  exact Branch.passes_at.2 (Branch.passes_andThen.2 (Branch.onChar_passes hsize hpeek))

theorem dotMember_passes {target : Node} (hsize : Position.size c < n) (hpeek : c.peek ≠ some '.') :
    (dotMember inner o target).Passes c :=
  Branch.passes_andThen.2 (Branch.onChar_passes hsize hpeek)

/-- After the last member a value is complete. -/
theorem gives_members_self {target : Node} (hsize : Position.size c < n)
    (hsolid : c.skipWhile isBlank = c) (hdot : c.peek ≠ some '.') (hindex : c.peek ≠ some '[') :
    (members inner o target).Gives c target c := by
  refine Reader.gives_solid_bind hsolid ?_
  apply Branch.Passes.fold
  refine Branch.passes_orElse.2 ⟨dotMember_passes hsize hdot, ?_⟩
  exact Branch.passes_andThen.2 (argumentList_passes hsize hindex)

/-- The members after a value are those after its first member. -/
theorem gives_members_step {target next x : Node} (hc : c.skipWhile isBlank = c)
    (hd : d.skipWhile isBlank = d)
    (hstep : ((dotMember inner o target).orElse (indexMember inner o target)).Takes c next d)
    (h : (members inner o next).Gives d x e) : (members inner o target).Gives c x e := by
  obtain ⟨-, hfold⟩ := Reader.gives_blanks_bind.1 h
  rw [hd] at hfold
  refine Reader.gives_solid_bind hc ?_
  exact hstep.fold hfold

end

theorem readsBack_noCall : ReadsBack .noCall := by
  intro n c d hsize hread ⟨hd, hparen⟩
  obtain rfl := Cursor.reads_nil_iff.1 hread
  exact ⟨hd, none, (argumentList_passes hsize hparen).optional, rfl⟩

theorem readsBack_call {l : Phrase (.argumentList '(' ')')} (hl : ReadsBack l) :
    ReadsBack (.call l) := by
  intro n c d hsize hread _
  obtain ⟨a, ha, htree⟩ := hl hsize hread (Or.inl rfl)
  refine ⟨delimited_of_peek (peek_argumentList hread) rfl, some a, ?_, congrArg some htree⟩
  exact ha.optional

section
variable {inner : Inner n} {o : Options}

theorem staticCall_passes (hsize : Position.size c < n) (hpeek : c.peek ≠ some '[') :
    (staticCall inner o).Passes c := by
  unfold staticCall
  exact Branch.passes_at.2 (Branch.passes_andThen.2 (Branch.onChar_passes hsize hpeek))

/-- The value that begins with a name is the name and its members. -/
theorem gives_propertyBody_of_named {x : List Char} {y : Node} (hsize : Position.size c < n)
    (hname : Named c x d) (hd : Delimited d)
    (h : (members inner o (.mk ⟨c.offset, d.offset⟩ (.propertyName (String.ofList x)))).Gives d
      y e) : (propertyBody inner o).Gives c y e := by
  -- A name begins neither a static call nor a registry value.
  have hpasses : (staticCall inner o).Passes c := by
    refine staticCall_passes hsize fun hpeek => ?_
    obtain ⟨y, hy, hstart⟩ := hname.peek
    obtain rfl := Option.some.inj (hy.symm.trans hpeek)
    cases hstart
  refine Reader.gives_bind.2 ⟨none, c, hpasses.optional, ?_⟩
  refine Reader.gives_place_bind.2 ?_
  rw [if_neg (by rw [hname.not_registryLead hd]; exact Bool.false_ne_true)]
  refine Reader.gives_bind.2 ⟨String.ofList x, d, ?_, Reader.gives_offset_bind.2 h⟩
  exact gives_name_of_named hsize hname hd

end

theorem readsBack_name (x : NameText) : ReadsBack (.name x) := by
  intro n c d hsize hread ⟨hd, hparen⟩
  have hname : Named c x.1 d := ⟨hread, x.2⟩
  refine ⟨hname.solid, .mk ⟨c.offset, d.offset⟩ (.propertyName (String.ofList x.1)), ?_,
    Node.tree_mk _ _⟩
  exact fun y e hmembers => gives_propertyBody_of_named hsize hname hd hmembers

theorem readsBack_staticCall {cls : ClassText} {f : NameText} {call : Phrase .call}
    (hcall : ReadsBack call) : ReadsBack (.staticCall cls f call) := by
  intro n c d hsize hread ⟨hd, hparen⟩
  obtain ⟨c₁, hopen, h₁⟩ := Cursor.Reads.split_cons hread
  obtain ⟨c₂, hcls, h₂⟩ := h₁.split
  obtain ⟨c₃, hclose, h₃⟩ := h₂.split_cons
  obtain ⟨c₄, hcolons, h₄⟩ := Cursor.Reads.split_pair h₃
  obtain ⟨c₅, hf, hcall'⟩ := h₄.split
  have hsize₁ := hopen.size_lt hsize
  have hsize₂ := hcls.size_lt hsize₁
  have hsize₃ := hclose.size_lt hsize₂
  have hsize₄ := hcolons.size_lt hsize₃
  have hsize₅ := hf.size_lt hsize₄
  obtain ⟨hd₅, found, hfound, hmeaning⟩ := hcall hsize₅ hcall' ⟨hd, hparen⟩
  obtain ⟨hne, htrim, hbracket⟩ := cls.2
  have hname : Named c₄ f.1 c₅ := ⟨hf, f.2⟩
  let target : Node := .mk ⟨c.offset, c₃.offset⟩ (.classReference (String.ofList cls.1))
  let function : Node := .mk ⟨c₄.offset, c₅.offset⟩ (.functionName (String.ofList f.1))
  let result : Node := .mk ⟨c.offset, d.offset⟩ (.invocation target (some function) found)
  have hsolid : c.skipWhile isBlank = c := Cursor.skipWhile_of_peek hread.peek (by decide)
  have hsolid₃ : c₃.skipWhile isBlank = c₃ := Cursor.skipWhile_of_peek hcolons.peek (by decide)
  refine ⟨hsolid, result, fun x e hmembers => ?_, ?_⟩
  · have hclass : (Reader.takeWhile (· != ']') : Read n _).Gives c₁ cls.1 c₂ := by
      refine gives_takeWhile_of_reads hsize₁ hcls (fun y hy => ?_) fun y hy => ?_
      · exact bne_iff_ne.2 fun heq => hbracket (heq ▸ hy)
      · obtain rfl := Option.some.inj (h₂.peek.symm.trans hy)
        rfl
    have hnonempty : ¬(trim cls.1).isEmpty = true := by
      rw [htrim, List.isEmpty_iff]
      exact hne
    have hstatic : (staticCall anywhere .full : Branch Cursor Fault n _).Takes c x e := by
      unfold staticCall
      refine Branch.takes_at.2 (Branch.takes_andThen.2 ?_)
      refine ⟨'[', c₁, Branch.onChar_takes hsize hopen, ?_⟩
      refine Reader.gives_bind.2 ⟨cls.1, c₂, hclass, gives_failHere_else.2 ⟨hnonempty, ?_⟩⟩
      refine Reader.gives_bind.2 ⟨(), c₃, gives_expect.2 ⟨hsize₂, hclose⟩, ?_⟩
      refine Reader.gives_offset_bind.2 (Reader.gives_solid_bind hsolid₃ ?_)
      refine Reader.gives_bind.2 ⟨true, c₄, Reader.gives_eat_of_reads hsize₃ hcolons, ?_⟩
      refine gives_failHere_else.2 ⟨by decide, Reader.gives_solid_bind hname.solid ?_⟩
      refine Reader.gives_bind.2 ⟨function, c₅, gives_functionName_of_named hsize₄ hname hd₅, ?_⟩
      refine Reader.gives_solid_bind hd₅.solid ?_
      refine Reader.gives_bind.2 ⟨found, d, hfound, Reader.gives_offset_bind.2 ?_⟩
      rw [htrim]
      exact hmembers
    have hsize' : Position.size e < n := Nat.lt_trans hstatic.size_lt hsize
    refine Reader.gives_bind.2 ⟨some x, e, ?_, Reader.gives_pure.2 ⟨hsize', rfl, rfl⟩⟩
    exact hstatic.optional
  · have hfunction : function.tree = .mk (.functionName (String.ofList f.1)) := Node.tree_mk _ _
    have htarget : target.tree = .mk (.classReference (String.ofList cls.1)) := Node.tree_mk _ _
    rw [Node.tree_mk, Shape.map, hmeaning, Option.map_some, hfunction, htarget]
    rfl

theorem readsBack_member {target : Phrase .value} {f : NameText} {call : Phrase .call}
    (htarget : ReadsBack target) (hcall : ReadsBack call) : ReadsBack (.member target f call) := by
  intro n c d hsize hread ⟨hd, hparen⟩
  obtain ⟨c₁, h₁, hrest⟩ := Cursor.Reads.split hread
  obtain ⟨c₂, hdot, hrest'⟩ := hrest.split_cons
  obtain ⟨c₃, hf, hcall'⟩ := hrest'.split
  have hsize₁ := h₁.size_lt hsize
  have hsize₂ := hdot.size_lt hsize₁
  have hsize₃ := hf.size_lt hsize₂
  have hd₁ : Delimited c₁ := delimited_of_peek hrest.peek rfl
  have hparen₁ : c₁.peek ≠ some '(' := by rw [hrest.peek]; decide
  obtain ⟨hsolid, b, hbody, htree⟩ := htarget hsize h₁ ⟨hd₁, hparen₁⟩
  obtain ⟨hd₃, found, hfound, hmeaning⟩ := hcall hsize₃ hcall' ⟨hd, hparen⟩
  have hname : Named c₂ f.1 c₃ := ⟨hf, f.2⟩
  have hsize' := hcall'.size_lt hsize₃
  let function : Node := .mk ⟨c₂.offset, c₃.offset⟩ (.functionName (String.ofList f.1))
  let next : Node := .mk ⟨b.span.start, d.offset⟩ (.invocation b (some function) found)
  -- The value before it has been read by then, and the member is one more step.
  have hstep : (dotMember anywhere .full b : Branch Cursor Fault n _).Takes c₁ next d := by
    refine Branch.takes_andThen.2 ⟨'.', c₂, Branch.onChar_takes hsize₁ hdot, ?_⟩
    refine Reader.gives_solid_bind hname.solid ?_
    refine Reader.gives_bind.2 ⟨function, c₃, gives_functionName_of_named hsize₂ hname hd₃, ?_⟩
    refine Reader.gives_solid_bind hd₃.solid ?_
    refine Reader.gives_bind.2 ⟨found, d, hfound, Reader.gives_offset_bind.2 ?_⟩
    refine Reader.gives_solid_bind hd.solid ?_
    exact Reader.gives_pure.2 ⟨hsize', rfl, rfl⟩
  refine ⟨hsolid, next, fun x e hmembers => hbody x e ?_, ?_⟩
  · have hstep' := Branch.takes_orElse (q := indexMember anywhere .full b).2 (Or.inl hstep)
    exact gives_members_step hd₁.solid hd.solid hstep' hmembers
  · have hfunction : function.tree = .mk (.functionName (String.ofList f.1)) := Node.tree_mk _ _
    rw [Node.tree_mk, Shape.map, htree, hmeaning, Option.map_some, hfunction]
    rfl

theorem readsBack_index {target : Phrase .value} {l : Phrase (.argumentList '[' ']')}
    (htarget : ReadsBack target) (hl : ReadsBack l) : ReadsBack (.index target l) := by
  intro n c d hsize hread ⟨hd, hparen⟩
  obtain ⟨c₁, h₁, hlist⟩ := Cursor.Reads.split hread
  have hsize₁ := h₁.size_lt hsize
  have hpeek := peek_argumentList hlist
  have hd₁ : Delimited c₁ := delimited_of_peek hpeek rfl
  have hparen₁ : c₁.peek ≠ some '(' := by rw [hpeek]; decide
  have hdot : c₁.peek ≠ some '.' := by rw [hpeek]; decide
  obtain ⟨hsolid, b, hbody, htree⟩ := htarget hsize h₁ ⟨hd₁, hparen₁⟩
  obtain ⟨as, has, hmeaning⟩ := hl hsize₁ hlist (Or.inr rfl)
  have hsize' := hlist.size_lt hsize₁
  let next : Node := .mk ⟨b.span.start, d.offset⟩ (.invocation b none (some as))
  have hstep : (indexMember anywhere .full b : Branch Cursor Fault n _).Takes c₁ next d := by
    refine Branch.takes_andThen.2 ⟨as, d, has, Reader.gives_offset_bind.2 ?_⟩
    refine Reader.gives_solid_bind hd.solid ?_
    exact Reader.gives_pure.2 ⟨hsize', rfl, rfl⟩
  refine ⟨hsolid, next, fun x e hmembers => hbody x e ?_, ?_⟩
  · have hpasses : (dotMember anywhere .full b : Branch Cursor Fault n Node).Passes c₁ :=
      dotMember_passes hsize₁ hdot
    have hstep' := Branch.takes_orElse.2 (Or.inr ⟨hpasses, hstep⟩)
    exact gives_members_step hd₁.solid hd.solid hstep' hmembers
  · rw [Node.tree_mk, Shape.map, htree, Option.map_some, hmeaning]
    rfl

theorem readsBack_body {v : Phrase .value} (hv : ReadsBack v) : ReadsBack (.body v) := by
  intro n c d hsize hread hpeek
  have hd : Delimited d := delimited_of_peek hpeek rfl
  have hne {x : Char} (hx : ')' ≠ x) : d.peek ≠ some x := by
    rw [hpeek]
    exact fun heq => hx (Option.some.inj heq)
  obtain ⟨hsolid, a, hbody, htree⟩ := hv hsize hread ⟨hd, hne (by decide)⟩
  refine ⟨hsolid, a, hbody a d ?_, htree⟩
  exact gives_members_self (Cursor.Reads.size_lt hread hsize) hd.solid (hne (by decide))
    (hne (by decide))

theorem readsBack_registry (text : RegistryText) : ReadsBack (.registry text) := by
  intro n c d hsize hread hpeek
  obtain ⟨e, hlead, htext⟩ := Cursor.Reads.split hread
  obtain ⟨hend, hparen⟩ := text.2
  have hnext : c.peek = some 'R' := hlead.peek
  have hsize' := hlead.size_lt hsize
  have hd := htext.size_lt hsize'
  have hpasses : (staticCall anywhere .full : Branch Cursor Fault n Node).Passes c :=
    staticCall_passes hsize (by rw [hnext]; decide)
  have hlength : "Registry:".toList.length = registryLead.length := by decide
  -- The reader takes the lead in any case; it is printed in one.
  have htake : c.rest.take registryLead.length = "Registry:".toList := by
    rw [hlead.1]
    exact List.take_left' hlength
  have hskip : c.skip registryLead.length = e := by
    rw [← hlength]
    exact hlead.skip_eq
  have hstarts : startsIgnoringCase registryLead c.rest = true := by
    rw [startsIgnoringCase, htake]
    rfl
  have hvalue : (Reader.takeWhile (· != ')') : Read n _).Gives e text.1 d := by
    refine gives_takeWhile_of_reads hsize' htext (fun y hy => ?_) fun y hy => ?_
    · exact bne_iff_ne.2 fun heq => hparen (heq ▸ hy)
    · obtain rfl := Option.some.inj (hpeek.symm.trans hy)
      rfl
  let result : Node := .mk ⟨c.offset, d.offset⟩ (.registryValue (String.ofList (trimEnd text.1)))
  refine ⟨Cursor.skipWhile_of_peek hnext (by decide), result, ?_, ?_⟩
  · refine Reader.gives_bind.2 ⟨none, c, hpasses.optional, ?_⟩
    refine Reader.gives_place_bind.2 ?_
    rw [if_pos hstarts]
    refine Reader.gives_offset_bind.2 (Reader.gives_bind.2 ⟨"Registry:".toList, e, ?_, ?_⟩)
    · exact Reader.gives_take.2 ⟨hsize, htake, hskip⟩
    · refine Reader.gives_bind.2 ⟨text.1, d, hvalue, Reader.gives_offset_bind.2 ?_⟩
      exact Reader.gives_pure.2 ⟨hd, rfl, rfl⟩
  · have htree : result.tree = .mk (.registryValue (String.ofList (trimEnd text.1))) :=
      Node.tree_mk _ _
    rw [htree, hend]
    rfl

theorem readsBack_property {b : Phrase .body} (hb : ReadsBack b) : ReadsBack (.property b) := by
  intro n c d _ hread _
  obtain ⟨e, hopen, hrest⟩ := Cursor.Reads.split_pair hread
  obtain ⟨f, hbody, hclose⟩ := hrest.split
  have hsize := hopen.shorter
  obtain ⟨hsolid, a, ha, htree⟩ := hb hsize hbody hclose.peek
  have hsize' := hbody.size_lt hsize
  refine ⟨.mk ⟨c.offset, d.offset⟩ (.property a), ?_, ?_⟩
  · rw [reference]
    refine gives_referenceWith.2 ⟨'$', e, hopen, Or.inl ⟨rfl, ?_⟩⟩
    refine Reader.gives_solid_bind hsolid ?_
    refine Reader.gives_bind.2 ⟨a, f, ha, gives_closed.2 ⟨hsize', ?_, rfl⟩⟩
    rwa [(delimited_of_peek hclose.peek rfl).solid]
  · rw [Node.tree_mk, Shape.map, htree]
    rfl

theorem readsBack_metadata (x : NameText) : ReadsBack (.metadata x) := by
  intro n c d _ hread _
  obtain ⟨e, hopen, hrest⟩ := Cursor.Reads.split_pair hread
  obtain ⟨f, hx, hclose⟩ := hrest.split
  have hsize := hopen.shorter
  have hsize' := hx.size_lt hsize
  have hname : Named e x.1 f := ⟨hx, x.2⟩
  have hf : Delimited f := delimited_of_peek hclose.peek rfl
  refine ⟨.mk ⟨c.offset, d.offset⟩ (.metadata none (String.ofList x.1)), ?_, Node.tree_mk _ _⟩
  rw [reference]
  refine gives_referenceWith.2 ⟨'%', e, hopen, Or.inr (Or.inr ⟨rfl, ?_⟩)⟩
  unfold metadataFrom
  refine gives_failAt_else.2 ⟨by decide, Reader.gives_solid_bind hname.solid ?_⟩
  refine Reader.gives_bind.2 ⟨String.ofList x.1, f, ?_, Reader.gives_blanks_bind.2 ⟨hsize', ?_⟩⟩
  · exact gives_name_of_named hsize hname hf
  · have hdot : f.peek ≠ some '.' := by rw [hclose.peek]; decide
    rw [hf.solid]
    refine Reader.gives_bind.2 ⟨false, f, Reader.gives_eat_of_peek hsize' hdot, ?_⟩
    refine Reader.gives_bind.2 ⟨none, f, Reader.gives_pure.2 ⟨hsize', rfl, rfl⟩, ?_⟩
    refine gives_closed.2 ⟨hsize', ?_, rfl⟩
    rwa [hf.solid]

theorem readsBack_ownedMetadata (owner x : NameText) : ReadsBack (.ownedMetadata owner x) := by
  intro n c d _ hread _
  obtain ⟨e, hopen, hrest⟩ := Cursor.Reads.split_pair hread
  obtain ⟨f, howner, hrest'⟩ := hrest.split
  obtain ⟨g, hdot, hrest''⟩ := hrest'.split_cons
  obtain ⟨k, hx, hclose⟩ := hrest''.split
  have hsize := hopen.shorter
  have hsize₁ := howner.size_lt hsize
  have hsize₂ := hdot.size_lt hsize₁
  have hsize₃ := hx.size_lt hsize₂
  have hfirst : Named e owner.1 f := ⟨howner, owner.2⟩
  have hsecond : Named g x.1 k := ⟨hx, x.2⟩
  have hf : Delimited f := delimited_of_peek hrest'.peek rfl
  have hk : Delimited k := delimited_of_peek hclose.peek rfl
  refine ⟨.mk ⟨c.offset, d.offset⟩
    (.metadata (some (String.ofList owner.1)) (String.ofList x.1)), ?_, Node.tree_mk _ _⟩
  rw [reference]
  refine gives_referenceWith.2 ⟨'%', e, hopen, Or.inr (Or.inr ⟨rfl, ?_⟩)⟩
  unfold metadataFrom
  refine gives_failAt_else.2 ⟨by decide, Reader.gives_solid_bind hfirst.solid ?_⟩
  refine Reader.gives_bind.2 ⟨String.ofList owner.1, f, ?_, Reader.gives_blanks_bind.2 ⟨hsize₁, ?_⟩⟩
  · exact gives_name_of_named hsize hfirst hf
  · rw [hf.solid]
    refine Reader.gives_bind.2 ⟨true, g, Reader.gives_eat_of_reads hsize₁ hdot, ?_⟩
    refine Reader.gives_solid_bind hsecond.solid ?_
    refine Reader.gives_bind.2 ⟨some (String.ofList x.1), k, Reader.gives_map.2 ⟨_, ?_, rfl⟩, ?_⟩
    · exact gives_name_of_named hsize₂ hsecond hk
    · refine gives_closed.2 ⟨hsize₃, ?_, rfl⟩
      rwa [hk.solid]

section
variable {inner : Inner n} {o : Options} {previous next : Option Node}

/-- What follows the arrow of a transform. -/
def transformBehind (inner : Inner n) (o : Options) (previous : Option Node) :
    Read n (Option Node) := do
  Reader.blanks
  let here ← Reader.offset
  let quotedNext := ((← Reader.peek).map isQuote).getD false
  if quotedNext && previous.isSome then failAt .repeatedTransform here
  let node ← match ← (quoted inner { o with metadata := true }).optional with
    | some node => pure node
    | none => do
      let function ← functionName
      Reader.blanks
      match ← (callArguments inner o).optional with
      | none => failHere (.expected '(' (← Reader.peek))
      | some arguments =>
        let start := (previous.map (·.span.start)).getD here
        pure (.mk ⟨start, ← Reader.offset⟩ (.itemFunction previous function arguments))
  Reader.blanks
  return some node

theorem takes_transformAfter (hsize : Position.size c < n) (harrow : c.Reads ['-', '>'] e)
    (h : (transformBehind inner o previous).Gives e next d) :
    (transformAfter inner o previous).Takes c next d := by
  obtain ⟨c₁, hdash, htip⟩ := harrow.split_cons
  have hprefix : ['-', '>'].isPrefixOf c.rest = true :=
    List.isPrefixOf_iff_prefix.2 ⟨e.rest, harrow.1.symm⟩
  have htake : c₁.rest.take 1 = ['>'] := by
    rw [htip.1]
    rfl
  unfold transformAfter
  refine Branch.takes_at.2 (Branch.takes_andThen.2 ⟨'-', c₁, ?_, ?_⟩)
  · exact Branch.takes_onChar.2 ⟨hsize, hprefix, hdash⟩
  · refine Reader.gives_bind.2 ⟨['>'], e, ?_, h⟩
    exact Reader.gives_take.2 ⟨hdash.size_lt hsize, htake, htip.skip_eq⟩

theorem transformAfter_passes (hsize : Position.size c < n) (hpeek : c.peek ≠ some '-') :
    (transformAfter inner o previous).Passes c := by
  have hprefix : ['-', '>'].isPrefixOf c.rest = false := by
    refine Bool.eq_false_iff.2 fun hprefix => ?_
    obtain ⟨tail, htail⟩ := List.isPrefixOf_iff_prefix.1 hprefix
    exact hpeek (by rw [Cursor.peek, ← htail]; rfl)
  unfold transformAfter
  refine Branch.passes_at.2 (Branch.passes_andThen.2 ?_)
  exact Branch.passes_onChar.2 ⟨hsize, fun _ _ => hprefix⟩

end

theorem readsBack_noTransform : ReadsBack .noTransform := by
  intro n c d hsize hread hd
  obtain rfl := Cursor.reads_nil_iff.1 hread
  exact ⟨hd, none, fun x e h => h, rfl⟩

theorem readsBack_quotedTransform {l : Phrase .quoted} (hl : ReadsBack l) :
    ReadsBack (.quotedTransform l) := by
  intro n c d hsize hread hd
  obtain ⟨e, harrow, hquoted⟩ := Cursor.Reads.split_pair hread
  have hsize' := harrow.size_lt hsize
  obtain ⟨a, ha, htree⟩ := hl hsize' hquoted trivial
  have hend := hquoted.size_lt hsize'
  -- Nothing stands before a quoted transform, so no other one was read.
  have hstep : (transformAfter anywhere .full none : Branch Cursor Fault n _).Takes c
      (some a) d := by
    refine takes_transformAfter hsize harrow (Reader.gives_solid_bind (quoted_solid ha) ?_)
    refine Reader.gives_offset_bind.2 (Reader.gives_peek_bind.2 (gives_failAt_else.2 ⟨by simp, ?_⟩))
    refine Reader.gives_bind.2 ⟨some a, d, ha.optional, ?_⟩
    refine Reader.gives_bind.2 ⟨a, d, Reader.gives_pure.2 ⟨hend, rfl, rfl⟩, ?_⟩
    refine Reader.gives_solid_bind hd.solid ?_
    exact Reader.gives_pure.2 ⟨hend, rfl, rfl⟩
  exact ⟨delimited_of_arrow harrow, some a, fun x e h => hstep.fold h, congrArg some htree⟩

theorem readsBack_functionTransform {before : Phrase .transforms} {f : NameText}
    {l : Phrase (.argumentList '(' ')')} (hbefore : ReadsBack before) (hl : ReadsBack l) :
    ReadsBack (.functionTransform before f l) := by
  intro n c d hsize hread hd
  obtain ⟨c₁, h₁, hrest⟩ := Cursor.Reads.split hread
  obtain ⟨c₂, harrow, hrest'⟩ := Cursor.Reads.split_pair hrest
  obtain ⟨c₃, hf, hlist⟩ := hrest'.split
  have hsize₁ := h₁.size_lt hsize
  have hsize₂ := harrow.size_lt hsize₁
  have hsize₃ := hf.size_lt hsize₂
  have hend := hlist.size_lt hsize₃
  have hd₁ : Delimited c₁ := delimited_of_arrow harrow
  obtain ⟨hc, found, hfold, hmeaning⟩ := hbefore hsize h₁ hd₁
  obtain ⟨as, has, htree⟩ := hl hsize₃ hlist (Or.inl rfl)
  have hd₃ : Delimited c₃ := delimited_of_peek (peek_argumentList hlist) rfl
  have hname : Named c₂ f.1 c₃ := ⟨hf, f.2⟩
  -- A function that is named after the arrow is not taken for a quoted transform.
  have hquote : ∀ x, c₂.peek = some x → isQuote x = false := by
    intro x hx
    obtain ⟨y, hpeek, hy⟩ := hname.peek
    obtain rfl := Option.some.inj (hpeek.symm.trans hx)
    exact (isPlain_of_start (Or.inr (Or.inr hy))).1
  have hpasses : (quoted anywhere .full : Branch Cursor Fault n _).Passes c₂ :=
    passes_quoted.2 ⟨hsize₂, hquote⟩
  have hfirst : ¬((c₂.peek.map isQuote).getD false && found.isSome) = true := by
    cases hx : c₂.peek with
    | none => exact Bool.false_ne_true
    | some x =>
      rw [Option.map_some, hquote x hx]
      exact Bool.false_ne_true
  let function : Node := .mk ⟨c₂.offset, c₃.offset⟩ (.functionName (String.ofList f.1))
  let next : Node := .mk ⟨(found.map (·.span.start)).getD c₂.offset, d.offset⟩
    (.itemFunction found function as)
  have hstep : (transformAfter anywhere .full found : Branch Cursor Fault n _).Takes c₁
      (some next) d := by
    refine takes_transformAfter hsize₁ harrow (Reader.gives_solid_bind hname.solid ?_)
    refine Reader.gives_offset_bind.2 (Reader.gives_peek_bind.2 (gives_failAt_else.2 ⟨hfirst, ?_⟩))
    refine Reader.gives_bind.2 ⟨none, c₂, hpasses.optional, ?_⟩
    refine Reader.gives_bind.2 ⟨function, c₃, gives_functionName_of_named hsize₂ hname hd₃, ?_⟩
    refine Reader.gives_solid_bind hd₃.solid ?_
    refine Reader.gives_bind.2 ⟨some as, d, has.optional, ?_⟩
    refine Reader.gives_offset_bind.2 (Reader.gives_bind.2 ⟨next, d, ?_, ?_⟩)
    · exact Reader.gives_pure.2 ⟨hend, rfl, rfl⟩
    · refine Reader.gives_solid_bind hd.solid ?_
      exact Reader.gives_pure.2 ⟨hend, rfl, rfl⟩
  refine ⟨hc, some next, fun x e h => hfold x e (hstep.fold h), ?_⟩
  have hfunction : function.tree = .mk (.functionName (String.ofList f.1)) := Node.tree_mk _ _
  rw [Option.map_some, Node.tree_mk, Shape.map, hmeaning, htree, hfunction]
  rfl

theorem readsBack_noSeparator : ReadsBack .noSeparator := by
  intro n c d hsize hread hpeek
  obtain rfl := Cursor.reads_nil_iff.1 hread
  have hcomma : c.peek ≠ some ',' := by rw [hpeek]; decide
  refine ⟨delimited_of_peek hpeek rfl, by rw [hpeek]; decide, none, ?_, rfl⟩
  apply Branch.Passes.optional
  exact Branch.passes_andThen.2 (Branch.onChar_passes hsize hcomma)

theorem readsBack_separator {l : Phrase .quoted} (hl : ReadsBack l) : ReadsBack (.separator l) := by
  intro n c d hsize hread _
  obtain ⟨e, hcomma, hquoted⟩ := Cursor.Reads.split_cons hread
  have hsize' := hcomma.size_lt hsize
  obtain ⟨a, ha, htree⟩ := hl hsize' hquoted trivial
  have hend := hquoted.size_lt hsize'
  have hstep : (separator anywhere .full : Branch Cursor Fault n _).Takes c a d := by
    refine Branch.takes_andThen.2 ⟨',', e, Branch.onChar_takes hsize hcomma, ?_⟩
    refine Reader.gives_solid_bind (quoted_solid ha) ?_
    refine Reader.gives_bind.2 ⟨some a, d, ha.optional, ?_⟩
    exact Reader.gives_pure.2 ⟨hend, rfl, rfl⟩
  refine ⟨delimited_of_peek hcomma.peek rfl, by rw [hcomma.peek]; decide, some a, ?_,
    congrArg some htree⟩
  exact hstep.optional

theorem readsBack_item {x : NameText} {ts : Phrase .transforms} {s : Phrase .separator}
    (hts : ReadsBack ts) (hs : ReadsBack s) : ReadsBack (.item x ts s) := by
  intro n c d _ hread _
  obtain ⟨c₁, hopen, hrest⟩ := Cursor.Reads.split_pair hread
  obtain ⟨c₂, hx, hrest₂⟩ := hrest.split
  obtain ⟨c₃, hts', hrest₃⟩ := hrest₂.split
  obtain ⟨c₄, hs', hclose⟩ := hrest₃.split
  have hsize := hopen.shorter
  have hsize₂ := hx.size_lt hsize
  have hsize₃ := hts'.size_lt hsize₂
  have hsize₄ := hs'.size_lt hsize₃
  -- What follows the transforms is told by the separator, and so it is read first.
  obtain ⟨hd₃, hdash, separator, hseparator, hmeaning⟩ := hs hsize₃ hs' hclose.peek
  obtain ⟨hd₂, transform, hfold, hmeaning'⟩ := hts hsize₂ hts' hd₃
  have hname : Named c₁ x.1 c₂ := ⟨hx, x.2⟩
  have hlast : (transformAfter anywhere .full transform :
      Branch Cursor Fault (Position.size c) _).Passes c₃ :=
    transformAfter_passes hsize₃ hdash
  refine ⟨.mk ⟨c.offset, d.offset⟩ (.item (String.ofList x.1) transform separator), ?_, ?_⟩
  · rw [reference]
    refine gives_referenceWith.2 ⟨'@', c₁, hopen, Or.inr (Or.inl ⟨rfl, ?_⟩)⟩
    unfold itemFrom
    refine gives_failAt_else.2 ⟨by decide, Reader.gives_solid_bind hname.solid ?_⟩
    refine Reader.gives_bind.2 ⟨String.ofList x.1, c₂, ?_, Reader.gives_blanks_bind.2 ⟨hsize₂, ?_⟩⟩
    · exact gives_name_of_named hsize hname hd₂
    rw [hd₂.solid]
    refine Reader.gives_bind.2 ⟨transform, c₃, hfold _ _ hlast.fold, ?_⟩
    · refine Reader.gives_bind.2 ⟨separator, c₄, hseparator, gives_closed.2 ⟨hsize₄, ?_, rfl⟩⟩
      rwa [(delimited_of_peek hclose.peek rfl).solid]
  · rw [Node.tree_mk, Shape.map, hmeaning, hmeaning']
    rfl

end ProjectAnalysis.Expr
