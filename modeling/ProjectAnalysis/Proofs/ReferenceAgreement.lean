import ProjectAnalysis.Proofs.ConditionLanguage
import ProjectAnalysis.Proofs.ParenDepth
import ProjectAnalysis.Proofs.TokenPlace

/-! One reference is the same read as a condition and read as text: the tokens lead to the slice
that is the whole text, and from there both ways read it alike, faults included. -/
namespace ProjectAnalysis.Expr

/-- The parenthesis at the front is closed by the last character and not before. -/
def Enclosed (cs : List Char) : Prop :=
  cs.head? = some '(' ∧ excess cs = 0 ∧ ∀ p, p <+: cs → p ≠ [] → p ≠ cs → 0 < excess p

/-- What a reference makes of the options. -/
def Options.referring (o : Options) : Options :=
  { o with lists := false, condition := false }

/-- Items and metadata in a text that is no list. -/
def Options.inline : Options :=
  ⟨true, true, false, false⟩

/-- A node that begins with a sigil. -/
def Shape.isReference {α : Type} : Shape α → Bool
  | .property _ | .item _ _ _ | .metadata _ _ => true
  | _ => false

variable {o : Options} {c : Cursor} {cs : List Char} {a : Node}

theorem referenceWith_referring (o : Options) (c : Cursor) (inner : Inner (Position.size c)) :
    referenceWith o c (fun o => inner o.referring) = referenceWith o.referring c inner :=
  rfl

/-- A reference looks at no other options. -/
theorem reference_referring (o : Options) (c : Cursor) :
    reference o c = reference o.referring c := by
  induction hsize : Position.size c using Nat.strongRecOn generalizing o c with
  | ind k ih =>
    have hinner : (fun o d _ => reference o d : Inner (Position.size c)) =
        fun o d _ => reference o.referring d := by
      funext o d hd
      exact ih _ (hsize ▸ hd) o d rfl
    rw [reference, hinner, reference]
    exact referenceWith_referring o c fun o d _ => reference o d

theorem enclosed_iff : Enclosed cs ↔ ∃ body, cs = '(' :: (body ++ [')']) ∧
    TokenStream.closingParen? 1 (body ++ [')']) = some body.length := by
  have hone : excess ['('] = 1 := rfl
  have hclose : excess [')'] = -1 := rfl
  constructor
  · rintro ⟨hhead, hzero, hprefix⟩
    obtain ⟨tail, rfl⟩ := List.head?_eq_some_iff.1 hhead
    rcases List.eq_nil_or_concat tail with rfl | ⟨body, last, rfl⟩
    · cases hzero
    · rw [List.concat_eq_append] at *
      have hproper {p : List Char} (hp : p <+: body) : 0 < 1 + excess p := by
        have hlong : '(' :: p <+: '(' :: (body ++ [last]) :=
          List.cons_prefix_cons.2 ⟨rfl, hp.trans (List.prefix_append _ _)⟩
        have hne : '(' :: p ≠ '(' :: (body ++ [last]) := by
          intro heq
          have hlength := congrArg List.length (List.cons.inj heq).2
          rw [List.length_append, List.length_singleton] at hlength
          have hle := hp.length_le
          omega
        have hpos := hprefix _ hlong (List.cons_ne_nil _ _) hne
        rwa [excess_cons, hone] at hpos
      have hbody := hproper (List.prefix_refl body)
      rw [excess_cons, excess_append, hone] at hzero
      -- Only a closing parenthesis takes the count down to nothing.
      obtain rfl : last = ')' := by
        refine Decidable.byContradiction fun hne => ?_
        have hnonneg : 0 ≤ excess [last] := excess_nonneg (by simpa using Ne.symm hne)
        omega
      exact ⟨body, rfl, (closingParen?_iff (by omega) body []).2 ⟨by omega, fun p => hproper⟩⟩
  · rintro ⟨body, rfl, hclosing⟩
    obtain ⟨hbody, hproper⟩ := (closingParen?_iff (by omega) body []).1 hclosing
    refine ⟨rfl, ?_, fun p hp hnil hne => ?_⟩
    · rw [excess_cons, excess_append, hone, hclose]
      omega
    · rcases List.prefix_cons_iff.1 hp with rfl | ⟨q, rfl, hq⟩
      · exact absurd rfl hnil
      · rcases List.prefix_concat_iff.1 hq with rfl | hq
        · exact absurd rfl hne
        · have hpos := hproper q hq
          rwa [excess_cons, hone]

theorem step_of_extent {s : TokenStream} {x : Char} {rest : List Char} {e : Extent}
    (hs : s.atEnd = false) (hrest : s.after.rest = x :: rest) (hx : isBlank x = false)
    (he : extent x rest = .ok e) :
    s.step = (⟨e.token s.after x rest, s.after.skip (e.more + 1)⟩, none) := by
  have hstay : s.after.skipWhile isBlank = s.after :=
    (Blanks.eq_of_rest ⟨_, s.after.reads_skipWhile isBlank, s.after.all_run isBlank⟩ hrest hx).symm
  exact (step_eq_iff hstay).2 ⟨hs, Or.inr ⟨x, rest, e, hrest, he, rfl⟩⟩

theorem step_of_nil {s : TokenStream} (hs : s.atEnd = false) (hrest : s.after.rest = []) :
    s.step = (⟨.atEnd s.after.offset, s.after⟩, none) := by
  have hstay : s.after.skipWhile isBlank = s.after := by
    obtain ⟨current, k, rest⟩ := s
    obtain rfl : rest = [] := hrest
    rfl
  exact (step_eq_iff hstay).2 ⟨hs, Or.inl ⟨hrest, rfl⟩⟩

/-- The tokens of a text that is enclosed behind its sigil: the slice is the whole text, and there
is nothing behind it. -/
theorem sliced_whole {sigil : Char} {body : List Char} (hsigil : isSigil sigil = true)
    (hclosing : TokenStream.closingParen? 1 (body ++ [')']) = some body.length) :
    ∃ s v u, (TokenStream.ofText (sigil :: '(' :: (body ++ [')']))).step = (s, none) ∧
      s.atEnd = false ∧ Sliced s (.ofText (sigil :: '(' :: (body ++ [')']))) v ∧
      v.current.kind = .rightParen ∧ Parsed.Gives (advance v) () u ∧ u.atEnd = true := by
  obtain ⟨kind, hkind, hextent, hblank⟩ : ∃ kind : TokenKind, kind.isReference = true ∧
      extent sigil ('(' :: (body ++ [')'])) = .ok ⟨kind, 0, false⟩ ∧ isBlank sigil = false := by
    have hcases : (sigil = '$' ∨ sigil = '@') ∨ sigil = '%' := by simpa [isSigil] using hsigil
    rcases hcases with (rfl | rfl) | rfl
    · exact ⟨.property, rfl, rfl, rfl⟩
    · exact ⟨.item, rfl, rfl, rfl⟩
    · exact ⟨.metadata, rfl, rfl, rfl⟩
  -- The tokens in turn: the sigil, the parenthesis, all that is passed over, and the other one.
  let tail : List Char := '(' :: (body ++ [')'])
  let s : TokenStream :=
    ⟨⟨kind, String.ofList [sigil], 0, false⟩, ⟨0 + byteLength [sigil], tail⟩⟩
  have hend : s.atEnd = false := by
    change decide (kind = .finish) = false
    revert hkind
    cases kind <;> intro hkind <;> first | rfl | cases hkind
  let t : TokenStream := ⟨⟨.leftParen, String.ofList ['('], s.after.offset, false⟩, s.after.skip 1⟩
  let w : TokenStream := ⟨⟨.word, String.ofList (t.after.rest.take body.length), t.after.offset,
    false⟩, t.after.skip body.length⟩
  have hscan : t.scan 1 = w := by
    have hmatch : TokenStream.closingParen? (1 : Nat) t.after.rest = some body.length := hclosing
    unfold TokenStream.scan
    rw [hmatch]
  have hrest : w.after.rest = [')'] := List.drop_left
  let v : TokenStream := ⟨⟨.rightParen, String.ofList [')'], w.after.offset, false⟩, w.after.skip 1⟩
  have hs : (TokenStream.ofText (sigil :: tail)).step = (s, none) :=
    step_of_extent rfl rfl hblank hextent
  have ht : s.step = (t, none) := step_of_extent hend rfl rfl rfl
  have hv : w.step = (v, none) := step_of_extent rfl hrest rfl rfl
  have hnil : v.after.rest = [] := by
    change w.after.rest.drop 1 = []
    rw [hrest]
    rfl
  have hslice : s.slice w = .ofText (sigil :: tail) := by
    have htake : s.after.rest.length - w.after.rest.length + 1 = tail.length := by
      rw [hrest]
      exact Nat.sub_add_cancel (Nat.succ_pos _)
    unfold TokenStream.slice
    rw [htake, String.toList_ofList]
    change Cursor.mk 0 ([sigil] ++ tail.take tail.length) = _
    rw [List.take_length]
    rfl
  refine ⟨s, v, _, hs, hend, ⟨hkind, t, gives_advance.2 ht, rfl, ?_, ?_, ?_⟩, rfl,
    gives_advance.2 (step_of_nil rfl hnil), rfl⟩
  · rw [hscan]
    rfl
  · rw [hscan, hslice]
  · rw [hscan]
    exact gives_advance.2 hv

section
variable {s v u : TokenStream} {slice : Cursor} {fault : Fault}

/-- A factor with nothing behind it is a whole condition. -/
theorem gives_level_factor (hnot : s.current.kind ≠ .not) (hu : u.current.kind = .finish)
    (h : Parsed.Gives (factor o s (inside o (Position.size s))) a u) :
    Parsed.Gives (level o .disjunction s) a u := by
  have hstop {kind : TokenKind} (hkind : kind ≠ .finish) : u.current.kind ≠ kind :=
    fun heq => hkind (heq.symm.trans hu)
  have hcomparison : comparison? u.current.kind = none := by rw [hu]; rfl
  have hrelation := gives_relation.2 ⟨a, u, h, Or.inl ⟨hcomparison, rfl, rfl⟩⟩
  rw [← negation_of_kind_ne hnot] at hrelation
  rw [level_eq]
  refine gives_disjunction.2 ⟨a, u, gives_conjunction.2 ⟨a, u, hrelation, ?_⟩, ?_⟩
  · exact Reader.gives_fold.2
      (Or.inl ⟨passes_chain.2 ⟨h.size_lt, hstop TokenKind.noConfusion⟩, rfl, rfl⟩)
  · exact Reader.gives_fold.2
      (Or.inl ⟨passes_chain.2 ⟨h.size_lt, hstop TokenKind.noConfusion⟩, rfl, rfl⟩)

/-- A condition fails where its first factor fails. -/
theorem level_fails_of_factor (hnot : s.current.kind ≠ .not)
    (h : factor o s (inside o (Position.size s)) = .error fault) :
    level o .disjunction s = .error fault := by
  have hrelation : relation o s (inside o (Position.size s)) = .error fault := by
    unfold relation
    rw [h]
    rfl
  rw [← negation_of_kind_ne hnot] at hrelation
  have hconjunction : conjunction o s (inside o (Position.size s)) = .error fault := by
    unfold conjunction
    rw [hrelation]
    rfl
  rw [level_eq]
  change disjunction o s _ = _
  unfold disjunction
  rw [hconjunction]
  rfl

/-- A reference in a condition fails where reading its slice fails. -/
theorem factor_fails_of_sliced (hslice : Sliced s slice v)
    (h : (reference o slice).map (·.value) = .error fault) :
    factor o s (inside o (Position.size s)) = .error fault := by
  obtain ⟨hkind, t, ht, hopen, hend, rfl, -⟩ := hslice
  have hstart : t.atEnd = false := by
    rw [TokenStream.atEnd, hopen]
    rfl
  have hscan : Position.size (t.scan 1) < Position.size s :=
    Nat.lt_of_le_of_lt (TokenStream.scan_size_le 1 t hstart) ht.size_lt
  rw [factor_reference hkind]
  refine ht.andThen_fails ?_
  refine (gives_currentToken.2 ⟨ht.size_lt, rfl, rfl⟩).bind_fails ?_
  rw [if_neg (not_not_intro hopen)]
  refine ((gives_scanParen hstart (x := ())).2 ⟨ht.size_lt, rfl⟩).bind_fails ?_
  refine (Reader.gives_place.2 ⟨hscan, rfl, rfl⟩).bind_fails ?_
  rw [hend, if_neg Bool.false_ne_true]
  exact (fails_ofExcept hscan h).bind _

/-- A condition that is one slice is the reference in it. -/
theorem wholeCondition_sliced (hs : (TokenStream.ofText cs).step = (s, none))
    (hstart : s.atEnd = false) (hslice : Sliced s slice v) (hright : v.current.kind = .rightParen)
    (hu : Parsed.Gives (advance v) () u) (hend : u.atEnd = true) :
    wholeCondition o cs = (reference o slice).map (·.value) := by
  have hnot : s.current.kind ≠ .not := by
    intro hkind
    have hreference := hslice.1
    rw [hkind] at hreference
    cases hreference
  cases hread : (reference o slice).map (·.value) with
  | error fault =>
    rw [wholeCondition, hs]
    dsimp only
    rw [hstart, if_neg Bool.false_ne_true,
      level_fails_of_factor hnot (factor_fails_of_sliced hslice hread)]
    rfl
  | ok a =>
    obtain ⟨d, hd⟩ := reference_map_eq_ok.1 hread
    have hfactor : Parsed.Gives (factor o s (inside o (Position.size s))) a u :=
      (gives_factor_reference hslice.1).2 ⟨slice, d, v, hslice, hd, hright, hu⟩
    have hlevel := gives_level_factor hnot (of_decide_eq_true hend) hfactor
    exact wholeCondition_eq_ok.2 ⟨s, hs, Or.inr ⟨hstart, u, hlevel, hend⟩⟩

end

section
variable {n : Nat} (hlists : o.lists = false) (hliteral : literalLength false c.rest = 0)
  (hstarts : startsReference c = true)
include hlists hliteral hstarts

/-- Text that begins with a reference fails where that fails. -/
theorem segments_fails {fault : Fault} (hn : Position.size c < n)
    (h : (reference o c).map (·.value) = .error fault) :
    (segments o : Read n Node).Fails c fault := by
  have hreference : reference o c = .error fault := by
    revert h
    cases reference o c with
    | error e => exact fun h => congrArg Except.error (Except.error.inj h)
    | ok q => exact nofun
  have hstep (nodes : List Node) : ((Step.branch startsReference (anywhere o)).andThen
      fun reference => do
        let more ← literal false false
        return nodes ++ reference :: more : Branch Cursor Fault n _).Fails c fault :=
    (Step.fails_branch hstarts hn hreference).andThen _
  -- The literal text before the reference is empty, and the first step behind it fails.
  have hparts : (parts anywhere o false false : Read n _).Fails c fault :=
    (gives_literal.2 ⟨hn, Or.inl ⟨hliteral, rfl, rfl⟩⟩).bind_fails (Reader.fails_fold (hstep _))
  have hoffset : (Reader.offset : Read n Nat).Gives c c.offset c :=
    Reader.gives_offset.2 ⟨hn, rfl, rfl⟩
  refine hoffset.bind_fails ?_
  rw [hlists]
  exact (hoffset.bind_fails (hparts.bind _)).bind _

/-- Text that begins with a reference is that reference, or more than one part. -/
theorem segments_starts {d : Cursor} (h : (segments o : Read n Node).Gives c a d) :
    (reference o c).map (·.value) = .ok a ∨ ∃ span parts, a = .mk span (.concat parts) := by
  obtain ⟨first, e, hfirst, hthen⟩ := Reader.gives_bind.1 (Reader.gives_offset_bind.1 h)
  rw [hlists] at hfirst
  rw [hlists, if_neg Bool.false_ne_true] at hthen
  obtain ⟨-, rfl, rfl⟩ := Reader.gives_pure.1 hthen
  obtain ⟨nodes, f, hnodes, hthen⟩ := Reader.gives_bind.1 (Reader.gives_offset_bind.1 hfirst)
  obtain ⟨none, g, hnone, hfold⟩ := Reader.gives_bind.1 hnodes
  obtain ⟨-, ⟨-, rfl, rfl⟩ | ⟨cs, hne, -, hlength, -⟩⟩ := gives_literal.1 hnone
  · rcases Reader.gives_fold.1 hfold with ⟨hpass, -, -⟩ | ⟨_, _, htakes, hmore⟩
    · have hstops := (Step.passes_branch.1 (Branch.passes_andThen.1 hpass)).2
      rw [hstarts] at hstops
      cases hstops
    · obtain ⟨b, u, htaken, hmost⟩ := Branch.takes_andThen.1 htakes
      obtain ⟨-, hlt, hb⟩ := Step.takes_branch.1 htaken
      obtain ⟨_, _, -, hfirst⟩ := Reader.gives_bind.1 hmost
      obtain ⟨-, rfl, rfl⟩ := Reader.gives_pure.1 hfirst
      -- The reference stays the first of the parts, however many there are.
      obtain ⟨⟨more, rfl⟩, -⟩ := Reader.Gives.fold_induction
        (P := fun nodes _ => ∃ more, nodes = b :: more)
        (fun nodes _ more _ hnodes htakes => by
          obtain ⟨front, rfl⟩ := hnodes
          obtain ⟨_, _, -, hthen⟩ := Branch.takes_andThen.1 htakes
          obtain ⟨_, _, -, hthen⟩ := Reader.gives_bind.1 hthen
          obtain ⟨-, rfl, rfl⟩ := Reader.gives_pure.1 hthen
          exact ⟨_, rfl⟩)
        hmore ⟨_, rfl⟩
      replace hthen := Reader.gives_offset_bind.1 hthen
      cases more with
      | nil =>
        obtain ⟨-, rfl, rfl⟩ := Reader.gives_pure.1 hthen
        exact Or.inl (reference_map_eq_ok.2 ⟨u, hb⟩)
      | cons second more =>
        obtain ⟨-, rfl, rfl⟩ := Reader.gives_pure.1 hthen
        exact Or.inr ⟨_, _, rfl⟩
  · rw [hliteral] at hlength
    exact absurd (List.length_eq_zero_iff.1 hlength.symm) hne

end

/-- A text that is enclosed behind its sigil: read as text it is one reference only if it is that
same reference as a condition, and what is no condition fails as text in the same way. -/
theorem parseCondition_eq_parse {r : String} {sigil : Char} {rest : List Char}
    (hr : r.toList = sigil :: rest) (hsigil : isSigil sigil = true) (hrest : Enclosed rest) :
    (∀ a, parse .inline r = .ok a → a.shape.isReference = true →
      a.span = ⟨0, byteLength r.toList⟩ → parseCondition r = .ok a) ∧
    ∀ e, parseCondition r = .error e → parse .inline r = .error e := by
  obtain ⟨body, rfl, hclosing⟩ := enclosed_iff.1 hrest
  obtain ⟨s, v, u, hs, hstart, hslice, hright, hu, hend⟩ := sliced_whole hsigil hclosing
  have hliteral : literalLength false (sigil :: '(' :: (body ++ [')'])) = 0 := by
    rw [literalLength, if_pos]
    simp [hsigil]
  have hstarts : startsReference (.ofText (sigil :: '(' :: (body ++ [')']))) = true := hsigil
  have hinline : (reference .inline (.ofText r.toList)) =
      reference .conditional (.ofText r.toList) := (reference_referring .conditional _).symm
  have hcondition : parseCondition r =
      ((reference .inline (.ofText r.toList)).map (·.value)).mapError (·.within r) := by
    rw [hinline, hr, ← wholeCondition_sliced hs hstart hslice hright hu hend, ← hr]
    rfl
  have htext : parse .inline r =
      (Read.from (.ofText r.toList) (segments .inline)).mapError (·.within r) := rfl
  constructor
  · intro a ha hreference _
    obtain ⟨d, hsegments⟩ := from_eq_ok.1 (mapError_eq_ok.1 (htext.symm.trans ha))
    rw [hr] at hsegments
    rcases segments_starts rfl hliteral hstarts hsegments with hread | ⟨span, parts, rfl⟩
    · rw [hcondition, hr, hread]
      rfl
    · cases hreference
  · intro e he
    rw [hcondition] at he
    cases hread : (reference .inline (.ofText r.toList)).map (·.value) with
    | ok a =>
      rw [hread] at he
      cases he
    | error fault =>
      rw [hread] at he
      obtain rfl : fault.within r = e := Except.error.inj he
      have hn := Nat.lt_succ_self (Position.size (Cursor.ofText r.toList))
      obtain ⟨_, hfails⟩ := segments_fails rfl (hr ▸ hliteral) (hr ▸ hstarts) hn hread
      rw [htext, Read.from, hfails]
      rfl

/-- An item with a transform is read alike, and a member without a name fails alike. -/
theorem parseCondition_eq_parse_item :
    (∃ a, parse .inline "@(A->'%(B)')" = .ok a ∧
      parseCondition "@(A->'%(B)')" = .ok a) ∧
    ∃ e, parseCondition "$(A.)" = .error e ∧
      parse .inline "$(A.)" = .error e := by
  have hitem : Enclosed "(A->'%(B)')".toList :=
    enclosed_iff.2 ⟨"A->'%(B)'".toList, by decide +kernel, by decide +kernel⟩
  have hmember : Enclosed "(A.)".toList :=
    enclosed_iff.2 ⟨"A.".toList, by decide +kernel, by decide +kernel⟩
  constructor
  · have hread : ((parse .inline "@(A->'%(B)')").toOption.map
        fun a => (a.shape.isReference, a.span)) = some (true, ⟨0, 12⟩) := by decide +kernel
    obtain ⟨a, ha, hshape⟩ := Option.map_eq_some_iff.1 hread
    obtain ⟨hreference, hspan⟩ := Prod.mk.inj hshape
    have hparse : parse .inline "@(A->'%(B)')" = .ok a := by
      revert ha
      cases parse .inline "@(A->'%(B)')" with
      | error e => exact nofun
      | ok b => exact fun ha => congrArg Except.ok (Option.some.inj ha)
    have hchars : "@(A->'%(B)')".toList = '@' :: "(A->'%(B)')".toList := rfl
    have hsame := (parseCondition_eq_parse hchars rfl hitem).1 a hparse hreference
      (hspan.trans (by decide +kernel))
    exact ⟨a, hparse, hsame⟩
  · have hread : (parseCondition "$(A.)").toOption.isNone = true := by decide +kernel
    cases hcondition : parseCondition "$(A.)" with
    | ok a =>
      rw [hcondition] at hread
      cases hread
    | error e =>
      have hchars : "$(A.)".toList = '$' :: "(A.)".toList := rfl
      exact ⟨e, rfl, (parseCondition_eq_parse hchars rfl hmember).2 e hcondition⟩

end ProjectAnalysis.Expr
