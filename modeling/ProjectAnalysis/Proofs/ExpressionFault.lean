import ProjectAnalysis.ExprParse
import ProjectAnalysis.Proofs.TextFault

/-! Where a text is said to be no expression: at an offset of the text, whether it is read as a
condition or not. The readers of conditions go from token to token, so what they keep is that the
current token stands in the text. -/
namespace ProjectAnalysis.Expr

/-- The current token stands in the text, or everything was passed over and it stands for the
end. -/
def Placed (text : List Char) (s : TokenStream) : Prop :=
  (∃ c, Inside text c ∧ s.At c) ∨ (s.atEnd = true ∧ Boundary text s.current.position)

/-- The constructs inside fail at offsets of the text. -/
def LevelsPoint (text : List Char) {n : Nat} (inner : InnerLevel n) : Prop :=
  ∀ l, (inner l).Keeps (Placed text) (Fault.PointsInto text) fun _ => True

variable {text : List Char} {n : Nat} {α : Type} {o : Options} {s u : TokenStream} {c : Cursor}

theorem Placed.boundary (h : Placed text s) : Boundary text s.current.position := by
  obtain ⟨c, hc, hs⟩ | ⟨-, h⟩ := h
  · rw [hs.position]
    exact hc.boundary
  · exact h

theorem Placed.at_token (h : Placed text s) (hs : s.atEnd = false) :
    ∃ c, Inside text c ∧ s.At c := by
  obtain h | ⟨hend, -⟩ := h
  · exact h
  · cases hs.symm.trans hend

theorem Placed.at_kind (h : Placed text s) (hkind : s.current.kind ≠ .finish) :
    ∃ c, Inside text c ∧ s.At c :=
  h.at_token (decide_eq_false hkind)

theorem placed_ofText (text : List Char) : Placed text (.ofText text) :=
  Or.inl ⟨_, inside_ofText text, rfl, Cursor.reads_nil _, nofun, nofun, nofun⟩

/-- A fault between tokens is at the end or at the character where no token begins. -/
theorem points_of_step (h : Placed text s) {fault : Fault} (hstep : s.step = (u, some fault)) :
    fault.PointsInto text := by
  obtain ⟨-, -, rfl⟩ | ⟨hend, x, rest, cause, hrest, -, -, rfl⟩ := (step_eq_fault_iff rfl).1 hstep
  · exact Fault.points_syntactic h.boundary
  · obtain ⟨c, hc, hs⟩ := h.at_token hend
    have hd := hc.reaches (hs.reads.reaches.trans (s.after.reaches_skipWhile isBlank))
    refine ⟨hd.boundary, fun _ _ hcause => ?_⟩
    cases hcause
    obtain ⟨before, after, htext, hoffset⟩ := hd
    rw [hrest] at htext
    exact ⟨before, rest ++ after, htext, hoffset⟩

theorem placed_of_step (h : Placed text s) (hstep : s.step = (u, none)) : Placed text u := by
  obtain ⟨c, hc, hs⟩ := h.at_token ((step_eq_iff rfl).1 hstep).1
  obtain ⟨d, hblanks, hd⟩ := at_of_step hstep
  exact Or.inl ⟨d, hc.reaches (hs.reads.reaches.trans hblanks.reaches), hd⟩

theorem keeps_advance (h : Placed text s) :
    Parsed.Keeps (Placed text) (Fault.PointsInto text) (advance s) fun _ => True := by
  unfold advance
  split
  · exact points_of_step h ‹_›
  · exact ⟨placed_of_step h ‹_›, trivial⟩

theorem keeps_nextToken :
    (nextToken : TokenRead n Unit).Keeps (Placed text) (Fault.PointsInto text) fun _ => True :=
  Step.Keeps.read fun _ _ => keeps_advance

theorem keeps_currentToken :
    (currentToken : TokenRead n Token).Keeps (Placed text) (Fault.PointsInto text)
      fun t => Boundary text t.position :=
  .bind .place fun _ hs => .pure hs.boundary

theorem keeps_onToken {kind : TokenKind} :
    (onToken kind : Branch TokenStream Fault n Token).Keeps (Placed text) (Fault.PointsInto text)
      fun t => Boundary text t.position := by
  unfold onToken
  refine .at_place fun s hs => (Step.Keeps.branch (P := fun _ => True) ?_).andThen ?_
  · exact fun _ _ => keeps_advance
  · exact fun _ _ => .pure hs.boundary

theorem keeps_expectToken {kind : TokenKind} :
    (expectToken kind : TokenRead n Unit).Keeps (Placed text) (Fault.PointsInto text)
      fun _ => True :=
  keeps_currentToken.bind fun _ hfound =>
    .ite keeps_nextToken (.fail (Fault.points_syntactic hfound))

theorem keeps_ofExcept {result : Except Fault α}
    (h : ∀ fault, result = .error fault → fault.PointsInto text) :
    (ofExcept result : TokenRead n α).Keeps (Placed text) (Fault.PointsInto text)
      fun _ => True := by
  cases result with
  | error fault => exact .fail (h fault rfl)
  | ok a => exact .pure trivial

theorem keeps_scanParen :
    (scanParen : TokenRead n Unit).Keeps (Placed text) (Fault.PointsInto text) fun _ => True := by
  intro s hsize hs
  unfold scanParen
  split
  · rename_i hend
    obtain ⟨c, hc, hat⟩ := hs.at_token hend
    have hafter := hc.reaches hat.reads.reaches
    have hscan : Placed text (s.scan 1) := by
      unfold TokenStream.scan
      split
      · rename_i k _
        refine Or.inl ⟨s.after, hafter, rfl, ?_, nofun, nofun, nofun⟩
        have hskip := s.after.reads_skip k
        rwa [← String.toList_ofList (l := s.after.rest.take k)] at hskip
      · exact Or.inr ⟨rfl, hafter.boundary⟩
    exact ⟨hscan, trivial⟩
  · exact ⟨hs, trivial⟩

/-- The sigil and some of the characters behind it. -/
theorem Inside.sliceFrom (hc : Inside text c) (hs : s.At c)
    (hkind : s.current.kind.isReference = true) (k : Nat) :
    Inside text ⟨s.current.position, s.current.text.toList ++ s.after.rest.take k⟩ := by
  have hword : s.current.kind ≠ .word := by
    intro hword
    rw [hword] at hkind
    cases hkind
  have hread := (hs.reads_bare (hs.bare rfl hword)).trans (s.after.reads_skip k)
  rw [hs.position]
  exact (hc.slice hread).1

theorem points_of_reference (hc : Inside text c) {fault : Fault}
    (h : (reference o c).map (·.value) = .error fault) : fault.PointsInto text := by
  have hmeets := keeps_reference hc (o := o)
  cases hresult : reference o c with
  | error e =>
    rw [hresult] at h hmeets
    cases h
    exact hmeets
  | ok r =>
    rw [hresult] at h
    cases h

theorem keeps_afterSigil (hc : Inside text c) (hs : s.At c)
    (hkind : s.current.kind.isReference = true) :
    (afterSigil o s : TokenRead n Node).Keeps (Placed text) (Fault.PointsInto text)
      fun _ => True := by
  refine keeps_currentToken.bind fun opening hopening => ?_
  refine .ite (Reader.Keeps.fail (Fault.points_syntactic hopening)).stop ?_
  refine keeps_scanParen.bind fun _ _ => .bind .place fun closing _ => ?_
  refine .ite (Reader.Keeps.fail (Fault.points_syntactic ?_)).stop ?_
  · rw [hs.position]
    exact hc.boundary
  · refine (keeps_ofExcept fun fault h => ?_).bind fun node _ => keeps_nextToken.bind fun _ _ => ?_
    · exact points_of_reference (hc.sliceFrom hs hkind _) h
    · exact keeps_expectToken.bind fun _ _ => .pure trivial

section
variable {inner : InnerLevel n} (hinner : LevelsPoint text inner)
include hinner

theorem keeps_chain {kind : TokenKind} {l : Level} {f : α → Node → α} {a : α} :
    (chain inner kind l f a).Keeps (Placed text) (Fault.PointsInto text) fun _ => True :=
  keeps_onToken.andThen fun _ _ => (hinner l).read.bind fun _ _ => .pure trivial

theorem keeps_factorList :
    (factorList inner).Keeps (Placed text) (Fault.PointsInto text) fun _ => True := by
  refine keeps_onToken.andThen fun opening _ => keeps_currentToken.bind fun first _ => ?_
  have hclosed (nodes : List Node) : Reader.Keeps (Placed text) (Fault.PointsInto text) (do
      let closing ← currentToken
      expectToken .rightParen
      return .mk ⟨opening.position, closing.position + 1⟩ (.argumentList nodes) :
        TokenRead n Node) fun _ => True :=
    keeps_currentToken.bind fun _ _ => keeps_expectToken.bind fun _ _ => .pure trivial
  refine .ite (.bind (P := fun _ => True) (.pure trivial) fun _ _ => hclosed _) ?_
  refine (hinner .factor).read.bind fun first _ => ?_
  refine .bind (P := fun _ => True) ?_ fun _ _ => hclosed _
  refine .fold (fun nodes _ => keeps_onToken.andThen fun _ _ => ?_) trivial
  exact (hinner .factor).read.bind fun _ _ => .pure trivial

theorem keeps_afterWord {word : Token} :
    (afterWord inner word).Keeps (Placed text) (Fault.PointsInto text) fun _ => True := by
  refine (keeps_factorList hinner).optional.bind fun found _ => ?_
  cases found <;> exact .pure trivial

end

section
variable {inner : InnerLevel (Position.size s)} (hinner : LevelsPoint text inner)
  (hs : Placed text s)
include hinner hs

theorem keeps_factor : Parsed.Keeps (Placed text) (Fault.PointsInto text) (factor o s inner)
    fun _ => True := by
  have hadvance := keeps_advance hs
  have hreference (hkind : s.current.kind.isReference = true) :
      Parsed.Keeps (Placed text) (Fault.PointsInto text)
        (advance s >>= fun r => r.andThen fun _ => afterSigil o s) fun _ => True := by
    obtain ⟨c, hc, hat⟩ := hs.at_kind fun hfinish => by
      rw [hfinish] at hkind
      cases hkind
    exact hadvance.bind fun _ _ => keeps_afterSigil hc hat hkind
  unfold factor
  dsimp only
  split
  · exact hadvance.bind fun _ _ => (hinner .disjunction).read.bind fun _ _ =>
      keeps_expectToken.bind fun _ _ => .pure trivial
  · exact hadvance.bind fun _ _ => .pure trivial
  · rename_i hkind
    refine hadvance.bind fun _ _ => ?_
    split
    · rename_i hquoted
      obtain ⟨c, hc, hat⟩ := hs.at_kind fun hfinish => by
        rw [hkind] at hfinish
        cases hfinish
      refine keeps_ofExcept fun fault h => points_of_from ?_ (keeps_concat innerPoints_anywhere) h
      have hread := hat.reads
      rw [Token.written, if_pos hquoted] at hread
      rw [hat.position]
      exact (hc.quoted hread (.refl _)).1
    · exact keeps_afterWord hinner
  · exact hreference (by rw [‹s.current.kind = _›]; rfl)
  · exact hreference (by rw [‹s.current.kind = _›]; rfl)
  · exact hreference (by rw [‹s.current.kind = _›]; rfl)
  · exact Fault.points_syntactic hs.boundary

theorem keeps_relation : Parsed.Keeps (Placed text) (Fault.PointsInto text) (relation o s inner)
    fun _ => True := by
  refine (keeps_factor hinner hs).bind fun left _ => keeps_currentToken.bind fun t _ => ?_
  split
  · exact .pure trivial
  · exact keeps_nextToken.bind fun _ _ => (hinner .factor).read.bind fun _ _ => .pure trivial

theorem keeps_negation : Parsed.Keeps (Placed text) (Fault.PointsInto text) (negation o s inner)
    fun _ => True := by
  unfold negation
  split
  · exact (keeps_advance hs).bind fun _ _ => (hinner .negation).read.bind fun _ _ => .pure trivial
  · exact keeps_relation hinner hs

theorem keeps_conjunction : Parsed.Keeps (Placed text) (Fault.PointsInto text)
    (conjunction o s inner) fun _ => True :=
  (keeps_negation hinner hs).bind fun _ _ => .fold (fun _ _ => keeps_chain hinner) trivial

theorem keeps_disjunction : Parsed.Keeps (Placed text) (Fault.PointsInto text)
    (disjunction o s inner) fun _ => True :=
  (keeps_conjunction hinner hs).bind fun _ _ => .fold (fun _ _ => keeps_chain hinner) trivial

theorem keeps_levelWith (l : Level) : Parsed.Keeps (Placed text) (Fault.PointsInto text)
    (levelWith o s inner l) fun _ => True := by
  cases l with
  | disjunction => exact keeps_disjunction hinner hs
  | conjunction => exact keeps_conjunction hinner hs
  | negation => exact keeps_negation hinner hs
  | factor => exact keeps_factor hinner hs

end

theorem keeps_level (hs : Placed text s) (l : Level) :
    Parsed.Keeps (Placed text) (Fault.PointsInto text) (level o l s) fun _ => True := by
  induction hsize : Position.size s using Nat.strongRecOn generalizing s l with
  | ind k ih =>
    rw [level]
    exact keeps_levelWith (fun l t hlt ht => ih _ (hsize ▸ hlt) ht l rfl) hs l

theorem mapError_eq_error {ε ε' : Type} {x : Except ε α} {f : ε → ε'} {e : ε'} :
    x.mapError f = .error e ↔ ∃ e', x = .error e' ∧ f e' = e := by
  cases x with
  | error fault =>
    constructor
    · intro h
      exact ⟨fault, rfl, Except.error.inj h⟩
    · rintro ⟨fault', h, rfl⟩
      cases h
      rfl
  | ok a =>
    constructor
    · exact nofun
    · rintro ⟨_, h, -⟩
      cases h

theorem points_of_wholeCondition {fault : Fault} (h : wholeCondition o text = .error fault) :
    fault.PointsInto text := by
  unfold wholeCondition at h
  split at h
  · rename_i fault' hstep
    cases h
    exact points_of_step (placed_ofText text) hstep
  · rename_i s hstep
    have hmeets := keeps_level (o := o) (placed_of_step (placed_ofText text) hstep) .disjunction
    split at h
    · cases h
    · cases hlevel : level o .disjunction s with
      | error e =>
        rw [hlevel] at h hmeets
        cases h
        exact hmeets
      | ok r =>
        rw [hlevel] at h hmeets
        change (if r.next.atEnd then _ else _) = _ at h
        split at h
        · cases h
        · cases h
          exact Fault.points_syntactic hmeets.1.boundary

/-- The failure of a text points into that text. -/
structure Error.PointsInto (text : String) (e : Error) : Prop where
  position_le : e.position ≤ byteLength text.toList
  boundary : Boundary text.toList e.position
  /-- A failure of the grammar keeps the whole text. -/
  text_eq : ∀ cause kept position, e = .syntactic cause kept position → kept = text
  /-- Where no token begins, the failure names the character there. -/
  char_at : ∀ cause ch position, e = .lexical cause ch position → CharAt text.toList ch position

theorem Boundary.le {k : Nat} (h : Boundary text k) : k ≤ byteLength text := by
  obtain ⟨before, after, rfl, rfl⟩ := h
  rw [byteLength_append]
  exact Nat.le_add_right _ _

theorem Fault.PointsInto.within {text : String} {fault : Fault}
    (h : fault.PointsInto text.toList) : (fault.within text).PointsInto text := by
  obtain ⟨cause, position⟩ := fault
  cases cause with
  | lexical cause ch =>
    refine ⟨h.1.le, h.1, fun _ _ _ he => ?_, fun _ _ _ he => ?_⟩
    · cases he
    · cases he
      exact h.2 cause ch rfl
  | syntactic cause =>
    refine ⟨h.1.le, h.1, fun _ _ _ he => ?_, fun _ _ _ he => ?_⟩
    · cases he
      rfl
    · cases he

/-- Whatever a text is read as, if that fails then at an offset of the text. -/
theorem parse_error_pointsInto {text : String} {e : Error} (h : parse o text = .error e) :
    e.PointsInto text := by
  obtain ⟨fault, hfault, rfl⟩ := mapError_eq_error.1 h
  refine Fault.PointsInto.within ?_
  split at hfault
  · exact points_of_wholeCondition hfault
  · exact points_of_from (inside_ofText _) keeps_segments hfault

/-- A character that begins no token, behind one of two bytes. -/
theorem parse_error_behind_wide :
    parse .conditional "'é' == #" = .error (.lexical .punctuation '#' 8) ∧
      (Error.lexical .punctuation '#' 8).PointsInto "'é' == #" := by
  have herror : (match parse .conditional "'é' == #" with
      | .ok _ => none
      | .error e => some e) = some (.lexical .punctuation '#' 8) := by decide +kernel
  have hread : parse .conditional "'é' == #" = .error (.lexical .punctuation '#' 8) := by
    revert herror
    cases parse .conditional "'é' == #" with
    | ok n => exact nofun
    | error e => exact fun he => congrArg Except.error (Option.some.inj he)
  exact ⟨hread, parse_error_pointsInto hread⟩

end ProjectAnalysis.Expr
