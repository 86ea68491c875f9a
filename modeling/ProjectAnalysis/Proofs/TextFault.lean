import ProjectAnalysis.Proofs.NodeLayout
import ProjectAnalysis.Proofs.ReaderKeep

/-! Where the faults of text with references are. A reader that begins inside a text fails at an
offset before, between or behind the characters of that text; this also holds for what is read by
itself between two quotes. -/
namespace ProjectAnalysis.Expr

/-- The character stands at the offset. -/
def CharAt (text : List Char) (ch : Char) (k : Nat) : Prop :=
  ∃ before after, text = before ++ ch :: after ∧ k = byteLength before

/-- The offset of a fault is one of the text, and if no token begins there then because of the
character that stands there. -/
def Fault.PointsInto (text : List Char) (f : Fault) : Prop :=
  Boundary text f.position ∧ ∀ cause ch, f.cause = .lexical cause ch → CharAt text ch f.position

/-- The references inside fail at offsets of the text. -/
def InnerPoints (text : List Char) {n : Nat} (inner : Inner n) : Prop :=
  ∀ o, (inner o).Keeps (Inside text) (Fault.PointsInto text) fun _ => True

variable {text : List Char} {n k : Nat} {o : Options} {cause : SyntaxCause} {α : Type}
  {P : α → Prop}

theorem Fault.points_syntactic (h : Boundary text k) :
    (Fault.syntactic cause k).PointsInto text :=
  ⟨h, nofun⟩

theorem keeps_failAt (h : Boundary text k) :
    (failAt cause k : Read n α).Keeps (Inside text) (Fault.PointsInto text) P :=
  .fail (Fault.points_syntactic h)

section
variable {E : Fault → Prop}

theorem keeps_offset : (Reader.offset : Read n Nat).Keeps (Inside text) E (Boundary text) :=
  fun _ _ hs => ⟨hs, hs.boundary⟩

theorem keeps_peek : (Reader.peek : Read n _).Keeps (Inside text) E fun _ => True :=
  fun _ _ hs => ⟨hs, trivial⟩

theorem keeps_takeWhile {p : Char → Bool} :
    (Reader.takeWhile p : Read n _).Keeps (Inside text) E fun _ => True :=
  fun c _ hs => ⟨hs.reaches (c.reaches_skipWhile p), trivial⟩

theorem keeps_take : (Reader.take k : Read n _).Keeps (Inside text) E fun _ => True :=
  fun c _ hs => ⟨hs.reaches (c.reaches_skip k), trivial⟩

theorem keeps_blanks : (Reader.blanks : Read n _).Keeps (Inside text) E fun _ => True :=
  keeps_takeWhile.bind fun _ _ => .pure trivial

theorem keeps_eat {cs : List Char} :
    (Reader.eat cs : Read n _).Keeps (Inside text) E fun _ => True :=
  .bind .place fun _ _ => .ite (keeps_take.bind fun _ _ => .pure trivial) (.pure trivial)

theorem keeps_onChar {p : Char → Bool} :
    (Branch.onChar p : Branch Cursor Fault n _).Keeps (Inside text) E fun _ => True :=
  fun _ _ hs r _ => ⟨hs.reaches r.reaches, trivial⟩

theorem keeps_literal {q lists : Bool} :
    (literal q lists : Read n _).Keeps (Inside text) E fun _ => True := by
  refine .bind .place fun c _ => ?_
  split
  · exact .pure trivial
  · exact keeps_take.bind fun _ _ => keeps_offset.bind fun _ _ => .pure trivial

theorem keeps_number : (number : Read n _).Keeps (Inside text) E fun _ => True :=
  keeps_offset.bind fun _ _ => keeps_take.bind fun _ _ => keeps_takeWhile.bind fun _ _ =>
    keeps_offset.bind fun _ _ => .pure trivial

theorem keeps_registryValue : (registryValue : Read n _).Keeps (Inside text) E fun _ => True :=
  keeps_offset.bind fun _ _ => keeps_take.bind fun _ _ => keeps_takeWhile.bind fun _ _ =>
    keeps_offset.bind fun _ _ => .pure trivial

end

theorem keeps_failHere :
    (failHere cause : Read n α).Keeps (Inside text) (Fault.PointsInto text) P :=
  keeps_offset.bind fun _ => keeps_failAt

theorem keeps_expect {ch : Char} :
    (expect ch : Read n _).Keeps (Inside text) (Fault.PointsInto text) fun _ => True :=
  keeps_eat.bind fun _ _ => .ite (.pure trivial) (keeps_peek.bind fun _ _ => keeps_failHere)

theorem keeps_name {missing : SyntaxCause} :
    (name missing : Read n _).Keeps (Inside text) (Fault.PointsInto text) fun _ => True := by
  refine .bind .place fun c hc => ?_
  split
  · exact keeps_failAt hc.boundary
  · exact keeps_take.bind fun _ _ => .pure trivial

theorem keeps_functionName :
    (functionName : Read n _).Keeps (Inside text) (Fault.PointsInto text) fun _ => True :=
  keeps_offset.bind fun _ _ => keeps_name.bind fun _ _ => keeps_offset.bind fun _ _ => .pure trivial

theorem keeps_bareWord :
    (bareWord : Read n _).Keeps (Inside text) (Fault.PointsInto text) fun _ => True :=
  keeps_offset.bind fun _ _ => keeps_name.bind fun _ _ => keeps_offset.bind fun _ _ => .pure trivial

/-- White space, a closing parenthesis, and a value that depends on the place behind it. -/
theorem keeps_closed {f : Nat → α} (h : ∀ k, P (f k)) :
    (do Reader.blanks; expect ')'; return f (← Reader.offset) : Read n α).Keeps (Inside text)
      (Fault.PointsInto text) P :=
  keeps_blanks.bind fun _ _ => keeps_expect.bind fun _ _ => keeps_offset.bind fun _ _ => .pure (h _)

theorem keeps_metadata {start : Nat} (h : Boundary text start) :
    (metadataFrom o start : Read n _).Keeps (Inside text) (Fault.PointsInto text)
      fun _ => True := by
  refine .ite (keeps_failAt h).stop ?_
  refine keeps_blanks.bind fun _ _ => keeps_name.bind fun first _ => ?_
  refine keeps_blanks.bind fun _ _ => keeps_eat.bind fun qualified _ => ?_
  have hsecond : (some <$> name .expectedMetadataName : Read n _).Keeps (Inside text)
      (Fault.PointsInto text) fun _ => True :=
    keeps_name.bind fun _ _ => .pure trivial
  have hnone : (pure none : Read n (Option String)).Keeps (Inside text)
      (Fault.PointsInto text) fun _ => True :=
    .pure trivial
  refine .ite (keeps_blanks.bind fun _ _ => ?_) ?_
  · exact .ite (hsecond.bind fun _ _ => keeps_closed fun _ => trivial)
      (hnone.bind fun _ _ => keeps_closed fun _ => trivial)
  · exact .ite (hsecond.bind fun _ _ => keeps_closed fun _ => trivial)
      (hnone.bind fun _ _ => keeps_closed fun _ => trivial)

section
variable {inner : Inner n} (hinner : InnerPoints text inner)
include hinner

theorem keeps_parts {q lists : Bool} :
    (parts inner o q lists).Keeps (Inside text) (Fault.PointsInto text) fun _ => True := by
  refine keeps_literal.bind fun first _ => .fold (fun nodes _ => ?_) trivial
  refine (hinner o).branch.andThen fun reference _ => ?_
  exact keeps_literal.bind fun more _ => .pure trivial

theorem keeps_concat {q lists : Bool} :
    (concat inner o q lists).Keeps (Inside text) (Fault.PointsInto text) fun _ => True := by
  refine keeps_offset.bind fun start _ => (keeps_parts hinner).bind fun nodes _ => ?_
  refine keeps_offset.bind fun stop _ => ?_
  split <;> exact .pure trivial

/-- The text between two quotes is a stretch of the whole text. -/
theorem keeps_quoted :
    (quoted inner o).Keeps (Inside text) (Fault.PointsInto text) fun _ => True := by
  rintro ⟨k, rest⟩ h hs
  cases rest with
  | nil => exact fun r hr => absurd hr (Option.not_mem_none r)
  | cons q rest =>
    rw [quoted]
    split
    · dsimp only
      split
      · have hone : (Cursor.mk k (q :: rest)).Reads [q] ⟨k + q.utf8Size, rest⟩ := ⟨rfl, by simp⟩
        have hbody := Cursor.reads_skipWhile (· != q) ⟨k + q.utf8Size, rest⟩
        -- What stands between the quotes ends at the closing one, so it is no longer than the rest.
        have hconcat : (concat inner o true false).Keeps (Inside text) (Fault.PointsInto text)
            fun _ => True :=
          keeps_concat hinner
        have hcontent := hconcat ⟨k + q.utf8Size, rest.takeWhile (· != q)⟩
          (Nat.lt_trans (Nat.lt_succ_of_le (List.takeWhile_prefix _).length_le) h)
          ((hs.reaches hone.reaches).slice hbody).1
        split
        · rename_i e he
          rwa [he] at hcontent
        · intro r hr
          exact ⟨hs.reaches r.reaches, trivial⟩
      · exact Fault.points_syntactic hs.boundary
    · exact fun r hr => absurd hr (Option.not_mem_none r)

theorem keeps_argument :
    (argument inner o).Keeps (Inside text) (Fault.PointsInto text) fun _ => True := by
  refine ((keeps_quoted hinner).orElse (hinner o).branch).optional.bind fun found _ => ?_
  cases found with
  | some node => exact .pure trivial
  | none =>
    refine keeps_peek.bind fun next _ => ?_
    cases next with
    | none => exact keeps_failHere
    | some x => exact .ite keeps_number (.ite keeps_bareWord keeps_failHere)

theorem keeps_arguments {close : Char} :
    (arguments inner o close).Keeps (Inside text) (Fault.PointsInto text) fun _ => True := by
  refine keeps_blanks.bind fun _ _ => keeps_eat.bind fun closed _ => .ite (.pure trivial) ?_
  refine (keeps_argument hinner).bind fun first _ => keeps_blanks.bind fun _ _ => ?_
  refine .bind (.fold (P := fun _ => True) (fun nodes _ => ?_) trivial) fun all _ => ?_
  · refine keeps_onChar.andThen fun _ _ => keeps_blanks.bind fun _ _ => ?_
    exact (keeps_argument hinner).bind fun node _ => keeps_blanks.bind fun _ _ => .pure trivial
  · exact keeps_eat.bind fun closed _ => .ite (.pure trivial) keeps_failHere

theorem keeps_argumentList {opening close : Char} :
    (argumentList inner o opening close).Keeps (Inside text) (Fault.PointsInto text)
      fun _ => True := by
  unfold argumentList
  refine .at_place fun c _ => keeps_onChar.andThen fun _ _ => ?_
  exact (keeps_arguments hinner).bind fun nodes _ => keeps_offset.bind fun _ _ => .pure trivial

theorem keeps_dotMember {target : Node} :
    (dotMember inner o target).Keeps (Inside text) (Fault.PointsInto text) fun _ => True := by
  refine keeps_onChar.andThen fun _ _ => keeps_blanks.bind fun _ _ => ?_
  refine keeps_functionName.bind fun function _ => keeps_blanks.bind fun _ _ => ?_
  refine (keeps_argumentList hinner).optional.bind fun arguments _ => ?_
  exact keeps_offset.bind fun stop _ => keeps_blanks.bind fun _ _ => .pure trivial

theorem keeps_indexMember {target : Node} :
    (indexMember inner o target).Keeps (Inside text) (Fault.PointsInto text) fun _ => True := by
  refine (keeps_argumentList hinner).andThen fun arguments _ => ?_
  exact keeps_offset.bind fun stop _ => keeps_blanks.bind fun _ _ => .pure trivial

theorem keeps_members {target : Node} :
    (members inner o target).Keeps (Inside text) (Fault.PointsInto text) fun _ => True :=
  keeps_blanks.bind fun _ _ => .fold
    (fun _ _ => (keeps_dotMember hinner).orElse (keeps_indexMember hinner)) trivial

theorem keeps_staticCall :
    (staticCall inner o).Keeps (Inside text) (Fault.PointsInto text) fun _ => True := by
  unfold staticCall
  refine .at_place fun c _ => keeps_onChar.andThen fun _ _ => keeps_takeWhile.bind fun cls _ => ?_
  refine .ite keeps_failHere.stop (keeps_expect.bind fun _ _ => keeps_offset.bind fun _ _ => ?_)
  refine keeps_blanks.bind fun _ _ => keeps_eat.bind fun colons _ => .ite keeps_failHere.stop ?_
  refine keeps_blanks.bind fun _ _ => keeps_functionName.bind fun function _ => ?_
  refine keeps_blanks.bind fun _ _ => (keeps_argumentList hinner).optional.bind fun _ _ => ?_
  exact keeps_offset.bind fun stop _ => keeps_members hinner

theorem keeps_propertyBody :
    (propertyBody inner o).Keeps (Inside text) (Fault.PointsInto text) fun _ => True := by
  refine (keeps_staticCall hinner).optional.bind fun found _ => ?_
  cases found with
  | some node => exact .pure trivial
  | none =>
    refine .bind .place fun c _ => .ite keeps_registryValue ?_
    exact keeps_name.bind fun _ _ => keeps_offset.bind fun _ _ => keeps_members hinner

theorem keeps_property {start : Nat} :
    (propertyFrom inner o start).Keeps (Inside text) (Fault.PointsInto text) fun _ => True :=
  keeps_blanks.bind fun _ _ => (keeps_propertyBody hinner).bind fun _ _ =>
    keeps_closed fun _ => trivial

theorem keeps_transformAfter {previous : Option Node} :
    (transformAfter inner o previous).Keeps (Inside text) (Fault.PointsInto text)
      fun _ => True := by
  unfold transformAfter
  refine .at_place fun c _ => keeps_onChar.andThen fun _ _ => keeps_take.bind fun _ _ => ?_
  refine keeps_blanks.bind fun _ _ => keeps_offset.bind fun here hhere => ?_
  refine keeps_peek.bind fun next _ => .ite (keeps_failAt hhere).stop ?_
  refine (keeps_quoted hinner).optional.bind fun found _ => ?_
  cases found with
  | some node =>
    refine .bind (P := fun _ => True) (.pure trivial) fun _ _ => ?_
    exact keeps_blanks.bind fun _ _ => .pure trivial
  | none =>
    refine keeps_functionName.bind fun function _ => keeps_blanks.bind fun _ _ => ?_
    refine (keeps_argumentList hinner).optional.bind fun found _ => ?_
    cases found with
    | none => exact keeps_peek.bind fun _ _ => keeps_failHere.stop
    | some arguments =>
      refine keeps_offset.bind fun stop _ => ?_
      refine .bind (P := fun _ => True) (.pure trivial) fun _ _ => ?_
      exact keeps_blanks.bind fun _ _ => .pure trivial

theorem keeps_separator :
    (separator inner o).Keeps (Inside text) (Fault.PointsInto text) fun _ => True := by
  refine keeps_onChar.andThen fun _ _ => keeps_blanks.bind fun _ _ => ?_
  refine (keeps_quoted hinner).optional.bind fun found _ => ?_
  cases found with
  | some node => exact .pure trivial
  | none => exact keeps_failHere

theorem keeps_item {start : Nat} (h : Boundary text start) :
    (itemFrom inner o start).Keeps (Inside text) (Fault.PointsInto text) fun _ => True := by
  refine .ite (keeps_failAt h).stop (keeps_blanks.bind fun _ _ => keeps_name.bind fun item _ => ?_)
  refine keeps_blanks.bind fun _ _ => .bind (.fold (P := fun _ => True) ?_ trivial) ?_
  · exact fun _ _ => keeps_transformAfter hinner
  · refine fun transform _ => (keeps_separator hinner).optional.bind fun separator _ => ?_
    exact keeps_closed fun _ => trivial

end

theorem keeps_referenceWith {c : Cursor} {inner : Inner (Position.size c)}
    (hinner : InnerPoints text inner) (hc : Inside text c) :
    Parsed.Keeps (Inside text) (Fault.PointsInto text) (referenceWith o c inner)
      fun _ => True := by
  unfold referenceWith
  split
  · exact Fault.points_syntactic hc.boundary
  · rename_i r _
    refine .andThen (P := fun _ => True) ⟨hc.reaches r.reaches, trivial⟩ fun sigil _ => ?_
    refine keeps_expect.bind fun _ _ => .ite (keeps_property hinner) (.ite ?_ (.ite ?_ ?_))
    · exact keeps_item hinner hc.boundary
    · exact keeps_metadata hc.boundary
    · exact keeps_failAt hc.boundary

/-- The references inside a reference begin behind its first character, so there is less text to
read them from. -/
theorem keeps_reference {c : Cursor} (hc : Inside text c) :
    Parsed.Keeps (Inside text) (Fault.PointsInto text) (reference o c) fun _ => True := by
  induction hsize : Position.size c using Nat.strongRecOn generalizing c o with
  | ind k ih =>
    rw [reference]
    exact keeps_referenceWith (fun o d hlt hd => ih _ (hsize ▸ hlt) hd rfl) hc

theorem innerPoints_anywhere : InnerPoints text (anywhere : Inner n) :=
  fun _ _ _ hd => keeps_reference hd

theorem keeps_segments :
    (segments o : Read n Node).Keeps (Inside text) (Fault.PointsInto text) fun _ => True := by
  refine keeps_offset.bind fun start _ => (keeps_concat innerPoints_anywhere).bind fun first _ => ?_
  refine .ite (.bind (.fold (P := fun _ => True) (fun nodes _ => ?_) trivial) fun all _ => ?_)
    (.pure trivial)
  · refine keeps_onChar.andThen fun _ _ => ?_
    exact (keeps_concat innerPoints_anywhere).bind fun node _ => .pure trivial
  · split
    · exact .pure trivial
    · exact keeps_offset.bind fun stop _ => .pure trivial

/-- What is read from a stretch of a text by itself fails at offsets of that text. -/
theorem points_of_from {c : Cursor} {p : Read (Position.size c + 1) α} (hc : Inside text c)
    (hp : p.Keeps (Inside text) (Fault.PointsInto text) P) {fault : Fault}
    (h : Read.from c p = .error fault) : fault.PointsInto text := by
  have hmeets := hp c (Nat.lt_succ_self _) hc
  unfold Read.from at h
  cases hresult : p c (Nat.lt_succ_self _) with
  | error e =>
    rw [hresult] at h hmeets
    cases h
    exact hmeets
  | ok r =>
    rw [hresult] at h
    cases h

end ProjectAnalysis.Expr
