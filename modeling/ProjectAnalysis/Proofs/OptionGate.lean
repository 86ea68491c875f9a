import ProjectAnalysis.ExprParse
import ProjectAnalysis.Proofs.ConditionLanguage
import ProjectAnalysis.Proofs.LosslessTree
import ProjectAnalysis.Proofs.ReaderGate

/-! What the options for items and metadata do. They never change how a text is read: with fewer
options the same expressions are read, but for those that have items or metadata where these are
not allowed. -/
namespace ProjectAnalysis.Expr

/-- The same options with items and metadata. -/
def Options.widened (o : Options) : Options :=
  { o with items := true, metadata := true }

/-- The references inside are gated by their options. -/
def InnerGated {n : Nat} (inner : Inner n) : Prop :=
  ∀ o c a d, (inner o).Gives c a d ↔ (inner o.widened).Gives c a d ∧ Allowed o a

variable {n : Nat} {o : Options} {c d : Cursor} {a : Node} {C : Prop}

section
variable {α β : Type} {Q : β → Prop}

theorem gated_failHere {cause : SyntaxCause} : Reader.Gated C (failHere cause : Read n β)
    (failHere cause) Q :=
  .of_not_gives (fun _ _ _ => gives_failHere) (fun _ _ _ => gives_failHere)

theorem gated_failHere_bind {cause : SyntaxCause} {f g : α → Read n β} :
    Reader.Gated C (failHere cause >>= f) (failHere cause >>= g) Q := by
  refine .of_not_gives (fun s b t h => ?_) (fun s b t h => ?_)
  · obtain ⟨_, _, hfail, -⟩ := Reader.gives_bind.1 h
    exact gives_failHere hfail
  · obtain ⟨_, _, hfail, -⟩ := Reader.gives_bind.1 h
    exact gives_failHere hfail

/-- What an option forbids is not read without it. -/
theorem gated_guard {b : Bool} {cause : SyntaxCause} {k : Nat} {f g : α → Read n β}
    {p q : Read n β} (h : Reader.Gated (C ∧ b = true) p q Q) :
    Reader.Gated C (if !b then failAt cause k >>= f else p)
      (if !true then failAt cause k >>= g else q) Q := by
  intro s x t
  rw [gives_failAt_else, ← and_assoc]
  refine Iff.trans ?_ (h s x t)
  simp

end

theorem gated_literal (o : Options) {q lists : Bool} :
    (literal q lists : Read n _).Gated True (literal q lists) (AllowedAll o) := by
  refine .of_gives trivial fun s nodes t h => ?_
  obtain ⟨-, ⟨-, rfl, -⟩ | ⟨cs, -, -, -, rfl⟩⟩ := gives_literal.1 h
  · exact allowedAll_nil
  · exact allowedAll_singleton.2 (allowed_leaf rfl rfl rfl)

theorem gated_functionName (o : Options) :
    (functionName : Read n _).Gated True functionName (Allowed o) := by
  refine .of_gives trivial fun s a t h => ?_
  obtain ⟨-, cs, -, -, rfl⟩ := gives_functionName.1 h
  exact allowed_leaf rfl rfl rfl

theorem gated_number (o : Options) : (number : Read n _).Gated True number (Allowed o) := by
  unfold number
  refine .after fun start => .after fun first => .after fun more => .after fun stop => .pure ?_
  exact iff_of_true trivial (allowed_leaf rfl rfl rfl)

theorem gated_bareWord (o : Options) : (bareWord : Read n _).Gated True bareWord (Allowed o) := by
  unfold bareWord
  refine .after fun start => .after fun word => .after fun stop => .pure ?_
  exact iff_of_true trivial (allowed_leaf rfl rfl rfl)

theorem gated_registryValue (o : Options) :
    (registryValue : Read n _).Gated True registryValue (Allowed o) := by
  unfold registryValue
  refine .after fun start => .after fun _ => .after fun value => .after fun stop => .pure ?_
  exact iff_of_true trivial (allowed_leaf rfl rfl rfl)

/-- White space, a closing parenthesis, and a value that depends on the place behind it. -/
theorem gated_closed {α : Type} {f : Nat → α} {Q : α → Prop} (h : ∀ k, C ↔ Q (f k)) :
    Reader.Gated C (do Reader.blanks; expect ')'; return f (← Reader.offset) : Read n α)
      (do Reader.blanks; expect ')'; return f (← Reader.offset)) Q :=
  .after fun _ => .after fun _ => .after fun k => .pure (h k)

theorem gated_metadata (start : Nat) : (metadataFrom o start : Read n _).Gated True
    (metadataFrom o.widened start) (Allowed o) := by
  unfold metadataFrom
  refine gated_guard (.after fun _ => .after fun first => .after fun _ => ?_)
  rw [true_and]
  have howner (owner : Option String) (name : String) (stop : Nat) : o.metadata = true ↔
      Allowed o (.mk ⟨start, stop⟩ (.metadata owner name)) :=
    allowed_metadata.symm
  refine .after fun qualified => .ite (.after fun _ => .ite ?_ ?_) (.ite ?_ ?_)
  all_goals
    refine .after fun second => ?_
    cases second <;> exact gated_closed (howner _ _)

section
variable {inner : Inner n} (hinner : InnerGated inner)
include hinner

theorem gated_inner : (Step.branch startsReference (inner o)).Gated True
    (Step.branch startsReference (inner o.widened)) (Allowed o) := by
  refine ⟨fun s a t => ?_, fun s => ?_⟩
  · rw [Step.takes_branch, Step.takes_branch, hinner, true_and, and_assoc]
  · rw [Step.passes_branch, Step.passes_branch]

theorem gated_parts {q lists : Bool} : (parts inner o q lists).Gated True
    (parts inner o.widened q lists) (AllowedAll o) := by
  unfold parts
  refine (gated_literal o).bind fun first => .fold (fun nodes => ?_) first
  refine (gated_inner hinner).keep.andThen fun reference => ?_
  refine (gated_literal o).keep.bind fun more => .pure ?_
  rw [allowedAll_append, allowedAll_cons, and_assoc]

theorem gated_concat {q lists : Bool} : (concat inner o q lists).Gated True
    (concat inner o.widened q lists) (Allowed o) := by
  intro s a t
  rw [gives_concat, gives_concat]
  constructor
  · rintro ⟨-, nodes, hnodes, rfl⟩
    obtain ⟨hnodes, hall⟩ := (gated_parts hinner _ _ _).1 ⟨trivial, hnodes⟩
    exact ⟨⟨nodes, hnodes, rfl⟩, allowed_joined.2 hall⟩
  · rintro ⟨⟨nodes, hnodes, rfl⟩, hall⟩
    have hparts := (gated_parts hinner _ _ _).2 ⟨hnodes, allowed_joined.1 hall⟩
    exact ⟨trivial, nodes, hparts.2, rfl⟩

theorem gated_quoted : (quoted inner o).Gated True (quoted inner o.widened) (Allowed o) := by
  refine ⟨fun s a t => ?_, fun s => ?_⟩
  · rw [takes_quoted, takes_quoted]
    constructor
    · rintro ⟨-, hs, q, cs, e, hq, hcs, hread, hconcat⟩
      obtain ⟨hconcat, ha⟩ := (gated_concat hinner _ _ _).1 ⟨trivial, hconcat⟩
      exact ⟨⟨hs, q, cs, e, hq, hcs, hread, hconcat⟩, ha⟩
    · rintro ⟨⟨hs, q, cs, e, hq, hcs, hread, hconcat⟩, ha⟩
      have hcontent := (gated_concat hinner _ _ _).2 ⟨hconcat, ha⟩
      exact ⟨trivial, hs, q, cs, e, hq, hcs, hread, hcontent.2⟩
  · rw [passes_quoted, passes_quoted]

theorem gated_argument : (argument inner o).Gated True (argument inner o.widened) (Allowed o) := by
  unfold argument
  refine fun s a t => Branch.Gated.optional_bind
    ((gated_quoted hinner).orElse (gated_inner hinner)) (fun _ _ _ => trivial) ?_ ?_
  · exact fun node => .pure Iff.rfl
  · refine .after fun next => ?_
    cases next with
    | none => exact gated_failHere
    | some x => exact .ite (gated_number o) (.ite (gated_bareWord o) gated_failHere)

theorem gated_arguments {close : Char} : (arguments inner o close).Gated True
    (arguments inner o.widened close) (AllowedAll o) := by
  unfold arguments
  refine .after fun _ => .after fun closed => .ite (.pure (iff_of_true trivial allowedAll_nil)) ?_
  refine (gated_argument hinner).bind fun first => .after fun _ => ?_
  rw [← allowedAll_singleton]
  refine .bind (.fold (P := AllowedAll o) (fun nodes => ?_) [first]) fun all =>
    .after fun closed => .ite (.pure Iff.rfl) gated_failHere
  refine Branch.Gated.refl.andThen fun _ => .after fun _ => ?_
  refine (gated_argument hinner).keep.bind fun node => .after fun _ => .pure ?_
  rw [allowedAll_append, allowedAll_singleton]

theorem gated_argumentList {opening close : Char} : (argumentList inner o opening close).Gated True
    (argumentList inner o.widened opening close) (Allowed o) := by
  unfold argumentList
  refine .at_place fun c => Branch.Gated.refl.andThen fun _ => ?_
  refine (gated_arguments hinner).bind fun nodes => .after fun stop => .pure ?_
  exact Iff.symm (allowed_children rfl rfl)

theorem gated_call : (callArguments inner o).optional.Gated True
    (callArguments inner o.widened).optional fun found => ∀ a ∈ found, Allowed o a :=
  (gated_argumentList hinner).optional

theorem gated_dotMember {target : Node} : (dotMember inner o target).Gated (Allowed o target)
    (dotMember inner o.widened target) (Allowed o) := by
  unfold dotMember
  refine Branch.Gated.refl.andThen fun _ => .after fun _ => ?_
  refine (gated_functionName o).keep.bind fun function => .after fun _ => ?_
  refine (gated_call hinner).keep.bind fun arguments => .after fun stop => .after fun _ => .pure ?_
  refine Iff.trans ?_ (Iff.symm allowed_invocation)
  simp

theorem gated_indexMember {target : Node} : (indexMember inner o target).Gated (Allowed o target)
    (indexMember inner o.widened target) (Allowed o) := by
  unfold indexMember
  refine (gated_argumentList hinner).keep.andThen fun arguments => ?_
  refine .after fun stop => .after fun _ => .pure ?_
  refine Iff.trans ?_ (Iff.symm allowed_invocation)
  simp

theorem gated_members {target : Node} : (members inner o target).Gated (Allowed o target)
    (members inner o.widened target) (Allowed o) := by
  unfold members
  refine .after fun _ => .fold (fun target => ?_) target
  exact (gated_dotMember hinner).orElse (gated_indexMember hinner)

theorem gated_staticCall : (staticCall inner o).Gated True (staticCall inner o.widened)
    (Allowed o) := by
  unfold staticCall
  refine .at_place fun c => Branch.Gated.refl.andThen fun _ => .after fun cls => ?_
  refine .ite gated_failHere_bind (.after fun _ => .after fun stop => .after fun _ => ?_)
  refine .after fun colons => .ite gated_failHere_bind (.after fun _ => ?_)
  refine (gated_functionName o).bind fun function => .after fun _ => ?_
  refine (gated_call hinner).keep.bind fun arguments => .after fun stop' => ?_
  refine .of_iff ?_ (gated_members hinner)
  refine Iff.trans ?_ (Iff.symm allowed_invocation)
  have hclass : Allowed o (.mk ⟨c.offset, stop⟩ (.classReference (String.ofList (trim cls)))) :=
    allowed_leaf rfl rfl rfl
  simp [hclass]

theorem gated_propertyBody : (propertyBody inner o).Gated True (propertyBody inner o.widened)
    (Allowed o) := by
  unfold propertyBody
  refine fun s a t => (gated_staticCall hinner).optional_bind (fun _ _ _ => trivial) ?_ ?_
  · exact fun node => .pure Iff.rfl
  · refine .after fun c => .ite (gated_registryValue o) ?_
    refine .after fun property => .after fun stop => .of_iff ?_ (gated_members hinner)
    exact iff_of_true trivial (allowed_leaf rfl rfl rfl)

theorem gated_property (start : Nat) : (propertyFrom inner o start).Gated True
    (propertyFrom inner o.widened start) (Allowed o) := by
  unfold propertyFrom
  refine .after fun _ => (gated_propertyBody hinner).bind fun body => gated_closed fun stop => ?_
  refine Iff.trans ?_ (Iff.symm (allowed_children rfl rfl))
  exact Iff.symm allowedAll_singleton

theorem gated_separator : (separator inner o).Gated True (separator inner o.widened)
    (Allowed o) := by
  unfold separator
  refine Branch.Gated.refl.andThen fun _ => .after fun _ => fun s a t => ?_
  refine (gated_quoted hinner).optional_bind (fun _ _ _ => trivial) ?_ gated_failHere
  exact fun node => .pure Iff.rfl

variable (hspells : InnerSpells inner)
include hspells

theorem gated_quotedTransform : (quoted inner { o with metadata := true }).Gated True
    (quoted inner { o.widened with metadata := true }) (AllowedTransform o) := by
  have hquoted := gated_quoted hinner (o := { o with metadata := true })
  refine ⟨fun s a t => ?_, hquoted.passes⟩
  refine (hquoted.takes s a t).trans (and_congr_right fun htakes => ?_)
  exact (allowedTransform_quoted (spells_quoted hspells htakes).not_itemFunction).symm

theorem gated_transformAfter {previous : Option Node} :
    (transformAfter inner o previous).Gated (∀ t ∈ previous, AllowedTransform o t)
      (transformAfter inner o.widened previous) fun next => ∀ t ∈ next, AllowedTransform o t := by
  unfold transformAfter
  refine .at_place fun c => Branch.Gated.refl.andThen fun _ => ?_
  refine .after fun _ => .after fun _ => .after fun here => fun s next t => ?_
  rw [Reader.gives_peek_bind, Reader.gives_peek_bind, gives_failAt_else, gives_failAt_else,
    and_left_comm, and_assoc]
  refine and_congr_right fun hfirst => ?_
  refine (gated_quotedTransform hinner hspells).optional_bind
    (Q := fun next => ∀ t ∈ next, AllowedTransform o t) (fun a u htakes => ?_) ?_ ?_
  · -- A quoted transform is the first one.
    obtain rfl : previous = none := by
      rw [quote_of_takes_quoted htakes] at hfirst
      simpa using hfirst
    exact nofun
  · refine fun node => .bind (P := AllowedTransform o) (.pure Iff.rfl) fun node => ?_
    exact .after fun _ => .pure (by simp)
  · refine (gated_functionName o).keep.bind fun function => .after fun _ => ?_
    refine (gated_call hinner).keep.bind fun found => ?_
    cases found with
    | none => exact .after fun _ => gated_failHere_bind
    | some arguments =>
      refine .after fun stop => .bind (P := AllowedTransform o) (.pure ?_) fun node => ?_
      · exact Iff.trans (by simp) (Iff.symm allowedTransform_function)
      · exact .after fun _ => .pure (by simp)

theorem gated_item (start : Nat) : (itemFrom inner o start).Gated True
    (itemFrom inner o.widened start) (Allowed o) := by
  unfold itemFrom
  have htransforms : Reader.Gated True (Reader.fold (transformAfter inner o) none)
      (Reader.fold (transformAfter inner o.widened) none)
      fun transform => ∀ t ∈ transform, AllowedTransform o t :=
    .of_iff (iff_of_true trivial nofun)
      (.fold (P := fun transform => ∀ t ∈ transform, AllowedTransform o t)
        (fun _ => gated_transformAfter hinner hspells) none)
  refine gated_guard (.after fun _ => .after fun item => .after fun _ => ?_)
  rw [true_and]
  refine htransforms.keep.bind fun transform => ?_
  refine (gated_separator hinner).optional.keep.bind fun separator => gated_closed fun stop => ?_
  exact Iff.symm allowed_item

end

theorem gated_referenceWith {inner : Inner (Position.size c)} (hinner : InnerGated inner)
    (hspells : InnerSpells inner) : Parsed.Gives (referenceWith o c inner) a d ↔
      Parsed.Gives (referenceWith o.widened c inner) a d ∧ Allowed o a := by
  have hproperty (e : Cursor) := gated_property hinner (o := o) c.offset e a d
  have hitem (e : Cursor) := gated_item hinner hspells (o := o) c.offset e a d
  have hmetadata (e : Cursor) :=
    gated_metadata (n := Position.size c) (o := o) c.offset e a d
  simp only [true_and] at hproperty hitem hmetadata
  simp only [gives_referenceWith, hproperty, hitem, hmetadata, ← and_assoc, ← or_and_right,
    exists_and_right]

theorem gated_reference : Parsed.Gives (reference o c) a d ↔
    Parsed.Gives (reference o.widened c) a d ∧ Allowed o a := by
  -- A quoted transform is read with other options, so the induction is for all options at once.
  induction hsize : Position.size c using Nat.strongRecOn generalizing c o a d with
  | ind k ih =>
    rw [reference, reference]
    refine gated_referenceWith (fun o e b f => ?_) innerSpells_anywhere
    constructor
    · rintro ⟨hlt, hinside⟩
      obtain ⟨hinside, hb⟩ := (ih _ (hsize ▸ hlt) rfl).1 hinside
      exact ⟨⟨hlt, hinside⟩, hb⟩
    · rintro ⟨⟨hlt, hinside⟩, hb⟩
      exact ⟨hlt, (ih _ (hsize ▸ hlt) rfl).2 ⟨hinside, hb⟩⟩

theorem innerGated_anywhere : InnerGated (anywhere : Inner n) := by
  intro o c a d
  constructor
  · rintro ⟨hs, h⟩
    obtain ⟨h, ha⟩ := gated_reference.1 h
    exact ⟨⟨hs, h⟩, ha⟩
  · rintro ⟨⟨hs, h⟩, ha⟩
    exact ⟨hs, gated_reference.2 ⟨h, ha⟩⟩

theorem gated_segments : (segments o : Read n Node).Gated True (segments o.widened)
    (Allowed o) := by
  unfold segments
  refine .after fun start => (gated_concat innerGated_anywhere).bind fun first => ?_
  refine .ite ?_ (.pure Iff.rfl)
  rw [← allowedAll_singleton]
  refine .bind (.fold (P := AllowedAll o) (fun nodes => ?_) [first]) fun nodes => ?_
  · refine Branch.Gated.refl.andThen fun _ => ?_
    refine (gated_concat innerGated_anywhere).keep.bind fun node => .pure ?_
    rw [allowedAll_append, allowedAll_singleton]
  · split
    · exact .pure allowedAll_singleton
    · exact .after fun stop => .pure (Iff.symm (allowed_children rfl rfl))

/-- No metadata is exposed just if all of it stands in the quoted transforms of items. -/
theorem metadata_quoted_iff {o : Options} (ho : o.condition = false) {text : String}
    (h : parse o text = .ok a) : (∀ m ∈ a.exposedIn false, m.shape.isMetadata = false) ↔
      ∀ m ∈ a.preorder, m.shape.isMetadata = true →
        ∃ item ∈ a.preorder, ∃ t, item.quotedTransform? = some t ∧ m ∈ t.preorder := by
  obtain ⟨hi, hlaid⟩ := parse_laid h
  have hinside := (hlaid.of_mem List.mem_cons_self).2.2.2.2
  constructor
  · intro hnone m hm hmetadata
    obtain hexposed | ⟨hchain, -⟩ | hquoted := Node.exposedIn_or_quotedIn false hm
    · cases hmetadata.symm.trans (hnone m hexposed)
    · cases hchain
    · exact hquoted
  · intro hquoted m hexposed
    have hm := Node.mem_preorder_of_exposedIn hexposed
    have hexact := exact_of_parse ho h m hm
    cases hmetadata : m.shape.isMetadata with
    | false => rfl
    | true =>
      have hwide := (hexact.metadata hmetadata).start_lt_stop
      exact absurd (Or.inr (hquoted m hm hmetadata)) (hinside.not_quotedIn hwide hexposed)

/-- The options for items and metadata only forbid these: what is read with fewer of them is what is
read with both and has no item, or no metadata outside the quoted transforms of items. -/
theorem parse_gated (items metadata lists : Bool) (text : String) (e : Node) :
    parse ⟨items, metadata, lists, false⟩ text = .ok e ↔
      parse ⟨true, true, lists, false⟩ text = .ok e ∧
        (items = false → ∀ m ∈ e.preorder, m.shape.isItem = false) ∧
        (metadata = false → ∀ m ∈ e.preorder, m.shape.isMetadata = true →
          ∃ item ∈ e.preorder, ∃ t, item.quotedTransform? = some t ∧ m ∈ t.preorder) := by
  have hsegments (d : Cursor) :=
    gated_segments (n := Position.size (Cursor.ofText text.toList) + 1)
      (o := ⟨items, metadata, lists, false⟩) (.ofText text.toList) e d
  simp only [true_and] at hsegments
  have hgate : parse ⟨items, metadata, lists, false⟩ text = .ok e ↔
      parse ⟨true, true, lists, false⟩ text = .ok e ∧
        Allowed ⟨items, metadata, lists, false⟩ e := by
    simp only [parse_eq_ok, hsegments, exists_and_right, Options.widened]
  rw [hgate]
  refine and_congr_right fun h => ?_
  rw [← metadata_quoted_iff rfl h]
  exact ⟨fun hallowed => ⟨hallowed.items, hallowed.metadata⟩, fun hboth => ⟨hboth.1, hboth.2⟩⟩

-- Metadata is read in the transform, and no longer behind it.
example : (parse ⟨true, false, false, false⟩ "@(A->'%(B)')").isOk = true ∧
    (parse ⟨true, false, false, false⟩ "@(A->'%(B)')%(C)").isOk = false := by decide +kernel

end ProjectAnalysis.Expr
