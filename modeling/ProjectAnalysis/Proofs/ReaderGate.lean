import ProjectAnalysis.Proofs.CursorRun

/-! Two readers of which one is stricter than the other. The stricter one is to give just those
values of the other that are allowed, and it does so if each part of it does. A part is told with
what is known before it: `C` is whether everything read so far is allowed, and `Q` is that with what
the part reads. -/
namespace ProjectAnalysis

variable {σ ε : Type} [Position σ] {n : Nat} {α β : Type} {C : Prop}

/-- After what is allowed, `p` gives what `q` gives, if that is allowed. -/
def Reader.Gated (C : Prop) (p q : Reader σ ε n α) (Q : α → Prop) : Prop :=
  ∀ s a t, C ∧ p.Gives s a t ↔ q.Gives s a t ∧ Q a

/-- After what is allowed, `p` takes what `q` takes, if that is allowed, and passes what `q`
passes. -/
structure Branch.Gated (C : Prop) (p q : Branch σ ε n α) (Q : α → Prop) : Prop where
  takes : ∀ s a t, C ∧ p.Takes s a t ↔ q.Takes s a t ∧ Q a
  passes : ∀ s, p.Passes s ↔ q.Passes s

namespace Reader.Gated

variable {p q : Reader σ ε n α} {P : α → Prop} {Q : β → Prop}

theorem bind {f g : α → Reader σ ε n β} (hp : Gated C p q P)
    (hf : ∀ a, Gated (P a) (f a) (g a) Q) : Gated C (p >>= f) (q >>= g) Q := by
  intro s b t
  rw [gives_bind, gives_bind]
  constructor
  · rintro ⟨hC, a, u, ha, hb⟩
    obtain ⟨ha, hP⟩ := (hp s a u).1 ⟨hC, ha⟩
    obtain ⟨hb, hQ⟩ := (hf a u b t).1 ⟨hP, hb⟩
    exact ⟨⟨a, u, ha, hb⟩, hQ⟩
  · rintro ⟨⟨a, u, ha, hb⟩, hQ⟩
    obtain ⟨hP, hb⟩ := (hf a u b t).2 ⟨hb, hQ⟩
    obtain ⟨hC, ha⟩ := (hp s a u).2 ⟨ha, hP⟩
    exact ⟨hC, a, u, ha, hb⟩

/-- What was allowed before stays so. -/
theorem keep (hp : Gated True p q P) : Gated C p q fun a => C ∧ P a := by
  intro s a t
  constructor
  · rintro ⟨hC, ha⟩
    obtain ⟨ha, hP⟩ := (hp s a t).1 ⟨trivial, ha⟩
    exact ⟨ha, hC, hP⟩
  · rintro ⟨ha, hC, hP⟩
    exact ⟨hC, ((hp s a t).2 ⟨ha, hP⟩).2⟩

theorem refl : Gated C p p fun _ => C :=
  fun _ _ _ => And.comm

theorem of_iff {D : Prop} (h : C ↔ D) (hp : Gated D p q P) : Gated C p q P :=
  propext h ▸ hp

/-- A part that both readers have in common. -/
theorem after {f g : α → Reader σ ε n β} (hf : ∀ a, Gated C (f a) (g a) Q) :
    Gated C (p >>= f) (p >>= g) Q :=
  refl.bind hf

/-- All that is given may be allowed by itself. -/
theorem of_gives (hC : C) (h : ∀ s a t, p.Gives s a t → P a) : Gated C p p P :=
  fun s a t => ⟨fun ha => ⟨ha.2, h s a t ha.2⟩, fun ha => ⟨hC, ha.1⟩⟩

theorem of_not_gives (hp : ∀ s a t, ¬p.Gives s a t) (hq : ∀ s a t, ¬q.Gives s a t) :
    Gated C p q P :=
  fun s a t => ⟨fun h => absurd h.2 (hp s a t), fun h => absurd h.1 (hq s a t)⟩

theorem pure {a : α} (h : C ↔ P a) : Gated C (Pure.pure a : Reader σ ε n α) (Pure.pure a) P := by
  intro s b t
  rw [gives_pure]
  constructor
  · rintro ⟨hC, hs, rfl, rfl⟩
    exact ⟨⟨hs, rfl, rfl⟩, h.1 hC⟩
  · rintro ⟨⟨hs, rfl, rfl⟩, hP⟩
    exact ⟨h.2 hP, hs, rfl, rfl⟩

theorem ite {c : Prop} [Decidable c] {p' q' : Reader σ ε n α} (h : Gated C p q P)
    (h' : Gated C p' q' P) : Gated C (if c then p else p') (if c then q else q') P := by
  split
  · exact h
  · exact h'

theorem fold {step step' : α → Branch σ ε n α}
    (h : ∀ a, (step a).Gated (P a) (step' a) P) (a : α) :
    Gated (P a) (Reader.fold step a) (Reader.fold step' a) P := by
  intro s b t
  -- A step that is taken reads something, so there is less left for the steps after it.
  induction hsize : Position.size s using Nat.strongRecOn generalizing s a with
  | ind k ih =>
    rw [gives_fold, gives_fold]
    constructor
    · rintro ⟨ha, ⟨hpass, rfl, rfl⟩ | ⟨a', u, htakes, hmore⟩⟩
      · exact ⟨Or.inl ⟨((h a).passes s).1 hpass, rfl, rfl⟩, ha⟩
      · obtain ⟨htakes, ha'⟩ := ((h a).takes s a' u).1 ⟨ha, htakes⟩
        obtain ⟨hmore, hb⟩ := (ih _ (hsize ▸ htakes.size_lt) a' u rfl).1 ⟨ha', hmore⟩
        exact ⟨Or.inr ⟨a', u, htakes, hmore⟩, hb⟩
    · rintro ⟨⟨hpass, rfl, rfl⟩ | ⟨a', u, htakes, hmore⟩, hb⟩
      · exact ⟨hb, Or.inl ⟨((h a).passes s).2 hpass, rfl, rfl⟩⟩
      · obtain ⟨ha', hmore⟩ := (ih _ (hsize ▸ htakes.size_lt) a' u rfl).2 ⟨hmore, hb⟩
        obtain ⟨ha, htakes⟩ := ((h a).takes s a' u).2 ⟨htakes, ha'⟩
        exact ⟨ha, Or.inr ⟨a', u, htakes, hmore⟩⟩

end Reader.Gated

namespace Branch.Gated

variable {p q : Branch σ ε n α} {P : α → Prop} {Q : β → Prop}

theorem refl : Gated C p p fun _ => C :=
  ⟨fun _ _ _ => And.comm, fun _ => Iff.rfl⟩

/-- What was allowed before stays so. -/
theorem keep (hp : Gated True p q P) : Gated C p q fun a => C ∧ P a := by
  refine ⟨fun s a t => ?_, hp.passes⟩
  constructor
  · rintro ⟨hC, ha⟩
    obtain ⟨ha, hP⟩ := (hp.takes s a t).1 ⟨trivial, ha⟩
    exact ⟨ha, hC, hP⟩
  · rintro ⟨ha, hC, hP⟩
    exact ⟨hC, ((hp.takes s a t).2 ⟨ha, hP⟩).2⟩

theorem andThen {f g : α → Reader σ ε n β} (hp : Gated C p q P)
    (hf : ∀ a, (f a).Gated (P a) (g a) Q) : Gated C (p.andThen f) (q.andThen g) Q := by
  refine ⟨fun s b t => ?_, fun s => ?_⟩
  · rw [takes_andThen, takes_andThen]
    constructor
    · rintro ⟨hC, a, u, ha, hb⟩
      obtain ⟨ha, hP⟩ := (hp.takes s a u).1 ⟨hC, ha⟩
      obtain ⟨hb, hQ⟩ := (hf a u b t).1 ⟨hP, hb⟩
      exact ⟨⟨a, u, ha, hb⟩, hQ⟩
    · rintro ⟨⟨a, u, ha, hb⟩, hQ⟩
      obtain ⟨hP, hb⟩ := (hf a u b t).2 ⟨hb, hQ⟩
      obtain ⟨hC, ha⟩ := (hp.takes s a u).2 ⟨ha, hP⟩
      exact ⟨hC, a, u, ha, hb⟩
  · rw [passes_andThen, passes_andThen]
    exact hp.passes s

theorem orElse {p' q' : Branch σ ε n α} (hp : Gated C p q P) (hp' : Gated C p' q' P) :
    Gated C (p.orElse p') (q.orElse q') P := by
  refine ⟨fun s a t => ?_, fun s => ?_⟩
  · rw [takes_orElse, takes_orElse, and_or_left, or_and_right, hp.takes, hp.passes,
      and_left_comm, hp'.takes, and_assoc]
  · rw [passes_orElse, passes_orElse, hp.passes, hp'.passes]

theorem optional (hp : Gated True p q P) :
    p.optional.Gated True q.optional fun found => ∀ a ∈ found, P a := by
  intro s found t
  rw [gives_optional, gives_optional]
  constructor
  · rintro ⟨-, ⟨hpass, rfl, rfl⟩ | ⟨a, ha, rfl⟩⟩
    · exact ⟨Or.inl ⟨(hp.passes s).1 hpass, rfl, rfl⟩, nofun⟩
    · obtain ⟨ha, hP⟩ := (hp.takes s a t).1 ⟨trivial, ha⟩
      refine ⟨Or.inr ⟨a, ha, rfl⟩, fun b hb => ?_⟩
      cases hb
      exact hP
  · rintro ⟨⟨hpass, rfl, rfl⟩ | ⟨a, ha, rfl⟩, hall⟩
    · exact ⟨trivial, Or.inl ⟨(hp.passes s).2 hpass, rfl, rfl⟩⟩
    · exact ⟨trivial, Or.inr ⟨a, ((hp.takes s a t).2 ⟨ha, hall a rfl⟩).2, rfl⟩⟩

/-- Goes on after a branch or where it is passed. If it can be taken just where everything before is
allowed, nothing else has to be known after it. -/
theorem optional_bind {f g : Option α → Reader σ ε n β} {s t : σ} {b : β} (hp : Gated True p q P)
    (htaken : ∀ a u, q.Takes s a u → C)
    (hsome : ∀ a, (f (some a)).Gated (P a) (g (some a)) Q)
    (hnone : (f none).Gated C (g none) Q) :
    C ∧ (p.optional >>= f).Gives s b t ↔ (q.optional >>= g).Gives s b t ∧ Q b := by
  rw [Reader.gives_bind, Reader.gives_bind]
  constructor
  · rintro ⟨hC, found, u, hfound, hb⟩
    obtain ⟨hfound, hP⟩ := (hp.optional s found u).1 ⟨trivial, hfound⟩
    cases found with
    | none =>
      obtain ⟨hb, hQ⟩ := (hnone u b t).1 ⟨hC, hb⟩
      exact ⟨⟨none, u, hfound, hb⟩, hQ⟩
    | some a =>
      obtain ⟨hb, hQ⟩ := (hsome a u b t).1 ⟨hP a rfl, hb⟩
      exact ⟨⟨some a, u, hfound, hb⟩, hQ⟩
  · -- What was allowed before is not known yet: it follows from what was taken, or from the rest.
    rintro ⟨⟨found, u, hfound, hb⟩, hQ⟩
    cases found with
    | none =>
      obtain ⟨hC, hb⟩ := (hnone u b t).2 ⟨hb, hQ⟩
      exact ⟨hC, none, u, ((hp.optional s none u).2 ⟨hfound, nofun⟩).2, hb⟩
    | some a =>
      obtain ⟨hP, hb⟩ := (hsome a u b t).2 ⟨hb, hQ⟩
      have hall : ∀ a' ∈ some a, P a' := fun a' ha => Option.some.inj ha ▸ hP
      rcases gives_optional.1 hfound with ⟨-, hnone, -⟩ | ⟨a', htakes, -⟩
      · cases hnone
      · exact ⟨htaken a' u htakes, some a, u, ((hp.optional s _ u).2 ⟨hfound, hall⟩).2, hb⟩

/-- A branch that is made for the place where it begins. -/
theorem at_place {p q : σ → Branch σ ε n α} (h : ∀ s, Gated C (p s) (q s) P) :
    Gated C (fun s hs => p s s hs) (fun s hs => q s s hs) P :=
  ⟨fun s => (h s).takes s, fun s => (h s).passes s⟩

end Branch.Gated

end ProjectAnalysis
