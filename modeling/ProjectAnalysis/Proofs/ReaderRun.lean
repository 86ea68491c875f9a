import ProjectAnalysis.TextReader

/-! What readers give, told as relations between the place where a reader begins, its value and the
place where it stops. Each way to put readers together has one law, so a grammar can be read off the
readers that follow it. -/
namespace ProjectAnalysis

variable {σ ε : Type} [Position σ] {n : Nat} {α β : Type} {s t : σ}

/-- Something was read, with this value and up to this place. -/
def Parsed.Gives (x : Except ε (Parsed α s)) (a : α) (t : σ) : Prop :=
  ∃ r, x = .ok r ∧ r.value = a ∧ r.next = t

def Reader.Gives (p : Reader σ ε n α) (s : σ) (a : α) (t : σ) : Prop :=
  ∃ h r, p s h = .ok r ∧ r.value = a ∧ r.next = t

def Step.Gives (p : Step σ ε n α) (s : σ) (a : α) (t : σ) : Prop :=
  ∃ h, Parsed.Gives (p s h) a t

/-- The branch is taken. -/
def Branch.Takes (p : Branch σ ε n α) (s : σ) (a : α) (t : σ) : Prop :=
  ∃ h r, p s h = .ok (some r) ∧ r.value = a ∧ r.next = t

/-- Another construct begins here. -/
def Branch.Passes (p : Branch σ ε n α) (s : σ) : Prop :=
  ∃ h, p s h = .ok none

/-- Reading begins here and gives up. -/
def Reader.Fails (p : Reader σ ε n α) (s : σ) (e : ε) : Prop :=
  ∃ h, p s h = .error e

def Branch.Fails (p : Branch σ ε n α) (s : σ) (e : ε) : Prop :=
  ∃ h, p s h = .error e

theorem Parsed.Gives.size_lt {x : Except ε (Parsed α s)} {a : α} (h : Parsed.Gives x a t) :
    Position.size t < Position.size s := by
  obtain ⟨r, -, -, rfl⟩ := h
  exact r.shorter

theorem Parsed.not_gives_error (e : ε) (a : α) (t : σ) :
    ¬Parsed.Gives (.error e : Except ε (Parsed α s)) a t := by
  rintro ⟨r, h, -⟩
  cases h

theorem Parsed.Gives.unique {x : Except ε (Parsed α s)} {a b : α} {u : σ} (h : Parsed.Gives x a t)
    (h' : Parsed.Gives x b u) : a = b ∧ t = u := by
  obtain ⟨r, rfl, rfl, rfl⟩ := h
  obtain ⟨q, hq, rfl, rfl⟩ := h'
  obtain rfl := Except.ok.inj hq
  exact ⟨rfl, rfl⟩

section
variable {r : Parsed α s} {f : α → Reader σ ε (Position.size s) β}

theorem Parsed.andThen_of_ok {y : Reading β r.next} (h : f r.value r.next r.shorter = .ok y) :
    r.andThen f = .ok ⟨y.value, y.next, Position.trans r.reaches y.reaches,
      Nat.lt_of_le_of_lt (Position.size_le y.reaches) r.shorter⟩ := by
  unfold andThen
  rw [h]

theorem Parsed.ok_of_andThen {q : Parsed β s} (h : r.andThen f = .ok q) :
    ∃ y, f r.value r.next r.shorter = .ok y ∧ y.value = q.value ∧ y.next = q.next := by
  unfold andThen at h
  split at h
  · cases h
  · rename_i y hy
    obtain rfl := Except.ok.inj h
    exact ⟨y, hy, rfl, rfl⟩

/-- A construct and a reader after it. -/
theorem Parsed.gives_andThen {x : Except ε (Parsed α s)} {b : β} :
    Parsed.Gives (x >>= fun r => r.andThen f) b t ↔
      ∃ a u, Parsed.Gives x a u ∧ (f a).Gives u b t := by
  constructor
  · rintro ⟨q, hq, rfl, rfl⟩
    cases x with
    | error e => cases hq
    | ok r =>
      obtain ⟨y, hy, hvalue, hnext⟩ := ok_of_andThen (f := f) hq
      exact ⟨r.value, r.next, ⟨r, rfl, rfl, rfl⟩, r.shorter, y, hy, hvalue, hnext⟩
  · rintro ⟨a, u, ⟨r, rfl, rfl, rfl⟩, h, y, hy, rfl, rfl⟩
    exact ⟨_, andThen_of_ok hy, rfl, rfl⟩

end

/-- A construct fails where the reader after its beginning fails. -/
theorem Parsed.Gives.andThen_fails {x : Except ε (Parsed α s)} {a : α}
    {f : α → Reader σ ε (Position.size s) β} {e : ε} (h : Parsed.Gives x a t)
    (hf : (f a).Fails t e) : (x >>= fun r => r.andThen f) = .error e := by
  obtain ⟨r, rfl, rfl, rfl⟩ := h
  obtain ⟨_, hf⟩ := hf
  change r.andThen f = .error e
  unfold andThen
  rw [hf]

namespace Reader

theorem Gives.reaches {p : Reader σ ε n α} {a : α} (h : p.Gives s a t) :
    Position.Reaches s t := by
  obtain ⟨-, r, -, -, rfl⟩ := h
  exact r.reaches

theorem Gives.size_le {p : Reader σ ε n α} {a : α} (h : p.Gives s a t) :
    Position.size t ≤ Position.size s :=
  Position.size_le h.reaches

theorem gives_pure {a b : α} :
    (Pure.pure a : Reader σ ε n α).Gives s b t ↔ Position.size s < n ∧ a = b ∧ s = t := by
  constructor
  · rintro ⟨h, r, hr, rfl, rfl⟩
    cases hr
    exact ⟨h, rfl, rfl⟩
  · rintro ⟨h, rfl, rfl⟩
    exact ⟨h, _, rfl, rfl, rfl⟩

theorem gives_bind {p : Reader σ ε n α} {f : α → Reader σ ε n β} {b : β} :
    (p >>= f).Gives s b t ↔ ∃ a u, p.Gives s a u ∧ (f a).Gives u b t := by
  constructor
  · rintro ⟨h, q, hq, rfl, rfl⟩
    change Reader.bind p f s h = .ok q at hq
    unfold Reader.bind at hq
    split at hq
    · cases hq
    · rename_i r hr
      split at hq
      · cases hq
      · rename_i y hy
        obtain rfl := Except.ok.inj hq
        exact ⟨r.value, r.next, ⟨h, r, hr, rfl, rfl⟩, _, y, hy, rfl, rfl⟩
  · rintro ⟨a, u, ⟨h, r, hr, rfl, rfl⟩, h', q, hq, rfl, rfl⟩
    have hbind : (p >>= f) s h =
        .ok ⟨q.value, q.next, Position.trans r.reaches q.reaches⟩ := by
      change Reader.bind p f s h = _
      unfold Reader.bind
      rw [hr]
      dsimp only
      rw [hq]
    exact ⟨h, _, hbind, rfl, rfl⟩

theorem Fails.bind {p : Reader σ ε n α} {e : ε} (h : p.Fails s e)
    (f : α → Reader σ ε n β) : (p >>= f).Fails s e := by
  obtain ⟨h, hp⟩ := h
  refine ⟨h, ?_⟩
  change Reader.bind p f s h = _
  unfold Reader.bind
  rw [hp]

theorem Gives.bind_fails {p : Reader σ ε n α} {f : α → Reader σ ε n β} {a : α} {e : ε}
    (h : p.Gives s a t) (hf : (f a).Fails t e) : (p >>= f).Fails s e := by
  obtain ⟨h, r, hr, rfl, rfl⟩ := h
  obtain ⟨_, hf⟩ := hf
  refine ⟨h, ?_⟩
  change Reader.bind p f s h = _
  unfold Reader.bind
  rw [hr]
  dsimp only
  rw [hf]

theorem gives_map {p : Reader σ ε n α} {f : α → β} {b : β} :
    (f <$> p).Gives s b t ↔ ∃ a, p.Gives s a t ∧ f a = b := by
  have hmap : f <$> p = p >>= fun a => Pure.pure (f a) := rfl
  rw [hmap, gives_bind]
  simp only [gives_pure]
  constructor
  · rintro ⟨a, u, ha, -, rfl, rfl⟩
    exact ⟨a, ha, rfl⟩
  · rintro ⟨a, ha, rfl⟩
    obtain ⟨h, -⟩ := id ha
    exact ⟨a, t, ha, Nat.lt_of_le_of_lt ha.size_le h, rfl, rfl⟩

theorem not_gives_fail (e : ε) (a : α) : ¬(fail e : Reader σ ε n α).Gives s a t := by
  rintro ⟨h, r, hr, -⟩
  cases hr

theorem gives_place {u : σ} :
    (place : Reader σ ε n σ).Gives s u t ↔ Position.size s < n ∧ s = u ∧ s = t := by
  constructor
  · rintro ⟨h, r, hr, rfl, rfl⟩
    cases hr
    exact ⟨h, rfl, rfl⟩
  · rintro ⟨h, rfl, rfl⟩
    exact ⟨h, _, rfl, rfl, rfl⟩

/-- A repetition stops where the branch is passed by, or goes on after it was taken. -/
theorem gives_fold {step : α → Branch σ ε n α} {a b : α} :
    (fold step a).Gives s b t ↔ ((step a).Passes s ∧ a = b ∧ s = t) ∨
      ∃ a' u, (step a).Takes s a' u ∧ (fold step a').Gives u b t := by
  constructor
  · rintro ⟨h, q, hq, rfl, rfl⟩
    change Branch.iterate step a s h = .ok q at hq
    rw [Branch.iterate] at hq
    split at hq
    · cases hq
    · rename_i hpass
      obtain rfl := Except.ok.inj hq
      exact Or.inl ⟨⟨h, hpass⟩, rfl, rfl⟩
    · rename_i r hr
      split at hq
      · cases hq
      · rename_i y hy
        obtain rfl := Except.ok.inj hq
        exact Or.inr ⟨r.value, r.next, ⟨h, r, hr, rfl, rfl⟩, _, y, hy, rfl, rfl⟩
  · rintro (⟨⟨h, hpass⟩, rfl, rfl⟩ | ⟨a', u, ⟨h, r, hr, rfl, rfl⟩, h', q, hq, rfl, rfl⟩)
    · have hstop : fold step a s h = .ok ⟨a, s, Position.refl s⟩ := by
        change Branch.iterate step a s h = _
        rw [Branch.iterate, hpass]
      exact ⟨h, _, hstop, rfl, rfl⟩
    · have hmore : fold step a s h =
          .ok ⟨q.value, q.next, Position.trans r.reaches q.reaches⟩ := by
        change Branch.iterate step a s h = _
        rw [Branch.iterate, hr]
        dsimp only
        have hnext : Branch.iterate step r.value r.next (Nat.lt_trans r.shorter h) = .ok q := hq
        rw [hnext]
      exact ⟨h, _, hmore, rfl, rfl⟩

theorem fails_fold {step : α → Branch σ ε n α} {a : α} {e : ε} (h : (step a).Fails s e) :
    (fold step a).Fails s e := by
  obtain ⟨h, hstep⟩ := h
  refine ⟨h, ?_⟩
  change Branch.iterate step a s h = _
  rw [Branch.iterate, hstep]

/-- What holds at first and is kept whenever the branch is taken holds where a repetition stops, and
there the branch is passed by. -/
theorem Gives.fold_induction {step : α → Branch σ ε n α} {P : α → σ → Prop}
    (hstep : ∀ a s b t, P a s → (step a).Takes s b t → P b t) {a b : α}
    (h : (fold step a).Gives s b t) (ha : P a s) : P b t ∧ (step b).Passes t := by
  induction hsize : Position.size s using Nat.strongRecOn generalizing s a with
  | ind k ih =>
    rcases gives_fold.1 h with ⟨hpass, rfl, rfl⟩ | ⟨c, u, htakes, hrest⟩
    · exact ⟨ha, hpass⟩
    · have hu : Position.size u < k := by
        obtain ⟨_, r, -, -, rfl⟩ := htakes
        exact hsize ▸ r.shorter
      exact ih (Position.size u) hu hrest (hstep a s c u ha htakes) rfl

end Reader

namespace Step

theorem Gives.size_lt {p : Step σ ε n α} {a : α} (h : p.Gives s a t) :
    Position.size t < Position.size s := by
  obtain ⟨_, h⟩ := h
  exact h.size_lt

theorem Gives.bound {p : Step σ ε n α} {a : α} (h : p.Gives s a t) : Position.size s < n := by
  obtain ⟨hs, _⟩ := h
  exact hs

theorem gives_read {p : Step σ ε n α} {a : α} : p.read.Gives s a t ↔ p.Gives s a t := by
  constructor
  · rintro ⟨h, q, hq, rfl, rfl⟩
    unfold read at hq
    split at hq
    · cases hq
    · rename_i r hr
      obtain rfl := Except.ok.inj hq
      exact ⟨h, r, hr, rfl, rfl⟩
  · rintro ⟨h, r, hr, rfl, rfl⟩
    have hread : p.read s h = .ok ⟨r.value, r.next, r.reaches⟩ := by
      unfold read
      rw [hr]
    exact ⟨h, _, hread, rfl, rfl⟩

theorem takes_branch {test : σ → Bool} {p : Step σ ε n α} {a : α} :
    (branch test p).Takes s a t ↔ test s = true ∧ p.Gives s a t := by
  unfold branch
  constructor
  · rintro ⟨h, r, hr, rfl, rfl⟩
    dsimp only at hr
    split at hr
    · rename_i htest
      split at hr
      · cases hr
      · rename_i q hq
        obtain rfl := Option.some.inj (Except.ok.inj hr)
        exact ⟨htest, h, q, hq, rfl, rfl⟩
    · cases hr
  · rintro ⟨htest, h, r, hr, rfl, rfl⟩
    refine ⟨h, r, ?_, rfl, rfl⟩
    dsimp only
    rw [if_pos htest, hr]

theorem fails_branch {test : σ → Bool} {p : Step σ ε n α} {e : ε} (htest : test s = true)
    (h : Position.size s < n) (hp : p s h = .error e) : (branch test p).Fails s e := by
  refine ⟨h, ?_⟩
  unfold branch
  rw [if_pos htest, hp]

theorem passes_branch {test : σ → Bool} {p : Step σ ε n α} :
    (branch test p).Passes s ↔ Position.size s < n ∧ test s = false := by
  unfold branch
  constructor
  · rintro ⟨h, hpass⟩
    dsimp only at hpass
    split at hpass
    · split at hpass <;> cases hpass
    · rename_i htest
      exact ⟨h, Bool.not_eq_true _ ▸ htest⟩
  · rintro ⟨h, htest⟩
    refine ⟨h, ?_⟩
    dsimp only
    rw [htest, if_neg Bool.false_ne_true]

end Step

namespace Branch

theorem Takes.size_lt {p : Branch σ ε n α} {a : α} (h : p.Takes s a t) :
    Position.size t < Position.size s := by
  obtain ⟨_, r, -, -, rfl⟩ := h
  exact r.shorter

theorem Takes.bound {p : Branch σ ε n α} {a : α} (h : p.Takes s a t) : Position.size s < n := by
  obtain ⟨hs, _⟩ := h
  exact hs

theorem takes_andThen {p : Branch σ ε n α} {f : α → Reader σ ε n β} {b : β} :
    (p.andThen f).Takes s b t ↔ ∃ a u, p.Takes s a u ∧ (f a).Gives u b t := by
  unfold andThen
  constructor
  · rintro ⟨h, q, hq, rfl, rfl⟩
    dsimp only at hq
    split at hq
    · cases hq
    · cases hq
    · rename_i r hr
      split at hq
      · cases hq
      · rename_i y hy
        obtain rfl := Option.some.inj (Except.ok.inj hq)
        obtain ⟨z, hz, hvalue, hnext⟩ := Parsed.ok_of_andThen hy
        exact ⟨r.value, r.next, ⟨h, r, hr, rfl, rfl⟩, _, z, hz, hvalue, hnext⟩
  · rintro ⟨a, u, ⟨h, r, hr, rfl, rfl⟩, h', y, hy, rfl, rfl⟩
    have hthen := Parsed.andThen_of_ok (r := r)
      (f := fun a t (ht : Position.size t < Position.size s) => f a t (Nat.lt_trans ht h)) hy
    refine ⟨h, ⟨y.value, y.next, Position.trans r.reaches y.reaches,
      Nat.lt_of_le_of_lt (Position.size_le y.reaches) r.shorter⟩, ?_, rfl, rfl⟩
    dsimp only
    rw [hr]
    dsimp only
    rw [hthen]

theorem Fails.andThen {p : Branch σ ε n α} {e : ε} (h : p.Fails s e)
    (f : α → Reader σ ε n β) : (p.andThen f).Fails s e := by
  obtain ⟨h, hp⟩ := h
  refine ⟨h, ?_⟩
  unfold Branch.andThen
  rw [hp]

theorem passes_andThen {p : Branch σ ε n α} {f : α → Reader σ ε n β} :
    (p.andThen f).Passes s ↔ p.Passes s := by
  unfold andThen
  constructor
  · rintro ⟨h, hpass⟩
    dsimp only at hpass
    split at hpass
    · cases hpass
    · rename_i hp
      exact ⟨h, hp⟩
    · split at hpass <;> cases hpass
  · rintro ⟨h, hpass⟩
    refine ⟨h, ?_⟩
    dsimp only
    rw [hpass]

/-- A branch that is made for the place where it begins. -/
theorem takes_at {p : σ → Branch σ ε n α} {a : α} :
    (Takes (fun s h => p s s h) s a t) ↔ (p s).Takes s a t := Iff.rfl

theorem passes_at {p : σ → Branch σ ε n α} :
    (Passes (fun s h => p s s h) s) ↔ (p s).Passes s := Iff.rfl

theorem takes_orElse {p q : Branch σ ε n α} {a : α} :
    (p.orElse q).Takes s a t ↔ p.Takes s a t ∨ (p.Passes s ∧ q.Takes s a t) := by
  unfold orElse
  constructor
  · rintro ⟨h, r, hr, rfl, rfl⟩
    dsimp only at hr
    split at hr
    · rename_i hpass
      exact Or.inr ⟨⟨h, hpass⟩, h, r, hr, rfl, rfl⟩
    · exact Or.inl ⟨h, r, hr, rfl, rfl⟩
  · rintro (⟨h, r, hr, rfl, rfl⟩ | ⟨⟨h, hpass⟩, _, r, hr, rfl, rfl⟩)
    · refine ⟨h, r, ?_, rfl, rfl⟩
      dsimp only
      rw [hr]
    · refine ⟨h, r, ?_, rfl, rfl⟩
      dsimp only
      rw [hpass, hr]

theorem passes_orElse {p q : Branch σ ε n α} :
    (p.orElse q).Passes s ↔ p.Passes s ∧ q.Passes s := by
  unfold orElse
  constructor
  · rintro ⟨h, hpass⟩
    dsimp only at hpass
    split at hpass
    · rename_i hp
      exact ⟨⟨h, hp⟩, h, hpass⟩
    · rename_i hp
      exact absurd hpass hp
  · rintro ⟨⟨h, hp⟩, _, hq⟩
    refine ⟨h, ?_⟩
    dsimp only
    rw [hp, hq]

theorem gives_optional {p : Branch σ ε n α} {b : Option α} :
    p.optional.Gives s b t ↔
      (p.Passes s ∧ b = none ∧ s = t) ∨ ∃ a, p.Takes s a t ∧ b = some a := by
  unfold optional
  constructor
  · rintro ⟨h, q, hq, rfl, rfl⟩
    dsimp only at hq
    split at hq
    · cases hq
    · rename_i hpass
      obtain rfl := Except.ok.inj hq
      exact Or.inl ⟨⟨h, hpass⟩, rfl, rfl⟩
    · rename_i r hr
      obtain rfl := Except.ok.inj hq
      exact Or.inr ⟨r.value, ⟨h, r, hr, rfl, rfl⟩, rfl⟩
  · rintro (⟨⟨h, hpass⟩, rfl, rfl⟩ | ⟨a, ⟨h, r, hr, rfl, rfl⟩, rfl⟩)
    · refine ⟨h, ⟨none, s, Position.refl s⟩, ?_, rfl, rfl⟩
      dsimp only
      rw [hpass]
    · refine ⟨h, ⟨some r.value, r.next, r.reaches⟩, ?_, rfl, rfl⟩
      dsimp only
      rw [hr]

theorem Takes.optional {p : Branch σ ε n α} {a : α} (h : p.Takes s a t) :
    p.optional.Gives s (some a) t :=
  gives_optional.2 (Or.inr ⟨a, h, rfl⟩)

theorem Passes.optional {p : Branch σ ε n α} (h : p.Passes s) : p.optional.Gives s none s :=
  gives_optional.2 (Or.inl ⟨h, rfl, rfl⟩)

theorem Takes.fold {step : α → Branch σ ε n α} {a b c : α} {u : σ} (h : (step a).Takes s b u)
    (hmore : (Reader.fold step b).Gives u c t) : (Reader.fold step a).Gives s c t :=
  Reader.gives_fold.2 (Or.inr ⟨b, u, h, hmore⟩)

theorem Passes.fold {step : α → Branch σ ε n α} {a : α} (h : (step a).Passes s) :
    (Reader.fold step a).Gives s a s :=
  Reader.gives_fold.2 (Or.inl ⟨h, rfl, rfl⟩)

end Branch

end ProjectAnalysis
