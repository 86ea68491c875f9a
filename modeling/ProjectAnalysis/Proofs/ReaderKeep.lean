import ProjectAnalysis.Proofs.CursorRun

/-! Invariants of readers, with what is known of their faults. Where a reader begins at a place with
the invariant `I`, it stops at one, its value is as `P` says, and if it fails then with a fault as
`E` says. Every way to put readers together keeps this. -/
namespace ProjectAnalysis

/-- A result is as one predicate says, or it fails as the other one says. -/
def Meets {ε α : Type} (P : α → Prop) (E : ε → Prop) : Except ε α → Prop
  | .ok a => P a
  | .error e => E e

variable {σ ε : Type} [Position σ] {n : Nat} {α β : Type}

def Parsed.Keeps {s : σ} (I : σ → Prop) (E : ε → Prop) (x : Except ε (Parsed α s))
    (P : α → Prop) : Prop :=
  Meets (fun r => I r.next ∧ P r.value) E x

def Reader.Keeps (I : σ → Prop) (E : ε → Prop) (p : Reader σ ε n α) (P : α → Prop) : Prop :=
  ∀ s h, I s → Meets (fun r => I r.next ∧ P r.value) E (p s h)

def Step.Keeps (I : σ → Prop) (E : ε → Prop) (p : Step σ ε n α) (P : α → Prop) : Prop :=
  ∀ s h, I s → Parsed.Keeps I E (p s h) P

def Branch.Keeps (I : σ → Prop) (E : ε → Prop) (p : Branch σ ε n α) (P : α → Prop) : Prop :=
  ∀ s h, I s → Meets (fun found => ∀ r ∈ found, I r.next ∧ P r.value) E (p s h)

variable {I : σ → Prop} {E : ε → Prop} {P : α → Prop} {Q : β → Prop}

theorem Parsed.Keeps.andThen {s : σ} {r : Parsed α s} {f : α → Reader σ ε (Position.size s) β}
    (hr : I r.next ∧ P r.value) (hf : ∀ a, P a → (f a).Keeps I E Q) :
    Parsed.Keeps I E (r.andThen f) Q := by
  have hthen := hf r.value hr.2 r.next r.shorter hr.1
  unfold Parsed.Keeps Parsed.andThen
  split
  · rename_i e he
    rwa [he] at hthen
  · rename_i q hq
    rwa [hq] at hthen

/-- A construct and a reader after it. -/
theorem Parsed.Keeps.bind {s : σ} {x : Except ε (Parsed α s)}
    {f : α → Reader σ ε (Position.size s) β} (hx : Parsed.Keeps I E x P)
    (hf : ∀ a, P a → (f a).Keeps I E Q) :
    Parsed.Keeps I E (x >>= fun r => r.andThen f) Q := by
  cases x with
  | error e => exact hx
  | ok r => exact .andThen hx hf

namespace Reader.Keeps

variable {p q : Reader σ ε n α}

theorem bind {f : α → Reader σ ε n β} (hp : p.Keeps I E P) (hf : ∀ a, P a → (f a).Keeps I E Q) :
    (p >>= f).Keeps I E Q := by
  intro s h hs
  have hfirst := hp s h hs
  change Meets _ E (Reader.bind p f s h)
  unfold Reader.bind
  split
  · rename_i e he
    rwa [he] at hfirst
  · rename_i r hr
    rw [hr] at hfirst
    have hthen := hf r.value hfirst.2 r.next
      (Nat.lt_of_le_of_lt (Position.size_le r.reaches) h) hfirst.1
    split
    · rename_i e he
      rwa [he] at hthen
    · rename_i q hq
      rwa [hq] at hthen

theorem pure {a : α} (h : P a) : (Pure.pure a : Reader σ ε n α).Keeps I E P :=
  fun _ _ hs => ⟨hs, h⟩

theorem fail {e : ε} (h : E e) : (Reader.fail e : Reader σ ε n α).Keeps I E P :=
  fun _ _ _ => h

/-- Nothing is read after a reader that always fails. -/
theorem stop {f : α → Reader σ ε n β} (hp : p.Keeps I E fun _ => False) : (p >>= f).Keeps I E Q :=
  hp.bind nofun

/-- The place where a reader stands has the invariant. -/
theorem place : (Reader.place : Reader σ ε n σ).Keeps I E I :=
  fun _ _ hs => ⟨hs, hs⟩

theorem ite {c : Prop} [Decidable c] (hp : p.Keeps I E P) (hq : q.Keeps I E P) :
    (if c then p else q).Keeps I E P := by
  split
  · exact hp
  · exact hq

theorem fold {step : α → Branch σ ε n α} (hstep : ∀ a, P a → (step a).Keeps I E P) {a : α}
    (ha : P a) : (Reader.fold step a).Keeps I E P := by
  intro s h hs
  induction hsize : Position.size s using Nat.strongRecOn generalizing s a with
  | ind k ih =>
    have htaken := hstep a ha s h hs
    change Meets _ E (Branch.iterate step a s h)
    rw [Branch.iterate]
    split
    · rename_i e he
      rwa [he] at htaken
    · exact ⟨hs, ha⟩
    · rename_i r hr
      rw [hr] at htaken
      obtain ⟨hnext, hvalue⟩ := htaken r rfl
      have hmore := ih _ (hsize ▸ r.shorter) hvalue r.next (Nat.lt_trans r.shorter h) hnext rfl
      change Meets _ E (Branch.iterate step r.value r.next _) at hmore
      split
      · rename_i e he
        rwa [he] at hmore
      · rename_i q hq
        rwa [hq] at hmore

end Reader.Keeps

namespace Step.Keeps

variable {p : Step σ ε n α}

theorem read (hp : p.Keeps I E P) : p.read.Keeps I E P := by
  intro s h hs
  have hstep := hp s h hs
  unfold Step.read
  split
  · rename_i e he
    rwa [he] at hstep
  · rename_i r hr
    rwa [hr] at hstep

theorem branch {test : σ → Bool} (hp : p.Keeps I E P) : (Step.branch test p).Keeps I E P := by
  intro s h hs
  have hstep := hp s h hs
  unfold Step.branch
  split
  · split
    · rename_i e he
      rwa [he] at hstep
    · rename_i r hr
      rw [hr] at hstep
      intro r' hr'
      obtain rfl := Option.some.inj hr'
      exact hstep
  · exact fun r hr => absurd hr (Option.not_mem_none r)

end Step.Keeps

namespace Branch.Keeps

variable {p q : Branch σ ε n α}

theorem andThen {f : α → Reader σ ε n β} (hp : p.Keeps I E P)
    (hf : ∀ a, P a → (f a).Keeps I E Q) : (p.andThen f).Keeps I E Q := by
  intro s h hs
  have htaken := hp s h hs
  unfold Branch.andThen
  split
  · rename_i e he
    rwa [he] at htaken
  · exact fun r hr => absurd hr (Option.not_mem_none r)
  · rename_i r hr
    rw [hr] at htaken
    have hthen : Parsed.Keeps I E (r.andThen fun a t ht => f a t (Nat.lt_trans ht h)) Q :=
      .andThen (htaken r rfl) fun a ha t ht => hf a ha t (Nat.lt_trans ht h)
    split
    · rename_i e he
      rwa [he] at hthen
    · rename_i q hq
      rw [hq] at hthen
      intro q' hq'
      obtain rfl := Option.some.inj hq'
      exact hthen

theorem orElse (hp : p.Keeps I E P) (hq : q.Keeps I E P) : (p.orElse q).Keeps I E P := by
  intro s h hs
  unfold Branch.orElse
  split
  · exact hq s h hs
  · exact hp s h hs

theorem optional (hp : p.Keeps I E P) :
    p.optional.Keeps I E fun found => ∀ a ∈ found, P a := by
  intro s h hs
  have htaken := hp s h hs
  unfold Branch.optional
  split
  · rename_i e he
    rwa [he] at htaken
  · exact ⟨hs, fun a ha => absurd ha (Option.not_mem_none a)⟩
  · rename_i r hr
    rw [hr] at htaken
    obtain ⟨hnext, hvalue⟩ := htaken r rfl
    refine ⟨hnext, fun a ha => ?_⟩
    obtain rfl := Option.some.inj ha
    exact hvalue

/-- A branch that is made for the place where it begins. -/
theorem at_place {p : σ → Branch σ ε n α} (h : ∀ s, I s → (p s).Keeps I E P) :
    Branch.Keeps I E (fun s hs => p s s hs) P :=
  fun s hsize hs => h s hs s hsize hs

end Branch.Keeps

end ProjectAnalysis
