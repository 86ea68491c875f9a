import ProjectAnalysis.Resolver
import ProjectAnalysis.Proofs.AccessRun

/-! Runs of resolutions: computations that ask questions and may end as cancelled. Only a question
that finds the run cancelled makes a resolution fail. -/
namespace ProjectAnalysis

variable {α β : Type}

theorem resolution_run_bind (x : Resolution α) (f : α → Resolution β) :
    (x >>= f).run = x.run >>= fun r => match r with
      | .ok a => (f a).run
      | .error e => pure (.error e) := by
  refine congrArg (x.run >>= ·) (funext fun r => ?_)
  cases r <;> rfl

theorem resolution_run_lift (x : Access α) :
    (liftM x : Resolution α).run = x >>= fun a => pure (.ok a) := rfl

theorem checkpoint_run : checkpoint.run = Access.ask .cancelled fun c =>
    .done (if c then .error .cancelled else .ok ()) := by
  have h (c : Bool) : ExceptT.run (if c then throw .cancelled else pure () : Resolution Unit) =
      .done (if c then .error .cancelled else .ok ()) := by
    cases c <;> rfl
  exact congrArg (Access.ask .cancelled) (funext h)

/-- A resolution that fails only if it is cancelled. -/
def Resolution.Completes (x : Resolution α) : Prop :=
  ∀ (w : Surroundings) (m : Moment), ∃ a, (x.run.runIn w.patient m).1 = .ok a

namespace Resolution

theorem completes_pure (a : α) : Completes (pure a) := fun _ _ => ⟨a, rfl⟩

theorem completes_lift (x : Access α) : Completes (liftM x) := by
  intro w m
  refine ⟨(x.runIn w.patient m).1, ?_⟩
  rw [resolution_run_lift, Access.runIn_bind]
  rfl

theorem completes_checkpoint : Completes checkpoint := by
  intro w m
  rw [checkpoint_run]
  exact ⟨(), rfl⟩

theorem completes_bind {x : Resolution α} {f : α → Resolution β} (hx : x.Completes)
    (hf : ∀ a, (f a).Completes) : Completes (x >>= f) := by
  intro w m
  obtain ⟨a, ha⟩ := hx w m
  obtain ⟨b, hb⟩ := hf a w (x.run.runIn w.patient m).2
  refine ⟨b, ?_⟩
  rw [resolution_run_bind, Access.runIn_bind, ha]
  exact hb

end Resolution

namespace ImportWalk

variable (w : ImportWalk)

theorem visit_completes {enter : List ImportSite → Findings → Resolution Findings}
    (h : ∀ sites f, (enter sites f).Completes) (report : Bool)
    (sites : List (ImportSite × Option FilePath)) (ahead : ReadAhead) (f : Findings) :
    (w.visit enter report sites ahead f).Completes := by
  induction sites generalizing ahead f with
  | nil => exact Resolution.completes_pure f
  | cons site sites ih =>
    refine Resolution.completes_bind Resolution.completes_checkpoint fun _ => ?_
    dsimp only
    split
    · exact ih ahead _
    · refine Resolution.completes_bind (Resolution.completes_lift _) fun found => ?_
      cases found with
      | none => exact ih _ _
      | some found => exact Resolution.completes_bind (h _ _) fun f => ih _ f

theorem resolveSites_completes (depth : Nat) (report : Bool) (sites : List ImportSite)
    (f : Findings) : (w.resolveSites depth report sites f).Completes := by
  induction depth generalizing report sites f with
  | zero => exact Resolution.completes_pure f
  | succ depth ih =>
    refine Resolution.completes_bind (Resolution.completes_lift _) fun located => ?_
    refine Resolution.completes_bind (Resolution.completes_lift _) fun ahead => ?_
    exact w.visit_completes (ih false) report located ahead f

end ImportWalk

/-- Without a cancellation every resolution ends with a generation, whatever happens to the
files meanwhile. -/
theorem Resolver.resolution_completes (r : Resolver) (depth : Nat) (file : FilePath)
    (d : Xml.Document) (previous : Option Generation) :
    (r.resolution depth file d previous).Completes := by
  refine Resolution.completes_bind Resolution.completes_checkpoint fun _ => ?_
  refine Resolution.completes_bind Resolution.completes_checkpoint fun _ => ?_
  refine Resolution.completes_bind
    (ImportWalk.resolveSites_completes _ _ _ _ _) fun found => ?_
  exact Resolution.completes_bind Resolution.completes_checkpoint fun _ =>
    Resolution.completes_pure _

end ProjectAnalysis
