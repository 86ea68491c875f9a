import ProjectAnalysis.Proofs.ResolutionRun

/-! Computations beside files that stay as they are, while nobody cancels. A quiet run changes no
file and counts its reads only, so its result is a function of the files. -/
namespace ProjectAnalysis

variable {α β : Type}

namespace Question

/-- An answer depends on the files alone, not on what was read before. -/
theorem answer_fst_congr {s t : FileStore} (h : s.files = t.files) (q : Question) :
    (q.answer false s).1 = (q.answer false t).1 := by
  cases q <;>
    simp only [answer, FileStore.contains, FileStore.modified, FileStore.text, FileStore.file?, h]

theorem answer_snd_files (s : FileStore) (q : Question) :
    (q.answer false s).2.files = s.files ∧ (q.answer false s).2.clock = s.clock := by
  cases q <;> exact ⟨rfl, rfl⟩

end Question

namespace Access

/-- The result of a computation while the files stay as they are and nobody cancels. -/
def valueIn (s : FileStore) : Access α → α
  | .done a => a
  | .ask q next => (next (q.answer false s).1).valueIn s

theorem valueIn_congr {s t : FileStore} (h : s.files = t.files) (x : Access α) :
    x.valueIn s = x.valueIn t := by
  induction x with
  | done a => rfl
  | ask q next ih => rw [valueIn, valueIn, Question.answer_fst_congr h q, ih]

theorem runIn_quiet_files (x : Access α) (m : Moment) :
    (x.runIn .quiet m).2.store.files = m.store.files ∧
      (x.runIn .quiet m).2.store.clock = m.store.clock := by
  induction x generalizing m with
  | done a => exact ⟨rfl, rfl⟩
  | ask q next ih =>
    have hq := Question.answer_snd_files m.store q
    have hnext := ih (q.answer false m.store).1 ⟨m.time + 1, (q.answer false m.store).2⟩
    exact ⟨hnext.1.trans hq.1, hnext.2.trans hq.2⟩

theorem runIn_quiet_fst (x : Access α) (m : Moment) :
    (x.runIn .quiet m).1 = x.valueIn m.store := by
  induction x generalizing m with
  | done a => rfl
  | ask q next ih =>
    have hnext := ih (q.answer false m.store).1 ⟨m.time + 1, (q.answer false m.store).2⟩
    exact hnext.trans (valueIn_congr (Question.answer_snd_files m.store q).1 _)

variable (s : FileStore)

@[simp] theorem valueIn_pure (a : α) : (pure a : Access α).valueIn s = a := rfl

@[simp] theorem valueIn_bind (x : Access α) (f : α → Access β) :
    (x >>= f).valueIn s = (f (x.valueIn s)).valueIn s := by
  induction x with
  | done a => rfl
  | ask q next ih => exact ih (q.answer false s).1

@[simp] theorem valueIn_present (p : FilePath) : (present p).valueIn s = s.contains p := rfl

@[simp] theorem valueIn_modified (p : FilePath) : (modified p).valueIn s = s.modified p := rfl

@[simp] theorem valueIn_read (p : FilePath) : (read p).valueIn s = s.text p := rfl

@[simp] theorem valueIn_cancelled : cancelled.valueIn s = false := rfl

end Access

namespace Resolution

variable (s : FileStore)

@[simp] theorem valueIn_run_pure (a : α) : (pure a : Resolution α).run.valueIn s = .ok a := rfl

@[simp] theorem valueIn_run_lift (x : Access α) :
    (liftM x : Resolution α).run.valueIn s = .ok (x.valueIn s) := by
  rw [resolution_run_lift, Access.valueIn_bind]
  rfl

@[simp] theorem valueIn_checkpoint : checkpoint.run.valueIn s = .ok () := by
  rw [checkpoint_run]
  rfl

theorem valueIn_run_bind {x : Resolution α} {a : α} (h : x.run.valueIn s = .ok a)
    (f : α → Resolution β) : (x >>= f).run.valueIn s = (f a).run.valueIn s := by
  rw [resolution_run_bind, Access.valueIn_bind, h]

end Resolution

end ProjectAnalysis
