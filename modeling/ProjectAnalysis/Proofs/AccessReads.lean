import ProjectAnalysis.Proofs.AccessValue

/-! How often a file is read by a computation that runs undisturbed. The number is a function of the
files, and it adds up over the steps of the computation. -/
namespace ProjectAnalysis

variable {α β : Type} {s : FileStore} {k : List PathPart}

/-- How often a question reads the file under a key. -/
def Question.readsOf (k : List PathPart) : Question → Nat
  | .read p => if p.parts = k then 1 else 0
  | _ => 0

namespace Access

/-- How often a computation reads the file under a key while the files stay as they are and nobody
cancels. -/
def readsOf (s : FileStore) (k : List PathPart) : Access α → Nat
  | .done _ => 0
  | .ask q next => q.readsOf k + (next (q.answer false s).1).readsOf s k

theorem readsOf_congr {t : FileStore} (h : s.files = t.files) (x : Access α) :
    x.readsOf s k = x.readsOf t k := by
  induction x with
  | done a => rfl
  | ask q next ih => rw [readsOf, readsOf, Question.answer_fst_congr h q, ih]

/-- A run raises the counter of a file by as much as it reads the file. -/
theorem readCount_runIn (x : Access α) (m : Moment) (p : FilePath) :
    (x.runIn .quiet m).2.store.readCount p =
      m.store.readCount p + x.readsOf m.store p.parts := by
  induction x generalizing m with
  | done a => rfl
  | ask q next ih =>
    let s' := (q.answer false m.store).2
    have hfiles : s'.files = m.store.files := (Question.answer_snd_files m.store q).1
    have hq : s'.readCount p = m.store.readCount p + q.readsOf p.parts := by
      cases q with
      | read q => simp [s', Question.answer, Question.readsOf, FileStore.readCount,
          FileStore.noteRead, List.count_cons]
      | present | modified | cancelled => rfl
    calc ((ask q next).runIn .quiet m).2.store.readCount p
        = s'.readCount p + (next (q.answer false m.store).1).readsOf s' p.parts :=
          ih (q.answer false m.store).1 ⟨m.time + 1, s'⟩
      _ = m.store.readCount p + (ask q next).readsOf m.store p.parts := by
          rw [hq, readsOf_congr hfiles, readsOf, Nat.add_assoc]

@[simp] theorem readsOf_pure (a : α) : (pure a : Access α).readsOf s k = 0 := rfl

@[simp] theorem readsOf_bind (x : Access α) (f : α → Access β) :
    (x >>= f).readsOf s k = x.readsOf s k + (f (x.valueIn s)).readsOf s k := by
  induction x with
  | done a => exact (Nat.zero_add _).symm
  | ask q next ih =>
    change q.readsOf k + (next (q.answer false s).1 >>= f).readsOf s k = _
    rw [ih, readsOf, valueIn, Nat.add_assoc]

@[simp] theorem readsOf_present (p : FilePath) : (present p).readsOf s k = 0 := rfl

@[simp] theorem readsOf_modified (p : FilePath) : (modified p).readsOf s k = 0 := rfl

@[simp] theorem readsOf_cancelled : cancelled.readsOf s k = 0 := rfl

@[simp] theorem readsOf_read (p : FilePath) :
    (read p).readsOf s k = if p.parts = k then 1 else 0 := rfl

end Access

namespace Resolution

@[simp] theorem readsOf_run_lift (x : Access α) :
    (liftM x : Resolution α).run.readsOf s k = x.readsOf s k := by
  rw [resolution_run_lift, Access.readsOf_bind]
  rfl

@[simp] theorem readsOf_checkpoint : checkpoint.run.readsOf s k = 0 := by
  rw [checkpoint_run]
  rfl

theorem readsOf_run_bind {x : Resolution α} {a : α} (h : x.run.valueIn s = .ok a)
    (f : α → Resolution β) :
    (x >>= f).run.readsOf s k = x.run.readsOf s k + (f a).run.readsOf s k := by
  rw [resolution_run_bind, Access.readsOf_bind, h]

end Resolution

end ProjectAnalysis
