import ProjectAnalysis.Proofs.ImportReuse

/-! Files that others write and remove while a computation asks for them. Between two questions
anything may be written or removed, so of the files only such facts last as no write and no removal
ends; what a computation always ends with is told question by question. -/
namespace ProjectAnalysis

/-- A change of the files by others. -/
inductive FileChange
  | write (path : FilePath) (text : String)
  | remove (path : FilePath)

def FileChange.apply (s : FileStore) : FileChange → FileStore
  | .write p text => s.write p text
  | .remove p => s.remove p

/-- Surroundings in which files are written and removed, and nothing else happens to them. -/
def Surroundings.changing (changes : Nat → List FileChange) (cancelled : Nat → Bool) :
    Surroundings :=
  ⟨fun time s => (changes time).foldl FileChange.apply s, cancelled⟩

namespace FileStore

variable {s s' s'' : FileStore}

theorem Follows.refl (s : FileStore) : s.Follows s := follows_of_files_eq rfl rfl

theorem Follows.trans (h : s.Follows s') (h' : s'.Follows s'') : s.Follows s'' := by
  refine ⟨Nat.le_trans h.clock_le h'.clock_le, fun k f hf => ?_⟩
  rcases h'.files k f hf with hmid | ⟨hnew, hle⟩
  · rcases h.files k f hmid with hold | ⟨hnew, hle⟩
    · exact Or.inl hold
    · exact Or.inr ⟨hnew, Nat.le_trans hle h'.clock_le⟩
  · exact Or.inr ⟨Nat.lt_of_le_of_lt h.clock_le hnew, hle⟩

theorem follows_changes (s : FileStore) (changes : List FileChange) :
    s.Follows (changes.foldl FileChange.apply s) := by
  induction changes generalizing s with
  | nil => exact Follows.refl s
  | cons change changes ih =>
    have hfirst : s.Follows (change.apply s) := by
      cases change with
      | write p text => exact follows_write s p text
      | remove p => exact follows_remove s p
    exact hfirst.trans (ih (change.apply s))

/-- A fact about files that outlasts every write and every removal. -/
def Stable (P : FileStore → Prop) : Prop :=
  ∀ s s' : FileStore, s.Follows s' → P s → P s'

theorem Stable.and {P Q : FileStore → Prop} (hP : Stable P) (hQ : Stable Q) :
    Stable fun s => P s ∧ Q s :=
  fun s s' hs h => ⟨hP s s' hs h.1, hQ s s' hs h.2⟩

end FileStore

namespace Question

theorem follows_answer (cancelled : Bool) (s : FileStore) (q : Question) :
    s.Follows (q.answer cancelled s).2 := by
  cases q <;> exact FileStore.follows_of_files_eq rfl rfl

/-- One question, with what others do before it. -/
theorem follows_changed_answer (changes : List FileChange) (cancelled : Bool) (s : FileStore)
    (q : Question) : s.Follows (q.answer cancelled (changes.foldl FileChange.apply s)).2 :=
  (s.follows_changes changes).trans (follows_answer cancelled _ q)

end Question

namespace Access

open FileStore (Stable)

variable {α β : Type}

/-- Whatever is written and removed before its questions, the computation ends with a value that
fits the files of that moment. -/
def Always (Q : FileStore → α → Prop) : Access α → FileStore → Prop
  | .done a, s => Q s a
  | .ask q next, s => ∀ s', s.Follows s' → s'.Timely → ∀ cancelled,
      (next (q.answer cancelled s').1).Always Q (q.answer cancelled s').2

variable {P : FileStore → Prop} {Q R : FileStore → α → Prop} {x : Access α} {s s' : FileStore}

theorem Always.mono (h : x.Always Q s) (hQR : ∀ s a, Q s a → R s a) : x.Always R s := by
  induction x generalizing s with
  | done a => exact hQR s a h
  | ask q next ih => exact fun s' hs' htimely cancelled => ih _ (h s' hs' htimely cancelled)

/-- Others may have changed the files before the computation begins. -/
theorem Always.later (hQ : ∀ a, Stable (Q · a)) (h : x.Always Q s) (hs : s.Follows s') :
    x.Always Q s' := by
  cases x with
  | done a => exact hQ a s s' hs h
  | ask q next =>
    exact fun s'' hs'' htimely cancelled => h s'' (hs.trans hs'') htimely cancelled

/-- A stable fact still holds after any computation. -/
theorem Always.keeping (hP : Stable P) (hs : P s) (h : x.Always Q s) :
    x.Always (fun s a => P s ∧ Q s a) s := by
  induction x generalizing s with
  | done a => exact ⟨hs, h⟩
  | ask q next ih =>
    intro s' hs' htimely cancelled
    have hanswer := Question.follows_answer cancelled s' q
    have hlater := hP _ _ (hs'.trans hanswer) hs
    exact ih _ hlater (h s' hs' htimely cancelled)

theorem always_of_stable (hP : Stable P) (hs : P s) (x : Access α) :
    x.Always (fun s _ => P s) s := by
  have htrue : x.Always (fun _ _ => True) s := by
    induction x generalizing s with
    | done a => trivial
    | ask q next ih =>
      intro s' hs' _ cancelled
      have hanswer := Question.follows_answer cancelled s' q
      exact ih _ (hP _ _ (hs'.trans hanswer) hs)
  exact (htrue.keeping hP hs).mono fun _ _ h => h.1

theorem Always.bind {f : α → Access β} {R : FileStore → β → Prop}
    (h : x.Always (fun s a => (f a).Always R s) s) : (x >>= f).Always R s := by
  induction x generalizing s with
  | done a => exact h
  | ask q next ih => exact fun s' hs' htimely cancelled => ih _ (h s' hs' htimely cancelled)

/-- The time of a file is its time at the moment of the question. -/
theorem Always.modified_bind {p : FilePath} {next : Except FileFault Nat → Access α}
    (h : ∀ s', s.Follows s' → s'.Timely → (next (s'.modified p)).Always Q s') :
    (modified p >>= next).Always Q s :=
  fun s' hs' htimely _ => h s' hs' htimely

/-- So is its text, and reading it is counted. -/
theorem Always.read_bind {p : FilePath} {next : Except FileFault String → Access α}
    (h : ∀ s', s.Follows s' → s'.Timely → (next (s'.text p)).Always Q (s'.noteRead p)) :
    (read p >>= next).Always Q s :=
  fun s' hs' htimely _ => h s' hs' htimely

/-- What is always so is so in every run beside writes and removals. -/
theorem Always.runIn (changes : Nat → List FileChange) (cancelled : Nat → Bool) {m : Moment}
    (h : x.Always Q m.store) (hm : m.store.Timely) :
    Q (x.runIn (.changing changes cancelled) m).2.store
      (x.runIn (.changing changes cancelled) m).1 := by
  induction x generalizing m with
  | done a => exact h
  | ask q next ih =>
    let s' := (changes m.time).foldl FileChange.apply m.store
    have hs' : m.store.Follows s' := FileStore.follows_changes m.store (changes m.time)
    have htimely := hm.follows hs'
    have hanswer := Question.follows_answer (cancelled m.time) s' q
    exact ih _ (h s' hs' htimely (cancelled m.time)) (htimely.follows hanswer)

/-- The moment after the first `n` questions of a run, before the next one; the last moment if
there are no more. -/
def after (w : Surroundings) : Nat → Access α → Moment → Moment
  | 0, _, m => m
  | _ + 1, .done _, m => m
  | n + 1, .ask q next, m =>
    let r := q.answer (w.cancelled m.time) (w.before m.time m.store)
    (next r.1).after w n ⟨m.time + 1, r.2⟩

theorem follows_after (changes : Nat → List FileChange) (cancelled : Nat → Bool) (n : Nat)
    (x : Access α) (m : Moment) :
    m.store.Follows (x.after (.changing changes cancelled) n m).store := by
  induction n generalizing x m with
  | zero => exact FileStore.Follows.refl m.store
  | succ n ih =>
    cases x with
    | done a => exact FileStore.Follows.refl m.store
    | ask q next =>
      have hfirst := q.follows_changed_answer (changes m.time) (cancelled m.time) m.store
      exact hfirst.trans (ih (next _) ⟨m.time + 1, _⟩)

theorem follows_runIn (changes : Nat → List FileChange) (cancelled : Nat → Bool) (x : Access α)
    (m : Moment) : m.store.Follows (x.runIn (.changing changes cancelled) m).2.store := by
  induction x generalizing m with
  | done a => exact FileStore.Follows.refl m.store
  | ask q next ih =>
    have hfirst := q.follows_changed_answer (changes m.time) (cancelled m.time) m.store
    exact hfirst.trans (ih _ ⟨m.time + 1, _⟩)

end Access

namespace Resolution

open FileStore (Stable)

variable {α β : Type} {P : FileStore → Prop} {Q : FileStore → α → Prop} {s : FileStore}

/-- The same for a resolution, if it is not cancelled. -/
def Always (Q : FileStore → α → Prop) (x : Resolution α) (s : FileStore) : Prop :=
  x.run.Always (fun s result => ∀ a, result = .ok a → Q s a) s

theorem Always.mono {R : FileStore → α → Prop} {x : Resolution α} (h : x.Always Q s)
    (hQR : ∀ s a, Q s a → R s a) : x.Always R s :=
  Access.Always.mono h fun s _ hresult a ha => hQR s a (hresult a ha)

theorem Always.keeping {x : Resolution α} (hP : Stable P) (hs : P s) (h : x.Always Q s) :
    x.Always (fun s a => P s ∧ Q s a) s :=
  (Access.Always.keeping hP hs h).mono fun _ _ h a ha => ⟨h.1, h.2 a ha⟩

theorem always_pure {a : α} (h : Q s a) : Always Q (pure a) s := by
  intro b hb
  cases hb
  exact h

theorem Always.bind {x : Resolution α} {f : α → Resolution β} {R : FileStore → β → Prop}
    (h : x.Always (fun s a => (f a).Always R s) s) : Always R (x >>= f) s := by
  rw [Always, resolution_run_bind]
  refine Access.Always.bind (Access.Always.mono h fun s result hresult => ?_)
  cases result with
  | ok a => exact hresult a rfl
  | error e => exact fun b hb => nomatch hb

theorem always_lift {x : Access α} (h : x.Always Q s) : Always Q (liftM x) s := by
  rw [Always, resolution_run_lift]
  refine Access.Always.bind (h.mono fun s a ha => ?_)
  intro b hb
  cases hb
  exact ha

theorem always_of_stable (hP : Stable P) (hs : P s) (x : Resolution α) :
    x.Always (fun s _ => P s) s :=
  (Access.always_of_stable hP hs x.run).mono fun _ _ h _ _ => h

end Resolution

end ProjectAnalysis
