import ProjectAnalysis.FileStore

/-! Computations that ask questions: about files, one at a time, and whether they are still
wanted. Between two questions the files may change, and the computation may be cancelled. -/
namespace ProjectAnalysis

inductive Question
  | present (path : FilePath)
  | modified (path : FilePath)
  | read (path : FilePath)
  | cancelled

namespace Question

/-- What an answer is. -/
abbrev Answer : Question → Type
  | .present _ => Bool
  | .modified _ => Except FileFault Nat
  | .read _ => Except FileFault String
  | .cancelled => Bool

/-- The answer, and the files afterwards: reading one is counted. -/
def answer (cancelled : Bool) (s : FileStore) : (q : Question) → q.Answer × FileStore
  | .present p => (s.contains p, s)
  | .modified p => (s.modified p, s)
  | .read p => (s.text p, s.noteRead p)
  | .cancelled => (cancelled, s)

end Question

/-- A result, or a question and how to go on from its answer. -/
inductive Access (α : Type)
  | done (value : α)
  | ask (question : Question) (next : question.Answer → Access α)

/-- What happens around a run: before each question, counted over the whole run, others change
the files, and from some question on the run may be cancelled. -/
structure Surroundings where
  before : Nat → FileStore → FileStore
  cancelled : Nat → Bool

/-- The files stay as they are, and nobody cancels. -/
def Surroundings.quiet : Surroundings :=
  ⟨fun _ s => s, fun _ => false⟩

/-- The number of questions so far, and the files. -/
structure Moment where
  time : Nat
  store : FileStore

namespace Access

variable {α β : Type}

def bind : Access α → (α → Access β) → Access β
  | .done a, f => f a
  | .ask q next, f => .ask q fun x => (next x).bind f

instance : Monad Access where
  pure := .done
  bind := bind

theorem id_map (x : Access α) : id <$> x = x := by
  induction x with
  | done a => rfl
  | ask q next ih => exact congrArg (Access.ask q) (funext ih)

theorem bind_assoc {γ : Type} (x : Access α) (f : α → Access β) (g : β → Access γ) :
    x >>= f >>= g = x >>= fun a => f a >>= g := by
  induction x with
  | done a => rfl
  | ask q next ih => exact congrArg (Access.ask q) (funext ih)

instance : LawfulMonad Access :=
  LawfulMonad.mk' Access id_map (fun _ _ => rfl) bind_assoc

/-- Whether there is such a file. -/
def present (p : FilePath) : Access Bool :=
  .ask (.present p) .done

def modified (p : FilePath) : Access (Except FileFault Nat) :=
  .ask (.modified p) .done

def read (p : FilePath) : Access (Except FileFault String) :=
  .ask (.read p) .done

def cancelled : Access Bool :=
  .ask .cancelled .done

/-- Asks the questions in order, in the given surroundings. -/
def runIn (w : Surroundings) : Access α → Moment → α × Moment
  | .done a, m => (a, m)
  | .ask q next, m =>
    let r := q.answer (w.cancelled m.time) (w.before m.time m.store)
    (next r.1).runIn w ⟨m.time + 1, r.2⟩

/-- Runs up to the first question for a text, which is not asked yet. -/
def untilRead (w : Surroundings) : Access α → Moment → Access α × Moment
  | .done a, m => (.done a, m)
  | .ask (.read p) next, m => (.ask (.read p) next, m)
  | .ask q next, m =>
    let r := q.answer (w.cancelled m.time) (w.before m.time m.store)
    (next r.1).untilRead w ⟨m.time + 1, r.2⟩

theorem runIn_bind (w : Surroundings) (x : Access α) (f : α → Access β) (m : Moment) :
    (x >>= f).runIn w m = (f (x.runIn w m).1).runIn w (x.runIn w m).2 := by
  induction x generalizing m with
  | done a => rfl
  | ask q next ih => exact ih _ _

end Access

end ProjectAnalysis
