import ProjectAnalysis.Proofs.FileInterference

/-! Files of one level that are read ahead at the same time. The questions of their loads may come
in any order that keeps the order of each load; reading one file after the other is one of these
orders. -/
namespace ProjectAnalysis

namespace Access

open FileStore (Stable)

variable {α β : Type}

/-- Computations that run at once: every question is the next one of any of them. -/
inductive Interleaves : List (Access α) → Access (List α) → Prop
  | done (values : List α) : Interleaves (values.map .done) (.done values)
  | ask {before after : List (Access α)} {q : Question} {next : q.Answer → Access α}
      {rest : q.Answer → Access (List α)}
      (h : ∀ answer, Interleaves (before ++ next answer :: after) (rest answer)) :
      Interleaves (before ++ .ask q next :: after) (.ask q rest)

variable {xs : List (Access α)} {y : Access (List α)}

theorem Interleaves.cons_done (h : Interleaves xs y) (a : α) :
    Interleaves (.done a :: xs) (y >>= fun values => pure (a :: values)) := by
  induction h with
  | done values => exact .done (a :: values)
  | @ask before after q next rest _ ih =>
    exact @Interleaves.ask _ (.done a :: before) after q _ _ ih

/-- One computation may come before all others. -/
theorem Interleaves.cons (h : Interleaves xs y) (x : Access α) :
    Interleaves (x :: xs) (x >>= fun a => y >>= fun values => pure (a :: values)) := by
  induction x with
  | done a => exact h.cons_done a
  | ask q next ih => exact @Interleaves.ask _ [] xs q next _ ih

theorem interleaves_mapM (f : β → Access α) (bs : List β) :
    Interleaves (bs.map f) (bs.mapM f) := by
  induction bs with
  | nil => exact .done []
  | cons b bs ih =>
    rw [List.map_cons, List.mapM_cons]
    exact ih.cons (f b)

/-- What each of some computations always ends with, they end with when they run at once. -/
theorem Interleaves.always {Q : FileStore → α → Prop} (hQ : ∀ a, Stable (Q · a))
    (h : Interleaves xs y) {s : FileStore} (hxs : ∀ x ∈ xs, x.Always Q s) :
    y.Always (fun s values => ∀ a ∈ values, Q s a) s := by
  induction h generalizing s with
  | done values =>
    intro a ha
    exact hxs (.done a) (List.mem_map_of_mem ha)
  | @ask before after q next rest _ ih =>
    intro s' hs' htimely cancelled
    have hanswer := Question.follows_answer cancelled s' q
    refine ih _ fun x hx => ?_
    rw [List.mem_append, List.mem_cons] at hx
    -- One computation has its answer; the others have waited meanwhile.
    rcases hx with hx | rfl | hx
    · have hbefore := hxs x (List.mem_append_left _ hx)
      exact hbefore.later hQ (hs'.trans hanswer)
    · have hasked := hxs (.ask q next) (List.mem_append_right _ List.mem_cons_self)
      exact hasked s' hs' htimely cancelled
    · have hafter := hxs x (List.mem_append_right _ (List.mem_cons_of_mem _ hx))
      exact hafter.later hQ (hs'.trans hanswer)

end Access

/-- Files that were read ahead, by their paths. -/
def ReadAhead.ofPairs (loaded : List (FilePath × Option ParsedImport)) : ReadAhead :=
  loaded.foldr (fun e ahead => ahead.insert e.1.parts e.2) .empty

namespace ImportWalk

variable (w : ImportWalk)

/-- Reads a file and keeps its path beside it. -/
def loadPair (p : FilePath) : Access (FilePath × Option ParsedImport) := do
  let parsed ← w.load? p
  return (p, parsed)

/-- In which order the loads of each level ask their questions. -/
structure Schedule where
  loads : Findings → List FilePath → Access (List (FilePath × Option ParsedImport))
  interleaves : ∀ f files, Access.Interleaves (files.map w.loadPair) (loads f files)

/-- One load after the other. -/
def Schedule.inOrder : w.Schedule where
  loads _ files := files.mapM w.loadPair
  interleaves _ files := Access.interleaves_mapM w.loadPair files

variable {w} (schedule : w.Schedule)

/-- Reads ahead the new ones among the files of one level, by a schedule. -/
def readAheadBy (f : Findings) (files : List FilePath) : Access ReadAhead := do
  let fresh ← w.outdated ((files.filter (!w.isKnown f ·)).eraseDupsBy FilePath.same)
  let loaded ← schedule.loads f fresh
  return .ofPairs loaded

/-- The walk whose loads go by a schedule. -/
def resolveSitesBy : Nat → Bool → List ImportSite → Findings → Resolution Findings
  | 0, _, _, f => pure f
  | depth + 1, report, sites, f => do
    let located ← (ImportSite.locateAll sites : Access _)
    let ahead ← (readAheadBy schedule f (located.filterMap (·.2)) : Access _)
    w.visit (resolveSitesBy depth false) report located ahead f

theorem loadAll_eq_mapM (files : List FilePath) :
    w.loadAll files = files.mapM w.loadPair >>= fun loaded => pure (.ofPairs loaded) := by
  induction files with
  | nil => rfl
  | cons p ps ih =>
    rw [loadAll, ih, List.mapM_cons, loadPair]
    simp only [bind_assoc, pure_bind]
    rfl

theorem readAheadBy_inOrder (f : Findings) (files : List FilePath) :
    readAheadBy (.inOrder w) f files = w.readAhead f files := by
  unfold readAheadBy readAhead
  exact congrArg _ (funext fun fresh => (loadAll_eq_mapM fresh).symm)

theorem resolveSitesBy_inOrder (depth : Nat) :
    resolveSitesBy (.inOrder w) depth = w.resolveSites depth := by
  induction depth with
  | zero => rfl
  | succ depth ih =>
    funext report sites f
    simp only [resolveSitesBy, resolveSites, readAheadBy_inOrder, ih]

end ImportWalk

namespace Resolver

variable (r : Resolver) (depth : Nat) (file : FilePath) (d : Xml.Document)
  (previous : Option Generation)

/-- The resolution of a document whose loads go by a schedule. -/
def resolutionBy (schedule : (r.walk file d previous).Schedule) : Resolution Generation := do
  checkpoint
  let symbols := r.symbols file d previous
  checkpoint
  let found ← ImportWalk.resolveSitesBy schedule depth true symbols.sites .empty
  checkpoint
  pure (r.generation file d previous found)

/-- With one load after the other this is the resolution as it is. -/
theorem resolutionBy_inOrder :
    r.resolutionBy depth file d previous (.inOrder _) = r.resolution depth file d previous := by
  unfold resolutionBy resolution
  rw [ImportWalk.resolveSitesBy_inOrder]

end Resolver

end ProjectAnalysis
