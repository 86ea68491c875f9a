import ProjectAnalysis.Proofs.ImportReuse

/-! Sessions: files are written and removed, and a document is resolved in between, each time with
an earlier generation at hand. Going on from a generation never changes what a document without
errors resolves to. -/
namespace ProjectAnalysis

/-- What happens to the files and to the document. -/
inductive SessionStep
  | write (path : FilePath) (text : String)
  | remove (path : FilePath)
  /-- The text is resolved from scratch, or goes on from an earlier generation: number 0 is the
  one just before, number 1 the one before that. -/
  | resolve (text : String) (previous : Option Nat)

structure Session where
  store : FileStore
  /-- The generations of the document, the latest first. -/
  history : List Generation

namespace Session

variable (r : Resolver) (file : FilePath)

/-- The resolution of a text, going on from a generation of the session. -/
def resolve (x : Session) (text : String) (previous : Option Nat) :
    Except Cancelled Generation × FileStore :=
  r.resolve file (.ofText text) (previous.bind (x.history[·]?)) x.store

def step (x : Session) : SessionStep → Session
  | .write p text => { x with store := x.store.write p text }
  | .remove p => { x with store := x.store.remove p }
  | .resolve text previous =>
    let result := x.resolve r file text previous
    ⟨result.2, result.1.toOption.toList ++ x.history⟩

/-- A session from the first generation on. -/
def run (s : FileStore) (steps : List SessionStep) : Session :=
  steps.foldl (step r file) ⟨s, []⟩

end Session

namespace ImportWalk

variable {w w' : ImportWalk} {s : FileStore}

/-- Being faithful is about what texts say to a walk, and not about what it may use again. -/
theorem Faithful.of_parse {known : ResolvedImport} (h : w.Faithful s known)
    (hparse : w.parse = w'.parse) : w'.Faithful s known := by
  have hloaded (p : FilePath) : w'.loadedIn s p = w.loadedIn s p := by
    rw [loadedIn, loadedIn, hparse]
  exact ⟨h.path, h.sites, h.time_le, fun f hf htime => (hloaded _).trans (h.unchanged f hf htime)⟩

end ImportWalk

/-- The tools version of the root is all of a document that the parsing of its imports sees. -/
theorem Resolver.parse_walk (r : Resolver) (file : FilePath) {d d' : Xml.Document}
    (h : toolsVersion d = toolsVersion d') (previous previous' : Option Generation) :
    (r.walk file d previous).parse = (r.walk file d' previous').parse := by
  funext p time text
  unfold ImportWalk.parse walk
  rw [h]

namespace FileSymbols

theorem remember_isNormal {sites : List ImportSite} {site : ImportSite}
    (hsites : ∀ site ∈ sites, site.IsNormal) (hsite : site.IsNormal) :
    ∀ site' ∈ remember sites site, site'.IsNormal := by
  intro site' h
  unfold remember at h
  split at h
  · rcases List.mem_append.1 h with h | h
    · exact hsites site' h
    · obtain rfl := List.mem_singleton.1 h
      exact hsite
  · exact hsites site' h

theorem merge_isNormal {symbols previous : FileSymbols}
    (h : ∀ site ∈ symbols.sites, site.IsNormal)
    (hprevious : ∀ site ∈ previous.sites, site.IsNormal) :
    ∀ site ∈ (symbols.merge previous).sites, site.IsNormal := by
  change ∀ site ∈ previous.sites.foldl remember symbols.sites, site.IsNormal
  generalize symbols.sites = sites at h ⊢
  generalize previous.sites = more at hprevious ⊢
  induction more generalizing sites with
  | nil => exact h
  | cons site more ih =>
    obtain ⟨hsite, hmore⟩ := List.forall_mem_cons.1 hprevious
    exact ih (remember sites site) (remember_isNormal h hsite) hmore

end FileSymbols

/-- What is true of every generation of a session, however the files have changed since. -/
structure Generation.Faithful (r : Resolver) (file : FilePath) (s : FileStore) (g : Generation) :
    Prop where
  version : g.toolsVersion = Resolver.toolsVersion g.document
  sites : ∀ site ∈ g.symbols.sites, site.IsNormal
  keyed : ImportWalk.Keyed g.imports
  imports : ∀ e ∈ g.imports.entries, (r.walk file g.document none).Faithful s e.2

section
variable {r : Resolver} {file : FilePath} {s s' : FileStore} {d : Xml.Document}
  {previous : Option Generation}

theorem Generation.Faithful.follows {g : Generation} (h : g.Faithful r file s)
    (hs : s.Follows s') : g.Faithful r file s' :=
  ⟨h.version, h.sites, h.keyed, fun e he => (h.imports e he).follows hs⟩

namespace Resolver

/-- Whatever a resolution may use again of a faithful generation is faithful. -/
theorem reuses_walk (h : ∀ g, previous = some g → g.Faithful r file s) (d : Xml.Document) :
    (r.walk file d previous).Reuses s := by
  cases previous with
  | none => exact .of_empty rfl
  | some g =>
    have hg := h g rfl
    by_cases hversion : g.toolsVersion = toolsVersion d
    · have himports : (r.walk file d (some g)).reusable = g.imports := if_pos hversion
      have hparse := r.parse_walk file (hg.version.symm.trans hversion) none (some g)
      refine ⟨?_, ?_⟩ <;> rw [himports]
      · exact hg.keyed
      · exact fun e he => (hg.imports e he).of_parse hparse
    · -- Another tools version gives texts another meaning, so nothing is used again.
      exact .of_empty (if_neg hversion)

theorem symbols_isNormal (h : ∀ g, previous = some g → g.Faithful r file s) (d : Xml.Document) :
    ∀ site ∈ (r.symbols file d previous).sites, site.IsNormal := by
  have hown := r.ownSymbols_isNormal file d
  unfold symbols
  cases previous with
  | none => exact hown
  | some g =>
    dsimp only
    split
    · exact FileSymbols.merge_isNormal hown (h g rfl).sites
    · exact hown

theorem symbols_of_no_errors (hown : (r.ownSymbols file d).hasErrors = false)
    (previous : Option Generation) : r.symbols file d previous = r.ownSymbols file d := by
  unfold symbols
  cases previous with
  | none => rfl
  | some g =>
    dsimp only
    rw [hown]
    rfl

/-- Going on from a faithful generation, a document without errors resolves to what it resolves to
from scratch, up to the marks of what was used again. -/
theorem resolve_unmarked (h : ∀ g, previous = some g → g.Faithful r file s)
    (hown : (r.ownSymbols file d).hasErrors = false) :
    ∃ found : Findings, (r.resolve file d previous s).1 = .ok (r.generation file d previous found) ∧
      (r.resolve file d none s).1 = .ok (r.generation file d none found.unmarked) := by
  have hwalk := reuses_walk h d
  have hsites := symbols_isNormal h d
  obtain ⟨found, hwalks, hvalue⟩ := resolution_walks (s := s) hwalk.isNormal hsites
  have hnothing : (r.walk file d none).Reuses s := .of_empty rfl
  obtain ⟨scratch, hwalks', hvalue'⟩ := resolution_walks hnothing.isNormal
    (r.ownSymbols_isNormal file d)
  have hsame := hwalks.afresh hwalk hsites
  rw [symbols_of_no_errors hown] at hsame hwalks'
  -- There is one way to walk from scratch, so the two walks have found the same.
  obtain rfl : found.unmarked = scratch := hsame.unique hwalks'
  refine ⟨found, ?_, ?_⟩ <;> rw [resolve_fst]
  · exact hvalue _ (Nat.lt_succ_self _)
  · exact hvalue' _ (Nat.lt_succ_self _)

/-- A resolution that goes on from a faithful generation gives one. -/
theorem resolve_faithful (hs : s.Timely) (h : ∀ g, previous = some g → g.Faithful r file s)
    (d : Xml.Document) :
    ∃ g, (r.resolve file d previous s).1 = .ok g ∧ g.Faithful r file s := by
  have hwalk := reuses_walk h d
  have hsites := symbols_isNormal h d
  obtain ⟨found, hwalks, hvalue⟩ := resolution_walks (s := s) hwalk.isNormal hsites
  have hfaithful := hwalks.faithful hs hwalk hsites (List.forall_mem_nil _)
  refine ⟨r.generation file d previous found, ?_, rfl, hsites, ?_, fun e he => ?_⟩
  · rw [resolve_fst]
    exact hvalue _ (Nat.lt_succ_self _)
  · exact hwalks.keyed ImportWalk.keyed_empty
  · exact (hfaithful e he).of_parse (r.parse_walk file rfl previous none)

theorem follows_resolve (r : Resolver) (file : FilePath) (d : Xml.Document)
    (previous : Option Generation) (s : FileStore) :
    s.Follows (r.resolve file d previous s).2 := by
  have hfiles := Access.runIn_quiet_files (r.start file d previous s) ⟨0, s⟩
  exact FileStore.follows_of_files_eq hfiles.1 hfiles.2

end Resolver

end

namespace Session

variable {r : Resolver} {file : FilePath}

structure Sound (r : Resolver) (file : FilePath) (x : Session) : Prop where
  timely : x.store.Timely
  faithful : ∀ g ∈ x.history, g.Faithful r file x.store

theorem Sound.previous {x : Session} (h : x.Sound r file) (previous : Option Nat) :
    ∀ g, previous.bind (x.history[·]?) = some g → g.Faithful r file x.store := by
  intro g hg
  obtain ⟨n, -, hn⟩ := Option.bind_eq_some_iff.1 hg
  exact h.faithful g (List.mem_of_getElem? hn)

theorem Sound.follows {x : Session} (h : x.Sound r file) {s : FileStore} (hs : x.store.Follows s) :
    Sound r file ⟨s, x.history⟩ :=
  ⟨h.timely.follows hs, fun g hg => (h.faithful g hg).follows hs⟩

theorem step_sound {x : Session} (h : x.Sound r file) (step : SessionStep) :
    (x.step r file step).Sound r file := by
  cases step with
  | write p text => exact h.follows (x.store.follows_write p text)
  | remove p => exact h.follows (x.store.follows_remove p)
  | resolve text previous =>
    have hfollows : x.store.Follows (x.resolve r file text previous).2 :=
      r.follows_resolve file _ _ _
    obtain ⟨g, hg, hfaithful⟩ :=
      Resolver.resolve_faithful h.timely (h.previous previous) (.ofText text)
    have hresolve : (x.resolve r file text previous).1 = .ok g := hg
    refine ⟨h.timely.follows hfollows, ?_⟩
    rw [Session.step, hresolve]
    exact List.forall_mem_cons.2 ⟨hfaithful.follows hfollows, (h.follows hfollows).faithful⟩

theorem run_sound {s : FileStore} (hs : s.Timely) (steps : List SessionStep) :
    (run r file s steps).Sound r file := by
  have hstart : Sound r file ⟨s, []⟩ := ⟨hs, List.forall_mem_nil _⟩
  unfold run
  -- Induction on the steps, from any session that the invariant holds for.
  generalize (⟨s, []⟩ : Session) = x at hstart
  induction steps generalizing x with
  | nil => exact hstart
  | cons step steps ih => exact ih (x.step r file step) (step_sound hstart step)

/-- Resolving again is resolving from scratch: at any point of any session, a text without errors
of its own resolves to the same generation whichever earlier generation it goes on from. -/
theorem resolve_again_eq_scratch (r : Resolver) (file : FilePath) {s : FileStore} (hs : s.Timely)
    (steps : List SessionStep) (text : String) (previous : Option Nat)
    (hown : (r.ownSymbols file (.ofText text)).hasErrors = false) :
    ∃ g scratch, ((run r file s steps).resolve r file text previous).1 = .ok g ∧
      ((run r file s steps).resolve r file text none).1 = .ok scratch ∧
      g.symbols = scratch.symbols ∧
      OrderedTable.keys g.imports = OrderedTable.keys scratch.imports ∧
      g.imports.values.map (fun i => (i.path, i.parsed)) =
        scratch.imports.values.map (fun i => (i.path, i.parsed)) ∧
      g.targets = scratch.targets ∧ g.links = scratch.links ∧
      g.diagnostics = scratch.diagnostics := by
  have hsound : (run r file s steps).Sound r file := run_sound hs steps
  generalize run r file s steps = x at hsound ⊢
  obtain ⟨found, hagain, hscratch⟩ := Resolver.resolve_unmarked (hsound.previous previous) hown
  have hsymbols := Resolver.symbols_of_no_errors hown (previous.bind (x.history[·]?))
  refine ⟨_, _, hagain, hscratch, hsymbols, ?_, ?_, rfl, rfl, ?_⟩
  · exact found.imports.keys_unmarked.symm
  · change _ = List.map _ (OrderedTable.values found.imports.unmarked)
    rw [found.imports.values_unmarked, List.map_map]
    rfl
  · exact congrArg (·.diagnostics ++ found.diagnostics) hsymbols

/-- A session in which the second resolution reads nothing. -/
theorem resolve_again_reused :
    let r : Resolver := ⟨.standard, false⟩
    let file : FilePath := ⟨"/p/a.proj"⟩
    let text := "<Project><Import Project='x.props' /></Project>"
    let steps := [.write ⟨"/p/x.props"⟩ "<Project />", .resolve text none, .remove ⟨"/p/y.props"⟩]
    (r.ownSymbols file (.ofText text)).hasErrors = false ∧
      ∃ g scratch, ((run r file .empty steps).resolve r file text (some 0)).1 = .ok g ∧
        ((run r file .empty steps).resolve r file text none).1 = .ok scratch ∧
        g.symbols = scratch.symbols ∧
        OrderedTable.keys g.imports = OrderedTable.keys scratch.imports ∧
        g.imports.values.map (fun i => (i.path, i.parsed)) =
          scratch.imports.values.map (fun i => (i.path, i.parsed)) ∧
        g.targets = scratch.targets ∧ g.links = scratch.links ∧
        g.diagnostics = scratch.diagnostics ∧ g.imports.values.map (·.reused) = [true] := by
  intro r file text steps
  have hreused : (((run r file .empty steps).resolve r file text (some 0)).1.toOption.map fun g =>
      g.imports.values.map (·.reused)) = some [true] := by decide +kernel +revert
  have hown : (r.ownSymbols file (.ofText text)).hasErrors = false := by
    clear hreused
    decide +kernel +revert
  obtain ⟨g, scratch, hg, hscratch, hsymbols, hkeys, himports, htargets, hlinks, hdiagnostics⟩ :=
    resolve_again_eq_scratch r file FileStore.timely_empty steps text (some 0) hown
  rw [hg] at hreused
  exact ⟨hown, g, scratch, hg, hscratch, hsymbols, hkeys, himports, htargets, hlinks, hdiagnostics,
    Option.some.inj hreused⟩

end Session

end ProjectAnalysis
