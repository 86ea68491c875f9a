import ProjectAnalysis.Proofs.ConcurrentLoads

/-! Imports that are used again while others change the files. The time of an import was asked for
before its text, and every write takes a time of its own: so a file that is not newer than that
still has the text that was read, whatever was written, removed and created anew meanwhile. -/
namespace ProjectAnalysis

open FileStore (Stable)

/-- An import of the file with the given key is what the text of that file says, unless the file is
newer. -/
structure ParsedImport.Current (parsed : ParsedImport) (k : List PathPart) (s : FileStore) :
    Prop where
  time_le : parsed.timestamp ≤ s.clock
  document : ∀ f, s.files.get? k = some f → f.modified ≤ parsed.timestamp →
    parsed.document = .ofText f.text

theorem ParsedImport.stable_current (parsed : ParsedImport) (k : List PathPart) :
    Stable (parsed.Current k) := by
  intro s s' hs h
  refine ⟨Nat.le_trans h.time_le hs.clock_le, fun f hf htime => ?_⟩
  rcases hs.files k f hf with hold | ⟨hnew, -⟩
  · exact h.document f hold htime
  · -- Whatever was written since is newer than the import.
    have hlt := Nat.lt_of_le_of_lt h.time_le hnew
    omega

/-- Every import is current. -/
def ImportTable.Current (t : ImportTable) (s : FileStore) : Prop :=
  ∀ k i, OrderedTable.get? t k = some i → i.parsed.Current k s

/-- Every file that was read ahead is current. -/
def ReadAhead.Current (ahead : ReadAhead) (s : FileStore) : Prop :=
  ∀ k parsed, OrderedTable.get? ahead k = some (some parsed) → parsed.Current k s

theorem ImportTable.stable_current (t : ImportTable) : Stable t.Current :=
  fun s s' hs h k i hi => i.parsed.stable_current k s s' hs (h k i hi)

theorem ReadAhead.stable_current (ahead : ReadAhead) : Stable ahead.Current :=
  fun s s' hs h k parsed hparsed => parsed.stable_current k s s' hs (h k parsed hparsed)

theorem ImportTable.current_empty (s : FileStore) : ImportTable.Current .empty s := by
  intro k i h
  cases h

theorem ImportTable.Current.add {t : ImportTable} {s : FileStore} {found : ResolvedImport}
    (h : t.Current s) (hfound : found.parsed.Current found.path.parts s) :
    (t.add found).Current s := by
  intro k i hi
  rw [ImportTable.add, OrderedTable.get?_insert] at hi
  split at hi
  · rename_i hk
    obtain rfl := Option.some.inj hi
    exact hk ▸ hfound
  · exact h k i hi

theorem ReadAhead.Current.erase {ahead : ReadAhead} {s : FileStore} (h : ahead.Current s)
    (k : List PathPart) : ReadAhead.Current (OrderedTable.erase ahead k) s := by
  intro k' parsed hparsed
  rw [OrderedTable.get?_erase] at hparsed
  split at hparsed
  · cases hparsed
  · exact h k' parsed hparsed

theorem ReadAhead.current_ofPairs {loaded : List (FilePath × Option ParsedImport)} {s : FileStore}
    (h : ∀ e ∈ loaded, ∀ parsed, e.2 = some parsed → parsed.Current e.1.parts s) :
    (ReadAhead.ofPairs loaded).Current s := by
  induction loaded with
  | nil =>
    intro k parsed hparsed
    cases hparsed
  | cons e loaded ih =>
    obtain ⟨he, hloaded⟩ := List.forall_mem_cons.1 h
    intro k parsed hparsed
    change OrderedTable.get? ((ReadAhead.ofPairs loaded).insert e.1.parts e.2) k = _ at hparsed
    rw [OrderedTable.get?_insert] at hparsed
    split at hparsed
    · rename_i hk
      exact hk ▸ he parsed (Option.some.inj hparsed)
    · exact ih hloaded k parsed hparsed

namespace ImportWalk

variable {w : ImportWalk} {s : FileStore}

/-- The time comes first: whatever is written between the two questions for a file, its import is
current. -/
theorem load?_always (p : FilePath) :
    (w.load? p).Always (fun s result => ∀ parsed, result = some parsed →
      parsed.Current p.parts s) s := by
  refine Access.Always.bind fun s₀ _ _ cancelled => ?_
  cases cancelled with
  | true => exact fun _ h => nomatch h
  | false =>
    refine Access.Always.modified_bind fun s₁ _ htimely => ?_
    cases hmodified : s₁.modified p with
    | error fault => exact fun _ h => nomatch h
    | ok time =>
      obtain ⟨f₁, hf₁, rfl⟩ := FileStore.modified_eq_ok hmodified
      refine Access.Always.read_bind fun s₂ hs₂ _ => ?_
      cases htext : s₂.text p with
      | error fault => exact fun _ h => nomatch h
      | ok text =>
        rintro parsed ⟨⟩
        have htime : f₁.modified ≤ s₂.clock :=
          Nat.le_trans (htimely p.parts f₁ hf₁) hs₂.clock_le
        refine ⟨htime, fun f₂ hf₂ _ => ?_⟩
        -- The file may be newer than the time by now, but it has just been read.
        have hread : s₂.file? p = some f₂ := hf₂
        rw [FileStore.text, hread] at htext
        dsimp only at htext
        split at htext
        · cases htext
        · obtain rfl := Except.ok.inj htext
          rfl

theorem loadPair_always (p : FilePath) :
    (w.loadPair p).Always (fun s e => ∀ parsed, e.2 = some parsed →
      parsed.Current e.1.parts s) s :=
  (load?_always p).bind

theorem readAheadBy_always (schedule : w.Schedule) (f : Findings) (files : List FilePath) :
    (readAheadBy schedule f files).Always (fun s ahead => ahead.Current s) s := by
  have houtdated := Access.always_of_stable (P := fun _ => True) (s := s) (fun _ _ _ _ => trivial)
    trivial (w.outdated ((files.filter (!w.isKnown f ·)).eraseDupsBy FilePath.same))
  refine Access.Always.bind (houtdated.mono fun s fresh _ => ?_)
  have hstable (e : FilePath × Option ParsedImport) : Stable fun s =>
      ∀ parsed, e.2 = some parsed → parsed.Current e.1.parts s :=
    fun s s' hs h parsed hparsed => parsed.stable_current e.1.parts s s' hs (h parsed hparsed)
  have hpairs := (schedule.interleaves f fresh).always (s := s) hstable fun x hx => by
    obtain ⟨p, -, rfl⟩ := List.mem_map.1 hx
    exact loadPair_always p
  exact Access.Always.bind (hpairs.mono fun s loaded h => ReadAhead.current_ofPairs h)

/-- What is used again is what the text of the file says at that moment. -/
theorem reuse?_always (hw : w.reusable.Current s) (p : FilePath) :
    (w.reuse? p).Always (fun s result => ∀ parsed, result = some parsed →
      parsed.Current p.parts s) s := by
  unfold reuse?
  cases hknown : w.reusable.get? p with
  | none => exact fun _ h => nomatch h
  | some known =>
    refine Access.Always.modified_bind fun s₁ hs₁ _ => ?_
    have hcurrent := ImportTable.stable_current _ s s₁ hs₁ hw p.parts known hknown
    cases s₁.modified p with
    | error fault => exact fun _ h => nomatch h
    | ok time =>
      intro parsed hparsed
      split at hparsed
      · obtain rfl := Option.some.inj hparsed
        exact hcurrent
      · cases hparsed

/-- The question for the time of the file is the only one. -/
theorem runIn_reuse? (w : ImportWalk) (surroundings : Surroundings) (m : Moment) (p : FilePath) :
    ((w.reuse? p).runIn surroundings m).1 =
      w.reusedIn (surroundings.before m.time m.store) p := by
  unfold reuse? reusedIn
  cases w.reusable.get? p with
  | none => rfl
  | some known =>
    have hmodified : ((Access.modified p).runIn surroundings m).1 =
        (surroundings.before m.time m.store).modified p := rfl
    dsimp only
    rw [Access.runIn_bind, hmodified]
    cases (surroundings.before m.time m.store).modified p <;> rfl

theorem fetch?_always (hw : w.reusable.Current s) {ahead : ReadAhead} (hahead : ahead.Current s)
    (p : FilePath) :
    (w.fetch? p ahead).Always (fun s result => ∀ found, result = some found →
      found.path = p ∧ found.parsed.Current p.parts s) s := by
  have hreuse := (reuse?_always hw p).keeping ahead.stable_current hahead
  refine Access.Always.bind (hreuse.mono fun s reused ⟨hahead, hreused⟩ => ?_)
  cases reused with
  | some parsed =>
    rintro found ⟨⟩
    exact ⟨rfl, hreused parsed rfl⟩
  | none =>
    have hload (x : Access (Option ParsedImport)) (hx : x.Always (fun s result =>
        ∀ parsed, result = some parsed → parsed.Current p.parts s) s) :
        (x >>= fun parsed =>
          pure (parsed.map fun parsed => ResolvedImport.mk p parsed false)).Always
          (fun s result => ∀ found, result = some found →
            found.path = p ∧ found.parsed.Current p.parts s) s := by
      refine Access.Always.bind (hx.mono fun s result hresult found hfound => ?_)
      obtain ⟨parsed, rfl, rfl⟩ := Option.map_eq_some_iff.1 hfound
      exact ⟨rfl, hresult parsed rfl⟩
    dsimp only
    split
    · rename_i parsed hget
      exact hload (pure parsed) fun found hfound => hahead p.parts found (hfound ▸ hget)
    · exact hload (w.load? p) (load?_always p)

theorem visit_always {enter : List ImportSite → Findings → Resolution Findings}
    (henter : ∀ sites f s, w.reusable.Current s → f.imports.Current s →
      (enter sites f).Always (fun s f => f.imports.Current s) s)
    (report : Bool) (sites : List (ImportSite × Option FilePath)) {ahead : ReadAhead}
    {f : Findings} (hw : w.reusable.Current s) (hahead : ahead.Current s)
    (hf : f.imports.Current s) :
    (w.visit enter report sites ahead f).Always (fun s f => f.imports.Current s) s := by
  induction sites generalizing ahead f s with
  | nil => exact Resolution.always_pure hf
  | cons located sites ih =>
    obtain ⟨site, file⟩ := located
    have hnoted (s : FileStore) (h : f.imports.Current s) :
        (f.noted report site file).imports.Current s := by
      rwa [Findings.imports_noted]
    -- The tables stay current over whatever is asked meanwhile.
    have htables := w.reusable.stable_current.and ahead.stable_current
    have hcheck := Resolution.always_of_stable (htables.and f.imports.stable_current)
      ⟨⟨hw, hahead⟩, hf⟩ checkpoint
    refine Resolution.Always.bind (hcheck.mono fun s _ ⟨⟨hw, hahead⟩, hf⟩ => ?_)
    dsimp only
    split
    · exact ih hw hahead (hnoted s hf)
    · rename_i p _
      have hfetch := (fetch?_always hw hahead p).keeping (htables.and f.imports.stable_current)
        ⟨⟨hw, hahead⟩, hf⟩
      refine Resolution.Always.bind ((Resolution.always_lift hfetch).mono ?_)
      rintro s (_ | found) ⟨⟨⟨hw, hahead⟩, hf⟩, hfound⟩
      · exact ih hw (hahead.erase p.parts) (hnoted s hf)
      · obtain ⟨hpath, hcurrent⟩ := hfound found rfl
        have hadded := (hnoted s hf).add (hpath ▸ hcurrent)
        have hbelow := (henter found.parsed.symbols.sites
          ((f.noted report site file).withImport found) s hw hadded).keeping htables ⟨hw, hahead⟩
        refine Resolution.Always.bind (hbelow.mono fun s f ⟨⟨hw, hahead⟩, hf⟩ => ?_)
        exact ih hw (hahead.erase p.parts) hf

theorem resolveSitesBy_always (schedule : w.Schedule) (depth : Nat) (report : Bool)
    (sites : List ImportSite) {f : Findings} (hw : w.reusable.Current s)
    (hf : f.imports.Current s) :
    (resolveSitesBy schedule depth report sites f).Always (fun s f => f.imports.Current s) s := by
  induction depth generalizing report sites f s with
  | zero => exact Resolution.always_pure hf
  | succ depth ih =>
    have htables := w.reusable.stable_current.and f.imports.stable_current
    have hlocate := Resolution.always_of_stable htables ⟨hw, hf⟩
      (liftM (ImportSite.locateAll sites))
    refine Resolution.Always.bind (hlocate.mono fun s located ⟨hw, hf⟩ => ?_)
    have hread := (readAheadBy_always (s := s) schedule f (located.filterMap (·.2))).keeping htables
      ⟨hw, hf⟩
    refine Resolution.Always.bind ((Resolution.always_lift hread).mono ?_)
    rintro s ahead ⟨⟨hw, hf⟩, hahead⟩
    exact visit_always (fun sites f s hw hf => ih false sites hw hf) report located hw hahead hf

end ImportWalk

/-- A resolution out of a series: the text, how deep its walk may go, and in which order its loads
ask their questions. -/
structure Round where
  text : String
  depth : Nat
  schedule : (w : ImportWalk) → w.Schedule

/-- Where a series of resolutions stands. -/
structure Standing where
  /-- The latest generation. -/
  generation : Option Generation
  moment : Moment

namespace Round

variable (r : Resolver) (file : FilePath)

/-- The walk of a round. -/
def walk (round : Round) (x : Standing) : ImportWalk :=
  r.walk file (.ofText round.text) x.generation

/-- The resolution of a round, which goes on from the generation before. -/
def resolution (round : Round) (x : Standing) : Access (Except Cancelled Generation) :=
  (r.resolutionBy round.depth file (.ofText round.text) x.generation
    (round.schedule (round.walk r file x))).run

/-- A round beside other things; a round that is cancelled leaves the generation as it is. -/
def run (w : Surroundings) (x : Standing) (round : Round) : Standing :=
  let result := (round.resolution r file x).runIn w x.moment
  ⟨result.1.toOption.or x.generation, result.2⟩

/-- A series of rounds, from the first generation of a file on, with no files there at first. -/
def runAll (w : Surroundings) (rounds : List Round) : Standing :=
  rounds.foldl (run r file w) ⟨none, 0, .empty⟩

end Round

/-- Every import of the latest generation is current. -/
structure Standing.Current (x : Standing) : Prop where
  timely : x.moment.store.Timely
  imports : ∀ g, x.generation = some g → g.imports.Current x.moment.store

namespace Round

variable {r : Resolver} {file : FilePath} {x : Standing}

theorem walk_current (hx : x.Current) (round : Round) :
    (round.walk r file x).reusable.Current x.moment.store := by
  unfold walk Resolver.walk
  dsimp only
  split
  · rename_i g hg
    split
    · exact hx.imports g hg
    · exact ImportTable.current_empty _
  · exact ImportTable.current_empty _

theorem resolution_always (hx : x.Current) (round : Round) :
    (round.resolution r file x).Always (fun s result => ∀ g, result = .ok g →
      g.imports.Current s) x.moment.store := by
  have hw : (round.walk r file x).reusable.Current x.moment.store := walk_current hx round
  have hstable := (round.walk r file x).reusable.stable_current
  refine Resolution.Always.bind
    ((Resolution.always_of_stable hstable hw checkpoint).mono fun s _ hw => ?_)
  refine Resolution.Always.bind
    ((Resolution.always_of_stable hstable hw checkpoint).mono fun s _ hw => ?_)
  have hwalk := ImportWalk.resolveSitesBy_always (f := .empty)
    (round.schedule (round.walk r file x)) round.depth true
    (r.symbols file (.ofText round.text) x.generation).sites hw (ImportTable.current_empty s)
  refine Resolution.Always.bind (hwalk.mono fun s found hfound => ?_)
  have hcheck := Resolution.always_of_stable found.imports.stable_current hfound checkpoint
  exact Resolution.Always.bind (hcheck.mono fun s _ hfound => Resolution.always_pure hfound)

variable (changes : Nat → List FileChange) (cancelled : Nat → Bool)

theorem run_current (hx : x.Current) (round : Round) :
    (round.run r file (.changing changes cancelled) x).Current := by
  let result := (round.resolution r file x).runIn (.changing changes cancelled) x.moment
  have hfollows : x.moment.store.Follows result.2.store :=
    Access.follows_runIn changes cancelled _ _
  refine ⟨hx.timely.follows hfollows, fun g hg => ?_⟩
  have hresult := (@resolution_always r file x hx round).runIn changes cancelled hx.timely
  change result.1.toOption.or x.generation = some g at hg
  cases hnew : result.1 with
  | ok g' =>
    rw [hnew] at hg
    exact hresult g (hnew.trans (congrArg Except.ok (Option.some.inj hg)))
  | error e =>
    rw [hnew] at hg
    exact g.imports.stable_current _ _ hfollows (hx.imports g hg)

theorem runAll_current (rounds : List Round) :
    (runAll r file (.changing changes cancelled) rounds).Current := by
  have hstart : Standing.Current ⟨none, 0, .empty⟩ := ⟨FileStore.timely_empty, fun _ h => nomatch h⟩
  unfold runAll
  generalize (⟨none, 0, .empty⟩ : Standing) = x at hstart
  -- Induction on the rounds: each of them keeps the generation current.
  induction rounds generalizing x with
  | nil => exact hstart
  | cons round rounds ih =>
    exact ih (round.run r file (.changing changes cancelled) x)
      (run_current changes cancelled hstart round)

/-- No import is used again that is out of date, whatever is written and removed before any
question of any resolution of a series: after any number `n` of questions of a resolution, what
would be used again for a path is what the text of the file says when its time is asked for. -/
theorem reuse_current (r : Resolver) (file : FilePath) (changes : Nat → List FileChange)
    (cancelled : Nat → Bool) (rounds : List Round) (round : Round) (n : Nat) (p : FilePath)
    (parsed : ParsedImport) :
    let w := Surroundings.changing changes cancelled
    let x := runAll r file w rounds
    let m := (round.resolution r file x).after w n x.moment
    (((round.walk r file x).reuse? p).runIn w m).1 = some parsed →
      ∃ f, (w.before m.time m.store).file? p = some f ∧ parsed.document = .ofText f.text := by
  intro w x m h
  have hx : x.Current := runAll_current changes cancelled rounds
  have hm : x.moment.store.Follows m.store := Access.follows_after changes cancelled n _ _
  have hnow : x.moment.store.Follows (w.before m.time m.store) :=
    hm.trans (FileStore.follows_changes m.store (changes m.time))
  have hwalk : (round.walk r file x).reusable.Current x.moment.store := walk_current hx round
  have hw := ImportTable.stable_current _ _ _ hnow hwalk
  rw [ImportWalk.runIn_reuse?] at h
  obtain ⟨known, time, hknown, hmodified, hle, rfl⟩ := ImportWalk.reusedIn_eq_some h
  obtain ⟨f, hf, rfl⟩ := FileStore.modified_eq_ok hmodified
  exact ⟨f, hf, (hw p.parts known hknown).document f hf hle⟩

/-- A file is written anew between the question for its time and the one for its text, so the
second round reads it again; the third one uses it again, with the new text. -/
theorem reuse_current_after_race :
    let r : Resolver := ⟨.standard, false⟩
    let file : FilePath := ⟨"/p/a.proj"⟩
    let p : FilePath := ⟨"/p/x.props"⟩
    let round : Round :=
      ⟨"<Project><Import Project='x.props' /></Project>", 2, fun w => .inOrder w⟩
    let changes : Nat → List FileChange := fun time =>
      if time = 0 then [.write p "<Project />"]
      else if time = 5 then [.write p "<Project></Project>"] else []
    let w := Surroundings.changing changes fun _ => false
    let x := runAll r file w [round, round]
    let m := (round.resolution r file x).after w 3 x.moment
    ∃ parsed, (((round.walk r file x).reuse? p).runIn w m).1 = some parsed ∧
      ∃ f, (w.before m.time m.store).file? p = some f ∧ parsed.document = .ofText f.text ∧
        f.text = "<Project></Project>" ∧ f.modified = 2 := by
  intro r file p round changes w x m
  have hhit : (((round.walk r file x).reuse? p).runIn w m).1.isSome = true := by
    decide +kernel +revert
  have hfile : (w.before m.time m.store).file? p = some ⟨"<Project></Project>", 2, false⟩ := by
    clear hhit
    decide +kernel +revert
  obtain ⟨parsed, hparsed⟩ := Option.isSome_iff_exists.1 hhit
  obtain ⟨f, hf, hdocument⟩ :=
    reuse_current r file changes (fun _ => false) [round, round] round 3 p parsed hparsed
  obtain rfl := Option.some.inj (hfile.symm.trans hf)
  exact ⟨parsed, hparsed, _, hf, hdocument, rfl, rfl⟩

end Round

end ProjectAnalysis
