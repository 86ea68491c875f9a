import ProjectAnalysis.Proofs.ImportWalkPlain

/-! Imports that are used again. An import of an earlier generation is what reading its file gives,
as long as the file is not newer, and later writes keep it so: each of them takes a time of its
own. A walk that uses such imports again finds what a walk from scratch finds. -/
namespace ProjectAnalysis

namespace FileStore

theorem modified_eq_ok {s : FileStore} {p : FilePath} {time : Nat} (h : s.modified p = .ok time) :
    ∃ f, s.file? p = some f ∧ f.modified = time := by
  unfold modified at h
  split at h
  · rename_i f hf
    exact ⟨f, hf, Except.ok.inj h⟩
  · cases h

/-- No file is newer than the clock, as it is while files get their times from writes alone. -/
def Timely (s : FileStore) : Prop :=
  ∀ k f, s.files.get? k = some f → f.modified ≤ s.clock

theorem timely_empty : empty.Timely := by
  intro k f h
  cases h

/-- What may become of the files: whatever is there later was there before, or came since. -/
structure Follows (s s' : FileStore) : Prop where
  clock_le : s.clock ≤ s'.clock
  files : ∀ k f, s'.files.get? k = some f →
    s.files.get? k = some f ∨ (s.clock < f.modified ∧ f.modified ≤ s'.clock)

theorem follows_write (s : FileStore) (p : FilePath) (text : String) :
    s.Follows (s.write p text) := by
  refine ⟨Nat.le_succ _, fun k f h => ?_⟩
  rw [write, OrderedTable.get?_insert] at h
  split at h
  · obtain rfl := Option.some.inj h
    exact Or.inr ⟨Nat.lt_succ_self _, Nat.le_refl _⟩
  · exact Or.inl h

theorem follows_remove (s : FileStore) (p : FilePath) : s.Follows (s.remove p) := by
  refine ⟨Nat.le_refl _, fun k f h => ?_⟩
  rw [remove, OrderedTable.get?_erase] at h
  split at h
  · cases h
  · exact Or.inl h

theorem follows_of_files_eq {s s' : FileStore} (hfiles : s'.files = s.files)
    (hclock : s'.clock = s.clock) : s.Follows s' :=
  ⟨Nat.le_of_eq hclock.symm, fun _ _ h => Or.inl (hfiles ▸ h)⟩

theorem Timely.follows {s s' : FileStore} (h : s.Timely) (hs : s.Follows s') : s'.Timely := by
  intro k f hf
  rcases hs.files k f hf with hold | ⟨-, hnew⟩
  · exact Nat.le_trans (h k f hold) hs.clock_le
  · exact hnew

end FileStore

/-- The same import, as if it had just been read. -/
def ResolvedImport.unmarked (i : ResolvedImport) : ResolvedImport :=
  { i with reused := false }

namespace ImportWalk

variable {w : ImportWalk} {s : FileStore}

/-- The same walk with nothing to use again. -/
def afresh (w : ImportWalk) : ImportWalk :=
  { w with reusable := .empty }

/-- An import that is what reading its file gives, unless the file has changed since. -/
structure Faithful (w : ImportWalk) (s : FileStore) (known : ResolvedImport) : Prop where
  path : known.path.IsNormal
  sites : ∀ site ∈ known.parsed.symbols.sites, site.IsNormal
  time_le : known.parsed.timestamp ≤ s.clock
  unchanged : ∀ f, s.file? known.path = some f → f.modified ≤ known.parsed.timestamp →
    w.loadedIn s known.path = some known.parsed

theorem loadedIn_congr {s' : FileStore} {p : FilePath} (h : s.file? p = s'.file? p) :
    w.loadedIn s p = w.loadedIn s' p := by
  rw [loadedIn, loadedIn, h]

/-- Writing and removing files makes no import unfaithful. -/
theorem Faithful.follows {s' : FileStore} {known : ResolvedImport} (h : w.Faithful s known)
    (hs : s.Follows s') : w.Faithful s' known := by
  refine ⟨h.path, h.sites, Nat.le_trans h.time_le hs.clock_le, fun f hf htime => ?_⟩
  rcases hs.files _ f hf with hold | ⟨hnew, -⟩
  · rw [loadedIn_congr (hf.trans hold.symm)]
    exact h.unchanged f hold htime
  · -- A file that came since is newer than everything that was read before.
    exact absurd (Nat.le_trans htime h.time_le) (Nat.not_le_of_lt hnew)

theorem faithful_of_loadedIn (hs : s.Timely) {known : ResolvedImport} (hpath : known.path.IsNormal)
    (h : w.loadedIn s known.path = some known.parsed) : w.Faithful s known := by
  have hsites : ∀ site ∈ known.parsed.symbols.sites, site.IsNormal := loadedIn_isNormal h
  obtain ⟨time, text, hmodified, -, hparsed⟩ := loadedIn_eq_some_iff.1 h
  refine ⟨hpath, hsites, ?_, fun _ _ _ => h⟩
  have htime : known.parsed.timestamp = time := hparsed ▸ rfl
  obtain ⟨f, hfile, rfl⟩ := FileStore.modified_eq_ok hmodified
  exact htime ▸ hs _ f hfile

structure Reuses (w : ImportWalk) (s : FileStore) : Prop where
  keyed : Keyed w.reusable
  faithful : ∀ e ∈ w.reusable.entries, w.Faithful s e.2

theorem Reuses.of_empty (h : w.reusable = .empty) : w.Reuses s := by
  refine ⟨?_, ?_⟩ <;> rw [h]
  · exact keyed_empty
  · exact List.forall_mem_nil _

/-- An import that is used again is what reading its file would give. -/
theorem Reuses.loadedIn (h : w.Reuses s) {p : FilePath} (hp : p.IsNormal) {parsed : ParsedImport}
    (hreused : w.reusedIn s p = some parsed) : w.loadedIn s p = some parsed := by
  obtain ⟨known, time, hknown, hmodified, hle, rfl⟩ := reusedIn_eq_some hreused
  -- The import is found by the parts of its path, and both paths are normal.
  have hmem := OrderedTable.get?_eq_some_iff.1 hknown
  have hfaithful : w.Faithful s known := h.faithful _ hmem
  obtain rfl : p = known.path := hp.eq_of_parts hfaithful.path (h.keyed _ hmem)
  obtain ⟨f, hfile, rfl⟩ := FileStore.modified_eq_ok hmodified
  exact hfaithful.unchanged f hfile hle

theorem Reuses.isNormal (h : w.Reuses s) : w.IsNormal := by
  intro p known hknown
  exact (h.faithful _ (OrderedTable.get?_eq_some_iff.1 hknown)).sites

/-- A new import is what reading its file gives, used again or not. -/
theorem Reuses.loadedIn_of_fetchedIn (h : w.Reuses s) {p : FilePath} (hp : p.IsNormal)
    {found : ResolvedImport} (hfound : w.fetchedIn s p = some found) :
    w.loadedIn s p = some found.parsed := by
  unfold fetchedIn at hfound
  split at hfound
  · rename_i parsed hreused
    obtain rfl := Option.some.inj hfound
    exact h.loadedIn hp hreused
  · obtain ⟨parsed, hloaded, rfl⟩ := Option.map_eq_some_iff.1 hfound
    exact hloaded

theorem Reuses.fetchedIn_afresh (h : w.Reuses s) {p : FilePath} (hp : p.IsNormal) :
    w.afresh.fetchedIn s p = (w.fetchedIn s p).map ResolvedImport.unmarked := by
  rw [fetchedIn_of_nothing_reusable rfl]
  change (w.loadedIn s p).map _ = _
  cases hfound : w.fetchedIn s p with
  | none =>
    unfold fetchedIn at hfound
    split at hfound
    · cases hfound
    · rw [Option.map_eq_none_iff.1 hfound]
      rfl
  | some found =>
    rw [h.loadedIn_of_fetchedIn hp hfound, ← fetchedIn_path hfound]
    rfl

end ImportWalk

/-- The same imports, as if each of them had just been read. -/
def ImportTable.unmarked (t : ImportTable) : ImportTable :=
  ⟨t.entries.map fun e => (e.1, e.2.unmarked), by
    rw [List.map_map]
    exact t.nodup⟩

def Findings.unmarked (f : Findings) : Findings :=
  { f with imports := f.imports.unmarked }

theorem ImportTable.entries_unmarked (t : ImportTable) :
    t.unmarked.entries = t.entries.map fun e => (e.1, e.2.unmarked) := rfl

theorem ImportTable.keys_unmarked (t : ImportTable) :
    OrderedTable.keys t.unmarked = OrderedTable.keys t :=
  List.map_map

theorem ImportTable.values_unmarked (t : ImportTable) :
    OrderedTable.values t.unmarked = (OrderedTable.values t).map ResolvedImport.unmarked := by
  rw [OrderedTable.values, entries_unmarked, List.map_map, OrderedTable.values, List.map_map]
  rfl

theorem Findings.unmarked_noted (f : Findings) (report : Bool) (site : ImportSite)
    (file : Option FilePath) :
    (f.noted report site file).unmarked = f.unmarked.noted report site file := by
  unfold noted Findings.report
  cases file <;> split <;> rfl

namespace ImportWalk

variable {w : ImportWalk} {s : FileStore}

theorem isKnown_unmarked (f : Findings) (p : FilePath) :
    w.afresh.isKnown f.unmarked p = w.isKnown f p := by
  have hcontains : f.unmarked.imports.contains p = f.imports.contains p := by
    rw [Bool.eq_iff_iff, ImportTable.contains, ImportTable.contains, OrderedTable.contains_iff,
      OrderedTable.contains_iff, Findings.unmarked, ImportTable.keys_unmarked]
  rw [isKnown, isKnown, hcontains]
  rfl

theorem unmarked_withImport {f : Findings} {p : FilePath} {found : ResolvedImport}
    (hnew : w.isKnown f p = false) (hfound : w.fetchedIn s p = some found)
    (hfresh : w.afresh.fetchedIn s p = some found.unmarked) :
    (f.withImport found).unmarked = f.unmarked.withImport found.unmarked := by
  have hentries := entries_withImport hnew hfound
  have hentries' := entries_withImport ((isKnown_unmarked f p).trans hnew) hfresh
  have himports : (f.withImport found).imports.unmarked =
      (f.unmarked.withImport found.unmarked).imports := by
    apply OrderedTable.ext
    rw [hentries', ImportTable.entries_unmarked, hentries, List.map_append]
    rfl
  exact congrArg (fun t => { f with imports := t }) himports

/-- A walk that uses imports again finds what the walk from scratch finds. -/
theorem Walks.afresh (hw : w.Reuses s) {report : Bool} {sites : List ImportSite}
    {f f' : Findings} (h : w.Walks s report sites f f') (hsites : ∀ site ∈ sites, site.IsNormal) :
    w.afresh.Walks s report sites f.unmarked f'.unmarked := by
  induction h with
  | done report f => exact .done report _
  | @skip report site sites f f' h _ ih =>
    obtain ⟨hsite, hrest⟩ := List.forall_mem_cons.1 hsites
    refine .skip (fun p hp => ?_) (Findings.unmarked_noted .. ▸ ih hrest)
    rw [isKnown_unmarked, hw.fetchedIn_afresh (hsite.fileIn hp), Option.map_eq_none_iff]
    exact h p hp
  | @enter report site sites p found f f₁ f' hfile hnew hfound _ _ ihbelow ihrest =>
    obtain ⟨hsite, hrest⟩ := List.forall_mem_cons.1 hsites
    have hfresh : w.afresh.fetchedIn s p = some found.unmarked := by
      rw [hw.fetchedIn_afresh (hsite.fileIn hfile), hfound]
      rfl
    have hbelow := ihbelow (fetchedIn_isNormal hw.isNormal hfound)
    rw [unmarked_withImport ((isKnown_noted _ _).trans hnew) hfound hfresh,
      Findings.unmarked_noted] at hbelow
    exact .enter hfile ((isKnown_unmarked f p).trans hnew) hfresh hbelow (ihrest hrest)

/-- Whatever a walk finds is faithful. -/
theorem Walks.faithful (hs : s.Timely) (hw : w.Reuses s) {report : Bool} {sites : List ImportSite}
    {f f' : Findings} (h : w.Walks s report sites f f') (hsites : ∀ site ∈ sites, site.IsNormal)
    (hf : ∀ e ∈ f.imports.entries, w.Faithful s e.2) :
    ∀ e ∈ f'.imports.entries, w.Faithful s e.2 := by
  induction h with
  | done => exact hf
  | skip _ _ ih =>
    refine ih (List.forall_mem_cons.1 hsites).2 ?_
    rwa [Findings.imports_noted]
  | @enter report site sites p found f f₁ f' hfile hnew hfound _ _ ihbelow ihrest =>
    obtain ⟨hsite, hrest⟩ := List.forall_mem_cons.1 hsites
    have hp := hsite.fileIn hfile
    have hpath := fetchedIn_path hfound
    have hnow : w.Faithful s found := by
      apply faithful_of_loadedIn hs (hpath ▸ hp)
      rw [hpath]
      exact hw.loadedIn_of_fetchedIn hp hfound
    refine ihrest hrest (ihbelow hnow.sites fun e he => ?_)
    rw [entries_entered hnew hfound, List.mem_append, List.mem_singleton] at he
    rcases he with he | rfl
    · exact hf e he
    · exact hnow

end ImportWalk

end ProjectAnalysis
