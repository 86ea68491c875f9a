import ProjectAnalysis.Proofs.AccessValue
import ProjectAnalysis.Proofs.FilePathNormal
import ProjectAnalysis.Proofs.OrderedTableLookup

/-! What the questions of a walk through imports give while the files stay as they are: the file
of each import, what the generation before still knows of it, and what reading it gives. -/
namespace ProjectAnalysis

namespace ImportSite

/-- The first of the candidates that is there. -/
def fileIn (s : FileStore) (site : ImportSite) : Option FilePath :=
  match site.target with
  | .candidates paths => paths.find? s.contains
  | _ => none

theorem valueIn_firstPresent (s : FileStore) (paths : List FilePath) :
    (firstPresent paths).valueIn s = paths.find? s.contains := by
  induction paths with
  | nil => rfl
  | cons p ps ih =>
    rw [firstPresent, Access.valueIn_bind, Access.valueIn_present, List.find?_cons]
    cases s.contains p with
    | true => rfl
    | false => exact ih

theorem valueIn_locate (s : FileStore) (site : ImportSite) :
    site.locate.valueIn s = site.fileIn s := by
  unfold locate fileIn
  cases site.target with
  | candidates paths => exact valueIn_firstPresent s paths
  | empty | sdk | wildcard | unevaluable _ => rfl

theorem valueIn_locateAll (s : FileStore) (sites : List ImportSite) :
    (locateAll sites).valueIn s = sites.map fun site => (site, site.fileIn s) := by
  induction sites with
  | nil => rfl
  | cons site sites ih =>
    simp only [locateAll, Access.valueIn_bind, valueIn_locate, ih, Access.valueIn_pure,
      List.map_cons]

/-- Every candidate is written in normal form. -/
def IsNormal (site : ImportSite) : Prop :=
  ∀ paths, site.target = .candidates paths → ∀ p ∈ paths, p.IsNormal

theorem IsNormal.fileIn {s : FileStore} {site : ImportSite} {p : FilePath} (h : site.IsNormal)
    (hp : site.fileIn s = some p) : p.IsNormal := by
  unfold ImportSite.fileIn at hp
  split at hp
  · rename_i paths htarget
    exact h paths htarget p (List.mem_of_find?_eq_some hp)
  · cases hp

theorem isNormal_of_mem_files {s : FileStore} {sites : List ImportSite}
    (h : ∀ site ∈ sites, site.IsNormal) :
    ∀ p ∈ sites.filterMap (·.fileIn s), p.IsNormal := by
  intro p hp
  obtain ⟨site, hsite, hfile⟩ := List.mem_filterMap.1 hp
  exact (h site hsite).fileIn hfile

theorem contains_fileIn {s : FileStore} {site : ImportSite} {p : FilePath}
    (hp : site.fileIn s = some p) : s.contains p = true := by
  unfold fileIn at hp
  split at hp
  · exact List.find?_some hp
  · cases hp

end ImportSite

namespace ImportScope

/-- Every candidate is a path that is taken from a directory. -/
theorem exists_resolve_of_target (x : ImportScope) (project : String) (sdk : Option String)
    {paths : List FilePath} (h : x.target project sdk = .candidates paths) :
    ∀ p ∈ paths, ∃ base text, FilePath.resolve base text = p := by
  have hcandidates (base : Option FilePath) (values : List String)
      (h : candidates base values = .candidates paths) :
      ∀ p ∈ paths, ∃ base text, FilePath.resolve base text = p := by
    obtain rfl := ImportTarget.candidates.inj h
    exact List.forall_mem_map.2 fun _ _ => ⟨base, _, rfl⟩
  unfold target at h
  split at h
  · cases h
  split at h
  · cases h
  split at h
  · cases h
  split at h
  · exact hcandidates _ _ h
  split at h
  · exact hcandidates _ _ h
  · cases h

theorem exists_resolve_of_sites (x : ImportScope) (events : List WalkEvent) :
    ∀ site ∈ x.sites events, ∀ paths, site.target = .candidates paths →
      ∀ p ∈ paths, ∃ base text, FilePath.resolve base text = p := by
  have hsdk (project : String) (root : Xml.Element) : ∀ site ∈ x.sdkSites project root,
      ∃ project sdk, site.target = x.target project sdk := by
    intro site hsite
    unfold sdkSites at hsite
    split at hsite
    · obtain ⟨sdk, -, rfl⟩ := List.mem_map.1 hsite
      exact ⟨project, some sdk, rfl⟩
    · exact absurd hsite List.not_mem_nil
  intro site hsite paths hpaths
  obtain ⟨project, sdk, htarget⟩ : ∃ project sdk, site.target = x.target project sdk := by
    simp only [sites, List.mem_append, List.mem_flatMap, List.mem_map] at hsite
    rcases hsite with (⟨root, -, h⟩ | ⟨e, -, rfl⟩) | ⟨root, -, h⟩
    · exact hsdk _ root site h
    · exact ⟨_, _, rfl⟩
    · exact hsdk _ root site h
  exact x.exists_resolve_of_target project sdk (htarget.symm.trans hpaths)

/-- The imports that are found in a document lead to paths in normal form. -/
theorem sites_isNormal (x : ImportScope) (events : List WalkEvent) :
    ∀ site ∈ x.sites events, site.IsNormal := by
  intro site hsite paths hpaths p hp
  obtain ⟨base, text, rfl⟩ := x.exists_resolve_of_sites events site hsite paths hpaths p hp
  exact FilePath.resolve_isNormal base text

end ImportScope

namespace ImportWalk

variable (w : ImportWalk) (s : FileStore)

/-- What the generation before knows of a file that has not changed since. -/
def reusedIn (p : FilePath) : Option ParsedImport :=
  match w.reusable.get? p with
  | none => none
  | some known =>
    match s.modified p with
    | .ok time => if time ≤ known.parsed.timestamp then some known.parsed else none
    | .error _ => none

/-- What reading a file gives. -/
def loadedIn (p : FilePath) : Option ParsedImport :=
  match s.file? p with
  | none => none
  | some f => if f.unreadable then none else some (w.parse p f.modified f.text)

/-- A new import: used again, or read. -/
def fetchedIn (p : FilePath) : Option ResolvedImport :=
  match w.reusedIn s p with
  | some parsed => some ⟨p, parsed, true⟩
  | none => (w.loadedIn s p).map fun parsed => ⟨p, parsed, false⟩

theorem valueIn_reuse? (p : FilePath) : (w.reuse? p).valueIn s = w.reusedIn s p := by
  unfold reuse? reusedIn
  cases w.reusable.get? p with
  | none => rfl
  | some known =>
    simp only [Access.valueIn_bind, Access.valueIn_modified]
    cases s.modified p <;> rfl

theorem valueIn_load? (p : FilePath) : (w.load? p).valueIn s = w.loadedIn s p := by
  simp only [load?, loadedIn, Access.valueIn_bind, Access.valueIn_cancelled, Bool.false_eq_true,
    ↓reduceIte, Access.valueIn_modified, FileStore.modified]
  cases hf : s.file? p with
  | none => rfl
  | some f =>
    simp only [Access.valueIn_bind, Access.valueIn_read, FileStore.text, hf]
    cases f.unreadable <;> rfl

theorem valueIn_outdated (paths : List FilePath) :
    (w.outdated paths).valueIn s = paths.filter fun p => (w.reusedIn s p).isNone := by
  induction paths with
  | nil => rfl
  | cons p ps ih =>
    simp only [outdated, Access.valueIn_bind, valueIn_reuse?, ih, Access.valueIn_pure,
      List.filter_cons]
    cases w.reusedIn s p <;> rfl

/-- What was read ahead is what reading now gives. -/
def AgreesIn (ahead : ReadAhead) : Prop :=
  ∀ (p : FilePath) (parsed : Option ParsedImport), p.IsNormal →
    ahead.get? p.parts = some parsed → parsed = w.loadedIn s p

theorem agreesIn_empty : w.AgreesIn s .empty := by
  intro p parsed _ h
  cases h

theorem AgreesIn.erase {w : ImportWalk} {s : FileStore} {ahead : ReadAhead}
    (h : w.AgreesIn s ahead) (k : List PathPart) : w.AgreesIn s (ahead.erase k) := by
  intro p parsed hp hget
  rw [OrderedTable.get?_erase] at hget
  split at hget
  · cases hget
  · exact h p parsed hp hget

theorem agreesIn_loadAll {paths : List FilePath} (h : ∀ p ∈ paths, p.IsNormal) :
    w.AgreesIn s ((w.loadAll paths).valueIn s) := by
  induction paths with
  | nil => exact w.agreesIn_empty s
  | cons p ps ih =>
    obtain ⟨hp, hps⟩ := List.forall_mem_cons.1 h
    intro q parsed hq hget
    simp only [loadAll, Access.valueIn_bind, valueIn_load?, Access.valueIn_pure,
      OrderedTable.get?_insert] at hget
    split at hget
    · rename_i heq
      -- Both paths are normal: with the same parts they are one path.
      obtain rfl := hp.eq_of_parts hq heq
      exact (Option.some.inj hget).symm
    · exact ih hps q parsed hq hget

theorem mem_of_mem_eraseDupsBy {α : Type} {r : α → α → Bool} {a : α} (l : List α)
    (h : a ∈ l.eraseDupsBy r) : a ∈ l := by
  match l with
  | [] => exact h
  | b :: bs =>
    rw [List.eraseDupsBy_cons] at h
    rcases List.mem_cons.1 h with rfl | h
    · exact List.mem_cons_self
    · have hfilter := mem_of_mem_eraseDupsBy (bs.filter fun c => r c b = false) h
      exact List.mem_cons_of_mem b (List.mem_filter.1 hfilter).1
termination_by l.length
decreasing_by exact Nat.lt_succ_of_le (List.length_filter_le _ bs)

theorem agreesIn_readAhead (f : Findings) {paths : List FilePath} (h : ∀ p ∈ paths, p.IsNormal) :
    w.AgreesIn s ((w.readAhead f paths).valueIn s) := by
  rw [readAhead, Access.valueIn_bind, valueIn_outdated]
  refine w.agreesIn_loadAll s fun p hp => ?_
  have hfresh := mem_of_mem_eraseDupsBy _ (List.mem_filter.1 hp).1
  exact h p (List.mem_filter.1 hfresh).1

theorem valueIn_fetch? {ahead : ReadAhead} (h : w.AgreesIn s ahead) {p : FilePath}
    (hp : p.IsNormal) : (w.fetch? p ahead).valueIn s = w.fetchedIn s p := by
  rw [fetch?, Access.valueIn_bind, valueIn_reuse?, fetchedIn]
  cases w.reusedIn s p with
  | some parsed => rfl
  | none =>
    cases hahead : ahead.get? p.parts with
    | none => simp only [Access.valueIn_bind, valueIn_load?, Access.valueIn_pure]
    | some parsed =>
      rw [← h p parsed hp hahead]
      rfl

section
variable {w : ImportWalk} {s : FileStore}

theorem reusedIn_eq_some {p : FilePath} {parsed : ParsedImport}
    (h : w.reusedIn s p = some parsed) : ∃ known time, w.reusable.get? p = some known ∧
      s.modified p = .ok time ∧ time ≤ known.parsed.timestamp ∧ known.parsed = parsed := by
  unfold reusedIn at h
  split at h
  · cases h
  rename_i known hknown
  split at h
  · rename_i time htime
    split at h
    · rename_i hle
      exact ⟨known, time, hknown, htime, hle, Option.some.inj h⟩
    · cases h
  · cases h

theorem loadedIn_eq_none_iff {p : FilePath} :
    w.loadedIn s p = none ↔ ∃ fault, s.text p = .error fault := by
  unfold loadedIn FileStore.text
  cases s.file? p with
  | none => simp
  | some f => cases hread : f.unreadable <;> simp [hread]

theorem loadedIn_eq_some_iff {p : FilePath} {parsed : ParsedImport} :
    w.loadedIn s p = some parsed ↔ ∃ time text,
      s.modified p = .ok time ∧ s.text p = .ok text ∧ w.parse p time text = parsed := by
  unfold loadedIn FileStore.text FileStore.modified
  cases s.file? p with
  | none => simp
  | some f => cases hread : f.unreadable <;> simp [hread]

theorem reusedIn_of_nothing_reusable (h : w.reusable = .empty) (p : FilePath) :
    w.reusedIn s p = none := by
  unfold reusedIn
  rw [h]
  rfl

theorem fetchedIn_of_nothing_reusable (h : w.reusable = .empty) (p : FilePath) :
    w.fetchedIn s p = (w.loadedIn s p).map fun parsed => ⟨p, parsed, false⟩ := by
  rw [fetchedIn, reusedIn_of_nothing_reusable h]

theorem loadedIn_isNormal {p : FilePath} {parsed : ParsedImport}
    (h : w.loadedIn s p = some parsed) : ∀ site ∈ parsed.symbols.sites, site.IsNormal := by
  unfold loadedIn at h
  split at h
  · cases h
  split at h
  · cases h
  obtain rfl := Option.some.inj h
  exact ImportScope.sites_isNormal _ _

theorem fetchedIn_path {p : FilePath} {found : ResolvedImport} (h : w.fetchedIn s p = some found) :
    found.path = p := by
  unfold fetchedIn at h
  split at h
  · cases h
    rfl
  · obtain ⟨parsed, -, rfl⟩ := Option.map_eq_some_iff.1 h
    rfl

end

end ImportWalk

end ProjectAnalysis
