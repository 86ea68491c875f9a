import ProjectAnalysis.Proofs.AccessReads
import ProjectAnalysis.Proofs.ImportWalkValue

/-! What one level of a walk from scratch reads: of the files that the imports of one document lead
to, those that are new, each once. Each of them can then be fetched without reading it again. -/
namespace ProjectAnalysis

/-- Every file that is there can be read. -/
def FileStore.Readable (s : FileStore) : Prop :=
  ∀ e ∈ s.files.entries, e.2.unreadable = false

instance (s : FileStore) : Decidable s.Readable :=
  inferInstanceAs (Decidable (∀ e ∈ s.files.entries, e.2.unreadable = false))

/-- Some of the imports lead to the file under a key. -/
def leadsTo (s : FileStore) (k : List PathPart) (sites : List ImportSite) : Bool :=
  sites.any fun site => (site.fileIn s).any (·.parts = k)

variable {s : FileStore} {k : List PathPart}

theorem leadsTo_of_mem {sites : List ImportSite} {site : ImportSite} {p : FilePath}
    (hsite : site ∈ sites) (hp : site.fileIn s = some p) : leadsTo s p.parts sites = true := by
  refine List.any_eq_true.2 ⟨site, hsite, ?_⟩
  simp [hp]

theorem exists_of_leadsTo {sites : List ImportSite} (h : leadsTo s k sites = true) :
    ∃ site ∈ sites, ∃ p, site.fileIn s = some p ∧ p.parts = k := by
  obtain ⟨site, hsite, h⟩ := List.any_eq_true.1 h
  obtain ⟨p, hp, h⟩ := (Option.any_eq_true _ _).1 h
  exact ⟨site, hsite, p, hp, of_decide_eq_true h⟩

theorem FileStore.Readable.text (h : s.Readable) {p : FilePath} (hp : s.contains p = true) :
    ∃ text, s.text p = .ok text := by
  obtain ⟨f, hf⟩ := Option.isSome_iff_exists.1 hp
  have hfile : s.file? p = some f := hf
  have hreadable := h _ (OrderedTable.get?_eq_some_iff.1 hf)
  refine ⟨f.text, ?_⟩
  rw [FileStore.text, hfile]
  exact if_neg (Bool.eq_false_iff.1 hreadable)

/-- Removing doubles leaves one path for each file. -/
theorem countP_eraseDupsBy_same (k : List PathPart) (l : List FilePath) :
    (l.eraseDupsBy FilePath.same).countP (·.parts = k) = (l.any (·.parts = k)).toNat := by
  match l with
  | [] => rfl
  | p :: ps =>
    have hrest := countP_eraseDupsBy_same k (ps.filter fun q => q.same p = false)
    rw [List.eraseDupsBy_cons, List.countP_cons, hrest, List.any_cons]
    by_cases hp : p.parts = k
    · -- Whatever names the same file is taken out behind the first path.
      have hnone : (ps.filter fun q => q.same p = false).any (·.parts = k) = false := by
        rw [List.any_eq_false]
        intro q hq hk
        have hother := of_decide_eq_true (List.mem_filter.1 hq).2
        rw [FilePath.same, of_decide_eq_true hk, hp, beq_self_eq_true] at hother
        cases hother
      rw [hnone, decide_eq_true hp]
      rfl
    · have hall : (ps.filter fun q => q.same p = false).any (·.parts = k) =
          ps.any (·.parts = k) := by
        rw [Bool.eq_iff_iff, List.any_eq_true, List.any_eq_true]
        constructor
        · rintro ⟨q, hq, hk⟩
          exact ⟨q, (List.mem_filter.1 hq).1, hk⟩
        · rintro ⟨q, hq, hk⟩
          refine ⟨q, List.mem_filter.2 ⟨hq, decide_eq_true ?_⟩, hk⟩
          rw [FilePath.same, of_decide_eq_true hk]
          exact beq_eq_false_iff_ne.2 (Ne.symm hp)
      rw [hall, decide_eq_false hp]
      rfl
termination_by l.length
decreasing_by exact Nat.lt_succ_of_le (List.length_filter_le _ ps)

namespace ImportSite

theorem readsOf_firstPresent (paths : List FilePath) : (firstPresent paths).readsOf s k = 0 := by
  induction paths with
  | nil => rfl
  | cons p ps ih =>
    rw [firstPresent, Access.readsOf_bind, Access.readsOf_present, Nat.zero_add]
    split
    · rfl
    · exact ih

theorem readsOf_locateAll (sites : List ImportSite) : (locateAll sites).readsOf s k = 0 := by
  have hlocate (site : ImportSite) : site.locate.readsOf s k = 0 := by
    unfold locate
    split
    · exact readsOf_firstPresent _
    · rfl
  induction sites with
  | nil => rfl
  | cons site sites ih =>
    simp only [locateAll, Access.readsOf_bind, hlocate, ih, Access.readsOf_pure, Nat.add_zero]

end ImportSite

namespace ImportWalk

variable {w : ImportWalk} {f : Findings} {sites : List ImportSite} {p : FilePath}
  {ahead : ReadAhead}

/-- The file under a key is not to be entered again. -/
def knowsKey (w : ImportWalk) (f : Findings) (k : List PathPart) : Bool :=
  k == w.root.parts || OrderedTable.contains f.imports k

/-- How often the file under a key is read ahead for some imports. -/
def due (w : ImportWalk) (s : FileStore) (k : List PathPart) (f : Findings)
    (sites : List ImportSite) : Nat :=
  if w.knowsKey f k then 0 else (leadsTo s k sites).toNat

/-- Every new file among the next ones has been read ahead. -/
def Ready (w : ImportWalk) (s : FileStore) (sites : List ImportSite) (f : Findings)
    (ahead : ReadAhead) : Prop :=
  ∀ site ∈ sites, ∀ p, site.fileIn s = some p →
    w.isKnown f p = true ∨ ahead.contains p.parts = true

theorem isKnown_eq_knowsKey (f : Findings) (p : FilePath) : w.isKnown f p = w.knowsKey f p.parts :=
  rfl

theorem readsOf_reuse? (p : FilePath) : (w.reuse? p).readsOf s k = 0 := by
  unfold reuse?
  split
  · rfl
  · rw [Access.readsOf_bind, Access.readsOf_modified, Nat.zero_add]
    split <;> rfl

theorem readsOf_outdated (paths : List FilePath) : (w.outdated paths).readsOf s k = 0 := by
  induction paths with
  | nil => rfl
  | cons p ps ih =>
    simp only [outdated, Access.readsOf_bind, readsOf_reuse?, ih, Access.readsOf_pure,
      Nat.add_zero]

theorem readsOf_load? (h : s.contains p = true) :
    (w.load? p).readsOf s k = if p.parts = k then 1 else 0 := by
  obtain ⟨file, hfile⟩ := Option.isSome_iff_exists.1 h
  have htime : s.modified p = .ok file.modified := by
    rw [FileStore.modified, show s.file? p = some file from hfile]
  simp only [load?, Access.readsOf_bind, Access.readsOf_cancelled, Access.valueIn_cancelled,
    Bool.false_eq_true, ↓reduceIte, Access.readsOf_modified, Access.valueIn_modified, htime,
    Access.readsOf_read, Nat.zero_add]
  split <;> split <;> rfl

theorem readsOf_loadAll {paths : List FilePath} (h : ∀ p ∈ paths, s.contains p = true) :
    (w.loadAll paths).readsOf s k = paths.countP (·.parts = k) := by
  induction paths with
  | nil => rfl
  | cons p ps ih =>
    obtain ⟨hp, hps⟩ := List.forall_mem_cons.1 h
    simp only [loadAll, Access.readsOf_bind, readsOf_load? hp, ih hps, Access.readsOf_pure,
      List.countP_cons, Nat.add_zero, decide_eq_true_eq]
    exact Nat.add_comm _ _

theorem contains_loadAll (paths : List FilePath) (k : List PathPart) :
    ((w.loadAll paths).valueIn s).contains k = true ↔ ∃ p ∈ paths, p.parts = k := by
  induction paths with
  | nil => simp [loadAll, OrderedTable.contains, OrderedTable.get?, OrderedTable.empty]
  | cons p ps ih =>
    rw [OrderedTable.contains] at ih
    simp only [loadAll, Access.valueIn_bind, Access.valueIn_pure, OrderedTable.contains,
      OrderedTable.get?_insert, List.mem_cons, exists_eq_or_imp]
    by_cases hp : p.parts = k
    · simp [hp]
    · simp [hp, ih]

section
variable (hw : w.reusable = .empty)
include hw

/-- What a level reads: the new files that its imports lead to. -/
theorem readAhead_eq (f : Findings) (files : List FilePath) :
    (w.readAhead f files).readsOf s k = (w.loadAll ((files.filter
      (!w.isKnown f ·)).eraseDupsBy FilePath.same)).readsOf s k ∧
    (w.readAhead f files).valueIn s = (w.loadAll ((files.filter
      (!w.isKnown f ·)).eraseDupsBy FilePath.same)).valueIn s := by
  have hall (paths : List FilePath) : (w.outdated paths).valueIn s = paths := by
    rw [valueIn_outdated, List.filter_eq_self]
    intro p _
    rw [reusedIn_of_nothing_reusable hw]
    rfl
  simp only [readAhead, Access.readsOf_bind, Access.valueIn_bind, readsOf_outdated, hall,
    Nat.zero_add, and_self]

theorem readsOf_readAhead (f : Findings) (sites : List ImportSite) :
    (w.readAhead f (sites.filterMap (·.fileIn s))).readsOf s k = w.due s k f sites := by
  have hfresh : ∀ p ∈ ((sites.filterMap (·.fileIn s)).filter
      (!w.isKnown f ·)).eraseDupsBy FilePath.same, s.contains p = true := by
    intro p hp
    have hmem := (List.mem_filter.1 (mem_of_mem_eraseDupsBy _ hp)).1
    obtain ⟨site, -, hfile⟩ := List.mem_filterMap.1 hmem
    exact site.contains_fileIn hfile
  rw [(readAhead_eq hw f _).1, readsOf_loadAll hfresh, countP_eraseDupsBy_same, due]
  -- The files under one key are all known or all new.
  cases hknown : w.knowsKey f k with
  | true =>
    have hnone : ((sites.filterMap (·.fileIn s)).filter (!w.isKnown f ·)).any (·.parts = k) =
        false := by
      rw [List.any_eq_false]
      intro p hp hk
      obtain rfl := of_decide_eq_true hk
      simp [isKnown_eq_knowsKey, hknown] at hp
    rw [hnone]
    rfl
  | false =>
    apply congrArg Bool.toNat
    rw [Bool.eq_iff_iff]
    constructor
    · intro h
      obtain ⟨p, hp, hk⟩ := List.any_eq_true.1 h
      obtain ⟨site, hsite, hfile⟩ := List.mem_filterMap.1 (List.mem_filter.1 hp).1
      exact of_decide_eq_true hk ▸ leadsTo_of_mem hsite hfile
    · intro h
      obtain ⟨site, hsite, p, hfile, rfl⟩ := exists_of_leadsTo h
      refine List.any_eq_true.2 ⟨p, List.mem_filter.2 ⟨?_, ?_⟩, decide_eq_true rfl⟩
      · exact List.mem_filterMap.2 ⟨site, hsite, hfile⟩
      · rw [isKnown_eq_knowsKey, hknown]
        rfl

theorem ready_readAhead (f : Findings) (sites : List ImportSite) :
    w.Ready s sites f ((w.readAhead f (sites.filterMap (·.fileIn s))).valueIn s) := by
  intro site hsite p hp
  cases hknown : w.isKnown f p with
  | true => exact Or.inl rfl
  | false =>
    apply Or.inr
    rw [(readAhead_eq (k := []) hw f _).2, contains_loadAll]
    have hmem : p ∈ (sites.filterMap (·.fileIn s)).filter (!w.isKnown f ·) :=
      List.mem_filter.2 ⟨List.mem_filterMap.2 ⟨site, hsite, hp⟩, by simp [hknown]⟩
    have hany : ((sites.filterMap (·.fileIn s)).filter (!w.isKnown f ·)).any
        (·.parts = p.parts) = true := List.any_eq_true.2 ⟨p, hmem, decide_eq_true rfl⟩
    -- One path for this file is left when doubles are taken out, though it may not be `p` itself.
    have hcount := countP_eraseDupsBy_same p.parts
      ((sites.filterMap (·.fileIn s)).filter (!w.isKnown f ·))
    rw [hany] at hcount
    have hpos := Nat.lt_of_lt_of_eq Nat.one_pos hcount.symm
    obtain ⟨q, hq, hparts⟩ := List.countP_pos_iff.1 hpos
    exact ⟨q, hq, of_decide_eq_true hparts⟩

theorem readsOf_fetch? (h : ahead.contains p.parts = true) :
    (w.fetch? p ahead).readsOf s k = 0 := by
  obtain ⟨parsed, hparsed⟩ := Option.isSome_iff_exists.1 h
  rw [fetch?, Access.readsOf_bind, readsOf_reuse?, valueIn_reuse?, reusedIn_of_nothing_reusable hw]
  dsimp only
  rw [hparsed]
  rfl

/-- A level reads ahead what is due, and then what its visit reads. -/
theorem readsOf_resolveSites (depth : Nat) (report : Bool) (sites : List ImportSite)
    (f : Findings) :
    (w.resolveSites (depth + 1) report sites f).run.readsOf s k = w.due s k f sites +
      (w.visit (w.resolveSites depth false) report (sites.map fun site => (site, site.fileIn s))
        ((w.readAhead f (sites.filterMap (·.fileIn s))).valueIn s) f).run.readsOf s k := by
  have hfiles : (sites.map fun site => (site, site.fileIn s)).filterMap (·.2) =
      sites.filterMap (·.fileIn s) := by
    rw [List.filterMap_map]
    rfl
  rw [resolveSites, Resolution.readsOf_run_bind (Resolution.valueIn_run_lift s _),
    Resolution.readsOf_run_bind (Resolution.valueIn_run_lift s _), Resolution.readsOf_run_lift,
    Resolution.readsOf_run_lift, ImportSite.readsOf_locateAll, ImportSite.valueIn_locateAll, hfiles,
    readsOf_readAhead hw, Nat.zero_add]

end

end ImportWalk

end ProjectAnalysis
