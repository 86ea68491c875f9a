import ProjectAnalysis.Proofs.ImportWalkPlain

/-! A walk through imports leaves nothing behind: every import that it has met leads to a file that
it has entered, that is the document, or that cannot be had. So a walk from more sites, which can
use again whatever another walk has found, finds all of that. -/
namespace ProjectAnalysis

theorem ImportSite.fileIn_congr {site other : ImportSite} (h : other.target = site.target)
    (s : FileStore) : other.fileIn s = site.fileIn s := by
  rw [fileIn, fileIn, h]

namespace ImportWalk

variable {w : ImportWalk} {s : FileStore}

/-- Nothing is left to do for an import. -/
def Settled (w : ImportWalk) (s : FileStore) (f : Findings) (site : ImportSite) : Prop :=
  ∀ p, site.fileIn s = some p → w.isKnown f p = true ∨ w.fetchedIn s p = none

theorem isKnown_later {f f' : Findings} (h : f.imports.entries <+: f'.imports.entries)
    {p : FilePath} (hp : w.isKnown f p = true) : w.isKnown f' p = true := by
  rw [isKnown, Bool.or_eq_true, ImportTable.contains, OrderedTable.contains_iff] at hp ⊢
  apply hp.imp_right
  intro hkey
  exact (h.map Prod.fst).subset hkey

theorem isKnown_entered {f : Findings} {p : FilePath} {found : ResolvedImport}
    (hnew : w.isKnown f p = false) (hfound : w.fetchedIn s p = some found) (report : Bool)
    (site : ImportSite) (file : Option FilePath) :
    w.isKnown ((f.noted report site file).withImport found) p = true := by
  rw [isKnown, Bool.or_eq_true, ImportTable.contains, OrderedTable.contains_iff, OrderedTable.keys,
    entries_entered hnew hfound]
  apply Or.inr
  rw [List.map_append]
  exact List.mem_append_right _ List.mem_cons_self

theorem Settled.later {f f' : Findings} {site : ImportSite} (h : w.Settled s f site)
    (hf : f.imports.entries <+: f'.imports.entries) : w.Settled s f' site := by
  intro p hp
  exact (h p hp).imp_left (isKnown_later hf)

/-- Every import that a walk is given is settled afterwards, and so are those of every file that it
has entered. -/
theorem Walks.settled {report : Bool} {sites : List ImportSite} {f f' : Findings}
    (h : w.Walks s report sites f f') :
    (∀ site ∈ sites, w.Settled s f' site) ∧
      ∀ e ∈ f'.imports.entries, e ∈ f.imports.entries ∨
        ∀ site ∈ e.2.parsed.symbols.sites, w.Settled s f' site := by
  induction h with
  | done => exact ⟨List.forall_mem_nil _, fun e he => Or.inl he⟩
  | @skip report site sites f f' hskip hrest ih =>
    have hkept := hrest.entries_prefix
    rw [Findings.imports_noted] at ih hkept
    have hsite : w.Settled s f site := hskip
    exact ⟨List.forall_mem_cons.2 ⟨hsite.later hkept, ih.1⟩, ih.2⟩
  | @enter report site sites p found f f₁ f' hfile hnew hfound hbelow hrest ihbelow ihrest =>
    have hkept := hrest.entries_prefix
    have hentered := isKnown_entered hnew hfound report site (some p)
    have hsite : w.Settled s f' site := by
      intro q hq
      obtain rfl := Option.some.inj (hfile.symm.trans hq)
      exact Or.inl (isKnown_later (hbelow.entries_prefix.trans hkept) hentered)
    refine ⟨List.forall_mem_cons.2 ⟨hsite, ihrest.1⟩, fun e he => ?_⟩
    -- An entry was there before, is the new file, came below it or came after it.
    rcases ihrest.2 e he with he | he
    · rcases ihbelow.2 e he with he | he
      · rw [entries_entered hnew hfound, List.mem_append, List.mem_singleton] at he
        rcases he with he | rfl
        · exact Or.inl he
        · exact Or.inr fun site hsite => (ihbelow.1 site hsite).later hkept
      · exact Or.inr fun site hsite => (he site hsite).later hkept
    · exact Or.inr he

/-- Findings in which some sites are settled, and those of every import in turn. -/
structure Closed (w : ImportWalk) (s : FileStore) (sites : List ImportSite) (f : Findings) :
    Prop where
  sites : ∀ site ∈ sites, w.Settled s f site
  imports : ∀ e ∈ f.imports.entries, ∀ site ∈ e.2.parsed.symbols.sites, w.Settled s f site
  fetched : ∀ e ∈ f.imports.entries, ∃ p found, e = (p.parts, found) ∧
    w.fetchedIn s p = some found

theorem Walks.closed {report : Bool} {sites : List ImportSite} {f : Findings}
    (h : w.Walks s report sites .empty f) : w.Closed s sites f := by
  refine ⟨h.settled.1, fun e he => ?_, fun e he => ?_⟩
  · exact (h.settled.2 e he).resolve_left List.not_mem_nil
  · rcases h.mem_entries e he with he | ⟨p, found, rfl, -, hfound⟩
    · cases he
    · exact ⟨p, found, rfl, hfound⟩

/-- The same file is imported, and was read as it is there. -/
def Covers (f : Findings) (e : List PathPart × ResolvedImport) : Prop :=
  ∃ e' ∈ f.imports.entries, e'.1 = e.1 ∧ e'.2.parsed = e.2.parsed

theorem Closed.covers_of_isKnown {sites : List ImportSite} {f : Findings}
    (h : w.Closed s sites f) {e : List PathPart × ResolvedImport}
    (hagain : ∀ p : FilePath, p.parts = e.1 → w.fetchedIn s p = some ⟨p, e.2.parsed, true⟩)
    (hkey : e.1 ∈ f.imports.keys) : Covers f e := by
  obtain ⟨e', he', hsame⟩ := List.mem_map.1 hkey
  obtain ⟨q, found, rfl, hfound⟩ := h.fetched e' he'
  have hparsed := hagain q hsame
  obtain rfl := Option.some.inj (hfound.symm.trans hparsed)
  exact ⟨_, he', hsame, rfl⟩

/-- Whatever a walk enters from settled sites is among the findings, if all that it has found can
be used again. -/
theorem Walks.covered {w' : ImportWalk} (hroot : w'.root = w.root) {roots : List ImportSite}
    {g : Findings} (hg : w'.Closed s roots g) {t : ImportTable}
    (hagain : ∀ e ∈ t.entries, ∀ p : FilePath, p.parts = e.1 →
      w'.fetchedIn s p = some ⟨p, e.2.parsed, true⟩)
    {report : Bool} {sites : List ImportSite} {f f' : Findings}
    (h : w.Walks s report sites f f') (ht : f'.imports.entries ⊆ t.entries)
    (hsites : ∀ site ∈ sites, w'.Settled s g site)
    (hf : ∀ e ∈ f.imports.entries, Covers g e) : ∀ e ∈ f'.imports.entries, Covers g e := by
  induction h with
  | done => exact hf
  | skip _ _ ih =>
    apply ih ht (List.forall_mem_cons.1 hsites).2
    rwa [Findings.imports_noted]
  | @enter report site sites p found f f₁ f' hfile hnew hfound hbelow hrest ihbelow ihrest =>
    obtain ⟨hsite, hmore⟩ := List.forall_mem_cons.1 hsites
    have hmid : f₁.imports.entries ⊆ t.entries := fun e he =>
      ht (hrest.entries_prefix.subset he)
    have hentry : (p.parts, found) ∈ t.entries := by
      apply hmid
      apply hbelow.entries_prefix.subset
      rw [entries_entered hnew hfound]
      exact List.mem_append_right _ List.mem_cons_self
    have hfetched := hagain _ hentry
    -- The file is no document and can be used again, so it must be among the findings.
    have hknown : w'.isKnown g p = true := by
      rcases hsite p hfile with hknown | hnone
      · exact hknown
      · rw [hfetched p rfl] at hnone
        cases hnone
    have hcovers : Covers g (p.parts, found) := by
      apply hg.covers_of_isKnown hfetched
      rw [isKnown, Bool.or_eq_true, hroot] at hknown
      rw [isKnown, Bool.or_eq_false_iff] at hnew
      exact OrderedTable.contains_iff.1 (hknown.resolve_left (Bool.not_eq_true _ ▸ hnew.1))
    have hbelow' : ∀ site ∈ found.parsed.symbols.sites, w'.Settled s g site := by
      obtain ⟨e', he', -, hparsed⟩ := hcovers
      have hparsed : e'.2.parsed = found.parsed := hparsed
      rw [← hparsed]
      exact hg.imports e' he'
    refine ihrest ht hmore (ihbelow hmid hbelow' fun e he => ?_)
    rw [entries_entered hnew hfound, List.mem_append, List.mem_singleton] at he
    rcases he with he | rfl
    · exact hf e he
    · exact hcovers

/-- What was fetched can be used again as long as the files stay as they are. -/
theorem fetchedIn_again {w' : ImportWalk} {p q : FilePath} {found : ResolvedImport}
    (hfound : w.fetchedIn s p = some found) (hq : q.parts = p.parts)
    (hknown : OrderedTable.get? w'.reusable p.parts = some found) :
    w'.fetchedIn s q = some ⟨q, found.parsed, true⟩ := by
  have htime : ∃ time, s.modified p = .ok time ∧ time ≤ found.parsed.timestamp := by
    unfold fetchedIn at hfound
    split at hfound
    · rename_i parsed hreused
      obtain ⟨known, time, -, hmodified, hle, rfl⟩ := reusedIn_eq_some hreused
      obtain rfl := Option.some.inj hfound
      exact ⟨time, hmodified, hle⟩
    · obtain ⟨parsed, hloaded, rfl⟩ := Option.map_eq_some_iff.1 hfound
      obtain ⟨time, text, hmodified, -, rfl⟩ := loadedIn_eq_some_iff.1 hloaded
      exact ⟨time, hmodified, Nat.le_refl time⟩
  obtain ⟨time, hmodified, hle⟩ := htime
  have hmodified' : s.modified q = .ok time := by
    unfold FileStore.modified FileStore.file? at hmodified ⊢
    rw [hq]
    split at hmodified
    · exact hmodified
    · cases hmodified
  have hreused : w'.reusedIn s q = some found.parsed := by
    unfold reusedIn ImportTable.get?
    rw [hq, hknown]
    dsimp only
    rw [hmodified']
    exact if_pos hle
  rw [fetchedIn, hreused]

end ImportWalk

end ProjectAnalysis
