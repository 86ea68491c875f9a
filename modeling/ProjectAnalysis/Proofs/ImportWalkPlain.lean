import Mathlib.Data.Finset.Card
import Mathlib.Data.Finset.SDiff
import ProjectAnalysis.Proofs.ImportWalkValue

/-! The walk through imports told plainly: one site after the other, without reading ahead and
without a bound on its depth. Beside files that stay as they are the walk does just that, if it
may go as deep as there are files. -/
namespace ProjectAnalysis

theorem Findings.imports_noted (f : Findings) (report : Bool) (site : ImportSite)
    (file : Option FilePath) : (f.noted report site file).imports = f.imports := by
  unfold noted Findings.report
  cases file <;> split <;> rfl

/-- The imported files in their order. -/
def ImportTable.paths (t : ImportTable) : List FilePath :=
  OrderedTable.values t |>.map ResolvedImport.path

namespace ImportWalk

variable (w : ImportWalk) (s : FileStore)

/-- A walk from one state of the findings to another. A site without a new file is passed by; a
new file is gone through before the next site. -/
inductive Walks : Bool → List ImportSite → Findings → Findings → Prop
  | done (report : Bool) (f : Findings) : Walks report [] f f
  | skip {report : Bool} {site : ImportSite} {sites : List ImportSite} {f f' : Findings}
      (h : ∀ p, site.fileIn s = some p → w.isKnown f p = true ∨ w.fetchedIn s p = none)
      (rest : Walks report sites (f.noted report site (site.fileIn s)) f') :
      Walks report (site :: sites) f f'
  | enter {report : Bool} {site : ImportSite} {sites : List ImportSite} {p : FilePath}
      {found : ResolvedImport} {f f₁ f' : Findings} (hfile : site.fileIn s = some p)
      (hnew : w.isKnown f p = false) (hfound : w.fetchedIn s p = some found)
      (below : Walks false found.parsed.symbols.sites
        ((f.noted report site (some p)).withImport found) f₁)
      (rest : Walks report sites f₁ f') :
      Walks report (site :: sites) f f'

variable {w s}

theorem not_passed_by {site : ImportSite} {f : Findings} {p : FilePath} {found : ResolvedImport}
    (hfile : site.fileIn s = some p) (hnew : w.isKnown f p = false)
    (hfound : w.fetchedIn s p = some found) :
    ¬∀ p, site.fileIn s = some p → w.isKnown f p = true ∨ w.fetchedIn s p = none := by
  intro h
  rcases h p hfile with hknown | hnone
  · exact absurd (hnew.symm.trans hknown) Bool.false_ne_true
  · rw [hnone] at hfound
    cases hfound

/-- There is one way to walk. -/
theorem Walks.unique {report : Bool} {sites : List ImportSite} {f f₁ f₂ : Findings}
    (h₁ : w.Walks s report sites f f₁) (h₂ : w.Walks s report sites f f₂) : f₁ = f₂ := by
  induction h₁ generalizing f₂ with
  | done report f =>
    cases h₂
    rfl
  | skip h _ ih =>
    cases h₂ with
    | skip _ rest => exact ih rest
    | enter hfile hnew hfound _ _ => exact absurd h (not_passed_by hfile hnew hfound)
  | enter hfile hnew hfound _ _ ihbelow ihrest =>
    cases h₂ with
    | skip h _ => exact absurd h (not_passed_by hfile hnew hfound)
    | enter hfile' _ hfound' below rest =>
      -- Both walks fetch the same import, so they agree below it and after it.
      cases hfile.symm.trans hfile'
      cases hfound.symm.trans hfound'
      obtain rfl := ihbelow below
      exact ihrest rest

theorem entries_withImport {f : Findings} {p : FilePath} {found : ResolvedImport}
    (hnew : w.isKnown f p = false) (hfound : w.fetchedIn s p = some found) :
    (f.withImport found).imports.entries = f.imports.entries ++ [(p.parts, found)] := by
  rw [isKnown, Bool.or_eq_false_iff] at hnew
  have hkeys : p.parts ∉ f.imports.keys := OrderedTable.contains_eq_false_iff.1 hnew.2
  rw [Findings.withImport, ImportTable.add, fetchedIn_path hfound]
  exact OrderedTable.entries_insert_of_not_mem found hkeys

/-- A new import comes behind all others. -/
theorem entries_entered {f : Findings} {p : FilePath} {found : ResolvedImport}
    (hnew : w.isKnown f p = false) (hfound : w.fetchedIn s p = some found) (report : Bool)
    (site : ImportSite) (file : Option FilePath) :
    ((f.noted report site file).withImport found).imports.entries =
      f.imports.entries ++ [(p.parts, found)] := by
  have hnoted : w.isKnown (f.noted report site file) p = false := by
    rwa [isKnown, Findings.imports_noted]
  rw [entries_withImport hnoted hfound, Findings.imports_noted]

theorem keys_entered {f : Findings} {p : FilePath} {found : ResolvedImport}
    (hnew : w.isKnown f p = false) (hfound : w.fetchedIn s p = some found) (report : Bool)
    (site : ImportSite) (file : Option FilePath) :
    ((f.noted report site file).withImport found).imports.keys = f.imports.keys ++ [p.parts] := by
  rw [OrderedTable.keys, entries_entered hnew hfound, List.map_append]
  rfl

theorem prefix_entered {f : Findings} {p : FilePath} {found : ResolvedImport}
    (hnew : w.isKnown f p = false) (hfound : w.fetchedIn s p = some found) (report : Bool)
    (site : ImportSite) (file : Option FilePath) : f.imports.entries <+:
      ((f.noted report site file).withImport found).imports.entries := by
  rw [entries_entered hnew hfound]
  exact List.prefix_append _ _

/-- A walk keeps what was found before, in front. -/
theorem Walks.entries_prefix {report : Bool} {sites : List ImportSite} {f f' : Findings}
    (h : w.Walks s report sites f f') : f.imports.entries <+: f'.imports.entries := by
  induction h with
  | done => exact List.prefix_rfl
  | skip _ _ ih => rwa [Findings.imports_noted] at ih
  | enter hfile hnew hfound _ _ ihbelow ihrest =>
    exact (prefix_entered hnew hfound _ _ _).trans (ihbelow.trans ihrest)

/-- Everything that a walk adds is a file other than the document, fetched during the walk. -/
theorem Walks.mem_entries {report : Bool} {sites : List ImportSite} {f f' : Findings}
    (h : w.Walks s report sites f f') :
    ∀ e ∈ f'.imports.entries, e ∈ f.imports.entries ∨
      ∃ p found, e = (p.parts, found) ∧ p.same w.root = false ∧ w.fetchedIn s p = some found := by
  induction h with
  | done => exact fun e he => Or.inl he
  | skip _ _ ih => rwa [Findings.imports_noted] at ih
  | @enter report site sites p found f f₁ f' hfile hnew hfound _ _ ihbelow ihrest =>
    intro e he
    rcases ihrest e he with he | he
    · rcases ihbelow e he with he | he
      · rw [entries_entered hnew hfound, List.mem_append, List.mem_singleton] at he
        exact he.imp_right fun he => ⟨p, found, he, (Bool.or_eq_false_iff.1 hnew).1, hfound⟩
      · exact Or.inr he
    · exact Or.inr he

/-- Each import stands under its own path. -/
def Keyed (t : ImportTable) : Prop :=
  ∀ e ∈ t.entries, e.1 = e.2.path.parts

theorem keyed_empty : Keyed .empty := List.forall_mem_nil _

theorem Walks.keyed {report : Bool} {sites : List ImportSite} {f f' : Findings}
    (h : w.Walks s report sites f f') (hf : Keyed f.imports) : Keyed f'.imports := by
  intro e he
  rcases h.mem_entries e he with he | ⟨p, found, rfl, -, hfound⟩
  · exact hf e he
  · rw [fetchedIn_path hfound]

theorem Keyed.entered {f : Findings} {p : FilePath} {found : ResolvedImport}
    (hf : Keyed f.imports) (hnew : w.isKnown f p = false) (hfound : w.fetchedIn s p = some found)
    (report : Bool) (site : ImportSite) (file : Option FilePath) :
    Keyed ((f.noted report site file).withImport found).imports := by
  intro e he
  rw [entries_entered hnew hfound, List.mem_append, List.mem_singleton] at he
  rcases he with he | rfl
  · exact hf e he
  · rw [fetchedIn_path hfound]

theorem Keyed.keys_eq {t : ImportTable} (h : Keyed t) :
    OrderedTable.keys t = t.paths.map FilePath.parts := by
  rw [OrderedTable.keys, ImportTable.paths, OrderedTable.values, List.map_map, List.map_map]
  exact List.map_congr_left h

/-- The files that are there and were not visited yet: a walk enters no other. -/
def unvisited (s : FileStore) (f : Findings) : Finset (List PathPart) :=
  s.files.keys.toFinset \ f.imports.keys.toFinset

theorem unvisited_card_le {f f' : Findings} (h : f.imports.entries <+: f'.imports.entries) :
    (unvisited s f').card ≤ (unvisited s f).card := by
  refine Finset.card_le_card (Finset.sdiff_subset_sdiff Finset.Subset.rfl ?_)
  intro k hk
  exact List.mem_toFinset.2 ((h.map Prod.fst).subset (List.mem_toFinset.1 hk))

theorem unvisited_card_lt {f : Findings} {site : ImportSite} {p : FilePath} {found : ResolvedImport}
    (hfile : site.fileIn s = some p) (hnew : w.isKnown f p = false)
    (hfound : w.fetchedIn s p = some found) (report : Bool) :
    (unvisited s ((f.noted report site (some p)).withImport found)).card <
      (unvisited s f).card := by
  have hin : p.parts ∈ s.files.keys := OrderedTable.contains_iff.1 (site.contains_fileIn hfile)
  have hout : p.parts ∉ f.imports.keys :=
    OrderedTable.contains_eq_false_iff.1 (Bool.or_eq_false_iff.1 hnew).2
  have hkeys := keys_entered hnew hfound report site (some p)
  -- Whatever was visited stays visited, and the new file is there and was not.
  refine Finset.card_lt_card ⟨?_, ?_⟩
  · refine Finset.sdiff_subset_sdiff Finset.Subset.rfl fun k hk => ?_
    rw [List.mem_toFinset, hkeys]
    exact List.mem_append_left _ (List.mem_toFinset.1 hk)
  · intro hsub
    have hp := hsub (by simp [unvisited, hin, hout] : p.parts ∈ unvisited s f)
    simp [unvisited, hkeys] at hp

/-- Everything that may be used again leads to paths in normal form. -/
def IsNormal (w : ImportWalk) : Prop :=
  ∀ p known, w.reusable.get? p = some known → ∀ site ∈ known.parsed.symbols.sites, site.IsNormal

theorem isNormal_of_nothing_reusable (h : w.reusable = .empty) : w.IsNormal := by
  intro p known hknown
  rw [h] at hknown
  cases hknown

theorem fetchedIn_isNormal (hw : w.IsNormal) {p : FilePath} {found : ResolvedImport}
    (h : w.fetchedIn s p = some found) : ∀ site ∈ found.parsed.symbols.sites, site.IsNormal := by
  unfold fetchedIn at h
  split at h
  · rename_i parsed hreused
    obtain rfl := Option.some.inj h
    obtain ⟨known, time, hknown, -, -, rfl⟩ := reusedIn_eq_some hreused
    exact hw p known hknown
  · obtain ⟨parsed, hloaded, rfl⟩ := Option.map_eq_some_iff.1 h
    exact loadedIn_isNormal hloaded

section
variable {enter : List ImportSite → Findings → Resolution Findings} {report : Bool}
  {site : ImportSite} {sites : List (ImportSite × Option FilePath)} {ahead : ReadAhead}
  {f : Findings}

theorem isKnown_noted (file : Option FilePath) (p : FilePath) :
    w.isKnown (f.noted report site file) p = w.isKnown f p := by
  rw [isKnown, isKnown, Findings.imports_noted]

/-- A site without a new file is passed by. -/
theorem visit_cons_known {file : Option FilePath} (h : ∀ p, file = some p → w.isKnown f p = true) :
    w.visit enter report ((site, file) :: sites) ahead f = (do
      checkpoint
      w.visit enter report sites ahead (f.noted report site file)) := by
  have hfilter : file.filter (!w.isKnown (f.noted report site file) ·) = none := by
    refine Option.filter_eq_none_iff.2 fun p hp => ?_
    simp [isKnown_noted, h p hp]
  rw [visit]
  refine congrArg (checkpoint >>= ·) (funext fun _ => ?_)
  dsimp only
  rw [hfilter]

/-- A new file is fetched, and then gone through before the next site. -/
theorem visit_cons_new {p : FilePath} (h : w.isKnown f p = false) :
    w.visit enter report ((site, some p) :: sites) ahead f = (do
      checkpoint
      match ← (w.fetch? p ahead : Access _) with
      | none => w.visit enter report sites (ahead.erase p.parts) (f.noted report site (some p))
      | some found =>
        let f ← enter found.parsed.symbols.sites ((f.noted report site (some p)).withImport found)
        w.visit enter report sites (ahead.erase p.parts) f) := by
  have hfilter : (some p).filter (!w.isKnown (f.noted report site (some p)) ·) = some p := by
    simp [isKnown_noted, h]
  rw [visit]
  refine congrArg (checkpoint >>= ·) (funext fun _ => ?_)
  dsimp only
  rewrite [hfilter]
  rfl

theorem valueIn_visit_known {file : Option FilePath}
    (h : ∀ p, file = some p → w.isKnown f p = true) :
    (w.visit enter report ((site, file) :: sites) ahead f).run.valueIn s =
      (w.visit enter report sites ahead (f.noted report site file)).run.valueIn s := by
  rw [visit_cons_known h, Resolution.valueIn_run_bind s (Resolution.valueIn_checkpoint s)]

theorem valueIn_visit_new {p : FilePath} (h : w.isKnown f p = false) :
    (w.visit enter report ((site, some p) :: sites) ahead f).run.valueIn s =
      match (w.fetch? p ahead).valueIn s with
      | none => (w.visit enter report sites (ahead.erase p.parts)
          (f.noted report site (some p))).run.valueIn s
      | some found => (do
          let f ← enter found.parsed.symbols.sites ((f.noted report site (some p)).withImport found)
          w.visit enter report sites (ahead.erase p.parts) f).run.valueIn s := by
  rw [visit_cons_new h, Resolution.valueIn_run_bind s (Resolution.valueIn_checkpoint s),
    Resolution.valueIn_run_bind s (Resolution.valueIn_run_lift s _)]
  cases (w.fetch? p ahead).valueIn s <;> rfl

end

/-- Visiting the sites of one file, whatever was read ahead, is walking plainly, if entering the
files below is. -/
theorem visit_walks (hw : w.IsNormal) {depth : Nat}
    {enter : List ImportSite → Findings → Resolution Findings}
    (henter : ∀ sites f, (∀ site ∈ sites, site.IsNormal) → (unvisited s f).card < depth →
      ∃ f', (enter sites f).run.valueIn s = .ok f' ∧ w.Walks s false sites f f')
    (report : Bool) (sites : List ImportSite) (hsites : ∀ site ∈ sites, site.IsNormal)
    (ahead : ReadAhead) (hahead : w.AgreesIn s ahead) (f : Findings)
    (hdepth : (unvisited s f).card < depth + 1) :
    ∃ f', (w.visit enter report (sites.map fun site => (site, site.fileIn s)) ahead
        f).run.valueIn s = .ok f' ∧ w.Walks s report sites f f' := by
  induction sites generalizing ahead f with
  | nil => exact ⟨f, rfl, .done report f⟩
  | cons site sites ih =>
    obtain ⟨hsite, hrest⟩ := List.forall_mem_cons.1 hsites
    have hnoted : unvisited s (f.noted report site (site.fileIn s)) = unvisited s f := by
      rw [unvisited, Findings.imports_noted, unvisited]
    rw [List.map_cons]
    -- The site leads to no new file, to one that cannot be fetched, or to one to go through.
    by_cases hknown : ∀ p, site.fileIn s = some p → w.isKnown f p = true
    · rw [valueIn_visit_known hknown]
      obtain ⟨f', hvalue, hwalks⟩ := ih hrest ahead hahead _ (hnoted ▸ hdepth)
      exact ⟨f', hvalue, .skip (fun p hp => Or.inl (hknown p hp)) hwalks⟩
    push Not at hknown
    obtain ⟨p, hfile, hnew⟩ := hknown
    rw [ne_eq, Bool.not_eq_true] at hnew
    rw [hfile] at hnoted ⊢
    rw [valueIn_visit_new hnew, valueIn_fetch? _ _ hahead (hsite.fileIn hfile)]
    cases hfound : w.fetchedIn s p with
    | none =>
      obtain ⟨f', hvalue, hwalks⟩ := ih hrest _ (hahead.erase p.parts) _ (hnoted ▸ hdepth)
      refine ⟨f', hvalue, .skip (fun q hq => Or.inr ?_) (hfile ▸ hwalks)⟩
      obtain rfl := Option.some.inj (hfile.symm.trans hq)
      exact hfound
    | some found =>
      have hless := unvisited_card_lt hfile hnew hfound report
      obtain ⟨f₁, hbelow, hwalks⟩ := henter found.parsed.symbols.sites
        ((f.noted report site (some p)).withImport found) (fetchedIn_isNormal hw hfound) (by omega)
      -- Below the new file there is less to visit, and after it not more than before.
      have hmore := unvisited_card_le (s := s) hwalks.entries_prefix
      obtain ⟨f', hvalue, hwalks'⟩ := ih hrest _ (hahead.erase p.parts) f₁ (by omega)
      refine ⟨f', ?_, .enter hfile hnew hfound hwalks hwalks'⟩
      exact (Resolution.valueIn_run_bind s hbelow _).trans hvalue

/-- Beside files that stay as they are, a walk that may go deep enough is the plain walk. -/
theorem resolveSites_walks (hw : w.IsNormal) (depth : Nat) (report : Bool) (sites : List ImportSite)
    (hsites : ∀ site ∈ sites, site.IsNormal) (f : Findings)
    (hdepth : (unvisited s f).card < depth) :
    ∃ f', (w.resolveSites depth report sites f).run.valueIn s = .ok f' ∧
      w.Walks s report sites f f' := by
  induction depth generalizing report sites f with
  | zero => exact absurd hdepth (Nat.not_lt_zero _)
  | succ depth ih =>
    have hlocated : ∀ p ∈ (sites.map fun site => (site, site.fileIn s)).filterMap (·.2),
        p.IsNormal := by
      rw [List.filterMap_map]
      exact ImportSite.isNormal_of_mem_files hsites
    rw [resolveSites, Resolution.valueIn_run_bind s (Resolution.valueIn_run_lift s _),
      Resolution.valueIn_run_bind s (Resolution.valueIn_run_lift s _), ImportSite.valueIn_locateAll]
    exact visit_walks hw (fun sites f hsites => ih false sites hsites f) report sites hsites _
      (w.agreesIn_readAhead s f hlocated) f hdepth

theorem unvisited_empty_card_le (s : FileStore) :
    (unvisited s .empty).card ≤ s.files.entries.length := by
  have hsub : unvisited s .empty ⊆ s.files.keys.toFinset := Finset.sdiff_subset
  calc (unvisited s .empty).card
      ≤ s.files.keys.toFinset.card := Finset.card_le_card hsub
    _ ≤ s.files.keys.length := List.toFinset_card_le _
    _ = s.files.entries.length := List.length_map _

end ImportWalk

namespace Resolver

variable {r : Resolver} {file : FilePath} {d : Xml.Document} {previous : Option Generation}
  {s : FileStore}

theorem valueIn_resolution {depth : Nat} {found : Findings}
    (h : ((r.walk file d previous).resolveSites depth true (r.symbols file d previous).sites
      .empty).run.valueIn s = .ok found) :
    (r.resolution depth file d previous).run.valueIn s =
      .ok (r.generation file d previous found) := by
  rw [resolution, Resolution.valueIn_run_bind s (Resolution.valueIn_checkpoint s)]
  dsimp only
  rw [Resolution.valueIn_run_bind s (Resolution.valueIn_checkpoint s),
    Resolution.valueIn_run_bind s h,
    Resolution.valueIn_run_bind s (Resolution.valueIn_checkpoint s)]
  rfl

/-- A resolution beside files that stay as they are ends with what the plain walk has found,
however deep it may go beyond the number of files. -/
theorem resolution_walks (hw : (r.walk file d previous).IsNormal)
    (hsites : ∀ site ∈ (r.symbols file d previous).sites, site.IsNormal) :
    ∃ found, (r.walk file d previous).Walks s true (r.symbols file d previous).sites .empty found ∧
      ∀ depth, s.files.entries.length < depth →
        (r.resolution depth file d previous).run.valueIn s =
          .ok (r.generation file d previous found) := by
  have hwalk (depth : Nat) (hdepth : s.files.entries.length < depth) :=
    ImportWalk.resolveSites_walks (s := s) hw depth true _ hsites .empty
      (Nat.lt_of_le_of_lt (ImportWalk.unvisited_empty_card_le s) hdepth)
  obtain ⟨found, -, hfound⟩ := hwalk (s.files.entries.length + 1) (Nat.lt_succ_self _)
  refine ⟨found, hfound, fun depth hdepth => ?_⟩
  obtain ⟨found', hvalue, hfound'⟩ := hwalk depth hdepth
  obtain rfl := hfound.unique hfound'
  exact valueIn_resolution hvalue

theorem resolve_fst (r : Resolver) (file : FilePath) (d : Xml.Document)
    (previous : Option Generation) (s : FileStore) :
    (r.resolve file d previous s).1 =
      (r.resolution (s.files.entries.length + 1) file d previous).run.valueIn s :=
  Access.runIn_quiet_fst _ _

theorem ownSymbols_isNormal (r : Resolver) (file : FilePath) (d : Xml.Document) :
    ∀ site ∈ (r.ownSymbols file d).sites, site.IsNormal :=
  ImportScope.sites_isNormal _ _

end Resolver

end ProjectAnalysis
