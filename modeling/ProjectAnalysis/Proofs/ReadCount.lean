import ProjectAnalysis.Proofs.ImportPreorder
import ProjectAnalysis.Proofs.LevelReads
import ProjectAnalysis.Proofs.WalkClosure

/-! How often a resolution from scratch reads each file. The walk reads ahead whatever the imports
of one file lead to and it does not know yet, so a file is read once for each file that asks for it
and is entered before it: the document, and every import that comes earlier. -/
namespace ProjectAnalysis

/-- How many imported files ask for the one under a key, not counting that one and all behind it. -/
def askedBefore (s : FileStore) (k : List PathPart) : List (List PathPart × ResolvedImport) → Nat
  | [] => 0
  | e :: entries =>
    if e.1 = k then 0
    else (leadsTo s k e.2.parsed.symbols.sites).toNat + askedBefore s k entries

variable {s : FileStore} {k : List PathPart} {entries more : List (List PathPart × ResolvedImport)}

theorem askedBefore_append : askedBefore s k (entries ++ more) =
    askedBefore s k entries + if k ∈ entries.map Prod.fst then 0 else askedBefore s k more := by
  induction entries with
  | nil => simp [askedBefore]
  | cons e entries ih =>
    by_cases he : e.1 = k
    · simp [askedBefore, he]
    · have hmem : k ∈ (e :: entries).map Prod.fst ↔ k ∈ entries.map Prod.fst := by
        rw [List.map_cons, List.mem_cons, or_iff_right (Ne.symm he)]
      rw [List.cons_append, askedBefore, askedBefore, if_neg he, if_neg he, ih, Nat.add_assoc]
      simp only [hmem]

theorem askedBefore_of_not_mem (h : k ∉ entries.map Prod.fst) : askedBefore s k entries =
    entries.countP fun e => leadsTo s k e.2.parsed.symbols.sites := by
  induction entries with
  | nil => rfl
  | cons e entries ih =>
    rw [List.map_cons, List.mem_cons, not_or] at h
    rw [askedBefore, if_neg (Ne.symm h.1), ih h.2, List.countP_cons, Nat.add_comm]
    cases leadsTo s k e.2.parsed.symbols.sites <;> rfl

theorem askedBefore_le (h : entries <+: more) :
    askedBefore s k entries ≤ askedBefore s k more := by
  obtain ⟨rest, rfl⟩ := h
  rw [askedBefore_append]
  exact Nat.le_add_right _ _

namespace ImportWalk

variable {w : ImportWalk} {f : Findings} {sites : List ImportSite} {p : FilePath}
  {ahead : ReadAhead}

/-- How often the file under a key has been read ahead for the imports of imported files. -/
def tally (w : ImportWalk) (s : FileStore) (k : List PathPart) (f : Findings) : Nat :=
  if k = w.root.parts then 0 else askedBefore s k f.imports.entries

theorem tally_noted (report : Bool) (site : ImportSite) (file : Option FilePath) :
    w.tally s k (f.noted report site file) = w.tally s k f := by
  rw [tally, Findings.imports_noted, tally]

theorem askedBefore_entered {found : ResolvedImport} (hnew : w.isKnown f p = false)
    (hfound : w.fetchedIn s p = some found) (report : Bool) (site : ImportSite)
    (file : Option FilePath) :
    askedBefore s k ((f.noted report site file).withImport found).imports.entries =
      askedBefore s k f.imports.entries +
        if k ∈ ((f.noted report site file).withImport found).imports.keys then 0
        else (leadsTo s k found.parsed.symbols.sites).toNat := by
  have hmap : f.imports.entries.map Prod.fst = f.imports.keys := rfl
  rw [entries_entered hnew hfound, keys_entered hnew hfound, askedBefore_append, hmap]
  by_cases hmem : k ∈ f.imports.keys
  · simp [hmem]
  by_cases hp : p.parts = k
  · simp [hp, askedBefore]
  · simp [hmem, hp, Ne.symm hp, askedBefore]

/-- What is due for the imports of a new file is what the file adds to the tally. -/
theorem tally_entered {found : ResolvedImport} (hnew : w.isKnown f p = false)
    (hfound : w.fetchedIn s p = some found) (report : Bool) (site : ImportSite)
    (file : Option FilePath) :
    w.tally s k ((f.noted report site file).withImport found) = w.tally s k f +
      w.due s k ((f.noted report site file).withImport found) found.parsed.symbols.sites := by
  rw [tally, tally, askedBefore_entered hnew hfound, due, knowsKey]
  by_cases hroot : k = w.root.parts
  · simp [hroot]
  · simp [hroot, OrderedTable.contains_iff]

theorem Ready.noted {site : ImportSite} (h : w.Ready s (site :: sites) f ahead) (report : Bool)
    (file : Option FilePath) : w.Ready s sites (f.noted report site file) ahead := by
  intro other hother q hq
  rw [isKnown_noted]
  exact h other (List.mem_cons_of_mem site hother) q hq

/-- Behind a file that was entered, whatever is next is still known or read ahead. -/
theorem Ready.entered {site : ImportSite} {f' : Findings} (h : w.Ready s (site :: sites) f ahead)
    (hkept : f.imports.entries <+: f'.imports.entries) (hp : w.isKnown f' p = true) :
    w.Ready s sites f' (ahead.erase p.parts) := by
  intro other hother q hq
  by_cases hsame : p.parts = q.parts
  · rw [isKnown_eq_knowsKey, hsame] at hp
    exact Or.inl hp
  · refine (h other (List.mem_cons_of_mem site hother) q hq).imp (isKnown_later hkept) ?_
    intro hahead
    rwa [OrderedTable.contains, OrderedTable.get?_erase, if_neg hsame]

section
variable {enter : List ImportSite → Findings → Resolution Findings} {report : Bool}
  {site : ImportSite} {located : List (ImportSite × Option FilePath)}

theorem readsOf_visit_known {file : Option FilePath}
    (h : ∀ p, file = some p → w.isKnown f p = true) :
    (w.visit enter report ((site, file) :: located) ahead f).run.readsOf s k =
      (w.visit enter report located ahead (f.noted report site file)).run.readsOf s k := by
  rw [visit_cons_known h, Resolution.readsOf_run_bind (Resolution.valueIn_checkpoint s),
    Resolution.readsOf_checkpoint, Nat.zero_add]

/-- A new file that was read ahead is entered without reading it again. -/
theorem readsOf_visit_new (hw : w.reusable = .empty) {found : ResolvedImport} {f₁ : Findings}
    (hnew : w.isKnown f p = false) (hahead : ahead.contains p.parts = true)
    (hfetch : (w.fetch? p ahead).valueIn s = some found)
    (hbelow : (enter found.parsed.symbols.sites
      ((f.noted report site (some p)).withImport found)).run.valueIn s = .ok f₁) :
    (w.visit enter report ((site, some p) :: located) ahead f).run.readsOf s k =
      (enter found.parsed.symbols.sites
        ((f.noted report site (some p)).withImport found)).run.readsOf s k +
      (w.visit enter report located (ahead.erase p.parts) f₁).run.readsOf s k := by
  rw [visit_cons_new hnew, Resolution.readsOf_run_bind (Resolution.valueIn_checkpoint s),
    Resolution.readsOf_checkpoint, Resolution.readsOf_run_bind (Resolution.valueIn_run_lift s _),
    Resolution.readsOf_run_lift, readsOf_fetch? hw hahead, hfetch]
  dsimp only
  rw [Resolution.readsOf_run_bind hbelow, Nat.zero_add, Nat.zero_add]

end

section
variable (hw : w.reusable = .empty) (hs : s.Readable)
include hw hs

theorem fetchedIn_ne_none (hp : s.contains p = true) : w.fetchedIn s p ≠ none := by
  obtain ⟨text, htext⟩ := hs.text hp
  rw [fetchedIn_of_nothing_reusable hw]
  intro hnone
  obtain ⟨fault, hfault⟩ := loadedIn_eq_none_iff.1 (Option.map_eq_none_iff.1 hnone)
  cases htext.symm.trans hfault

/-- A visit reads what it adds to the tally: all new files at hand have been read ahead, and below
each of them what is due is read first. -/
theorem Walks.tally_eq {report : Bool} {f' : Findings} (h : w.Walks s report sites f f')
    (hsites : ∀ site ∈ sites, site.IsNormal) {depth : Nat}
    (hdepth : (unvisited s f).card < depth + 1)
    {ahead : ReadAhead} (hagrees : w.AgreesIn s ahead) (hready : w.Ready s sites f ahead) :
    w.tally s k f' = w.tally s k f + (w.visit (w.resolveSites depth false) report
      (sites.map fun site => (site, site.fileIn s)) ahead f).run.readsOf s k := by
  -- By induction on the walk. That new files have been read ahead holds at the start of each level
  -- and is kept from site to site, so only the beginning of a level reads.
  induction h generalizing depth ahead with
  | done => rfl
  | @skip report site sites f f' hskip _ ih =>
    obtain ⟨-, hmore⟩ := List.forall_mem_cons.1 hsites
    have hknown : ∀ p, site.fileIn s = some p → w.isKnown f p = true := by
      intro p hp
      exact (hskip p hp).resolve_right (fetchedIn_ne_none hw hs (site.contains_fileIn hp))
    have hnoted : unvisited s (f.noted report site (site.fileIn s)) = unvisited s f := by
      rw [unvisited, Findings.imports_noted, unvisited]
    have hrest := ih hmore (hnoted ▸ hdepth) hagrees (hready.noted report (site.fileIn s))
    rw [List.map_cons, readsOf_visit_known hknown, hrest, tally_noted]
  | @enter report site sites p found f f₁ f' hfile hnew hfound hbelow _ ihbelow ihrest =>
    obtain ⟨hsite, hmore⟩ := List.forall_mem_cons.1 hsites
    have hnormal := isNormal_of_nothing_reusable hw
    have hbelowSites := fetchedIn_isNormal hnormal hfound
    have hless := unvisited_card_lt hfile hnew hfound report
    have hentered := isKnown_entered hnew hfound report site (some p)
    have hkept : f.imports.entries <+: f₁.imports.entries :=
      (prefix_entered hnew hfound report site (some p)).trans hbelow.entries_prefix
    have hahead : ahead.contains p.parts = true := by
      rcases hready site List.mem_cons_self p hfile with hknown | hahead
      · exact absurd (hnew.symm.trans hknown) Bool.false_ne_true
      · exact hahead
    -- There is a file to enter, so the walk may go one level deeper.
    obtain ⟨depth, rfl⟩ : ∃ d, depth = d + 1 := Nat.exists_eq_add_one.2 (by omega)
    have hdeeper : (unvisited s ((f.noted report site (some p)).withImport found)).card <
        depth + 1 := by
      omega
    obtain ⟨f₂, hvalue, hwalks⟩ := resolveSites_walks hnormal (depth + 1) false _ hbelowSites _
      hdeeper
    obtain rfl := hbelow.unique hwalks
    have hfetch : (w.fetch? p ahead).valueIn s = some found :=
      (w.valueIn_fetch? s hagrees (hsite.fileIn hfile)).trans hfound
    -- The level below reads ahead for itself, whatever this one has at hand.
    have hfirst := ihbelow hbelowSites hdeeper
      (w.agreesIn_readAhead s _ (ImportSite.isNormal_of_mem_files hbelowSites))
      (ready_readAhead hw _ _)
    have hrest := ihrest hmore (Nat.lt_of_le_of_lt (unvisited_card_le hkept) hdepth)
      (hagrees.erase p.parts)
      (hready.entered hkept (isKnown_later hbelow.entries_prefix hentered))
    rw [List.map_cons, hfile, readsOf_visit_new hw hnew hahead hfetch hvalue,
      readsOf_resolveSites hw, hrest, hfirst, tally_entered hnew hfound]
    omega

end

/-- A file that a walk enters was asked for: by one of its sites, or by a file that it has entered
before. -/
theorem Walks.asked {report : Bool} {f' : Findings} (h : w.Walks s report sites f f') :
    ∀ k ∈ f'.imports.keys, k ∉ f.imports.keys → askedBefore s k f.imports.entries <
      (leadsTo s k sites).toNat + askedBefore s k f'.imports.entries := by
  have hcons (k : List PathPart) (site : ImportSite) (sites : List ImportSite) :
      (leadsTo s k sites).toNat ≤ (leadsTo s k (site :: sites)).toNat := by
    rw [leadsTo, leadsTo, List.any_cons]
    exact Bool.toNat_le_toNat fun h => by rw [h, Bool.or_true]
  induction h with
  | done => exact fun k hk hnew => absurd hk hnew
  | @skip report site sites f f' _ _ ih =>
    intro k hk hnew
    rw [Findings.imports_noted] at ih
    have hrest := ih k hk hnew
    have hmore := hcons k site sites
    omega
  | @enter report site sites p found f f₁ f' hfile hnew hfound hbelow hrest ihbelow ihrest =>
    intro k hk hfresh
    have hmore := hcons k site sites
    have hlater : askedBefore s k f₁.imports.entries ≤ askedBefore s k f'.imports.entries :=
      askedBefore_le hrest.entries_prefix
    have hkept := (prefix_entered hnew hfound report site (some p)).trans hbelow.entries_prefix
    have hfirst : askedBefore s k f.imports.entries ≤ askedBefore s k f₁.imports.entries :=
      askedBefore_le hkept
    by_cases hp : p.parts = k
    · have hleads : leadsTo s k (site :: sites) = true :=
        hp ▸ leadsTo_of_mem List.mem_cons_self hfile
      rw [hleads, Bool.toNat_true]
      omega
    by_cases hk₁ : k ∈ f₁.imports.keys
    · -- It was entered below the new file, whose own imports count as long as it is not there.
      have hadded : k ∉ ((f.noted report site (some p)).withImport found).imports.keys := by
        rw [keys_entered hnew hfound, List.mem_append, not_or]
        exact ⟨hfresh, by simpa using Ne.symm hp⟩
      have hunder := ihbelow k hk₁ hadded
      rw [askedBefore_entered hnew hfound, if_neg hadded] at hunder
      omega
    · have hafter := ihrest k hk hk₁
      omega

end ImportWalk

namespace Resolver

variable (r : Resolver) (file : FilePath) (d : Xml.Document) (s : FileStore)

/-- The imports of a file as it is there. -/
def sitesIn (p : FilePath) : List ImportSite :=
  match s.text p with
  | .ok text => r.sitesOf file d p text
  | .error _ => []

/-- How many ask for a file: of the document and the given imports those whose own imports lead
to it. -/
def askers (entered : List FilePath) (p : FilePath) : Nat :=
  ((r.ownSymbols file d).sites :: entered.map (r.sitesIn file d s)).countP (leadsTo s p.parts)

variable {r file d s} {k : List PathPart} {found : Findings}

theorem sitesIn_of_fetched {p : FilePath} {i : ResolvedImport}
    (h : (r.walk file d none).fetchedIn s p = some i) :
    r.sitesIn file d s p = i.parsed.symbols.sites := by
  rw [ImportWalk.fetchedIn_of_nothing_reusable rfl, Option.map_eq_some_iff] at h
  obtain ⟨parsed, hloaded, rfl⟩ := h
  obtain ⟨time, text, -, htext, rfl⟩ := ImportWalk.loadedIn_eq_some_iff.1 hloaded
  rw [sitesIn, htext]
  rfl

/-- Nothing but the walk of a resolution reads. -/
theorem readsOf_resolution (previous : Option Generation) {depth : Nat}
    (h : ((r.walk file d previous).resolveSites depth true (r.symbols file d previous).sites
      .empty).run.valueIn s = .ok found) :
    (r.resolution depth file d previous).run.readsOf s k =
      ((r.walk file d previous).resolveSites depth true (r.symbols file d previous).sites
        .empty).run.readsOf s k := by
  rw [resolution, Resolution.readsOf_run_bind (Resolution.valueIn_checkpoint s)]
  dsimp only
  rw [Resolution.readsOf_run_bind (Resolution.valueIn_checkpoint s),
    Resolution.readsOf_run_bind h, Resolution.readsOf_run_bind (Resolution.valueIn_checkpoint s),
    Resolution.readsOf_checkpoint, Nat.zero_add, Nat.zero_add, Nat.zero_add]
  rfl

/-- What a resolution from scratch reads: whatever the document or an import asks for, as long as it
is not there. -/
theorem readsOf_start (hs : s.Readable)
    (h : (r.walk file d none).Walks s true (r.ownSymbols file d).sites .empty found) :
    (r.start file d none s).readsOf s k = if k = file.parts then 0 else
      (leadsTo s k (r.ownSymbols file d).sites).toNat +
        askedBefore s k found.imports.entries := by
  have hreusable : (r.walk file d none).reusable = .empty := rfl
  have hnormal : (r.walk file d none).IsNormal := ImportWalk.isNormal_of_nothing_reusable rfl
  have hsites := r.ownSymbols_isNormal file d
  have hdepth := Nat.lt_succ_of_le (ImportWalk.unvisited_empty_card_le s)
  have hvisit := h.tally_eq (k := k) hreusable hs hsites hdepth
    ((r.walk file d none).agreesIn_readAhead s .empty (ImportSite.isNormal_of_mem_files hsites))
    (ImportWalk.ready_readAhead hreusable .empty _)
  have hstart : (r.walk file d none).tally s k .empty = 0 := ite_self _
  obtain ⟨found', hvalue, -⟩ := ImportWalk.resolveSites_walks hnormal
    (s.files.entries.length + 1) true _ hsites .empty hdepth
  have hroot : (r.walk file d none).root = file := rfl
  have hnothing : OrderedTable.contains Findings.empty.imports k = false := rfl
  calc (r.start file d none s).readsOf s k
      = ((r.walk file d none).resolveSites (s.files.entries.length + 1) true
          (r.ownSymbols file d).sites .empty).run.readsOf s k :=
        readsOf_resolution none hvalue
    _ = (r.walk file d none).due s k .empty (r.ownSymbols file d).sites +
          (r.walk file d none).tally s k found := by
        rw [ImportWalk.readsOf_resolveSites hreusable, hvisit, hstart, Nat.zero_add]
    _ = _ := by
        rw [ImportWalk.due, ImportWalk.tally, ImportWalk.knowsKey, hroot, hnothing, Bool.or_false]
        by_cases hk : k = file.parts <;> simp [hk]

/-- Imports with nothing left to do lead to no file that is not imported. -/
theorem leadsTo_of_settled (hs : s.Readable) {sites : List ImportSite} (hroot : k ≠ file.parts)
    (hk : k ∉ found.imports.keys)
    (hsites : ∀ site ∈ sites, (r.walk file d none).Settled s found site) :
    leadsTo s k sites = false := by
  refine Bool.eq_false_iff.2 fun h => ?_
  obtain ⟨site, hsite, p, hfile, rfl⟩ := exists_of_leadsTo h
  rcases hsites site hsite p hfile with hknown | hnone
  · rw [ImportWalk.isKnown, Bool.or_eq_true, FilePath.same, beq_iff_eq, ImportTable.contains,
      OrderedTable.contains_iff] at hknown
    exact hknown.elim hroot hk
  · exact ImportWalk.fetchedIn_ne_none rfl hs (site.contains_fileIn hfile) hnone

section
variable (h : (r.walk file d none).Walks s true (r.ownSymbols file d).sites .empty found)
include h

/-- Nobody asks for a file that is not imported, except for the document itself. -/
theorem not_asked (hs : s.Readable) (hroot : k ≠ file.parts) (hk : k ∉ found.imports.keys) :
    leadsTo s k (r.ownSymbols file d).sites = false ∧
      askedBefore s k found.imports.entries = 0 := by
  have hclosed := h.closed
  refine ⟨leadsTo_of_settled hs hroot hk hclosed.sites, ?_⟩
  rw [askedBefore_of_not_mem hk, List.countP_eq_zero]
  intro e he
  rw [leadsTo_of_settled hs hroot hk (hclosed.imports e he)]
  exact Bool.false_ne_true

/-- Whoever asks for an import and comes before it has it read, and there is one who does. -/
theorem askers_eq {before after : List FilePath} {p : FilePath}
    (hpaths : found.imports.paths = before ++ p :: after) : p.parts ≠ file.parts ∧
      r.askers file d s before p = (leadsTo s p.parts (r.ownSymbols file d).sites).toNat +
        askedBefore s p.parts found.imports.entries ∧ 0 < r.askers file d s before p := by
  -- The entry of the file, with those in front of it.
  have hmap : found.imports.paths = found.imports.entries.map (·.2.path) := List.map_map
  obtain ⟨first, rest, hentries, hbefore, hrest⟩ :=
    List.map_eq_append_iff.1 (hmap.symm.trans hpaths)
  obtain ⟨e, last, rfl, rfl, -⟩ := List.map_eq_cons_iff.1 hrest
  have hmem : e ∈ found.imports.entries := by
    rw [hentries]
    exact List.mem_append_right _ List.mem_cons_self
  have hkey : e.1 = e.2.path.parts := h.keyed ImportWalk.keyed_empty e hmem
  have hroot : e.2.path.parts ≠ file.parts := by
    rcases h.mem_entries e hmem with he | ⟨q, i, rfl, hq, hfound⟩
    · cases he
    · rw [ImportWalk.fetchedIn_path hfound]
      exact beq_eq_false_iff_ne.1 hq
  -- No import occurs twice, so none of those in front is this file.
  have hfresh : e.2.path.parts ∉ first.map Prod.fst := by
    have hnodup := found.imports.nodup
    rw [hentries, List.map_append, List.nodup_append] at hnodup
    intro hfirst
    exact hnodup.2.2 _ hfirst _ (List.mem_map_of_mem List.mem_cons_self) hkey.symm
  have hasked : askedBefore s e.2.path.parts found.imports.entries =
      first.countP fun e' => leadsTo s e.2.path.parts e'.2.parsed.symbols.sites := by
    rw [hentries, askedBefore_append, if_neg hfresh, askedBefore, if_pos hkey, Nat.add_zero,
      askedBefore_of_not_mem hfresh]
  have hsites : before.map (r.sitesIn file d s) = first.map (·.2.parsed.symbols.sites) := by
    rw [← hbefore, List.map_map]
    refine List.map_congr_left fun e' he' => ?_
    have hmem' : e' ∈ found.imports.entries := hentries ▸ List.mem_append_left _ he'
    rcases h.mem_entries e' hmem' with he | ⟨q, i, rfl, -, hfound⟩
    · cases he
    · obtain rfl := ImportWalk.fetchedIn_path hfound
      exact sitesIn_of_fetched hfound
  have haskers : r.askers file d s before e.2.path =
      (leadsTo s e.2.path.parts (r.ownSymbols file d).sites).toNat +
        askedBefore s e.2.path.parts found.imports.entries := by
    rw [askers, List.countP_cons, hsites, List.countP_map, hasked, Nat.add_comm]
    cases leadsTo s e.2.path.parts (r.ownSymbols file d).sites <;> rfl
  refine ⟨hroot, haskers, haskers ▸ ?_⟩
  exact h.asked e.2.path.parts (hkey ▸ List.mem_map_of_mem hmem) List.not_mem_nil

end

/-- How often a resolution from scratch reads each file, if all can be read. A file that is not
imported is not read; an import is read at least once, and just as often as it is asked for by the
document and the imports in front of it. -/
theorem resolve_reads (hs : s.Readable) : ∃ g s', r.resolve file d none s = (.ok g, s') ∧
    (∀ p, g.imports.contains p = false → s'.readCount p = s.readCount p) ∧
    ∀ before p after, g.imports.paths = before ++ p :: after →
      s'.readCount p = s.readCount p + r.askers file d s before p ∧
        0 < r.askers file d s before p := by
  have hnormal : (r.walk file d none).IsNormal := ImportWalk.isNormal_of_nothing_reusable rfl
  have hsites : ∀ site ∈ (r.symbols file d none).sites, site.IsNormal :=
    r.ownSymbols_isNormal file d
  obtain ⟨found, hwalks, hvalue⟩ := resolution_walks (s := s) hnormal hsites
  -- The counter of any file, by what the walk has found.
  have hcount (p : FilePath) : (r.resolve file d none s).2.readCount p = s.readCount p +
      if p.parts = file.parts then 0 else
        (leadsTo s p.parts (r.ownSymbols file d).sites).toNat +
          askedBefore s p.parts found.imports.entries := by
    rw [← readsOf_start hs hwalks]
    exact Access.readCount_runIn _ _ p
  refine ⟨r.generation file d none found, (r.resolve file d none s).2, ?_, ?_, ?_⟩
  · exact Prod.ext ((r.resolve_fst file d none s).trans (hvalue _ (Nat.lt_succ_self _))) rfl
  · intro p hp
    have hmem : p.parts ∉ found.imports.keys := OrderedTable.contains_eq_false_iff.1 hp
    rw [hcount]
    by_cases hroot : p.parts = file.parts
    · rw [if_pos hroot, Nat.add_zero]
    · obtain ⟨hown, hasked⟩ := not_asked hwalks hs hroot hmem
      rw [if_neg hroot, hown, hasked]
      rfl
  · intro before p after hpaths
    obtain ⟨hroot, haskers, hpos⟩ := askers_eq hwalks hpaths
    rw [hcount, if_neg hroot, haskers]
    exact ⟨rfl, haskers ▸ hpos⟩

/-- A file that the document imports beside another one, which imports it too, is read twice. -/
theorem resolve_reads_twice :
    let r : Resolver := ⟨.standard, false⟩
    let file : FilePath := ⟨"/p/app.proj"⟩
    let a : FilePath := ⟨"/p/a.props"⟩
    let b : FilePath := ⟨"/p/b.props"⟩
    let d := Xml.Document.ofText
      "<Project><Import Project='a.props' /><Import Project='b.props' /></Project>"
    let s := (FileStore.empty.write b "<Project />").write a
      "<Project><Import Project='b.props' /></Project>"
    s.Readable ∧ ∃ g s', r.resolve file d none s = (.ok g, s') ∧ g.imports.paths = [a, b] ∧
      s'.readCount a = 1 ∧ s'.readCount b = 2 := by
  intro r file a b d s
  have hrun : s.Readable ∧
      (r.resolve file d none s).1.toOption.map (·.imports.paths) = some [a, b] ∧
      r.askers file d s [] a = 1 ∧ r.askers file d s [a] b = 2 := by
    decide +kernel +revert
  obtain ⟨hs, hpaths, haskers⟩ := hrun
  obtain ⟨g, s', hresolve, -, hreads⟩ := @resolve_reads r file d s hs
  rw [hresolve] at hpaths
  have hpaths : g.imports.paths = [a, b] := Option.some.inj hpaths
  refine ⟨hs, g, s', hresolve, hpaths, ?_, ?_⟩
  · rw [(hreads [] a [b] hpaths).1, haskers.1]
    rfl
  · rw [(hreads [a] b [] hpaths).1, haskers.2]
    rfl

end Resolver

end ProjectAnalysis
