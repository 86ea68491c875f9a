import ProjectAnalysis.Proofs.GenerationPlace
import ProjectAnalysis.Proofs.PathWalk

/-! No file counts twice. All imports of a generation are paths that are worked off, each of them
once, and none of them is the document as it was named. The document is compared as it was named and
not worked off, so one that was named with a detour may still be among its own imports. -/
namespace ProjectAnalysis

/-- Nothing is left to work off in any candidate. -/
def ImportSite.IsWorkedOff (site : ImportSite) : Prop :=
  ∀ paths, site.target = .candidates paths → ∀ p ∈ paths, FilePath.normalize p.text = p

def FileSymbols.WorkedOff (s : FileSymbols) : Prop :=
  ∀ site ∈ s.sites, site.IsWorkedOff

/-- Every import stands under its own path, which is worked off and is not that of the document. -/
def ImportTable.Apart (root : FilePath) (t : ImportTable) : Prop :=
  ∀ k found, OrderedTable.get? t k = some found →
    k = found.path.parts ∧ FilePath.normalize found.path.text = found.path ∧
      found.path.same root = false

section
variable {α : Type} {Q R : α → Prop}

theorem Access.Yields.and {x : Access α} (hQ : x.Yields Q) (hR : x.Yields R) :
    x.Yields fun a => Q a ∧ R a := by
  induction x with
  | done a => exact ⟨hQ, hR⟩
  | ask q next ih => exact fun answer => ih answer (hQ answer) (hR answer)

end

theorem ImportTable.apart_empty (root : FilePath) : ImportTable.Apart root .empty := by
  intro k found h
  cases h

theorem ImportTable.Apart.add {root : FilePath} {t : ImportTable} {found : ResolvedImport}
    (h : t.Apart root) (hpath : FilePath.normalize found.path.text = found.path)
    (hroot : found.path.same root = false) : (t.add found).Apart root := by
  intro k other hother
  rw [ImportTable.add, OrderedTable.get?_insert] at hother
  split at hother
  · rename_i hk
    obtain rfl := Option.some.inj hother
    exact ⟨hk.symm, hpath, hroot⟩
  · exact h k other hother

theorem FileSymbols.ofDocument_workedOff (b : Builtins) (x : ImportScope) (d : Xml.Document) :
    (ofDocument b x d).WorkedOff := by
  intro site hsite paths hpaths p hp
  obtain ⟨base, text, rfl⟩ := x.exists_resolve_of_sites d.walk site hsite paths hpaths p hp
  exact FilePath.normalize_resolve base text

theorem FileSymbols.WorkedOff.merge {s t : FileSymbols} (hs : s.WorkedOff) (ht : t.WorkedOff) :
    (s.merge t).WorkedOff := by
  obtain ⟨carried, hsites, hcarried⟩ := FileSymbols.exists_carried t.sites s.sites
  intro site hsite
  have hmem : site ∈ s.sites ++ carried := hsites ▸ hsite
  rcases List.mem_append.1 hmem with h | h
  · exact hs site h
  · -- An import that is carried over leads where it has led.
    obtain ⟨old, hold, rfl⟩ := hcarried site h
    exact ht old hold

namespace ImportSite

theorem locateAll_workedOff {sites : List ImportSite} (h : ∀ site ∈ sites, site.IsWorkedOff) :
    (locateAll sites).Yields fun located =>
      ∀ l ∈ located, ∀ p, l.2 = some p → FilePath.normalize p.text = p := by
  refine (locateAll_yields sites).mono fun located ⟨hlocated, hsought⟩ l hl p hp => ?_
  obtain ⟨paths, htarget, hmem⟩ := hsought l hl p hp
  exact h l.1 (hlocated ▸ List.mem_map_of_mem hl) paths htarget p hmem

end ImportSite

namespace ImportWalk

variable {w : ImportWalk}

/-- Whatever is fetched for a path is that file. -/
theorem fetch?_yields_path (p : FilePath) (ahead : ReadAhead) :
    (w.fetch? p ahead).Yields fun result => ∀ found, result = some found → found.path = p := by
  have hread (x : Access (Option ParsedImport)) :
      (x >>= fun parsed => pure (parsed.map fun parsed => ResolvedImport.mk p parsed false)).Yields
        fun result => ∀ found, result = some found → found.path = p := by
    refine Access.Yields.bind ((Access.yields_any x).mono fun result _ found hfound => ?_)
    obtain ⟨parsed, -, rfl⟩ := Option.map_eq_some_iff.1 hfound
    rfl
  refine Access.Yields.bind ((Access.yields_any _).mono fun reused _ => ?_)
  cases reused with
  | some parsed =>
    rintro found ⟨⟩
    rfl
  | none =>
    dsimp only
    split
    · exact hread _
    · exact hread _

/-- What a walk keeps of its findings. -/
def Keeps (w : ImportWalk) (f : Findings) : Prop :=
  f.imports.All (fun i => i.symbols.WorkedOff) ∧ f.imports.Apart w.root

theorem parse_workedOff (p : FilePath) (time : Nat) (text : String) :
    (w.parse p time text).symbols.WorkedOff :=
  FileSymbols.ofDocument_workedOff _ _ _

variable (hw : w.reusable.All fun i => i.symbols.WorkedOff)
include hw

theorem visit_keeps {enter : List ImportSite → Findings → Resolution Findings}
    (henter : ∀ sites f, (∀ site ∈ sites, site.IsWorkedOff) → w.Keeps f →
      (enter sites f).Yields w.Keeps)
    (report : Bool) (located : List (ImportSite × Option FilePath))
    (hlocated : ∀ l ∈ located, ∀ p, l.2 = some p → FilePath.normalize p.text = p)
    {ahead : ReadAhead} (hahead : ahead.All fun i => i.symbols.WorkedOff) {f : Findings}
    (hf : w.Keeps f) : (w.visit enter report located ahead f).Yields w.Keeps := by
  -- By induction on the sites: each of them enters nothing, or a new file and what is below it.
  induction located generalizing ahead f with
  | nil => exact Resolution.yields_pure hf
  | cons l located ih =>
    obtain ⟨site, file⟩ := l
    obtain ⟨hfile, hrest⟩ := List.forall_mem_cons.1 hlocated
    have hnoted : w.Keeps (f.noted report site file) := by
      rwa [Keeps, Findings.imports_noted]
    refine Resolution.Yields.bind ((Resolution.yields_any checkpoint).mono fun _ _ => ?_)
    dsimp only
    split
    · exact ih hrest hahead hnoted
    · rename_i p hp
      obtain ⟨hsome, hnew⟩ := Option.filter_eq_some_iff.1 hp
      -- The path is compared with the root as that was named, which is all that is known of it.
      have hroot : p.same w.root = false := by
        rw [Bool.not_eq_true', isKnown, Bool.or_eq_false_iff] at hnew
        exact hnew.1
      have hfetch := (fetch?_yields parse_workedOff hw hahead p).and (fetch?_yields_path p ahead)
      refine Resolution.Yields.bind ((Resolution.yields_lift hfetch).mono ?_)
      rintro (_ | found) ⟨hsites, hpath⟩
      · exact ih hrest (hahead.erase p.parts) hnoted
      · obtain rfl := hpath found rfl
        have hadded : w.Keeps ((f.noted report site file).withImport found) :=
          ⟨hnoted.1.add (hsites found rfl), hnoted.2.add (hfile _ hsome) hroot⟩
        have hbelow := henter found.parsed.symbols.sites _ (hsites found rfl) hadded
        exact Resolution.Yields.bind (hbelow.mono fun f hf =>
          ih hrest (hahead.erase found.path.parts) hf)

/-- However the files import each other, a walk enters worked off paths, and never the document. -/
theorem resolveSites_keeps (depth : Nat) (report : Bool) (sites : List ImportSite)
    (hsites : ∀ site ∈ sites, site.IsWorkedOff) {f : Findings} (hf : w.Keeps f) :
    (w.resolveSites depth report sites f).Yields w.Keeps := by
  induction depth generalizing report sites f with
  | zero => exact Resolution.yields_pure hf
  | succ depth ih =>
    refine Resolution.Yields.bind
      ((Resolution.yields_lift (ImportSite.locateAll_workedOff hsites)).mono
        fun located hfiles => ?_)
    have hread := readAhead_yields (Q := fun i => i.symbols.WorkedOff) (w := w) parse_workedOff f
      (located.filterMap (·.2))
    refine Resolution.Yields.bind ((Resolution.yields_lift hread).mono fun ahead hahead => ?_)
    exact visit_keeps hw (fun sites f hsites hf => ih false sites hsites hf) report located
      hfiles hahead hf

end ImportWalk

namespace Resolver

variable {r : Resolver} {file : FilePath} {d : Xml.Document} {previous : Option Generation}
  {g : Generation}

theorem resolution_apart (depth : Nat)
    (h : ∀ p, previous = some p → p.All FileSymbols.WorkedOff) :
    (r.resolution depth file d previous).Yields fun g => g.imports.Apart file := by
  have hsites : (r.symbols file d previous).WorkedOff :=
    symbols_all FileSymbols.ofDocument_workedOff (fun _ _ => .merge) fun p hp => (h p hp).1
  have hreusable : (r.walk file d previous).reusable.All fun i => i.symbols.WorkedOff :=
    reusable_all fun p hp => (h p hp).2
  have hstart : (r.walk file d previous).Keeps .empty :=
    ⟨ImportTable.all_empty _, ImportTable.apart_empty file⟩
  have hwalk := ImportWalk.resolveSites_keeps hreusable depth true _ hsites hstart
  refine Resolution.Yields.bind ((Resolution.yields_any checkpoint).mono fun _ _ => ?_)
  refine Resolution.Yields.bind ((Resolution.yields_any checkpoint).mono fun _ _ => ?_)
  refine Resolution.Yields.bind (hwalk.mono fun found hfound => ?_)
  refine Resolution.Yields.bind ((Resolution.yields_any checkpoint).mono fun _ _ => ?_)
  exact Resolution.yields_pure hfound.2

theorem Arises.apart (h : r.Arises file g) : g.imports.Apart file := by
  cases h with
  | @first depth d w m _ h =>
    have hyields : (r.resolution depth file d none).Yields fun g => g.imports.Apart file :=
      resolution_apart depth fun _ hp => nomatch hp
    exact hyields.runIn w m g h
  | @next depth d p w m _ before h =>
    have hbefore : p.All FileSymbols.WorkedOff :=
      before.all FileSymbols.ofDocument_workedOff fun _ _ => .merge
    have hyields : (r.resolution depth file d (some p)).Yields fun g => g.imports.Apart file :=
      resolution_apart depth fun q hq => Option.some.inj hq ▸ hbefore
    exact hyields.runIn w m g h

/-- Every import of a generation is a file of its own: worked off, all are different, and none is
the document as it was named. If the document is among them by its path without detours, then this
is not how it was named. -/
theorem Arises.imports_differ (h : r.Arises file g) :
    OrderedTable.keys g.imports = g.imports.paths.map FilePath.parts ∧
    (g.imports.paths.map fun p => FilePath.normalize p.text).Nodup ∧
    (∀ p ∈ g.imports.paths, FilePath.normalize p.text = p ∧ p.same file = false) ∧
    (FilePath.normalize file.text ∈ g.imports.paths →
      (FilePath.normalize file.text).same file = false) := by
  have heach : ∀ e ∈ g.imports.entries, e.1 = e.2.path.parts ∧
      FilePath.normalize e.2.path.text = e.2.path ∧ e.2.path.same file = false :=
    fun e he => h.apart e.1 e.2 (OrderedTable.get?_eq_some_iff.2 he)
  have hkeyed : ImportWalk.Keyed g.imports := fun e he => (heach e he).1
  have hpaths : ∀ p ∈ g.imports.paths, FilePath.normalize p.text = p ∧ p.same file = false := by
    intro p hp
    obtain ⟨found, hfound, rfl⟩ := List.mem_map.1 hp
    obtain ⟨e, he, rfl⟩ := List.mem_map.1 hfound
    exact (heach e he).2
  refine ⟨hkeyed.keys_eq, ?_, hpaths, fun hp => (hpaths _ hp).2⟩
  -- Working off changes none of the paths, so it makes no two of them equal.
  have hfixed : (g.imports.paths.map fun p => FilePath.normalize p.text) = g.imports.paths :=
    (List.map_congr_left fun p hp => (hpaths p hp).1).trans (List.map_id' _)
  have hkeys : (g.imports.paths.map FilePath.parts).Nodup := hkeyed.keys_eq ▸ g.imports.nodup
  rw [hfixed]
  exact hkeys.of_map

/-- A document that is named with a detour imports itself. -/
theorem imports_differ_detour :
    let r : Resolver := ⟨.standard, false⟩
    let file : FilePath := ⟨"/p/x/../a.proj"⟩
    let text := "<Project><Import Project='a.proj' /></Project>"
    ∃ g, (r.resolve file (.ofText text) none (FileStore.empty.write ⟨"/p/a.proj"⟩ text)).1 =
        .ok g ∧ r.Arises file g ∧ g.imports.paths = [FilePath.normalize file.text] ∧
      (FilePath.normalize file.text).same file = false := by
  intro r file text
  have hpaths : (r.resolve file (.ofText text) none
      (FileStore.empty.write ⟨"/p/a.proj"⟩ text)).1.toOption.map (·.imports.paths) =
        some [FilePath.normalize file.text] := by
    decide +kernel +revert
  obtain ⟨g, hg, -⟩ := r.exists_resolve file (.ofText text) none
    (FileStore.empty.write ⟨"/p/a.proj"⟩ text)
  rw [hg] at hpaths
  have hself : g.imports.paths = [FilePath.normalize file.text] := Option.some.inj hpaths
  have harises : r.Arises file g := .first hg
  refine ⟨g, hg, harises, hself, ?_⟩
  exact harises.imports_differ.2.2.2 (hself ▸ List.mem_singleton_self _)

end Resolver

end ProjectAnalysis
