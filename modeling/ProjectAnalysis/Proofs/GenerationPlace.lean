import ProjectAnalysis.Proofs.GenerationOrigin
import ProjectAnalysis.Proofs.WalkPlace

/-! A generation tells of its own document only. A document with errors keeps the imports that the
generation before knew, but without their places, so that they lead to files and nothing else: what
is reported of imports is reported of those that the document has itself. -/
namespace ProjectAnalysis

open Xml (Document)

/-- The import is carried over from the generation: where it leads, and not where it stood. -/
def ImportSite.CarriedFrom (p : Generation) (site : ImportSite) : Prop :=
  ∃ old ∈ p.symbols.sites, site = { old with element := none, span := none }

/-- The file that was found for an import is one of those to look for. -/
def ImportSite.Sought (l : ImportSite × Option FilePath) : Prop :=
  ∀ file, l.2 = some file → ∃ paths, l.1.target = .candidates paths ∧ file ∈ paths

namespace Findings

/-- What is told of the imports of a document. -/
def told (f : Findings) : OrderedTable Nat FilePath × List (Span × FilePath) × List Diagnostic :=
  (f.targets, f.links, f.diagnostics)

/-- What is told of imports, each with the file that it leads to. -/
def ofLocated (located : List (ImportSite × Option FilePath)) : Findings :=
  located.foldl (fun f l => f.report l.1 l.2) .empty

/-- Whatever is told is told of the document. -/
structure PlacedIn (doc : Document) (f : Findings) : Prop where
  targets : ∀ id file, f.targets.get? id = some file → ∃ e ∈ doc.elements, e.id = id
  links : ∀ l ∈ f.links, l.1.InText doc.text
  diagnostics : ∀ d ∈ f.diagnostics, d.span.InText doc.text

end Findings

/-- What a generation tells, in a document that may go on from a generation before. -/
structure Generation.TellsOfOwn (previous : Option Generation) (g : Generation) : Prop where
  document : g.document = .ofText g.document.text
  diagnostics : ∀ d ∈ g.diagnostics, d.span.InText g.document.text
  links : ∀ l ∈ g.links, l.1.InText g.document.text
  annotations : ∀ a ∈ g.symbols.annotations, ∃ e ∈ g.document.elements, e.id = a.1
  targets : ∀ id file, g.targets.get? id = some file → ∃ e ∈ g.document.elements, e.id = id
  /-- Behind the imports of the document itself are those that are carried over, and all that is
  told of imports is told of the former. -/
  sites : ∃ (x : ImportScope) (carried : List ImportSite)
      (located : List (ImportSite × Option FilePath)),
    g.symbols.sites = x.sites g.document.walk ++ carried ∧
    (∀ site ∈ carried, ∃ p, previous = some p ∧ site.CarriedFrom p) ∧
    located.map Prod.fst = x.sites g.document.walk ∧
    g.targets = (Findings.ofLocated located).targets ∧
    g.links = (Findings.ofLocated located).links ∧
    g.diagnostics = g.document.walk.filterMap (·.diagnostic?) ++
      (Findings.ofLocated located).diagnostics

/-- The generations of a file, the latest one first: each is what a text was resolved to with the
one before it as the previous one, whatever the files are and whatever happens meanwhile. -/
inductive Lineage (file : FilePath) : List Generation → Prop
  | nil : Lineage file []
  | cons {before : List Generation} {r : Resolver} {text : String} {s : FileStore}
      {w : Surroundings} {m : Moment} {g : Generation} (older : Lineage file before)
      (h : ((r.start file (.ofText text) before.head? s).runIn w m).1 = .ok g) :
      Lineage file (g :: before)

variable {doc : Document} {f g : Findings} {site : ImportSite} {w : ImportWalk} {r : Resolver}
  {located : List (ImportSite × Option FilePath)} {file : FilePath} {previous : Option Generation}

namespace Findings

theorem told_noted_congr (h : f.told = g.told) (report : Bool) (site : ImportSite)
    (file : Option FilePath) :
    (f.noted report site file).told = (g.noted report site file).told := by
  obtain ⟨imports, targets, links, diagnostics⟩ := f
  obtain ⟨imports', targets', links', diagnostics'⟩ := g
  obtain ⟨rfl, rfl, rfl⟩ : targets = targets' ∧ links = links' ∧ diagnostics = diagnostics' := by
    simpa [told] using h
  cases report <;> cases file <;> rfl

theorem told_foldl_congr (h : f.told = g.told) (report : Bool)
    (located : List (ImportSite × Option FilePath)) :
    (located.foldl (fun f l => f.noted report l.1 l.2) f).told =
      (located.foldl (fun f l => f.noted report l.1 l.2) g).told := by
  induction located generalizing f g with
  | nil => exact h
  | cons l located ih => exact ih (told_noted_congr h report l.1 l.2)

/-- Imports of imported files are not told of. -/
theorem foldl_noted_false (f : Findings) (located : List (ImportSite × Option FilePath)) :
    located.foldl (fun f l => f.noted false l.1 l.2) f = f := by
  induction located with
  | nil => rfl
  | cons l located ih => exact ih

/-- An import without a place has nothing to be told of. -/
theorem report_of_carried {p : Generation} (h : site.CarriedFrom p) (f : Findings)
    (file : Option FilePath) : f.report site file = f := by
  obtain ⟨old, -, rfl⟩ := h
  cases file with
  | none => simp [report, ImportSite.problem?]
  | some file => simp [report, link, ImportSite.problem?]

theorem PlacedIn.link (h : f.PlacedIn doc) (hsite : site.PlacedIn doc) (file : FilePath) :
    (f.link site file).PlacedIn doc := by
  refine ⟨fun id target hid => ?_, List.forall_mem_append.2 ⟨h.links, fun l hl => ?_⟩,
    h.diagnostics⟩
  · unfold Findings.link at hid
    dsimp only at hid
    split at hid
    · rename_i element helement
      rw [OrderedTable.get?_insertNew] at hid
      split at hid
      · rename_i hnew
        exact hnew.1 ▸ hsite.element element helement
      · exact h.targets id target hid
    · exact h.targets id target hid
  · obtain ⟨span, hspan, rfl⟩ := Option.map_eq_some_iff.1 (Option.mem_toList.1 hl)
    exact hsite.span span hspan

theorem PlacedIn.report (h : f.PlacedIn doc) (hsite : site.PlacedIn doc)
    (file : Option FilePath) : (f.report site file).PlacedIn doc := by
  have hproblem : ∀ d ∈ (site.problem? file).toList, d.span.InText doc.text := by
    intro d hd
    obtain ⟨span, hspan, hd⟩ := Option.bind_eq_some_iff.1 (Option.mem_toList.1 hd)
    have hplaced := hsite.span span hspan
    split at hd <;> first | (obtain rfl := Option.some.inj hd; exact hplaced) | cases hd
  have htold : PlacedIn doc
      { f with diagnostics := f.diagnostics ++ (site.problem? file).toList } :=
    ⟨h.targets, h.links, List.forall_mem_append.2 ⟨h.diagnostics, hproblem⟩⟩
  cases file with
  | none => exact htold
  | some file => exact htold.link hsite file

/-- What is told of imports of a document is told of the document. -/
theorem placedIn_ofLocated (h : ∀ l ∈ located, l.1.PlacedIn doc) :
    (ofLocated located).PlacedIn doc := by
  have hfold (located : List (ImportSite × Option FilePath)) (h : ∀ l ∈ located, l.1.PlacedIn doc)
      (f : Findings) (hf : f.PlacedIn doc) :
      (located.foldl (fun f l => f.report l.1 l.2) f).PlacedIn doc := by
    induction located generalizing f with
    | nil => exact hf
    | cons l located ih =>
      obtain ⟨hl, hmore⟩ := List.forall_mem_cons.1 h
      exact ih hmore _ (hf.report hl l.2)
  exact hfold located h .empty
    ⟨fun _ _ hid => (nomatch hid), List.forall_mem_nil _, List.forall_mem_nil _⟩

/-- Imports that are carried over add nothing to what is told. -/
theorem ofLocated_append_carried {carried : List (ImportSite × Option FilePath)}
    (h : ∀ l ∈ carried, ∃ p, previous = some p ∧ l.1.CarriedFrom p) :
    ofLocated (located ++ carried) = ofLocated located := by
  rw [ofLocated, List.foldl_append]
  change carried.foldl (fun f l => f.report l.1 l.2) (ofLocated located) = _
  induction carried with
  | nil => rfl
  | cons l carried ih =>
    obtain ⟨⟨p, -, hl⟩, hmore⟩ := List.forall_mem_cons.1 h
    rw [List.foldl_cons, report_of_carried hl]
    exact ih hmore

end Findings

namespace ImportSite

theorem firstPresent_yields (paths : List FilePath) :
    (firstPresent paths).Yields fun file => ∀ p, file = some p → p ∈ paths := by
  induction paths with
  | nil => exact fun _ h => nomatch h
  | cons p ps ih =>
    refine Access.Yields.bind fun present => ?_
    cases present with
    | true =>
      rintro q ⟨⟩
      exact List.mem_cons_self
    | false => exact ih.mono fun file hfile q hq => List.mem_cons_of_mem p (hfile q hq)

theorem locate_yields (site : ImportSite) : site.locate.Yields fun file => Sought (site, file) := by
  unfold locate
  split
  · rename_i paths htarget
    exact (firstPresent_yields paths).mono fun file hfile p hp => ⟨paths, htarget, hfile p hp⟩
  · exact fun _ hfile => nomatch hfile

theorem locateAll_yields (sites : List ImportSite) : (locateAll sites).Yields fun located =>
    located.map Prod.fst = sites ∧ ∀ l ∈ located, Sought l := by
  induction sites with
  | nil => exact ⟨rfl, List.forall_mem_nil _⟩
  | cons site sites ih =>
    refine Access.Yields.bind (site.locate_yields.mono fun file hfile => ?_)
    refine Access.Yields.bind (ih.mono fun rest ⟨hrest, hsought⟩ => ?_)
    exact ⟨congrArg (site :: ·) hrest, List.forall_mem_cons.2 ⟨hfile, hsought⟩⟩

end ImportSite

namespace ImportWalk

/-- A visit tells of the imports that it comes to, and of nothing below them. -/
theorem visit_tells {enter : List ImportSite → Findings → Resolution Findings}
    (henter : ∀ sites f, (enter sites f).Yields fun f' => f'.told = f.told) (report : Bool)
    (located : List (ImportSite × Option FilePath)) (ahead : ReadAhead) (f : Findings) :
    (w.visit enter report located ahead f).Yields fun f' =>
      f'.told = (located.foldl (fun f l => f.noted report l.1 l.2) f).told := by
  induction located generalizing ahead f with
  | nil => exact Resolution.yields_pure rfl
  | cons l located ih =>
    obtain ⟨site, file⟩ := l
    refine Resolution.Yields.bind ((Resolution.yields_any checkpoint).mono fun _ _ => ?_)
    dsimp only
    split
    -- Whether an import leads to no file or to one that is known, nothing is entered.
    · exact ih ahead _
    · rename_i p _
      refine Resolution.Yields.bind ((Resolution.yields_any _).mono ?_)
      rintro (_ | found) -
      · exact ih _ _
      · refine Resolution.Yields.bind ((henter _ _).mono fun f₁ hbelow => ?_)
        have hnoted : f₁.told = (f.noted report site file).told := hbelow
        exact (ih _ f₁).mono fun f' hf' =>
          hf'.trans (Findings.told_foldl_congr hnoted report located)

theorem resolveSites_tells_nothing (depth : Nat) (sites : List ImportSite) (f : Findings) :
    (w.resolveSites depth false sites f).Yields fun f' => f'.told = f.told := by
  induction depth generalizing sites f with
  | zero => exact Resolution.yields_pure rfl
  | succ depth ih =>
    refine Resolution.Yields.bind ((Resolution.yields_any _).mono fun located _ => ?_)
    refine Resolution.Yields.bind ((Resolution.yields_any _).mono fun ahead _ => ?_)
    refine (visit_tells ih false located ahead f).mono fun f' hf' => ?_
    rwa [Findings.foldl_noted_false] at hf'

/-- A walk from the imports of a document tells of each of these. -/
theorem resolveSites_tells (depth : Nat) (sites : List ImportSite) :
    (w.resolveSites (depth + 1) true sites .empty).Yields fun found =>
      ∃ located : List (ImportSite × Option FilePath), located.map Prod.fst = sites ∧
        (∀ l ∈ located, ImportSite.Sought l) ∧
        found.told = (Findings.ofLocated located).told := by
  refine Resolution.Yields.bind
    ((Resolution.yields_lift (ImportSite.locateAll_yields sites)).mono
      fun located ⟨hlocated, hsought⟩ => ?_)
  refine Resolution.Yields.bind ((Resolution.yields_any _).mono fun ahead _ => ?_)
  refine (visit_tells (fun sites f => resolveSites_tells_nothing depth sites f) true located ahead
    .empty).mono fun found hfound => ?_
  exact ⟨located, hlocated, hsought, hfound⟩

end ImportWalk

namespace FileSymbols

/-- Merging puts imports behind the others, and each of them without its place. -/
theorem exists_carried (more sites : List ImportSite) : ∃ carried,
    more.foldl remember sites = sites ++ carried ∧
      ∀ site ∈ carried, ∃ old ∈ more, site = { old with element := none, span := none } := by
  induction more generalizing sites with
  | nil => exact ⟨[], (List.append_nil _).symm, List.forall_mem_nil _⟩
  | cons first more ih =>
    obtain ⟨carried, hsites, hcarried⟩ := ih (remember sites first)
    have hlater : ∀ site ∈ carried, ∃ old ∈ first :: more,
        site = { old with element := none, span := none } := by
      intro site hsite
      obtain ⟨old, hold, hsite⟩ := hcarried site hsite
      exact ⟨old, List.mem_cons_of_mem _ hold, hsite⟩
    rw [List.foldl_cons, hsites]
    unfold remember
    split
    · refine ⟨{ first with element := none, span := none } :: carried, by simp, ?_⟩
      exact List.forall_mem_cons.2 ⟨⟨first, List.mem_cons_self, rfl⟩, hlater⟩
    · exact ⟨carried, rfl, hlater⟩

end FileSymbols

namespace Resolver

/-- Of a generation before, the symbols of a document keep no problem and no annotation, and only
imports without a place. -/
theorem symbols_carry (r : Resolver) (file : FilePath) (d : Document)
    (previous : Option Generation) :
    (r.symbols file d previous).diagnostics = (r.ownSymbols file d).diagnostics ∧
    (r.symbols file d previous).annotations = (r.ownSymbols file d).annotations ∧
    ∃ carried, (r.symbols file d previous).sites = (r.ownSymbols file d).sites ++ carried ∧
      ∀ site ∈ carried, ∃ p, previous = some p ∧ site.CarriedFrom p := by
  have hown : (r.ownSymbols file d).sites = (r.ownSymbols file d).sites ++ [] :=
    (List.append_nil _).symm
  unfold symbols
  cases previous with
  | none => exact ⟨rfl, rfl, [], hown, List.forall_mem_nil _⟩
  | some p =>
    dsimp only
    split
    · obtain ⟨carried, hsites, hcarried⟩ :=
        FileSymbols.exists_carried p.symbols.sites (r.ownSymbols file d).sites
      exact ⟨rfl, rfl, carried, hsites, fun site hsite => ⟨p, rfl, hcarried site hsite⟩⟩
    · exact ⟨rfl, rfl, [], hown, List.forall_mem_nil _⟩

/-- Whatever generation a text goes on from, what comes of it tells of that text only. -/
theorem generation_tellsOfOwn (r : Resolver) (file : FilePath) (text : String)
    (previous : Option Generation) {all : List (ImportSite × Option FilePath)} {found : Findings}
    (hall : all.map Prod.fst = (r.symbols file (.ofText text) previous).sites)
    (htold : found.told = (Findings.ofLocated all).told) :
    (r.generation file (.ofText text) previous found).TellsOfOwn previous := by
  have hevents := Document.walk_placedIn text
  obtain ⟨hdiagnostics, hannotations, carried, hsites, hcarried⟩ :=
    r.symbols_carry file (.ofText text) previous
  -- The imports are those of the document, and the ones that are carried over.
  rw [hsites] at hall
  obtain ⟨located, remembered, rfl, hlocated, hremembered⟩ := List.map_eq_append_iff.1 hall
  have hnothing : ∀ l ∈ remembered, ∃ p, previous = some p ∧ l.1.CarriedFrom p :=
    fun l hl => hcarried l.1 (hremembered ▸ List.mem_map_of_mem hl)
  rw [Findings.ofLocated_append_carried hnothing] at htold
  have hown := ImportScope.sites_placedIn hevents
    (.ofFile r.installation (r.project file) file) (Document.spansIn_ofText text)
  have hsite : ∀ l ∈ located, l.1.PlacedIn (.ofText text) := by
    intro l hl
    have hmem : l.1 ∈ (r.ownSymbols file (.ofText text)).sites :=
      hlocated ▸ List.mem_map_of_mem hl
    exact hown l.1 hmem
  have hplaced := Findings.placedIn_ofLocated hsite
  obtain ⟨htargets, hlinks, hreported⟩ : found.targets = (Findings.ofLocated located).targets ∧
      found.links = (Findings.ofLocated located).links ∧
      found.diagnostics = (Findings.ofLocated located).diagnostics := by
    simpa [Findings.told] using htold
  have htogether : (r.generation file (.ofText text) previous found).diagnostics =
      (Document.ofText text).walk.filterMap (·.diagnostic?) ++
        (Findings.ofLocated located).diagnostics :=
    congrArg₂ (· ++ ·) hdiagnostics hreported
  refine ⟨rfl, ?_, ?_, ?_, ?_, _, carried, located, hsites, hcarried, hlocated, htargets, hlinks,
    htogether⟩
  · rw [htogether]
    exact List.forall_mem_append.2 ⟨fun d hd => diagnostic_inText hevents hd, hplaced.diagnostics⟩
  · change ∀ l ∈ found.links, l.1.InText text
    rw [hlinks]
    exact hplaced.links
  · intro a ha
    have hmem : a ∈ (r.ownSymbols file (.ofText text)).annotations := hannotations ▸ ha
    exact exists_element_of_annotation hevents hmem
  · change ∀ id target, found.targets.get? id = some target → _
    rw [htargets]
    exact hplaced.targets

/-- A generation that a resolution ends with is that of its text, and tells of each import what was
found for it. -/
theorem generation_of_start {text : String} {s : FileStore} {w : Surroundings} {m : Moment}
    {g : Generation} (h : ((r.start file (.ofText text) previous s).runIn w m).1 = .ok g) :
    ∃ (all : List (ImportSite × Option FilePath)) (found : Findings),
      g = r.generation file (.ofText text) previous found ∧
      all.map Prod.fst = (r.symbols file (.ofText text) previous).sites ∧
      (∀ l ∈ all, ImportSite.Sought l) ∧ found.told = (Findings.ofLocated all).told := by
  have hresolution : (r.resolution (s.files.entries.length + 1) file (.ofText text) previous).Yields
      fun g => ∃ (all : List (ImportSite × Option FilePath)) (found : Findings),
        g = r.generation file (.ofText text) previous found ∧
        all.map Prod.fst = (r.symbols file (.ofText text) previous).sites ∧
        (∀ l ∈ all, ImportSite.Sought l) ∧ found.told = (Findings.ofLocated all).told := by
    refine Resolution.Yields.bind ((Resolution.yields_any checkpoint).mono fun _ _ => ?_)
    refine Resolution.Yields.bind ((Resolution.yields_any checkpoint).mono fun _ _ => ?_)
    refine Resolution.Yields.bind ((ImportWalk.resolveSites_tells _ _).mono fun found hfound => ?_)
    refine Resolution.Yields.bind ((Resolution.yields_any checkpoint).mono fun _ _ => ?_)
    obtain ⟨all, hall, hsought, htold⟩ := hfound
    exact Resolution.yields_pure ⟨all, found, rfl, hall, hsought, htold⟩
  exact hresolution.runIn w m g h

theorem start_tellsOfOwn {text : String} {s : FileStore} {w : Surroundings} {m : Moment}
    {g : Generation} (h : ((r.start file (.ofText text) previous s).runIn w m).1 = .ok g) :
    g.TellsOfOwn previous := by
  obtain ⟨all, found, rfl, hall, -, htold⟩ := generation_of_start h
  exact r.generation_tellsOfOwn file text previous hall htold

end Resolver

/-- In every run of generations of a file each one tells of its own document only. -/
theorem Lineage.tellsOfOwn {gs : List Generation} (h : Lineage file gs) :
    ∀ g before, g :: before <:+ gs → g.TellsOfOwn before.head? := by
  induction h with
  | nil =>
    intro g before hsuffix
    exact absurd (List.suffix_nil.1 hsuffix) (List.cons_ne_nil _ _)
  | cons older h ih =>
    intro g before hsuffix
    rcases List.suffix_cons_iff.1 hsuffix with heq | hsuffix
    · obtain ⟨rfl, rfl⟩ := List.cons.inj heq
      exact Resolver.start_tellsOfOwn h
    · exact ih g before hsuffix

/-- A document that breaks goes on importing what it has imported, and tells of its own fault. -/
theorem lineage_tellsOfOwn_broken :
    let r : Resolver := ⟨.standard, false⟩
    let file : FilePath := ⟨"/p/a.proj"⟩
    let s := FileStore.empty.write ⟨"/p/x.props"⟩ "<Project />"
    ∃ p g, (r.resolve file (.ofText "<Project><Import Project='x.props' /></Project>") none s).1 =
        .ok p ∧
      (r.resolve file (.ofText "<Project") (some p) s).1 = .ok g ∧ Lineage file [g, p] ∧
      g.symbols.sites.map (·.span) = [none] ∧ g.imports.values.length = 1 ∧
      p.links.map (·.1) = [⟨26, 33⟩] ∧ g.links.map (·.1) = [] ∧
      g.diagnostics.map (·.span) = [⟨0, 0⟩] ∧ p.TellsOfOwn none ∧ g.TellsOfOwn (some p) := by
  intro r file s
  have hrun : ((r.resolve file (.ofText "<Project><Import Project='x.props' /></Project>") none
      s).1.toOption.bind fun p => (r.resolve file (.ofText "<Project") (some p) s).1.toOption.map
        fun g => (g.symbols.sites.map (·.span), g.imports.values.length, p.links.map (·.1),
          g.links.map (·.1), g.diagnostics.map (·.span))) =
      some ([none], 1, [⟨26, 33⟩], [], [⟨0, 0⟩]) := by
    decide +kernel +revert
  obtain ⟨p, hp, -⟩ := r.exists_resolve file
    (.ofText "<Project><Import Project='x.props' /></Project>") none s
  obtain ⟨g, hg, -⟩ := r.exists_resolve file (.ofText "<Project") (some p) s
  have hlineage : Lineage file [g, p] := .cons (.cons .nil hp) hg
  rw [hp, Except.toOption, Option.bind_some, hg] at hrun
  obtain ⟨hsites, hrun⟩ := Prod.mk.inj (Option.some.inj hrun)
  obtain ⟨himports, hrun⟩ := Prod.mk.inj hrun
  obtain ⟨hlinks, hrun⟩ := Prod.mk.inj hrun
  obtain ⟨hlinks', hdiagnostics⟩ := Prod.mk.inj hrun
  exact ⟨p, g, hp, hg, hlineage, hsites, himports, hlinks, hlinks', hdiagnostics,
    hlineage.tellsOfOwn p [] (List.suffix_cons g [p]),
    hlineage.tellsOfOwn g [p] List.suffix_rfl⟩

end ProjectAnalysis
