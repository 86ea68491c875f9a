import ProjectAnalysis.Proofs.MergedViews
import ProjectAnalysis.Proofs.WalkClosure

/-! Edits that break a document. A document with errors of its own goes on from a generation that
was read for the same tools version; beside files that stay as they are, it shows whatever that
generation has shown, and imports whatever that one has imported. -/
namespace ProjectAnalysis

namespace FileSymbols

theorem exists_mem_foldl_remember (more sites : List ImportSite) :
    (∀ site ∈ sites, ∃ site' ∈ more.foldl remember sites, site'.target = site.target) ∧
      ∀ site ∈ more, ∀ paths, site.target = .candidates paths →
        ∃ site' ∈ more.foldl remember sites, site'.target = site.target := by
  induction more generalizing sites with
  | nil => exact ⟨fun site h => ⟨site, h, rfl⟩, List.forall_mem_nil _⟩
  | cons first more ih =>
    obtain ⟨hkept, hlater⟩ := ih (remember sites first)
    have hsub : ∀ site ∈ sites, site ∈ remember sites first := by
      intro site h
      unfold remember
      split
      · exact List.mem_append_left _ h
      · exact h
    refine ⟨fun site h => hkept site (hsub site h), List.forall_mem_cons.2 ⟨?_, hlater⟩⟩
    intro paths hpaths
    -- The first one is there already, by its target, or is put behind the others.
    have hthere : ∃ site ∈ remember sites first, site.target = first.target := by
      unfold remember
      split
      · exact ⟨_, List.mem_append_right _ List.mem_cons_self, rfl⟩
      · rename_i hmissing
        unfold isMissing at hmissing
        rw [hpaths] at hmissing ⊢
        simpa using hmissing
    obtain ⟨site, hsite, htarget⟩ := hthere
    obtain ⟨site', hsite', htarget'⟩ := hkept site hsite
    exact ⟨site', hsite', htarget'.trans htarget⟩

/-- Merging carries over every import that leads somewhere. -/
theorem exists_site_merge (s previous : FileSymbols) {site : ImportSite}
    (hsite : site ∈ previous.sites) {paths : List FilePath} (h : site.target = .candidates paths) :
    ∃ site' ∈ (s.merge previous).sites, site'.target = site.target :=
  (exists_mem_foldl_remember previous.sites s.sites).2 site hsite paths h

end FileSymbols

theorem ImportWalk.Settled.of_target {w : ImportWalk} {s : FileStore} {f : Findings}
    {sites : List ImportSite} (h : ∀ site ∈ sites, w.Settled s f site) {site : ImportSite}
    (htarget : ∀ paths, site.target = .candidates paths →
      ∃ site' ∈ sites, site'.target = site.target) : w.Settled s f site := by
  intro p hp
  have hpaths : ∃ paths, site.target = .candidates paths := by
    unfold ImportSite.fileIn at hp
    split at hp
    · rename_i paths hpaths
      exact ⟨paths, hpaths⟩
    · cases hp
  obtain ⟨paths, hpaths⟩ := hpaths
  obtain ⟨site', hsite', hsame⟩ := htarget paths hpaths
  apply h site' hsite'
  rwa [ImportSite.fileIn_congr hsame]

namespace Generation

/-! What a generation shows that has merged in the symbols of another one. -/

variable {n p : Generation} {own : FileSymbols}

section
variable (h : n.Extends p) (hn : n.Proper) (hp : p.Proper) (hown : own.Named)
  (hsymbols : n.symbols = own.merge p.symbols)
include h hn hp hown hsymbols

theorem Extends.item? {name : String} {i : ItemInfo} (hi : p.item? name = some i) :
    ∃ j, n.item? name = some j ∧
      ∀ key ∈ OrderedTable.keys i.metadata, key ∈ OrderedTable.keys j.metadata := by
  refine h.lookup_merge hn hp (ItemInfo.unites (.of name)) (fun s hs i hi => hs.items _ i hi) hown
    ?_ hi
  rw [hsymbols]
  exact FileSymbols.get?_items_merge _ hp.symbols.named _

theorem Extends.task? {name : String} {t : TaskInfo} (ht : p.task? name = some t) :
    ∃ u, n.task? name = some u ∧
      ∀ key ∈ OrderedTable.keys t.parameters, key ∈ OrderedTable.keys u.parameters := by
  refine h.lookup_merge hn hp (TaskInfo.unites (.of name)) (fun s hs t ht => hs.tasks _ t ht) hown
    ?_ ht
  rw [hsymbols]
  exact FileSymbols.get?_tasks_merge _ hp.symbols.named _

theorem Extends.property? (hversion : n.toolsVersion = p.toolsVersion) {name : String}
    (hsome : (p.property? name).isSome) : (n.property? name).isSome := by
  -- The well-known properties are the same, as the tools version is.
  have hbuiltins : n.builtins = p.builtins := congrArg Builtins.of hversion
  rw [Generation.property?, Option.isSome_or, Bool.or_eq_true] at hsome ⊢
  rw [hbuiltins]
  apply hsome.imp_left
  intro hlookup
  obtain ⟨a, ha⟩ := Option.isSome_iff_exists.1 hlookup
  have hmerge : OrderedTable.get? n.symbols.properties (.of name) = Option.merge Symbol.merge
      (OrderedTable.get? own.properties (.of name))
      (OrderedTable.get? p.symbols.properties (.of name)) := by
    rw [hsymbols]
    exact FileSymbols.get?_properties_merge _ hp.symbols.named _
  obtain ⟨b, hb, -⟩ := h.lookup_merge hn hp PropertyInfo.unites (fun _ _ _ _ => trivial) hown
    hmerge ha
  exact Option.isSome_iff_exists.2 ⟨b, hb⟩

end

end Generation

namespace Resolver

variable {r : Resolver} {file : FilePath} {s s' : FileStore} {d : Xml.Document}

theorem walk_isNormal {previous : Option Generation} (h : ∀ p, previous = some p → p.Proper)
    (d : Xml.Document) : (r.walk file d previous).IsNormal := by
  intro p known hknown
  have hproper : ImportTable.All (fun i => i.symbols.Proper) (r.walk file d previous).reusable :=
    reusable_all fun g hg => (h g hg).imports
  exact (hproper p.parts known hknown).sites

/-- What a resolution of a proper generation has walked. -/
theorem resolve_walks (r : Resolver) (file : FilePath) {previous : Option Generation}
    (h : ∀ p, previous = some p → p.Proper) (d : Xml.Document) (s : FileStore) : ∃ found,
      (r.walk file d previous).Walks s true (r.symbols file d previous).sites .empty found ∧
      (r.resolve file d previous s).1 = .ok (r.generation file d previous found) := by
  have hnormal : (r.walk file d previous).IsNormal := walk_isNormal h d
  obtain ⟨found, hwalks, hvalue⟩ := resolution_walks (s := s) hnormal (symbols_proper h).sites
  refine ⟨found, hwalks, ?_⟩
  rw [resolve_fst]
  exact hvalue _ (Nat.lt_succ_self _)

theorem resolve_congr (hfiles : s'.files = s.files) (d : Xml.Document)
    (previous : Option Generation) :
    (r.resolve file d previous s').1 = (r.resolve file d previous s).1 := by
  rw [resolve_fst, resolve_fst, hfiles, Access.valueIn_congr hfiles]

theorem Arises.of_resolve {before : Option Generation} {g : Generation}
    (hbefore : ∀ p, before = some p → r.Arises file p)
    (h : (r.resolve file d before s).1 = .ok g) : r.Arises file g := by
  cases before with
  | none => exact .first h
  | some p => exact .next (hbefore p rfl) h

/-- A resolution goes on from a generation that was read beside the same files, for the same tools
version: whatever was imported is imported, as it was read then. -/
theorem exists_entry_of_resolve {before : Option Generation} {d₀ : Xml.Document}
    {found found' : Findings}
    (hfound : (r.walk file d₀ before).Walks s true (r.symbols file d₀ before).sites .empty found)
    (hfound' : (r.walk file d (some (r.generation file d₀ before found))).Walks s true
      (r.symbols file d (some (r.generation file d₀ before found))).sites .empty found')
    (hversion : toolsVersion d = toolsVersion d₀)
    (herrors : (r.ownSymbols file d).hasErrors = true) :
    ∀ e ∈ found.imports.entries, ImportWalk.Covers found' e := by
  let p := r.generation file d₀ before found
  have hsymbols : r.symbols file d (some p) = (r.ownSymbols file d).merge p.symbols :=
    if_pos herrors
  have hreusable : (r.walk file d (some p)).reusable = found.imports := if_pos hversion.symm
  have hclosed := hfound'.closed
  have hagain : ∀ e ∈ found.imports.entries, ∀ q : FilePath, q.parts = e.1 →
      (r.walk file d (some p)).fetchedIn s q = some ⟨q, e.2.parsed, true⟩ := by
    intro e he q hq
    rcases hfound.mem_entries e he with he' | ⟨path, i, rfl, -, hfetched⟩
    · cases he'
    · apply ImportWalk.fetchedIn_again hfetched hq
      rw [hreusable]
      exact OrderedTable.get?_eq_some_iff.2 he
  -- The sites of the document then are carried over, by where they lead.
  have hsettled : ∀ site ∈ p.symbols.sites,
      (r.walk file d (some p)).Settled s found' site := by
    intro site hsite
    apply ImportWalk.Settled.of_target hclosed.sites
    intro paths hpaths
    rw [hsymbols]
    exact FileSymbols.exists_site_merge _ p.symbols hsite hpaths
  have hroot : (r.walk file d (some p)).root = (r.walk file d₀ before).root := rfl
  exact hfound.covered hroot hclosed hagain (List.Subset.refl _) hsettled (List.forall_mem_nil _)

section
variable {before previous : Option Generation} {d₀ : Xml.Document} {found found' : Findings}
  (h : ∀ e ∈ found.imports.entries, ImportWalk.Covers found' e)
include h

theorem extends_of_covers :
    (r.generation file d previous found').Extends (r.generation file d₀ before found) := by
  refine ⟨rfl, fun i hi => ?_⟩
  obtain ⟨e, he, rfl⟩ := List.mem_map.1 hi
  obtain ⟨e', he', -, hparsed⟩ := h e he
  exact ⟨e'.2, List.mem_map_of_mem he', hparsed⟩

theorem contains_of_covers {path : FilePath} (hpath : found.imports.contains path = true) :
    found'.imports.contains path = true := by
  rw [ImportTable.contains, OrderedTable.contains_iff] at hpath ⊢
  obtain ⟨e, he, hkey⟩ := List.mem_map.1 hpath
  obtain ⟨e', he', hsame, -⟩ := h e he
  exact List.mem_map.2 ⟨e', he', hsame.trans hkey⟩

end

/-- An edit that breaks the document loses nothing: what the generation before imports and shows,
merged from earlier texts or not, the next one imports and shows as well, each item with its
metadata and each task with its parameters. -/
theorem broken_edit_keeps (r : Resolver) (file : FilePath) {s s' : FileStore}
    {before : Option Generation} {d₀ d : Xml.Document} {p : Generation}
    (hbefore : ∀ g, before = some g → r.Arises file g)
    (hp : (r.resolve file d₀ before s).1 = .ok p) (hfiles : s'.files = s.files)
    (hversion : toolsVersion d = p.toolsVersion)
    (herrors : (r.ownSymbols file d).hasErrors = true) :
    ∃ n, (r.resolve file d (some p) s').1 = .ok n ∧
      (∀ path, p.imports.contains path = true → n.imports.contains path = true) ∧
      ∀ name,
        (∀ i, p.item? name = some i → ∃ j, n.item? name = some j ∧
          ∀ key ∈ OrderedTable.keys i.metadata, key ∈ OrderedTable.keys j.metadata) ∧
        (∀ t, p.task? name = some t → ∃ u, n.task? name = some u ∧
          ∀ key ∈ OrderedTable.keys t.parameters, key ∈ OrderedTable.keys u.parameters) ∧
        ((p.property? name).isSome → (n.property? name).isSome) := by
  have harises : r.Arises file p := .of_resolve hbefore hp
  obtain ⟨found, hfound, hvalue⟩ :=
    r.resolve_walks file (fun g hg => (hbefore g hg).proper) d₀ s
  obtain rfl := Except.ok.inj (hp.symm.trans hvalue)
  obtain ⟨found', hfound', hvalue'⟩ :=
    r.resolve_walks file (fun g hg => Option.some.inj hg ▸ harises.proper) d s
  have hcovers := exists_entry_of_resolve hfound hfound' hversion herrors
  let p := r.generation file d₀ before found
  let n := r.generation file d (some p) found'
  have hn : (r.resolve file d (some p) s).1 = .ok n := hvalue'
  have harises' : r.Arises file n := .of_resolve (fun g hg => Option.some.inj hg ▸ harises) hn
  have hsymbols : n.symbols = (r.ownSymbols file d).merge p.symbols := if_pos herrors
  have hown : (r.ownSymbols file d).Named := r.ownSymbols_named file d
  have hextends : n.Extends p := extends_of_covers hcovers
  refine ⟨n, ?_, fun path => contains_of_covers hcovers, fun name => ⟨?_, ?_, ?_⟩⟩
  · rw [resolve_congr hfiles]
    exact hn
  · intro i hi
    exact hextends.item? harises'.proper harises.proper hown hsymbols hi
  · intro t ht
    exact hextends.task? harises'.proper harises.proper hown hsymbols ht
  · intro h
    exact hextends.property? harises'.proper harises.proper hown hsymbols hversion h

/-- A text that is broken twice: the second time goes on from what the first one has kept. -/
theorem broken_edit_keeps_twice :
    let r : Resolver := ⟨.standard, false⟩
    let file : FilePath := ⟨"/p/a.proj"⟩
    let x : FilePath := ⟨"/p/x.props"⟩
    let s := FileStore.empty.write x
      "<Project><ItemGroup><Compile Include='a' Link='b' /></ItemGroup></Project>"
    let before := (r.resolve file (.ofText "<Project><Import Project='x.props' /></Project>") none
      s).1.toOption
    let broken : Xml.Document := .ofText "<Project><"
    ∃ p n, (r.resolve file broken before s).1 = .ok p ∧ toolsVersion broken = p.toolsVersion ∧
      (r.ownSymbols file broken).hasErrors = true ∧
      (r.resolve file broken (some p) s).1 = .ok n ∧
      p.imports.contains x = true ∧ n.imports.contains x = true ∧
      ∃ j, n.item? "compile" = some j ∧ .of "link" ∈ OrderedTable.keys j.metadata := by
  intro r file x s before broken
  have hfirst : ((r.resolve file broken before s).1.toOption.map fun p =>
      (decide (p.toolsVersion = toolsVersion broken), p.imports.contains x,
        (p.item? "compile").map fun i => OrderedTable.keys i.metadata)) =
      some (true, true, some [.of "link"]) := by
    decide +kernel +revert
  have herrors : (r.ownSymbols file broken).hasErrors = true := by
    clear hfirst
    decide +kernel +revert
  have hbefore : ∀ g, before = some g → r.Arises file g := by
    intro g hg
    obtain ⟨g', hg', -⟩ := r.exists_resolve file
      (.ofText "<Project><Import Project='x.props' /></Project>") none s
    have hsame : before = some g' := congrArg Except.toOption hg'
    obtain rfl := Option.some.inj (hsame.symm.trans hg)
    exact .first hg'
  obtain ⟨p, hp, -⟩ := r.exists_resolve file broken before s
  rw [hp] at hfirst
  obtain ⟨hversion, himports, hitem⟩ : _ ∧ _ ∧ _ := by simpa [Except.toOption] using hfirst
  obtain ⟨i, hi, hkeys⟩ := hitem
  obtain ⟨n, hn, hkept, hnames⟩ :=
    broken_edit_keeps r file hbefore hp (rfl : s.files = s.files) hversion.symm herrors
  obtain ⟨j, hj, hinner⟩ := (hnames "compile").1 i hi
  refine ⟨p, n, hp, hversion.symm, herrors, hn, himports, hkept x himports, j, hj, ?_⟩
  apply hinner
  rw [hkeys]
  exact List.mem_cons_self

end Resolver

end ProjectAnalysis
