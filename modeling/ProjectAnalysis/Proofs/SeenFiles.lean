import ProjectAnalysis.Proofs.PathKeys
import ProjectAnalysis.Proofs.LookupAgreement

/-! The files that mention a symbol, beside the lookup of the symbol. The files are found by a scan
of each table for itself, the lookup merges what the tables have. Yet a name that may be seen is
found just if some file is listed; the document comes first, and no file comes twice, because the
document is not among its imports as it was named and each of these has its own path. -/
namespace ProjectAnalysis

variable {α : Type}

/-- A symbol of the table has the name, in whatever spelling. -/
def SymbolTable.Has [Symbol α] (t : SymbolTable α) (name : String) : Prop :=
  ∃ a ∈ OrderedTable.values t, NameKey.of (Symbol.name a) = .of name

theorem SymbolTable.Keyed.contains_iff_has [Symbol α] {t : SymbolTable α} (h : t.Keyed)
    (name : String) : t.contains name = true ↔ t.Has name := by
  rw [SymbolTable.contains, OrderedTable.contains, Option.isSome_iff_exists]
  constructor
  · rintro ⟨a, ha⟩
    exact ⟨a, OrderedTable.mem_values_iff.2 ⟨_, ha⟩, (h _ a ha).symm⟩
  · rintro ⟨a, ha, hname⟩
    obtain ⟨key, hkey⟩ := OrderedTable.mem_values_iff.1 ha
    have hsame : key = .of name := (h key a hkey).trans hname
    exact ⟨a, hsame ▸ hkey⟩

namespace Generation

/-- The files of a generation in which a name is, beside what a lookup has found for it. -/
structure SeenIn [Symbol α] (g : Generation) (table : FileSymbols → SymbolTable α)
    (name : String) (found : Option α) (files : List FilePath) : Prop where
  /-- There is a file just if there is a symbol. -/
  found : files ≠ [] ↔ found.isSome = true
  /-- The document comes first just if its own table has the name. -/
  root : (∃ p, files.head? = some p ∧ p.same g.file = true) ↔ (table g.symbols).Has name
  /-- Behind it come those imports whose tables have the name, in the order of the imports. -/
  listed : ∃ own imported, files = own ++ imported ∧
    (own = [g.file] ∧ (table g.symbols).Has name ∨ own = [] ∧ ¬ (table g.symbols).Has name) ∧
    imported.Sublist g.imports.paths ∧
    ∀ i ∈ OrderedTable.values g.imports,
      i.path ∈ imported ↔ (table i.parsed.symbols).Has name
  nodup : (files.map FilePath.parts).Nodup

end Generation

namespace Resolver

variable {r : Resolver} {file : FilePath} {g : Generation}

theorem resolution_names (depth : Nat) (d : Xml.Document) (previous : Option Generation) :
    (r.resolution depth file d previous).Yields fun g =>
      g.file = file ∧ g.showPrivate = r.showPrivate := by
  refine Resolution.Yields.bind ((Resolution.yields_any checkpoint).mono fun _ _ => ?_)
  refine Resolution.Yields.bind ((Resolution.yields_any checkpoint).mono fun _ _ => ?_)
  refine Resolution.Yields.bind ((Resolution.yields_any _).mono fun _ _ => ?_)
  refine Resolution.Yields.bind ((Resolution.yields_any checkpoint).mono fun _ _ => ?_)
  exact Resolution.yields_pure ⟨rfl, rfl⟩

/-- A generation is of the file that was resolved, and shows what the resolver shows. -/
theorem Arises.names (h : r.Arises file g) : g.file = file ∧ g.showPrivate = r.showPrivate := by
  cases h with
  | first h => exact (resolution_names _ _ none).runIn _ _ g h
  | next _ h => exact (resolution_names _ _ _).runIn _ _ g h

end Resolver

namespace Generation

variable {g : Generation}

theorem filesSeenIn_eq {table : FileSymbols → SymbolTable α} {kind : SymbolKind} {name : String}
    (g : Generation)
    (hcontains : ∀ s : FileSymbols, s.contains kind name = (table s).contains name) :
    g.filesSeenIn kind name = (if (table g.symbols).contains name then [g.file] else []) ++
      ((OrderedTable.values g.imports).filter fun i =>
        (table i.parsed.symbols).contains name).map (·.path) := by
  unfold filesSeenIn
  simp only [hcontains]

section
variable (h : g.imports.Apart g.file)
include h

/-- Two imports with one path are one. -/
theorem eq_of_path_eq {i j : ResolvedImport} (hi : i ∈ OrderedTable.values g.imports)
    (hj : j ∈ OrderedTable.values g.imports) (hpath : i.path = j.path) : i = j := by
  obtain ⟨k, hk⟩ := OrderedTable.mem_values_iff.1 hi
  obtain ⟨l, hl⟩ := OrderedTable.mem_values_iff.1 hj
  have hkey : k = l := by
    rw [(h k i hk).1, hpath, ← (h l j hl).1]
  rw [hkey, hl] at hk
  exact (Option.some.inj hk).symm

theorem path_mem_filter_iff {i : ResolvedImport} (hi : i ∈ OrderedTable.values g.imports)
    (p : ResolvedImport → Bool) :
    i.path ∈ ((OrderedTable.values g.imports).filter p).map (·.path) ↔ p i = true := by
  rw [List.mem_map]
  constructor
  · rintro ⟨j, hj, hpath⟩
    obtain ⟨hj, hp⟩ := List.mem_filter.1 hj
    rwa [eq_of_path_eq h hj hi hpath] at hp
  · exact fun hp => ⟨i, List.mem_filter.2 ⟨hi, hp⟩, rfl⟩

theorem same_file_of_mem_paths {p : FilePath} (hp : p ∈ g.imports.paths) :
    p.same g.file = false := by
  obtain ⟨i, hi, rfl⟩ := List.mem_map.1 hp
  obtain ⟨k, hk⟩ := OrderedTable.mem_values_iff.1 hi
  exact (h k i hk).2.2

/-- The document in front of some of its imports: no file is there twice. -/
theorem nodup_file_append {own imported : List FilePath} (hown : own.Sublist [g.file])
    (himported : imported.Sublist g.imports.paths) :
    ((own ++ imported).map FilePath.parts).Nodup := by
  have hpaths : (g.imports.paths.map FilePath.parts).Nodup :=
    h.keys_settled.1 ▸ g.imports.nodup
  have hall : (([g.file] ++ g.imports.paths).map FilePath.parts).Nodup := by
    rw [List.singleton_append, List.map_cons, List.nodup_cons]
    refine ⟨fun hfile => ?_, hpaths⟩
    obtain ⟨p, hp, hsame⟩ := List.mem_map.1 hfile
    have hother := same_file_of_mem_paths h hp
    rw [FilePath.same, hsame, beq_self_eq_true] at hother
    cases hother
  exact ((hown.append himported).map FilePath.parts).nodup hall

end

variable [Symbol α] {table : FileSymbols → SymbolTable α} {kind : SymbolKind} {name : String}

theorem seenIn_filesSeenIn (hproper : g.Proper) (hapart : g.imports.Apart g.file)
    (htable : ∀ s : FileSymbols, s.Named → (table s).Keyed)
    (hcontains : ∀ s : FileSymbols, s.contains kind name = (table s).contains name)
    (hvisible : g.isVisible name = true) :
    g.SeenIn table name (g.lookup table name) (g.filesSeenIn kind name) := by
  have hown : (table g.symbols).contains name = true ↔ (table g.symbols).Has name :=
    (htable _ hproper.symbols.named).contains_iff_has name
  have himports : ∀ i ∈ OrderedTable.values g.imports,
      (table i.parsed.symbols).contains name = true ↔ (table i.parsed.symbols).Has name := by
    intro i hi
    exact (htable _ (hproper.of_mem_imports hi).named).contains_iff_has name
  have hlisted : ((OrderedTable.values g.imports).filter fun i =>
      (table i.parsed.symbols).contains name).map (·.path) |>.Sublist g.imports.paths :=
    List.filter_sublist.map _
  rw [filesSeenIn_eq g hcontains]
  refine ⟨?_, ?_, ⟨_, _, rfl, ?_, hlisted, fun i hi => ?_⟩, nodup_file_append hapart ?_ hlisted⟩
  · rw [isSome_lookup_iff hvisible]
    cases (table g.symbols).contains name with
    | true => simp
    | false => simp [List.filter_eq_nil_iff]
  · rw [← hown]
    cases hroot : (table g.symbols).contains name with
    | true => exact iff_of_true ⟨g.file, rfl, beq_self_eq_true _⟩ rfl
    | false =>
      -- The first file is an import then, which the document is not.
      refine iff_of_false ?_ Bool.false_ne_true
      rintro ⟨p, hp, hsame⟩
      have hmem : p ∈ g.imports.paths := hlisted.subset (List.mem_of_mem_head? hp)
      rw [same_file_of_mem_paths hapart hmem] at hsame
      cases hsame
  · rw [← hown]
    cases (table g.symbols).contains name with
    | true => exact Or.inl ⟨rfl, rfl⟩
    | false => exact Or.inr ⟨rfl, Bool.false_ne_true⟩
  · rw [path_mem_filter_iff hapart hi]
    exact himports i hi
  · split
    · exact List.Sublist.refl _
    · exact List.nil_sublist _

end Generation

/-- Whatever generation a resolver gives: for each name that is not private, or that is shown all
the same, the files that mention an item or a task agree with its lookup. -/
theorem Resolver.filesSeenIn_agree {r : Resolver} {file : FilePath} {g : Generation}
    (h : r.Arises file g) {name : String}
    (hname : isPrivateName name = false ∨ r.showPrivate = true) :
    g.file = file ∧
      g.SeenIn (·.items) name (g.item? name) (g.filesSeenIn .item name) ∧
      g.SeenIn (·.tasks) name (g.task? name) (g.filesSeenIn .task name) := by
  obtain ⟨hfile, hshow⟩ := h.names
  have hapart : g.imports.Apart g.file := hfile ▸ h.apart
  have hvisible : g.isVisible name = true := by
    rw [Generation.isVisible, hshow]
    rcases hname with hname | hname <;> simp [hname]
  exact ⟨hfile,
    Generation.seenIn_filesSeenIn h.proper hapart (fun _ => FileSymbols.Named.keyed_items)
      (fun _ => rfl) hvisible,
    Generation.seenIn_filesSeenIn h.proper hapart (fun _ => FileSymbols.Named.keyed_tasks)
      (fun _ => rfl) hvisible⟩

/-- An item that the document and one of its two imports mention, in three spellings. -/
theorem Resolver.filesSeenIn_agree_imported :
    let r : Resolver := ⟨.standard, false⟩
    let file : FilePath := ⟨"/p/a.proj"⟩
    let s := (FileStore.empty.write ⟨"/p/x.props"⟩
      "<Project><ItemGroup><None Include='a' /></ItemGroup></Project>").write ⟨"/p/y.props"⟩
      "<Project><ItemGroup><compile Include='b' /></ItemGroup></Project>"
    let d : Xml.Document := .ofText ("<Project><Import Project='x.props' />" ++
      "<Import Project='y.props' /><ItemGroup><Compile Include='c' /></ItemGroup></Project>")
    ∃ g, (r.resolve file d none s).1 = .ok g ∧
      g.filesSeenIn .item "COMPILE" = [file, ⟨"/p/y.props"⟩] ∧
      g.filesSeenIn .item "Missing" = [] ∧
      (g.item? "COMPILE").isSome = true ∧ g.item? "Missing" = none ∧
      g.symbols.items.Has "COMPILE" := by
  intro r file s d
  have hfiles : (r.resolve file d none s).1.toOption.map (fun g =>
      (g.filesSeenIn .item "COMPILE", g.filesSeenIn .item "Missing")) =
      some ([file, ⟨"/p/y.props"⟩], []) := by
    decide +kernel +revert
  obtain ⟨g, hg, -⟩ := r.exists_resolve file d none s
  rw [hg] at hfiles
  obtain ⟨hseen, hmissing⟩ := Prod.mk.inj (Option.some.inj hfiles)
  have harises : r.Arises file g := .first hg
  have hpublic : isPrivateName "COMPILE" = false ∧ isPrivateName "Missing" = false := by decide
  obtain ⟨hfile, hagree, -⟩ := filesSeenIn_agree harises (Or.inl hpublic.1)
  obtain ⟨-, hagree', -⟩ := filesSeenIn_agree harises (Or.inl hpublic.2)
  have hnone : g.item? "Missing" = none :=
    Option.not_isSome_iff_eq_none.1 fun h => hagree'.found.2 h hmissing
  have hroot : ∃ p, (g.filesSeenIn .item "COMPILE").head? = some p ∧ p.same g.file = true :=
    ⟨file, hseen ▸ rfl, hfile ▸ beq_self_eq_true _⟩
  exact ⟨g, hg, hseen, hmissing, hagree.found.1 (by simp [hseen]), hnone, hagree.root.1 hroot⟩

end ProjectAnalysis
