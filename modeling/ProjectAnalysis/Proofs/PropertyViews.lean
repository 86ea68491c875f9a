import Mathlib.Data.List.Basic
import ProjectAnalysis.Proofs.PrivateSymbols

/-! The two ways to ask for a property. The table of all properties starts from the well-known ones,
and there these come first; a single lookup asks the files first. So the two differ on a well-known
property that some file declares: the lookup then gives it as one of the files, with no description
and no flag. -/
namespace ProjectAnalysis

/-- Every property of the file is one that is known by its name only. -/
structure FileSymbols.Plain (s : FileSymbols) : Prop where
  named : s.Named
  properties : s.properties.All fun _ p => p = .named p.name

/-- The document or one of its imports has the property. -/
def Generation.Declares (g : Generation) (name : String) : Prop :=
  g.symbols.properties.contains name = true ∨
    ∃ i ∈ OrderedTable.values g.imports, i.parsed.symbols.properties.contains name = true

/-- What is well known is marked so. -/
theorem Builtins.wellKnown_of_get? {v : ToolsVersion} {name : String} {p : PropertyInfo}
    (h : (of v).properties.get? name = some p) : p.wellKnown = true := by
  have hall : (of v).properties.All fun _ p => p.wellKnown = true :=
    (SymbolTable.all_empty _).foldl_insert BuiltinProperty.name _ _ fun _ => rfl
  exact hall _ p h

namespace FileSymbols

variable {s previous : FileSymbols}

theorem note_plain (h : s.Plain) (m : Mention) : (s.note m).Plain := by
  refine ⟨note_named h.named m, ?_⟩
  cases m with
  | property name => exact h.properties.insertNew rfl
  | item _ | metadata _ _ | task _ | parameter _ _ => exact h.properties

theorem ofDocument_plain (b : Builtins) (x : ImportScope) (d : Xml.Document) :
    (ofDocument b x d).Plain := by
  have hfold (mentions : List Mention) (s : FileSymbols) (h : s.Plain) :
      (mentions.foldl note s).Plain := by
    induction mentions generalizing s with
    | nil => exact h
    | cons m mentions ih => exact ih (s.note m) (note_plain h m)
  have hempty : Plain empty :=
    ⟨⟨SymbolTable.all_empty _, SymbolTable.all_empty _, SymbolTable.all_empty _⟩,
      SymbolTable.all_empty _⟩
  exact ⟨ofDocument_named b x d, (hfold _ _ hempty).properties⟩

theorem Plain.merge (h : s.Plain) (hprevious : previous.Plain) : (s.merge previous).Plain :=
  ⟨merge_named h.named hprevious.named,
    h.properties.merge hprevious.properties (fun _ _ _ hp _ => hp)
      (s.get?_properties_merge hprevious.named)⟩

end FileSymbols

/-- Of several views of a property the first one counts. -/
theorem mergeAll?_properties (views : List PropertyInfo) : mergeAll? views = views.head? := by
  cases views with
  | nil => rfl
  | cons p more => exact congrArg some (List.foldl_fixed more)

namespace Generation

variable {g : Generation} {name : String}

/-- In the table of all properties a well-known one is in front of those of the files. -/
theorem Proper.get?_properties (h : g.Proper) (name : String) : (g.properties true).get? name =
    (g.builtins.properties.get? name).or ((g.properties false).get? name) := by
  obtain ⟨hown, himports⟩ := h.keyed fun _ => FileSymbols.Named.keyed_properties
  rw [properties, properties, get?_merged hown himports, get?_merged hown himports,
    mergeAll?_properties, mergeAll?_properties, List.head?_append, List.head?_append]
  have hempty : (SymbolTable.get? (.empty : SymbolTable PropertyInfo) name).toList.head? = none :=
    rfl
  rw [if_pos rfl, if_neg Bool.false_ne_true, hempty, Option.none_or, Option.head?_toList]

/-- What the table has without the well-known properties is the first view of the name. -/
theorem Proper.get?_filesProperties (h : g.Proper) (name : String) :
    (g.properties false).get? name = (g.views (·.properties) name).head? := by
  obtain ⟨hown, himports⟩ := h.keyed fun _ => FileSymbols.Named.keyed_properties
  rw [properties, get?_merged hown himports, mergeAll?_properties]
  rfl

/-- No well-known name is private, so whatever file declares it, it is seen. -/
theorem isVisible_of_isProperty (h : g.builtins.isProperty name = true) :
    g.isVisible name = true := by
  unfold isVisible
  cases hprivate : isPrivateName name with
  | false => exact Bool.or_true _
  | true =>
    have hunknown := (Builtins.not_contains_of_private g.toolsVersion hprivate).1
    exact absurd (hunknown.symm.trans h) Bool.false_ne_true

/-- A property that may be seen is in the table just if some file declares it. -/
theorem Proper.isSome_properties_iff (h : g.Proper) (hvisible : g.isVisible name = true) :
    ((g.properties false).get? name).isSome = true ↔ g.Declares name := by
  obtain ⟨hown, himports⟩ := h.keyed fun _ => FileSymbols.Named.keyed_properties
  have hlookup : (g.properties false).get? name = g.lookup (·.properties) name :=
    (lookup_eq_get?_merged hown himports name).symm
  rw [hlookup, Declares, isSome_lookup_iff hvisible]

/-- A property that the files give is known by its name only. -/
theorem Proper.plain_of_get? (h : g.Proper) (hplain : g.All FileSymbols.Plain) {p : PropertyInfo}
    (hp : (g.properties false).get? name = some p) :
    p = .named p.name ∧ NameKey.of p.name = .of name := by
  have hfile {s : FileSymbols} (hs : s.Plain) (hp : s.properties.get? name = some p) :
      p = .named p.name ∧ NameKey.of p.name = .of name :=
    ⟨hs.properties (.of name) p hp, (hs.named.properties (.of name) p hp).symm⟩
  rw [h.get?_filesProperties] at hp
  rcases mem_views.1 (List.mem_of_mem_head? hp) with hown | ⟨-, i, hi, himported⟩
  · exact hfile hplain.1 hown
  · exact hfile (hplain.of_mem_imports hi) himported

end Generation

/-- Whatever generation a resolver gives, a lookup and the table of all properties have the same
under a name, unless it is a well-known one that some file declares. There the table has the
well-known property, and the lookup one that is known by its name only. -/
theorem Resolver.property_views_agree_iff {r : Resolver} {file : FilePath} {g : Generation}
    (h : r.Arises file g) (name : String) :
    (g.property? name = (g.properties true).get? name ↔
        ¬(g.builtins.isProperty name = true ∧ g.Declares name)) ∧
      ∀ b, g.builtins.properties.get? name = some b → g.Declares name →
        b.wellKnown = true ∧ (g.properties true).get? name = some b ∧
          ∃ n, NameKey.of n = .of name ∧ g.property? name = some (.named n) := by
  have hproper := h.proper
  have hplain : g.All FileSymbols.Plain := h.all FileSymbols.ofDocument_plain fun _ _ => .merge
  have hisProperty : g.builtins.isProperty name = (g.builtins.properties.get? name).isSome := rfl
  rw [hproper.property?_eq, hproper.get?_properties]
  cases hbuiltin : g.builtins.properties.get? name with
  | none =>
    rw [hbuiltin] at hisProperty
    refine ⟨?_, nofun⟩
    rw [hisProperty, Option.or_none, Option.none_or]
    exact ⟨fun _ hboth => (nomatch hboth.1), fun _ => rfl⟩
  | some b =>
    rw [hbuiltin] at hisProperty
    have hknown := Builtins.wellKnown_of_get? hbuiltin
    have hdeclared :=
      hproper.isSome_properties_iff (Generation.isVisible_of_isProperty hisProperty)
    rw [← hdeclared, hisProperty, Option.some_or]
    cases hfiles : (g.properties false).get? name with
    | none => exact ⟨⟨fun _ hboth => (nomatch hboth.2), fun _ => rfl⟩, fun _ _ h => nomatch h⟩
    | some p =>
      obtain ⟨hp, hkey⟩ := hproper.plain_of_get? hplain hfiles
      rw [Option.some_or]
      constructor
      · -- The two differ in the mark of what is well known.
        have hne : p ≠ b := by
          rintro rfl
          rw [hp] at hknown
          exact Bool.false_ne_true hknown
        exact ⟨fun heq => absurd (Option.some.inj heq) hne, fun hnot => absurd ⟨rfl, rfl⟩ hnot⟩
      · intro b' hb' _
        obtain rfl := Option.some.inj hb'
        exact ⟨hknown, rfl, p.name, hkey, congrArg some hp⟩

/-- A document that declares a well-known property and one of its own. -/
theorem Resolver.property_views_agree_iff_declared :
    let r : Resolver := ⟨.standard, false⟩
    let d : Xml.Document := .ofText ("<Project><PropertyGroup><msbuildbinpath>x</msbuildbinpath>" ++
      "<Own>y</Own></PropertyGroup></Project>")
    ∃ g, (r.resolve ⟨"/p/a.proj"⟩ d none .empty).1 = .ok g ∧
      g.property? "Own" = (g.properties true).get? "Own" ∧
      g.property? "MSBuildBinPath" ≠ (g.properties true).get? "MSBuildBinPath" := by
  intro r d
  have hread : (r.resolve ⟨"/p/a.proj"⟩ d none .empty).1.toOption.map (fun g =>
      (g.builtins.isProperty "Own", g.builtins.isProperty "MSBuildBinPath",
        g.symbols.properties.contains "MSBuildBinPath")) = some (false, true, true) := by
    decide +kernel +revert
  obtain ⟨g, hg, -⟩ := r.exists_resolve ⟨"/p/a.proj"⟩ d none .empty
  have harises : r.Arises ⟨"/p/a.proj"⟩ g := .first hg
  rw [hg] at hread
  obtain ⟨hown, hrest⟩ := Prod.mk.inj (Option.some.inj hread)
  obtain ⟨hknown, hcontains⟩ := Prod.mk.inj hrest
  refine ⟨g, hg, (property_views_agree_iff harises "Own").1.2 ?_, fun hsame => ?_⟩
  · intro hboth
    exact Bool.false_ne_true (hown.symm.trans hboth.1)
  · exact (property_views_agree_iff harises "MSBuildBinPath").1.1 hsame ⟨hknown, Or.inl hcontains⟩

end ProjectAnalysis
