import ProjectAnalysis.Proofs.OrderedTableLookup
import ProjectAnalysis.Proofs.PropertyReading

/-! Assigned properties. Whatever became known before, the last value that a property was given is
its value, and an import that names it stands for this value alone. Only the properties that stand
for several directories of an installation keep these directories in imports, although they too have
the value that they were given last. -/
namespace ProjectAnalysis

/-- One more thing that imports are evaluated with. -/
inductive Binding
  | project (file : FilePath)
  /-- The file that holds the import. -/
  | file (file : FilePath)
  | property (name value : String)

/-- The directories that a property stands for, if these are several. -/
def Installation.several? (i : Installation) (name : String) : Option (List String) :=
  if (∃ p ∈ extensionProperties, NameKey.of p = NameKey.of name) ∧ 1 < i.extensionPaths.length then
    some (i.extensionPaths.map (·.text))
  else none

namespace Evaluation

def bind (x : Evaluation) : Binding → Evaluation
  | .project file => x.withProject file
  | .file file => x.forFile file
  | .property name value => x.set name value

/-- What imports are evaluated with in an installation, when this became known in turn. -/
def after (i : Installation) (bindings : List Binding) : Evaluation :=
  bindings.foldl bind (ofInstallation i)

variable {name : String}

theorem searchPaths_foldl {α : Type} {f : Evaluation → α → Evaluation}
    (h : ∀ x a, (f x a).searchPaths = x.searchPaths) (steps : List α) (x : Evaluation) :
    (steps.foldl f x).searchPaths = x.searchPaths := by
  induction steps generalizing x with
  | nil => rfl
  | cons a steps ih => rw [List.foldl_cons, ih, h]

theorem searchPaths_bind (x : Evaluation) (b : Binding) : (x.bind b).searchPaths = x.searchPaths := by
  cases b with
  | property name value => rfl
  | project file =>
    rw [bind, withProject]
    exact searchPaths_foldl (fun x a => by rfl) (fileProperties file) x
  | file file =>
    rw [bind, forFile]
    exact searchPaths_foldl (fun x a => by rfl) (fileProperties file) x

/-- The directories to search are those of the installation, whatever became known after it. -/
theorem searchPaths_after (i : Installation) (bindings : List Binding) :
    (after i bindings).searchPaths = (ofInstallation i).searchPaths :=
  searchPaths_foldl searchPaths_bind bindings _

theorem get?_searchPaths_setExtensions (paths : List String) (x : Evaluation)
    (name other : String) : (setExtensions paths x name).searchPaths.get? other =
      if NameKey.of name = NameKey.of other ∧ 1 < paths.length then some paths
      else x.searchPaths.get? other := by
  cases paths with
  | nil => simp [setExtensions]
  | cons first paths =>
    rw [setExtensions]
    dsimp only [set]
    split
    · rename_i hlong
      simp only [SymbolTable.get?, SymbolTable.insert, OrderedTable.get?_insert, hlong, and_true]
    · rename_i hlong
      rw [if_neg fun h => hlong h.2]

/-- In an installation just the properties of its extensions stand for several directories. -/
theorem get?_searchPaths_ofInstallation (i : Installation) (name : String) :
    (ofInstallation i).searchPaths.get? name = i.several? name := by
  have hfold (properties : List String) (x : Evaluation) :
      (properties.foldl (setExtensions (i.extensionPaths.map (·.text))) x).searchPaths.get? name =
        if (∃ p ∈ properties, NameKey.of p = NameKey.of name) ∧ 1 < i.extensionPaths.length then
          some (i.extensionPaths.map (·.text))
        else x.searchPaths.get? name := by
    induction properties generalizing x with
    | nil => simp
    | cons p properties ih =>
      rw [List.foldl_cons, ih, get?_searchPaths_setExtensions]
      by_cases hlong : 1 < i.extensionPaths.length
      · by_cases hp : NameKey.of p = NameKey.of name <;>
          by_cases hmore : ∃ q ∈ properties, NameKey.of q = NameKey.of name <;>
            simp [hlong, hp, hmore]
      · simp [hlong]
  exact hfold _ _

theorem property?_set (x : Evaluation) (name value m : String) :
    (x.set name value).property? m =
      if NameKey.of name = NameKey.of m then some value else x.property? m :=
  OrderedTable.get?_insert ..

theorem several?_congr (i : Installation) {m : String} (h : NameKey.of m = NameKey.of name) :
    i.several? m = i.several? name := by
  simp only [Installation.several?, h]

theorem several?_length {i : Installation} {paths : List String}
    (h : i.several? name = some paths) : 1 < paths.length := by
  unfold Installation.several? at h
  split at h
  · rename_i hlong
    cases h
    rw [List.length_map]
    exact hlong.2
  · cases h

/-- What a property stands for after assignments: the directories of the installation that it
stands for, or else its value. -/
theorem choices_after (i : Installation) (bindings : List Binding) (name : String) :
    ImportPart.choices (after i bindings) (.property name) =
      (i.several? name).getD [((after i bindings).property? name).getD ""] := by
  rw [ImportPart.choices, searchPaths_after, get?_searchPaths_ofInstallation]
  cases i.several? name <;> rfl

/-- An import that is one property stands for what the property may stand for. -/
theorem evaluate_name (x : Evaluation) {name : String} (hname : Expr.IsName name.toList) :
    x.evaluate ("$(" ++ name ++ ")") = .ok (ImportPart.choices x (.property name)) := by
  have htail (sigil : Char) (_ : sigil ∈ ['$', '@', '%']) : ¬[sigil, '('] <:+: ([] : List Char) := by
    simp
  have htext : "$(" ++ name ++ ")" = String.ofList ('$' :: '(' :: (name.toList ++ [')'])) := by
    apply String.toList_inj.1
    simp
  rw [htext, evaluate_name_tail x hname htail, String.ofList_toList]
  simp

/-- After an assignment the property has its value in any spelling of its case, and no other
property changes. An import that is the property alone stands for the value alone, unless the
property stands for several directories of the installation: then it goes on to stand for these. -/
theorem assignment_reads (i : Installation) (bindings : List Binding) (name value : String) :
    let x := after i bindings
    let y := x.set name value
    ∀ m, (NameKey.of m = NameKey.of name →
        y.property? m = some value ∧ (Expr.IsName m.toList →
          (y.evaluate ("$(" ++ m ++ ")") = .ok [value] ↔ i.several? name = none) ∧
          ∀ paths, i.several? name = some paths →
            y.evaluate ("$(" ++ m ++ ")") = .ok paths)) ∧
      (NameKey.of m ≠ NameKey.of name →
        y.property? m = x.property? m ∧ (Expr.IsName m.toList →
          y.evaluate ("$(" ++ m ++ ")") = x.evaluate ("$(" ++ m ++ ")"))) := by
  intro x y m
  have hafter : y = after i (bindings ++ [.property name value]) := by
    rw [after, List.foldl_append]
    rfl
  have hread : y.property? m = if NameKey.of name = NameKey.of m then some value
      else x.property? m := property?_set x name value m
  have hvalue (hm : Expr.IsName m.toList) : y.evaluate ("$(" ++ m ++ ")") =
      .ok ((i.several? m).getD [(y.property? m).getD ""]) := by
    rw [evaluate_name y hm, hafter, choices_after]
  refine ⟨fun hkey => ?_, fun hkey => ?_⟩
  · rw [if_pos hkey.symm] at hread
    refine ⟨hread, fun hm => ?_⟩
    rw [hvalue hm, several?_congr i hkey, hread]
    refine ⟨?_, fun paths hpaths => by rw [hpaths]; rfl⟩
    cases hpaths : i.several? name with
    | none => simp
    | some paths =>
      have hlong := several?_length hpaths
      simp only [Option.getD_some, reduceCtorEq, iff_false]
      rintro ⟨⟩
      exact absurd hlong (by simp)
  · rw [if_neg (Ne.symm hkey)] at hread
    refine ⟨hread, fun hm => ?_⟩
    rw [hvalue hm, hread, evaluate_name x hm, choices_after]

/-- Where extensions have two directories, an import goes on to search both of them. -/
theorem assignment_reads_extensions :
    let i := { Installation.standard with extensionPaths := [⟨"/a"⟩, ⟨"/b"⟩] }
    let x := after i [.file ⟨"/src/a.proj"⟩]
    let y := x.set "MSBuildExtensionsPath" "/v"
    NameKey.of "msbuildextensionspath" = NameKey.of "MSBuildExtensionsPath" ∧
      NameKey.of "MSBuildToolsPath" ≠ NameKey.of "MSBuildExtensionsPath" ∧
      y.property? "msbuildextensionspath" = some "/v" ∧
      y.evaluate "$(msbuildextensionspath)" = .ok ["/a", "/b"] ∧
      y.evaluate "$(MSBuildToolsPath)" = x.evaluate "$(MSBuildToolsPath)" := by
  intro i x y
  have hkey : NameKey.of "msbuildextensionspath" = NameKey.of "MSBuildExtensionsPath" := by
    decide +kernel
  have hother : NameKey.of "MSBuildToolsPath" ≠ NameKey.of "MSBuildExtensionsPath" := by
    decide +kernel
  have hreads := assignment_reads i [.file ⟨"/src/a.proj"⟩] "MSBuildExtensionsPath" "/v"
  obtain ⟨hread, himport⟩ := (hreads "msbuildextensionspath").1 hkey
  obtain ⟨-, hsame⟩ := (hreads "MSBuildToolsPath").2 hother
  exact ⟨hkey, hother, hread, (himport (by decide +kernel)).2 ["/a", "/b"] (by decide +kernel),
    hsame (by decide +kernel)⟩

end Evaluation

end ProjectAnalysis
