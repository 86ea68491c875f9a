import Mathlib.Data.List.TakeDrop
import Mathlib.Data.List.TakeWhile
import ProjectAnalysis.ImportSite
import ProjectAnalysis.Proofs.PathDirectory
import ProjectAnalysis.Proofs.PropertyAssignment

/-! The properties of a file. The name in front of the extension and the extension are the whole
name, and the directory with the name behind it is the file again, unless the file is named alone
and so has no directory. An import that names its own directory is still taken from there, so it
leads beside its file only if the directory leads from itself to itself. -/
namespace ProjectAnalysis

/-- The extension with its dot. -/
def FilePath.dotted : Option (List Char) → List Char
  | some extension => '.' :: extension
  | none => []

/-- The stem and the extension are the file name again. -/
theorem FilePath.splitExtension_append (name : List Char) :
    (FilePath.splitExtension name).1 ++ FilePath.dotted (FilePath.splitExtension name).2 = name := by
  have hall : name.reverse.takeWhile (· != '.') ++ name.reverse.dropWhile (· != '.') =
      name.reverse := List.takeWhile_append_dropWhile
  rw [FilePath.splitExtension, List.span_eq_takeWhile_dropWhile]
  split
  · exact List.append_nil name
  · exact List.append_nil name
  · rename_i after dot before _ heq
    obtain ⟨rfl, hdrop⟩ := Prod.mk.inj heq
    have hdot : dot = '.' := by
      have hhead := List.head?_dropWhile_not (· != '.') name.reverse
      rw [hdrop] at hhead
      simpa using hhead
    rw [hdrop, hdot] at hall
    have hname := congrArg List.reverse hall
    rw [List.reverse_append, List.reverse_cons, List.reverse_reverse, List.append_assoc] at hname
    exact hname

/-- What some of the properties of a file say. -/
structure FileValues where
  directory : String
  file : String
  stem : String
  extension : String

/-- What the path of a file in a directory says. -/
def FileValues.ofName (dir : FilePath) (name : List Char) : FileValues where
  directory := String.ofList (FilePath.asDirectory dir.text.toList)
  file := String.ofList name
  stem := String.ofList (FilePath.splitExtension name).1
  extension := String.ofList (FilePath.dotted (FilePath.splitExtension name).2)

namespace Evaluation

/-- The properties of a file have these values. The names begin with that of their family, and the
file name has a name of its own. -/
structure Shows (x : Evaluation) (family file : String) (v : FileValues) : Prop where
  directory : x.property? (family ++ "Directory") = some v.directory
  file : x.property? file = some v.file
  stem : x.property? (family ++ "Name") = some v.stem
  extension : x.property? (family ++ "Extension") = some v.extension

section
variable {naming : String → String} {pairs : List (String × String)} {name value : String}

theorem property?_foldl_set_of_not_mem
    (h : NameKey.of name ∉ pairs.map fun p => NameKey.of (naming p.1)) (x : Evaluation) :
    (pairs.foldl (fun x p => x.set (naming p.1) p.2) x).property? name = x.property? name := by
  induction pairs generalizing x with
  | nil => rfl
  | cons p pairs ih =>
    rw [List.map_cons, List.mem_cons, not_or] at h
    rw [List.foldl_cons, ih h.2, property?_set, if_neg (Ne.symm h.1)]

/-- Of several assignments to names that are told apart each one holds. -/
theorem property?_foldl_set (hkeys : (pairs.map fun p => NameKey.of (naming p.1)).Nodup)
    (h : (name, value) ∈ pairs) (x : Evaluation) :
    (pairs.foldl (fun x p => x.set (naming p.1) p.2) x).property? (naming name) = some value := by
  induction pairs generalizing x with
  | nil => cases h
  | cons p pairs ih =>
    rw [List.map_cons, List.nodup_cons] at hkeys
    rw [List.foldl_cons]
    rcases List.mem_cons.1 h with rfl | h
    · rw [property?_foldl_set_of_not_mem hkeys.1, property?_set, if_pos rfl]
    · exact ih hkeys.2 h _

/-- The ends of the names of the properties of a file. -/
def fileEnds : List String :=
  ["Directory", "DirectoryNoRoot", "File", "FullPath", "Name", "Extension"]

variable {f dir : FilePath} {file : List Char}

/-- What is assigned of a file under names that are told apart is what its path says. -/
theorem property?_foldl_fileProperties (hkeys : (fileEnds.map fun n => NameKey.of (naming n)).Nodup)
    (hname : f.fileName? = some file) (hparent : f.parent? = some dir) (x : Evaluation) :
    let y := (fileProperties f).foldl (fun x p => x.set (naming p.1) p.2) x
    let v := FileValues.ofName dir file
    y.property? (naming "Directory") = some v.directory ∧
      y.property? (naming "File") = some v.file ∧
      y.property? (naming "Name") = some v.stem ∧
      y.property? (naming "Extension") = some v.extension := by
  -- Of the path only the directory and the file name count, besides its text.
  have hpairs : fileProperties f = [("Directory", (FileValues.ofName dir file).directory),
      ("DirectoryNoRoot", String.ofList
        ((FilePath.asDirectory dir.text.toList).dropWhile (· == '/'))),
      ("File", (FileValues.ofName dir file).file), ("FullPath", f.text),
      ("Name", (FileValues.ofName dir file).stem),
      ("Extension", (FileValues.ofName dir file).extension)] := by
    rw [fileProperties, hname, hparent]
    rfl
  have hread {name value : String} (h : (name, value) ∈ fileProperties f) :
      ((fileProperties f).foldl (fun x p => x.set (naming p.1) p.2) x).property? (naming name) =
        some value := by
    refine property?_foldl_set ?_ h x
    rw [hpairs]
    exact hkeys
  refine ⟨hread ?_, hread ?_, hread ?_, hread ?_⟩ <;> simp [hpairs]

theorem shows_withProject (hname : f.fileName? = some file) (hparent : f.parent? = some dir)
    (x : Evaluation) :
    (x.withProject f).Shows "MSBuildProject" "MSBuildProjectFile" (.ofName dir file) := by
  have hkeys : (fileEnds.map fun n => NameKey.of ("MSBuildProject" ++ n)).Nodup := by
    decide +kernel
  obtain ⟨hdirectory, hfile, hstem, hextension⟩ :=
    property?_foldl_fileProperties hkeys hname hparent x
  exact ⟨hdirectory, hfile, hstem, hextension⟩

theorem shows_forFile (hname : f.fileName? = some file) (hparent : f.parent? = some dir)
    (x : Evaluation) :
    (x.forFile f).Shows "MSBuildThisFile" "MSBuildThisFile" (.ofName dir file) := by
  let naming (n : String) := if n = "File" then "MSBuildThisFile" else "MSBuildThisFile" ++ n
  have hkeys : (fileEnds.map fun n => NameKey.of (naming n)).Nodup := by
    decide +kernel
  obtain ⟨hdirectory, hfile, hstem, hextension⟩ :=
    property?_foldl_fileProperties hkeys hname hparent x
  -- Only the file name has no end of its own behind the name of the family.
  have hnaming {n : String} (h : n ≠ "File") : naming n = "MSBuildThisFile" ++ n := if_neg h
  rw [hnaming (by decide)] at hdirectory hstem hextension
  exact ⟨hdirectory, hfile, hstem, hextension⟩

end

end Evaluation

section
open FilePath
variable {next : List Char}

/-- Text that ends without a blank is not trimmed at its end, whatever stands in front. -/
theorem trimEnd_append (hnext : next ≠ []) (h : trimEnd next = next) (front : List Char) :
    trimEnd (front ++ next) = front ++ next := by
  have hkept : next.reverse.dropWhile isBlank = next.reverse := by
    rw [← List.reverse_inj, List.reverse_reverse]
    exact h
  rw [trimEnd, List.reverse_append, List.dropWhile_append, hkept, if_neg (by simpa using hnext),
    ← List.reverse_append, List.reverse_reverse]

/-- Blanks are trimmed in front of a separator only. -/
theorem exists_trimStart (front : List Char) :
    ∃ rest, ∀ next, trimStart (front ++ '/' :: next) = rest ++ '/' :: next := by
  induction front with
  | nil => exact ⟨[], fun _ => rfl⟩
  | cons c front ih =>
    by_cases hblank : isBlank c = true
    · obtain ⟨rest, h⟩ := ih
      refine ⟨rest, ?_⟩
      simpa only [trimStart, List.cons_append, List.dropWhile_cons_of_pos hblank] using h
    · refine ⟨c :: front, ?_⟩
      simp only [trimStart, List.cons_append, List.dropWhile_cons_of_neg hblank, implies_true]

/-- Trimming a directory and a name behind it is trimming the directory, which stays one. -/
theorem trim_asDirectory (text : List Char) : asDirectory (trim (asDirectory text)) =
    trim (asDirectory text) ∧ ∀ next, next ≠ [] → trimEnd next = next →
      trim (asDirectory text ++ next) = trim (asDirectory text) ++ next := by
  obtain ⟨front, hfront⟩ := exists_asDirectory text
  obtain ⟨rest, hrest⟩ := exists_trimStart front
  have hslash : trim (asDirectory text) = rest ++ ['/'] := by
    rw [hfront, trim, hrest]
    exact trimEnd_append (List.cons_ne_nil _ _) rfl rest
  refine ⟨?_, fun next hne hnext => ?_⟩
  · rw [hslash]
    exact if_pos List.getLast?_concat
  · rw [hslash, hfront, List.append_assoc, List.singleton_append, trim, hrest,
      ← List.singleton_append, ← List.append_assoc, trimEnd_append hne hnext]

theorem isWildcard_append (a b : List Char) :
    isWildcard (String.ofList (a ++ b)) =
      (isWildcard (String.ofList a) || isWildcard (String.ofList b)) := by
  simp only [isWildcard, String.toList_ofList, List.any_append]

theorem isWildcard_asDirectory (text : List Char) :
    isWildcard (String.ofList (asDirectory text)) = isWildcard (String.ofList text) := by
  unfold asDirectory
  split
  · rfl
  · rw [isWildcard_append]
    exact Bool.or_false _

theorem trim_ne_nil {c : Char} (h : isBlank c = false) (cs : List Char) : trim (c :: cs) ≠ [] := by
  have hstart : trimStart (c :: cs) = c :: cs := List.dropWhile_cons_of_neg (by simp [h])
  rw [trim, hstart, trimEnd, ne_eq, List.reverse_eq_nil_iff]
  intro hnil
  have hall := List.dropWhile_eq_nil_iff.1 hnil
  have hc := hall c (List.mem_reverse.2 List.mem_cons_self)
  rw [h] at hc
  cases hc

end

/-- The name of a file as an import may give it: no pattern, nothing to evaluate and no blanks to
trim at its end. -/
structure IsImportName (name : List Char) : Prop where
  fileName : FilePath.IsFileName name
  noPattern : isWildcard (String.ofList name) = false
  noReference : ∀ sigil ∈ ['$', '@', '%'], ¬[sigil, '('] <:+: name
  noBlankEnd : trimEnd name = name

namespace Evaluation

/-- The directory of the file that holds the import is never one of several. -/
theorem evaluate_thisFileDirectory (i : Installation) (bindings : List Binding) {f dir : FilePath}
    {file next : List Char} (hname : f.fileName? = some file) (hparent : f.parent? = some dir)
    (hnext : ∀ sigil ∈ ['$', '@', '%'], ¬[sigil, '('] <:+: next) :
    ((after i bindings).forFile f).evaluate
        (String.ofList ("$(MSBuildThisFileDirectory)".toList ++ next)) =
      .ok [String.ofList (FilePath.asDirectory dir.text.toList ++ next)] := by
  let name := "MSBuildThisFileDirectory"
  have hread : ((after i bindings).forFile f).property? name =
      some (FileValues.ofName dir file).directory :=
    (shows_forFile hname hparent _).directory
  have hafter : (after i bindings).forFile f = after i (bindings ++ [.file f]) := by
    rw [after, after, List.foldl_append, List.foldl_cons, List.foldl_nil, bind]
  have hone : i.several? name = none := by
    have hother : ¬∃ p ∈ Installation.extensionProperties, NameKey.of p = NameKey.of name := by
      decide +kernel
    exact if_neg fun h => hother h.1
  have htext : "$(MSBuildThisFileDirectory)".toList = '$' :: '(' :: (name.toList ++ [')']) := by
    decide +kernel
  rw [htext, List.cons_append, List.cons_append, List.append_assoc, List.singleton_append,
    evaluate_name_tail _ (by decide +kernel) hnext, String.ofList_toList]
  rw [hafter] at hread ⊢
  rw [choices_after, hone, hread, Option.getD_none, Option.getD_some, List.map_singleton,
    String.ofList_append]
  rfl

end Evaluation

namespace ImportScope

open FilePath

/-- An import of a name in the directory of its file leads beside the file just if no part of the
directory is a pattern and the directory, as the file names it, leads from itself to itself. -/
theorem target_thisFileDirectory (i : Installation) (bindings : List Binding)
    {f dir : FilePath} {file next : List Char} (hname : f.fileName? = some file)
    (hparent : f.parent? = some dir) (hnext : IsImportName next) :
    (ofFile i (Evaluation.after i bindings) f).target
        (String.ofList ("$(MSBuildThisFileDirectory)".toList ++ next)) none =
          .candidates [resolve (some dir) (String.ofList next)] ↔
      isWildcard dir.text = false ∧
        resolve (some dir) (String.ofList (trim (asDirectory dir.text.toList))) =
          normalize dir.text := by
  have hne : next ≠ [] := hnext.fileName.1.1
  obtain ⟨hdirectory, htrim⟩ := trim_asDirectory dir.text.toList
  have hpattern : isWildcard (String.ofList (asDirectory dir.text.toList ++ next)) =
      isWildcard dir.text := by
    rw [isWildcard_append, hnext.noPattern, Bool.or_false, isWildcard_asDirectory,
      String.ofList_toList]
  have hvalue := Evaluation.evaluate_thisFileDirectory i bindings hname hparent hnext.noReference
  have hbeside : resolve (some dir) (String.ofList (trim (asDirectory dir.text.toList ++ next))) =
      resolve (some dir) (String.ofList next) ↔
        resolve (some dir) (String.ofList (trim (asDirectory dir.text.toList))) =
          normalize dir.text := by
    rw [htrim next hne hnext.noBlankEnd, ← hdirectory]
    exact resolve_append_eq_iff hnext.fileName
  have hwritten : (trim ("$(MSBuildThisFileDirectory)".toList ++ next)).isEmpty = false := by
    rw [List.isEmpty_eq_false_iff]
    exact trim_ne_nil (c := '$') rfl _
  rw [← hbeside, target, String.toList_ofList, hwritten, if_neg Bool.false_ne_true, ofFile]
  dsimp only
  rw [hvalue]
  dsimp only
  rw [List.any_cons, List.any_nil, Bool.or_false, hpattern, hparent]
  cases isWildcard dir.text with
  | true => simp
  | false => simp [candidates]

end ImportScope

section
open FilePath Evaluation

/-- A directory below the root leads to itself, from wherever it is taken. -/
theorem resolve_asDirectory {f dir : FilePath} (habsolute : f.isAbsolute = true)
    (hbegins : dir.text.toList <+: f.text.toList) (hne : dir.text.toList ≠ []) :
    resolve (some dir) (String.ofList (trim (asDirectory dir.text.toList))) =
      normalize dir.text := by
  obtain ⟨rest, hrest⟩ : ∃ rest, dir.text.toList = '/' :: rest := by
    rw [isAbsolute, beq_iff_eq] at habsolute
    obtain ⟨back, hback⟩ := hbegins
    cases hdir : dir.text.toList with
    | nil => exact absurd hdir hne
    | cons c rest =>
      rw [← hback, hdir] at habsolute
      exact ⟨rest, by rw [Option.some.inj habsolute]⟩
  have hroot : rootOf (asDirectory dir.text.toList) = [.root] := by
    rw [rootOf_asDirectory hne, hrest]
    rfl
  have hkept : trim (asDirectory dir.text.toList) = asDirectory dir.text.toList := by
    have hstart : trimStart (asDirectory dir.text.toList) = asDirectory dir.text.toList := by
      rw [hrest, asDirectory]
      split <;> rfl
    obtain ⟨front, hfront⟩ := exists_asDirectory dir.text.toList
    rw [trim, hstart, hfront]
    exact trimEnd_append (List.cons_ne_nil _ _) rfl front
  rw [hkept, resolve_of_root (by rwa [String.toList_ofList]), normalize_eq_settle,
    String.toList_ofList, rootOf_asDirectory hne, stepsIn_asDirectory, ← normalize_eq_settle]

/-- The properties of a file and those of a project say the same of it: the stem and the extension
are its name again. The directory and the name are the file again, unless it has no directory and
is not below the root. An import of a name in the directory of its file leads beside the file just
if the directory leads to itself, as each one below the root does, and is no pattern. -/
theorem file_properties_recompose (i : Installation) (bindings : List Binding) {f : FilePath}
    {name : List Char} (hname : f.fileName? = some name) :
    let x := after i bindings
    ∃ dir v, f.parent? = some dir ∧
      (x.forFile f).Shows "MSBuildThisFile" "MSBuildThisFile" v ∧
      (x.withProject f).Shows "MSBuildProject" "MSBuildProjectFile" v ∧
      v.file = String.ofList name ∧ v.stem ++ v.extension = v.file ∧
      (normalize (v.directory ++ v.file) = normalize f.text ↔
        dir.text ≠ "" ∨ (normalize f.text).isAbsolute = true) ∧
      let directory := resolve (some dir) (String.ofList (trim v.directory.toList))
      (f.isAbsolute = true → directory = normalize dir.text) ∧
        ∀ next, IsImportName next → ((ImportScope.ofFile i x f).target
            (String.ofList ("$(MSBuildThisFileDirectory)".toList ++ next)) none =
              .candidates [resolve (some dir) (String.ofList next)] ↔
            isWildcard dir.text = false ∧ directory = normalize dir.text) := by
  intro x
  obtain ⟨dir, hparent, hbegins, hbelow, hsteps⟩ := exists_parent hname
  have hfile : (FileValues.ofName dir name).directory.toList = asDirectory dir.text.toList :=
    String.toList_ofList
  refine ⟨dir, .ofName dir name, hparent, shows_forFile hname hparent x,
    shows_withProject hname hparent x, rfl, ?_, ?_, fun habsolute => ?_, fun next hnext => ?_⟩
  · change String.ofList _ ++ String.ofList _ = String.ofList name
    rw [← String.ofList_append, splitExtension_append]
  · change normalize (String.ofList _ ++ String.ofList name) = _ ↔ _
    rw [← String.ofList_append]
    exact normalize_recompose hbegins hsteps
  · rw [hfile]
    exact resolve_asDirectory habsolute hbegins (hbelow habsolute)
  · rw [hfile]
    exact ImportScope.target_thisFileDirectory i bindings hname hparent hnext

/-- An import of a name in the directory of its file leads beside the file if this is below the
root, but not if it is given by a path from elsewhere. A file that is named alone is not put
together again at all. -/
theorem file_properties_recompose_props :
    let x := after .standard []
    let target (f : FilePath) := (ImportScope.ofFile .standard x f).target
      (String.ofList ("$(MSBuildThisFileDirectory)".toList ++ "x.props".toList)) none
    (⟨"/src/build/a.props"⟩ : FilePath).fileName? = some "a.props".toList ∧
      IsImportName "x.props".toList ∧
      target ⟨"/src/build/a.props"⟩ = .candidates [⟨"/src/build/x.props"⟩] ∧
      target ⟨"build/a.props"⟩ ≠ .candidates [⟨"build/x.props"⟩] ∧
      ∀ v, (x.forFile ⟨"a.props"⟩).Shows "MSBuildThisFile" "MSBuildThisFile" v →
        normalize (v.directory ++ v.file) ≠ normalize "a.props" := by
  intro x target
  have hnext : IsImportName "x.props".toList := by
    have hparen : '(' ∉ "x.props".toList := by decide +kernel
    refine ⟨⟨?_, by decide +kernel⟩, by decide +kernel, fun sigil _ hpart => ?_,
      by decide +kernel⟩
    · exact ⟨by decide +kernel, by decide +kernel, by decide +kernel, by decide +kernel⟩
    · exact hparen (hpart.subset (List.mem_cons_of_mem sigil List.mem_cons_self))
  have hname : (⟨"/src/build/a.props"⟩ : FilePath).fileName? = some "a.props".toList := by
    decide +kernel
  have hname' : (⟨"build/a.props"⟩ : FilePath).fileName? = some "a.props".toList := by
    decide +kernel
  refine ⟨hname, hnext, ?_, fun h => ?_, fun v hv => ?_⟩
  · obtain ⟨dir, v, hparent, -, -, -, -, -, hleads, hbeside⟩ :=
      file_properties_recompose .standard [] hname
    obtain rfl : dir = ⟨"/src/build"⟩ := Option.some.inj (hparent.symm.trans (by decide +kernel))
    refine ((hbeside _ hnext).2 ⟨by decide +kernel, hleads rfl⟩).trans ?_
    decide +kernel
  · obtain ⟨dir, v, hparent, hshows, -, -, -, -, -, hbeside⟩ :=
      file_properties_recompose .standard [] hname'
    obtain rfl : dir = ⟨"build"⟩ := Option.some.inj (hparent.symm.trans (by decide +kernel))
    have hdirectory : v.directory = "build/" :=
      Option.some.inj (hshows.directory.symm.trans (by decide +kernel))
    have hleads := ((hbeside _ hnext).1 (h.trans (by decide +kernel))).2
    rw [hdirectory] at hleads
    exact absurd hleads (by decide +kernel)
  · have hdirectory : v.directory = "/" :=
      Option.some.inj (hv.directory.symm.trans (by decide +kernel))
    have hfile : v.file = "a.props" := Option.some.inj (hv.file.symm.trans (by decide +kernel))
    rw [hdirectory, hfile]
    decide +kernel

end

end ProjectAnalysis
