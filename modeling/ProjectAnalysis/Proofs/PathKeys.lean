import ProjectAnalysis.Proofs.ImportedOnce
import ProjectAnalysis.Proofs.PathDirectory

/-! Paths as keys. A path that was worked off has one form: its parts are the root, levels up and
then names, and reading its text gives these parts again. All paths that imports lead to and all
paths that stand as keys in a generation were worked off. -/
namespace ProjectAnalysis

/-- A level up never comes behind a name. -/
def PathPart.UpFirst (a b : PathPart) : Prop :=
  ∀ name, a = .name name → b ≠ .up

namespace FilePath

variable {steps : List PathPart}

theorem upFirst_settle (steps : List PathPart) : (settle steps).Pairwise PathPart.UpFirst := by
  rw [settle, Way.stack, List.reverse_append, List.reverse_replicate, ← List.map_reverse,
    List.pairwise_append]
  refine ⟨?_, ?_, ?_⟩
  · exact List.pairwise_replicate.2 (Or.inr fun _ h => PathPart.noConfusion h)
  · exact List.pairwise_map.2 (List.pairwise_of_forall fun _ _ _ _ => PathPart.noConfusion)
  · intro a ha b _ name hname
    cases (List.eq_of_mem_replicate ha).symm.trans hname

theorem backslash_not_mem_written (text : String) : '\\' ∉ (written text).text.toList := by
  rw [written_text]
  intro h
  obtain ⟨c, -, hc⟩ := List.mem_map.1 h
  unfold slash at hc
  split at hc
  · cases hc
  · exact absurd hc ‹_›

theorem dot_not_mem_splitAt (h : ∀ part ∈ steps, part.IsStep) :
    ['.'] ∉ splitAt '/' (joinWith ['/'] (steps.map PathPart.text)) := by
  by_cases hne : steps = []
  · subst hne
    decide
  · rw [splitAt_join_steps hne h]
    intro hdot
    obtain ⟨part, hpart, htext⟩ := List.mem_map.1 hdot
    have hidle := (isStep_text (h part hpart)).1
    rw [htext] at hidle
    cases hidle

/-- The form of a path that was worked off: neither its text nor its parts hold any detour. -/
theorem normalize_noDetour (text : String) :
    '\\' ∉ (normalize text).text.toList ∧ ['.'] ∉ splitAt '/' (normalize text).text.toList ∧
      .here ∉ (normalize text).parts ∧
      ∀ front name back, (normalize text).parts ≠ front ++ .name name :: .up :: back := by
  have hstep := isStep_settle (isStep_stepsIn text.toList)
  refine ⟨?_, ?_, ?_, ?_⟩
  · rw [← written_normalize]
    exact backslash_not_mem_written _
  · rw [normalize_eq_settle]
    rcases rootOf_eq text.toList with h | h
    · rw [h, List.nil_append, ofParts_steps hstep, String.toList_ofList]
      exact dot_not_mem_splitAt hstep
    · rw [h, List.singleton_append, ofParts, String.toList_ofList, splitAt, if_pos rfl,
        List.mem_cons, not_or]
      exact ⟨by decide, dot_not_mem_splitAt hstep⟩
  · rw [parts_normalize, List.mem_append, not_or]
    refine ⟨?_, fun h => hstep .here h⟩
    rcases rootOf_eq text.toList with h | h <;> simp [h]
  · intro front name back hparts
    have hordered : (normalize text).parts.Pairwise PathPart.UpFirst := by
      rw [parts_normalize, List.pairwise_append]
      refine ⟨?_, upFirst_settle _, ?_⟩
      · rcases rootOf_eq text.toList with h | h <;> simp [h]
      · -- The root is no name.
        intro a ha b _ name hname
        rcases rootOf_eq text.toList with h | h <;> simp_all
    rw [hparts] at hordered
    have htail := (List.pairwise_append.1 hordered).2.1
    exact List.rel_of_pairwise_cons htail List.mem_cons_self name rfl rfl

end FilePath

/-- The keys of a table of imports are their paths, each of them worked off. -/
theorem ImportTable.Apart.keys_settled {root : FilePath} {t : ImportTable} (h : t.Apart root) :
    OrderedTable.keys t = t.paths.map FilePath.parts ∧
      ∀ p ∈ t.paths, FilePath.normalize p.text = p := by
  have heach : ∀ e ∈ t.entries,
      e.1 = e.2.path.parts ∧ FilePath.normalize e.2.path.text = e.2.path := by
    intro e he
    obtain ⟨hkey, hpath, -⟩ := h e.1 e.2 (OrderedTable.get?_eq_some_iff.2 he)
    exact ⟨hkey, hpath⟩
  have hkeyed : ImportWalk.Keyed t := fun e he => (heach e he).1
  refine ⟨hkeyed.keys_eq, ?_⟩
  rw [ImportTable.paths, OrderedTable.values, List.forall_mem_map, List.forall_mem_map]
  exact fun e he => (heach e he).2

namespace Resolver

/-- Working off a path settles it: again it changes nothing, and no detour is left in it. So does
taking a path from a directory, and so all candidates of all imports and all keys of the imports of
a generation are settled. -/
theorem path_keys_settled :
    (∀ text, FilePath.normalize (FilePath.normalize text).text = FilePath.normalize text ∧
      '\\' ∉ (FilePath.normalize text).text.toList ∧
      ['.'] ∉ splitAt '/' (FilePath.normalize text).text.toList ∧
      .here ∉ (FilePath.normalize text).parts ∧
      ∀ front name back,
        (FilePath.normalize text).parts ≠ front ++ .name name :: .up :: back) ∧
    (∀ base path, FilePath.normalize (FilePath.resolve base path).text =
      FilePath.resolve base path) ∧
    (∀ (x : ImportScope) project sdk paths, x.target project sdk = .candidates paths →
      ∀ p ∈ paths, FilePath.normalize p.text = p) ∧
    ∀ (r : Resolver) file g, r.Arises file g →
      (g.All fun s => ∀ site ∈ s.sites, ∀ paths, site.target = .candidates paths →
        ∀ p ∈ paths, FilePath.normalize p.text = p) ∧
      OrderedTable.keys g.imports = g.imports.paths.map FilePath.parts ∧
      ∀ p ∈ g.imports.paths, FilePath.normalize p.text = p := by
  refine ⟨fun text => ⟨FilePath.normalize_normalize text, FilePath.normalize_noDetour text⟩,
    FilePath.normalize_resolve, fun x project sdk paths h p hp => ?_, fun r file g h => ?_⟩
  · obtain ⟨base, text, rfl⟩ := x.exists_resolve_of_target project sdk h p hp
    exact FilePath.normalize_resolve base text
  · exact ⟨h.all FileSymbols.ofDocument_workedOff fun _ _ => .merge, h.apart.keys_settled⟩

/-- An import that is written with detours leads to a path without them, which is its key. -/
theorem path_keys_settled_detour :
    let r : Resolver := ⟨.standard, false⟩
    let file : FilePath := ⟨"/p/a.proj"⟩
    let path := "x/.././b\\c.props"
    let x : ImportScope := .ofFile .standard (r.project file) file
    let text := "<Project><Import Project='x/.././b\\c.props' /></Project>"
    ∃ g, (r.resolve file (.ofText text) none (FileStore.empty.write ⟨"/p/b/c.props"⟩ "")).1 =
        .ok g ∧ r.Arises file g ∧ g.imports.paths = [⟨"/p/b/c.props"⟩] ∧
      x.target path none = .candidates [⟨"/p/b/c.props"⟩] ∧
      FilePath.normalize "/p/b/c.props" = ⟨"/p/b/c.props"⟩ ∧
      OrderedTable.keys g.imports = [FilePath.parts ⟨"/p/b/c.props"⟩] := by
  intro r file path x text
  have htarget : x.target path none = .candidates [⟨"/p/b/c.props"⟩] := by decide +kernel +revert
  have hpaths : (r.resolve file (.ofText text) none
      (FileStore.empty.write ⟨"/p/b/c.props"⟩ "")).1.toOption.map (·.imports.paths) =
        some [⟨"/p/b/c.props"⟩] := by
    decide +kernel +revert
  obtain ⟨g, hg, -⟩ := r.exists_resolve file (.ofText text) none
    (FileStore.empty.write ⟨"/p/b/c.props"⟩ "")
  rw [hg] at hpaths
  have hone : g.imports.paths = [⟨"/p/b/c.props"⟩] := Option.some.inj hpaths
  have harises : r.Arises file g := .first hg
  obtain ⟨-, -, hcandidates, hgenerations⟩ := path_keys_settled
  refine ⟨g, hg, harises, hone, htarget, ?_, ?_⟩
  · exact hcandidates x path none _ htarget _ (List.mem_singleton_self _)
  · have hkeys := (hgenerations r file g harises).2.1
    rwa [hone] at hkeys

end Resolver

end ProjectAnalysis
