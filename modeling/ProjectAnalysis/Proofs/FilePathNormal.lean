import ProjectAnalysis.FilePath

/-! Paths in normal form: those that are written as their parts say. Working off the `.` and `..`
parts gives such a path, so two of them that name the same file are one text. -/
namespace ProjectAnalysis

theorem splitAt_of_not_mem {sep : Char} {piece : List Char} (h : sep ∉ piece) :
    splitAt sep piece = [piece] := by
  induction piece with
  | nil => rfl
  | cons c cs ih =>
    rw [List.mem_cons, not_or] at h
    rw [splitAt, if_neg (Ne.symm h.1), ih h.2]

theorem splitAt_ne_nil (sep : Char) (cs : List Char) : splitAt sep cs ≠ [] := by
  cases cs with
  | nil => exact List.cons_ne_nil _ _
  | cons c cs =>
    rw [splitAt]
    split
    · exact List.cons_ne_nil _ _
    · split <;> exact List.cons_ne_nil _ _

/-- A separator ends one piece and begins the next one. -/
theorem splitAt_append {sep : Char} (a b : List Char) :
    splitAt sep (a ++ sep :: b) = splitAt sep a ++ splitAt sep b := by
  induction a with
  | nil =>
    change splitAt sep (sep :: b) = [] :: splitAt sep b
    rw [splitAt, if_pos rfl]
  | cons c a ih =>
    rw [List.cons_append, splitAt, splitAt, ih]
    split
    · rfl
    · cases ha : splitAt sep a with
      | nil => exact absurd ha (splitAt_ne_nil sep a)
      | cons piece pieces => rfl

theorem splitAt_append_cons {sep : Char} {piece : List Char} (h : sep ∉ piece) (cs : List Char) :
    splitAt sep (piece ++ sep :: cs) = piece :: splitAt sep cs := by
  rw [splitAt_append, splitAt_of_not_mem h, List.singleton_append]

theorem splitAt_joinWith {sep : Char} {pieces : List (List Char)} (hne : pieces ≠ [])
    (h : ∀ piece ∈ pieces, sep ∉ piece) : splitAt sep (joinWith [sep] pieces) = pieces := by
  induction pieces with
  | nil => exact absurd rfl hne
  | cons piece pieces ih =>
    obtain ⟨hp, hps⟩ := List.forall_mem_cons.1 h
    cases pieces with
    | nil => exact splitAt_of_not_mem hp
    | cons next pieces =>
      have hj : joinWith [sep] (piece :: next :: pieces) =
          piece ++ sep :: joinWith [sep] (next :: pieces) := by
        simp only [joinWith, List.append_assoc, List.singleton_append]
      rw [hj, splitAt_append_cons hp, ih (List.cons_ne_nil _ _) hps]

theorem not_mem_of_mem_splitAt {sep : Char} {cs piece : List Char} (h : piece ∈ splitAt sep cs) :
    sep ∉ piece := by
  induction cs generalizing piece with
  | nil => simp_all [splitAt]
  | cons c cs ih =>
    rw [splitAt] at h
    split at h
    · rcases List.mem_cons.1 h with rfl | h
      · exact List.not_mem_nil
      · exact ih h
    · rename_i hc
      split at h
      · simpa [List.mem_singleton.1 h] using Ne.symm hc
      · rename_i first rest heq
        rw [heq] at ih
        rcases List.mem_cons.1 h with rfl | h
        · exact List.not_mem_cons_of_ne_of_not_mem (Ne.symm hc) (ih List.mem_cons_self)
        · exact ih (List.mem_cons_of_mem _ h)

/-- A step up, or a name that is written as it is. -/
def PathPart.IsStep : PathPart → Prop
  | .up => True
  | .name text => text ≠ [] ∧ text ≠ ['.'] ∧ text ≠ ['.', '.'] ∧ '/' ∉ text
  | _ => False

namespace FilePath

theorem isStep_partOf {piece : List Char} (hidle : isIdle piece = false) (hsep : '/' ∉ piece) :
    (partOf piece).IsStep := by
  simp only [isIdle, Bool.or_eq_false_iff, beq_eq_false_iff_ne] at hidle
  unfold partOf
  split
  · trivial
  · rename_i h
    exact ⟨hidle.1, hidle.2, h, hsep⟩

theorem isStep_text {part : PathPart} (h : part.IsStep) :
    isIdle part.text = false ∧ '/' ∉ part.text ∧ partOf part.text = part := by
  cases part with
  | root | here => exact h.elim
  | up => decide
  | name text =>
    obtain ⟨hne, hdot, hup, hsep⟩ := h
    refine ⟨?_, hsep, if_neg hup⟩
    simp only [PathPart.text, isIdle, Bool.or_eq_false_iff, beq_eq_false_iff_ne]
    exact ⟨hne, hdot⟩

/-- The parts of a path: how it begins, and then steps. -/
theorem parts_eq_lead (p : FilePath) : ∃ (lead : Lead) (steps : List PathPart),
    p.parts = lead.parts ++ steps ∧ ∀ part ∈ steps, part.IsStep := by
  have hsep : ∀ piece ∈ (pieces p.text.toList).2, '/' ∉ piece := by
    unfold pieces
    split <;> simp only [List.mem_cons, List.not_mem_nil, forall_eq_or_imp] <;>
      first
      | exact fun _ h => not_mem_of_mem_splitAt h
      | simp
    exact fun _ h => not_mem_of_mem_splitAt h
  refine ⟨(pieces p.text.toList).1, _, rfl, ?_⟩
  intro part hpart
  obtain ⟨piece, hpiece, rfl⟩ := List.mem_map.1 hpart
  obtain ⟨hmem, hidle⟩ := List.mem_filter.1 hpiece
  exact isStep_partOf (by simpa using hidle) (hsep piece hmem)

/-- A text whose first piece counts is no more than its pieces. -/
theorem pieces_eq_bare {text : List Char}
    (h : ∀ piece ∈ (splitAt '/' text).head?, isIdle piece = false) :
    pieces text = (.bare, splitAt '/' text) := by
  unfold pieces
  split
  · simp [splitAt, isIdle] at h
  · simp [splitAt, isIdle] at h
  · simp [splitAt, isIdle] at h
  · rfl

/-- The texts of steps, with separators between them, are read as these steps. -/
theorem splitAt_join_steps {steps : List PathPart} (hne : steps ≠ [])
    (h : ∀ part ∈ steps, part.IsStep) :
    splitAt '/' (joinWith ['/'] (steps.map PathPart.text)) = steps.map PathPart.text := by
  refine splitAt_joinWith (by simpa using hne) fun piece hpiece => ?_
  obtain ⟨part, hpart, rfl⟩ := List.mem_map.1 hpiece
  exact (isStep_text (h part hpart)).2.1

theorem map_partOf_steps {steps : List PathPart} (h : ∀ part ∈ steps, part.IsStep) :
    ((steps.map PathPart.text).filter (!isIdle ·)).map partOf = steps := by
  have hkept : (steps.map PathPart.text).filter (!isIdle ·) = steps.map PathPart.text := by
    refine List.filter_eq_self.2 fun piece hpiece => ?_
    obtain ⟨part, hpart, rfl⟩ := List.mem_map.1 hpiece
    simp only [(isStep_text (h part hpart)).1, Bool.not_false]
  have hread : ∀ part ∈ steps, (partOf ∘ PathPart.text) part = part :=
    fun part hpart => (isStep_text (h part hpart)).2.2
  rw [hkept, List.map_map, List.map_congr_left hread, List.map_id']

/-- A path that is written from steps is no more than its pieces. -/
theorem pieces_join_steps {steps : List PathPart} (hne : steps ≠ [])
    (h : ∀ part ∈ steps, part.IsStep) :
    pieces (joinWith ['/'] (steps.map PathPart.text)) = (.bare, steps.map PathPart.text) := by
  have hsplit := splitAt_join_steps hne h
  rw [pieces_eq_bare, hsplit]
  intro piece hpiece
  rw [hsplit] at hpiece
  obtain ⟨part, hpart, rfl⟩ := List.mem_map.1 (List.mem_of_mem_head? hpiece)
  exact (isStep_text (h part hpart)).1

theorem ofParts_steps {steps : List PathPart} (h : ∀ part ∈ steps, part.IsStep) :
    ofParts steps = ⟨String.ofList (joinWith ['/'] (steps.map PathPart.text))⟩ := by
  unfold ofParts
  split
  · exact (h .root List.mem_cons_self).elim
  · rfl

/-- A path that is written from steps, behind the root or not, has just these parts. -/
theorem parts_ofParts {base steps : List PathPart} (hbase : base = [] ∨ base = [.root])
    (h : ∀ part ∈ steps, part.IsStep) : (ofParts (base ++ steps)).parts = base ++ steps := by
  by_cases hne : steps = []
  · subst hne
    rcases hbase with rfl | rfl <;> decide
  rcases hbase with rfl | rfl
  · rw [List.nil_append, ofParts_steps h, parts, String.toList_ofList, pieces_join_steps hne h]
    exact map_partOf_steps h
  · have hread : pieces ('/' :: joinWith ['/'] (steps.map PathPart.text)) =
        (.root, steps.map PathPart.text) := by
      rw [pieces, splitAt_join_steps hne h]
    rw [List.singleton_append, ofParts, parts, String.toList_ofList, hread]
    exact congrArg (PathPart.root :: ·) (map_partOf_steps h)

theorem descend_name (stack : List PathPart) (text : List Char) :
    descend stack (.name text) = .name text :: stack := by
  cases stack with
  | nil => rfl
  | cons top stack => cases top <;> rfl

/-- Working off a step keeps the form of a stack: steps, above the root or not. -/
theorem descend_step {base steps : List PathPart} {part : PathPart}
    (hbase : base = [] ∨ base = [.root]) (h : ∀ part ∈ steps, part.IsStep) (hpart : part.IsStep) :
    ∃ steps', descend (steps ++ base) part = steps' ++ base ∧ ∀ part ∈ steps', part.IsStep := by
  have hpush : ∀ p ∈ part :: steps, p.IsStep := List.forall_mem_cons.2 ⟨hpart, h⟩
  cases part with
  | root | here => exact hpart.elim
  | name text => exact ⟨.name text :: steps, descend_name _ text, hpush⟩
  | up =>
    cases steps with
    -- There is nothing to take away, so the step up stays, above the root or not.
    | nil => exact ⟨[.up], by rcases hbase with rfl | rfl <;> rfl, by simpa using hpart⟩
    | cons top steps =>
      have htop := h top List.mem_cons_self
      refine ⟨steps, ?_, fun p hp => h p (List.mem_cons_of_mem _ hp)⟩
      cases top with
      | root | here => exact htop.elim
      | up | name => rfl

theorem foldl_descend_steps {base steps parts : List PathPart}
    (hbase : base = [] ∨ base = [.root]) (h : ∀ part ∈ steps, part.IsStep)
    (hparts : ∀ part ∈ parts, part.IsStep) :
    ∃ steps', parts.foldl descend (steps ++ base) = steps' ++ base ∧
      ∀ part ∈ steps', part.IsStep := by
  induction parts generalizing steps with
  | nil => exact ⟨steps, rfl, h⟩
  | cons part parts ih =>
    obtain ⟨hpart, hrest⟩ := List.forall_mem_cons.1 hparts
    obtain ⟨steps', hdescend, hsteps'⟩ := descend_step hbase h hpart
    rw [List.foldl_cons, hdescend]
    exact ih hsteps' hrest

/-- A path that is written just as its parts say. -/
def IsNormal (p : FilePath) : Prop :=
  ofParts p.parts = p

/-- Two normal paths that name the same file are the same path. -/
theorem IsNormal.eq_of_parts {p q : FilePath} (hp : p.IsNormal) (hq : q.IsNormal)
    (h : p.parts = q.parts) : p = q := by
  rw [← hp, ← hq, h]

theorem normalize_isNormal (text : String) : (normalize text).IsNormal := by
  let slashed : FilePath := ⟨String.ofList (text.toList.map fun c => if c = '\\' then '/' else c)⟩
  obtain ⟨lead, parts, hparts, hsteps⟩ := slashed.parts_eq_lead
  have hlead : ∃ base : List PathPart, (base = [] ∨ base = [.root]) ∧
      lead.parts.foldl descend [] = base := by
    cases lead with
    | root => exact ⟨[.root], Or.inr rfl, rfl⟩
    | here | bare => exact ⟨[], Or.inl rfl, rfl⟩
  obtain ⟨base, hbase, hfold⟩ := hlead
  obtain ⟨steps, hdescend, hsteps'⟩ :=
    foldl_descend_steps hbase (List.forall_mem_nil PathPart.IsStep) hsteps
  have hstack : (slashed.parts.foldl descend []).reverse = base ++ steps.reverse := by
    rw [hparts, List.foldl_append, hfold, ← List.nil_append base, hdescend, List.reverse_append]
    rcases hbase with rfl | rfl <;> rfl
  change ofParts (ofParts (slashed.parts.foldl descend []).reverse).parts =
    ofParts (slashed.parts.foldl descend []).reverse
  rw [hstack, parts_ofParts hbase fun part hpart => hsteps' part (List.mem_reverse.1 hpart)]

/-- A path as written in a file is taken in normal form, whatever the directory. -/
theorem resolve_isNormal (base? : Option FilePath) (text : String) :
    (resolve base? text).IsNormal := by
  unfold resolve
  cases base? with
  | none => exact normalize_isNormal text
  | some base =>
    dsimp only
    split
    · exact normalize_isNormal text
    · exact normalize_isNormal _

end FilePath

end ProjectAnalysis
