import ProjectAnalysis.Proofs.PathWalk

/-! Paths that are put together again: the path that a directory and the name of a file behind it
stand for, by how the text begins and the steps in it. -/
namespace ProjectAnalysis

theorem joinWith_cons {sep piece : List Char} {pieces : List (List Char)} (h : pieces ≠ []) :
    joinWith sep (piece :: pieces) = piece ++ sep ++ joinWith sep pieces := by
  cases pieces with
  | nil => exact absurd rfl h
  | cons next pieces => rfl

theorem joinWith_splitAt (sep : Char) (cs : List Char) : joinWith [sep] (splitAt sep cs) = cs := by
  induction cs with
  | nil => rfl
  | cons c cs ih =>
    rw [splitAt]
    split
    · rename_i hc
      rw [joinWith_cons (splitAt_ne_nil sep cs), ih, hc]
      rfl
    · cases hsplit : splitAt sep cs with
      | nil => exact absurd hsplit (splitAt_ne_nil sep cs)
      | cons piece pieces =>
        rw [hsplit] at ih
        rw [← ih]
        cases pieces <;> rfl

theorem joinWith_prefix_append (sep : List Char) (front back : List (List Char)) :
    joinWith sep front <+: joinWith sep (front ++ back) := by
  induction front with
  | nil => exact List.nil_prefix
  | cons piece front ih =>
    by_cases hback : front = []
    · subst hback
      cases back with
      | nil => exact List.prefix_rfl
      | cons next back =>
        rw [List.singleton_append, joinWith_cons (List.cons_ne_nil _ _), List.append_assoc]
        exact List.prefix_append _ _
    · rw [List.cons_append, joinWith_cons hback,
        joinWith_cons (List.append_ne_nil_of_left_ne_nil hback back)]
      exact (List.prefix_append_right_inj _).2 ih

namespace FilePath

/-- The steps in a text with either separator. -/
def stepsIn (text : List Char) : List PathPart :=
  stepsOf (text.map slash)

/-- The root, if a text with either separator begins with it. -/
def rootOf (text : List Char) : List PathPart :=
  if (text.map slash).head? = some '/' then [.root] else []

/-- What working off leaves of steps. -/
def settle (steps : List PathPart) : List PathPart :=
  (Way.ofParts steps).stack.reverse

variable {text name next : List Char} {steps : List PathPart} {p dir : FilePath}

theorem written_text (text : String) : (written text).text.toList = text.toList.map slash :=
  String.toList_ofList

theorem isAbsolute_written (text : String) :
    (written text).isAbsolute = true ↔ rootOf text.toList = [.root] := by
  rw [isAbsolute, beq_iff_eq, written_text, rootOf]
  split <;> simp_all

theorem rootOf_eq (text : List Char) : rootOf text = [] ∨ rootOf text = [.root] := by
  unfold rootOf
  split
  · exact Or.inr rfl
  · exact Or.inl rfl

/-- A `.` in front of the steps is no step. -/
theorem ofParts_lead (lead : Lead) (steps : List PathPart) :
    Way.ofParts (lead.parts ++ steps) = Way.ofParts steps := by
  cases lead <;> rfl

/-- A path that was worked off, by the beginning of its text and the steps in it. -/
theorem normalize_eq_settle (text : String) :
    normalize text = ofParts (rootOf text.toList ++ settle (stepsIn text.toList)) := by
  rw [normalize_eq]
  by_cases habsolute : (written text).isAbsolute = true
  · have hroot := root_not_mem_stepsOf (written text).text.toList
    rw [(isAbsolute_written text).1 habsolute, parts_of_absolute habsolute,
      foldl_descend_root hroot, foldl_descend_eq_stack hroot, List.reverse_append, written_text]
    rfl
  · have hrelative := Bool.not_eq_true _ ▸ habsolute
    have hbare := (rootOf_eq text.toList).resolve_right (mt (isAbsolute_written text).2 habsolute)
    rw [hbare, foldl_descend_eq_stack (root_not_mem_parts hrelative), parts_eq_stepsOf,
      ofParts_lead, written_text]
    rfl

theorem isStep_stepsOf (text : List Char) : ∀ part ∈ stepsOf text, part.IsStep := by
  intro part hpart
  obtain ⟨piece, hpiece, rfl⟩ := List.mem_map.1 hpart
  obtain ⟨hmem, hidle⟩ := List.mem_filter.1 hpiece
  exact isStep_partOf (by simpa using hidle) (not_mem_of_mem_splitAt hmem)

theorem mem_of_mem_settle {part : PathPart} (h : part ∈ settle steps) (hroot : .root ∉ steps) :
    part ∈ steps := by
  rw [settle, ← foldl_descend_eq_stack hroot, List.mem_reverse] at h
  exact (mem_foldl_descend h).resolve_left List.not_mem_nil

theorem isStep_settle (hsteps : ∀ part ∈ steps, part.IsStep) : ∀ part ∈ settle steps, part.IsStep :=
  fun part h => hsteps part (mem_of_mem_settle h fun hroot => hsteps .root hroot)

theorem isStep_stepsIn (text : List Char) : ∀ part ∈ stepsIn text, part.IsStep :=
  isStep_stepsOf _

theorem parts_normalize (text : String) :
    (normalize text).parts = rootOf text.toList ++ settle (stepsIn text.toList) := by
  rw [normalize_eq_settle]
  exact parts_ofParts (rootOf_eq _) (isStep_settle (isStep_stepsIn _))

theorem settle_append_name (steps : List PathPart) (name : List Char) :
    settle (steps ++ [.name name]) = settle steps ++ [.name name] := by
  rw [settle, Way.ofParts, List.foldl_append, List.foldl_cons, List.foldl_nil, settle,
    ← List.reverse_cons]
  rfl

theorem stepsIn_append (a b : List Char) : stepsIn (a ++ '/' :: b) = stepsIn a ++ stepsIn b := by
  rw [stepsIn, List.map_append]
  exact stepsOf_append _ _

/-- The steps of the pieces of a text, one after the other. -/
theorem stepsIn_joinWith (pieces : List (List Char)) :
    stepsIn (joinWith ['/'] pieces) = pieces.flatMap stepsIn := by
  induction pieces with
  | nil => rfl
  | cons piece pieces ih =>
    rw [List.flatMap_cons, ← ih]
    by_cases hnil : pieces = []
    · subst hnil
      exact (List.append_nil _).symm
    · rw [joinWith_cons hnil, List.append_assoc]
      exact stepsIn_append _ _

theorem stepsIn_idle {piece : List Char} (h : isIdle piece = true) : stepsIn piece = [] := by
  rw [isIdle, Bool.or_eq_true, beq_iff_eq, beq_iff_eq] at h
  rcases h with rfl | rfl <;> rfl

theorem stepsIn_eq_pieces (text : List Char) : stepsIn text = (pieces text).2.flatMap stepsIn := by
  unfold pieces
  split
  · rename_i body
    rw [← stepsIn_joinWith, joinWith_splitAt]
    exact stepsIn_append [] body
  · rfl
  · rename_i body
    rw [List.flatMap_cons, ← stepsIn_joinWith, joinWith_splitAt]
    exact stepsIn_append ['.'] body
  · rw [← stepsIn_joinWith, joinWith_splitAt]

theorem flatMap_stepsIn_dropWhile (pieces : List (List Char)) :
    (pieces.dropWhile isIdle).reverse.flatMap stepsIn = pieces.reverse.flatMap stepsIn := by
  induction pieces with
  | nil => rfl
  | cons piece pieces ih =>
    by_cases hidle : isIdle piece = true
    · rw [List.dropWhile_cons_of_pos hidle, ih, List.reverse_cons, List.flatMap_append,
        List.flatMap_singleton, stepsIn_idle hidle, List.append_nil]
    · rw [List.dropWhile_cons_of_neg hidle]

/-- A path that is written up to some piece is how its text begins, and has the steps up to there. -/
theorem written_up_to {front back : List (List Char)} (h : (pieces text).2 = front ++ back) :
    (pieces text).1.text ++ joinWith ['/'] front <+: text ∧
      stepsIn ((pieces text).1.text ++ joinWith ['/'] front) = front.flatMap stepsIn := by
  have hbegins := joinWith_prefix_append ['/'] front back
  rw [← h] at hbegins
  rw [← stepsIn_joinWith]
  revert h hbegins
  unfold pieces
  split
  · intro _ hbegins
    rw [joinWith_splitAt] at hbegins
    exact ⟨(List.prefix_append_right_inj ['/']).2 hbegins, stepsIn_append [] _⟩
  · intro h _
    obtain ⟨rfl, -⟩ := List.append_eq_nil_iff.1 h.symm
    exact ⟨List.prefix_rfl, rfl⟩
  · rename_i body
    intro h hbegins
    rw [joinWith_cons (splitAt_ne_nil '/' body), joinWith_splitAt] at hbegins
    refine ⟨(List.prefix_append_right_inj ['.']).2 hbegins, ?_⟩
    cases front with
    | nil => rfl
    | cons piece front =>
      obtain ⟨rfl, -⟩ := List.cons.inj h
      by_cases hnil : front = []
      · subst hnil
        rfl
      · rw [joinWith_cons hnil]
        exact (stepsIn_append ['.'] _).trans (stepsIn_append [] _).symm
  · intro _ hbegins
    rw [joinWith_splitAt] at hbegins
    exact ⟨hbegins, rfl⟩

/-- A path with a file name is its directory and the name behind it, up to needless separators. -/
theorem exists_parent (h : p.fileName? = some name) : ∃ dir, p.parent? = some dir ∧
    dir.text.toList <+: p.text.toList ∧ (p.isAbsolute = true → dir.text.toList ≠ []) ∧
      stepsIn p.text.toList = stepsIn dir.text.toList ++ stepsIn name := by
  obtain ⟨last, before, hlast⟩ : ∃ last before,
      (pieces p.text.toList).2.reverse.dropWhile isIdle = last :: before := by
    rw [fileName?] at h
    split at h
    · exact ⟨_, _, ‹_›⟩
    · cases h
  obtain rfl : last = name := by
    rw [fileName?, hlast] at h
    dsimp only at h
    split at h
    · cases h
    · exact Option.some.inj h
  let kept := (before.dropWhile isIdle).reverse
  have hparent : p.parent? =
      some ⟨String.ofList ((pieces p.text.toList).1.text ++ joinWith ['/'] kept)⟩ := by
    rw [parent?]
    dsimp only
    rw [hlast]
  -- What is kept of the pieces are the first ones, so the directory is a beginning of the text.
  have hkept : ∃ back, (pieces p.text.toList).2 = kept ++ back := by
    have hsuffix : before.dropWhile isIdle <:+ (pieces p.text.toList).2.reverse :=
      (List.dropWhile_suffix _).trans ((List.suffix_cons last before).trans
        (hlast ▸ List.dropWhile_suffix _))
    obtain ⟨back, hback⟩ := List.reverse_prefix.2 hsuffix
    rw [List.reverse_reverse] at hback
    exact ⟨back, hback.symm⟩
  obtain ⟨back, hback⟩ := hkept
  obtain ⟨hbegins, hsteps⟩ := written_up_to hback
  have hall : (pieces p.text.toList).2.flatMap stepsIn =
      before.reverse.flatMap stepsIn ++ stepsIn last := by
    rw [← List.reverse_reverse (pieces p.text.toList).2, ← flatMap_stepsIn_dropWhile, hlast,
      List.reverse_cons, List.flatMap_append, List.flatMap_singleton]
  refine ⟨_, hparent, ?_, fun habsolute => ?_, ?_⟩
  · rwa [String.toList_ofList]
  · rw [String.toList_ofList, lead_eq_root_iff.2 habsolute]
    exact List.cons_ne_nil _ _
  · rw [String.toList_ofList, hsteps, flatMap_stepsIn_dropWhile, stepsIn_eq_pieces, hall]

theorem rootOf_of_begins {front : List Char} (hne : front ≠ []) (h : front <+: text) :
    rootOf front = rootOf text := by
  obtain ⟨back, rfl⟩ := h
  cases front with
  | nil => exact absurd rfl hne
  | cons c front => rfl

/-- The text of a directory with a separator at its end. -/
def asDirectory (text : List Char) : List Char :=
  if text.getLast? = some '/' then text else text ++ ['/']

theorem exists_asDirectory (text : List Char) : ∃ front, asDirectory text = front ++ ['/'] := by
  unfold asDirectory
  split
  · rename_i hlast
    exact List.getLast?_eq_some_iff.1 hlast
  · exact ⟨text, rfl⟩

/-- Behind a separator a text begins the same way, and its steps come last. -/
theorem asDirectory_append (text next : List Char) :
    rootOf (asDirectory text ++ next) = rootOf (asDirectory text) ∧
      stepsIn (asDirectory text ++ next) = stepsIn (asDirectory text) ++ stepsIn next := by
  obtain ⟨front, hfront⟩ := exists_asDirectory text
  rw [hfront]
  constructor
  · exact (rootOf_of_begins (by simp) (List.prefix_append _ _)).symm
  · rw [List.append_assoc]
    have hend : stepsIn (front ++ ['/']) = stepsIn front ++ [] := stepsIn_append front []
    rw [hend, List.append_nil]
    exact stepsIn_append front next

theorem stepsIn_asDirectory (text : List Char) : stepsIn (asDirectory text) = stepsIn text := by
  unfold asDirectory
  split
  · rfl
  · exact (stepsIn_append text []).trans (List.append_nil _)

theorem rootOf_asDirectory (hne : text ≠ []) : rootOf (asDirectory text) = rootOf text := by
  unfold asDirectory
  split
  · rfl
  · exact (rootOf_of_begins hne (List.prefix_append _ _)).symm

theorem isAbsolute_of_rootOf (h : rootOf p.text.toList = []) : p.isAbsolute = false := by
  refine Bool.eq_false_iff.2 fun habsolute => ?_
  rw [isAbsolute, beq_iff_eq] at habsolute
  rw [rootOf, List.head?_map, habsolute] at h
  cases h

/-- What is seen from a directory has its steps behind those of the directory. -/
theorem join_form (dir : FilePath) (h : rootOf p.text.toList = []) :
    rootOf (dir.join p).text.toList = rootOf dir.text.toList ∧
      stepsIn (dir.join p).text.toList = stepsIn dir.text.toList ++ stepsIn p.text.toList := by
  rw [join, isAbsolute_of_rootOf h, if_neg Bool.false_ne_true]
  dsimp only
  rw [String.toList_ofList]
  by_cases hne : dir.text.toList = []
  · rw [hne]
    exact ⟨h, rfl⟩
  · -- A gap is put in just where the directory does not end with a separator.
    have hjoin : dir.text.toList ++ (if dir.text.toList = [] || dir.text.toList.getLast? = some '/'
        then [] else ['/']) ++ p.text.toList = asDirectory dir.text.toList ++ p.text.toList := by
      unfold asDirectory
      simp only [hne, decide_false, Bool.false_or, decide_eq_true_eq]
      split <;> simp
    rw [hjoin, ← rootOf_asDirectory hne, ← stepsIn_asDirectory dir.text.toList]
    exact asDirectory_append _ _

theorem isPlain_settle (text : String) : ∀ part ∈ settle (stepsIn text.toList), IsPlain part := by
  intro part hpart
  have hstep := mem_of_mem_settle hpart (root_not_mem_stepsOf _)
  have hmem : part ∈ (written text).parts := by
    rw [parts_eq_stepsOf, written_text]
    exact List.mem_append_right _ hstep
  exact isPlain_written hmem

/-- The text of a path that was worked off holds the separator of one kind only. -/
theorem written_normalize (text : String) : written (normalize text).text = normalize text := by
  have hstep := isStep_settle (isStep_stepsIn text.toList)
  rw [normalize_eq_settle]
  rcases rootOf_eq text.toList with h | h
  · rw [h, List.nil_append]
    exact written_ofParts hstep (isPlain_settle text)
  · rw [h, List.singleton_append]
    exact written_ofParts_root (isPlain_settle text)

theorem isAbsolute_normalize (text : String) :
    (normalize text).isAbsolute = true ↔ rootOf text.toList = [.root] := by
  have hstep := isStep_settle (isStep_stepsIn text.toList)
  rw [normalize_eq_settle]
  rcases rootOf_eq text.toList with h | h
  · rw [h, List.nil_append, ofParts_not_absolute hstep]
    exact iff_of_false Bool.false_ne_true (List.cons_ne_nil _ _).symm
  · rw [h, List.singleton_append, ofParts, isAbsolute, String.toList_ofList, List.head?_cons]
    exact iff_of_true (beq_self_eq_true _) rfl

/-- A relative path that was worked off has just the steps that are left. -/
theorem normalize_form {text : String} (h : rootOf text.toList = []) :
    rootOf (normalize text).text.toList = [] ∧
      stepsIn (normalize text).text.toList = settle (stepsIn text.toList) := by
  have hstep := isStep_settle (isStep_stepsIn text.toList)
  refine ⟨(rootOf_eq _).resolve_right fun hroot => ?_, ?_⟩
  · have habsolute := (isAbsolute_written _).2 hroot
    rw [written_normalize, isAbsolute_normalize, h] at habsolute
    cases habsolute
  · rw [stepsIn, ← written_text, written_normalize, normalize_eq_settle, h, List.nil_append,
      stepsOf_ofParts hstep]

theorem resolve_some (dir : FilePath) (text : String) : resolve (some dir) text =
    if (normalize text).isAbsolute then normalize text
    else normalize (dir.join (normalize text)).text :=
  rfl

theorem resolve_of_root {text : String} (h : rootOf text.toList = [.root]) :
    resolve (some dir) text = normalize text := by
  rw [resolve_some, if_pos ((isAbsolute_normalize text).2 h)]

theorem parts_resolve {text : String} (h : rootOf text.toList = []) :
    (resolve (some dir) text).parts = rootOf dir.text.toList ++
      settle (stepsIn dir.text.toList ++ settle (stepsIn text.toList)) := by
  obtain ⟨hroot, hsteps⟩ := normalize_form h
  obtain ⟨hroot', hsteps'⟩ := join_form dir hroot
  rw [resolve_some, isAbsolute_of_rootOf hroot, if_neg Bool.false_ne_true, parts_normalize, hroot',
    hsteps', hsteps]

/-- The name of a file that is written as it is, with neither separator. -/
def IsFileName (name : List Char) : Prop :=
  (PathPart.name name).IsStep ∧ '\\' ∉ name

theorem IsFileName.map_slash (h : IsFileName name) : name.map slash = name := by
  have hsame : ∀ c ∈ name, slash c = c := by
    intro c hc
    exact if_neg fun hback : c = '\\' => h.2 (hback ▸ hc)
  rw [List.map_congr_left hsame, List.map_id']

theorem IsFileName.stepsIn_eq (h : IsFileName name) : stepsIn name = [.name name] := by
  obtain ⟨hidle, hsep, hpart⟩ := isStep_text h.1
  rw [PathPart.text] at hidle hsep hpart
  rw [stepsIn, h.map_slash, stepsOf, splitAt_of_not_mem hsep,
    List.filter_cons_of_pos (by simp [hidle]), List.filter_nil, List.map_singleton, hpart]

theorem IsFileName.rootOf_eq (h : IsFileName name) : rootOf name = [] := by
  rw [rootOf, h.map_slash]
  refine if_neg fun hhead => h.1.2.2.2 (List.mem_of_mem_head? hhead)

/-- A name behind a path is one more part, from whatever directory the path is taken. -/
theorem parts_resolve_append (hname : IsFileName name) :
    (resolve (some dir) (String.ofList (asDirectory text ++ name))).parts =
      (resolve (some dir) (String.ofList (asDirectory text))).parts ++ [.name name] := by
  obtain ⟨hroot, hsteps⟩ := asDirectory_append text name
  rw [hname.stepsIn_eq] at hsteps
  rcases rootOf_eq (asDirectory text) with hbare | habsolute
  · rw [parts_resolve (by rwa [String.toList_ofList, hroot]),
      parts_resolve (by rwa [String.toList_ofList]), String.toList_ofList, String.toList_ofList,
      hsteps, settle_append_name, ← List.append_assoc, settle_append_name, List.append_assoc]
  · rw [resolve_of_root (by rwa [String.toList_ofList, hroot]),
      resolve_of_root (by rwa [String.toList_ofList]), parts_normalize, parts_normalize,
      String.toList_ofList, String.toList_ofList, hroot, hsteps, settle_append_name,
      List.append_assoc]

/-- A name alone is taken as one more part of the directory. -/
theorem parts_resolve_name (hname : IsFileName name) :
    (resolve (some dir) (String.ofList name)).parts =
      (normalize dir.text).parts ++ [.name name] := by
  have hroot := hname.rootOf_eq
  have hsettle : settle [.name name] = [.name name] := settle_append_name [] name
  rw [parts_resolve (by rwa [String.toList_ofList]), String.toList_ofList, hname.stepsIn_eq, hsettle,
    settle_append_name, parts_normalize, List.append_assoc]

/-- A path with a name behind it leads beside a name alone just if the path leads to the directory
itself. -/
theorem resolve_append_eq_iff (hname : IsFileName name) :
    resolve (some dir) (String.ofList (asDirectory text ++ name)) =
        resolve (some dir) (String.ofList name) ↔
      resolve (some dir) (String.ofList (asDirectory text)) = normalize dir.text := by
  have hnormal (text : String) := resolve_isNormal (some dir) text
  constructor
  · intro h
    have hparts := congrArg parts h
    rw [parts_resolve_append hname, parts_resolve_name hname] at hparts
    exact (hnormal _).eq_of_parts (normalize_isNormal _) (List.append_cancel_right hparts)
  · intro h
    refine (hnormal _).eq_of_parts (hnormal _) ?_
    rw [parts_resolve_append hname, parts_resolve_name hname, h]

/-- The directory and the name of a file, put together, are the file just if there is a directory,
or the file is below the root anyway. -/
theorem normalize_recompose (hdir : dir.text.toList <+: p.text.toList)
    (hsteps : stepsIn p.text.toList = stepsIn dir.text.toList ++ stepsIn name) :
    normalize (String.ofList (asDirectory dir.text.toList ++ name)) = normalize p.text ↔
      dir.text ≠ "" ∨ (normalize p.text).isAbsolute = true := by
  obtain ⟨hroot, hjoined⟩ := asDirectory_append dir.text.toList name
  rw [stepsIn_asDirectory, ← hsteps] at hjoined
  -- The steps are the same, so only the beginnings may differ.
  have hsame : normalize (String.ofList (asDirectory dir.text.toList ++ name)) = normalize p.text ↔
      rootOf (asDirectory dir.text.toList) = rootOf p.text.toList := by
    constructor
    · intro h
      have hparts := congrArg parts h
      rw [parts_normalize, parts_normalize, String.toList_ofList, hroot, hjoined] at hparts
      exact List.append_cancel_right hparts
    · intro h
      rw [normalize_eq_settle, normalize_eq_settle, String.toList_ofList, hroot, hjoined, h]
  rw [hsame, isAbsolute_normalize]
  by_cases hne : dir.text.toList = []
  · have hempty : dir.text = "" := String.toList_eq_nil_iff.1 hne
    have hslash : rootOf (asDirectory dir.text.toList) = [.root] := by
      rw [hne]
      rfl
    rw [hslash, eq_comm (a := [PathPart.root])]
    exact (or_iff_right fun h => h hempty).symm
  · have hnonempty : dir.text ≠ "" := fun h => hne (String.toList_eq_nil_iff.2 h)
    rw [rootOf_asDirectory hne]
    exact iff_of_true (rootOf_of_begins hne hdir) (Or.inl hnonempty)

end FilePath

end ProjectAnalysis
