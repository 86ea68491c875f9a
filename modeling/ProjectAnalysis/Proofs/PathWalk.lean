import ProjectAnalysis.Proofs.FilePathNormal

/-! Paths as walks through directories, one part at a time. A path is worked off by itself before it
is put behind its directory. A step up that finds nothing to take away is kept and the next one
takes it away again, so two levels that a path leads up are lost. -/
namespace ProjectAnalysis.FilePath

/-- Reads `\` as the separator. -/
def slash (c : Char) : Char :=
  if c = '\\' then '/' else c

/-- A path as it is written, with either separator. -/
def written (text : String) : FilePath :=
  ⟨String.ofList (text.toList.map slash)⟩

/-- The directory below the root that these names lead to, the last one first. -/
def below (dir : List (List Char)) : FilePath :=
  ofParts (.root :: dir.reverse.map .name)

/-- One step from the directory that these names lead to, the last one first. There is nothing above
the root, and a `.` is no step. -/
def enter (dir : List (List Char)) : PathPart → Option (List (List Char))
  | .name text => some (text :: dir)
  | .up => dir.tail?
  | .here | .root => some dir

/-- Where a path leads from a directory, one part after the other. -/
def walkFrom (dir : List (List Char)) (parts : List PathPart) : Option (List (List Char)) :=
  parts.foldlM enter dir

/-- A path without detours: first some levels up and then down through names, the last one first. -/
structure Way where
  up : Nat
  down : List (List Char)

namespace Way

/-- Goes on by one part. -/
def add (w : Way) : PathPart → Way
  | .name text => ⟨w.up, text :: w.down⟩
  | .up => match w.down with
    | [] => ⟨w.up + 1, []⟩
    | _ :: down => ⟨w.up, down⟩
  | .here | .root => w

def ofParts (parts : List PathPart) : Way :=
  parts.foldl add ⟨0, []⟩

/-- Where the way leads from a directory. -/
def leadsFrom (w : Way) (dir : List (List Char)) : Option (List (List Char)) :=
  if w.up ≤ dir.length then some (w.down ++ dir.drop w.up) else none

/-- What working off leaves of the way: of the levels up only whether they are odd. -/
def stack (w : Way) : List PathPart :=
  w.down.map .name ++ List.replicate (w.up % 2) .up

end Way

/-- How many levels above its beginning a path leads. -/
def climb (parts : List PathPart) : Nat :=
  (Way.ofParts parts).up

variable {dir reached : List (List Char)} {parts : List PathPart} {part : PathPart} {w : Way}

theorem Way.enter_leadsFrom (w : Way) (dir : List (List Char)) (part : PathPart) :
    (w.leadsFrom dir).bind (enter · part) = (w.add part).leadsFrom dir := by
  obtain ⟨k, down⟩ := w
  by_cases hk : k ≤ dir.length
  · have hfrom : (⟨k, down⟩ : Way).leadsFrom dir = some (down ++ dir.drop k) := if_pos hk
    rw [hfrom, Option.bind_some]
    cases part with
    | root | here => exact hfrom.symm
    | name text => exact (if_pos hk).symm
    | up =>
      cases down with
      | cons text down => exact (if_pos hk).symm
      | nil =>
        change (dir.drop k).tail? = if k < dir.length then some (dir.drop (k + 1)) else none
        by_cases hlt : k < dir.length
        · rw [if_pos hlt, List.drop_eq_getElem_cons hlt, List.tail?_cons]
        · rw [if_neg hlt, List.drop_eq_nil_of_le (Nat.not_lt.1 hlt), List.tail?_nil]
  · -- A way that leads above the root does so however it goes on.
    have hnone {w : Way} (hw : k ≤ w.up) : w.leadsFrom dir = none := if_neg (by omega)
    rw [hnone (Nat.le_refl k), Option.bind_none, hnone]
    cases part with
    | root | here | name => exact Nat.le_refl k
    | up =>
      cases down with
      | nil => exact Nat.le_succ k
      | cons text down => exact Nat.le_refl k

/-- Walking is going the way without its detours. -/
theorem walkFrom_eq_leadsFrom (dir : List (List Char)) (parts : List PathPart) :
    walkFrom dir parts = (Way.ofParts parts).leadsFrom dir := by
  -- From whatever way has been gone so far, the walk goes on as the way does.
  have hrun : ∀ w : Way, (w.leadsFrom dir).bind (walkFrom · parts) =
      (parts.foldl Way.add w).leadsFrom dir := by
    induction parts with
    | nil => exact fun w => Option.bind_fun_some (w.leadsFrom dir)
    | cons part parts ih =>
      intro w
      rw [List.foldl_cons, ← ih, ← w.enter_leadsFrom, Option.bind_assoc]
      rfl
  have hstart : (⟨0, []⟩ : Way).leadsFrom dir = some dir := rfl
  rw [Way.ofParts, ← hrun, hstart, Option.bind_some]

/-- Working off keeps what is below a directory as long as it is not left by its root. -/
theorem descend_of_enter (hpart : part ≠ .root) (h : enter dir part = some reached) :
    descend (dir.map .name ++ [.root]) part = reached.map .name ++ [.root] := by
  cases part with
  | root => exact absurd rfl hpart
  | here =>
    cases h
    rw [descend.eq_1]
  | name text =>
    cases h
    exact descend_name _ text
  | up =>
    cases dir with
    | nil => cases h
    | cons text dir =>
      cases h
      rfl

theorem foldl_descend_of_walk (hroot : .root ∉ parts) (h : walkFrom dir parts = some reached) :
    parts.foldl descend (dir.map .name ++ [.root]) = reached.map .name ++ [.root] := by
  induction parts generalizing dir with
  | nil =>
    cases h
    rfl
  | cons part parts ih =>
    rw [List.mem_cons, not_or] at hroot
    obtain ⟨next, hnext, hrest⟩ := Option.bind_eq_some_iff.1 h
    rw [List.foldl_cons, descend_of_enter (Ne.symm hroot.1) hnext, ih hroot.2 hrest]

/-- Of two levels up, one after the other, working off leaves nothing. -/
theorem descend_stack (w : Way) (hpart : part ≠ .root) :
    descend w.stack part = (w.add part).stack := by
  obtain ⟨k, down⟩ := w
  cases part with
  | root => exact absurd rfl hpart
  | here => rw [descend.eq_1]; rfl
  | name text => exact descend_name _ text
  | up =>
    cases down with
    | cons text down => rfl
    | nil =>
      -- A level up is put down if none lies there, and otherwise takes that one away.
      rcases Nat.mod_two_eq_zero_or_one k with hk | hk
      · have hsucc : (k + 1) % 2 = 1 := by omega
        simp only [Way.stack, Way.add, hk, hsucc]
        rfl
      · have hsucc : (k + 1) % 2 = 0 := by omega
        simp only [Way.stack, Way.add, hk, hsucc]
        rfl

theorem foldl_descend_eq_stack (hroot : .root ∉ parts) :
    parts.foldl descend [] = (Way.ofParts parts).stack := by
  have hrun : ∀ w : Way, parts.foldl descend w.stack = (parts.foldl Way.add w).stack := by
    induction parts with
    | nil => exact fun w => rfl
    | cons part parts ih =>
      intro w
      rw [List.mem_cons, not_or] at hroot
      rw [List.foldl_cons, List.foldl_cons, descend_stack w (Ne.symm hroot.1), ih hroot.2]
  exact hrun ⟨0, []⟩

theorem mem_of_mem_splitAt {sep c : Char} {cs piece : List Char} (hpiece : piece ∈ splitAt sep cs)
    (hc : c ∈ piece) : c ∈ cs := by
  induction cs generalizing piece with
  | nil => simp_all [splitAt]
  | cons x cs ih =>
    rw [splitAt] at hpiece
    split at hpiece
    · rcases List.mem_cons.1 hpiece with rfl | hpiece
      · cases hc
      · exact List.mem_cons_of_mem x (ih hpiece hc)
    · split at hpiece
      · obtain rfl := List.mem_singleton.1 hpiece
        rw [List.mem_singleton.1 hc]
        exact List.mem_cons_self
      · rename_i first rest heq
        rw [heq] at ih
        rcases List.mem_cons.1 hpiece with rfl | hpiece
        · rcases List.mem_cons.1 hc with rfl | hc
          · exact List.mem_cons_self
          · exact List.mem_cons_of_mem x (ih List.mem_cons_self hc)
        · exact List.mem_cons_of_mem x (ih (List.mem_cons_of_mem _ hpiece) hc)

/-- The steps in a text, one for each piece that counts. -/
def stepsOf (text : List Char) : List PathPart :=
  ((splitAt '/' text).filter (!isIdle ·)).map partOf

theorem stepsOf_append (a b : List Char) : stepsOf (a ++ '/' :: b) = stepsOf a ++ stepsOf b := by
  unfold stepsOf
  rw [splitAt_append, List.filter_append, List.map_append]

/-- The parts of a path: how it begins, and the steps in its text. -/
theorem parts_eq_stepsOf (p : FilePath) :
    p.parts = (pieces p.text.toList).1.parts ++ stepsOf p.text.toList := by
  have hidle : (pieces p.text.toList).2.filter (!isIdle ·) =
      (splitAt '/' p.text.toList).filter (!isIdle ·) := by
    unfold pieces
    split <;> simp [*, splitAt, isIdle]
  unfold parts stepsOf
  rw [← hidle]

theorem lead_eq_root_iff {p : FilePath} :
    (pieces p.text.toList).1 = .root ↔ p.isAbsolute = true := by
  unfold isAbsolute pieces
  rw [beq_iff_eq]
  split
  · rename_i heq
    rw [heq]
    exact iff_of_true rfl rfl
  · rename_i heq
    rw [heq]
    exact iff_of_false Lead.noConfusion (by decide)
  · rename_i heq
    rw [heq]
    exact iff_of_false Lead.noConfusion nofun
  · rename_i hslash _ _
    refine iff_of_false Lead.noConfusion fun h => ?_
    obtain ⟨body, hbody⟩ := List.head?_eq_some_iff.1 h
    exact hslash body hbody

theorem parts_of_absolute {p : FilePath} (h : p.isAbsolute = true) :
    p.parts = .root :: stepsOf p.text.toList := by
  rw [parts_eq_stepsOf, lead_eq_root_iff.2 h]
  rfl

theorem root_not_mem_stepsOf (text : List Char) : .root ∉ stepsOf text := by
  intro h
  obtain ⟨piece, -, hpart⟩ := List.mem_map.1 h
  unfold partOf at hpart
  split at hpart <;> cases hpart

theorem root_not_mem_parts {p : FilePath} (h : p.isAbsolute = false) : .root ∉ p.parts := by
  rw [parts_eq_stepsOf, List.mem_append, not_or]
  constructor
  · intro hmem
    cases hlead : (pieces p.text.toList).1 with
    | root => exact absurd (lead_eq_root_iff.1 hlead) (Bool.not_eq_true _ ▸ h)
    | here | bare =>
      rw [hlead] at hmem
      simp [Lead.parts] at hmem
  · exact root_not_mem_stepsOf _

/-- A part that has no other separator in it. -/
def IsPlain (part : PathPart) : Prop :=
  part.text.map slash = part.text

/-- The parts of a path as it is written are plain. -/
theorem isPlain_written {text : String} (h : part ∈ (written text).parts) : IsPlain part := by
  rw [parts_eq_stepsOf] at h
  rcases List.mem_append.1 h with h | h
  · cases hlead : (pieces (written text).text.toList).1 with
    | bare =>
      rw [hlead] at h
      cases h
    | root | here =>
      rw [hlead] at h
      obtain rfl := List.mem_singleton.1 h
      rfl
  · obtain ⟨piece, hpiece, rfl⟩ := List.mem_map.1 h
    have htext : (partOf piece).text = piece := by
      unfold partOf
      split
      · rename_i hup
        exact hup.symm
      · rfl
    have hfixed : ∀ c ∈ piece, slash c = c := by
      intro c hc
      have hmem := mem_of_mem_splitAt (List.mem_filter.1 hpiece).1 hc
      rw [written, String.toList_ofList] at hmem
      obtain ⟨x, -, rfl⟩ := List.mem_map.1 hmem
      unfold slash
      by_cases hx : x = '\\'
      · rw [if_pos hx]
        rfl
      · rw [if_neg hx, if_neg hx]
    rw [IsPlain, htext, List.map_congr_left hfixed, List.map_id']

theorem map_joinWith {sep : List Char} {pieces : List (List Char)} {f : Char → Char} :
    (joinWith sep pieces).map f = joinWith (sep.map f) (pieces.map (List.map f)) := by
  induction pieces with
  | nil => rfl
  | cons piece pieces ih =>
    cases pieces with
    | nil => rfl
    | cons next pieces =>
      have hjoin (xs : List Char) : joinWith xs (piece :: next :: pieces) =
          piece ++ xs ++ joinWith xs (next :: pieces) := rfl
      rw [hjoin, List.map_append, List.map_append, ih]
      rfl

theorem map_slash_steps {steps : List PathPart} (h : ∀ part ∈ steps, IsPlain part) :
    (joinWith ['/'] (steps.map PathPart.text)).map slash =
      joinWith ['/'] (steps.map PathPart.text) := by
  have htexts : (steps.map PathPart.text).map (List.map slash) = steps.map PathPart.text := by
    rw [List.map_map]
    exact List.map_congr_left h
  rw [map_joinWith, htexts]
  rfl

/-- What is written from plain steps is read as it is. -/
theorem written_ofParts {steps : List PathPart} (h : ∀ part ∈ steps, part.IsStep)
    (hplain : ∀ part ∈ steps, IsPlain part) : written (ofParts steps).text = ofParts steps := by
  rw [ofParts_steps h, written, String.toList_ofList, map_slash_steps hplain]

/-- The same behind the root. -/
theorem written_ofParts_root {steps : List PathPart} (hplain : ∀ part ∈ steps, IsPlain part) :
    written (ofParts (.root :: steps)).text = ofParts (.root :: steps) := by
  rw [ofParts, written, String.toList_ofList, List.map_cons, map_slash_steps hplain]
  rfl

theorem stepsOf_ofParts {steps : List PathPart} (h : ∀ part ∈ steps, part.IsStep) :
    stepsOf (ofParts steps).text.toList = steps := by
  rw [ofParts_steps h, String.toList_ofList]
  by_cases hne : steps = []
  · rw [hne]
    rfl
  · rw [stepsOf, splitAt_join_steps hne h, map_partOf_steps h]

theorem ofParts_not_absolute {steps : List PathPart} (h : ∀ part ∈ steps, part.IsStep) :
    (ofParts steps).isAbsolute = false := by
  refine Bool.eq_false_iff.2 fun habsolute => ?_
  have hparts := parts_of_absolute habsolute
  rw [← List.nil_append steps, parts_ofParts (Or.inl rfl) h, List.nil_append] at hparts
  exact h .root (hparts ▸ List.mem_cons_self)

/-- Steps that are put behind an absolute path are added to its parts. -/
theorem parts_written_join {base p : FilePath} (hbase : (written base.text).isAbsolute = true)
    (hp : p.isAbsolute = false) (hplain : written p.text = p) :
    (written (base.join p).text).parts = (written base.text).parts ++ stepsOf p.text.toList := by
  have hslash : p.text.toList.map slash = p.text.toList := by
    have htext := congrArg (·.text.toList) hplain
    rwa [written, String.toList_ofList] at htext
  obtain ⟨body, hbody⟩ : ∃ body, base.text.toList.map slash = '/' :: body := by
    rw [isAbsolute, written, String.toList_ofList] at hbase
    exact List.head?_eq_some_iff.1 (eq_of_beq hbase)
  have htext : (base.join p).text.toList = base.text.toList ++
      ((if base.text.toList.getLast? = some '/' then [] else ['/']) ++ p.text.toList) := by
    have hne : base.text.toList ≠ [] := by
      rintro hnil
      rw [hnil] at hbody
      cases hbody
    unfold join
    rw [hp, if_neg Bool.false_ne_true]
    simp [hne]
  -- The whole path is absolute as its directory is: both begin with the same separator.
  have hwhole : (written (base.join p).text).isAbsolute = true := by
    rw [isAbsolute, written, String.toList_ofList, htext, List.map_append, hbody]
    rfl
  -- Where the directory ends with a separator of its own, no other one is put between.
  have hjoin : stepsOf ((base.join p).text.toList.map slash) =
      stepsOf (base.text.toList.map slash) ++ stepsOf p.text.toList := by
    rw [htext, List.map_append, List.map_append, hslash]
    split
    · rename_i hlast
      obtain ⟨front, hfront⟩ := List.getLast?_eq_some_iff.1 hlast
      have hnil : stepsOf [] = [] := rfl
      have hends : (front ++ ['/']).map slash = front.map slash ++ '/' :: [] := List.map_append
      rw [hfront, hends, stepsOf_append, hnil, List.append_nil, List.append_assoc]
      exact stepsOf_append _ _
    · exact stepsOf_append _ _
  rw [parts_of_absolute hwhole, parts_of_absolute hbase, written, written, String.toList_ofList,
    String.toList_ofList, hjoin, List.cons_append]

theorem normalize_eq (text : String) :
    normalize text = ofParts ((written text).parts.foldl descend []).reverse :=
  rfl

theorem mem_descend {stack : List PathPart} {x : PathPart} (h : x ∈ descend stack part) :
    x ∈ stack ∨ x = part := by
  unfold descend at h
  split at h
  · exact Or.inl h
  · exact Or.inr (List.mem_singleton.1 h)
  · exact (List.mem_cons.1 h).symm
  · exact Or.inl (List.mem_cons_of_mem _ h)
  · exact (List.mem_cons.1 h).symm

theorem mem_foldl_descend {stack : List PathPart} {x : PathPart}
    (h : x ∈ parts.foldl descend stack) : x ∈ stack ∨ x ∈ parts := by
  induction parts generalizing stack with
  | nil => exact Or.inl h
  | cons part parts ih =>
    rcases ih h with hstack | hparts
    · rcases mem_descend hstack with hstack | rfl
      · exact Or.inl hstack
      · exact Or.inr List.mem_cons_self
    · exact Or.inr (List.mem_cons_of_mem part hparts)

theorem isStep_of_mem {p : FilePath} (h : part ∈ p.parts) (hroot : part ≠ .root)
    (hhere : part ≠ .here) : part.IsStep := by
  obtain ⟨lead, steps, hparts, hsteps⟩ := p.parts_eq_lead
  rw [hparts] at h
  refine (List.mem_append.1 h).elim (fun hlead => ?_) (hsteps part)
  cases lead with
  | root => exact absurd (List.mem_singleton.1 hlead) hroot
  | here => exact absurd (List.mem_singleton.1 hlead) hhere
  | bare => cases hlead

theorem Way.mem_stack (h : part ∈ w.stack) : part ≠ .root ∧ part ≠ .here := by
  rcases List.mem_append.1 h with h | h
  · obtain ⟨text, -, rfl⟩ := List.mem_map.1 h
    exact ⟨PathPart.noConfusion, PathPart.noConfusion⟩
  · obtain rfl := List.eq_of_mem_replicate h
    exact ⟨PathPart.noConfusion, PathPart.noConfusion⟩

theorem Way.foldl_add_names (w : Way) (names : List (List Char)) :
    (names.map PathPart.name).foldl Way.add w = ⟨w.up, names.reverse ++ w.down⟩ := by
  induction names generalizing w with
  | nil => rfl
  | cons text names ih =>
    rw [List.map_cons, List.foldl_cons, ih, List.reverse_cons, List.append_assoc]
    rfl

/-- The way of what working off leaves. -/
theorem Way.ofParts_stack (w : Way) : Way.ofParts w.stack.reverse = ⟨w.up % 2, w.down⟩ := by
  have hup (k j : Nat) : (List.replicate k PathPart.up).foldl Way.add ⟨j, []⟩ = ⟨j + k, []⟩ := by
    induction k generalizing j with
    | zero => rfl
    | succ k ih =>
      rw [List.replicate_succ, List.foldl_cons]
      exact (ih (j + 1)).trans (by rw [Nat.add_assoc, Nat.add_comm 1])
  rw [Way.ofParts, Way.stack, List.reverse_append, List.reverse_replicate, ← List.map_reverse,
    List.foldl_append, hup, Way.foldl_add_names, List.reverse_reverse, List.append_nil,
    Nat.zero_add]

/-- The root below a stack stays where it is. -/
theorem descend_append_root {stack : List PathPart} (hstack : .root ∉ stack)
    (hpart : part ≠ .root) :
    descend (stack ++ [.root]) part = descend stack part ++ [.root] := by
  cases part with
  | root => exact absurd rfl hpart
  | here => rw [descend.eq_1, descend.eq_1]
  | name text =>
    rw [descend_name, descend_name]
    rfl
  | up =>
    cases stack with
    | nil => rfl
    | cons top stack =>
      cases top with
      | root => exact absurd List.mem_cons_self hstack
      | here | up | name => rfl

/-- Behind the root a path is worked off as it is without one. -/
theorem foldl_descend_root (hroot : .root ∉ parts) :
    (PathPart.root :: parts).foldl descend [] = parts.foldl descend [] ++ [.root] := by
  have hrun (stack : List PathPart) (hstack : .root ∉ stack) :
      parts.foldl descend (stack ++ [.root]) = parts.foldl descend stack ++ [.root] := by
    induction parts generalizing stack with
    | nil => rfl
    | cons part parts ih =>
      rw [List.mem_cons, not_or] at hroot
      have hnext : .root ∉ descend stack part := fun h => (mem_descend h).elim hstack hroot.1
      rw [List.foldl_cons, List.foldl_cons, descend_append_root hstack (Ne.symm hroot.1)]
      exact ih hroot.2 _ hnext
  exact hrun [] List.not_mem_nil

/-- What working off leaves of any path: a way, behind the root or not. -/
theorem exists_way (text : String) : ∃ (base : List PathPart) (w : Way),
    (base = [] ∨ base = [.root]) ∧ normalize text = ofParts (base ++ w.stack.reverse) ∧
      ∀ part ∈ w.stack, part.IsStep ∧ IsPlain part := by
  have hpart {steps : List PathPart} (hsteps : ∀ part ∈ steps, part ∈ (written text).parts)
      (hroot : .root ∉ steps) :
      ∀ part ∈ (Way.ofParts steps).stack, part.IsStep ∧ IsPlain part := by
    intro part hpart
    obtain ⟨hne, hhere⟩ := Way.mem_stack hpart
    rw [← foldl_descend_eq_stack hroot] at hpart
    have hmem := hsteps part ((mem_foldl_descend hpart).resolve_left List.not_mem_nil)
    exact ⟨isStep_of_mem hmem hne hhere, isPlain_written hmem⟩
  cases habsolute : (written text).isAbsolute with
  | false =>
    have hroot := root_not_mem_parts habsolute
    refine ⟨[], Way.ofParts (written text).parts, Or.inl rfl, ?_, hpart (fun _ h => h) hroot⟩
    rw [normalize_eq, foldl_descend_eq_stack hroot, List.nil_append]
  | true =>
    have hparts := parts_of_absolute habsolute
    have hroot := root_not_mem_stepsOf (written text).text.toList
    refine ⟨[.root], Way.ofParts (stepsOf (written text).text.toList), Or.inr rfl, ?_,
      hpart (fun part h => hparts ▸ List.mem_cons_of_mem _ h) hroot⟩
    rw [normalize_eq, hparts, foldl_descend_root hroot, foldl_descend_eq_stack hroot,
      List.reverse_append]
    rfl

/-- A path that was worked off is left as it is. -/
theorem normalize_normalize (text : String) :
    normalize (normalize text).text = normalize text := by
  obtain ⟨base, w, hbase, hnormal, hsteps⟩ := exists_way text
  have hstep : ∀ part ∈ w.stack.reverse, part.IsStep :=
    fun part h => (hsteps part (List.mem_reverse.1 h)).1
  have hplain : ∀ part ∈ w.stack.reverse, IsPlain part :=
    fun part h => (hsteps part (List.mem_reverse.1 h)).2
  have hroot : .root ∉ w.stack.reverse := fun h => hstep .root h
  have hwritten : written (ofParts (base ++ w.stack.reverse)).text =
      ofParts (base ++ w.stack.reverse) := by
    rcases hbase with rfl | rfl
    · exact written_ofParts hstep hplain
    · exact written_ofParts_root hplain
  -- Of what is left only one level up can come first, and it stays.
  have hagain : (Way.ofParts w.stack.reverse).stack = w.stack := by
    rw [w.ofParts_stack, Way.stack, Way.stack, Nat.mod_mod]
  rw [hnormal, normalize_eq, hwritten, parts_ofParts hbase hstep]
  rcases hbase with rfl | rfl
  · rw [List.nil_append, foldl_descend_eq_stack hroot, hagain]
  · rw [List.singleton_append, foldl_descend_root hroot, foldl_descend_eq_stack hroot, hagain,
      List.reverse_append]
    rfl

/-- A path that is taken from a directory needs no more working off. -/
theorem normalize_resolve (base? : Option FilePath) (text : String) :
    normalize (resolve base? text).text = resolve base? text := by
  unfold resolve
  cases base? with
  | none => exact normalize_normalize text
  | some base =>
    dsimp only
    split
    · exact normalize_normalize text
    · exact normalize_normalize _

theorem walkFrom_append (dir : List (List Char)) (parts more : List PathPart) :
    walkFrom dir (parts ++ more) = (walkFrom dir parts).bind (walkFrom · more) :=
  List.foldlM_append

section
variable {base : FilePath} {path : String} {names : List (List Char)}

/-- What working off leaves are steps of the path. -/
theorem isStep_of_mem_stack (hw : w = Way.ofParts (written path).parts)
    (hpath : (written path).isAbsolute = false) (h : part ∈ w.stack) :
    part ∈ (written path).parts ∧ part.IsStep := by
  have hmem : part ∈ (written path).parts := by
    rw [hw, ← foldl_descend_eq_stack (root_not_mem_parts hpath)] at h
    exact (mem_foldl_descend h).resolve_left List.not_mem_nil
  obtain ⟨hroot, hhere⟩ := Way.mem_stack h
  exact ⟨hmem, isStep_of_mem hmem hroot hhere⟩

/-- A relative path leads to where its names are below the directory, or below the directory above
it if the path leads up an odd number of levels. -/
theorem resolve_eq_below (hbase : (written base.text).parts = .root :: names.map .name)
    (hpath : (written path).isAbsolute = false) (hw : w = Way.ofParts (written path).parts)
    (hup : w.up % 2 ≤ names.length) :
    resolve (some base) path = below (w.down ++ names.reverse.drop (w.up % 2)) := by
  let steps := w.stack.reverse
  have hstep : ∀ part ∈ steps, part.IsStep := fun part hpart =>
    (isStep_of_mem_stack hw hpath (List.mem_reverse.1 hpart)).2
  have hplain : ∀ part ∈ steps, IsPlain part := fun part hpart =>
    isPlain_written (isStep_of_mem_stack hw hpath (List.mem_reverse.1 hpart)).1
  have hstack : (written path).parts.foldl descend [] = w.stack :=
    hw ▸ foldl_descend_eq_stack (root_not_mem_parts hpath)
  have hnormal : normalize path = ofParts steps := by rw [normalize_eq, hstack]
  have habsolute : (written base.text).isAbsolute = true := by
    refine Bool.not_eq_false _ ▸ fun h => root_not_mem_parts h ?_
    rw [hbase]
    exact List.mem_cons_self
  have hjoined := parts_written_join habsolute (ofParts_not_absolute hstep)
    (written_ofParts hstep hplain)
  rw [stepsOf_ofParts hstep, hbase] at hjoined
  -- Behind the directory no level up is left over, so working off is walking.
  have hwalk : walkFrom [] (names.map .name ++ steps) =
      some (w.down ++ names.reverse.drop (w.up % 2)) := by
    have hnames : walkFrom [] (names.map .name) = some names.reverse := by
      rw [walkFrom_eq_leadsFrom, Way.ofParts, Way.foldl_add_names, List.append_nil]
      exact congrArg some (List.append_nil _)
    have hsteps : walkFrom names.reverse steps =
        some (w.down ++ names.reverse.drop (w.up % 2)) := by
      rw [walkFrom_eq_leadsFrom, w.ofParts_stack]
      exact if_pos (by rwa [List.length_reverse])
    rw [walkFrom_append, hnames, Option.bind_some, hsteps]
  have hroot : .root ∉ names.map PathPart.name ++ steps := by
    rw [List.mem_append, not_or]
    exact ⟨by simp, fun h => hstep .root h⟩
  have hfold := foldl_descend_of_walk hroot hwalk
  unfold resolve
  dsimp only
  rw [hnormal, ofParts_not_absolute hstep, if_neg Bool.false_ne_true, normalize_eq, hjoined,
    List.cons_append, List.foldl_cons]
  change ofParts (List.foldl descend [.root] _).reverse = _
  rw [List.map_nil, List.nil_append] at hfold
  rw [hfold, List.reverse_append, ← List.map_reverse]
  rfl

/-- Two directories below the root are the same path only if they have the same names. -/
theorem below_injective {other : List (List Char)}
    (hdir : ∀ text ∈ dir, (PathPart.name text).IsStep)
    (hother : ∀ text ∈ other, (PathPart.name text).IsStep) (h : below dir = below other) :
    dir = other := by
  have hparts {names : List (List Char)} (hnames : ∀ text ∈ names, (PathPart.name text).IsStep) :
      (below names).parts = .root :: names.reverse.map .name := by
    have hroot : [PathPart.root] = [] ∨ [PathPart.root] = [.root] := Or.inr rfl
    have hsteps : ∀ part ∈ names.reverse.map PathPart.name, part.IsStep :=
      List.forall_mem_map.2 fun text htext => hnames text (List.mem_reverse.1 htext)
    have hwritten := parts_ofParts hroot hsteps
    rwa [List.singleton_append] at hwritten
  have hnames := congrArg parts h
  rw [hparts hdir, hparts hother] at hnames
  have hmap := (List.cons.inj hnames).2
  exact List.reverse_inj.1 ((List.map_inj_right fun _ _ => PathPart.name.inj).1 hmap)

/-- A relative path that does not lead above the root is the path that is reached from the directory
by walking its parts one after the other, just if it leads up at most one level. -/
theorem resolve_walks_iff (hbase : (written base.text).parts = .root :: names.map .name)
    (hpath : (written path).isAbsolute = false)
    (hwalk : walkFrom names.reverse (written path).parts = some reached) :
    resolve (some base) path = below reached ↔ climb (written path).parts ≤ 1 := by
  rw [walkFrom_eq_leadsFrom] at hwalk
  unfold climb
  generalize hw : Way.ofParts (written path).parts = w at hwalk ⊢
  unfold Way.leadsFrom at hwalk
  split at hwalk
  · rename_i hup
    cases hwalk
    rw [List.length_reverse] at hup
    have hmod := Nat.mod_le w.up 2
    rw [resolve_eq_below hbase hpath hw.symm (Nat.le_trans hmod hup)]
    have hnames : ∀ text ∈ names.reverse, (PathPart.name text).IsStep := by
      intro text htext
      have hmem : .name text ∈ (written base.text).parts := by
        rw [hbase]
        exact List.mem_cons_of_mem _ (List.mem_map_of_mem (List.mem_reverse.1 htext))
      exact isStep_of_mem hmem PathPart.noConfusion PathPart.noConfusion
    have hdown : ∀ text ∈ w.down, (PathPart.name text).IsStep := fun text htext =>
      (isStep_of_mem_stack hw.symm hpath
        (List.mem_append_left _ (List.mem_map_of_mem htext))).2
    have hall (k : Nat) : ∀ text ∈ w.down ++ names.reverse.drop k, (PathPart.name text).IsStep :=
      List.forall_mem_append.2 ⟨hdown, fun text htext => hnames text (List.mem_of_mem_drop htext)⟩
    constructor
    · intro h
      -- Only as many names are taken away as there are levels up.
      have hdrop := List.append_cancel_left (below_injective (hall _) (hall _) h)
      have hlength := congrArg List.length hdrop
      rw [List.length_drop, List.length_drop, List.length_reverse] at hlength
      omega
    · intro h
      rw [Nat.mod_eq_of_lt (Nat.lt_succ_of_le h)]
  · cases hwalk

end

/-- Two levels up from two levels below the root: the path does not lead to the root. -/
theorem resolve_walks_iff_two_up :
    let base : FilePath := ⟨"/src/proj"⟩
    let path := "..\\../lib"
    let names := ["src".toList, "proj".toList]
    let reached := ["lib".toList]
    (written base.text).parts = .root :: names.map .name ∧ (written path).isAbsolute = false ∧
      walkFrom names.reverse (written path).parts = some reached ∧
      resolve (some base) path ≠ below reached := by
  intro base path names reached
  have hbase : (written base.text).parts = .root :: names.map .name := by decide +kernel
  have hpath : (written path).isAbsolute = false := by decide +kernel
  have hwalk : walkFrom names.reverse (written path).parts = some reached := by decide +kernel
  refine ⟨hbase, hpath, hwalk, fun h => ?_⟩
  have hclimb := (resolve_walks_iff hbase hpath hwalk).1 h
  exact absurd hclimb (by decide +kernel)

example : (resolve (some ⟨"/src/proj"⟩) "../../lib").text = "/src/proj/lib" := by decide +kernel

example : (resolve (some ⟨"/src/proj"⟩) "a/.././..\\lib").text = "/src/lib" := by decide +kernel

end ProjectAnalysis.FilePath
