import ProjectAnalysis.Proofs.NodeLayout
import ProjectAnalysis.Proofs.ParenDepth

/-! Parentheses of the grammar come in pairs, so the characters that a construct was read from open
as many more than they close as the values in its tree do that may hold any characters. -/
namespace ProjectAnalysis.Expr

/-- What the value of a node itself opens; names and numbers hold no parentheses. -/
def Shape.loose {α : Type} : Shape α → Int
  | .text value _ | .registryValue value | .classReference value => excess value.toList
  | _ => 0

/-- What the values in a tree open together. -/
def Node.loose (n : Node) : Int :=
  (n.preorder.map fun m => m.shape.loose).foldr (· + ·) 0

/-- What the values in some trees open together. -/
def looseAll (xs : List Node) : Int :=
  (xs.map Node.loose).foldr (· + ·) 0

/-- What a construct opens by its own brackets. -/
def TextRule.loose : TextRule → Int
  | .argumentList opening close => excess [opening, close]
  | _ => 0

theorem Node.preorder_eq (n : Node) : n.preorder = n :: n.children.flatMap preorder := by
  rw [preorder, List.flatMap_subtype (g := preorder) fun _ _ => rfl, List.unattach_attach]

theorem foldr_add_append (ks ls : List Int) : (ks ++ ls).foldr (· + ·) 0 =
    ks.foldr (· + ·) 0 + ls.foldr (· + ·) 0 := by
  induction ks with
  | nil => exact (Int.zero_add _).symm
  | cons k ks ih =>
    rw [List.cons_append, List.foldr_cons, ih, List.foldr_cons, Int.add_assoc]

theorem Node.loose_mk (span : Span) (shape : Shape Node) :
    (Node.mk span shape).loose = shape.loose + looseAll shape.children := by
  have hflat (cs : List Node) :
      ((cs.flatMap preorder).map fun m => m.shape.loose).foldr (· + ·) 0 = looseAll cs := by
    induction cs with
    | nil => rfl
    | cons c cs ih =>
      rw [List.flatMap_cons, List.map_append, foldr_add_append, ih]
      rfl
  rw [loose, preorder_eq, List.map_cons, List.foldr_cons, hflat]
  rfl

/-- A class of characters without parentheses. -/
theorem excess_of_all {p : Char → Bool} (hopen : p '(' = false) (hclose : p ')' = false)
    {cs : List Char} (h : ∀ x ∈ cs, p x = true) : excess cs = 0 := by
  refine excess_eq_zero (fun hmem => ?_) (fun hmem => ?_)
  · cases hopen.symm.trans (h _ hmem)
  · cases hclose.symm.trans (h _ hmem)

theorem excess_name {cs : List Char} (h : IsName cs) : excess cs = 0 := by
  obtain ⟨x, xs, rfl, hx, hxs⟩ := h
  refine excess_of_all (p := fun x => isNamePart x || x == '-') rfl rfl fun y hy => ?_
  rcases List.mem_cons.1 hy with rfl | hy
  · have hpart : isNamePart y = true := by
      unfold isNameStart at hx
      unfold isNamePart Char.isAlphanum
      rcases Bool.or_eq_true_iff.1 hx with hx | hx <;> simp [hx]
    simp [hpart]
  · rcases hxs y hy with hy | hy <;> simp [hy]

theorem excess_number {cs : List Char} (h : IsNumber cs) : excess cs = 0 := by
  obtain ⟨x, xs, rfl, hx, hxs⟩ := h
  refine excess_of_all (p := fun x => isNumberPart x || x == '-') rfl rfl fun y hy => ?_
  rcases List.mem_cons.1 hy with rfl | hy
  · rcases hx with hx | hx <;> simp [isNumberPart, hx]
  · simp [hxs y hy]

theorem excess_blanks {cs : List Char} (h : ∀ x ∈ cs, isBlank x = true) : excess cs = 0 :=
  excess_of_all rfl rfl h

theorem excess_reverse (cs : List Char) : excess cs.reverse = excess cs := by
  unfold excess
  rw [List.count_reverse, List.count_reverse]

theorem excess_trimStart (cs : List Char) : excess (trimStart cs) = excess cs := by
  have hsplit := List.takeWhile_append_dropWhile (p := isBlank) (l := cs)
  have hblanks : excess (cs.takeWhile isBlank) = 0 :=
    excess_blanks (List.all_eq_true.1 List.all_takeWhile)
  rw [← congrArg excess hsplit, excess_append, hblanks, Int.zero_add]
  rfl

theorem excess_trimEnd (cs : List Char) : excess (trimEnd cs) = excess cs := by
  have hstart := excess_trimStart cs.reverse
  rw [excess_reverse] at hstart
  rw [trimEnd, excess_reverse]
  exact hstart

theorem excess_trim (cs : List Char) : excess (trim cs) = excess cs := by
  rw [trim, excess_trimEnd, excess_trimStart]

theorem excess_registryLead {lead : List Char} (h : sameIgnoringCase registryLead lead = true) :
    excess lead = 0 := by
  have hfold : foldAscii registryLead = foldAscii lead := eq_of_beq h
  have hmem {c : Char} (hc : c ∈ lead) : c.toLower ∈ foldAscii registryLead :=
    hfold ▸ List.mem_map_of_mem hc
  refine excess_eq_zero (fun hopen => ?_) (fun hclose => ?_)
  · have hlower := hmem hopen
    revert hlower
    decide
  · have hlower := hmem hclose
    revert hlower
    decide

variable {c d : Cursor} {xs : List Node}

theorem looseAll_nil : looseAll [] = 0 := rfl

theorem looseAll_singleton (n : Node) : looseAll [n] = n.loose :=
  Int.add_zero n.loose

theorem looseAll_append (xs ys : List Node) : looseAll (xs ++ ys) = looseAll xs + looseAll ys := by
  rw [looseAll, List.map_append, foldr_add_append]
  rfl

theorem looseAll_node (span : Span) (shape : Shape Node) :
    looseAll [.mk span shape] = shape.loose + looseAll shape.children := by
  rw [looseAll_singleton, Node.loose_mk]

/-- A value and what it is called with. -/
theorem looseAll_invocation (span : Span) (target : Node) (function arguments : Option Node) :
    looseAll [.mk span (.invocation target function arguments)] =
      looseAll [target] + (looseAll function.toList + looseAll arguments.toList) := by
  rw [looseAll_node, ← looseAll_append, ← looseAll_append]
  exact Int.zero_add _

/-- A transform after the one before it, if there is one. -/
theorem looseAll_transform (span : Span) (target : Option Node) (function arguments : Node) :
    looseAll [.mk span (.itemFunction target function arguments)] =
      looseAll target.toList + (looseAll [function] + looseAll [arguments]) := by
  rw [looseAll_node, ← looseAll_append, ← looseAll_append]
  exact Int.zero_add _

/-- A function that is named in the text. -/
theorem looseAll_function (span : Span) (name : String) :
    looseAll [.mk span (.functionName name)] = 0 := by
  rw [looseAll_node]
  rfl

theorem looseAll_joined (span : Span) (q : Bool) (xs : List Node) :
    looseAll [joined span q xs] = looseAll xs := by
  unfold joined
  split
  · rw [looseAll_node]
    rfl
  · rfl
  · rw [looseAll_node]
    exact Int.zero_add _

/-- The characters from one place to another open this much. -/
def Opens (c d : Cursor) (k : Int) : Prop :=
  ∃ cs, c.Reads cs d ∧ excess cs = k

theorem opens_reads {cs : List Char} (h : c.Reads cs d) : Opens c d (excess cs) :=
  ⟨cs, h, rfl⟩

theorem Opens.trans {b : Cursor} {j k : Int} (hb : Opens c b j) (hd : Opens b d k) :
    Opens c d (j + k) := by
  obtain ⟨xs, hxs, rfl⟩ := hb
  obtain ⟨ys, hys, rfl⟩ := hd
  exact ⟨xs ++ ys, hxs.trans hys, excess_append xs ys⟩

theorem Blanks.opens (h : Blanks c d) : Opens c d 0 := by
  obtain ⟨cs, hread, hcs⟩ := h
  exact ⟨cs, hread, excess_blanks hcs⟩

theorem Named.opens {cs : List Char} (h : Named c cs d) : Opens c d 0 :=
  ⟨cs, h.1, excess_name h.2⟩

/-- Constructs that may be left out, and are one node if they are not. -/
def TextRule.optional : TextRule → Bool
  | .call | .transforms | .separator => true
  | _ => false

theorem Spells.toList_head? {o : Options} {rule : TextRule} (h : Spells o rule c xs d)
    (hrule : rule.optional = true) : xs.head?.toList = xs := by
  induction h with
  | afterTransforms _ _ ih => exact ih hrule
  | noCall | call _ | noTransform | quotedTransform _ _ _ _ | functionTransform _ _ _ _ _ _
  | noSeparator | separator _ _ _ => rfl
  | _ => cases hrule

/-- A construct opens what its values open. -/
theorem Spells.opens {o : Options} {rule : TextRule} (h : Spells o rule c xs d) :
    Opens c d (looseAll xs + rule.loose) := by
  have hsame {c d : Cursor} {j k : Int} (h : Opens c d j) (hk : j = k) : Opens c d k := hk ▸ h
  have hclosing : excess [')'] = -1 := rfl
  induction h with
  | noParts | noCall | noTransform | noSeparator => exact opens_reads (Cursor.reads_nil _)
  | body _ ih | call _ ih | quotedArgument _ ih | referenceArgument _ ih => exact ih
  | literal before hcs _ ih =>
    refine hsame (ih.trans (opens_reads hcs)) ?_
    rw [looseAll_append, looseAll_node]
    simp only [Shape.loose, Shape.children, looseAll_nil, String.toList_ofList, TextRule.loose]
    omega
  | part _ _ ihbefore ih =>
    refine hsame (ihbefore.trans ih) ?_
    rw [looseAll_append]
    simp only [TextRule.loose]
    omega
  | segment _ ih =>
    rw [looseAll_joined]
    exact ih
  | nextSegment before hsep h ihbefore ih =>
    have hseparator : excess [';'] = 0 := rfl
    refine hsame (ihbefore.trans ((opens_reads hsep).trans ih)) ?_
    rw [looseAll_append, looseAll_joined]
    simp only [TextRule.loose]
    omega
  | property hopen w₁ _ w₃ hclose ih =>
    have hopening : excess ['$', '('] = 1 := rfl
    refine hsame ((opens_reads hopen).trans
      (w₁.opens.trans (ih.trans (w₃.opens.trans (opens_reads hclose))))) ?_
    rw [looseAll_node]
    simp only [Shape.loose, Shape.children, TextRule.loose]
    omega
  | item _ hopen w₁ hname w₃ ht hs w₆ hclose iht ihs =>
    have hopening : excess ['@', '('] = 1 := rfl
    have hhead := (opens_reads hopen).trans (w₁.opens.trans (hname.opens.trans w₃.opens))
    refine hsame (hhead.trans (iht.trans (ihs.trans (w₆.opens.trans (opens_reads hclose))))) ?_
    rw [looseAll_node]
    simp only [Shape.loose, Shape.children, TextRule.loose, ht.toList_head? rfl,
      hs.toList_head? rfl, looseAll_append]
    omega
  | metadata _ hopen w₁ hname w₃ hclose =>
    have hopening : excess ['%', '('] = 1 := rfl
    refine hsame ((opens_reads hopen).trans
      (w₁.opens.trans (hname.opens.trans (w₃.opens.trans (opens_reads hclose))))) ?_
    rw [looseAll_node]
    simp only [Shape.loose, Shape.children, TextRule.loose, looseAll_nil]
    omega
  | ownedMetadata _ hopen w₁ howner w₃ hdot w₅ hname w₇ hclose =>
    have hopening : excess ['%', '('] = 1 := rfl
    have hpoint : excess ['.'] = 0 := rfl
    have hhead := (opens_reads hopen).trans (w₁.opens.trans (howner.opens.trans w₃.opens))
    have hdotted := (opens_reads hdot).trans (w₅.opens.trans hname.opens)
    refine hsame (hhead.trans (hdotted.trans (w₇.opens.trans (opens_reads hclose)))) ?_
    rw [looseAll_node]
    simp only [Shape.loose, Shape.children, TextRule.loose, looseAll_nil]
    omega
  | name hname =>
    refine hsame hname.opens ?_
    rw [looseAll_node]
    rfl
  | staticCall hclass w₁ hcolons w₃ hname w₅ ha ih =>
    have hopening : excess ['['] = 0 := rfl
    have hbracket : excess [']'] = 0 := rfl
    have hcolon : excess [':', ':'] = 0 := rfl
    have hhead := (opens_reads hclass).trans (w₁.opens.trans ((opens_reads hcolons).trans w₃.opens))
    refine hsame (hhead.trans (hname.opens.trans (w₅.opens.trans ih))) ?_
    rw [looseAll_invocation, Option.toList_some, looseAll_function, looseAll_node,
      ha.toList_head? rfl, excess_cons, excess_append]
    simp only [Shape.loose, Shape.children, TextRule.loose, looseAll_nil, String.toList_ofList,
      excess_trim]
    omega
  | member _ hdot w₂ hname w₄ ha ihbefore ih =>
    have hpoint : excess ['.'] = 0 := rfl
    have hhead := ihbefore.trans ((opens_reads hdot).trans w₂.opens)
    refine hsame (hhead.trans (hname.opens.trans (w₄.opens.trans ih))) ?_
    rw [looseAll_invocation, Option.toList_some, looseAll_function, ha.toList_head? rfl]
    simp only [TextRule.loose]
    omega
  | index _ _ ihbefore ih =>
    have hbrackets : excess ['[', ']'] = 0 := rfl
    refine hsame (ihbefore.trans ih) ?_
    rw [looseAll_invocation]
    simp only [Option.toList_none, Option.toList_some, TextRule.loose, looseAll_nil]
    omega
  | afterValue _ w ih | afterTransforms _ w ih | arguments _ w ih =>
    exact hsame (ih.trans w.opens) (Int.add_zero _)
  | registry hlead hcs _ =>
    refine hsame (opens_reads hcs) ?_
    rw [looseAll_node, excess_append, excess_registryLead hlead]
    simp only [Shape.loose, Shape.children, TextRule.loose, looseAll_nil, String.toList_ofList,
      excess_trimEnd]
    omega
  | noArguments hopen w₁ hclose =>
    refine hsame ((opens_reads hopen).trans (w₁.opens.trans (opens_reads hclose))) ?_
    rw [looseAll_node, TextRule.loose, excess_cons _ [_]]
    simp only [Shape.loose, Shape.children, looseAll_nil]
    omega
  | argumentList hopen w₁ _ hclose ih =>
    refine hsame ((opens_reads hopen).trans (w₁.opens.trans (ih.trans (opens_reads hclose)))) ?_
    rw [looseAll_node, TextRule.loose, excess_cons _ [_]]
    simp only [Shape.loose, Shape.children, TextRule.loose]
    omega
  | nextArgument _ hsep w₂ _ w₄ ihbefore ih =>
    have hcomma : excess [','] = 0 := rfl
    refine hsame (ihbefore.trans ((opens_reads hsep).trans
      (w₂.opens.trans (ih.trans w₄.opens)))) ?_
    rw [looseAll_append]
    simp only [TextRule.loose]
    omega
  | number hcs hnumber =>
    refine hsame (opens_reads hcs) ?_
    rw [excess_number hnumber, looseAll_node]
    rfl
  | word hname =>
    refine hsame hname.opens ?_
    rw [looseAll_node]
    simp only [Shape.loose, Shape.children, TextRule.loose, looseAll_nil, String.toList_ofList,
      excess_name hname.2]
    omega
  | @quoted o c d e q cs nodes hq hcs _ h hend ih =>
    have hquote : excess [q] = 0 := excess_of_all (p := isQuote) rfl rfl (by simpa using hq)
    -- The text between the quotes is read to its end, so all of it is counted.
    obtain ⟨read, hread, hopens⟩ := ih
    obtain rfl : cs = read := by
      have hall := hread.1
      rwa [hend, List.append_nil] at hall
    refine hsame (opens_reads hcs) ?_
    rw [looseAll_joined, excess_cons, excess_append, hopens]
    simp only [TextRule.loose]
    omega
  | quotedTransform _ harrow w₂ _ ihbefore ih =>
    have hdash : excess ['-', '>'] = 0 := rfl
    refine hsame (ihbefore.trans ((opens_reads harrow).trans (w₂.opens.trans ih))) ?_
    simp only [TextRule.loose, looseAll_nil]
    omega
  | functionTransform before harrow w₂ hname w₄ ha ihbefore ih =>
    have hdash : excess ['-', '>'] = 0 := rfl
    have hparens : excess ['(', ')'] = 0 := rfl
    have hhead := ihbefore.trans ((opens_reads harrow).trans w₂.opens)
    refine hsame (hhead.trans (hname.opens.trans (w₄.opens.trans ih))) ?_
    rw [looseAll_transform, looseAll_function, before.toList_head? rfl]
    simp only [TextRule.loose]
    omega
  | separator hcomma w₁ _ ih =>
    have hcomma' : excess [','] = 0 := rfl
    refine hsame ((opens_reads hcomma).trans (w₁.opens.trans ih)) ?_
    simp only [TextRule.loose]
    omega

end ProjectAnalysis.Expr
