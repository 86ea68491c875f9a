import ProjectAnalysis.Proofs.TextRun

/-! The readers of text with references follow the grammar: whatever they read, the grammar spells
between the place where they began and the place where they stopped. -/
namespace ProjectAnalysis.Expr

variable {n : Nat} {c d : Cursor} {a : Node}

theorem blanks_skipWhile (c : Cursor) : Blanks c (c.skipWhile isBlank) :=
  ⟨_, c.reads_skipWhile isBlank, c.all_run isBlank⟩

/-- The references inside follow the grammar. -/
def InnerSpells (inner : Inner n) : Prop :=
  ∀ o c a d, (inner o).Gives c a d → Spells o .reference c [a] d

section
variable {inner : Inner n} {o : Options}

theorem spells_literal {q lists : Bool} {b : Cursor} {nodes more : List Node}
    (before : Spells o (.parts q) b nodes c) (h : (literal q lists : Read n _).Gives c more d) :
    Spells o (.parts q) b (nodes ++ more) d ∧ literalLength lists d.rest = 0 := by
  obtain ⟨-, hliteral⟩ := gives_literal.1 h
  rcases hliteral with ⟨hzero, rfl, rfl⟩ | ⟨cs, hne, hread, hlength, rfl⟩
  · rw [List.append_nil]
    exact ⟨before, hzero⟩
  · refine ⟨.literal before hread hne, ?_⟩
    have hdrop := literalLength_drop lists c.rest
    rwa [hlength, hread.1, List.drop_left] at hdrop

theorem spells_registryValue (hlead : startsIgnoringCase registryLead c.rest = true)
    (h : (registryValue : Read n Node).Gives c a d) : Spells o .body c [a] d := by
  replace h := Reader.gives_offset_bind.1 h
  obtain ⟨lead, e, htake, hthen⟩ := Reader.gives_bind.1 h
  obtain ⟨-, rfl, rfl⟩ := Reader.gives_take.1 htake
  obtain ⟨value, f, hvalue, hthen⟩ := Reader.gives_bind.1 hthen
  obtain ⟨-, rfl, rfl⟩ := Reader.gives_takeWhile.1 hvalue
  replace hthen := Reader.gives_offset_bind.1 hthen
  obtain ⟨-, rfl, rfl⟩ := Reader.gives_pure.1 hthen
  have hread := (c.reads_skip registryLead.length).trans (Cursor.reads_skipWhile (· != ')') _)
  refine .registry hlead hread fun hmem => ?_
  have hne := Cursor.all_run _ _ _ hmem
  simp at hne

theorem spells_metadata {b : Cursor} (hopen : b.Reads ['%', '('] c)
    (h : (metadataFrom o b.offset : Read n Node).Gives c a d) :
    Spells o .reference b [a] d := by
  obtain ⟨ho, hthen⟩ := gives_failAt_else.1 h
  replace ho : o.metadata = true := by simpa using ho
  obtain ⟨-, hthen⟩ := Reader.gives_blanks_bind.1 hthen
  obtain ⟨first, e, hfirst, hthen⟩ := Reader.gives_bind.1 hthen
  obtain ⟨-, cs, hname, -, rfl⟩ := gives_name.1 hfirst
  obtain ⟨-, hthen⟩ := Reader.gives_blanks_bind.1 hthen
  obtain ⟨qualified, f, heat, hthen⟩ := Reader.gives_bind.1 hthen
  obtain ⟨-, ⟨rfl, hdot⟩ | ⟨rfl, -, rfl⟩⟩ := Reader.gives_eat.1 heat
  · obtain ⟨-, hthen⟩ := Reader.gives_blanks_bind.1 hthen
    obtain ⟨_, g, hmap, hthen⟩ := Reader.gives_bind.1 hthen
    obtain ⟨second, hsecond, rfl⟩ := Reader.gives_map.1 hmap
    obtain ⟨-, cs', hname', -, rfl⟩ := gives_name.1 hsecond
    obtain ⟨-, hclose, rfl⟩ := gives_closed.1 hthen
    exact .ownedMetadata ho hopen (blanks_skipWhile _) hname (blanks_skipWhile _) hdot
      (blanks_skipWhile _) hname' (blanks_skipWhile _) hclose
  · obtain ⟨_, _, hnone, hthen⟩ := Reader.gives_bind.1 hthen
    obtain ⟨-, rfl, rfl⟩ := Reader.gives_pure.1 hnone
    obtain ⟨-, hclose, rfl⟩ := gives_closed.1 hthen
    exact .metadata ho hopen (blanks_skipWhile _) hname
      ((blanks_skipWhile _).trans (blanks_skipWhile _)) hclose

variable (hinner : InnerSpells inner)
include hinner

/-- After the last part there is neither literal text nor a reference. -/
theorem spells_parts {q lists : Bool} {nodes : List Node}
    (h : (parts inner o q lists).Gives c nodes d) : Spells o (.parts q) c nodes d ∧
      literalLength lists d.rest = 0 ∧ startsReference d = false := by
  obtain ⟨first, e, hfirst, hfold⟩ := Reader.gives_bind.1 h
  have hstart := spells_literal (o := o) .noParts hfirst
  obtain ⟨⟨hspells, hliteral⟩, hpass⟩ := Reader.Gives.fold_induction
    (P := fun nodes e => Spells o (.parts q) c nodes e ∧ literalLength lists e.rest = 0)
    (fun nodes e more f hnodes htakes => by
      obtain ⟨a, g, htaken, hthen⟩ := Branch.takes_andThen.1 htakes
      obtain ⟨-, ha⟩ := Step.takes_branch.1 htaken
      obtain ⟨rest, f, hrest, hthen⟩ := Reader.gives_bind.1 hthen
      obtain ⟨-, rfl, rfl⟩ := Reader.gives_pure.1 hthen
      have hmore := spells_literal (.part hnodes.1 (hinner _ _ _ _ ha)) hrest
      rwa [List.append_assoc, List.singleton_append] at hmore) hfold hstart
  refine ⟨hspells, hliteral, ?_⟩
  exact (Step.passes_branch.1 (Branch.passes_andThen.1 hpass)).2

theorem spells_concat {q lists : Bool} (h : (concat inner o q lists).Gives c a d) :
    ∃ nodes, Spells o (.parts q) c nodes d ∧ a = joined ⟨c.offset, d.offset⟩ q nodes ∧
      literalLength lists d.rest = 0 ∧ startsReference d = false := by
  obtain ⟨nodes, hnodes, rfl⟩ := gives_concat.1 h
  have hspells := spells_parts hinner hnodes
  exact ⟨nodes, hspells.1, rfl, hspells.2⟩

theorem spells_quoted (h : (quoted inner o).Takes c a d) : Spells o .quoted c [a] d := by
  obtain ⟨-, q, cs, e, hq, hcs, hread, hconcat⟩ := takes_quoted.1 h
  obtain ⟨nodes, hnodes, rfl, hliteral, hreference⟩ := spells_concat hinner hconcat
  exact .quoted hq hread hcs hnodes (rest_eq_nil hliteral hreference nofun)

theorem spells_argument (h : (argument inner o).Gives c a d) : Spells o .argument c [a] d := by
  obtain ⟨found, e, hfound, hthen⟩ := Reader.gives_bind.1 h
  rcases Branch.gives_optional.1 hfound with ⟨-, rfl, rfl⟩ | ⟨b, htakes, rfl⟩
  · replace hthen := Reader.gives_peek_bind.1 hthen
    split at hthen
    · exact absurd hthen gives_failHere
    · rename_i x hnext
      obtain ⟨rest, hx⟩ : ∃ rest, c.rest = x :: rest := List.head?_eq_some_iff.1 hnext
      split at hthen
      · rename_i hnumber
        obtain ⟨-, hread, rfl⟩ := (gives_number hx).1 hthen
        refine .number hread ⟨x, _, rfl, ?_, List.all_eq_true.1 List.all_takeWhile⟩
        simpa using hnumber
      · split at hthen
        · obtain ⟨-, cs, hname, -, rfl⟩ := gives_bareWord.1 hthen
          exact .word hname
        · exact absurd hthen gives_failHere
  · obtain ⟨-, rfl, rfl⟩ := Reader.gives_pure.1 hthen
    rcases Branch.takes_orElse.1 htakes with hquoted | ⟨-, hreference⟩
    · exact .quotedArgument (spells_quoted hinner hquoted)
    · exact .referenceArgument (hinner _ _ _ _ (Step.takes_branch.1 hreference).2)

theorem spells_arguments {close : Char} {nodes : List Node}
    (h : (arguments inner o close).Gives c nodes d) : ∃ e, Blanks c e ∧
      ((nodes = [] ∧ e.Reads [close] d) ∨
        ∃ f, Spells o .arguments e nodes f ∧ f.Reads [close] d) := by
  obtain ⟨-, hthen⟩ := Reader.gives_blanks_bind.1 h
  refine ⟨_, blanks_skipWhile c, ?_⟩
  obtain ⟨closed, e, heat, hthen⟩ := Reader.gives_bind.1 hthen
  obtain ⟨-, ⟨rfl, hread⟩ | ⟨rfl, -, rfl⟩⟩ := Reader.gives_eat.1 heat
  · rw [if_pos rfl] at hthen
    obtain ⟨-, rfl, rfl⟩ := Reader.gives_pure.1 hthen
    exact Or.inl ⟨rfl, hread⟩
  · rw [if_neg Bool.false_ne_true] at hthen
    obtain ⟨first, e, hfirst, hthen⟩ := Reader.gives_bind.1 hthen
    obtain ⟨-, hthen⟩ := Reader.gives_blanks_bind.1 hthen
    obtain ⟨all, f, hfold, hthen⟩ := Reader.gives_bind.1 hthen
    -- The arguments so far are spelled up to where the next comma may stand.
    obtain ⟨hall, -⟩ := Reader.Gives.fold_induction
      (P := fun nodes f => Spells o .arguments (c.skipWhile isBlank) nodes f)
      (fun nodes f more g hnodes htakes => by
        obtain ⟨_, g, hcomma, hthen⟩ := Branch.takes_andThen.1 htakes
        have hsep := Branch.reads_of_onChar hcomma
        obtain ⟨-, hthen⟩ := Reader.gives_blanks_bind.1 hthen
        obtain ⟨node, _, hnode, hthen⟩ := Reader.gives_bind.1 hthen
        obtain ⟨-, hthen⟩ := Reader.gives_blanks_bind.1 hthen
        obtain ⟨-, rfl, rfl⟩ := Reader.gives_pure.1 hthen
        exact .nextArgument hnodes hsep (blanks_skipWhile _) (spells_argument hinner hnode)
          (blanks_skipWhile _))
      hfold (.arguments (spells_argument hinner hfirst) (blanks_skipWhile _))
    obtain ⟨closed, g, heat, hthen⟩ := Reader.gives_bind.1 hthen
    obtain ⟨-, ⟨rfl, hread⟩ | ⟨rfl, -, rfl⟩⟩ := Reader.gives_eat.1 heat
    · rw [if_pos rfl] at hthen
      obtain ⟨-, rfl, rfl⟩ := Reader.gives_pure.1 hthen
      exact Or.inr ⟨f, hall, hread⟩
    · rw [if_neg Bool.false_ne_true] at hthen
      exact absurd hthen gives_failHere

theorem spells_argumentList {opening close : Char}
    (h : (argumentList inner o opening close).Takes c a d) :
    Spells o (.argumentList opening close) c [a] d := by
  unfold argumentList at h
  obtain ⟨_, e, hopen, hthen⟩ := Branch.takes_andThen.1 (Branch.takes_at.1 h)
  have hread := Branch.reads_of_onChar hopen
  obtain ⟨nodes, _, harguments, hthen⟩ := Reader.gives_bind.1 hthen
  replace hthen := Reader.gives_offset_bind.1 hthen
  obtain ⟨-, rfl, rfl⟩ := Reader.gives_pure.1 hthen
  obtain ⟨f, hblanks, ⟨rfl, hclose⟩ | ⟨g, hspells, hclose⟩⟩ := spells_arguments hinner harguments
  · exact .noArguments hread hblanks hclose
  · exact .argumentList hread hblanks hspells hclose

theorem spells_call {found : Option Node} (h : (callArguments inner o).optional.Gives c found d) :
    Spells o .call c found.toList d := by
  rcases Branch.gives_optional.1 h with ⟨-, rfl, rfl⟩ | ⟨b, htakes, rfl⟩
  · exact .noCall
  · exact .call (spells_argumentList hinner htakes)

theorem spells_dotMember {b : Cursor} {target : Node} (before : Spells o .value b [target] c)
    (h : (dotMember inner o target).Takes c a d) : Spells o .value b [a] d := by
  obtain ⟨_, e, hdot, hthen⟩ := Branch.takes_andThen.1 h
  have hread := Branch.reads_of_onChar hdot
  obtain ⟨-, hthen⟩ := Reader.gives_blanks_bind.1 hthen
  obtain ⟨function, _, hfunction, hthen⟩ := Reader.gives_bind.1 hthen
  obtain ⟨-, cs, hname, -, rfl⟩ := gives_functionName.1 hfunction
  obtain ⟨-, hthen⟩ := Reader.gives_blanks_bind.1 hthen
  obtain ⟨found, f, hcall, hthen⟩ := Reader.gives_bind.1 hthen
  obtain ⟨-, hthen⟩ := Reader.gives_blanks_bind.1 (Reader.gives_offset_bind.1 hthen)
  obtain ⟨-, rfl, rfl⟩ := Reader.gives_pure.1 hthen
  have hmember := Spells.member before hread (blanks_skipWhile _) hname (blanks_skipWhile _)
    (spells_call hinner hcall)
  rw [Option.head?_toList] at hmember
  exact .afterValue hmember (blanks_skipWhile _)

theorem spells_indexMember {b : Cursor} {target : Node} (before : Spells o .value b [target] c)
    (h : (indexMember inner o target).Takes c a d) : Spells o .value b [a] d := by
  obtain ⟨arguments, e, hlist, hthen⟩ := Branch.takes_andThen.1 h
  obtain ⟨-, hthen⟩ := Reader.gives_blanks_bind.1 (Reader.gives_offset_bind.1 hthen)
  obtain ⟨-, rfl, rfl⟩ := Reader.gives_pure.1 hthen
  exact .afterValue (.index before (spells_argumentList hinner hlist)) (blanks_skipWhile _)

theorem spells_members {b : Cursor} {target : Node} (before : Spells o .value b [target] c)
    (h : (members inner o target).Gives c a d) : Spells o .value b [a] d := by
  obtain ⟨-, hfold⟩ := Reader.gives_blanks_bind.1 h
  refine (Reader.Gives.fold_induction (P := fun a e => Spells o .value b [a] e) ?_ hfold
    (.afterValue before (blanks_skipWhile _))).1
  intro target e a f htarget htakes
  rcases Branch.takes_orElse.1 htakes with hdot | ⟨-, hindex⟩
  · exact spells_dotMember hinner htarget hdot
  · exact spells_indexMember hinner htarget hindex

theorem spells_staticCall (h : (staticCall inner o).Takes c a d) : Spells o .value c [a] d := by
  unfold staticCall at h
  obtain ⟨_, e, hopen, hthen⟩ := Branch.takes_andThen.1 (Branch.takes_at.1 h)
  have hread := Branch.reads_of_onChar hopen
  obtain ⟨cls, e', hclass, hthen⟩ := Reader.gives_bind.1 hthen
  obtain ⟨-, rfl, rfl⟩ := Reader.gives_takeWhile.1 hclass
  obtain ⟨-, hthen⟩ := gives_failHere_else.1 hthen
  obtain ⟨_, f, hexpect, hthen⟩ := Reader.gives_bind.1 hthen
  obtain ⟨-, hclose⟩ := gives_expect.1 hexpect
  obtain ⟨-, hthen⟩ := Reader.gives_blanks_bind.1 (Reader.gives_offset_bind.1 hthen)
  obtain ⟨colons, g, heat, hthen⟩ := Reader.gives_bind.1 hthen
  obtain ⟨hcolons, hthen⟩ := gives_failHere_else.1 hthen
  obtain ⟨-, ⟨-, hcolons⟩ | ⟨rfl, -⟩⟩ := Reader.gives_eat.1 heat
  · obtain ⟨-, hthen⟩ := Reader.gives_blanks_bind.1 hthen
    obtain ⟨function, _, hfunction, hthen⟩ := Reader.gives_bind.1 hthen
    obtain ⟨-, cs, hname, -, rfl⟩ := gives_functionName.1 hfunction
    obtain ⟨-, hthen⟩ := Reader.gives_blanks_bind.1 hthen
    obtain ⟨found, k, hcall, hthen⟩ := Reader.gives_bind.1 hthen
    replace hthen := Reader.gives_offset_bind.1 hthen
    have hwhole := hread.trans ((e.reads_skipWhile (· != ']')).trans hclose)
    have hstatic := Spells.staticCall hwhole (blanks_skipWhile _) hcolons (blanks_skipWhile _) hname
      (blanks_skipWhile _) (spells_call hinner hcall)
    rw [Option.head?_toList] at hstatic
    exact spells_members hinner hstatic hthen
  · exact absurd rfl hcolons

theorem spells_propertyBody (h : (propertyBody inner o).Gives c a d) :
    Spells o .body c [a] d := by
  obtain ⟨found, e, hfound, hthen⟩ := Reader.gives_bind.1 h
  rcases Branch.gives_optional.1 hfound with ⟨-, rfl, rfl⟩ | ⟨b, htakes, rfl⟩
  · replace hthen := Reader.gives_place_bind.1 hthen
    split at hthen
    · rename_i hlead
      exact spells_registryValue hlead hthen
    · obtain ⟨property, e, hproperty, hthen⟩ := Reader.gives_bind.1 hthen
      obtain ⟨-, cs, hname, -, rfl⟩ := gives_name.1 hproperty
      replace hthen := Reader.gives_offset_bind.1 hthen
      exact .body (spells_members hinner (.name hname) hthen)
  · obtain ⟨-, rfl, rfl⟩ := Reader.gives_pure.1 hthen
    exact .body (spells_staticCall hinner htakes)

theorem spells_property {b : Cursor} (hopen : b.Reads ['$', '('] c)
    (h : (propertyFrom inner o b.offset).Gives c a d) : Spells o .reference b [a] d := by
  obtain ⟨-, hthen⟩ := Reader.gives_blanks_bind.1 h
  obtain ⟨body, e, hbody, hthen⟩ := Reader.gives_bind.1 hthen
  obtain ⟨-, hclose, rfl⟩ := gives_closed.1 hthen
  exact .property hopen (blanks_skipWhile _) (spells_propertyBody hinner hbody)
    (blanks_skipWhile _) hclose

theorem spells_transformAfter {b : Cursor} {previous next : Option Node}
    (before : Spells o .transforms b previous.toList c)
    (h : (transformAfter inner o previous).Takes c next d) :
    Spells o .transforms b next.toList d := by
  unfold transformAfter at h
  obtain ⟨_, e, hopen, hthen⟩ := Branch.takes_andThen.1 (Branch.takes_at.1 h)
  obtain ⟨-, hx, hread⟩ := Branch.takes_onChar.1 hopen
  have harrow := reads_arrow hx hread
  obtain ⟨_, e', htake, hthen⟩ := Reader.gives_bind.1 hthen
  obtain ⟨-, rfl, rfl⟩ := Reader.gives_take.1 htake
  obtain ⟨-, hthen⟩ := Reader.gives_blanks_bind.1 hthen
  replace hthen := Reader.gives_peek_bind.1 (Reader.gives_offset_bind.1 hthen)
  obtain ⟨hfirst, hthen⟩ := gives_failAt_else.1 hthen
  obtain ⟨found, f, hfound, hthen⟩ := Reader.gives_bind.1 hthen
  rcases Branch.gives_optional.1 hfound with ⟨-, rfl, rfl⟩ | ⟨node, htakes, rfl⟩
  · obtain ⟨function, _, hfunction, hthen⟩ := Reader.gives_bind.1 hthen
    obtain ⟨-, cs, hname, -, rfl⟩ := gives_functionName.1 hfunction
    obtain ⟨-, hthen⟩ := Reader.gives_blanks_bind.1 hthen
    obtain ⟨call, g, hcall, hthen⟩ := Reader.gives_bind.1 hthen
    rcases Branch.gives_optional.1 hcall with ⟨-, rfl, rfl⟩ | ⟨arguments, htakes, rfl⟩
    · obtain ⟨_, _, hfail, -⟩ := Reader.gives_bind.1 (Reader.gives_peek_bind.1 hthen)
      exact absurd hfail gives_failHere
    · replace hthen := Reader.gives_offset_bind.1 hthen
      obtain ⟨_, _, hnode, hthen⟩ := Reader.gives_bind.1 hthen
      obtain ⟨-, rfl, rfl⟩ := Reader.gives_pure.1 hnode
      obtain ⟨-, hthen⟩ := Reader.gives_blanks_bind.1 hthen
      obtain ⟨-, rfl, rfl⟩ := Reader.gives_pure.1 hthen
      have hfunction := Spells.functionTransform before harrow (blanks_skipWhile _) hname
        (blanks_skipWhile _) (spells_argumentList hinner htakes)
      rw [Option.head?_toList] at hfunction
      exact .afterTransforms hfunction (blanks_skipWhile _)
  · obtain ⟨_, _, hnode, hthen⟩ := Reader.gives_bind.1 hthen
    obtain ⟨-, rfl, rfl⟩ := Reader.gives_pure.1 hnode
    obtain ⟨-, hthen⟩ := Reader.gives_blanks_bind.1 hthen
    obtain ⟨-, rfl, rfl⟩ := Reader.gives_pure.1 hthen
    -- A quoted transform is the first one.
    obtain rfl : previous = none := by
      rw [quote_of_takes_quoted htakes] at hfirst
      simpa using hfirst
    exact .afterTransforms (.quotedTransform before harrow (blanks_skipWhile _)
      (spells_quoted hinner htakes)) (blanks_skipWhile _)

theorem spells_separator {found : Option Node}
    (h : (separator inner o).optional.Gives c found d) : Spells o .separator c found.toList d := by
  rcases Branch.gives_optional.1 h with ⟨-, rfl, rfl⟩ | ⟨node, htakes, rfl⟩
  · exact .noSeparator
  · obtain ⟨_, e, hcomma, hthen⟩ := Branch.takes_andThen.1 htakes
    have hread := Branch.reads_of_onChar hcomma
    obtain ⟨-, hthen⟩ := Reader.gives_blanks_bind.1 hthen
    obtain ⟨text, f, htext, hthen⟩ := Reader.gives_bind.1 hthen
    rcases Branch.gives_optional.1 htext with ⟨-, rfl, rfl⟩ | ⟨text, hquoted, rfl⟩
    · exact absurd hthen gives_failHere
    · obtain ⟨-, rfl, rfl⟩ := Reader.gives_pure.1 hthen
      exact .separator hread (blanks_skipWhile _) (spells_quoted hinner hquoted)

theorem spells_item {b : Cursor} (hopen : b.Reads ['@', '('] c)
    (h : (itemFrom inner o b.offset).Gives c a d) : Spells o .reference b [a] d := by
  obtain ⟨ho, hthen⟩ := gives_failAt_else.1 h
  replace ho : o.items = true := by simpa using ho
  obtain ⟨-, hthen⟩ := Reader.gives_blanks_bind.1 hthen
  obtain ⟨item, e, hitem, hthen⟩ := Reader.gives_bind.1 hthen
  obtain ⟨-, cs, hname, -, rfl⟩ := gives_name.1 hitem
  obtain ⟨-, hthen⟩ := Reader.gives_blanks_bind.1 hthen
  obtain ⟨transform, f, hfold, hthen⟩ := Reader.gives_bind.1 hthen
  obtain ⟨htransforms, -⟩ := Reader.Gives.fold_induction
    (P := fun transform f => Spells o .transforms (e.skipWhile isBlank) transform.toList f)
    (fun _ _ _ _ before htakes => spells_transformAfter hinner before htakes) hfold .noTransform
  obtain ⟨found, g, hfound, hthen⟩ := Reader.gives_bind.1 hthen
  obtain ⟨-, hclose, rfl⟩ := gives_closed.1 hthen
  have hitem := Spells.item ho hopen (blanks_skipWhile _) hname (blanks_skipWhile _) htransforms
    (spells_separator hinner hfound) (blanks_skipWhile _) hclose
  rwa [Option.head?_toList, Option.head?_toList] at hitem

end

theorem spells_referenceWith {inner : Inner (Position.size c)} (hinner : InnerSpells inner)
    {o : Options} (h : Parsed.Gives (referenceWith o c inner) a d) :
    Spells o .reference c [a] d := by
  obtain ⟨sigil, e, hread, hthen⟩ := gives_referenceWith.1 h
  rcases hthen with ⟨rfl, hproperty⟩ | ⟨rfl, hitem⟩ | ⟨rfl, hmetadata⟩
  · exact spells_property hinner hread hproperty
  · exact spells_item hinner hread hitem
  · exact spells_metadata hread hmetadata

/-- The references inside a reference begin behind its first character, so there is less text to
read them from. -/
theorem spells_reference {o : Options} (h : Parsed.Gives (reference o c) a d) :
    Spells o .reference c [a] d := by
  induction hsize : Position.size c using Nat.strongRecOn generalizing c o a d with
  | ind k ih =>
    rw [reference] at h
    refine spells_referenceWith ?_ h
    rintro o e b f ⟨hlt, hinside⟩
    exact ih _ (hsize ▸ hlt) hinside rfl

theorem innerSpells_anywhere : InnerSpells (anywhere : Inner n) :=
  fun _ _ _ _ ⟨_, h⟩ => spells_reference h

/-- A whole text is read up to its end. -/
theorem spells_segments {o : Options} (h : (segments o : Read n Node).Gives c a d) :
    d.rest = [] ∧ ∃ nodes, Spells o .segments c nodes d ∧
      (nodes = [a] ∨ a = .mk ⟨c.offset, d.offset⟩ (.list nodes)) := by
  obtain ⟨first, e, hfirst, hthen⟩ := Reader.gives_bind.1 (Reader.gives_offset_bind.1 h)
  obtain ⟨nodes, hnodes, rfl, hliteral, hreference⟩ := spells_concat innerSpells_anywhere hfirst
  split at hthen
  · rename_i hlists
    rw [hlists] at hliteral
    obtain ⟨all, f, hfold, hthen⟩ := Reader.gives_bind.1 hthen
    -- Beside the segments so far, the last of them stopped where no text goes on.
    obtain ⟨⟨hall, hliteral, hreference⟩, hpass⟩ := Reader.Gives.fold_induction
      (P := fun all f => Spells o .segments c all f ∧ literalLength true f.rest = 0 ∧
        startsReference f = false)
      (fun all f more g hall htakes => by
        obtain ⟨_, g, hsep, hthen⟩ := Branch.takes_andThen.1 htakes
        have hread := Branch.reads_of_onChar hsep
        obtain ⟨node, k, hnode, hthen⟩ := Reader.gives_bind.1 hthen
        obtain ⟨-, rfl, rfl⟩ := Reader.gives_pure.1 hthen
        obtain ⟨nodes, hnodes, rfl, hend⟩ := spells_concat innerSpells_anywhere hnode
        exact ⟨.nextSegment hall.1 hread hnodes, hend⟩)
      hfold ⟨.segment hnodes, hliteral, hreference⟩
    have hrest : f.rest = [] := by
      refine rest_eq_nil hliteral hreference fun _ hpeek => ?_
      have hne := (Branch.passes_onChar.1 (Branch.passes_andThen.1 hpass)).2 _ hpeek
      simp at hne
    split at hthen
    · obtain ⟨-, rfl, rfl⟩ := Reader.gives_pure.1 hthen
      exact ⟨hrest, _, hall, Or.inl rfl⟩
    · replace hthen := Reader.gives_offset_bind.1 hthen
      obtain ⟨-, rfl, rfl⟩ := Reader.gives_pure.1 hthen
      exact ⟨hrest, _, hall, Or.inr rfl⟩
  · rename_i hlists
    obtain ⟨-, rfl, rfl⟩ := Reader.gives_pure.1 hthen
    exact ⟨rest_eq_nil hliteral hreference fun h => absurd h hlists, _, .segment hnodes,
      Or.inl rfl⟩

end ProjectAnalysis.Expr
