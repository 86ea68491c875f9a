import ProjectAnalysis.ExprParse
import ProjectAnalysis.Proofs.LexemeEnd

/-! The readers read a printed phrase back, and no further than its end, where what stands behind
lets them. Each way to make a phrase has one law, over the phrases inside it. -/
namespace ProjectAnalysis.Expr

variable {n : Nat} {c d : Cursor}

section
variable (inner : Inner n) (o : Options)

/-- One more reference, and the literal text behind it. -/
def nextPart (q lists : Bool) (nodes : List Node) : Branch Cursor Fault n (List Node) :=
  (Step.branch startsReference (inner o)).andThen fun reference => do
    let more ← literal q lists
    return nodes ++ reference :: more

/-- One more argument, and the white space behind it. -/
def nextArgument (nodes : List Node) : Branch Cursor Fault n (List Node) :=
  (Branch.onChar (· == ',')).andThen fun _ => do
    Reader.blanks
    let node ← argument inner o
    Reader.blanks
    return nodes ++ [node]

/-- One more segment of a list. -/
def nextSegment (nodes : List Node) : Branch Cursor Fault n (List Node) :=
  (Branch.onChar (· == ';')).andThen fun _ => do
    let node ← concat inner o false true
    return nodes ++ [node]

end

/-- Where a phrase can end: what stands behind does not go on with it. -/
def EndsAt : TextRule → Cursor → Prop
  | .parts q, d => d.rest = [] ∨ (q = false ∧ d.peek = some ';')
  | .segments, d => d.rest = []
  | .reference, _ | .quoted, _ => True
  | .value, d | .call, d => Delimited d ∧ d.peek ≠ some '('
  | .transforms, d => Delimited d
  | .body, d | .separator, d => d.peek = some ')'
  | .argumentList _ close, _ => close = ')' ∨ close = ']'
  | .arguments, d => d.peek = some ')' ∨ d.peek = some ']'
  | .argument, d => d.peek = some ',' ∨ d.peek = some ')' ∨ d.peek = some ']'

/-- What the readers find between two places. Where they repeat a step, the text is what the
repetition reads from the first place on, whatever it has found before or will find behind. -/
def ReadAs (n : Nat) : (rule : TextRule) → Cursor → rule.Meaning → Cursor → Prop
  | .parts q, c, trees, d => ∃ first e nodes, (literal q (!q) : Read n _).Gives c first e ∧
      (∀ before, (Reader.fold (nextPart anywhere .full q (!q)) (before ++ first) : Read n _).Gives e
        (before ++ nodes) d) ∧ nodes.map Node.tree = trees
  | .segments, c, trees, d => ∃ first e nodes,
      (concat anywhere .full false true : Read n _).Gives c first e ∧
      (∀ before, (Reader.fold (nextSegment anywhere .full) (before ++ [first]) : Read n _).Gives e
        (before ++ nodes) d) ∧ nodes.map Node.tree = trees
  | .reference, c, tree, d => ∃ a, Parsed.Gives (reference .full c) a d ∧ a.tree = tree
  | .body, c, tree, d => c.skipWhile isBlank = c ∧
      ∃ a, (propertyBody anywhere .full : Read n _).Gives c a d ∧ a.tree = tree
  | .value, c, tree, d => c.skipWhile isBlank = c ∧
      ∃ a, (∀ x e, (members anywhere .full a : Read n _).Gives d x e →
        (propertyBody anywhere .full : Read n _).Gives c x e) ∧ a.tree = tree
  | .call, c, tree?, d => Delimited c ∧ ∃ found,
      ((callArguments anywhere .full).optional : Read n _).Gives c found d ∧
        found.map Node.tree = tree?
  | .argumentList opening close, c, tree, d => ∃ a,
      (argumentList anywhere .full opening close : Branch Cursor Fault n _).Takes c a d ∧
        a.tree = tree
  | .arguments, c, trees, d => ∃ first e nodes,
      (argument anywhere .full : Read n _).Gives c first e ∧ e.skipWhile isBlank = e ∧
      (∀ before, (Reader.fold (nextArgument anywhere .full) (before ++ [first]) : Read n _).Gives e
        (before ++ nodes) d) ∧ nodes.map Node.tree = trees
  | .argument, c, tree, d =>
      ∃ a, (argument anywhere .full : Read n _).Gives c a d ∧ a.tree = tree
  | .quoted, c, tree, d =>
      ∃ a, (quoted anywhere .full : Branch Cursor Fault n _).Takes c a d ∧ a.tree = tree
  | .transforms, c, tree?, d => Delimited c ∧ ∃ found : Option Node,
      (∀ x e, (Reader.fold (transformAfter anywhere .full) found : Read n _).Gives d x e →
        (Reader.fold (transformAfter anywhere .full) none : Read n _).Gives c x e) ∧
      found.map Node.tree = tree?
  | .separator, c, tree?, d => Delimited c ∧ c.peek ≠ some '-' ∧ ∃ found,
      ((separator anywhere .full).optional : Read n _).Gives c found d ∧
        found.map Node.tree = tree?

/-- The text of the phrase, up to a place where it can end, is read as what it is meant to be. -/
def ReadsBack {rule : TextRule} (p : Phrase rule) : Prop :=
  ∀ {n : Nat} {c d : Cursor}, Position.size c < n → c.Reads p.print d → EndsAt rule d →
    ReadAs n rule c p.meaning d

/-- A reference begins with its sigil and a parenthesis. -/
theorem Phrase.print_reference (r : Phrase .reference) :
    ∃ sigil tail, r.print = sigil :: '(' :: tail ∧ isSigil sigil = true := by
  cases r with
  | property b => exact ⟨'$', _, rfl, rfl⟩
  | item x ts s => exact ⟨'@', _, rfl, rfl⟩
  | metadata x => exact ⟨'%', _, rfl, rfl⟩
  | ownedMetadata owner x => exact ⟨'%', _, rfl, rfl⟩

theorem tree_joined (span : Span) (q : Bool) (nodes : List Node) :
    (joined span q nodes).tree = .joined q (nodes.map Node.tree) := by
  match nodes with
  | [] => exact Node.tree_mk _ _
  | [a] => rfl
  | a :: b :: nodes => exact Node.tree_mk _ _

section
variable {inner : Inner n} {o : Options} {q lists : Bool} {nodes : List Node}

theorem gives_parts : (parts inner o q lists).Gives c nodes d ↔
    ∃ first e, (literal q lists : Read n _).Gives c first e ∧
      (Reader.fold (nextPart inner o q lists) first : Read n _).Gives e nodes d :=
  Reader.gives_bind

end

theorem startsReference_eq_true (h : startsReference c = true) :
    ∃ sigil, c.peek = some sigil ∧ isSigil sigil = true := by
  unfold startsReference at h
  split at h
  · rename_i sigil tail hrest
    exact ⟨sigil, by rw [Cursor.peek, hrest]; rfl, h⟩
  · cases h

theorem startsReference_eq_false {x : Char} (hx : c.peek = some x) (hsigil : isSigil x = false) :
    startsReference c = false := by
  refine Bool.eq_false_iff.2 fun h => ?_
  obtain ⟨sigil, hpeek, hsigil'⟩ := startsReference_eq_true h
  obtain rfl : sigil = x := Option.some.inj (hpeek.symm.trans hx)
  exact absurd hsigil' (Bool.eq_false_iff.1 hsigil)

section
variable {q : Bool}

theorem stops_of_ends (h : EndsAt (.parts q) d) :
    literalLength (!q) d.rest = 0 ∧ startsReference d = false ∧ d.peek ≠ some '(' := by
  rcases h with hnil | ⟨rfl, hpeek⟩
  · rw [startsReference, Cursor.peek, hnil]
    refine ⟨rfl, rfl, fun hpeek => ?_⟩
    cases hpeek
  · refine ⟨?_, startsReference_eq_false hpeek (by decide), by rw [hpeek]; decide⟩
    obtain ⟨tail, hrest⟩ : ∃ tail, d.rest = ';' :: tail := List.head?_eq_some_iff.1 hpeek
    rw [hrest, literalLength, if_pos (by simp)]

theorem startsReference_of_reads {r : Phrase .reference} {tail : List Char}
    (h : c.Reads (r.print ++ tail) d) : startsReference c = true ∧
      literalLength (!q) c.rest = 0 ∧ c.peek ≠ some '(' := by
  -- The sigil itself stops literal text, since the parenthesis stands behind it.
  obtain ⟨sigil, cs, hr, hsigil⟩ := r.print_reference
  have hrest : c.rest = sigil :: '(' :: (cs ++ tail ++ d.rest) := by
    rw [h.1, hr]
    rfl
  refine ⟨?_, ?_, ?_⟩
  · rw [startsReference, hrest]
    exact hsigil
  · rw [hrest, literalLength, if_pos]
    simp [hsigil]
  · rw [Cursor.peek, hrest]
    rintro heq
    obtain rfl : sigil = '(' := Option.some.inj heq
    cases hsigil

theorem readsBack_noParts : ReadsBack (.noParts : Phrase (.parts q)) := by
  intro n c d hsize hread hends
  obtain rfl := Cursor.reads_nil_iff.1 hread
  obtain ⟨hliteral, hreference, -⟩ := stops_of_ends hends
  refine ⟨[], c, [], gives_literal.2 ⟨hsize, Or.inl ⟨hliteral, rfl, rfl⟩⟩, fun before => ?_, rfl⟩
  apply Branch.Passes.fold
  exact Branch.passes_andThen.2 (Step.passes_branch.2 ⟨hsize, hreference⟩)

theorem readsBack_literal {run : List Char} {more : Phrase (.parts q)} (hrun : IsRun q run)
    (hmax : more.beginsLiteral = false) (hmore : ReadsBack more) :
    ReadsBack (.literal run more) := by
  intro n c d hsize hread hends
  obtain ⟨e, hc, he⟩ := Cursor.Reads.split hread
  obtain ⟨first, f, nodes, hfirst, hfold, hnodes⟩ := hmore (hc.size_lt hsize) he hends
  have hstops : literalLength (!q) e.rest = 0 ∧ e.peek ≠ some '(' := by
    cases more with
    | noParts =>
      obtain rfl := Cursor.reads_nil_iff.1 he
      exact ⟨(stops_of_ends hends).1, (stops_of_ends hends).2.2⟩
    | literal => cases hmax
    | part r more => exact (startsReference_of_reads he).2
  -- No more literal text comes next, so the repetition begins where the run ends.
  obtain ⟨-, ⟨-, rfl, rfl⟩ | ⟨cs, hne, -, hlength, -⟩⟩ := gives_literal.1 hfirst
  · let text : Node := .mk ⟨c.offset, e.offset⟩ (.text (String.ofList run) q)
    have hmeaning : (text :: nodes).map Node.tree = (Phrase.literal run more).meaning := by
      rw [List.map_cons, hnodes, Node.tree_mk]
      rfl
    refine ⟨[text], e, text :: nodes, gives_literal_run hsize hrun hc hstops.1 hstops.2,
      fun before => ?_, hmeaning⟩
    have hmore := hfold (before ++ [text])
    rwa [List.append_nil, List.append_assoc] at hmore
  · rw [hstops.1] at hlength
    exact absurd (List.length_eq_zero_iff.1 hlength.symm) hne

theorem readsBack_part {r : Phrase .reference} {more : Phrase (.parts q)} (hr : ReadsBack r)
    (hmore : ReadsBack more) : ReadsBack (.part r more) := by
  intro n c d hsize hread hends
  obtain ⟨hstarts, hliteral, -⟩ := startsReference_of_reads (q := q) hread
  obtain ⟨e, hc, he⟩ := Cursor.Reads.split hread
  obtain ⟨a, ha, htree⟩ := hr hsize hc trivial
  obtain ⟨first, f, nodes, hfirst, hfold, hnodes⟩ := hmore (hc.size_lt hsize) he hends
  have hmeaning : (a :: nodes).map Node.tree = (Phrase.part r more).meaning := by
    rw [List.map_cons, htree, hnodes]
    rfl
  refine ⟨[], c, a :: nodes, gives_literal.2 ⟨hsize, Or.inl ⟨hliteral, rfl, rfl⟩⟩,
    fun before => ?_, hmeaning⟩
  -- One step takes the reference together with the literal text behind it.
  have hf := Nat.lt_of_le_of_lt hfirst.size_le (hc.size_lt hsize)
  have hstep : (nextPart anywhere .full q (!q) (before ++ []) : Branch Cursor Fault n _).Takes c
      (before ++ a :: first) f := by
    refine Branch.takes_andThen.2 ⟨a, e, Step.takes_branch.2 ⟨hstarts, hsize, ha⟩, ?_⟩
    refine Reader.gives_bind.2 ⟨first, f, hfirst, Reader.gives_pure.2 ⟨hf, ?_, rfl⟩⟩
    rw [List.append_nil]
  have hrest := hfold (before ++ [a])
  rw [List.append_assoc, List.append_assoc] at hrest
  exact hstep.fold hrest

/-- A whole text of literal text and references. -/
theorem ReadsBack.concat {p : Phrase (.parts q)} (hp : ReadsBack p) (hsize : Position.size c < n)
    (hread : c.Reads p.print d) (hends : EndsAt (.parts q) d) :
    ∃ a, (concat anywhere .full q (!q) : Read n _).Gives c a d ∧ a.tree = .joined q p.meaning := by
  obtain ⟨first, e, nodes, hfirst, hfold, hnodes⟩ := hp hsize hread hends
  have hparts := gives_parts.2 ⟨first, e, hfirst, hfold []⟩
  rw [List.nil_append] at hparts
  refine ⟨_, gives_concat.2 ⟨nodes, hparts, rfl⟩, ?_⟩
  rw [tree_joined, hnodes]

/-- A literal in quotes begins with no white space. -/
theorem quoted_solid {inner : Inner n} {o : Options} {a : Node} (h : (quoted inner o).Takes c a d) :
    c.skipWhile isBlank = c := by
  obtain ⟨-, mark, _, _, hmark, -, hread, -⟩ := takes_quoted.1 h
  exact Cursor.skipWhile_of_peek hread.peek (isBlank_of_isQuote hmark)

theorem readsBack_quoted {mark : Char} {content : Phrase (.parts true)}
    (hmark : isQuote mark = true) (hinside : mark ∉ content.print) (hcontent : ReadsBack content) :
    ReadsBack (.quoted mark content) := by
  intro n c d hsize hread _
  replace hread : c.Reads (mark :: (content.print ++ [mark])) d := hread
  have hshorter : content.print.length < n := by
    have hlength := hread.size_eq
    rw [List.length_cons, List.length_append] at hlength
    omega
  -- Inside the quotes the text is read as if nothing stood behind it.
  have hslice := Cursor.reads_all (c.offset + mark.utf8Size) content.print
  obtain ⟨a, ha, htree⟩ := hcontent.concat hshorter hslice (Or.inl rfl)
  exact ⟨a, takes_quoted.2 ⟨hsize, mark, _, _, hmark, hinside, hread, ha⟩, htree⟩

end

section
variable {x : Char}

theorem delimited_of_peek_or (h : d.peek = some ',' ∨ d.peek = some ')' ∨ d.peek = some ']') :
    Delimited d := by
  rcases h with h | h | h <;> exact delimited_of_peek h rfl

theorem argument_starts {inner : Inner n} {o : Options} {a : Node}
    (h : (argument inner o).Gives c a d) : ∃ x, c.peek = some x ∧ (isQuote x = true ∨
      isSigil x = true ∨ x.isDigit = true ∨ x = '-' ∨ isNameStart x = true) := by
  obtain ⟨found, e, hfound, hthen⟩ := Reader.gives_bind.1 h
  rcases Branch.gives_optional.1 hfound with ⟨-, rfl, rfl⟩ | ⟨b, htakes, rfl⟩
  · replace hthen := Reader.gives_peek_bind.1 hthen
    split at hthen
    · exact absurd hthen gives_failHere
    · rename_i x hx
      refine ⟨x, hx, Or.inr (Or.inr ?_)⟩
      split at hthen
      · rename_i hnumber
        have hor : x.isDigit = true ∨ x = '-' := by simpa using hnumber
        exact hor.imp_right Or.inl
      · split at hthen
        · exact Or.inr (Or.inr ‹_›)
        · exact absurd hthen gives_failHere
  · rcases Branch.takes_orElse.1 htakes with hquoted | ⟨-, hreference⟩
    · obtain ⟨-, q, _, _, hq, -, hread, -⟩ := takes_quoted.1 hquoted
      exact ⟨q, hread.peek, Or.inl hq⟩
    · obtain ⟨sigil, hpeek, hsigil⟩ := startsReference_eq_true (Step.takes_branch.1 hreference).1
      exact ⟨sigil, hpeek, Or.inr (Or.inl hsigil)⟩

/-- An argument begins with no white space and closes no list. -/
theorem argument_solid {inner : Inner n} {o : Options} {a : Node}
    (h : (argument inner o).Gives c a d) :
    c.skipWhile isBlank = c ∧ c.peek ≠ some ')' ∧ c.peek ≠ some ']' := by
  obtain ⟨x, hpeek, hx⟩ := argument_starts h
  have hblank : isBlank x = false := by
    rcases hx with hx | hx | hx | rfl | hx
    · exact isBlank_of_isQuote hx
    · exact isBlank_of_isSigil hx
    · exact isBlank_of_isDigit hx
    · rfl
    · exact isBlank_of_isNameStart hx
  refine ⟨Cursor.skipWhile_of_peek hpeek hblank, ?_, ?_⟩ <;>
    · rw [hpeek]
      rintro heq
      obtain rfl := Option.some.inj heq
      revert hx
      decide

/-- A number or a word is no literal in quotes and no reference. -/
theorem gives_argument_plain {inner : Inner n} {o : Options} {a : Node}
    (hsize : Position.size c < n) (hx : c.peek = some x)
    (hstart : x.isDigit = true ∨ x = '-' ∨ isNameStart x = true)
    (h : (if x.isDigit || x == '-' then number else bareWord : Read n Node).Gives c a d) :
    (argument inner o).Gives c a d := by
  obtain ⟨hquote, hsigil⟩ := isPlain_of_start hstart
  have hreference := startsReference_eq_false hx hsigil
  have hquoted : (quoted inner o).Passes c :=
    passes_quoted.2 ⟨hsize, fun y hy => Option.some.inj (hx.symm.trans hy) ▸ hquote⟩
  -- Both other ways to make an argument pass on, so the first character decides.
  have hpasses := Branch.passes_orElse.2
    ⟨hquoted, (Step.passes_branch (p := inner o)).2 ⟨hsize, hreference⟩⟩
  refine Reader.gives_bind.2 ⟨none, c, hpasses.optional, Reader.gives_peek_bind.2 ?_⟩
  rw [hx]
  dsimp only
  split
  · rename_i hnumber
    rwa [if_pos hnumber] at h
  · rename_i hnumber
    rw [if_neg hnumber] at h
    have hname : isNameStart x = true := by
      rcases hstart with hdigit | rfl | hname
      · exact absurd (by rw [hdigit]; rfl) hnumber
      · exact absurd rfl hnumber
      · exact hname
    rwa [if_pos hname]

theorem gives_argument_of_takes {inner : Inner n} {o : Options} {a : Node}
    (h : ((quoted inner o).orElse (Step.branch startsReference (inner o))).Takes c a d) :
    (argument inner o).Gives c a d := by
  have hd := Nat.lt_trans h.size_lt h.bound
  exact Reader.gives_bind.2 ⟨some a, d, h.optional, Reader.gives_pure.2 ⟨hd, rfl, rfl⟩⟩

theorem readsBack_quotedArgument {l : Phrase .quoted} (hl : ReadsBack l) :
    ReadsBack (.quotedArgument l) := by
  intro n c d hsize hread _
  obtain ⟨a, ha, htree⟩ := hl hsize hread trivial
  exact ⟨a, gives_argument_of_takes (Branch.takes_orElse.2 (Or.inl ha)), htree⟩

theorem readsBack_referenceArgument {r : Phrase .reference} (hr : ReadsBack r) :
    ReadsBack (.referenceArgument r) := by
  intro n c d hsize hread _
  obtain ⟨a, ha, htree⟩ := hr hsize hread trivial
  replace hread : c.Reads (r.print ++ []) d := by rwa [List.append_nil]
  have hstarts := (startsReference_of_reads (q := true) hread).1
  obtain ⟨sigil, hpeek, hsigil⟩ := startsReference_eq_true hstarts
  have hquoted : (quoted anywhere .full : Branch Cursor Fault n _).Passes c := by
    refine passes_quoted.2 ⟨hsize, fun y hy => ?_⟩
    obtain rfl : sigil = y := Option.some.inj (hpeek.symm.trans hy)
    exact isQuote_of_isSigil hsigil
  have hreference : (Step.branch startsReference (anywhere .full) :
      Branch Cursor Fault n _).Takes c a d := Step.takes_branch.2 ⟨hstarts, hsize, ha⟩
  have htakes := Branch.takes_orElse.2 (Or.inr ⟨hquoted, hreference⟩)
  exact ⟨a, gives_argument_of_takes htakes, htree⟩

theorem readsBack_number (x : NumberText) : ReadsBack (.number x) := by
  intro n c d hsize hread hd
  obtain ⟨y, ys, hcs, hy, -⟩ := id x.2
  have hfirst : c.Reads x.1 d := hread
  rw [hcs] at hfirst
  have hpeek := hfirst.peek
  refine ⟨.mk ⟨c.offset, d.offset⟩ (.number (String.ofList x.1)),
    gives_argument_plain hsize hpeek (hy.imp_right Or.inl) ?_, Node.tree_mk _ _⟩
  rw [if_pos (by simpa using hy)]
  refine gives_number_of_reads hsize x.2 hread fun z hz => ?_
  rcases hd with hd | hd | hd <;> (obtain rfl := Option.some.inj (hd.symm.trans hz); rfl)

theorem readsBack_word (x : NameText) : ReadsBack (.word x) := by
  intro n c d hsize hread hd
  have hname : Named c x.1 d := ⟨hread, x.2⟩
  obtain ⟨y, hpeek, hy⟩ := hname.peek
  have hnumber : ¬(y.isDigit || y == '-') = true := by
    rw [isDigit_of_isNameStart hy, Bool.false_or, beq_iff_eq]
    rintro rfl
    cases hy
  refine ⟨.mk ⟨c.offset, d.offset⟩ (.text (String.ofList x.1) false),
    gives_argument_plain hsize hpeek (Or.inr (Or.inr hy)) ?_, Node.tree_mk _ _⟩
  rw [if_neg hnumber]
  exact gives_bareWord.2 ⟨hsize, x.1, hname, hname.nameLength_eq (delimited_of_peek_or hd), rfl⟩

theorem readsBack_lastArgument {a : Phrase .argument} (ha : ReadsBack a) :
    ReadsBack (.lastArgument a) := by
  intro n c d hsize hread hd
  obtain ⟨node, hnode, htree⟩ := ha hsize hread (Or.inr hd)
  have hsolid := (delimited_of_peek_or (Or.inr hd)).solid
  have hmeaning : [node].map Node.tree = (Phrase.lastArgument a).meaning := by
    rw [List.map_singleton, htree]
    rfl
  refine ⟨node, d, [node], hnode, hsolid, fun before => ?_, hmeaning⟩
  have hcomma : d.peek ≠ some ',' := by
    rcases hd with hd | hd <;> (rw [hd]; decide)
  apply Branch.Passes.fold
  exact Branch.passes_andThen.2 (Branch.onChar_passes (Cursor.Reads.size_lt hread hsize) hcomma)

theorem readsBack_argument {a : Phrase .argument} {more : Phrase .arguments} (ha : ReadsBack a)
    (hmore : ReadsBack more) : ReadsBack (.argument a more) := by
  intro n c d hsize hread hd
  obtain ⟨b, hc, htail⟩ := Cursor.Reads.split hread
  obtain ⟨e, hcomma, he⟩ := htail.split_cons
  have hb := hc.size_lt hsize
  obtain ⟨node, hnode, htree⟩ := ha hsize hc (Or.inl htail.peek)
  obtain ⟨first, f, nodes, hfirst, hsolid, hfold, hnodes⟩ := hmore (hcomma.size_lt hb) he hd
  have hmeaning : (node :: nodes).map Node.tree = (Phrase.argument a more).meaning := by
    rw [List.map_cons, htree, hnodes]
    rfl
  refine ⟨node, b, node :: nodes, hnode, (delimited_of_peek htail.peek rfl).solid, fun before => ?_,
    hmeaning⟩
  have hrest := hfold (before ++ [node])
  rw [List.append_assoc before [node] nodes] at hrest
  have hstep : (nextArgument anywhere .full (before ++ [node]) : Branch Cursor Fault n _).Takes b
      (before ++ [node] ++ [first]) f := by
    have he' := hcomma.size_lt hb
    have hf := Nat.lt_of_le_of_lt hfirst.size_le he'
    refine Branch.takes_andThen.2 ⟨',', e, Branch.onChar_takes hb hcomma, ?_⟩
    refine Reader.gives_solid_bind (argument_solid hfirst).1 ?_
    refine Reader.gives_bind.2 ⟨first, f, hfirst, Reader.gives_solid_bind hsolid ?_⟩
    exact Reader.gives_pure.2 ⟨hf, rfl, rfl⟩
  exact hstep.fold hrest

theorem takes_argumentList {inner : Inner n} {o : Options} {opening close : Char} {e : Cursor}
    {nodes : List Node} (hsize : Position.size c < n) (hopen : c.Reads [opening] e)
    (h : (arguments inner o close).Gives e nodes d) :
    (argumentList inner o opening close).Takes c
      (.mk ⟨c.offset, d.offset⟩ (.argumentList nodes)) d := by
  unfold argumentList
  have hd := Nat.lt_of_le_of_lt h.size_le (hopen.size_lt hsize)
  refine Branch.takes_at.2 (Branch.takes_andThen.2 ?_)
  refine ⟨opening, e, Branch.onChar_takes hsize hopen, ?_⟩
  refine Reader.gives_bind.2 ⟨nodes, d, h, Reader.gives_offset_bind.2 ?_⟩
  exact Reader.gives_pure.2 ⟨hd, rfl, rfl⟩

theorem peek_argumentList {opening close : Char} {l : Phrase (.argumentList opening close)}
    (hread : c.Reads l.print d) : c.peek = some opening := by
  cases l with
  | noArguments => exact hread.peek
  | argumentList as => exact hread.peek

theorem readsBack_noArguments {opening close : Char} :
    ReadsBack (.noArguments : Phrase (.argumentList opening close)) := by
  intro n c d hsize hread hclose
  obtain ⟨e, hopen, he⟩ := hread.split_cons
  have he' := hopen.size_lt hsize
  have hsolid : e.skipWhile isBlank = e := by
    refine Cursor.skipWhile_of_peek he.peek ?_
    rcases hclose with rfl | rfl <;> rfl
  refine ⟨.mk ⟨c.offset, d.offset⟩ (.argumentList []), takes_argumentList hsize hopen ?_,
    Node.tree_mk _ _⟩
  refine Reader.gives_solid_bind hsolid ?_
  refine Reader.gives_bind.2 ⟨true, d, Reader.gives_eat_of_reads he' he, ?_⟩
  rw [if_pos rfl]
  exact Reader.gives_pure.2 ⟨he.size_lt he', rfl, rfl⟩

theorem readsBack_argumentList {opening close : Char} {as : Phrase .arguments}
    (has : ReadsBack as) : ReadsBack (.argumentList as : Phrase (.argumentList opening close)) := by
  intro n c d hsize hread hclose
  obtain ⟨e, hopen, he⟩ := hread.split_cons
  obtain ⟨f, has', hf⟩ := he.split
  have he' := hopen.size_lt hsize
  have hf' := has'.size_lt he'
  have hpeek : f.peek = some ')' ∨ f.peek = some ']' := by
    rcases hclose with rfl | rfl
    · exact Or.inl hf.peek
    · exact Or.inr hf.peek
  obtain ⟨first, g, nodes, hfirst, hsolid, hfold, hnodes⟩ := has he' has' hpeek
  have hg := Nat.lt_of_le_of_lt hfirst.size_le he'
  obtain ⟨hstart, hparen, hbracket⟩ := argument_solid hfirst
  have hmore : e.peek ≠ some close := by
    rcases hclose with rfl | rfl
    · exact hparen
    · exact hbracket
  have hmeaning : (Node.mk ⟨c.offset, d.offset⟩ (.argumentList nodes)).tree =
      (Phrase.argumentList as : Phrase (.argumentList opening close)).meaning := by
    rw [Node.tree_mk, Shape.map, hnodes]
    rfl
  refine ⟨.mk ⟨c.offset, d.offset⟩ (.argumentList nodes), takes_argumentList hsize hopen ?_,
    hmeaning⟩
  refine Reader.gives_solid_bind hstart ?_
  refine Reader.gives_bind.2 ⟨false, e, Reader.gives_eat_of_peek he' hmore, ?_⟩
  rw [if_neg Bool.false_ne_true]
  refine Reader.gives_bind.2 ⟨first, g, hfirst, Reader.gives_solid_bind hsolid ?_⟩
  refine Reader.gives_bind.2 ⟨nodes, f, hfold [], ?_⟩
  refine Reader.gives_bind.2 ⟨true, d, Reader.gives_eat_of_reads hf' hf, ?_⟩
  rw [if_pos rfl]
  exact Reader.gives_pure.2 ⟨hf.size_lt hf', rfl, rfl⟩

end

end ProjectAnalysis.Expr
