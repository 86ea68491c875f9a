import ProjectAnalysis.Proofs.PlainExpression
import ProjectAnalysis.Proofs.TextRun

/-! Where a name, a number and a run of literal text end. Each of them goes on as long as it can, so
what stands behind decides how much of the text is read. -/
namespace ProjectAnalysis

namespace Cursor

variable {a b c : Cursor} {xs ys : List Char} {x : Char}

theorem reads_nil_iff : a.Reads [] b ↔ a = b := by
  constructor
  · rintro ⟨hrest, hoffset⟩
    obtain ⟨k, rest⟩ := a
    obtain ⟨k', rest'⟩ := b
    obtain rfl : rest = rest' := hrest
    obtain rfl : k' = k := hoffset
    rfl
  · rintro rfl
    exact reads_nil a

/-- There is a place between two texts. -/
theorem Reads.split (h : a.Reads (xs ++ ys) c) : ∃ b, a.Reads xs b ∧ b.Reads ys c := by
  obtain ⟨hrest, hoffset⟩ := h
  refine ⟨⟨a.offset + byteLength xs, ys ++ c.rest⟩, ⟨?_, rfl⟩, rfl, ?_⟩
  · rw [hrest, List.append_assoc]
  · rw [hoffset, byteLength_append, Nat.add_assoc]

theorem Reads.split_cons (h : a.Reads (x :: ys) c) : ∃ b, a.Reads [x] b ∧ b.Reads ys c :=
  Reads.split (show a.Reads ([x] ++ ys) c from h)

theorem Reads.split_pair {y : Char} (h : a.Reads (x :: y :: ys) c) :
    ∃ b, a.Reads [x, y] b ∧ b.Reads ys c :=
  Reads.split (show a.Reads ([x, y] ++ ys) c from h)

theorem Reads.shorter (h : a.Reads (x :: xs) b) : Position.size b < Position.size a := by
  rw [h.size_eq]
  exact Nat.lt_add_of_pos_left (Nat.succ_pos _)

theorem reads_all (k : Nat) (cs : List Char) : Reads ⟨k, cs⟩ cs ⟨k + byteLength cs, []⟩ :=
  ⟨(List.append_nil cs).symm, rfl⟩

theorem Reads.peek (h : a.Reads (x :: xs) b) : a.peek = some x := by
  rw [Cursor.peek, h.1]
  rfl

theorem skipWhile_of_peek {p : Char → Bool} (h : c.peek = some x) (hx : p x = false) :
    c.skipWhile p = c := by
  obtain ⟨k, rest⟩ := c
  obtain ⟨tail, rfl⟩ : ∃ tail, rest = x :: tail := List.head?_eq_some_iff.1 h
  simp [skipWhile, run, hx]

end Cursor

namespace Expr

variable {n : Nat} {c d : Cursor} {cs rest : List Char} {x : Char}

/-- The characters that stand behind the parts of a reference. -/
def isDelimiter (x : Char) : Bool :=
  ['(', ')', '[', ']', '.', ','].contains x

/-- No white space comes next, and a name before this place does not go on. No arrow that a name
could have begun ends here, and no colon makes the name `Registry` another construct. -/
structure Delimited (c : Cursor) : Prop where
  solid : c.skipWhile isBlank = c
  nameEnds : nameTail c.rest = 0
  noTip : c.peek ≠ some '>'
  noColon : c.peek ≠ some ':'

theorem delimited_of_peek (h : c.peek = some x) (hx : isDelimiter x = true) : Delimited c := by
  obtain ⟨k, rest⟩ := c
  obtain ⟨tail, rfl⟩ : ∃ tail, rest = x :: tail := List.head?_eq_some_iff.1 h
  have hmem : x ∈ ['(', ')', '[', ']', '.', ','] := List.contains_iff_mem.1 hx
  have hall : (['(', ')', '[', ']', '.', ','].all fun y =>
      !isBlank y && !isNamePart y && y != '-' && y != '>' && y != ':') = true := by decide
  have hx := List.all_eq_true.1 hall x hmem
  simp only [Bool.and_eq_true, Bool.not_eq_true', bne_iff_ne] at hx
  obtain ⟨⟨⟨⟨hblank, hpart⟩, hdash⟩, htip⟩, hcolon⟩ := hx
  refine ⟨Cursor.skipWhile_of_peek rfl hblank, ?_, fun hpeek => htip (Option.some.inj hpeek),
    fun hpeek => hcolon (Option.some.inj hpeek)⟩
  rw [nameTail.eq_def]
  split
  · rfl
  · rename_i heq
    obtain ⟨rfl, rfl⟩ := List.cons.inj heq
    simp [hpart, hdash]
  · rfl

theorem delimited_of_arrow (h : c.Reads ('-' :: '>' :: cs) d) : Delimited c := by
  refine ⟨Cursor.skipWhile_of_peek h.peek rfl, ?_, ?_, ?_⟩
  · rw [h.1]
    rfl
  · rw [h.peek]
    decide
  · rw [h.peek]
    decide

theorem nameTail_append (hcs : ∀ y ∈ cs, isNamePart y = true ∨ y = '-') (hrest : nameTail rest = 0)
    (htip : rest.head? ≠ some '>') : nameTail (cs ++ rest) = cs.length := by
  induction cs with
  | nil => exact hrest
  | cons y ys ih =>
    obtain ⟨hy, hys⟩ := List.forall_mem_cons.1 hcs
    have hmore := ih hys
    -- A `-` that ends the name would begin an arrow if a `>` came next.
    have hnoArrow : ∀ tail, '-' :: '>' :: tail ≠ y :: (ys ++ rest) := by
      intro tail heq
      obtain ⟨-, htail⟩ := List.cons.inj heq
      cases ys with
      | nil =>
        rw [List.nil_append] at htail
        exact htip (htail ▸ rfl)
      | cons z zs =>
        obtain ⟨rfl, -⟩ := List.cons.inj htail
        exact absurd (hys '>' (List.mem_cons_self ..)) (by decide)
    have hpart : (isNamePart y || y == '-') = true := by simpa using hy
    rw [List.cons_append, nameTail.eq_def]
    split
    · rename_i tail heq
      exact absurd heq.symm (hnoArrow tail)
    · rename_i heq
      obtain ⟨rfl, rfl⟩ := List.cons.inj heq
      rw [if_pos hpart, hmore, List.length_cons]
    · rename_i heq
      cases heq

theorem nameLength_append (hcs : IsName cs) (hrest : nameTail rest = 0)
    (htip : rest.head? ≠ some '>') : nameLength (cs ++ rest) = cs.length := by
  obtain ⟨x, xs, rfl, hx, hxs⟩ := hcs
  rw [List.cons_append, nameLength, if_pos hx, nameTail_append hxs hrest htip, List.length_cons]

theorem Named.nameLength_eq (hname : Named c cs d) (hd : Delimited d) :
    nameLength c.rest = cs.length := by
  rw [hname.1.1]
  exact nameLength_append hname.2 hd.nameEnds hd.noTip

theorem isNameStart_iff : isNameStart x = true ↔ ('A'.val ≤ x.val ∧ x.val ≤ 'Z'.val) ∨
    ('a'.val ≤ x.val ∧ x.val ≤ 'z'.val) ∨ x = '_' := by
  have hranges : isNameStart x = (decide ('A'.val ≤ x.val ∧ x.val ≤ 'Z'.val) ||
    (decide ('a'.val ≤ x.val) && decide (x.val ≤ 'z'.val)) || x == '_') := rfl
  rw [hranges, Bool.or_eq_true, Bool.or_eq_true, Bool.and_eq_true, decide_eq_true_eq,
    decide_eq_true_eq, decide_eq_true_eq, beq_iff_eq, or_assoc]

theorem toLower_eq_or (x : Char) : x.toLower = x ∨ isNameStart x = true ∧ x.toLower ≠ ':' := by
  by_cases hx : 'A'.val ≤ x.val ∧ x.val ≤ 'Z'.val
  · refine Or.inr ⟨isNameStart_iff.2 (Or.inl hx), fun hcolon => ?_⟩
    have hlower : x.toLower.val = x.val + ('a'.val - 'A'.val) := congrArg Char.val (dif_pos hx)
    rw [hcolon] at hlower
    have hcode : 58 = (x.val + ('a'.val - 'A'.val)).toNat := congrArg UInt32.toNat hlower
    obtain ⟨hlo, hhi⟩ : 65 ≤ x.val.toNat ∧ x.val.toNat ≤ 90 := hx
    rw [UInt32.toNat_add, show ('a'.val - 'A'.val).toNat = 32 from rfl] at hcode
    omega
  · exact Or.inl (dif_neg hx)

/-- What a registry value begins with is a name and a colon. -/
theorem name_of_registryLead (h : startsIgnoringCase registryLead cs = true) :
    ∃ word tail, cs = word ++ ':' :: tail ∧ IsName word := by
  have hfold : (cs.take 9).map Char.toLower = ['r', 'e', 'g', 'i', 's', 't', 'r', 'y'] ++ [':'] :=
    (eq_of_beq h).symm
  obtain ⟨word, last, htake, hword, hlast⟩ := List.map_eq_append_iff.1 hfold
  obtain ⟨colon, rfl, hcolon⟩ := List.map_eq_singleton_iff.1 hlast
  obtain rfl : colon = ':' := by
    rcases toLower_eq_or colon with hsame | ⟨-, hne⟩
    · exact hsame.symm.trans hcolon
    · exact absurd hcolon hne
  have hletters : ∀ x ∈ word, isNameStart x = true := by
    intro x hx
    rcases toLower_eq_or x with hsame | ⟨hstart, -⟩
    · have hmem := List.mem_map_of_mem (f := Char.toLower) hx
      have hall : ['r', 'e', 'g', 'i', 's', 't', 'r', 'y'].all isNameStart = true := by decide
      rw [hword, hsame] at hmem
      exact List.all_eq_true.1 hall x hmem
    · exact hstart
  refine ⟨word, cs.drop 9, ?_, ?_⟩
  · rw [← List.singleton_append, ← List.append_assoc, ← htake, List.take_append_drop]
  · cases word with
    | nil => cases hword
    | cons x xs =>
      obtain ⟨hx, hxs⟩ := List.forall_mem_cons.1 hletters
      refine ⟨x, xs, rfl, hx, fun y hy => Or.inl ?_⟩
      have hstart := hxs y hy
      rw [isNameStart, Bool.or_eq_true] at hstart
      rw [isNamePart, Char.isAlphanum]
      rcases hstart with hstart | hstart <;> simp [hstart]

/-- A name with no colon behind it names no registry value. -/
theorem Named.not_registryLead (hname : Named c cs d) (hd : Delimited d) :
    startsIgnoringCase registryLead c.rest = false := by
  refine Bool.eq_false_iff.2 fun hlead => ?_
  obtain ⟨word, tail, hrest, hword⟩ := name_of_registryLead hlead
  have hlength : word.length = cs.length := by
    rw [← hname.nameLength_eq hd, hrest]
    exact (nameLength_append hword rfl (by simp)).symm
  have hsplit := List.append_inj (hrest.symm.trans hname.1.1) hlength
  exact hd.noColon (by rw [Cursor.peek, ← hsplit.2]; rfl)

theorem isBlank_of_printable (hlo : 33 ≤ x.toNat) (hhi : x.toNat ≤ 126) : isBlank x = false := by
  simp only [isBlank, Bool.or_eq_false_iff, Bool.and_eq_false_iff, beq_eq_false_iff_ne,
    decide_eq_false_iff_not]
  omega

theorem toNat_of_isNameStart (hx : isNameStart x = true) : 65 ≤ x.toNat ∧ x.toNat ≤ 122 := by
  simp only [isNameStart_iff, UInt32.le_iff_toNat_le] at hx
  rcases hx with ⟨hlo, hhi⟩ | ⟨hlo, hhi⟩ | rfl
  · exact ⟨hlo, Nat.le_trans hhi (by decide)⟩
  · exact ⟨Nat.le_trans (by decide) hlo, hhi⟩
  · decide

theorem toNat_of_isDigit (hx : x.isDigit = true) : 48 ≤ x.toNat ∧ x.toNat ≤ 57 := by
  simp only [Char.isDigit, Bool.and_eq_true, decide_eq_true_eq, ge_iff_le,
    UInt32.le_iff_toNat_le] at hx
  exact hx

theorem isBlank_of_isNameStart (hx : isNameStart x = true) : isBlank x = false := by
  have hcode := toNat_of_isNameStart hx
  exact isBlank_of_printable (by omega) (by omega)

theorem isBlank_of_isDigit (hx : x.isDigit = true) : isBlank x = false := by
  have hcode := toNat_of_isDigit hx
  exact isBlank_of_printable (by omega) (by omega)

theorem isDigit_of_isNameStart (hx : isNameStart x = true) : x.isDigit = false := by
  refine Bool.eq_false_iff.2 fun hdigit => ?_
  have hcode := toNat_of_isNameStart hx
  have hcode' := toNat_of_isDigit hdigit
  omega

theorem mem_sigils (hx : isSigil x = true) : x ∈ ['$', '@', '%'] := by
  simp only [isSigil, Bool.or_eq_true, beq_iff_eq] at hx
  obtain (rfl | rfl) | rfl := hx <;> decide

theorem isBlank_of_isSigil (hx : isSigil x = true) : isBlank x = false := by
  simp only [isSigil, Bool.or_eq_true, beq_iff_eq] at hx
  obtain (rfl | rfl) | rfl := hx <;> rfl

theorem isBlank_of_isQuote (hx : isQuote x = true) : isBlank x = false := by
  simp only [isQuote, Bool.or_eq_true, beq_iff_eq] at hx
  obtain (rfl | rfl) | rfl := hx <;> rfl

theorem isQuote_of_isSigil (hx : isSigil x = true) : isQuote x = false := by
  simp only [isSigil, Bool.or_eq_true, beq_iff_eq] at hx
  obtain (rfl | rfl) | rfl := hx <;> rfl

/-- A number or a word begins with neither a quotation mark nor a sigil. -/
theorem isPlain_of_start (hx : x.isDigit = true ∨ x = '-' ∨ isNameStart x = true) :
    isQuote x = false ∧ isSigil x = false := by
  refine ⟨Bool.eq_false_iff.2 fun hquote => ?_, Bool.eq_false_iff.2 fun hsigil => ?_⟩
  · simp only [isQuote, Bool.or_eq_true, beq_iff_eq] at hquote
    obtain (rfl | rfl) | rfl := hquote <;> exact absurd hx (by decide)
  · simp only [isSigil, Bool.or_eq_true, beq_iff_eq] at hsigil
    obtain (rfl | rfl) | rfl := hsigil <;> exact absurd hx (by decide)

theorem Named.peek (h : Named c cs d) : ∃ x, c.peek = some x ∧ isNameStart x = true := by
  obtain ⟨hread, x, xs, rfl, hx, -⟩ := h
  exact ⟨x, hread.peek, hx⟩

/-- A name begins with no white space. -/
theorem Named.solid (h : Named c cs d) : c.skipWhile isBlank = c := by
  obtain ⟨x, hpeek, hx⟩ := h.peek
  exact Cursor.skipWhile_of_peek hpeek (isBlank_of_isNameStart hx)

section
variable {lists : Bool}

/-- Literal text goes on up to a place where there is none, unless this place begins with the
parenthesis of a reference whose sigil ends the text. -/
theorem literalLength_append (hcs : ∀ sigil ∈ ['$', '@', '%'], ¬[sigil, '('] <:+: cs)
    (hlists : lists = true → ';' ∉ cs) (hrest : literalLength lists rest = 0)
    (hparen : rest.head? ≠ some '(') : literalLength lists (cs ++ rest) = cs.length := by
  induction cs with
  | nil => exact hrest
  | cons y ys ih =>
    -- Neither inside nor across the end does a reference begin.
    have hnext : ¬(isSigil y = true ∧ (ys ++ rest).head? = some '(') := by
      rintro ⟨hsigil, hhead⟩
      cases ys with
      | nil => exact hparen hhead
      | cons z zs =>
        obtain rfl : z = '(' := Option.some.inj hhead
        exact hcs y (mem_sigils hsigil) (List.prefix_append [y, '('] zs).isInfix
    have hsep : ¬(lists = true ∧ y = ';') := by
      rintro ⟨hlists', rfl⟩
      exact hlists hlists' (List.mem_cons_self ..)
    have hmore := ih (fun sigil hsigil hinfix => hcs sigil hsigil (List.infix_cons hinfix))
      (fun hlists' hmem => hlists hlists' (List.mem_cons_of_mem _ hmem))
    rw [List.cons_append, literalLength, if_neg ?_, hmore, List.length_cons]
    simp only [Bool.or_eq_true, Bool.and_eq_true, beq_iff_eq, not_or]
    exact ⟨hsep, hnext⟩

theorem gives_literal_run {q : Bool} (hsize : Position.size c < n) (hrun : IsRun q cs)
    (hread : c.Reads cs d) (hd : literalLength (!q) d.rest = 0) (hparen : d.peek ≠ some '(') :
    (literal q (!q) : Read n _).Gives c
      [.mk ⟨c.offset, d.offset⟩ (.text (String.ofList cs) q)] d := by
  refine gives_literal.2 ⟨hsize, Or.inr ⟨cs, hrun.ne_nil, hread, ?_, rfl⟩⟩
  rw [hread.1]
  exact literalLength_append hrun.noReference (fun h => hrun.noSegment (by simpa using h)) hd hparen

theorem takeWhile_append_of_peek {p : Char → Bool} (hcs : ∀ y ∈ cs, p y = true)
    (hrest : ∀ y, rest.head? = some y → p y = false) : (cs ++ rest).takeWhile p = cs := by
  rw [List.takeWhile_append_of_pos hcs]
  cases rest with
  | nil => exact List.append_nil cs
  | cons y ys => rw [List.takeWhile_cons_of_neg (by simp [hrest y rfl]), List.append_nil]

theorem gives_takeWhile_of_reads {p : Char → Bool} (hsize : Position.size c < n)
    (hread : c.Reads cs d) (hcs : ∀ x ∈ cs, p x = true)
    (hd : ∀ x, d.peek = some x → p x = false) :
    (Reader.takeWhile p : Read n _).Gives c cs d := by
  have hrun : c.run p = cs := by
    rw [Cursor.run, hread.1]
    exact takeWhile_append_of_peek hcs hd
  have hskip := c.reads_skipWhile p
  rw [hrun] at hskip
  exact Reader.gives_takeWhile.2
    ⟨hsize, hrun, (hskip.eq_of_rest hread.1).trans (hread.eq_of_rest hread.1).symm⟩

theorem gives_number_of_reads (hsize : Position.size c < n) (hcs : IsNumber cs)
    (hread : c.Reads cs d) (hd : ∀ x, d.peek = some x → isNumberPart x = false) :
    (number : Read n Node).Gives c (.mk ⟨c.offset, d.offset⟩ (.number (String.ofList cs))) d := by
  obtain ⟨x, xs, rfl, -, hxs⟩ := hcs
  have hmore := takeWhile_append_of_peek hxs hd
  refine (gives_number (show c.rest = x :: (xs ++ d.rest) from hread.1)).2 ?_
  rw [hmore]
  exact ⟨hsize, hread, rfl⟩

end

end Expr

end ProjectAnalysis
