import ProjectAnalysis.Proofs.ParenDepth
import ProjectAnalysis.Proofs.TokenPlace

/-! Literals in quotes that hold no quote themselves. Behind the sigil of an item the scan for the
closing quote counts parentheses, whether they belong to a reference or not. It stops at the first
quote just if they come in pairs up to there, and otherwise goes on into what stands behind. -/
namespace ProjectAnalysis.Expr

section
variable {inItem : Bool} {depth : Int} {body after : List Char}

/-- How the depth changes up to the first quote. -/
def depthBeyond (inItem : Bool) (body : List Char) : Int :=
  if inItem then excess body else 0

theorem depthBeyond_cons (c : Char) (cs : List Char) :
    depthBeyond inItem (c :: cs) = depthBeyond inItem [c] + depthBeyond inItem cs := by
  cases inItem with
  | false => rfl
  | true => exact excess_cons c cs

/-- Outside of a literal one character counts like the text that it makes. -/
theorem depth_after_char (c : Char) :
    (if inItem && !false then
        if c = '(' then depth + 1 else if c = ')' then depth - 1 else depth
      else depth) = depth + depthBeyond inItem [c] := by
  cases inItem with
  | false => exact (Int.add_zero depth).symm
  | true =>
    change (if c = '(' then depth + 1 else if c = ')' then depth - 1 else depth) =
      depth + excess [c]
    split
    · rename_i hopen
      rw [hopen]
      rfl
    · rename_i hopen
      split
      · rename_i hclose
        rw [hclose]
        rfl
      · rename_i hclose
        have hzero : excess [c] = 0 := excess_eq_zero (by simpa using Ne.symm hopen)
          (by simpa using Ne.symm hclose)
        rw [hzero, Int.add_zero]

/-- At the first quote the scan stops if the depth is nothing there; if not, a literal of the
reference begins. -/
theorem closingQuote?_append (hbody : '\'' ∉ body) {reached : Int}
    (hreached : reached = depth + depthBeyond inItem body) :
    closingQuote? inItem depth false (body ++ '\'' :: after) =
      if reached = 0 then some body.length
      else (closingQuote? inItem reached true after).map (· + (body.length + 1)) := by
  induction body generalizing depth with
  | nil =>
    have hquote : depthBeyond inItem ['\''] = 0 := by cases inItem <;> rfl
    have hnil : depthBeyond inItem [] = 0 := by cases inItem <;> rfl
    rw [hnil, Int.add_zero] at hreached
    subst hreached
    rw [List.nil_append, closingQuote?, depth_after_char, hquote, Int.add_zero, if_pos rfl]
    rfl
  | cons c body ih =>
    rw [List.mem_cons, not_or] at hbody
    obtain ⟨hc, hbody⟩ := hbody
    -- The depth behind `c` takes the place of the one before it.
    rw [depthBeyond_cons, ← Int.add_assoc] at hreached
    rw [List.cons_append, closingQuote?, depth_after_char, if_neg (Ne.symm hc), ih hbody hreached]
    split
    · rfl
    · rw [Option.map_map]
      rfl

/-- The first quote closes the string just if the depth is nothing there. -/
theorem closingQuote?_eq_length_iff (hbody : '\'' ∉ body) :
    closingQuote? inItem 0 false (body ++ '\'' :: after) = some body.length ↔
      depthBeyond inItem body = 0 := by
  rw [closingQuote?_append hbody (Int.zero_add _).symm]
  split
  · rename_i hzero
    exact iff_of_true rfl hzero
  · rename_i hzero
    refine iff_of_false (fun h => ?_) hzero
    obtain ⟨k, -, hk⟩ := Option.map_eq_some_iff.1 h
    omega

/-- A closing quote is the first one if the text up to it is the one up to the first one. -/
theorem eq_length_of_closes {k : Nat}
    (hclose : closingQuote? inItem depth false (body ++ '\'' :: after) = some k)
    (htext : (body ++ '\'' :: after).take k = body) : k = body.length := by
  have htake := closingQuote?_eq_some hclose
  rw [htext] at htake
  -- The quote itself is one character more, so the text is not shorter than `k`.
  have hbeyond := congrArg List.length htake
  rw [List.length_append, List.length_singleton, List.length_take] at hbeyond
  have hupto := congrArg List.length htext
  rw [List.length_take] at hupto
  omega

/-- What begins with a quote and does not end there is a string, if a quote closes it. -/
theorem extent_quote {rest : List Char} (hrest : rest ≠ []) :
    extent '\'' rest = match closingQuote? (rest.head? == some '@') 0 false rest with
      | some k => .ok ⟨.word, k + 1, true⟩
      | none => .error .openString := by
  cases rest with
  | nil => exact absurd rfl hrest
  | cons x xs => rfl

/-- A string without quotes in it is closed by its own closing quote just if it does not begin with
the sigil of an item or its parentheses come in pairs. -/
theorem closes_literal_iff (hbody : '\'' ∉ body) (after : List Char) :
    closingQuote? ((body ++ '\'' :: after).head? == some '@') 0 false (body ++ '\'' :: after) =
        some body.length ↔
      (body.head? = some '@' → body.count '(' = body.count ')') := by
  have hhead : ((body ++ '\'' :: after).head? == some '@') = (body.head? == some '@') := by
    cases body <;> rfl
  rw [hhead, closingQuote?_eq_length_iff hbody]
  unfold depthBeyond excess
  split
  · rename_i hitem
    have hitem := eq_of_beq hitem
    constructor
    · intro h _
      omega
    · intro h
      have heq := h hitem
      omega
  · rename_i hitem
    exact iff_of_true rfl fun h => absurd (beq_iff_eq.2 h) hitem

end

variable {s : TokenStream} {d e : Cursor} {body : List Char}

theorem Blanks.skipWhile_eq {c : Cursor} {x : Char} {rest : List Char} (w : Blanks c d)
    (hd : d.rest = x :: rest) (hx : isBlank x = false) : c.skipWhile isBlank = d := by
  obtain ⟨ws, hread, hws⟩ := w
  have hrun : c.run isBlank = ws := by
    rw [Cursor.run, hread.1, hd]
    exact (List.takeWhile_append_of_pos hws).trans (by simp [hx])
  have hskip := c.reads_skipWhile isBlank
  rw [hrun] at hskip
  exact (hskip.eq_of_rest hread.1).trans (hread.eq_of_rest hread.1).symm

/-- Wherever a token may begin, a literal in quotes that holds no quote is one token whose text is
the literal, just if it does not begin with the sigil of an item or its parentheses come in
pairs. -/
theorem step_literal_iff (hs : s.atEnd = false) (w : Blanks s.after d)
    (hread : d.Reads ('\'' :: (body ++ ['\''])) e) (hbody : '\'' ∉ body) :
    s.step = (⟨⟨.word, String.ofList body, d.offset, true⟩, e⟩, none) ↔
      (body.head? = some '@' → body.count '(' = body.count ')') := by
  have hrest : d.rest = '\'' :: (body ++ '\'' :: e.rest) := by
    rw [hread.1, List.cons_append, List.append_assoc, List.singleton_append]
  have hne : body ++ '\'' :: e.rest ≠ [] := List.append_ne_nil_of_right_ne_nil _ nofun
  rw [← closes_literal_iff hbody e.rest, step_eq_iff (w.skipWhile_eq hrest rfl)]
  constructor
  · rintro ⟨-, ⟨hnil, -⟩ | ⟨x, rest, ext, hcons, hextent, heq⟩⟩
    · rw [hrest] at hnil
      cases hnil
    · obtain ⟨rfl, rfl⟩ := List.cons.inj (hrest.symm.trans hcons)
      rw [extent_quote hne] at hextent
      split at hextent
      · rename_i k hk
        cases hextent
        -- The text of the token says how long it is.
        have htext : (body ++ '\'' :: e.rest).take k = body :=
          (String.ofList_injective (Token.mk.inj (TokenStream.mk.inj heq).1).2.1).symm
        rw [hk, eq_length_of_closes hk htext]
      · cases hextent
  · intro hclose
    refine ⟨hs, Or.inr ⟨_, _, ⟨.word, body.length + 1, true⟩, hrest, ?_, ?_⟩⟩
    · rw [extent_quote hne, hclose]
    · have hskip := hread.skip_eq
      rw [List.length_cons, List.length_append, List.length_singleton] at hskip
      rw [hskip]
      simp [Extent.token]

/-- A parenthesis behind the sigil of an item that begins no reference. -/
theorem step_literal_iff_unpaired :
    let s := TokenStream.ofText " '@x(' == 'y'".toList
    let d : Cursor := ⟨1, "'@x(' == 'y'".toList⟩
    let e : Cursor := ⟨6, " == 'y'".toList⟩
    let body := "@x(".toList
    s.atEnd = false ∧ Blanks s.after d ∧ d.Reads ('\'' :: (body ++ ['\''])) e ∧ '\'' ∉ body ∧
      s.step ≠ (⟨⟨.word, String.ofList body, d.offset, true⟩, e⟩, none) := by
  intro s d e body
  have hs : s.atEnd = false := by decide +kernel
  have hblanks : Blanks s.after d := by
    refine ⟨[' '], ⟨?_, ?_⟩, List.forall_mem_singleton.2 rfl⟩ <;> decide +kernel
  have hread : d.Reads ('\'' :: (body ++ ['\''])) e := by
    refine ⟨?_, ?_⟩ <;> decide +kernel
  have hbody : '\'' ∉ body := by decide +kernel
  refine ⟨hs, hblanks, hread, hbody, fun h => ?_⟩
  -- If it were one token, there would be as many `)` as `(`.
  have hpairs := (step_literal_iff hs hblanks hread hbody).1 h
  exact absurd hpairs (by decide +kernel)

example : (TokenStream.ofText " '@x(' == 'y'".toList).step.2 =
    some ⟨.lexical .openString '\'', 1⟩ := by decide +kernel

end ProjectAnalysis.Expr
