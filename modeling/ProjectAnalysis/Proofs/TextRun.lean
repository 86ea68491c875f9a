import ProjectAnalysis.Proofs.TextGrammar

/-! What each reader of text with references gives, so that its text need not be opened again. A
reader that looks for the longest match has the length of that match in its law: how much is read
depends on what stands behind. -/
namespace ProjectAnalysis.Expr

variable {n : Nat} {c d : Cursor} {a : Node}

theorem gives_failAt {α : Type} {cause : SyntaxCause} {k : Nat} {x : α} :
    ¬(failAt cause k : Read n α).Gives c x d :=
  Reader.not_gives_fail _ _

theorem gives_failHere {α : Type} {cause : SyntaxCause} {x : α} :
    ¬(failHere cause : Read n α).Gives c x d := by
  intro h
  obtain ⟨_, _, -, h⟩ := Reader.gives_bind.1 h
  exact gives_failAt h

section
variable {α β : Type} {p : Prop} [Decidable p] {cause : SyntaxCause} {x : β} {f : α → Read n β}
  {r : Read n β}

/-- A reader that gives up where `p` holds. -/
theorem gives_failAt_else {k : Nat} :
    (if p then failAt cause k >>= f else r).Gives c x d ↔ ¬p ∧ r.Gives c x d := by
  constructor
  · intro h
    split at h
    · obtain ⟨_, _, hfail, -⟩ := Reader.gives_bind.1 h
      exact absurd hfail gives_failAt
    · rename_i hp
      exact ⟨hp, h⟩
  · rintro ⟨hp, h⟩
    rwa [if_neg hp]

theorem gives_failHere_else :
    (if p then failHere cause >>= f else r).Gives c x d ↔ ¬p ∧ r.Gives c x d := by
  constructor
  · intro h
    split at h
    · obtain ⟨_, _, hfail, -⟩ := Reader.gives_bind.1 h
      exact absurd hfail gives_failHere
    · rename_i hp
      exact ⟨hp, h⟩
  · rintro ⟨hp, h⟩
    rwa [if_neg hp]

end

theorem gives_expect {x : Char} {u : Unit} :
    (expect x : Read n Unit).Gives c u d ↔ Position.size c < n ∧ c.Reads [x] d := by
  rw [expect, Reader.gives_bind]
  constructor
  · rintro ⟨b, e, heat, hthen⟩
    obtain ⟨h, hb⟩ := Reader.gives_eat.1 heat
    rcases hb with ⟨rfl, hread⟩ | ⟨rfl, -, rfl⟩
    · rw [if_pos rfl] at hthen
      obtain ⟨-, -, rfl⟩ := Reader.gives_pure.1 hthen
      exact ⟨h, hread⟩
    · rw [if_neg Bool.false_ne_true] at hthen
      obtain ⟨_, _, -, hthen⟩ := Reader.gives_bind.1 hthen
      exact absurd hthen gives_failHere
  · rintro ⟨h, hread⟩
    refine ⟨true, d, Reader.gives_eat.2 ⟨h, Or.inl ⟨rfl, hread⟩⟩, ?_⟩
    rw [if_pos rfl]
    exact Reader.gives_pure.2 ⟨hread.size_lt h, rfl, rfl⟩

/-- White space, a closing parenthesis, and the value that depends on the place behind it. -/
theorem gives_closed {α : Type} {f : Nat → α} {x : α} :
    (do Reader.blanks; expect ')'; let stop ← Reader.offset; pure (f stop) : Read n α).Gives c x d ↔
      Position.size c < n ∧ (c.skipWhile isBlank).Reads [')'] d ∧ f d.offset = x := by
  rw [Reader.gives_blanks_bind, Reader.gives_bind]
  simp only [gives_expect, Reader.gives_offset_bind, Reader.gives_pure]
  constructor
  · rintro ⟨h, _, _, ⟨-, hread⟩, -, rfl, rfl⟩
    exact ⟨h, hread, rfl⟩
  · rintro ⟨h, hread, rfl⟩
    have hblanks : Position.size (c.skipWhile isBlank) < n :=
      (c.reads_skipWhile isBlank).size_lt h
    exact ⟨h, (), d, ⟨hblanks, hread⟩, hread.size_lt hblanks, rfl, rfl⟩

theorem nameTail_le (cs : List Char) : nameTail cs ≤ cs.length := by
  fun_induction nameTail cs with
  | case1 => exact Nat.zero_le _
  | case2 c cs _ _ ih => exact Nat.succ_le_succ ih
  | case3 => exact Nat.zero_le _
  | case4 => exact Nat.zero_le _

theorem of_mem_take_nameTail (cs : List Char) :
    ∀ y ∈ cs.take (nameTail cs), isNamePart y = true ∨ y = '-' := by
  fun_induction nameTail cs with
  | case1 => exact List.forall_mem_nil _
  | case2 c cs _ hc ih =>
    rw [List.take_succ_cons]
    refine List.forall_mem_cons.2 ⟨?_, ih⟩
    simpa using hc
  | case3 => exact List.forall_mem_nil _
  | case4 => exact List.forall_mem_nil _

theorem isName_take {cs : List Char} (h : nameLength cs ≠ 0) :
    IsName (cs.take (nameLength cs)) := by
  cases cs with
  | nil => exact absurd rfl h
  | cons x xs =>
    rw [nameLength] at h ⊢
    split at h
    · rename_i hx
      rw [if_pos hx, List.take_succ_cons]
      exact ⟨x, _, rfl, hx, of_mem_take_nameTail xs⟩
    · exact absurd rfl h

theorem nameLength_le (cs : List Char) : nameLength cs ≤ cs.length := by
  cases cs with
  | nil => exact Nat.le_refl _
  | cons x xs =>
    rw [nameLength]
    split
    · exact Nat.succ_le_succ (nameTail_le xs)
    · exact Nat.zero_le _

/-- The longest name in front, which is there. -/
theorem gives_name {missing : SyntaxCause} {s : String} :
    (name missing : Read n String).Gives c s d ↔ Position.size c < n ∧
      ∃ cs, Named c cs d ∧ nameLength c.rest = cs.length ∧ s = String.ofList cs := by
  rw [name, Reader.gives_place_bind]
  constructor
  · intro hthen
    obtain ⟨h, -⟩ := id hthen
    refine ⟨h, ?_⟩
    split at hthen
    · exact absurd hthen gives_failAt
    · rename_i hne
      obtain ⟨cs, e, htake, hthen⟩ := Reader.gives_bind.1 hthen
      obtain ⟨-, rfl, rfl⟩ := Reader.gives_take.1 htake
      obtain ⟨-, rfl, rfl⟩ := Reader.gives_pure.1 hthen
      refine ⟨_, ⟨c.reads_skip _, isName_take hne⟩, ?_, rfl⟩
      rw [List.length_take, Nat.min_eq_left (nameLength_le _)]
  · rintro ⟨h, cs, ⟨hread, x, xs, rfl, -⟩, hlength, rfl⟩
    rw [hlength]
    have htake : c.rest.take (x :: xs).length = x :: xs := by rw [hread.1, List.take_left]
    refine Reader.gives_bind.2 ⟨x :: xs, d, Reader.gives_take.2 ⟨h, htake, hread.skip_eq⟩, ?_⟩
    exact Reader.gives_pure.2 ⟨hread.size_lt h, rfl, rfl⟩

theorem gives_functionName : (functionName : Read n Node).Gives c a d ↔ Position.size c < n ∧
    ∃ cs, Named c cs d ∧ nameLength c.rest = cs.length ∧
      a = .mk ⟨c.offset, d.offset⟩ (.functionName (String.ofList cs)) := by
  rw [functionName, Reader.gives_offset_bind, Reader.gives_bind]
  simp only [Reader.gives_offset_bind, gives_name, Reader.gives_pure]
  constructor
  · rintro ⟨_, e, ⟨h, cs, hname, hlength, rfl⟩, -, rfl, rfl⟩
    exact ⟨h, cs, hname, hlength, rfl⟩
  · rintro ⟨h, cs, hname, hlength, rfl⟩
    exact ⟨_, d, ⟨h, cs, hname, hlength, rfl⟩, hname.1.size_lt h, rfl, rfl⟩

theorem literalLength_le (lists : Bool) (cs : List Char) : literalLength lists cs ≤ cs.length := by
  fun_induction literalLength lists cs with
  | case1 => exact Nat.le_refl _
  | case2 => exact Nat.zero_le _
  | case3 c cs _ ih => exact Nat.succ_le_succ ih

/-- The literal text in front, which may be none. -/
theorem gives_literal {q lists : Bool} {nodes : List Node} :
    (literal q lists : Read n _).Gives c nodes d ↔ Position.size c < n ∧
      ((literalLength lists c.rest = 0 ∧ nodes = [] ∧ c = d) ∨
        ∃ cs, cs ≠ [] ∧ c.Reads cs d ∧ literalLength lists c.rest = cs.length ∧
          nodes = [.mk ⟨c.offset, d.offset⟩ (.text (String.ofList cs) q)]) := by
  rw [literal, Reader.gives_place_bind]
  constructor
  · intro hthen
    obtain ⟨h, -⟩ := id hthen
    refine ⟨h, ?_⟩
    split at hthen
    · rename_i hzero
      obtain ⟨-, rfl, rfl⟩ := Reader.gives_pure.1 hthen
      exact Or.inl ⟨hzero, rfl, rfl⟩
    · rename_i hne
      obtain ⟨cs, e, htake, hthen⟩ := Reader.gives_bind.1 hthen
      obtain ⟨-, rfl, rfl⟩ := Reader.gives_take.1 htake
      replace hthen := Reader.gives_offset_bind.1 hthen
      obtain ⟨-, rfl, rfl⟩ := Reader.gives_pure.1 hthen
      have hlength := List.length_take (l := c.rest) (i := literalLength lists c.rest)
      rw [Nat.min_eq_left (literalLength_le _ _)] at hlength
      refine Or.inr ⟨_, ?_, c.reads_skip _, hlength.symm, rfl⟩
      intro hnil
      rw [hnil] at hlength
      exact hne hlength.symm
  · rintro ⟨h, hthen⟩
    rcases hthen with ⟨hzero, rfl, rfl⟩ | ⟨cs, hne, hread, hlength, rfl⟩
    · rw [hzero]
      exact Reader.gives_pure.2 ⟨h, rfl, rfl⟩
    · obtain ⟨x, xs, rfl⟩ := List.exists_cons_of_ne_nil hne
      rw [hlength]
      have hd : Position.size d < n := hread.size_lt h
      have htake : c.rest.take (x :: xs).length = x :: xs := by rw [hread.1, List.take_left]
      refine Reader.gives_bind.2 ⟨x :: xs, d, Reader.gives_take.2 ⟨h, htake, hread.skip_eq⟩, ?_⟩
      exact Reader.gives_offset_bind.2 (Reader.gives_pure.2 ⟨hd, rfl, rfl⟩)

/-- Behind the literal text in front there is no literal text. -/
theorem literalLength_drop (lists : Bool) (cs : List Char) :
    literalLength lists (cs.drop (literalLength lists cs)) = 0 := by
  fun_induction literalLength lists cs with
  | case1 => rfl
  | case2 c cs h =>
    rw [List.drop_zero, literalLength, if_pos h]
  | case3 c cs _ ih => exact ih

/-- Where neither literal text nor a reference comes next, and no list goes on, there is no more. -/
theorem rest_eq_nil {lists : Bool} (hliteral : literalLength lists c.rest = 0)
    (hreference : startsReference c = false) (hlist : lists = true → c.peek ≠ some ';') :
    c.rest = [] := by
  obtain ⟨k, rest⟩ := c
  cases rest with
  | nil => rfl
  | cons x rest =>
    rw [literalLength] at hliteral
    split at hliteral
    · rename_i hx
      -- Literal text stops before the end only at a segment or at a reference.
      obtain ⟨hlists, rfl⟩ | ⟨hsigil, hparen⟩ :
          (lists = true ∧ x = ';') ∨ (isSigil x = true ∧ rest.head? = some '(') := by
        simpa using hx
      · exact absurd rfl (hlist hlists)
      · obtain ⟨rest, rfl⟩ : ∃ tail, rest = '(' :: tail := List.head?_eq_some_iff.1 hparen
        have hstarts : startsReference ⟨k, x :: '(' :: rest⟩ = isSigil x := rfl
        rw [hstarts, hsigil] at hreference
        cases hreference
    · cases hliteral

theorem gives_number {x : Char} {rest : List Char} (hx : c.rest = x :: rest) :
    (number : Read n Node).Gives c a d ↔ Position.size c < n ∧
      c.Reads (x :: rest.takeWhile isNumberPart) d ∧
      a = .mk ⟨c.offset, d.offset⟩
        (.number (String.ofList (x :: rest.takeWhile isNumberPart))) := by
  have hone : c.Reads [x] (c.skip 1) := by
    have hskip := c.reads_skip 1
    rwa [hx, List.take_succ_cons, List.take_zero] at hskip
  have hrun : (c.skip 1).run isNumberPart = rest.takeWhile isNumberPart := by
    rw [Cursor.run, Cursor.skip, hx, List.drop_succ_cons, List.drop_zero]
  have hread : c.Reads (x :: rest.takeWhile isNumberPart) ((c.skip 1).skipWhile isNumberPart) := by
    have hmore := hone.trans (Cursor.reads_skipWhile isNumberPart _)
    rwa [hrun] at hmore
  simp only [number, Reader.gives_bind, Reader.gives_offset, Reader.gives_take,
    Reader.gives_takeWhile, Reader.gives_pure]
  constructor
  · rintro ⟨_, _, ⟨h, rfl, rfl⟩, _, _, ⟨-, rfl, rfl⟩, _, _, ⟨-, rfl, rfl⟩, _, _, ⟨-, rfl, rfl⟩, -,
      rfl, rfl⟩
    refine ⟨h, hread, ?_⟩
    rw [hrun, hx]
    rfl
  · rintro ⟨h, hd, rfl⟩
    obtain rfl := hd.skip_eq.symm.trans hread.skip_eq
    refine ⟨_, c, ⟨h, rfl, rfl⟩, _, _, ⟨h, rfl, rfl⟩, _, _, ⟨hone.size_lt h, rfl, rfl⟩, _, _,
      ⟨hread.size_lt h, rfl, rfl⟩, hread.size_lt h, ?_, rfl⟩
    rw [hrun, hx]
    rfl

theorem gives_bareWord : (bareWord : Read n Node).Gives c a d ↔ Position.size c < n ∧
    ∃ cs, Named c cs d ∧ nameLength c.rest = cs.length ∧
      a = .mk ⟨c.offset, d.offset⟩ (.text (String.ofList cs) false) := by
  rw [bareWord, Reader.gives_offset_bind, Reader.gives_bind]
  simp only [Reader.gives_offset_bind, gives_name, Reader.gives_pure]
  constructor
  · rintro ⟨_, e, ⟨h, cs, hname, hlength, rfl⟩, -, rfl, rfl⟩
    exact ⟨h, cs, hname, hlength, rfl⟩
  · rintro ⟨h, cs, hname, hlength, rfl⟩
    exact ⟨_, d, ⟨h, cs, hname, hlength, rfl⟩, hname.1.size_lt h, rfl, rfl⟩

theorem reads_arrow {x : Char} (hx : ['-', '>'].isPrefixOf c.rest = true) (h : c.Reads [x] d) :
    c.Reads ['-', '>'] (d.skip 1) := by
  obtain ⟨rest, hrest⟩ := List.isPrefixOf_iff_prefix.1 hx
  have hone := d.reads_skip 1
  obtain ⟨rfl, hd⟩ := List.cons.inj (hrest.trans h.1)
  rw [← (show '>' :: rest = d.rest from hd)] at hone
  exact h.trans hone

theorem takeWhile_ne_append {q : Char} {cs : List Char} (hq : q ∉ cs) (tail : List Char) :
    (cs ++ q :: tail).takeWhile (· != q) = cs := by
  rw [List.takeWhile_append_of_pos, List.takeWhile_cons_of_neg, List.append_nil]
  · simp
  · intro x hx
    exact bne_iff_ne.2 fun h => hq (h ▸ hx)

theorem dropWhile_ne_append {q : Char} {cs : List Char} (hq : q ∉ cs) (tail : List Char) :
    (cs ++ q :: tail).dropWhile (· != q) = q :: tail := by
  rw [List.dropWhile_append_of_pos, List.dropWhile_cons_of_neg]
  · simp
  · intro x hx
    exact bne_iff_ne.2 fun h => hq (h ▸ hx)

/-- The text before the first `q`. -/
theorem exists_append_of_mem {q : Char} {cs : List Char} (hq : q ∈ cs) :
    ∃ tail, cs = cs.takeWhile (· != q) ++ q :: tail ∧ q ∉ cs.takeWhile (· != q) := by
  obtain ⟨before, tail, rfl, hbefore⟩ := List.eq_append_cons_of_mem hq
  rw [takeWhile_ne_append hbefore]
  exact ⟨tail, rfl, hbefore⟩

section
variable {inner : Inner n} {o : Options}

/-- Parts are put together into one node. -/
theorem gives_concat {q lists : Bool} : (concat inner o q lists).Gives c a d ↔
    ∃ nodes, (parts inner o q lists).Gives c nodes d ∧ a = joined ⟨c.offset, d.offset⟩ q nodes := by
  rw [concat, Reader.gives_offset_bind, Reader.gives_bind]
  simp only [Reader.gives_offset_bind]
  constructor
  · rintro ⟨nodes, e, hnodes, hthen⟩
    rcases nodes with _ | ⟨b, _ | ⟨b', more⟩⟩ <;> obtain ⟨-, rfl, rfl⟩ := Reader.gives_pure.1 hthen
    · exact ⟨_, hnodes, rfl⟩
    · exact ⟨_, hnodes, rfl⟩
    · exact ⟨_, hnodes, rfl⟩
  · rintro ⟨nodes, hnodes, rfl⟩
    obtain ⟨hsize, -⟩ := id hnodes
    have hd := Nat.lt_of_le_of_lt hnodes.size_le hsize
    refine ⟨nodes, d, hnodes, ?_⟩
    rcases nodes with _ | ⟨b, _ | ⟨b', more⟩⟩ <;> exact Reader.gives_pure.2 ⟨hd, rfl, rfl⟩

theorem take_quoted {q : Char} {rest cs tail : List Char} (h : rest = cs ++ q :: tail) :
    (q :: rest).take (cs.length + 2) = q :: (cs ++ [q]) := by
  rw [h, List.take_succ_cons, List.take_length_add_append, List.take_succ_cons, List.take_zero]

theorem quoted_eq_ok {k : Nat} {q : Char} {rest cs : List Char}
    {h : Position.size (Cursor.mk k (q :: rest)) < n} (hq : isQuote q = true)
    (hmem : rest.contains q = true) (hcs : rest.takeWhile (· != q) = cs)
    {h' : Position.size (Cursor.mk (k + q.utf8Size) cs) < n}
    {r : Reading Node (Cursor.mk (k + q.utf8Size) cs)}
    (hr : concat inner o true false ⟨k + q.utf8Size, cs⟩ h' = .ok r) :
    ∃ x, quoted inner o ⟨k, q :: rest⟩ h = .ok (some x) ∧ x.value = r.value ∧
      x.next = Cursor.skip (cs.length + 2) ⟨k, q :: rest⟩ := by
  subst hcs
  rw [quoted, if_pos hq]
  dsimp only
  rw [if_pos hmem, hr]
  exact ⟨_, rfl, rfl, rfl⟩

/-- A quote, text without that quote, and the quote again; the text is read by itself. -/
theorem takes_quoted : (quoted inner o).Takes c a d ↔ Position.size c < n ∧
    ∃ q cs e, isQuote q = true ∧ q ∉ cs ∧ c.Reads (q :: (cs ++ [q])) d ∧
      (concat inner o true false).Gives ⟨c.offset + q.utf8Size, cs⟩ a e := by
  obtain ⟨k, rest⟩ := c
  cases rest with
  | nil =>
    constructor
    · rintro ⟨h, r, hr, -⟩
      cases hr
    · rintro ⟨-, q, cs, e, -, -, hread, -⟩
      cases hread.1
  | cons q rest =>
    constructor
    · rintro ⟨h, r, hr, rfl, rfl⟩
      refine ⟨h, ?_⟩
      -- The text inside is read by a run of its own, so there is no law of a bind to use.
      rw [quoted] at hr
      dsimp only at hr
      split at hr
      · rename_i hq
        split at hr
        · rename_i hmem
          split at hr
          · cases hr
          · rename_i r' hr'
            obtain rfl := Option.some.inj (Except.ok.inj hr)
            obtain ⟨tail, htail, hbody⟩ := exists_append_of_mem (List.contains_iff_mem.1 hmem)
            refine ⟨q, _, r'.next, hq, hbody, ?_, _, r', hr', rfl, rfl⟩
            have htake := take_quoted htail
            exact htake ▸ Cursor.reads_skip _ _
        · cases hr
      · cases hr
    · rintro ⟨h, q', cs, e, hq, hcs, hread, h', r, hr, rfl, rfl⟩
      obtain ⟨rfl, hrest⟩ := List.cons.inj hread.1
      obtain ⟨k', tail⟩ := d
      obtain rfl : rest = cs ++ q :: tail := by simpa using hrest
      have hmem : (cs ++ q :: tail).contains q = true := by simp
      obtain ⟨x, hx, hvalue, hnext⟩ :=
        quoted_eq_ok (h := h) hq hmem (takeWhile_ne_append hcs tail) hr
      have hskip := hread.skip_eq
      rw [List.length_cons, List.length_append] at hskip
      exact ⟨h, x, hx, hvalue, hnext.trans hskip⟩

theorem passes_quoted : (quoted inner o).Passes c ↔
    Position.size c < n ∧ ∀ x, c.peek = some x → isQuote x = false := by
  obtain ⟨k, rest⟩ := c
  cases rest with
  | nil => exact ⟨fun ⟨h, _⟩ => ⟨h, nofun⟩, fun ⟨h, _⟩ => ⟨h, rfl⟩⟩
  | cons q rest =>
    constructor
    · rintro ⟨h, hpass⟩
      rw [quoted] at hpass
      dsimp only at hpass
      split at hpass
      · split at hpass
        · split at hpass <;> cases hpass
        · cases hpass
      · rename_i hq
        refine ⟨h, fun x hx => ?_⟩
        obtain rfl : q = x := Option.some.inj hx
        exact Bool.not_eq_true _ ▸ hq
    · rintro ⟨h, hall⟩
      refine ⟨h, ?_⟩
      rw [quoted, if_neg]
      rw [hall q rfl]
      exact Bool.false_ne_true

theorem quote_of_takes_quoted (h : (quoted inner o).Takes c a d) :
    (c.peek.map isQuote).getD false = true := by
  obtain ⟨-, q, cs, e, hq, -, hread, -⟩ := takes_quoted.1 h
  rw [Cursor.peek, hread.1]
  exact hq

end

/-- A reference is told apart by its first character. -/
theorem gives_referenceWith {o : Options} {inner : Inner (Position.size c)} :
    Parsed.Gives (referenceWith o c inner) a d ↔ ∃ sigil e, c.Reads [sigil, '('] e ∧
      ((sigil = '$' ∧ (propertyFrom inner o c.offset).Gives e a d) ∨
        (sigil = '@' ∧ (itemFrom inner o c.offset).Gives e a d) ∨
        (sigil = '%' ∧ (metadataFrom o c.offset : Read (Position.size c) _).Gives e a d)) := by
  obtain ⟨k, rest⟩ := c
  cases rest with
  | nil =>
    constructor
    · intro h
      exact absurd h (Parsed.not_gives_error _ _ _)
    · rintro ⟨sigil, e, hread, -⟩
      cases hread.1
  | cons x rest =>
    let rest' : Cursor := ⟨k + x.utf8Size, rest⟩
    have hone : (Cursor.mk k (x :: rest)).Reads [x] rest' := ⟨rfl, by simp [rest']⟩
    let first : Parsed Char (Cursor.mk k (x :: rest)) :=
      ⟨x, rest', ⟨[x], hone⟩, Nat.lt_succ_self _⟩
    change Parsed.Gives (Except.ok first >>= fun r => r.andThen fun sigil => do
      expect '('
      if sigil = '$' then propertyFrom inner o k
      else if sigil = '@' then itemFrom inner o k
      else if sigil = '%' then metadataFrom o k
      else failAt .expectedReference k) a d ↔ _
    rw [Parsed.gives_andThen]
    simp only [Reader.gives_bind, gives_expect]
    constructor
    · rintro ⟨_, _, ⟨r, hr, rfl, rfl⟩, _, e, ⟨-, hparen⟩, hthen⟩
      obtain rfl := Except.ok.inj hr
      refine ⟨x, e, hone.trans hparen, ?_⟩
      split at hthen
      · exact Or.inl ⟨‹_›, hthen⟩
      · split at hthen
        · exact Or.inr (Or.inl ⟨‹_›, hthen⟩)
        · split at hthen
          · exact Or.inr (Or.inr ⟨‹_›, hthen⟩)
          · exact absurd hthen gives_failAt
    · rintro ⟨sigil, e, hread, hthen⟩
      obtain ⟨rfl, hrest⟩ := List.cons.inj hread.1
      have hparen : rest'.Reads ['('] e := by
        refine ⟨hrest, ?_⟩
        rw [hread.2]
        simp [rest', Nat.add_assoc]
      refine ⟨x, rest', ⟨_, rfl, rfl, rfl⟩, (), e, ⟨Nat.lt_succ_self _, hparen⟩, ?_⟩
      rcases hthen with ⟨rfl, hthen⟩ | ⟨rfl, hthen⟩ | ⟨rfl, hthen⟩ <;> exact hthen

theorem from_eq_ok {α : Type} {p : Read (Position.size c + 1) α} {x : α} :
    Read.from c p = .ok x ↔ ∃ d, p.Gives c x d := by
  unfold Read.from
  cases hp : p c (Nat.lt_succ_self _) with
  | error e =>
    constructor
    · exact nofun
    · rintro ⟨_, _, r, hr, -⟩
      cases hp.symm.trans hr
  | ok r =>
    constructor
    · intro h
      exact ⟨r.next, _, r, hp, Except.ok.inj h, rfl⟩
    · rintro ⟨_, _, q, hq, rfl, rfl⟩
      obtain rfl := Except.ok.inj (hp.symm.trans hq)
      rfl

end ProjectAnalysis.Expr
