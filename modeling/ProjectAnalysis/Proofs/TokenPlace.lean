import ProjectAnalysis.Proofs.ConditionForm
import ProjectAnalysis.Proofs.TextRun

/-! Where the tokens of a condition stand in its text: each one right where it says, with nothing
but white space between one and the next. -/
namespace ProjectAnalysis.Expr

/-- The one character that makes a token of the kind, where there is only one. -/
def TokenKind.sign? : TokenKind → Option Char
  | .leftParen => some '('
  | .rightParen => some ')'
  | .property => some '$'
  | .item => some '@'
  | .metadata => some '%'
  | _ => none

/-- The token stands between two operands or two arguments. -/
def TokenKind.isBetween : TokenKind → Bool
  | .or | .and | .comma => true
  | kind => kind.isComparison

/-- The characters that a token was read from. -/
def Token.written (t : Token) : List Char :=
  if t.quoted then '\'' :: (t.text.toList ++ ['\'']) else t.text.toList

/-- The current token was read from the characters right behind `c`. -/
structure TokenStream.At (s : TokenStream) (c : Cursor) : Prop where
  position : s.current.position = c.offset
  reads : c.Reads s.current.written s.after
  word : s.current.quoted = true → s.current.kind = .word
  sign : ∀ ch, s.current.kind.sign? = some ch → s.current.text.toList = [ch]
  between : s.current.kind.isBetween = true → s.current.written ≠ []

theorem closingQuote?_eq_some {inItem inLiteral : Bool} {depth : Int} {cs : List Char} {k : Nat}
    (h : closingQuote? inItem depth inLiteral cs = some k) :
    cs.take (k + 1) = cs.take k ++ ['\''] := by
  induction cs generalizing depth inLiteral k with
  | nil => cases h
  | cons c cs ih =>
    have hmore {d : Int} {l : Bool}
        (h : (closingQuote? inItem d l cs).map (· + 1) = some k) :
        (c :: cs).take (k + 1) = (c :: cs).take k ++ ['\''] := by
      obtain ⟨j, hj, rfl⟩ := Option.map_eq_some_iff.1 h
      rw [List.take_succ_cons, ih hj, List.take_succ_cons, List.cons_append]
    rw [closingQuote?] at h
    -- The depth decides which quote is found, and any quote will do here.
    generalize ite ((inItem && !inLiteral) = true) _ depth = d at h
    split at h
    · rename_i hc
      split at h
      · obtain rfl := Option.some.inj h
        rw [hc]
        rfl
      · exact hmore h
    · exact hmore h

theorem extent_quoted {c : Char} {rest : List Char} {x : Extent} (h : extent c rest = .ok x)
    (hquoted : x.quoted = true) : c = '\'' ∧ x.kind = .word ∧
      rest.take x.more = rest.take (x.more - 1) ++ ['\''] := by
  unfold extent at h
  split at h
  · rename_i hc
    split at h
    · cases h
      cases hquoted
    · split at h
      · rename_i k hk
        cases h
        exact ⟨hc, rfl, closingQuote?_eq_some hk⟩
      · cases h
  · split at h
    · cases h
      cases hquoted
    · split at h
      · cases h
        cases hquoted
      · split at h <;> cases h <;> cases hquoted

theorem sign?_wordKind (word : List Char) : (wordKind word).sign? = none := by
  unfold wordKind
  split
  · rfl
  · split <;> rfl

theorem extent_sign {c ch : Char} {rest : List Char} {x : Extent} (h : extent c rest = .ok x)
    (hsign : x.kind.sign? = some ch) : c = ch ∧ x.more = 0 ∧ x.quoted = false := by
  unfold extent at h
  split at h
  · split at h
    · cases h
      cases hsign
    · split at h <;> cases h
      cases hsign
  · split at h
    · cases h
      cases hsign
    · split at h
      · cases h
        rw [sign?_wordKind] at hsign
        cases hsign
      · split at h <;> cases h <;> cases hsign <;> exact ⟨rfl, rfl, rfl⟩

/-- The token that begins with the character `x` at `c`. -/
def Extent.token (e : Extent) (c : Cursor) (x : Char) (rest : List Char) : Token :=
  ⟨e.kind, String.ofList (if e.quoted then rest.take (e.more - 1) else x :: rest.take e.more),
    c.offset, e.quoted⟩

theorem nextLexeme_nil {c : Cursor} (h : (c.skipWhile isBlank).rest = []) :
    (nextLexeme c).value = none ∧ (nextLexeme c).next = c.skipWhile isBlank := by
  have hnone : lexemeAt (c.skipWhile isBlank) = none := by
    generalize c.skipWhile isBlank = d at h
    obtain ⟨k, cs⟩ := d
    obtain rfl : cs = [] := h
    rfl
  unfold nextLexeme
  dsimp only
  split
  · exact ⟨rfl, rfl⟩
  · rename_i hsome
    rw [hnone] at hsome
    cases hsome

theorem nextLexeme_cons {c : Cursor} {x : Char} {rest : List Char}
    (h : (c.skipWhile isBlank).rest = x :: rest) :
    (nextLexeme c).value = some (lexemeValue (c.skipWhile isBlank).offset x rest) ∧
      (nextLexeme c).next = (c.skipWhile isBlank).skip (lexemeMore x rest + 1) := by
  have hsome : (lexemeAt (c.skipWhile isBlank)).map (fun r => (r.value, r.next)) =
      some (lexemeValue (c.skipWhile isBlank).offset x rest,
        (c.skipWhile isBlank).skip (lexemeMore x rest + 1)) := by
    generalize c.skipWhile isBlank = d at h
    obtain ⟨k, cs⟩ := d
    obtain rfl : cs = x :: rest := h
    rfl
  unfold nextLexeme
  dsimp only
  split
  · rename_i hnone
    rw [hnone] at hsome
    cases hsome
  · rename_i r hr
    rw [hr] at hsome
    obtain ⟨hvalue, hnext⟩ := Prod.mk.inj (Option.some.inj hsome)
    exact ⟨congrArg some hvalue, hnext⟩

/-- Behind white space there is the end, or a token begins. -/
theorem step_eq_iff {s u : TokenStream} {d : Cursor} (hd : s.after.skipWhile isBlank = d) :
    s.step = (u, none) ↔ s.atEnd = false ∧ ((d.rest = [] ∧ u = ⟨.atEnd d.offset, d⟩) ∨
      ∃ x rest e, d.rest = x :: rest ∧ extent x rest = .ok e ∧
        u = ⟨e.token d x rest, d.skip (e.more + 1)⟩) := by
  subst hd
  unfold TokenStream.step
  cases s.atEnd with
  | true => simp
  | false =>
    rw [if_neg Bool.false_ne_true]
    dsimp only
    cases hrest : (s.after.skipWhile isBlank).rest with
    | nil =>
      obtain ⟨hvalue, hnext⟩ := nextLexeme_nil hrest
      rw [hvalue, hnext]
      simp [eq_comm]
    | cons x rest =>
      obtain ⟨hvalue, hnext⟩ := nextLexeme_cons hrest
      rw [hvalue, hnext]
      unfold lexemeValue lexemeMore
      cases hextent : extent x rest with
      | error cause =>
        constructor
        · exact nofun
        · rintro ⟨-, ⟨hnil, -⟩ | ⟨_, _, e, hcons, he, -⟩⟩
          · cases hnil
          · obtain ⟨rfl, rfl⟩ := List.cons.inj hcons
            cases hextent.symm.trans he
      | ok e =>
        constructor
        · intro h
          exact ⟨rfl, Or.inr ⟨x, rest, e, rfl, hextent, (congrArg Prod.fst h).symm⟩⟩
        · rintro ⟨-, ⟨hnil, -⟩ | ⟨_, _, e', hcons, he, rfl⟩⟩
          · cases hnil
          · obtain ⟨rfl, rfl⟩ := List.cons.inj hcons
            obtain rfl := Except.ok.inj (hextent.symm.trans he)
            rfl

/-- Nothing comes behind the end, or no token begins behind white space. -/
theorem step_eq_fault_iff {s u : TokenStream} {d : Cursor} {fault : Fault}
    (hd : s.after.skipWhile isBlank = d) : s.step = (u, some fault) ↔
      (s.atEnd = true ∧ u = s ∧ fault = .syntactic .pastEnd s.current.position) ∨
      (s.atEnd = false ∧ ∃ x rest cause, d.rest = x :: rest ∧ extent x rest = .error cause ∧
        u = ⟨s.current, d.skip 1⟩ ∧ fault = ⟨.lexical cause x, d.offset⟩) := by
  subst hd
  unfold TokenStream.step
  cases s.atEnd with
  | true => simp [eq_comm]
  | false =>
    rw [if_neg Bool.false_ne_true]
    dsimp only
    cases hrest : (s.after.skipWhile isBlank).rest with
    | nil =>
      rw [(nextLexeme_nil hrest).1]
      simp
    | cons x rest =>
      obtain ⟨hvalue, hnext⟩ := nextLexeme_cons hrest
      rw [hvalue, hnext]
      unfold lexemeValue lexemeMore
      cases hextent : extent x rest with
      | error cause =>
        constructor
        · intro h
          obtain ⟨rfl, hfault⟩ := Prod.mk.inj h
          obtain rfl := Option.some.inj hfault
          exact Or.inr ⟨rfl, x, rest, cause, rfl, hextent, rfl, rfl⟩
        · rintro (⟨hend, -⟩ | ⟨-, _, _, cause', hcons, he, rfl, rfl⟩)
          · cases hend
          · obtain ⟨rfl, rfl⟩ := List.cons.inj hcons
            obtain rfl := Except.error.inj (hextent.symm.trans he)
            rfl
      | ok e =>
        constructor
        · exact nofun
        · rintro (⟨hend, -⟩ | ⟨-, _, _, cause, hcons, he, -⟩)
          · cases hend
          · obtain ⟨rfl, rfl⟩ := List.cons.inj hcons
            cases hextent.symm.trans he

theorem at_extent {d : Cursor} {x : Char} {rest : List Char} {e : Extent}
    (hrest : d.rest = x :: rest) (hextent : extent x rest = .ok e) :
    TokenStream.At ⟨e.token d x rest, d.skip (e.more + 1)⟩ d := by
  refine ⟨rfl, ?_, fun hquoted => (extent_quoted hextent hquoted).2.1, fun ch hsign => ?_,
    fun _ => ?_⟩
  · have hskip := d.reads_skip (e.more + 1)
    rw [hrest, List.take_succ_cons] at hskip
    -- Of a quoted token the text leaves out the two quotes.
    unfold Token.written Extent.token
    dsimp only
    split
    · rename_i hquoted
      obtain ⟨rfl, -, htake⟩ := extent_quoted hextent hquoted
      rwa [htake, ← String.toList_ofList (l := rest.take _)] at hskip
    · rwa [String.toList_ofList]
  · obtain ⟨rfl, hmore, hquoted⟩ := extent_sign hextent hsign
    simp [Extent.token, hmore, hquoted]
  · unfold Token.written Extent.token
    dsimp only
    split
    · exact List.cons_ne_nil _ _
    · rw [String.toList_ofList]
      exact List.cons_ne_nil _ _

/-- White space, and then the next token. -/
theorem at_of_step {s u : TokenStream} (h : s.step = (u, none)) :
    ∃ c, Blanks s.after c ∧ u.At c := by
  refine ⟨_, ⟨_, s.after.reads_skipWhile isBlank, s.after.all_run isBlank⟩, ?_⟩
  rcases ((step_eq_iff rfl).1 h).2 with ⟨hrest, rfl⟩ | ⟨x, rest, e, hrest, hextent, rfl⟩
  · exact ⟨rfl, Cursor.reads_nil _, nofun, nofun, nofun⟩
  · exact at_extent hrest hextent

variable {s u v : TokenStream} {c d slice : Cursor}

theorem at_of_advance {x : Unit} (h : Parsed.Gives (advance s) x u) :
    ∃ c, Blanks s.after c ∧ u.At c :=
  at_of_step (gives_advance.1 h)

theorem Blanks.eq_of_rest {x : Char} {rest : List Char} (h : Blanks c d) (hc : c.rest = x :: rest)
    (hx : isBlank x = false) : c = d := by
  obtain ⟨cs, hread, hcs⟩ := h
  cases cs with
  | nil => exact hread.skip_eq
  | cons y cs =>
    obtain ⟨rfl, -⟩ := List.cons.inj (hc.symm.trans hread.1)
    rw [hcs x List.mem_cons_self] at hx
    cases hx

theorem closingParen?_eq_some {depth : Int} {cs : List Char} {k : Nat}
    (h : TokenStream.closingParen? depth cs = some k) :
    ∃ body rest, cs = body ++ ')' :: rest ∧ body.length = k := by
  induction cs generalizing depth k with
  | nil => cases h
  | cons c cs ih =>
    have hmore {d : Int} (h : (TokenStream.closingParen? d cs).map (· + 1) = some k) :
        ∃ body rest, c :: cs = body ++ ')' :: rest ∧ body.length = k := by
      obtain ⟨j, hj, rfl⟩ := Option.map_eq_some_iff.1 h
      obtain ⟨body, rest, rfl, rfl⟩ := ih hj
      exact ⟨c :: body, rest, rfl, rfl⟩
    rw [TokenStream.closingParen?] at h
    split at h
    · rename_i hc
      split at h
      · obtain rfl := Option.some.inj h
        exact ⟨[], cs, by rw [hc, List.nil_append], rfl⟩
      · exact hmore h
    · exact hmore h

theorem TokenStream.At.reads_bare (hs : s.At c) (hbare : s.current.quoted = false) :
    c.Reads s.current.text.toList s.after := by
  have hreads := hs.reads
  rwa [Token.written, hbare, if_neg Bool.false_ne_true] at hreads

theorem TokenStream.At.bare (hs : s.At c) {kind : TokenKind} (hkind : s.current.kind = kind)
    (hword : kind ≠ .word) : s.current.quoted = false := by
  cases hquoted : s.current.quoted with
  | false => rfl
  | true => exact absurd (hkind.symm.trans (hs.word hquoted)) hword

theorem TokenStream.At.reads_sign (hs : s.At c) {ch : Char}
    (hsign : s.current.kind.sign? = some ch) : c.Reads [ch] s.after := by
  have hword : s.current.kind ≠ .word := by
    intro hword
    rw [hword] at hsign
    cases hsign
  have hreads := hs.reads_bare (hs.bare rfl hword)
  rwa [hs.sign ch hsign] at hreads

/-- A passage over parentheses stops right before the one that closes. -/
theorem after_scan {depth : Nat} (h : (s.scan depth).atEnd = false) : ∃ body rest,
    s.after.rest = body ++ ')' :: rest ∧
      TokenStream.closingParen? depth s.after.rest = some body.length ∧
      (s.scan depth).after = s.after.skip body.length := by
  unfold TokenStream.scan at h ⊢
  cases hclosing : TokenStream.closingParen? depth s.after.rest with
  | none =>
    rw [hclosing] at h
    cases h
  | some k =>
    obtain ⟨body, rest, hrest, rfl⟩ := closingParen?_eq_some hclosing
    exact ⟨body, rest, hrest, rfl, rfl⟩

/-- A slice is the text from its sigil to the parenthesis that closes the one behind it. -/
theorem Sliced.reads (hs : s.At c) (h : Sliced s slice v) : ∃ sigil ws body e,
    s.current.kind.sign? = some sigil ∧ (∀ x ∈ ws, isBlank x = true) ∧
      c.Reads (sigil :: (ws ++ '(' :: body)) e ∧ v.At e ∧
      TokenStream.closingParen? 1 (body ++ e.rest) = some body.length ∧
      slice = ⟨c.offset, sigil :: (ws ++ '(' :: (body ++ [')']))⟩ := by
  obtain ⟨hkind, t, ht, hopen, hend, rfl, hv⟩ := h
  obtain ⟨sigil, hsigil⟩ : ∃ sigil, s.current.kind.sign? = some sigil := by
    revert hkind
    cases s.current.kind <;> intro hkind <;> first | exact ⟨_, rfl⟩ | cases hkind
  obtain ⟨c', ⟨ws, hws, hblank⟩, hc'⟩ := at_of_advance ht
  obtain ⟨body, rest, hbody, hclosing, hafter⟩ := after_scan hend
  obtain ⟨e, hblanks, he⟩ := at_of_advance hv
  have hparen : c'.Reads ['('] t.after := hc'.reads_sign (by rw [hopen]; rfl)
  have hskip : t.after.Reads body (t.scan 1).after := by
    have hskip := t.after.reads_skip body.length
    rwa [hbody, List.take_left, ← hafter] at hskip
  have hrest : (t.scan 1).after.rest = ')' :: rest :=
    List.append_cancel_left (hskip.1.symm.trans hbody)
  -- The closing parenthesis comes right behind the passage.
  obtain rfl := hblanks.eq_of_rest hrest rfl
  have hbehind : s.after.Reads (ws ++ '(' :: body) (t.scan 1).after := by
    have hparens := (hws.trans hparen).trans hskip
    rwa [List.append_assoc, List.singleton_append] at hparens
  refine ⟨sigil, ws, body, _, hsigil, hblank, ?_, he, ?_, ?_⟩
  · exact (hs.reads_sign hsigil).trans hbehind
  · rwa [← hskip.1]
  · have htake : s.after.rest.length - (t.scan 1).after.rest.length + 1 =
        ((ws ++ '(' :: body) ++ [')']).length := by
      rw [List.length_append, List.length_singleton, hbehind.1, List.length_append,
        Nat.add_sub_cancel]
    have hslice : s.after.rest = ((ws ++ '(' :: body) ++ [')']) ++ rest := by
      rw [hbehind.1, hrest]
      simp
    unfold TokenStream.slice
    rw [htake, hslice, List.take_left, hs.position, hs.sign sigil hsigil, List.append_assoc]
    rfl

end ProjectAnalysis.Expr
