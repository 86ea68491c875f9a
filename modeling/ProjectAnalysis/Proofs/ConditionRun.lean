import ProjectAnalysis.Proofs.TokenRun

/-! What the reader of each construct of a condition gives, in terms of the readers of the
constructs inside it: one law for each rule of the grammar. -/
namespace ProjectAnalysis.Expr

variable {n : Nat} {α : Type} {s u : TokenStream} {a : Node}

/-- One more operand behind a token of the kind. -/
def chain (inner : InnerLevel n) (kind : TokenKind) (l : Level) (f : α → Node → α) (a : α) :
    Branch TokenStream Fault n α :=
  (onToken kind).andThen fun _ => do
    let b ← (inner l).read
    return f a b

theorem takes_chain {inner : InnerLevel n} {kind : TokenKind} {l : Level} {f : α → Node → α}
    {a c : α} : (chain inner kind l f a).Takes s c u ↔ s.current.kind = kind ∧
      ∃ v b, Position.size s < n ∧ Parsed.Gives (advance s) () v ∧ (inner l).Gives v b u ∧
        f a b = c := by
  rw [chain, Branch.takes_andThen]
  simp only [takes_onToken, Reader.gives_bind, Step.gives_read, Reader.gives_pure]
  constructor
  · rintro ⟨t, v, ⟨h, hkind, -, hv⟩, b, w, hb, -, hc, rfl⟩
    exact ⟨hkind, v, b, h, hv, hb, hc⟩
  · rintro ⟨hkind, v, b, h, hv, hb, hc⟩
    have hsize : Position.size u < n := Nat.lt_trans hb.size_lt hb.bound
    exact ⟨s.current, v, ⟨h, hkind, rfl, hv⟩, b, u, hb, hsize, hc, rfl⟩

theorem passes_chain {inner : InnerLevel n} {kind : TokenKind} {l : Level} {f : α → Node → α}
    {a : α} : (chain inner kind l f a).Passes s ↔
      Position.size s < n ∧ s.current.kind ≠ kind := by
  rw [chain, Branch.passes_andThen, passes_onToken]

section
variable {inner : InnerLevel n}

/-- The factors between the parentheses of a call: there are none, or a chain of them. -/
def GivesArguments (inner : InnerLevel n) (s : TokenStream) (nodes : List Node) (u : TokenStream) :
    Prop :=
  (s.current.kind = .rightParen ∧ nodes = [] ∧ s = u) ∨
    (s.current.kind ≠ .rightParen ∧ ∃ b v, (inner .factor).Gives s b v ∧
      (Reader.fold (chain inner .comma .factor fun nodes b => nodes ++ [b]) [b]).Gives v nodes u)

theorem takes_factorList : (factorList inner).Takes s a u ↔ s.current.kind = .leftParen ∧
    ∃ v nodes w, Position.size s < n ∧ Parsed.Gives (advance s) () v ∧
      GivesArguments inner v nodes w ∧ w.current.kind = .rightParen ∧
      Parsed.Gives (advance w) () u ∧
      a = .mk ⟨s.current.position, w.current.position + 1⟩ (.argumentList nodes) := by
  -- After the factors there is the closing parenthesis, however many factors there were.
  have hclosed {w : TokenStream} {nodes : List Node} :
      (do
        let closing ← currentToken
        expectToken .rightParen
        return .mk ⟨s.current.position, closing.position + 1⟩ (.argumentList nodes) :
          TokenRead n Node).Gives w a u ↔
        Position.size w < n ∧ w.current.kind = .rightParen ∧ Parsed.Gives (advance w) () u ∧
          a = .mk ⟨s.current.position, w.current.position + 1⟩ (.argumentList nodes) := by
    simp only [Reader.gives_bind, gives_currentToken, gives_expectToken, Reader.gives_pure]
    constructor
    · rintro ⟨_, _, ⟨h, rfl, rfl⟩, _, _, ⟨-, hkind, hu⟩, -, rfl, rfl⟩
      exact ⟨h, hkind, hu, rfl⟩
    · rintro ⟨h, hkind, hu, rfl⟩
      exact ⟨_, w, ⟨h, rfl, rfl⟩, (), u, ⟨h, hkind, hu⟩, Nat.lt_trans hu.size_lt h, rfl, rfl⟩
  rw [factorList, Branch.takes_andThen]
  constructor
  · rintro ⟨t, v, ht, hthen⟩
    obtain ⟨h, hkind, rfl, hv⟩ := takes_onToken.1 ht
    obtain ⟨_, _, hcurrent, hthen⟩ := Reader.gives_bind.1 hthen
    obtain ⟨hv', rfl, rfl⟩ := gives_currentToken.1 hcurrent
    split at hthen
    · rename_i hright
      obtain ⟨nodes, w, hnodes, hthen⟩ := Reader.gives_bind.1 hthen
      obtain ⟨-, rfl, rfl⟩ := Reader.gives_pure.1 hnodes
      obtain ⟨-, hkind', hu, rfl⟩ := hclosed.1 hthen
      exact ⟨hkind, v, [], v, h, hv, Or.inl ⟨hright, rfl, rfl⟩, hkind', hu, rfl⟩
    · rename_i hright
      obtain ⟨b, x, hb, hthen⟩ := Reader.gives_bind.1 hthen
      obtain ⟨nodes, w, hnodes, hthen⟩ := Reader.gives_bind.1 hthen
      obtain ⟨-, hkind', hu, rfl⟩ := hclosed.1 hthen
      have harguments : GivesArguments inner v nodes w :=
        Or.inr ⟨hright, b, x, Step.gives_read.1 hb, hnodes⟩
      exact ⟨hkind, v, nodes, w, h, hv, harguments, hkind', hu, rfl⟩
  · rintro ⟨hkind, v, nodes, w, h, hv, harguments, hkind', hu, rfl⟩
    have hv' : Position.size v < n := Nat.lt_trans hv.size_lt h
    refine ⟨s.current, v, takes_onToken.2 ⟨h, hkind, rfl, hv⟩, Reader.gives_bind.2 ?_⟩
    refine ⟨v.current, v, gives_currentToken.2 ⟨hv', rfl, rfl⟩, ?_⟩
    rcases harguments with ⟨hright, rfl, rfl⟩ | ⟨hright, b, x, hb, hnodes⟩
    · rw [if_pos hright]
      have hclose := hclosed.2 ⟨hv', hkind', hu, rfl⟩
      exact Reader.gives_bind.2 ⟨[], v, Reader.gives_pure.2 ⟨hv', rfl, rfl⟩, hclose⟩
    · rw [if_neg hright]
      have hle := hnodes.size_le
      have hlt := hb.size_lt
      have hw : Position.size w < n := by omega
      refine Reader.gives_bind.2 ⟨b, x, Step.gives_read.2 hb, Reader.gives_bind.2 ?_⟩
      exact ⟨nodes, w, hnodes, hclosed.2 ⟨hw, hkind', hu, rfl⟩⟩

theorem passes_factorList : (factorList inner).Passes s ↔
    Position.size s < n ∧ s.current.kind ≠ .leftParen := by
  rw [factorList, Branch.passes_andThen, passes_onToken]

end

/-- A bare word is followed by its arguments, or by none. -/
theorem gives_afterWord {inner : InnerLevel n} {word : Token} :
    (afterWord inner word).Gives s a u ↔
      (s.current.kind ≠ .leftParen ∧ Position.size s < n ∧
        a = .mk word.span (.text word.text false) ∧ s = u) ∨
      ∃ arguments, (factorList inner).Takes s arguments u ∧
        a = .mk ⟨word.position, arguments.span.stop⟩ (.conditionFunction
          (.mk word.span (.functionName word.text)) arguments) := by
  rw [afterWord, Reader.gives_bind]
  constructor
  · rintro ⟨found, v, hfound, hthen⟩
    rcases Branch.gives_optional.1 hfound with ⟨hpass, rfl, rfl⟩ | ⟨arguments, htakes, rfl⟩
    · obtain ⟨h, hkind⟩ := passes_factorList.1 hpass
      obtain ⟨-, rfl, rfl⟩ := Reader.gives_pure.1 hthen
      exact Or.inl ⟨hkind, h, rfl, rfl⟩
    · obtain ⟨-, rfl, rfl⟩ := Reader.gives_pure.1 hthen
      exact Or.inr ⟨arguments, htakes, rfl⟩
  · rintro (⟨hkind, h, rfl, rfl⟩ | ⟨arguments, htakes, rfl⟩)
    · refine ⟨none, s, Branch.gives_optional.2 (Or.inl ⟨?_, rfl, rfl⟩), ?_⟩
      · exact passes_factorList.2 ⟨h, hkind⟩
      · exact Reader.gives_pure.2 ⟨h, rfl, rfl⟩
    · have hu : Position.size u < n := Nat.lt_trans htakes.size_lt htakes.bound
      refine ⟨some arguments, u, Branch.gives_optional.2 (Or.inr ⟨arguments, htakes, rfl⟩), ?_⟩
      exact Reader.gives_pure.2 ⟨hu, rfl, rfl⟩

section
variable {o : Options} {inner : InnerLevel (Position.size s)}

/-- What a quoted string stands for: its content, read as text with references. -/
def Stands (o : Options) (t : Token) (a : Node) : Prop :=
  Read.from ⟨t.position + 1, t.text.toList⟩ (concat anywhere o true false) = .ok a

/-- Tokens of references: the sigils outside of quotes. -/
def TokenKind.isReference : TokenKind → Bool
  | .property | .item | .metadata => true
  | _ => false

theorem gives_factor_leftParen (hkind : s.current.kind = .leftParen) :
    Parsed.Gives (factor o s inner) a u ↔ ∃ v w, Parsed.Gives (advance s) () v ∧
      (inner .disjunction).Gives v a w ∧ w.current.kind = .rightParen ∧
      Parsed.Gives (advance w) () u := by
  unfold factor
  dsimp only
  rw [hkind]
  dsimp only
  rw [Parsed.gives_andThen]
  simp only [Reader.gives_bind, Step.gives_read, gives_expectToken, Reader.gives_pure]
  constructor
  · rintro ⟨_, v, hv, b, w, hb, _, x, ⟨-, hright, hx⟩, -, rfl, rfl⟩
    exact ⟨v, w, hv, hb, hright, hx⟩
  · rintro ⟨v, w, hv, hb, hright, hu⟩
    have hw : Position.size w < Position.size s := Nat.lt_trans hb.size_lt hb.bound
    have hu' : Position.size u < Position.size s := Nat.lt_trans hu.size_lt hw
    exact ⟨(), v, hv, a, w, hb, (), u, ⟨hw, hright, hu⟩, hu', rfl, rfl⟩

theorem gives_factor_number (hkind : s.current.kind = .number) :
    Parsed.Gives (factor o s inner) a u ↔ Parsed.Gives (advance s) () u ∧
      a = .mk s.current.span (.number s.current.text) := by
  unfold factor
  dsimp only
  rw [hkind]
  dsimp only
  rw [Parsed.gives_andThen]
  simp only [Reader.gives_pure]
  constructor
  · rintro ⟨_, v, hv, -, rfl, rfl⟩
    exact ⟨hv, rfl⟩
  · rintro ⟨hu, rfl⟩
    exact ⟨(), u, hu, hu.size_lt, rfl, rfl⟩

theorem gives_factor_quoted (hkind : s.current.kind = .word) (hquoted : s.current.quoted = true) :
    Parsed.Gives (factor o s inner) a u ↔ Parsed.Gives (advance s) () u ∧
      Stands o s.current a := by
  unfold factor
  dsimp only
  rw [hkind]
  dsimp only
  rw [Parsed.gives_andThen]
  simp only [if_pos hquoted, gives_ofExcept]
  constructor
  · rintro ⟨_, v, hv, -, hcontent, rfl⟩
    exact ⟨hv, hcontent⟩
  · rintro ⟨hu, hcontent⟩
    exact ⟨(), u, hu, hu.size_lt, hcontent, rfl⟩

theorem gives_factor_word (hkind : s.current.kind = .word) (hbare : s.current.quoted = false) :
    Parsed.Gives (factor o s inner) a u ↔ ∃ v, Parsed.Gives (advance s) () v ∧
      (afterWord inner s.current).Gives v a u := by
  unfold factor
  dsimp only
  rw [hkind]
  dsimp only
  rw [Parsed.gives_andThen]
  simp only [hbare, Bool.false_eq_true, ↓reduceIte]
  constructor
  · rintro ⟨_, v, hv, hafter⟩
    exact ⟨v, hv, hafter⟩
  · rintro ⟨v, hv, hafter⟩
    exact ⟨(), v, hv, hafter⟩

/-- A passage over parentheses ends before the one that closes. -/
theorem gives_scanParen (hs : s.atEnd = false) {x : Unit} :
    (scanParen : TokenRead n Unit).Gives s x u ↔ Position.size s < n ∧ s.scan 1 = u := by
  unfold scanParen
  constructor
  · rintro ⟨h, r, hr, -, rfl⟩
    dsimp only at hr
    rw [dif_pos hs] at hr
    obtain rfl := Except.ok.inj hr
    exact ⟨h, rfl⟩
  · rintro ⟨h, rfl⟩
    exact ⟨h, _, dif_pos hs, rfl, rfl⟩

/-- The text that a reference is read from: its sigil, which is the current token, and all behind it
up to one past the parenthesis before which `closing` stands. -/
def TokenStream.slice (s closing : TokenStream) : Cursor :=
  ⟨s.current.position, s.current.text.toList ++
    s.after.rest.take (s.after.rest.length - closing.after.rest.length + 1)⟩

theorem reference_map_eq_ok {c : Cursor} :
    (reference o c).map (·.value) = .ok a ↔ ∃ d, Parsed.Gives (reference o c) a d := by
  cases reference o c with
  | error e =>
    constructor
    · exact nofun
    · rintro ⟨d, h⟩
      exact absurd h (Parsed.not_gives_error _ _ _)
  | ok r =>
    constructor
    · intro h
      exact ⟨r.next, r, rfl, Except.ok.inj h, rfl⟩
    · rintro ⟨d, q, hq, rfl, rfl⟩
      obtain rfl := Except.ok.inj hq
      rfl

theorem gives_afterSigil {m : Nat} {t : TokenStream} :
    (afterSigil o s : TokenRead m Node).Gives t a u ↔ Position.size t < m ∧
      t.current.kind = .leftParen ∧ (t.scan 1).atEnd = false ∧
      ∃ d v, Parsed.Gives (reference o (s.slice (t.scan 1))) a d ∧
        Parsed.Gives (advance (t.scan 1)) () v ∧ v.current.kind = .rightParen ∧
        Parsed.Gives (advance v) () u := by
  have hstart (hkind : t.current.kind = .leftParen) : t.atEnd = false := by
    rw [TokenStream.atEnd, hkind]
    rfl
  constructor
  · intro h
    obtain ⟨_, _, hcurrent, hthen⟩ := Reader.gives_bind.1 h
    obtain ⟨ht, rfl, rfl⟩ := gives_currentToken.1 hcurrent
    split at hthen
    · obtain ⟨_, _, hfail, -⟩ := Reader.gives_bind.1 hthen
      exact absurd hfail (Reader.not_gives_fail _ _)
    · rename_i hkind
      replace hkind := Decidable.not_not.1 hkind
      obtain ⟨_, _, hscan, hthen⟩ := Reader.gives_bind.1 hthen
      obtain ⟨-, rfl⟩ := (gives_scanParen (hstart hkind)).1 hscan
      obtain ⟨_, _, hplace, hthen⟩ := Reader.gives_bind.1 hthen
      obtain ⟨-, rfl, rfl⟩ := Reader.gives_place.1 hplace
      split at hthen
      · obtain ⟨_, _, hfail, -⟩ := Reader.gives_bind.1 hthen
        exact absurd hfail (Reader.not_gives_fail _ _)
      · rename_i hend
        obtain ⟨node, _, hread, hthen⟩ := Reader.gives_bind.1 hthen
        obtain ⟨-, hreference, rfl⟩ := gives_ofExcept.1 hread
        obtain ⟨d, hd⟩ := reference_map_eq_ok.1 hreference
        obtain ⟨_, v, hnext, hthen⟩ := Reader.gives_bind.1 hthen
        obtain ⟨_, w, hexpect, hthen⟩ := Reader.gives_bind.1 hthen
        obtain ⟨-, rfl, rfl⟩ := Reader.gives_pure.1 hthen
        obtain ⟨-, hright, hw⟩ := gives_expectToken.1 hexpect
        exact ⟨ht, hkind, Bool.not_eq_true _ ▸ hend, d, v, hd, (gives_nextToken.1 hnext).2, hright,
          hw⟩
  · rintro ⟨ht, hkind, hend, d, v, hd, hv, hright, hu⟩
    have hscan : Position.size (t.scan 1) < m :=
      Nat.lt_of_le_of_lt (TokenStream.scan_size_le 1 t (hstart hkind)) ht
    have hv' : Position.size v < m := Nat.lt_trans hv.size_lt hscan
    have hu' : Position.size u < m := Nat.lt_trans hu.size_lt hv'
    refine Reader.gives_bind.2 ⟨_, t, gives_currentToken.2 ⟨ht, rfl, rfl⟩, ?_⟩
    rw [if_neg (not_not_intro hkind)]
    refine Reader.gives_bind.2 ⟨(), _, (gives_scanParen (hstart hkind)).2 ⟨ht, rfl⟩, ?_⟩
    refine Reader.gives_bind.2 ⟨_, _, Reader.gives_place.2 ⟨hscan, rfl, rfl⟩, ?_⟩
    rw [hend, if_neg Bool.false_ne_true]
    have hread : (ofExcept ((reference o (s.slice (t.scan 1))).map (·.value)) :
        TokenRead m Node).Gives (t.scan 1) a (t.scan 1) :=
      gives_ofExcept.2 ⟨hscan, reference_map_eq_ok.2 ⟨d, hd⟩, rfl⟩
    refine Reader.gives_bind.2 ⟨a, _, hread, ?_⟩
    refine Reader.gives_bind.2 ⟨(), v, gives_nextToken.2 ⟨hscan, hv⟩, ?_⟩
    refine Reader.gives_bind.2 ⟨(), u, gives_expectToken.2 ⟨hv', hright, hu⟩, ?_⟩
    exact Reader.gives_pure.2 ⟨hu', rfl, rfl⟩

/-- At `s` there is a sigil with a parenthesis behind it; at `v` there is what closes it, and the
text of the slice is all from the one to the other. -/
def Sliced (s : TokenStream) (slice : Cursor) (v : TokenStream) : Prop :=
  s.current.kind.isReference = true ∧ ∃ t, Parsed.Gives (advance s) () t ∧
    t.current.kind = .leftParen ∧ (t.scan 1).atEnd = false ∧ s.slice (t.scan 1) = slice ∧
    Parsed.Gives (advance (t.scan 1)) () v

theorem factor_reference (hkind : s.current.kind.isReference = true) :
    factor o s inner = advance s >>= fun r => r.andThen fun _ => afterSigil o s := by
  unfold factor
  dsimp only
  revert hkind
  cases s.current.kind <;> intro hkind <;> first | rfl | cases hkind

theorem gives_factor_reference (hkind : s.current.kind.isReference = true) :
    Parsed.Gives (factor o s inner) a u ↔ ∃ slice d v, Sliced s slice v ∧
      Parsed.Gives (reference o slice) a d ∧ v.current.kind = .rightParen ∧
      Parsed.Gives (advance v) () u := by
  rw [factor_reference hkind, Parsed.gives_andThen]
  simp only [gives_afterSigil]
  constructor
  · rintro ⟨_, t, ht, -, hopen, hend, d, v, hd, hv, hright, hu⟩
    exact ⟨_, d, v, ⟨hkind, t, ht, hopen, hend, rfl, hv⟩, hd, hright, hu⟩
  · rintro ⟨_, d, v, ⟨-, t, ht, hopen, hend, rfl, hv⟩, hd, hright, hu⟩
    exact ⟨(), t, ht, ht.size_lt, hopen, hend, d, v, hd, hv, hright, hu⟩

/-- Nothing else begins a factor, references apart. -/
theorem kind_of_gives_factor (hplain : s.current.kind.isReference = false)
    (h : Parsed.Gives (factor o s inner) a u) :
    s.current.kind = .leftParen ∨ s.current.kind = .number ∨ s.current.kind = .word := by
  unfold factor at h
  dsimp only at h
  split at h
  · exact Or.inl ‹_›
  · exact Or.inr (Or.inl ‹_›)
  · exact Or.inr (Or.inr ‹_›)
  · rename_i hkind
    simp [hkind, TokenKind.isReference] at hplain
  · rename_i hkind
    simp [hkind, TokenKind.isReference] at hplain
  · rename_i hkind
    simp [hkind, TokenKind.isReference] at hplain
  · exact absurd h (Parsed.not_gives_error _ _ _)

theorem gives_relation : Parsed.Gives (relation o s inner) a u ↔
    ∃ b v, Parsed.Gives (factor o s inner) b v ∧
      ((comparison? v.current.kind = none ∧ a = b ∧ v = u) ∨
        ∃ op w c, comparison? v.current.kind = some op ∧ Parsed.Gives (advance v) () w ∧
          (inner .factor).Gives w c u ∧ a = binary op b c) := by
  unfold relation
  rw [Parsed.gives_andThen]
  constructor
  · rintro ⟨b, v, hb, hthen⟩
    obtain ⟨_, _, hcurrent, hthen⟩ := Reader.gives_bind.1 hthen
    obtain ⟨-, rfl, rfl⟩ := gives_currentToken.1 hcurrent
    refine ⟨b, v, hb, ?_⟩
    split at hthen
    · rename_i hnone
      obtain ⟨-, rfl, rfl⟩ := Reader.gives_pure.1 hthen
      exact Or.inl ⟨hnone, rfl, rfl⟩
    · rename_i op hsome
      obtain ⟨_, w, hw, hthen⟩ := Reader.gives_bind.1 hthen
      obtain ⟨c, x, hc, hthen⟩ := Reader.gives_bind.1 hthen
      obtain ⟨-, rfl, rfl⟩ := Reader.gives_pure.1 hthen
      exact Or.inr ⟨op, w, c, hsome, (gives_nextToken.1 hw).2, Step.gives_read.1 hc, rfl⟩
  · rintro ⟨b, v, hb, hthen⟩
    refine ⟨b, v, hb, Reader.gives_bind.2 ⟨v.current, v, ?_, ?_⟩⟩
    · exact gives_currentToken.2 ⟨hb.size_lt, rfl, rfl⟩
    rcases hthen with ⟨hnone, rfl, rfl⟩ | ⟨op, w, c, hsome, hw, hc, rfl⟩
    · rw [hnone]
      exact Reader.gives_pure.2 ⟨hb.size_lt, rfl, rfl⟩
    · have hu : Position.size u < Position.size s := Nat.lt_trans hc.size_lt hc.bound
      rw [hsome]
      refine Reader.gives_bind.2 ⟨(), w, gives_nextToken.2 ⟨hb.size_lt, hw⟩, ?_⟩
      refine Reader.gives_bind.2 ⟨c, u, Step.gives_read.2 hc, ?_⟩
      exact Reader.gives_pure.2 ⟨hu, rfl, rfl⟩

theorem gives_negation_not (hkind : s.current.kind = .not) :
    Parsed.Gives (negation o s inner) a u ↔ ∃ v b, Parsed.Gives (advance s) () v ∧
      (inner .negation).Gives v b u ∧ a = .mk ⟨s.current.position, b.span.stop⟩ (.not b) := by
  unfold negation
  rw [if_pos hkind, Parsed.gives_andThen]
  simp only [Reader.gives_bind, Step.gives_read, Reader.gives_pure]
  constructor
  · rintro ⟨_, v, hv, b, w, hb, -, rfl, rfl⟩
    exact ⟨v, b, hv, hb, rfl⟩
  · rintro ⟨v, b, hv, hb, rfl⟩
    have hu : Position.size u < Position.size s := Nat.lt_trans hb.size_lt hb.bound
    exact ⟨(), v, hv, b, u, hb, hu, rfl, rfl⟩

theorem negation_of_kind_ne (hkind : s.current.kind ≠ .not) :
    negation o s inner = relation o s inner := if_neg hkind

/-- Chains of negations, and of those chains. -/
theorem gives_conjunction : Parsed.Gives (conjunction o s inner) a u ↔
    ∃ b v, Parsed.Gives (negation o s inner) b v ∧
      (Reader.fold (chain inner .and .negation (binary .and)) b).Gives v a u :=
  Parsed.gives_andThen

theorem gives_disjunction : Parsed.Gives (disjunction o s inner) a u ↔
    ∃ b v, Parsed.Gives (conjunction o s inner) b v ∧
      (Reader.fold (chain inner .or .conjunction (binary .or)) b).Gives v a u :=
  Parsed.gives_andThen

end

end ProjectAnalysis.Expr
