import ProjectAnalysis.Proofs.ConditionSound

/-! The readers of conditions read all that the grammar derives: the tokens of a construct are read
as that construct, with its tree, if the token after them does not go on with it. -/
namespace ProjectAnalysis.Expr

/-- The constructs inside another one. -/
def inside (o : Options) (n : Nat) : InnerLevel n :=
  fun l s _ => level o l s

variable {o : Options} {n : Nat} {s u : TokenStream} {ts rest : List Token} {a : Node}

theorem level_eq (o : Options) (l : Level) (s : TokenStream) :
    level o l s = levelWith o s (inside o (Position.size s)) l := by
  rw [level]
  rfl

theorem gives_inside {l : Level} (h : Position.size s < n) (ha : Parsed.Gives (level o l s) a u) :
    (inside o n l).Gives s a u :=
  ⟨h, ha⟩

/-- A construct is read up to the given tokens. -/
def ReadTo (o : Options) (l : Level) (s : TokenStream) (a : Node) (rest : List Token) : Prop :=
  ∃ u, u.Holds rest ∧ Parsed.Gives (level o l s) a u

/-- A chain is read up to the given tokens, as far as it has come, and may go on from there. -/
def ChainTo {α : Type} (step : α → Branch TokenStream Fault n α) (goal : α → TokenStream → Prop)
    (s : TokenStream) (a : α) (rest : List Token) : Prop :=
  ∃ u, u.Holds rest ∧ Position.size u < Position.size s ∧ Position.size u < n ∧
    ∀ b v, (Reader.fold step a).Gives u b v → goal b v

section
variable {α : Type} {goal : α → TokenStream → Prop} {kind : TokenKind} {l : Level}
  {f : α → Node → α} {a : α}

/-- A chain ends before a token that does not go on with it. -/
theorem ChainTo.stop (h : ChainTo (chain (inside o n) kind l f) goal s a rest)
    (hkind : headKind rest ≠ kind) : ∃ u, u.Holds rest ∧ goal a u := by
  obtain ⟨u, hu, -, hn, hgoal⟩ := h
  refine ⟨u, hu, hgoal a u (Reader.gives_fold.2 (Or.inl ⟨?_, rfl, rfl⟩))⟩
  refine passes_chain.2 ⟨hn, ?_⟩
  rwa [hu.kind]

/-- One more operand of a chain. -/
theorem ChainTo.operand {t : Token} {b : Node}
    (h : ChainTo (chain (inside o n) kind l f) goal s a (t :: (ts ++ rest))) (ht : t.kind = kind)
    (hright : ∀ v : TokenStream, v.Holds (ts ++ rest) → ReadTo o l v b rest) :
    ChainTo (chain (inside o n) kind l f) goal s (f a b) rest := by
  obtain ⟨u, hu, hs, hn, hgoal⟩ := h
  obtain ⟨rfl, v, hv, hmore⟩ := exists_advance hu
  obtain ⟨w, hw, hb⟩ := hright v hmore
  have hvu := hv.size_lt
  have hwv := hb.size_lt
  have htakes : (chain (inside o n) kind l f a).Takes u (f a b) w :=
    takes_chain.2 ⟨ht, v, b, hn, hv, gives_inside (by omega) hb, rfl⟩
  -- What the fold gives from behind the operand, it gives from before it too.
  refine ⟨w, hw, by omega, by omega, fun c x hfold => hgoal c x ?_⟩
  exact Reader.gives_fold.2 (Or.inr ⟨f a b, w, htakes, hfold⟩)

end

/-- The token after a construct does not go on with its last operand. -/
def Ends (rest : List Token) : Prop :=
  headKind rest ≠ .leftParen ∧ comparison? (headKind rest) = none

theorem ends_of_kind {kind : TokenKind} {t : Token} (ht : t.kind = kind)
    (hparen : kind ≠ .leftParen) (hcomparison : comparison? kind = none) (ts : List Token) :
    Ends (t :: ts) := by
  refine ⟨?_, ?_⟩ <;> rw [headKind, ht]
  · exact hparen
  · exact hcomparison

/-- That the tokens of a construct are read as that construct. A chain is read as far as it has
come, so that one more operand continues it. -/
def Complete (o : Options) : Rule → List Token → List Node → Prop
  | .disjunction, ts, nodes => ∀ s rest a, nodes = [a] → s.Holds (ts ++ rest) → Ends rest →
      headKind rest ≠ .and →
      ChainTo (chain (inside o (Position.size s)) .or .conjunction (binary .or))
        (fun b u => Parsed.Gives (level o .disjunction s) b u) s a rest
  | .conjunction, ts, nodes => ∀ s rest a, nodes = [a] → s.Holds (ts ++ rest) → Ends rest →
      ChainTo (chain (inside o (Position.size s)) .and .negation (binary .and))
        (fun b u => Parsed.Gives (level o .conjunction s) b u) s a rest
  | .negation, ts, nodes => ∀ s rest a, nodes = [a] → s.Holds (ts ++ rest) → Ends rest →
      ReadTo o .negation s a rest
  | .relation, ts, nodes => ∀ s rest a, nodes = [a] → s.Holds (ts ++ rest) → Ends rest →
      s.current.kind ≠ .not ∧ ReadTo o .negation s a rest
  -- Behind a factor there may be a comparison, but no parenthesis, which would begin a call.
  | .factor, ts, nodes => ∀ s rest a, nodes = [a] → s.Holds (ts ++ rest) →
      headKind rest ≠ .leftParen →
      s.current.kind ≠ .not ∧ s.current.kind ≠ .rightParen ∧ ReadTo o .factor s a rest
  | .arguments, ts, nodes => ∀ n s rest, Position.size s < n → s.Holds (ts ++ rest) →
      headKind rest = .rightParen → ∃ u, u.Holds rest ∧ GivesArguments (inside o n) s nodes u
  | .factors, ts, nodes => ∀ n s rest, Position.size s < n → s.Holds (ts ++ rest) →
      headKind rest ≠ .leftParen →
      ChainTo (chain (inside o n) .comma .factor fun nodes b => nodes ++ [b])
        (fun nodes u => GivesArguments (inside o n) s nodes u) s nodes rest

section
variable {us : List Token} {t : Token} {b : Node}

theorem gives_level_disjunction : Parsed.Gives (level o .disjunction s) a u ↔
    ∃ b v, Parsed.Gives (level o .conjunction s) b v ∧
      (Reader.fold (chain (inside o (Position.size s)) .or .conjunction (binary .or)) b).Gives
        v a u := by
  rw [level_eq, level_eq]
  exact gives_disjunction

theorem gives_level_conjunction : Parsed.Gives (level o .conjunction s) a u ↔
    ∃ b v, Parsed.Gives (level o .negation s) b v ∧
      (Reader.fold (chain (inside o (Position.size s)) .and .negation (binary .and)) b).Gives
        v a u := by
  rw [level_eq, level_eq]
  exact gives_conjunction

theorem gives_level_negation (hkind : s.current.kind ≠ .not) :
    Parsed.Gives (level o .negation s) a u ↔ ∃ b v, Parsed.Gives (level o .factor s) b v ∧
      ((comparison? v.current.kind = none ∧ a = b ∧ v = u) ∨
        ∃ op w c, comparison? v.current.kind = some op ∧ Parsed.Gives (advance v) () w ∧
          (inside o (Position.size s) .factor).Gives w c u ∧ a = binary op b c) := by
  rw [level_eq, level_eq]
  change Parsed.Gives (negation o s _) a u ↔ _
  rw [negation_of_kind_ne hkind]
  exact gives_relation

theorem complete_disjunction (h : Complete o .conjunction ts [a]) :
    Complete o .disjunction ts [a] := by
  rintro s rest a' ⟨⟩ hs hends hand
  obtain ⟨u, hu, ha⟩ := (h s rest a rfl hs hends).stop hand
  refine ⟨u, hu, ha.size_lt, ha.size_lt, fun b v hfold => ?_⟩
  exact gives_level_disjunction.2 ⟨a, u, ha, hfold⟩

theorem complete_or (left : Complete o .disjunction ts [a]) (ht : t.kind = .or)
    (right : Complete o .conjunction us [b]) :
    Complete o .disjunction (ts ++ t :: us) [binary .or a b] := by
  rintro s rest a' ⟨⟩ hs hends hand
  rw [List.append_assoc, List.cons_append] at hs
  -- The token `or` goes on with none of the constructs before it.
  have hnext : Ends (t :: (us ++ rest)) := ends_of_kind ht TokenKind.noConfusion rfl _
  have hand' : headKind (t :: (us ++ rest)) ≠ .and := by
    rw [headKind, ht]
    exact TokenKind.noConfusion
  have hleft := left s (t :: (us ++ rest)) a rfl hs hnext hand'
  refine hleft.operand ht fun v hv => ?_
  exact (right v rest b rfl hv hends).stop hand

theorem complete_conjunction (h : Complete o .negation ts [a]) :
    Complete o .conjunction ts [a] := by
  rintro s rest a' ⟨⟩ hs hends
  obtain ⟨u, hu, ha⟩ := h s rest a rfl hs hends
  refine ⟨u, hu, ha.size_lt, ha.size_lt, fun b v hfold => ?_⟩
  exact gives_level_conjunction.2 ⟨a, u, ha, hfold⟩

theorem complete_and (left : Complete o .conjunction ts [a]) (ht : t.kind = .and)
    (right : Complete o .negation us [b]) :
    Complete o .conjunction (ts ++ t :: us) [binary .and a b] := by
  rintro s rest a' ⟨⟩ hs hends
  rw [List.append_assoc, List.cons_append] at hs
  have hnext : Ends (t :: (us ++ rest)) := ends_of_kind ht TokenKind.noConfusion rfl _
  have hleft := left s (t :: (us ++ rest)) a rfl hs hnext
  exact hleft.operand ht fun v hv => right v rest b rfl hv hends

theorem complete_not (ht : t.kind = .not) (operand : Complete o .negation ts [a]) :
    Complete o .negation (t :: ts) [.mk ⟨t.position, a.span.stop⟩ (.not a)] := by
  rintro s rest a' ⟨⟩ hs hends
  obtain ⟨rfl, v, hv, hmore⟩ := exists_advance hs
  obtain ⟨u, hu, ha⟩ := operand v rest a rfl hmore hends
  refine ⟨u, hu, ?_⟩
  rw [level_eq]
  exact (gives_negation_not ht).2 ⟨v, a, hv, gives_inside hv.size_lt ha, rfl⟩

theorem complete_relation (h : Complete o .factor ts [a]) : Complete o .relation ts [a] := by
  rintro s rest a' ⟨⟩ hs hends
  obtain ⟨hnot, -, u, hu, ha⟩ := h s rest a rfl hs hends.1
  refine ⟨hnot, u, hu, (gives_level_negation hnot).2 ⟨a, u, ha, Or.inl ⟨?_, rfl, rfl⟩⟩⟩
  rw [hu.kind]
  exact hends.2

theorem complete_comparison {op : Operator} (left : Complete o .factor ts [a])
    (ht : comparison? t.kind = some op) (right : Complete o .factor us [b]) :
    Complete o .relation (ts ++ t :: us) [binary op a b] := by
  rintro s rest a' ⟨⟩ hs hends
  rw [List.append_assoc, List.cons_append] at hs
  have hparen : headKind (t :: (us ++ rest)) ≠ .leftParen := by
    intro hkind
    rw [headKind] at hkind
    rw [hkind] at ht
    cases ht
  -- The factors are read one by one: a comparison is no part of the first one.
  obtain ⟨hnot, -, v, hv, ha⟩ := left s (t :: (us ++ rest)) a rfl hs hparen
  obtain ⟨rfl, w, hw, hmore⟩ := exists_advance hv
  obtain ⟨-, -, u, hu, hb⟩ := right w rest b rfl hmore hends.1
  have hsize := hw.size_lt
  have hsize' := ha.size_lt
  have hinside : (inside o (Position.size s) .factor).Gives w b u := gives_inside (by omega) hb
  refine ⟨hnot, u, hu, (gives_level_negation hnot).2 ⟨a, v, ha, Or.inr ?_⟩⟩
  exact ⟨op, w, b, ht, hw, hinside, rfl⟩

theorem complete_parentheses {l r : Token} (hl : l.kind = .leftParen)
    (h : Complete o .disjunction ts [a]) (hr : r.kind = .rightParen) :
    Complete o .factor (l :: (ts ++ [r])) [a] := by
  rintro s rest a' ⟨⟩ hs -
  have hs : s.Holds (l :: (ts ++ r :: rest)) := by simpa using hs
  obtain ⟨rfl, v, hv, hmore⟩ := exists_advance hs
  have hnext : Ends (r :: rest) := ends_of_kind hr TokenKind.noConfusion rfl rest
  have hclosed : headKind (r :: rest) = .rightParen := hr
  have hinner := h v (r :: rest) a rfl hmore hnext (hclosed ▸ TokenKind.noConfusion)
  obtain ⟨w, hw, ha⟩ := hinner.stop (hclosed ▸ TokenKind.noConfusion)
  obtain ⟨rfl, u, hu, hrest⟩ := exists_advance hw
  refine ⟨hl ▸ TokenKind.noConfusion, hl ▸ TokenKind.noConfusion, u, hrest, ?_⟩
  rw [level_eq]
  exact (gives_factor_leftParen hl).2 ⟨v, w, hv, gives_inside hv.size_lt ha, hr, hu⟩

theorem complete_number (ht : t.kind = .number) :
    Complete o .factor [t] [.mk t.span (.number t.text)] := by
  rintro s rest a' ⟨⟩ hs -
  obtain ⟨rfl, u, hu, hrest⟩ := exists_advance hs
  refine ⟨ht ▸ TokenKind.noConfusion, ht ▸ TokenKind.noConfusion, u, hrest, ?_⟩
  rw [level_eq]
  exact (gives_factor_number ht).2 ⟨hu, rfl⟩

theorem complete_quoted (ht : t.kind = .word) (hquoted : t.quoted = true) (h : Stands o t a) :
    Complete o .factor [t] [a] := by
  rintro s rest a' ⟨⟩ hs -
  obtain ⟨rfl, u, hu, hrest⟩ := exists_advance hs
  refine ⟨ht ▸ TokenKind.noConfusion, ht ▸ TokenKind.noConfusion, u, hrest, ?_⟩
  rw [level_eq]
  exact (gives_factor_quoted ht hquoted).2 ⟨hu, h⟩

theorem complete_word (ht : t.kind = .word) (hbare : t.quoted = false) :
    Complete o .factor [t] [.mk t.span (.text t.text false)] := by
  rintro s rest a' ⟨⟩ hs hparen
  obtain ⟨rfl, u, hu, hrest⟩ := exists_advance hs
  refine ⟨ht ▸ TokenKind.noConfusion, ht ▸ TokenKind.noConfusion, u, hrest, ?_⟩
  rw [level_eq]
  refine (gives_factor_word ht hbare).2 ⟨u, hu, gives_afterWord.2 (Or.inl ?_)⟩
  refine ⟨?_, hu.size_lt, rfl, rfl⟩
  rwa [hrest.kind]

theorem complete_call {l r : Token} {nodes : List Node} (ht : t.kind = .word)
    (hbare : t.quoted = false) (hl : l.kind = .leftParen) (h : Complete o .arguments ts nodes)
    (hr : r.kind = .rightParen) :
    Complete o .factor (t :: l :: (ts ++ [r])) [callNode t l r nodes] := by
  rintro s rest a' ⟨⟩ hs -
  have hs : s.Holds (t :: l :: (ts ++ r :: rest)) := by simpa using hs
  obtain ⟨rfl, v, hv, hmore⟩ := exists_advance hs
  obtain ⟨rfl, x, hx, hinside⟩ := exists_advance hmore
  have hsize := hv.size_lt
  have hsize' := hx.size_lt
  obtain ⟨w, hw, harguments⟩ := h (Position.size s) x (r :: rest) (by omega) hinside hr
  obtain ⟨rfl, u, hu, hrest⟩ := exists_advance hw
  refine ⟨ht ▸ TokenKind.noConfusion, ht ▸ TokenKind.noConfusion, u, hrest, ?_⟩
  rw [level_eq]
  have htakes := takes_factorList.2 ⟨hl, x, nodes, w, hsize, hx, harguments, hr, hu, rfl⟩
  exact (gives_factor_word ht hbare).2 ⟨v, hv, gives_afterWord.2 (Or.inr ⟨_, htakes, rfl⟩)⟩

theorem complete_noArguments : Complete o .arguments [] [] := by
  intro n s rest hn hs hright
  have hkind : s.current.kind = .rightParen := hs.kind.trans hright
  exact ⟨s, hs, Or.inl ⟨hkind, rfl, rfl⟩⟩

theorem complete_arguments {nodes : List Node} (h : Complete o .factors ts nodes) :
    Complete o .arguments ts nodes := by
  intro n s rest hn hs hright
  have hchain := h n s rest hn hs (hright ▸ TokenKind.noConfusion)
  exact hchain.stop (hright ▸ TokenKind.noConfusion)

theorem complete_factors (h : Complete o .factor ts [a]) : Complete o .factors ts [a] := by
  intro n s rest hn hs hparen
  -- A factor does not begin with the parenthesis that would close an empty list.
  obtain ⟨-, hright, u, hu, ha⟩ := h s rest a rfl hs hparen
  have hsize := ha.size_lt
  refine ⟨u, hu, hsize, by omega, fun nodes v hfold => Or.inr ?_⟩
  exact ⟨hright, a, u, gives_inside hn ha, hfold⟩

theorem complete_comma {nodes : List Node} (left : Complete o .factors ts nodes)
    (ht : t.kind = .comma) (right : Complete o .factor us [b]) :
    Complete o .factors (ts ++ t :: us) (nodes ++ [b]) := by
  intro n s rest hn hs hparen
  rw [List.append_assoc, List.cons_append] at hs
  have hcomma : headKind (t :: (us ++ rest)) = .comma := ht
  have hleft := left n s (t :: (us ++ rest)) hn hs (hcomma ▸ TokenKind.noConfusion)
  refine hleft.operand ht fun v hv => ?_
  obtain ⟨-, -, hread⟩ := right v rest b rfl hv hparen
  exact hread

end

/-- Whatever the grammar derives is read. -/
theorem Derives.complete {rule : Rule} {nodes : List Node}
    (h : Derives (Stands o) rule ts nodes) : Complete o rule ts nodes := by
  induction h with
  | disjunction _ ih => exact complete_disjunction ih
  | or _ ht _ ihleft ihright => exact complete_or ihleft ht ihright
  | conjunction _ ih => exact complete_conjunction ih
  | and _ ht _ ihleft ihright => exact complete_and ihleft ht ihright
  | negation _ ih => exact fun s rest a ha hs hends => (ih s rest a ha hs hends).2
  | not ht _ ih => exact complete_not ht ih
  | relation _ ih => exact complete_relation ih
  | comparison _ ht _ ihleft ihright => exact complete_comparison ihleft ht ihright
  | parentheses hl _ hr ih => exact complete_parentheses hl ih hr
  | number ht => exact complete_number ht
  | quoted ht hquoted h => exact complete_quoted ht hquoted h
  | word ht hbare => exact complete_word ht hbare
  | call ht hbare hl _ hr ih => exact complete_call ht hbare hl ih hr
  | noArguments => exact complete_noArguments
  | arguments _ ih => exact complete_arguments ih
  | factors _ ih => exact complete_factors ih
  | comma _ ht _ ihleft ihright => exact complete_comma ihleft ht ihright

end ProjectAnalysis.Expr
