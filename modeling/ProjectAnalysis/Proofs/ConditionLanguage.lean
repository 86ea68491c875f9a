import ProjectAnalysis.ExprParse
import ProjectAnalysis.Proofs.ConditionComplete
import ProjectAnalysis.Proofs.TextRun

/-! The conditions that are accepted, and their trees. A text whose tokens are all in order, without
references outside of quotes, is accepted just if the grammar derives its tokens and its quoted
strings can be read; the derivation gives its tree, and there is one tree only. -/
namespace ProjectAnalysis.Expr

theorem Derives.ne_nil {content : Token → Node → Prop} {rule : Rule} {ts : List Token}
    {nodes : List Node} (h : Derives content rule ts nodes) (hrule : rule ≠ .arguments) :
    ts ≠ [] := by
  induction h with
  | disjunction _ ih | conjunction _ ih | negation _ ih | relation _ ih | factors _ ih =>
    exact ih Rule.noConfusion
  | noArguments | arguments _ _ => exact absurd rfl hrule
  | or _ _ _ _ _ | and _ _ _ _ _ | comparison _ _ _ _ _ | comma _ _ _ _ _ =>
    exact List.append_ne_nil_of_right_ne_nil _ (List.cons_ne_nil _ _)
  | not _ _ _ | parentheses _ _ _ _ | number _ | quoted _ _ _ | word _ _ | call _ _ _ _ _ _ =>
    exact List.cons_ne_nil _ _

theorem mapError_eq_ok {ε ε' α : Type} {x : Except ε α} {f : ε → ε'} {a : α} :
    x.mapError f = .ok a ↔ x = .ok a := by
  cases x with
  | error fault => constructor <;> intro h <;> cases h
  | ok b => constructor <;> intro h <;> cases h <;> rfl

/-- A text that is no condition is read from its beginning. -/
theorem parse_eq_ok {o : Options} {text : String} {n : Node} (ho : o.condition = false) :
    parse o text = .ok n ↔
      ∃ d, (segments o : Read (Position.size (Cursor.ofText text.toList) + 1) Node).Gives
        (.ofText text.toList) n d := by
  refine mapError_eq_ok.trans ?_
  rw [ho, if_neg Bool.false_ne_true]
  exact from_eq_ok

/-- The first token of a text whose tokens are all in order. -/
theorem exists_first {text : String} {tokens : List Token} (h : tokenize text = .ok tokens) :
    ∃ s, (TokenStream.ofText text.toList).step = (s, none) ∧ s.Holds tokens := by
  unfold tokenize at h
  split at h
  · cases h
  · rename_i s hstep
    exact ⟨s, hstep, mapError_eq_ok.1 h⟩

theorem wholeCondition_eq_ok {o : Options} {cs : List Char} {a : Node} :
    wholeCondition o cs = .ok a ↔ ∃ s, (TokenStream.ofText cs).step = (s, none) ∧
      ((s.atEnd = true ∧ a = .mk ⟨0, 0⟩ (.text "" false)) ∨ (s.atEnd = false ∧
        ∃ u, Parsed.Gives (level o .disjunction s) a u ∧ u.atEnd = true)) := by
  rw [wholeCondition]
  obtain ⟨s, _ | fault⟩ := (TokenStream.ofText cs).step
  · dsimp only
    cases hend : s.atEnd with
    | true =>
      rw [if_pos rfl]
      constructor
      · intro h
        exact ⟨s, rfl, Or.inl ⟨hend, (Except.ok.inj h).symm⟩⟩
      · rintro ⟨_, hs, ⟨-, rfl⟩ | ⟨h, -⟩⟩
        · rfl
        · cases hs
          cases hend.symm.trans h
    | false =>
      rw [if_neg Bool.false_ne_true]
      constructor
      · intro h
        refine ⟨s, rfl, Or.inr ⟨hend, ?_⟩⟩
        cases hlevel : level o .disjunction s with
        | error fault =>
          rw [hlevel] at h
          cases h
        | ok r =>
          rw [hlevel] at h
          change (if r.next.atEnd then pure r.value else throw _) = _ at h
          split at h
          · rename_i hu
            obtain rfl := Except.ok.inj h
            exact ⟨r.next, ⟨r, rfl, rfl, rfl⟩, hu⟩
          · cases h
      · rintro ⟨_, hs, ⟨h, -⟩ | ⟨-, u, ⟨r, hr, rfl, rfl⟩, hu⟩⟩
        · cases hs
          cases hend.symm.trans h
        · cases hs
          rw [hr]
          exact if_pos hu
  · constructor
    · exact nofun
    · rintro ⟨_, hs, -⟩
      cases hs

theorem parseCondition_eq_ok {text : String} {s : TokenStream} {a : Node}
    (hstep : (TokenStream.ofText text.toList).step = (s, none)) :
    parseCondition text = .ok a ↔ (s.atEnd = true ∧ a = .mk ⟨0, 0⟩ (.text "" false)) ∨
      (s.atEnd = false ∧
        ∃ u, Parsed.Gives (level .conditional .disjunction s) a u ∧ u.atEnd = true) := by
  have hwhole : parseCondition text = .ok a ↔
      wholeCondition .conditional text.toList = .ok a := mapError_eq_ok
  rw [hwhole, wholeCondition_eq_ok, hstep]
  constructor
  · rintro ⟨_, hs, h⟩
    cases hs
    exact h
  · intro h
    exact ⟨s, rfl, h⟩

/-- The conditions that are accepted are those of the grammar whose quoted strings can be read, and
the empty ones; the tree of a condition is that of its derivation, the only one there is. -/
theorem parseCondition_iff_derives {text : String} {tokens : List Token}
    (htokens : tokenize text = .ok tokens) (hplain : Plain tokens) :
    ((∃ a, parseCondition text = .ok a) ↔
      tokens = [] ∨ (Derivable tokens ∧ Filled (Stands .conditional) tokens)) ∧
    (∀ a, parseCondition text = .ok a ↔
      (tokens = [] ∧ a = .mk ⟨0, 0⟩ (.text "" false)) ∨
        Derives (Stands .conditional) .disjunction tokens [a]) ∧
    ∀ a b, Derives (Stands .conditional) .disjunction tokens [a] →
      Derives (Stands .conditional) .disjunction tokens [b] → a = b := by
  obtain ⟨s, hstep, hs⟩ := exists_first htokens
  have htree (a : Node) : parseCondition text = .ok a ↔
      (tokens = [] ∧ a = .mk ⟨0, 0⟩ (.text "" false)) ∨
        Derives (Stands .conditional) .disjunction tokens [a] := by
    rw [parseCondition_eq_ok hstep]
    constructor
    · rintro (⟨hend, rfl⟩ | ⟨-, u, ha, hu⟩)
      · exact Or.inl ⟨hs.atEnd_iff.1 hend, rfl⟩
      · -- No token is left, so the derivation takes all of them.
        obtain ⟨us, rest, rfl, hrest, hderives⟩ := found_level .disjunction hs hplain ha
        obtain rfl := hrest.atEnd_iff.1 hu
        rw [List.append_nil]
        exact Or.inr hderives
    · rintro (⟨rfl, rfl⟩ | hderives)
      · exact Or.inl ⟨hs.atEnd_iff.2 rfl, rfl⟩
      · have hsome : tokens ≠ [] := hderives.ne_nil Rule.noConfusion
        have hstart : s.atEnd = false := Bool.not_eq_true _ ▸ mt hs.atEnd_iff.1 hsome
        have hends : Ends [] := ⟨TokenKind.noConfusion, rfl⟩
        have hall : s.Holds (tokens ++ []) := by rwa [List.append_nil]
        have hchain := hderives.complete s [] a rfl hall hends TokenKind.noConfusion
        obtain ⟨u, hu, ha⟩ := hchain.stop TokenKind.noConfusion
        exact Or.inr ⟨hstart, u, ha, hu.atEnd_iff.2 rfl⟩
  refine ⟨?_, htree, fun a b ha hb => ?_⟩
  · rw [← exists_derives_iff]
    constructor
    · rintro ⟨a, h⟩
      exact ((htree a).1 h).imp And.left fun h => ⟨a, h⟩
    · rintro (rfl | ⟨a, h⟩)
      · exact ⟨_, (htree _).2 (Or.inl ⟨rfl, rfl⟩)⟩
      · exact ⟨a, (htree a).2 (Or.inr h)⟩
  · -- Both trees are what the text is read as, and that is one.
    have hsame := ((htree a).2 (Or.inr ha)).symm.trans ((htree b).2 (Or.inr hb))
    exact Except.ok.inj hsame

/-- `!` takes the whole comparison, and `and` binds tighter than `or`. -/
theorem parseCondition_precedence :
    let text := "!a == 'b' or f(1, c) and d"
    let word (name : String) (position : Nat) : Token := ⟨.word, name, position, false⟩
    let leaf (t : Token) : Node := .mk t.span (.text t.text false)
    let one : Token := ⟨.number, "1", 15, false⟩
    let opening : Token := ⟨.leftParen, "(", 14, false⟩
    let closing : Token := ⟨.rightParen, ")", 19, false⟩
    ∃ tokens b, tokenize text = .ok tokens ∧ Plain tokens ∧
      let equality := binary .equal (leaf (word "a" 1)) b
      parseCondition text = .ok (binary .or
        (.mk ⟨0, equality.span.stop⟩ (.not equality))
        (binary .and
          (callNode (word "f" 13) opening closing
            [.mk one.span (.number "1"), leaf (word "c" 18)])
          (leaf (word "d" 25)))) := by
  intro text word leaf one opening closing
  let quoted : Token := ⟨.word, "b", 6, true⟩
  let equal : Token := ⟨.equal, "==", 3, false⟩
  let comma : Token := ⟨.comma, ",", 16, false⟩
  let negated : List Token := ⟨.not, "!", 0, false⟩ :: ([word "a" 1] ++ [equal, quoted])
  let call : List Token :=
    word "f" 13 :: opening :: ([one] ++ [comma, word "c" 18] ++ [closing])
  let both : List Token := call ++ [⟨.and, "and", 21, false⟩, word "d" 25]
  let tokens : List Token := negated ++ ⟨.or, "or", 10, false⟩ :: both
  have hok {ε α : Type} {x : Except ε α} {v : α} (h : x.toOption = some v) : x = .ok v := by
    cases x with
    | error e => cases h
    | ok v' => exact congrArg Except.ok (Option.some.inj h)
  have htokens : tokenize text = .ok tokens := by
    apply hok
    clear hok
    decide +kernel +revert
  have hplain : Plain tokens := by
    clear hok htokens
    unfold Plain
    decide +kernel +revert
  have hread : (Read.from ⟨quoted.position + 1, quoted.text.toList⟩
      (concat anywhere .conditional true false)).toOption.isSome = true := by
    clear hok htokens hplain
    decide +kernel +revert
  obtain ⟨b, hb⟩ := Option.isSome_iff_exists.1 hread
  have hstands : Stands .conditional quoted b := hok hb
  have hleft : Derives (Stands .conditional) .disjunction negated [_] :=
    .disjunction (.conjunction (.not rfl (.negation
      (.comparison (.word rfl rfl) rfl (.quoted rfl rfl hstands)))))
  have hcall : Derives (Stands .conditional) .factor call [_] :=
    .call rfl rfl rfl (.arguments (.comma (.factors (.number rfl)) rfl (.word rfl rfl))) rfl
  have hright : Derives (Stands .conditional) .conjunction both [_] :=
    .and (.conjunction (.negation (.relation hcall))) rfl (.negation (.relation (.word rfl rfl)))
  have htree : Derives (Stands .conditional) .disjunction tokens [_] := .or hleft rfl hright
  refine ⟨tokens, b, htokens, hplain, ?_⟩
  exact ((parseCondition_iff_derives htokens hplain).2.1 _).2 (Or.inr htree)

end ProjectAnalysis.Expr
