import ProjectAnalysis.ExprCondition

/-! The grammar of conditions without references of their own, as a relation between the tokens of a
construct and its tree:
```text
disjunction := disjunction 'or' conjunction | conjunction
conjunction := conjunction 'and' negation | negation
negation    := '!' negation | relation
relation    := factor comparison factor | factor
factor      := '(' disjunction ')' | number | quoted | word | word '(' arguments ')'
arguments   := factors | nothing
factors     := factors ',' factor | factor
```
Chains are built to the left, `and` binds tighter than `or`, a comparison has no other one beside
it, and `!` takes the whole relation after it. -/
namespace ProjectAnalysis.Expr

inductive Rule
  | disjunction
  | conjunction
  | negation
  | relation
  | factor
  | arguments
  | factors
deriving DecidableEq, Repr

/-- A call of the function that a word names. -/
def callNode (word opening closing : Token) (nodes : List Node) : Node :=
  .mk ⟨word.position, closing.position + 1⟩ (.conditionFunction
    (.mk word.span (.functionName word.text))
    (.mk ⟨opening.position, closing.position + 1⟩ (.argumentList nodes)))

/-- The tokens of a construct and its tree, or the trees of its factors. What a quoted string may
stand for is given. -/
inductive Derives (content : Token → Node → Prop) : Rule → List Token → List Node → Prop
  | disjunction {ts : List Token} {a : Node} (h : Derives content .conjunction ts [a]) :
      Derives content .disjunction ts [a]
  | or {ts us : List Token} {t : Token} {a b : Node} (left : Derives content .disjunction ts [a])
      (ht : t.kind = .or) (right : Derives content .conjunction us [b]) :
      Derives content .disjunction (ts ++ t :: us) [binary .or a b]
  | conjunction {ts : List Token} {a : Node} (h : Derives content .negation ts [a]) :
      Derives content .conjunction ts [a]
  | and {ts us : List Token} {t : Token} {a b : Node} (left : Derives content .conjunction ts [a])
      (ht : t.kind = .and) (right : Derives content .negation us [b]) :
      Derives content .conjunction (ts ++ t :: us) [binary .and a b]
  | negation {ts : List Token} {a : Node} (h : Derives content .relation ts [a]) :
      Derives content .negation ts [a]
  | not {ts : List Token} {t : Token} {a : Node} (ht : t.kind = .not)
      (operand : Derives content .negation ts [a]) :
      Derives content .negation (t :: ts) [.mk ⟨t.position, a.span.stop⟩ (.not a)]
  | relation {ts : List Token} {a : Node} (h : Derives content .factor ts [a]) :
      Derives content .relation ts [a]
  | comparison {ts us : List Token} {t : Token} {op : Operator} {a b : Node}
      (left : Derives content .factor ts [a]) (ht : comparison? t.kind = some op)
      (right : Derives content .factor us [b]) :
      Derives content .relation (ts ++ t :: us) [binary op a b]
  | parentheses {ts : List Token} {l r : Token} {a : Node} (hl : l.kind = .leftParen)
      (h : Derives content .disjunction ts [a]) (hr : r.kind = .rightParen) :
      Derives content .factor (l :: (ts ++ [r])) [a]
  | number {t : Token} (ht : t.kind = .number) :
      Derives content .factor [t] [.mk t.span (.number t.text)]
  | quoted {t : Token} {a : Node} (ht : t.kind = .word) (hquoted : t.quoted = true)
      (h : content t a) : Derives content .factor [t] [a]
  | word {t : Token} (ht : t.kind = .word) (hbare : t.quoted = false) :
      Derives content .factor [t] [.mk t.span (.text t.text false)]
  | call {ts : List Token} {t l r : Token} {nodes : List Node} (ht : t.kind = .word)
      (hbare : t.quoted = false) (hl : l.kind = .leftParen)
      (h : Derives content .arguments ts nodes) (hr : r.kind = .rightParen) :
      Derives content .factor (t :: l :: (ts ++ [r])) [callNode t l r nodes]
  | noArguments : Derives content .arguments [] []
  | arguments {ts : List Token} {nodes : List Node} (h : Derives content .factors ts nodes) :
      Derives content .arguments ts nodes
  | factors {ts : List Token} {a : Node} (h : Derives content .factor ts [a]) :
      Derives content .factors ts [a]
  | comma {ts us : List Token} {t : Token} {nodes : List Node} {b : Node}
      (left : Derives content .factors ts nodes) (ht : t.kind = .comma)
      (right : Derives content .factor us [b]) :
      Derives content .factors (ts ++ t :: us) (nodes ++ [b])

/-- The tokens of a condition, whatever its quoted strings hold. -/
def Derivable (ts : List Token) : Prop :=
  ∃ a, Derives (fun _ _ => True) .disjunction ts [a]

/-- Every quoted string stands for something. -/
def Filled (content : Token → Node → Prop) (ts : List Token) : Prop :=
  ∀ t ∈ ts, t.kind = .word → t.quoted = true → ∃ a, content t a

section
variable {content other : Token → Node → Prop} {ts us : List Token} {t : Token}

theorem Filled.left (h : Filled content (ts ++ us)) : Filled content ts :=
  fun t ht => h t (List.mem_append_left us ht)

theorem Filled.right (h : Filled content (ts ++ us)) : Filled content us :=
  fun t ht => h t (List.mem_append_right ts ht)

theorem Filled.tail (h : Filled content (t :: ts)) : Filled content ts :=
  fun t' ht' => h t' (List.mem_cons_of_mem t ht')

theorem filled_append (hts : Filled content ts) (hus : Filled content us) :
    Filled content (ts ++ us) := by
  intro t ht
  rcases List.mem_append.1 ht with ht | ht
  · exact hts t ht
  · exact hus t ht

theorem filled_cons (ht : t.kind ≠ .word ∨ t.quoted = false) (hts : Filled content ts) :
    Filled content (t :: ts) := by
  intro t' ht'
  rcases List.mem_cons.1 ht' with rfl | ht'
  · intro hkind hquoted
    rcases ht with ht | ht
    · exact absurd hkind ht
    · exact absurd (hquoted.symm.trans ht) Bool.noConfusion
  · exact hts t' ht'

theorem filled_nil : Filled content [] := List.forall_mem_nil _

theorem Derives.filled {rule : Rule} {nodes : List Node} (h : Derives content rule ts nodes) :
    Filled content ts := by
  have hkind {t : Token} {kind : TokenKind} (ht : t.kind = kind) (hne : kind ≠ .word) :
      t.kind ≠ .word ∨ t.quoted = false := Or.inl (ht ▸ hne)
  induction h with
  | disjunction _ ih | conjunction _ ih | negation _ ih | relation _ ih | arguments _ ih
  | factors _ ih => exact ih
  | or _ ht _ ihleft ihright => exact filled_append ihleft (filled_cons (hkind ht nofun) ihright)
  | and _ ht _ ihleft ihright => exact filled_append ihleft (filled_cons (hkind ht nofun) ihright)
  | comma _ ht _ ihleft ihright =>
    exact filled_append ihleft (filled_cons (hkind ht nofun) ihright)
  | not ht _ ih => exact filled_cons (hkind ht nofun) ih
  | comparison _ ht _ ihleft ihright =>
    refine filled_append ihleft (filled_cons (Or.inl fun hword => ?_) ihright)
    rw [hword] at ht
    cases ht
  | parentheses hl _ hr ih =>
    exact filled_cons (hkind hl nofun) (filled_append ih (filled_cons (hkind hr nofun) filled_nil))
  | number ht => exact filled_cons (hkind ht nofun) filled_nil
  | quoted _ _ h =>
    intro t ht _ _
    obtain rfl := List.mem_singleton.1 ht
    exact ⟨_, h⟩
  | word _ hbare => exact filled_cons (Or.inr hbare) filled_nil
  | call _ hbare hl _ hr ih =>
    refine filled_cons (Or.inr hbare) (filled_cons (hkind hl nofun) ?_)
    exact filled_append ih (filled_cons (hkind hr nofun) filled_nil)
  | noArguments => exact filled_nil

/-- The same construct, with something else in its quoted strings. -/
theorem Derives.refill {rule : Rule} {nodes : List Node} (h : Derives other rule ts nodes)
    (hfilled : Filled content ts) :
    ∃ nodes', nodes'.length = nodes.length ∧ Derives content rule ts nodes' := by
  -- Only arguments have several trees; where there was one tree, there is one again.
  have hone {rule : Rule} {ts : List Token} {a : Node}
      (h : ∃ nodes', nodes'.length = [a].length ∧ Derives content rule ts nodes') :
      ∃ a', Derives content rule ts [a'] := by
    obtain ⟨nodes', hlength, h⟩ := h
    obtain ⟨a', rfl⟩ := List.length_eq_one_iff.1 hlength
    exact ⟨a', h⟩
  have hput {rule : Rule} {ts : List Token} {a b : Node} (h : Derives content rule ts [b]) :
      ∃ nodes', nodes'.length = [a].length ∧ Derives content rule ts nodes' := ⟨[b], rfl, h⟩
  induction h with
  | disjunction _ ih =>
    obtain ⟨a, h⟩ := hone (ih hfilled)
    exact hput (.disjunction h)
  | or _ ht _ ihleft ihright =>
    obtain ⟨a, hleft⟩ := hone (ihleft hfilled.left)
    obtain ⟨b, hright⟩ := hone (ihright hfilled.right.tail)
    exact hput (.or hleft ht hright)
  | conjunction _ ih =>
    obtain ⟨a, h⟩ := hone (ih hfilled)
    exact hput (.conjunction h)
  | and _ ht _ ihleft ihright =>
    obtain ⟨a, hleft⟩ := hone (ihleft hfilled.left)
    obtain ⟨b, hright⟩ := hone (ihright hfilled.right.tail)
    exact hput (.and hleft ht hright)
  | negation _ ih =>
    obtain ⟨a, h⟩ := hone (ih hfilled)
    exact hput (.negation h)
  | not ht _ ih =>
    obtain ⟨a, h⟩ := hone (ih hfilled.tail)
    exact hput (.not ht h)
  | relation _ ih =>
    obtain ⟨a, h⟩ := hone (ih hfilled)
    exact hput (.relation h)
  | comparison _ ht _ ihleft ihright =>
    obtain ⟨a, hleft⟩ := hone (ihleft hfilled.left)
    obtain ⟨b, hright⟩ := hone (ihright hfilled.right.tail)
    exact hput (.comparison hleft ht hright)
  | parentheses hl _ hr ih =>
    obtain ⟨a, h⟩ := hone (ih hfilled.tail.left)
    exact hput (.parentheses hl h hr)
  | number ht => exact hput (.number ht)
  | quoted ht hquoted _ =>
    obtain ⟨a, ha⟩ := hfilled _ List.mem_cons_self ht hquoted
    exact hput (.quoted ht hquoted ha)
  | word ht hbare => exact hput (.word ht hbare)
  | call ht hbare hl _ hr ih =>
    obtain ⟨nodes', -, h⟩ := ih hfilled.tail.tail.left
    exact hput (.call ht hbare hl h hr)
  | noArguments => exact ⟨[], rfl, .noArguments⟩
  | arguments _ ih =>
    obtain ⟨nodes', hlength, h⟩ := ih hfilled
    exact ⟨nodes', hlength, .arguments h⟩
  | factors _ ih =>
    obtain ⟨a, h⟩ := hone (ih hfilled)
    exact hput (.factors h)
  | comma _ ht _ ihleft ihright =>
    obtain ⟨nodes', hlength, hleft⟩ := ihleft hfilled.left
    obtain ⟨b, hright⟩ := hone (ihright hfilled.right.tail)
    refine ⟨nodes' ++ [b], ?_, .comma hleft ht hright⟩
    rw [List.length_append, hlength, List.length_append]
    rfl

/-- A condition has a tree when its tokens are those of a condition and every quoted string stands
for something. -/
theorem exists_derives_iff :
    (∃ a, Derives content .disjunction ts [a]) ↔ Derivable ts ∧ Filled content ts := by
  constructor
  · rintro ⟨a, h⟩
    have hall : Filled (fun _ _ => True) ts := fun _ _ _ _ => ⟨a, trivial⟩
    obtain ⟨nodes, hlength, h'⟩ := h.refill hall
    obtain ⟨a', rfl⟩ := List.length_eq_one_iff.1 hlength
    exact ⟨⟨a', h'⟩, h.filled⟩
  · rintro ⟨⟨a, h⟩, hfilled⟩
    obtain ⟨nodes, hlength, h'⟩ := h.refill hfilled
    obtain ⟨a', rfl⟩ := List.length_eq_one_iff.1 hlength
    exact ⟨a', h'⟩

end

end ProjectAnalysis.Expr
