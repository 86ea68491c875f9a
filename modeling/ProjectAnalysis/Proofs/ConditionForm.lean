import ProjectAnalysis.Proofs.ConditionGrammar
import ProjectAnalysis.Proofs.ConditionRun

/-! The grammar of conditions with their references, as a relation between two places among the
tokens and the trees of what stands between them. A reference takes no part in the tokens: it is
read from the slice of the text between its sigil and the parenthesis that closes it. -/
namespace ProjectAnalysis.Expr

/-- The tokens from one place to another make up a construct with these trees. -/
inductive Forms (o : Options) : Rule → TokenStream → List Node → TokenStream → Prop
  | disjunction {s u : TokenStream} {a : Node} (h : Forms o .conjunction s [a] u) :
      Forms o .disjunction s [a] u
  | or {s t u v : TokenStream} {a b : Node} (left : Forms o .disjunction s [a] t)
      (ht : t.current.kind = .or) (hu : Parsed.Gives (advance t) () u)
      (right : Forms o .conjunction u [b] v) : Forms o .disjunction s [binary .or a b] v
  | conjunction {s u : TokenStream} {a : Node} (h : Forms o .negation s [a] u) :
      Forms o .conjunction s [a] u
  | and {s t u v : TokenStream} {a b : Node} (left : Forms o .conjunction s [a] t)
      (ht : t.current.kind = .and) (hu : Parsed.Gives (advance t) () u)
      (right : Forms o .negation u [b] v) : Forms o .conjunction s [binary .and a b] v
  | negation {s u : TokenStream} {a : Node} (h : Forms o .relation s [a] u) :
      Forms o .negation s [a] u
  | not {s t u : TokenStream} {a : Node} (hs : s.current.kind = .not)
      (ht : Parsed.Gives (advance s) () t) (operand : Forms o .negation t [a] u) :
      Forms o .negation s [.mk ⟨s.current.position, a.span.stop⟩ (.not a)] u
  | relation {s u : TokenStream} {a : Node} (h : Forms o .factor s [a] u) :
      Forms o .relation s [a] u
  | comparison {s t u v : TokenStream} {op : Operator} {a b : Node}
      (left : Forms o .factor s [a] t) (ht : comparison? t.current.kind = some op)
      (hu : Parsed.Gives (advance t) () u) (right : Forms o .factor u [b] v) :
      Forms o .relation s [binary op a b] v
  | parentheses {s t u v : TokenStream} {a : Node} (hs : s.current.kind = .leftParen)
      (ht : Parsed.Gives (advance s) () t) (h : Forms o .disjunction t [a] u)
      (hu : u.current.kind = .rightParen) (hv : Parsed.Gives (advance u) () v) :
      Forms o .factor s [a] v
  | number {s u : TokenStream} (hs : s.current.kind = .number)
      (hu : Parsed.Gives (advance s) () u) :
      Forms o .factor s [.mk s.current.span (.number s.current.text)] u
  | quoted {s u : TokenStream} {a : Node} (hs : s.current.kind = .word)
      (hquoted : s.current.quoted = true) (h : Stands o s.current a)
      (hu : Parsed.Gives (advance s) () u) : Forms o .factor s [a] u
  | word {s u : TokenStream} (hs : s.current.kind = .word) (hbare : s.current.quoted = false)
      (hu : Parsed.Gives (advance s) () u) :
      Forms o .factor s [.mk s.current.span (.text s.current.text false)] u
  | call {s t u v w : TokenStream} {nodes : List Node} (hs : s.current.kind = .word)
      (hbare : s.current.quoted = false) (ht : Parsed.Gives (advance s) () t)
      (hleft : t.current.kind = .leftParen) (hu : Parsed.Gives (advance t) () u)
      (h : Forms o .arguments u nodes v) (hright : v.current.kind = .rightParen)
      (hw : Parsed.Gives (advance v) () w) :
      Forms o .factor s [callNode s.current t.current v.current nodes] w
  | reference {s u v : TokenStream} {slice d : Cursor} {a : Node} (hs : Sliced s slice u)
      (h : Parsed.Gives (reference o slice) a d) (hu : u.current.kind = .rightParen)
      (hv : Parsed.Gives (advance u) () v) : Forms o .factor s [a] v
  | noArguments {s : TokenStream} : Forms o .arguments s [] s
  | arguments {s u : TokenStream} {nodes : List Node} (h : Forms o .factors s nodes u) :
      Forms o .arguments s nodes u
  | factors {s u : TokenStream} {a : Node} (h : Forms o .factor s [a] u) :
      Forms o .factors s [a] u
  | comma {s t u v : TokenStream} {nodes : List Node} {b : Node}
      (left : Forms o .factors s nodes t) (ht : t.current.kind = .comma)
      (hu : Parsed.Gives (advance t) () u) (right : Forms o .factor u [b] v) :
      Forms o .factors s (nodes ++ [b]) v

/-- The rule of the grammar that a reader follows. -/
def Level.rule : Level → Rule
  | .disjunction => .disjunction
  | .conjunction => .conjunction
  | .negation => .negation
  | .factor => .factor

variable {o : Options} {n : Nat} {s t u : TokenStream} {a : Node}

/-- The constructs inside follow their rules. -/
def InnerForms (o : Options) (inner : InnerLevel n) : Prop :=
  ∀ l s a u, (inner l).Gives s a u → Forms o l.rule s [a] u

/-- A chain adds one operand after the other to what was read before it. -/
theorem forms_chain {α : Type} {inner : InnerLevel n} (hinner : InnerForms o inner) {l : Level}
    {kind : TokenKind} {f : α → Node → α} {g : α → List Node} {top : Rule}
    (hstep : ∀ t u v a b, Forms o top s (g a) t → t.current.kind = kind →
      Parsed.Gives (advance t) () u → Forms o l.rule u [b] v → Forms o top s (g (f a b)) v)
    {a b : α} (before : Forms o top s (g a) t)
    (h : (Reader.fold (chain inner kind l f) a).Gives t b u) : Forms o top s (g b) u := by
  refine (Reader.Gives.fold_induction (P := fun a t => Forms o top s (g a) t) ?_ h before).1
  intro a t b v ha htakes
  obtain ⟨hkind, u, c, -, hu, hc, rfl⟩ := takes_chain.1 htakes
  exact hstep t u v a c ha hkind hu (hinner _ _ _ _ hc)

theorem forms_arguments {inner : InnerLevel n} (hinner : InnerForms o inner) {nodes : List Node}
    (h : GivesArguments inner s nodes u) : Forms o .arguments s nodes u := by
  rcases h with ⟨-, rfl, rfl⟩ | ⟨-, b, v, hb, hfold⟩
  · exact .noArguments
  · exact .arguments (forms_chain (l := .factor) (g := id) hinner
      (fun _ _ _ _ _ => .comma) (.factors (hinner _ _ _ _ hb)) hfold)

section
variable {inner : InnerLevel (Position.size s)} (hinner : InnerForms o inner)
include hinner

theorem forms_factor (h : Parsed.Gives (factor o s inner) a u) : Forms o .factor s [a] u := by
  cases hreference : s.current.kind.isReference with
  | true =>
    obtain ⟨slice, d, v, hslice, ha, hright, hu⟩ := (gives_factor_reference hreference).1 h
    exact .reference hslice ha hright hu
  | false =>
    rcases kind_of_gives_factor hreference h with hkind | hkind | hkind
    · obtain ⟨v, w, hv, ha, hright, hu⟩ := (gives_factor_leftParen hkind).1 h
      exact .parentheses hkind hv (hinner .disjunction _ _ _ ha) hright hu
    · obtain ⟨hu, rfl⟩ := (gives_factor_number hkind).1 h
      exact .number hkind hu
    · cases hquoted : s.current.quoted with
      | true =>
        obtain ⟨hu, hcontent⟩ := (gives_factor_quoted hkind hquoted).1 h
        exact .quoted hkind hquoted hcontent hu
      | false =>
        obtain ⟨v, hv, hafter⟩ := (gives_factor_word hkind hquoted).1 h
        -- A word is a call if there is a parenthesis right behind it.
        rcases gives_afterWord.1 hafter with ⟨-, -, rfl, rfl⟩ | ⟨arguments, htakes, rfl⟩
        · exact .word hkind hquoted hv
        · obtain ⟨hleft, x, nodes, w, -, hx, harguments, hright, hu, rfl⟩ :=
            takes_factorList.1 htakes
          exact .call hkind hquoted hv hleft hx (forms_arguments hinner harguments) hright hu

theorem forms_relation (h : Parsed.Gives (relation o s inner) a u) :
    Forms o .relation s [a] u := by
  obtain ⟨b, v, hb, hthen⟩ := gives_relation.1 h
  have hfactor := forms_factor hinner hb
  rcases hthen with ⟨-, rfl, rfl⟩ | ⟨op, w, c, hop, hw, hc, rfl⟩
  · exact .relation hfactor
  · exact .comparison hfactor hop hw (hinner .factor _ _ _ hc)

theorem forms_negation (h : Parsed.Gives (negation o s inner) a u) :
    Forms o .negation s [a] u := by
  by_cases hkind : s.current.kind = .not
  · obtain ⟨v, b, hv, hb, rfl⟩ := (gives_negation_not hkind).1 h
    exact .not hkind hv (hinner .negation _ _ _ hb)
  · rw [negation_of_kind_ne hkind] at h
    exact .negation (forms_relation hinner h)

theorem forms_conjunction (h : Parsed.Gives (conjunction o s inner) a u) :
    Forms o .conjunction s [a] u := by
  obtain ⟨b, v, hb, hfold⟩ := gives_conjunction.1 h
  exact forms_chain (l := .negation) (g := fun a => [a]) hinner (fun _ _ _ _ _ => .and)
    (.conjunction (forms_negation hinner hb)) hfold

theorem forms_disjunction (h : Parsed.Gives (disjunction o s inner) a u) :
    Forms o .disjunction s [a] u := by
  obtain ⟨b, v, hb, hfold⟩ := gives_disjunction.1 h
  exact forms_chain (l := .conjunction) (g := fun a => [a]) hinner (fun _ _ _ _ _ => .or)
    (.disjunction (forms_conjunction hinner hb)) hfold

end

/-- Every construct that is read follows its rule. -/
theorem forms_level (l : Level) (h : Parsed.Gives (level o l s) a u) :
    Forms o l.rule s [a] u := by
  induction hsize : Position.size s using Nat.strongRecOn generalizing l s a u with
  | ind k ih =>
    -- Inside there are fewer tokens left, so the rules are followed there already.
    have hinner : InnerForms o (n := Position.size s) fun l t _ => level o l t := by
      rintro l t a u ⟨hlt, ha⟩
      exact ih (Position.size t) (hsize ▸ hlt) l ha rfl
    rw [level] at h
    cases l with
    | disjunction => exact forms_disjunction hinner h
    | conjunction => exact forms_conjunction hinner h
    | negation => exact forms_negation hinner h
    | factor => exact forms_factor hinner h

end ProjectAnalysis.Expr
