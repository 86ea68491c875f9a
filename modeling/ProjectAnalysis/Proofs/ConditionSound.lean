import ProjectAnalysis.Proofs.ConditionForm

/-! Where there are no references outside of quotes, a construct is made of tokens alone: it is what
the grammar derives from the first of the tokens that are left, and the others are left behind it. -/
namespace ProjectAnalysis.Expr

/-- No token begins a reference. -/
def Plain (ts : List Token) : Prop :=
  ∀ t ∈ ts, t.kind.isReference = false

theorem Plain.right {ts us : List Token} (h : Plain (ts ++ us)) : Plain us :=
  fun t ht => h t (List.mem_append_right ts ht)

theorem Plain.tail {t : Token} {ts : List Token} (h : Plain (t :: ts)) : Plain ts :=
  fun t' ht' => h t' (List.mem_cons_of_mem t ht')

theorem Plain.current {s : TokenStream} {ts : List Token} (h : Plain ts) (hs : s.Holds ts) :
    s.current.kind.isReference = false := by
  cases ts with
  | nil =>
    rw [hs.kind]
    rfl
  | cons t ts =>
    rw [hs.kind]
    exact h t List.mem_cons_self

/-- The first of some tokens make up a construct, and at `u` the others are left. -/
def Found (o : Options) (rule : Rule) (ts : List Token) (nodes : List Node) (u : TokenStream) :
    Prop :=
  ∃ us rest, ts = us ++ rest ∧ u.Holds rest ∧ Derives (Stands o) rule us nodes

variable {o : Options} {s u : TokenStream} {ts : List Token} {a : Node}

theorem Found.imp {rule rule' : Rule} {nodes nodes' : List Node} (h : Found o rule ts nodes u)
    (himp : ∀ us, Derives (Stands o) rule us nodes → Derives (Stands o) rule' us nodes') :
    Found o rule' ts nodes' u := by
  obtain ⟨us, rest, hts, hu, hderives⟩ := h
  exact ⟨us, rest, hts, hu, himp us hderives⟩

/-- A token that is not the last and a construct behind it. -/
theorem found_operand {rule : Rule} {v : TokenStream} {nodes : List Node} (hs : s.Holds ts)
    (hplain : Plain ts) (hkind : s.current.kind ≠ .finish) (hv : Parsed.Gives (advance s) () v)
    (h : ∀ us, v.Holds us → Plain us → Found o rule us nodes u) :
    ∃ us rest, ts = s.current :: (us ++ rest) ∧ u.Holds rest ∧
      Derives (Stands o) rule us nodes := by
  obtain ⟨more, rfl⟩ := hs.exists_cons rfl hkind
  obtain ⟨us, rest, rfl, hu, hderives⟩ := h more (holds_of_advance hs hv) hplain.tail
  exact ⟨us, rest, rfl, hu, hderives⟩

/-- A construct, a token that is not the last, and a construct behind it. -/
theorem found_operands {left right rule : Rule} {t v : TokenStream} {nodes more all : List Node}
    (hplain : Plain ts) (hleft : Found o left ts nodes t) (hkind : t.current.kind ≠ .finish)
    (hv : Parsed.Gives (advance t) () v)
    (hright : ∀ us, v.Holds us → Plain us → Found o right us more u)
    (hstep : ∀ us vs, Derives (Stands o) left us nodes → Derives (Stands o) right vs more →
      Derives (Stands o) rule (us ++ t.current :: vs) all) : Found o rule ts all u := by
  obtain ⟨us, rest, rfl, ht, hderives⟩ := hleft
  obtain ⟨vs, rest, rfl, hu, hmore⟩ := found_operand ht hplain.right hkind hv hright
  refine ⟨us ++ t.current :: vs, rest, ?_, hu, hstep us vs hderives hmore⟩
  rw [List.append_assoc, List.cons_append]

/-- One token that is a whole factor. -/
theorem found_token (hs : s.Holds ts) (hkind : s.current.kind ≠ .finish)
    (hu : Parsed.Gives (advance s) () u) (h : Derives (Stands o) .factor [s.current] [a]) :
    Found o .factor ts [a] u := by
  obtain ⟨more, rfl⟩ := hs.exists_cons rfl hkind
  exact ⟨[s.current], more, rfl, holds_of_advance hs hu, h⟩

theorem Forms.found {rule : Rule} {nodes : List Node} (h : Forms o rule s nodes u)
    (hs : s.Holds ts) (hplain : Plain ts) : Found o rule ts nodes u := by
  have hne {t : TokenStream} {kind : TokenKind} (ht : t.current.kind = kind)
      (hkind : kind ≠ .finish) : t.current.kind ≠ .finish := ht ▸ hkind
  induction h generalizing ts with
  | disjunction _ ih => exact (ih hs hplain).imp fun _ => .disjunction
  | conjunction _ ih => exact (ih hs hplain).imp fun _ => .conjunction
  | negation _ ih => exact (ih hs hplain).imp fun _ => .negation
  | relation _ ih => exact (ih hs hplain).imp fun _ => .relation
  | arguments _ ih => exact (ih hs hplain).imp fun _ => .arguments
  | factors _ ih => exact (ih hs hplain).imp fun _ => .factors
  | or _ ht hu _ ihleft ihright =>
    exact found_operands hplain (ihleft hs hplain) (hne ht nofun) hu (fun _ => ihright)
      fun _ _ hleft hright => .or hleft ht hright
  | and _ ht hu _ ihleft ihright =>
    exact found_operands hplain (ihleft hs hplain) (hne ht nofun) hu (fun _ => ihright)
      fun _ _ hleft hright => .and hleft ht hright
  | comma _ ht hu _ ihleft ihright =>
    exact found_operands hplain (ihleft hs hplain) (hne ht nofun) hu (fun _ => ihright)
      fun _ _ hleft hright => .comma hleft ht hright
  | comparison _ ht hu _ ihleft ihright =>
    refine found_operands hplain (ihleft hs hplain) (fun hkind => ?_) hu (fun _ => ihright)
      fun _ _ hleft hright => .comparison hleft ht hright
    rw [hkind] at ht
    cases ht
  | not hkind ht _ ih =>
    obtain ⟨us, rest, rfl, hu, hderives⟩ := found_operand hs hplain (hne hkind nofun) ht fun _ => ih
    exact ⟨_ :: us, rest, rfl, hu, .not hkind hderives⟩
  | number hkind hu => exact found_token hs (hne hkind nofun) hu (.number hkind)
  | quoted hkind hquoted hcontent hu =>
    exact found_token hs (hne hkind nofun) hu (.quoted hkind hquoted hcontent)
  | word hkind hbare hu => exact found_token hs (hne hkind nofun) hu (.word hkind hbare)
  | parentheses hkind ht _ hright hv ih =>
    obtain ⟨us, rest, rfl, hu, hderives⟩ := found_operand hs hplain (hne hkind nofun) ht fun _ => ih
    obtain ⟨rest, rfl⟩ := hu.exists_cons hright TokenKind.noConfusion
    refine ⟨_ :: (us ++ [_]), rest, ?_, holds_of_advance hu hv, .parentheses hkind hderives hright⟩
    simp
  | call hkind hbare ht hleft hu _ hright hw ih =>
    obtain ⟨more, rfl⟩ := hs.exists_cons hkind TokenKind.noConfusion
    have hmore := holds_of_advance hs ht
    obtain ⟨us, rest, rfl, hv, hderives⟩ :=
      found_operand hmore hplain.tail (hne hleft nofun) hu fun _ => ih
    obtain ⟨rest, rfl⟩ := hv.exists_cons hright TokenKind.noConfusion
    refine ⟨_ :: _ :: (us ++ [_]), rest, ?_, holds_of_advance hv hw,
      .call hkind hbare hleft hderives hright⟩
    simp
  | reference hslice _ _ _ =>
    -- The sigil of a reference is one of the tokens.
    have hplain := hplain.current hs
    rw [hslice.1] at hplain
    cases hplain
  | noArguments => exact ⟨[], ts, rfl, hs, .noArguments⟩

/-- Every construct that is read follows its rule. -/
theorem found_level (l : Level) (hs : s.Holds ts) (hplain : Plain ts)
    (h : Parsed.Gives (level o l s) a u) : Found o l.rule ts [a] u :=
  (forms_level l h).found hs hplain

end ProjectAnalysis.Expr
