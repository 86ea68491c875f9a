import ProjectAnalysis.ExprCondition
import ProjectAnalysis.Proofs.ReaderRun

/-! Readers of tokens over the list of the tokens that are left. A text whose tokens are all in
order is passed token by token, so whatever a reader does depends on that list alone. -/
namespace ProjectAnalysis.Expr

/-- The current token and all after it are these. -/
def TokenStream.Holds (s : TokenStream) (ts : List Token) : Prop :=
  s.remaining = .ok ts

/-- The kind of the first token; that of the end if there is none. -/
def headKind : List Token → TokenKind
  | [] => .finish
  | t :: _ => t.kind

namespace TokenStream

variable {s s' : TokenStream} {t : Token} {ts : List Token}

theorem holds_cons_iff : s.Holds (t :: ts) ↔
    s.atEnd = false ∧ s.current = t ∧ ∃ s', s.step = (s', none) ∧ s'.Holds ts := by
  unfold Holds
  rw [remaining]
  constructor
  · intro h
    split at h
    · cases h
    · rename_i hend
      split at h
      · cases h
      · rename_i s' hstep
        split at h
        · cases h
        · rename_i rest hrest
          obtain ⟨rfl, rfl⟩ := List.cons.inj (Except.ok.inj h)
          exact ⟨Bool.not_eq_true _ ▸ hend, rfl, s', hstep, hrest⟩
  · rintro ⟨hend, rfl, s', hstep, hrest⟩
    rw [hend, if_neg Bool.false_ne_true]
    split
    · rename_i hfault
      rw [hstep] at hfault
      cases hfault
    · rename_i s'' hstep'
      obtain rfl : s' = s'' := congrArg Prod.fst (hstep.symm.trans hstep')
      rw [hrest]

theorem holds_nil_iff : s.Holds [] ↔ s.atEnd = true := by
  unfold Holds
  rw [remaining]
  constructor
  · intro h
    split at h
    · assumption
    · split at h
      · cases h
      · split at h <;> cases h
  · intro hend
    rw [if_pos hend]

theorem Holds.atEnd_iff (h : s.Holds ts) : s.atEnd = true ↔ ts = [] := by
  cases ts with
  | nil => simp [holds_nil_iff.1 h]
  | cons t ts => simp [(holds_cons_iff.1 h).1]

theorem Holds.kind (h : s.Holds ts) : s.current.kind = headKind ts := by
  cases ts with
  | nil => exact of_decide_eq_true (holds_nil_iff.1 h)
  | cons t ts =>
    obtain ⟨-, rfl, -⟩ := holds_cons_iff.1 h
    rfl

/-- There is a token of the kind, which is not that of the end. -/
theorem Holds.exists_cons {kind : TokenKind} (h : s.Holds ts) (hkind : s.current.kind = kind)
    (hfinish : kind ≠ .finish) : ∃ rest, ts = s.current :: rest := by
  cases ts with
  | nil =>
    have hend := h.kind
    exact absurd (hkind.symm.trans hend) hfinish
  | cons t rest =>
    obtain ⟨-, rfl, -⟩ := holds_cons_iff.1 h
    exact ⟨rest, rfl⟩

end TokenStream

section
variable {n : Nat} {s u : TokenStream} {ts : List Token} {kind : TokenKind}

theorem gives_advance {a : Unit} : Parsed.Gives (advance s) a u ↔ s.step = (u, none) := by
  unfold advance
  constructor
  · rintro ⟨r, hr, -, rfl⟩
    split at hr
    · cases hr
    · rename_i t hstep
      obtain rfl := Except.ok.inj hr
      exact hstep
  · intro hstep
    split
    · rename_i hfault
      rw [hstep] at hfault
      cases hfault
    · rename_i t hstep'
      obtain rfl : u = t := congrArg Prod.fst (hstep.symm.trans hstep')
      exact ⟨_, rfl, rfl, rfl⟩

theorem holds_of_advance {t : Token} {a : Unit} (h : s.Holds (t :: ts))
    (hu : Parsed.Gives (advance s) a u) : u.Holds ts := by
  obtain ⟨-, -, s', hstep, hs'⟩ := TokenStream.holds_cons_iff.1 h
  obtain rfl : s' = u := congrArg Prod.fst (hstep.symm.trans (gives_advance.1 hu))
  exact hs'

/-- The first of the tokens is the current one, and going on leaves the others. -/
theorem exists_advance {t : Token} (h : s.Holds (t :: ts)) :
    s.current = t ∧ ∃ u, Parsed.Gives (advance s) () u ∧ u.Holds ts := by
  obtain ⟨-, hcurrent, u, hstep, hu⟩ := TokenStream.holds_cons_iff.1 h
  exact ⟨hcurrent, u, gives_advance.2 hstep, hu⟩

/-- Going on to the next token, as a step. -/
def advancing : Step TokenStream Fault n Unit := fun s _ => advance s

theorem gives_advancing {a : Unit} : (advancing : Step _ _ n _).Gives s a u ↔
    Position.size s < n ∧ Parsed.Gives (advance s) () u := by
  constructor
  · rintro ⟨h, hu⟩
    exact ⟨h, hu⟩
  · rintro ⟨h, hu⟩
    exact ⟨h, hu⟩

theorem gives_nextToken {a : Unit} : (nextToken : TokenRead n Unit).Gives s a u ↔
    Position.size s < n ∧ Parsed.Gives (advance s) () u := by
  have hread : (nextToken : TokenRead n Unit) = advancing.read := rfl
  rw [hread, Step.gives_read, gives_advancing]

/-- The token that a branch begins with, as it is at one place. -/
def onTokenAt (n : Nat) (kind : TokenKind) (t : Token) : Branch TokenStream Fault n Token :=
  (advancing.branch fun s => decide (s.current.kind = kind)).andThen fun _ => pure t

theorem takes_onToken {t : Token} : (onToken kind : Branch _ _ n _).Takes s t u ↔
    Position.size s < n ∧ s.current.kind = kind ∧ t = s.current ∧
      Parsed.Gives (advance s) () u := by
  have hbranch : (onToken kind : Branch _ _ n _).Takes s t u ↔
      (onTokenAt n kind s.current).Takes s t u := Iff.rfl
  rw [hbranch, onTokenAt, Branch.takes_andThen]
  simp only [Step.takes_branch, gives_advancing, Reader.gives_pure, decide_eq_true_eq]
  constructor
  · rintro ⟨_, v, ⟨hkind, h, hv⟩, -, rfl, rfl⟩
    exact ⟨h, hkind, rfl, hv⟩
  · rintro ⟨h, hkind, rfl, hv⟩
    exact ⟨(), u, ⟨hkind, h, hv⟩, Nat.lt_trans hv.size_lt h, rfl, rfl⟩

theorem passes_onToken : (onToken kind : Branch _ _ n _).Passes s ↔
    Position.size s < n ∧ s.current.kind ≠ kind := by
  have hbranch : (onToken kind : Branch _ _ n _).Passes s ↔
      (onTokenAt n kind s.current).Passes s := Iff.rfl
  rw [hbranch, onTokenAt, Branch.passes_andThen, Step.passes_branch, decide_eq_false_iff_not]

theorem gives_currentToken {t : Token} : (currentToken : TokenRead n Token).Gives s t u ↔
    Position.size s < n ∧ s.current = t ∧ s = u := by
  rw [currentToken, Reader.gives_bind]
  simp only [Reader.gives_place, Reader.gives_pure]
  constructor
  · rintro ⟨_, v, ⟨h, rfl, rfl⟩, -, rfl, rfl⟩
    exact ⟨h, rfl, rfl⟩
  · rintro ⟨h, rfl, rfl⟩
    exact ⟨s, s, ⟨h, rfl, rfl⟩, h, rfl, rfl⟩

theorem gives_expectToken {a : Unit} : (expectToken kind : TokenRead n Unit).Gives s a u ↔
    Position.size s < n ∧ s.current.kind = kind ∧ Parsed.Gives (advance s) () u := by
  rw [expectToken, Reader.gives_bind]
  simp only [gives_currentToken]
  constructor
  · rintro ⟨_, v, ⟨h, rfl, rfl⟩, hthen⟩
    split at hthen
    · rename_i hkind
      exact ⟨h, hkind, (gives_nextToken.1 hthen).2⟩
    · exact absurd hthen (Reader.not_gives_fail _ _)
  · rintro ⟨h, hkind, hu⟩
    refine ⟨s.current, s, ⟨h, rfl, rfl⟩, ?_⟩
    rw [if_pos hkind]
    exact gives_nextToken.2 ⟨h, hu⟩

theorem gives_ofExcept {α : Type} {result : Except Fault α} {a : α} :
    (ofExcept result : TokenRead n α).Gives s a u ↔
      Position.size s < n ∧ result = .ok a ∧ s = u := by
  unfold ofExcept
  split
  · rename_i fault
    constructor
    · exact fun h => absurd h (Reader.not_gives_fail _ _)
    · rintro ⟨-, h, -⟩
      cases h
  · rw [Reader.gives_pure, Except.ok.injEq]

theorem fails_ofExcept {α : Type} {result : Except Fault α} {fault : Fault}
    (hs : Position.size s < n) (h : result = .error fault) :
    (ofExcept result : TokenRead n α).Fails s fault := by
  subst h
  exact ⟨hs, rfl⟩

end

end ProjectAnalysis.Expr
