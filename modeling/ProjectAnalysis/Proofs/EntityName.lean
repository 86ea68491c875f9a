import Mathlib.Data.List.Forall2
import Mathlib.Data.Nat.Digits.Defs
import ProjectAnalysis.Proofs.EntityReplacement

/-! What stands between `&` and `;` in a reference: one of five names, or the number of a character
in decimal or in hexadecimal digits, and nothing else. -/
namespace ProjectAnalysis.Xml

/-- A digit of the radix, if a letter then of either case, and its value. -/
def IsDigitOf (radix : Nat) (c : Char) (d : Nat) : Prop :=
  d < radix ∧ (c = d.digitChar ∨ c = d.digitChar.toUpper)

/-- Digits of the radix from the left, at least one of them, and the number they spell. -/
def SpellsNumber (radix : Nat) (digits : List Char) (k : Nat) : Prop :=
  digits ≠ [] ∧ ∃ ds, List.Forall₂ (IsDigitOf radix) digits ds ∧ Nat.ofDigits radix ds.reverse = k

/-- What a reference gives the name of. The character zero has none. -/
inductive Denotes : List Char → Char → Prop
  | less : Denotes ['l', 't'] '<'
  | greater : Denotes ['g', 't'] '>'
  | ampersand : Denotes ['a', 'm', 'p'] '&'
  | apostrophe : Denotes ['a', 'p', 'o', 's'] '\''
  | quote : Denotes ['q', 'u', 'o', 't'] '"'
  | decimal {digits : List Char} {v : Char} (h : SpellsNumber 10 digits v.toNat)
      (hv : v.toNat ≠ 0) : Denotes ('#' :: digits) v
  | hexadecimal {digits : List Char} {v : Char} (h : SpellsNumber 16 digits v.toNat)
      (hv : v.toNat ≠ 0) : Denotes ('#' :: 'x' :: digits) v

variable {radix value k d start : Nat} {c v : Char}
  {digits name written : List Char}

theorem digitValue?_digitChar (hradix : radix ≤ 16) (hd : d < radix) :
    digitValue? radix d.digitChar = some d ∧ digitValue? radix d.digitChar.toUpper = some d := by
  have hhexadecimal : ∀ d < 16, digitValue? 16 d.digitChar = some d ∧
      digitValue? 16 d.digitChar.toUpper = some d := by
    decide
  obtain ⟨hlower, hupper⟩ := hhexadecimal d (by omega)
  -- A smaller radix leaves out the digits from it on.
  have hsmaller {c : Char} (h : digitValue? 16 c = some d) : digitValue? radix c = some d := by
    obtain ⟨hvalue, -⟩ := Option.filter_eq_some_iff.1 h
    exact Option.filter_eq_some_iff.2 ⟨hvalue, decide_eq_true hd⟩
  exact ⟨hsmaller hlower, hsmaller hupper⟩

/-- The characters with a value are the digits. -/
theorem digitValue?_eq_some (hradix : radix ≤ 16) :
    digitValue? radix c = some d ↔ IsDigitOf radix c d := by
  constructor
  · intro h
    obtain ⟨hvalue, hlt⟩ := Option.filter_eq_some_iff.1 h
    refine ⟨of_decide_eq_true hlt, ?_⟩
    have hdecimal : ∀ d < 10, d.digitChar.toNat = 48 + d := by decide
    have hletter : ∀ d < 6, (d + 10).digitChar.toNat = 97 + d ∧
        (d + 10).digitChar.toUpper.toNat = 65 + d := by
      decide
    split at hvalue
    · rename_i hdigit
      obtain ⟨hlo, hhi⟩ := Char.isDigit_iff_toNat.1 hdigit
      change 48 ≤ c.toNat at hlo
      change c.toNat ≤ 57 at hhi
      obtain rfl : c.toNat - 48 = d := Option.some.inj hvalue
      left
      rw [← Char.toNat_inj, hdecimal _ (by omega)]
      omega
    · split at hvalue
      · rename_i hlower
        obtain ⟨hlo, hhi⟩ := Bool.and_eq_true_iff.1 hlower
        have hlo : 97 ≤ c.toNat := of_decide_eq_true hlo
        have hhi : c.toNat ≤ 102 := of_decide_eq_true hhi
        obtain rfl : c.toNat - 97 + 10 = d := Option.some.inj hvalue
        left
        rw [← Char.toNat_inj, (hletter _ (by omega)).1]
        omega
      · split at hvalue
        · rename_i hupper
          obtain ⟨hlo, hhi⟩ := Bool.and_eq_true_iff.1 hupper
          have hlo : 65 ≤ c.toNat := of_decide_eq_true hlo
          have hhi : c.toNat ≤ 70 := of_decide_eq_true hhi
          obtain rfl : c.toNat - 65 + 10 = d := Option.some.inj hvalue
          right
          rw [← Char.toNat_inj, (hletter _ (by omega)).2]
          omega
        · cases hvalue
  · rintro ⟨hd, rfl | rfl⟩
    · exact (digitValue?_digitChar hradix hd).1
    · exact (digitValue?_digitChar hradix hd).2

/-- The digits that were read so far make no number greater than the whole. -/
theorem le_foldl_digits (hradix : 0 < radix) (value : Nat) (ds : List Nat) :
    value ≤ ds.foldl (fun n d => n * radix + d) value := by
  induction ds generalizing value with
  | nil => exact Nat.le_refl _
  | cons d ds ih =>
    have hmul := Nat.le_mul_of_pos_right value hradix
    have hrest := ih (value * radix + d)
    rw [List.foldl_cons]
    omega

theorem numberFrom_cons : numberFrom radix value (c :: digits) =
    match digitValue? radix c with
    | none => .error .digit
    | some d =>
      if value * radix + d < 2 ^ 32 then numberFrom radix (value * radix + d) digits
      else .error .tooLarge :=
  rfl

/-- Digits are read as the number they spell, if it has 32 bits. -/
theorem numberFrom_eq_ok (hpos : 0 < radix) (hradix : radix ≤ 16) (hvalue : value < 2 ^ 32) :
    numberFrom radix value digits = .ok k ↔ k < 2 ^ 32 ∧
      ∃ ds, List.Forall₂ (IsDigitOf radix) digits ds ∧
        ds.foldl (fun n d => n * radix + d) value = k := by
  induction digits generalizing value with
  | nil =>
    constructor
    · intro h
      obtain rfl : value = k := Except.ok.inj h
      exact ⟨hvalue, [], .nil, rfl⟩
    · rintro ⟨-, ds, hds, rfl⟩
      cases hds
      rfl
  | cons c digits ih =>
    rw [numberFrom_cons]
    constructor
    · intro h
      cases hdigit : digitValue? radix c with
      | none =>
        rw [hdigit] at h
        cases h
      | some d =>
        rw [hdigit] at h
        dsimp only at h
        split at h
        · rename_i hlt
          obtain ⟨hk, ds, hds, hfold⟩ := (ih hlt).1 h
          exact ⟨hk, d :: ds, .cons ((digitValue?_eq_some hradix).1 hdigit) hds, hfold⟩
        · cases h
    · rintro ⟨hk, _, hds, hfold⟩
      cases hds with
      | @cons _ d _ ds hd hds =>
        -- What is read so far fits, as the whole number does.
        have hle := le_foldl_digits hpos (value * radix + d) ds
        rw [List.foldl_cons] at hfold
        have hlt : value * radix + d < 2 ^ 32 := by omega
        rw [(digitValue?_eq_some hradix).2 hd]
        dsimp only
        rw [if_pos hlt]
        exact (ih hlt).2 ⟨hk, ds, hds, hfold⟩

theorem number_eq_ok (hpos : 0 < radix) (hradix : radix ≤ 16) :
    number radix digits = .ok k ↔ SpellsNumber radix digits k ∧ k < 2 ^ 32 := by
  have hfold (ds : List Nat) :
      Nat.ofDigits radix ds.reverse = ds.foldl (fun n d => n * radix + d) 0 := by
    rw [Nat.ofDigits_eq_foldr, List.foldr_reverse]
    simp [Nat.add_comm, Nat.mul_comm]
  have hnumber : numberFrom radix 0 digits = .ok k ↔ k < 2 ^ 32 ∧
      ∃ ds, List.Forall₂ (IsDigitOf radix) digits ds ∧ Nat.ofDigits radix ds.reverse = k := by
    simp only [hfold]
    exact numberFrom_eq_ok hpos hradix (by decide)
  have hsign {c : Char} (hc : c = '+' ∨ c = '-') (d : Nat) : ¬IsDigitOf radix c d := by
    intro hd
    have hsome := (digitValue?_eq_some hradix).2 hd
    rcases hc with rfl | rfl <;> cases hsome
  cases digits with
  | nil => exact ⟨nofun, fun ⟨⟨hnil, _⟩, _⟩ => absurd rfl hnil⟩
  | cons c digits =>
    unfold number
    dsimp only
    split
    · -- A sign is no digit, so nothing is spelled here.
      rename_i hc
      refine ⟨nofun, fun ⟨⟨_, ds, hds, _⟩, _⟩ => ?_⟩
      cases hds with
      | cons hd _ => exact absurd hd (hsign (by simpa using hc) _)
    · rw [hnumber]
      exact ⟨fun ⟨hk, h⟩ => ⟨⟨List.cons_ne_nil _ _, h⟩, hk⟩, fun ⟨⟨_, h⟩, hk⟩ => ⟨hk, h⟩⟩

/-- A number is taken for the character it is the code of. -/
theorem charOfNumber_eq_ok {x : Except NumberFault Nat} : (do
      let value ← x
      if value = 0 then throw .zero
      if value.isValidChar then return Char.ofNat value else throw (.notACharacter value) :
        Except NumberFault Char) = .ok v ↔ x = .ok v.toNat ∧ v.toNat ≠ 0 := by
  cases x with
  | error fault => exact ⟨nofun, fun ⟨h, _⟩ => nomatch h⟩
  | ok k =>
    simp only [bind, Except.bind, Except.ok.injEq]
    constructor
    · intro h
      split at h
      · cases h
      · rename_i hzero
        split at h
        · rename_i hvalid
          have hcode : (Char.ofNat k).toNat = k := by
            rw [Char.ofNat, dif_pos hvalid]
            rfl
          obtain rfl := Except.ok.inj h
          exact ⟨hcode.symm, hcode.symm ▸ hzero⟩
        · cases h
    · rintro ⟨rfl, hzero⟩
      have hvalid : v.toNat.isValidChar := v.valid
      rw [if_neg hzero, if_pos hvalid, Char.ofNat_toNat]
      rfl

theorem numberedChar_eq_ok_iff : numberedChar digits = .ok v ↔ Denotes ('#' :: digits) v := by
  have hcode : v.toNat < 2 ^ 32 := v.val.toNat_lt
  have hnumber {radix : Nat} {digits : List Char} (hpos : 0 < radix) (hradix : radix ≤ 16) :
      number radix digits = .ok v.toNat ↔ SpellsNumber radix digits v.toNat := by
    rw [number_eq_ok hpos hradix, and_iff_left hcode]
  constructor
  · intro h
    unfold numberedChar at h
    split at h
    · obtain ⟨hread, hzero⟩ := charOfNumber_eq_ok.1 h
      exact .hexadecimal ((hnumber (by decide) (Nat.le_refl 16)).1 hread) hzero
    · obtain ⟨hread, hzero⟩ := charOfNumber_eq_ok.1 h
      exact .decimal ((hnumber (by decide) (by decide)).1 hread) hzero
  · intro h
    unfold numberedChar
    cases h with
    | decimal h hzero =>
      split
      · -- No decimal number begins with `x`.
        obtain ⟨-, ds, hds, -⟩ := h
        cases hds with
        | cons hd _ => cases (digitValue?_eq_some (by decide)).2 hd
      · exact charOfNumber_eq_ok.2 ⟨(hnumber (by decide) (by decide)).2 h, hzero⟩
    | hexadecimal h hzero =>
      exact charOfNumber_eq_ok.2 ⟨(hnumber (by decide) (Nat.le_refl 16)).2 h, hzero⟩

theorem denotes_of_predefined? (h : predefined? name = some v) : Denotes name v := by
  unfold predefined? at h
  repeat' split at h
  any_goals
    rename_i hname
    subst hname
    obtain rfl := Option.some.inj h
    constructor
  cases h

/-- What a reference stands for is what its name denotes. -/
theorem entity_eq_ok_iff : entity start name = .ok v ↔ Denotes name v := by
  have hmap {x : Except NumberFault Char} :
      x.mapError EntityFault.number = .ok v ↔ x = .ok v := by
    cases x <;> simp [Except.mapError]
  constructor
  · intro h
    unfold entity at h
    split at h
    · exact numberedChar_eq_ok_iff.1 (hmap.1 h)
    · split at h
      · rename_i hname
        obtain rfl := Except.ok.inj h
        exact denotes_of_predefined? hname
      · cases h
  · intro h
    cases h with
    | decimal h hzero => exact hmap.2 (numberedChar_eq_ok_iff.2 (.decimal h hzero))
    | hexadecimal h hzero => exact hmap.2 (numberedChar_eq_ok_iff.2 (.hexadecimal h hzero))
    | _ => rfl

/-- No name goes on behind a `;` or an `&`. -/
theorem Denotes.plain (h : Denotes name v) : ∀ x ∈ name, isEntityEnd x = false := by
  have hdigits {radix k : Nat} {digits : List Char} (hradix : radix ≤ 16)
      (h : SpellsNumber radix digits k) : ∀ x ∈ digits, isEntityEnd x = false := by
    have hdigit (x : Char) (d : Nat) (hd : IsDigitOf radix x d) : isEntityEnd x = false := by
      have hsome := (digitValue?_eq_some hradix).2 hd
      cases hend : isEntityEnd x with
      | false => rfl
      | true =>
        have hends : x = '&' ∨ x = ';' := by simpa [isEntityEnd] using hend
        rcases hends with rfl | rfl <;> cases hsome
    obtain ⟨-, ds, hds, -⟩ := h
    exact ((List.forall₂_and_left digits ds).1 (hds.imp fun x d hd => ⟨hdigit x d hd, hd⟩)).1
  cases h with
  | decimal h _ => exact List.forall_mem_cons.2 ⟨rfl, hdigits (by decide) h⟩
  | hexadecimal h _ =>
    exact List.forall_mem_cons.2 ⟨rfl, List.forall_mem_cons.2 ⟨rfl, hdigits (Nat.le_refl 16) h⟩⟩
  | _ => simp [isEntityEnd]

/-- A reference is a name that denotes a character, between `&` and `;`. -/
theorem refers_iff : Refers written v ↔
    ∃ name, written = '&' :: (name ++ [';']) ∧ Denotes name v := by
  constructor
  · rintro ⟨name, start, rfl, -, hentity⟩
    exact ⟨name, rfl, entity_eq_ok_iff.1 hentity⟩
  · rintro ⟨name, rfl, hname⟩
    exact ⟨name, 0, rfl, hname.plain, entity_eq_ok_iff.2 hname⟩

end ProjectAnalysis.Xml
