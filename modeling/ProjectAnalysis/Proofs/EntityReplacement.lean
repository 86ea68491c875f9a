import Mathlib.Logic.Basic
import ProjectAnalysis.XmlOffsetMap

/-! What the references of a text stand for, as a relation between the text and its value, and what
becomes of a text that is appended to a value: character by character and reference by reference,
up to a reference that stands for nothing. -/
namespace ProjectAnalysis.Xml

/-- What is written is a reference, from `&` to `;`, to this character. -/
def Refers (written : List Char) (value : Char) : Prop :=
  ∃ name start, written = '&' :: (name ++ [';']) ∧ (∀ x ∈ name, isEntityEnd x = false) ∧
    entity start name = .ok value

/-- A text has this value: its references stand for their characters, and all else for itself. -/
inductive Replaces : List Char → List Char → Prop
  | nil : Replaces [] []
  | char {c : Char} {cs vs : List Char} (hc : c ≠ '&') (behind : Replaces cs vs) :
      Replaces (c :: cs) (c :: vs)
  | reference {written cs vs : List Char} {v : Char} (h : Refers written v)
      (behind : Replaces cs vs) : Replaces (written ++ cs) (v :: vs)

/-- There is an `&` at the front, and no reference. -/
def Faulty (raw : List Char) : Prop :=
  raw.head? = some '&' ∧ ∀ written v rest, raw = written ++ rest → ¬Refers written v

variable {cs raw vs ws name rest written : List Char} {v : Char} {k base : Nat} {m : Mapped}

/-- What a name stands for does not depend on its place. -/
theorem entity_ok (h : entity k name = .ok v) (start : Nat) : entity start name = .ok v := by
  unfold entity at h ⊢
  split at h
  · exact h
  · split at h
    · exact h
    · cases h

theorem entityEnd_semicolon : isEntityEnd ';' = true := rfl

theorem takeWhile_name (h : ∀ x ∈ name, isEntityEnd x = false) :
    (name ++ ';' :: rest).takeWhile (!isEntityEnd ·) = name := by
  rw [List.takeWhile_append_of_pos fun x hx => by rw [h x hx]; rfl,
    List.takeWhile_cons_of_neg (by rw [entityEnd_semicolon]; exact Bool.false_ne_true),
    List.append_nil]

theorem dropWhile_name (h : ∀ x ∈ name, isEntityEnd x = false) :
    (name ++ ';' :: rest).dropWhile (!isEntityEnd ·) = ';' :: rest := by
  rw [List.dropWhile_append_of_pos fun x hx => by rw [h x hx]; rfl,
    List.dropWhile_cons_of_neg (by rw [entityEnd_semicolon]; exact Bool.false_ne_true)]

theorem takeWhile_not_entityEnd (cs : List Char) :
    ∀ x ∈ cs.takeWhile (!isEntityEnd ·), isEntityEnd x = false := by
  intro x hx
  simpa using List.all_eq_true.1 List.all_takeWhile x hx

section
variable {α : Type} {x : Except EntityFault α} {f : α → List Char}

theorem bind_return_eq_ok : (x >>= fun a => return f a) = .ok vs ↔ ∃ a, x = .ok a ∧ f a = vs := by
  cases x with
  | error e => simp [bind, Except.bind]
  | ok a => simp [bind, Except.bind, pure, Except.pure]

end

theorem unescapeFrom_char {c : Char} (hc : c ≠ '&') : unescapeFrom k (c :: cs) = .ok vs ↔
    ∃ tail, unescapeFrom (k + c.utf8Size) cs = .ok tail ∧ c :: tail = vs := by
  rw [unescapeFrom, if_neg hc]
  exact bind_return_eq_ok

theorem unescapeFrom_reference (h : Refers written v) : unescapeFrom k (written ++ cs) = .ok vs ↔
    ∃ tail, unescapeFrom (k + byteLength written) cs = .ok tail ∧ v :: tail = vs := by
  obtain ⟨name, start, rfl, hname, hentity⟩ := h
  have hwritten : '&' :: (name ++ [';']) ++ cs = '&' :: (name ++ ';' :: cs) := by simp
  have hwidth : k + byteLength ('&' :: (name ++ [';'])) = k + 1 + byteLength name + 1 := by
    simp only [byteLength_cons, byteLength_append, byteLength_nil]
    change k + (1 + (byteLength name + (1 + 0))) = _
    omega
  rw [hwritten, hwidth, unescapeFrom, if_pos rfl]
  split
  · rename_i tail htail
    rw [dropWhile_name hname] at htail
    obtain rfl := (List.cons.inj htail).2
    dsimp only
    rw [takeWhile_name hname, entity_ok hentity]
    exact bind_return_eq_ok
  · rename_i hnone
    exact absurd (dropWhile_name hname) (hnone cs)

/-- At an `&` there is a reference, or the text has no value. -/
theorem unescapeFrom_amp (h : unescapeFrom k ('&' :: cs) = .ok vs) :
    ∃ written v rest, '&' :: cs = written ++ rest ∧ Refers written v := by
  rw [unescapeFrom, if_pos rfl] at h
  split at h
  · rename_i tail htail
    dsimp only at h
    cases hentity : entity (k + 1) (cs.takeWhile (!isEntityEnd ·)) with
    | error fault =>
      rw [hentity] at h
      cases h
    | ok v =>
      refine ⟨_, v, tail, ?_, _, _, rfl, takeWhile_not_entityEnd cs, hentity⟩
      have hcs := List.takeWhile_append_dropWhile (p := (!isEntityEnd ·)) (l := cs)
      rw [htail] at hcs
      simp [hcs]
  · cases h

/-- A text begins with a character that stands for itself, with a reference, or with an `&` that
belongs to none. -/
theorem raw_cases (raw : List Char) : raw = [] ∨ (∃ c cs, raw = c :: cs ∧ c ≠ '&') ∨
    (∃ written v cs, raw = written ++ cs ∧ Refers written v) ∨ Faulty raw := by
  cases raw with
  | nil => exact Or.inl rfl
  | cons c cs =>
    by_cases hc : c = '&'
    · subst hc
      by_cases h : ∃ written v rest, '&' :: cs = written ++ rest ∧ Refers written v
      · exact Or.inr (Or.inr (Or.inl h))
      · refine Or.inr (Or.inr (Or.inr ⟨rfl, fun written v rest hraw hrefers => ?_⟩))
        exact h ⟨written, v, rest, hraw, hrefers⟩
    · exact Or.inr (Or.inl ⟨c, cs, rfl, hc⟩)

theorem Refers.length_pos (h : Refers written v) : 0 < written.length := by
  obtain ⟨name, start, rfl, -⟩ := h
  exact Nat.succ_pos _

/-- An induction that goes from the front over characters and references. -/
theorem raw_induction {motive : List Char → Prop} (nil : motive [])
    (char : ∀ c cs, c ≠ '&' → motive cs → motive (c :: cs))
    (reference : ∀ written v cs, Refers written v → motive cs → motive (written ++ cs))
    (faulty : ∀ raw, Faulty raw → motive raw) (raw : List Char) : motive raw := by
  induction hlength : raw.length using Nat.strongRecOn generalizing raw with
  | ind k ih =>
    rcases raw_cases raw with rfl | ⟨c, cs, rfl, hc⟩ | ⟨written, v, cs, rfl, h⟩ | h
    · exact nil
    · refine char c cs hc (ih cs.length ?_ cs rfl)
      rw [← hlength]
      exact Nat.lt_succ_self _
    · refine reference written v cs h (ih cs.length ?_ cs rfl)
      have hpos := h.length_pos
      rw [List.length_append] at hlength
      omega
    · exact faulty raw h

/-- The value of a text is what its references are replaced by. -/
theorem unescapeFrom_eq_ok : unescapeFrom k raw = .ok vs ↔ Replaces raw vs := by
  constructor
  · intro h
    induction raw using raw_induction generalizing k vs with
    | nil =>
      rw [unescapeFrom] at h
      obtain rfl := Except.ok.inj h
      exact .nil
    | char c cs hc ih =>
      obtain ⟨tail, htail, rfl⟩ := (unescapeFrom_char hc).1 h
      exact .char hc (ih htail)
    | reference written v cs hrefers ih =>
      obtain ⟨tail, htail, rfl⟩ := (unescapeFrom_reference hrefers).1 h
      exact .reference hrefers (ih htail)
    | faulty raw hfaulty =>
      obtain ⟨hhead, hnone⟩ := hfaulty
      obtain ⟨cs, rfl⟩ := List.head?_eq_some_iff.1 hhead
      obtain ⟨written, v, rest, hraw, hrefers⟩ := unescapeFrom_amp h
      exact absurd hrefers (hnone written v rest hraw)
  · intro h
    induction h generalizing k with
    | nil => rw [unescapeFrom]
    | char hc _ ih => exact (unescapeFrom_char hc).2 ⟨_, ih, rfl⟩
    | reference hrefers _ ih => exact (unescapeFrom_reference hrefers).2 ⟨_, ih, rfl⟩

theorem unescape_eq_ok : unescape raw = .ok vs ↔ Replaces raw vs :=
  unescapeFrom_eq_ok

theorem replaces_cons_iff {c : Char} (hc : c ≠ '&') :
    Replaces (c :: cs) vs ↔ ∃ tail, Replaces cs tail ∧ c :: tail = vs := by
  rw [← unescape_eq_ok, unescape, unescapeFrom_char hc]
  simp only [unescapeFrom_eq_ok]

theorem replaces_reference_iff (h : Refers written v) :
    Replaces (written ++ cs) vs ↔ ∃ tail, Replaces cs tail ∧ v :: tail = vs := by
  rw [← unescape_eq_ok, unescape, unescapeFrom_reference h]
  simp only [unescapeFrom_eq_ok]

theorem Faulty.not_replaces (h : Faulty raw) : ¬Replaces raw vs := by
  obtain ⟨hhead, hnone⟩ := h
  obtain ⟨cs, rfl⟩ := List.head?_eq_some_iff.1 hhead
  intro hreplaces
  obtain ⟨written, v, rest, hraw, hrefers⟩ := unescapeFrom_amp (unescape_eq_ok.2 hreplaces)
  exact hnone written v rest hraw hrefers

/-- A text has at most one value. -/
theorem Replaces.unique (h : Replaces raw vs) (h' : Replaces raw ws) : vs = ws :=
  Except.ok.inj ((unescape_eq_ok.2 h).symm.trans (unescape_eq_ok.2 h'))

/-- A text is parted where its value is. -/
theorem Replaces.split {xs ys : List Char} (h : Replaces raw (xs ++ ys)) : ∃ before behind,
    raw = before ++ behind ∧ Replaces before xs ∧ Replaces behind ys := by
  induction xs generalizing raw with
  | nil => exact ⟨[], raw, rfl, .nil, h⟩
  | cons x xs ih =>
    cases h with
    | char hc htail =>
      obtain ⟨before, behind, rfl, hbefore, hbehind⟩ := ih htail
      exact ⟨x :: before, behind, rfl, .char hc hbefore, hbehind⟩
    | @reference written cs _ _ hrefers htail =>
      obtain ⟨before, behind, rfl, hbefore, hbehind⟩ := ih htail
      refine ⟨written ++ before, behind, ?_, .reference hrefers hbefore, hbehind⟩
      exact (List.append_assoc written before behind).symm

/-- Behind a text that has a value the value goes on as the text does. -/
theorem replaces_append_iff (h : Replaces raw vs) :
    Replaces (raw ++ rest) ws ↔ ∃ tail, Replaces rest tail ∧ vs ++ tail = ws := by
  induction h generalizing ws with
  | nil => exact ⟨fun h => ⟨ws, h, rfl⟩, fun ⟨_, htail, heq⟩ => heq ▸ htail⟩
  | char hc _ ih =>
    rw [List.cons_append, replaces_cons_iff hc]
    simp only [ih, exists_exists_and_eq_and, List.cons_append]
  | reference hrefers _ ih =>
    rw [List.append_assoc, replaces_reference_iff hrefers]
    simp only [ih, exists_exists_and_eq_and, List.cons_append]

theorem Refers.replaces (h : Refers written v) : Replaces written [v] := by
  have hreplaces := Replaces.reference h .nil
  rwa [List.append_nil] at hreplaces

/-- One character of a value is written as it is, or by a reference. -/
theorem Replaces.single (h : Replaces written [v]) :
    (written = [v] ∧ v ≠ '&') ∨ Refers written v := by
  cases h with
  | char hc htail =>
    cases htail
    exact Or.inl ⟨rfl, hc⟩
  | reference hrefers htail =>
    cases htail
    rw [List.append_nil]
    exact Or.inr hrefers

/-- A reference that is cut off stands for nothing. -/
theorem Refers.not_replaces_cut (h : Refers (written ++ rest) v) (hwritten : written ≠ [])
    (hrest : rest ≠ []) : ¬Replaces written vs := by
  obtain ⟨name, start, hwhole, hname, -⟩ := h
  obtain ⟨x, part, rfl⟩ := List.exists_cons_of_ne_nil hwritten
  obtain ⟨rfl, hpart⟩ := List.cons.inj hwhole
  -- Without its last character the reference has no `;`.
  have hopen : ∀ y ∈ part, isEntityEnd y = false := by
    intro y hy
    apply hname
    rcases List.append_eq_append_iff.1 hpart with ⟨u, rfl, -⟩ | ⟨u, rfl, hu⟩
    · exact List.mem_append_left u hy
    · rcases List.append_eq_singleton_iff.1 hu.symm with ⟨rfl, -⟩ | ⟨-, hnone⟩
      · rwa [List.append_nil] at hy
      · exact absurd hnone hrest
  intro hreplaces
  obtain ⟨_, _, more, hraw, name', _, rfl, -⟩ := unescapeFrom_amp (unescape_eq_ok.2 hreplaces)
  have hmem : ';' ∈ part := by
    rw [(List.cons.inj hraw).2]
    simp
  exact absurd (hopen _ hmem) (by decide)

theorem number_ne_nil {radix k : Nat} {digits : List Char} (h : number radix digits = .ok k) :
    digits ≠ [] := by
  rintro rfl
  cases h

/-- A number that is written with one digit is smaller than its radix. -/
theorem number_single {radix k : Nat} {c : Char} (h : number radix [c] = .ok k) : k < radix := by
  have hone : numberFrom radix 0 [c] = .ok k := by
    unfold number at h
    dsimp only at h
    split at h
    · cases h
    · exact h
  have hread : numberFrom radix 0 [c] = (digitValue? radix c).elim (.error .digit) fun d =>
      if 0 * radix + d < 2 ^ 32 then .ok (0 * radix + d) else .error .tooLarge := by
    -- The recursion itself, as the instance of the power in its equation depends on the imports.
    delta numberFrom numberFrom._f
    dsimp only
    cases digitValue? radix c <;> rfl
  rw [hread] at hone
  cases hdigit : digitValue? radix c with
  | none =>
    rw [hdigit] at hone
    cases hone
  | some d =>
    have hlt := (Option.filter_eq_some_iff.1 hdigit).2
    rw [hdigit, Option.elim_some] at hone
    split at hone
    · obtain rfl := Except.ok.inj hone
      rw [Nat.zero_mul, Nat.zero_add]
      exact of_decide_eq_true hlt
    · cases hone

theorem numberedChar_eq_ok {digits : List Char} (h : numberedChar digits = .ok v) : ∃ k,
    v = Char.ofNat k ∧
      ((∃ more, digits = 'x' :: more ∧ number 16 more = .ok k) ∨ number 10 digits = .ok k) := by
  have hread {x : Except NumberFault Nat} (h : (do
        let value ← x
        if value = 0 then throw .zero
        if value.isValidChar then return Char.ofNat value else throw (.notACharacter value) :
          Except NumberFault Char) = .ok v) : ∃ k, x = .ok k ∧ v = Char.ofNat k := by
    cases x with
    | error fault => cases h
    | ok k =>
      refine ⟨k, rfl, ?_⟩
      simp only [bind, Except.bind] at h
      split at h
      · cases h
      · split at h
        · exact (Except.ok.inj h).symm
        · cases h
  unfold numberedChar at h
  split at h
  · obtain ⟨k, hk, hv⟩ := hread h
    exact ⟨k, hv, Or.inl ⟨_, rfl, hk⟩⟩
  · obtain ⟨k, hk, hv⟩ := hread h
    exact ⟨k, hv, Or.inr hk⟩

/-- One digit gives a character of one byte, and no character has more than four bytes. -/
theorem numberedChar_width {digits : List Char} (h : numberedChar digits = .ok v) :
    v.utf8Size < byteLength digits + 3 := by
  have hfour := v.utf8Size_le_four
  obtain ⟨k, rfl, ⟨more, rfl, hmore⟩ | hdigits⟩ := numberedChar_eq_ok h
  · have hpos := byteLength_pos (number_ne_nil hmore)
    have hx : 'x'.utf8Size = 1 := rfl
    rw [byteLength_cons]
    omega
  · obtain ⟨c, more, rfl⟩ := List.exists_cons_of_ne_nil (number_ne_nil hdigits)
    have hc := c.utf8Size_pos
    rw [byteLength_cons]
    cases more with
    | nil =>
      have hascii : ∀ k < 10, (Char.ofNat k).utf8Size = 1 := by decide
      rw [hascii k (number_single hdigits)]
      omega
    | cons d more =>
      have hd := d.utf8Size_pos
      rw [byteLength_cons]
      omega

theorem predefined?_width {name : List Char} (h : predefined? name = some v) :
    v.utf8Size < byteLength name := by
  unfold predefined? at h
  repeat' split at h
  any_goals
    rename_i hname
    subst hname
    obtain rfl := Option.some.inj h
    decide
  cases h

/-- A reference is wider than the character it stands for. -/
theorem Refers.width_lt (h : Refers written v) : v.utf8Size < byteLength written := by
  obtain ⟨name, start, rfl, -, hentity⟩ := h
  have hwidth : byteLength ('&' :: (name ++ [';'])) = byteLength name + 2 := by
    rw [byteLength_cons, byteLength_append]
    exact Nat.add_comm 1 (byteLength name + 1)
  rw [hwidth]
  unfold entity at hentity
  split at hentity
  · rename_i digits
    cases hnumber : numberedChar digits with
    | error fault =>
      rw [hnumber] at hentity
      cases hentity
    | ok c =>
      rw [hnumber] at hentity
      obtain rfl := Except.ok.inj hentity
      have hdigits := numberedChar_width hnumber
      have hhash : '#'.utf8Size = 1 := rfl
      rw [byteLength_cons]
      omega
  · split at hentity
    · rename_i c hname
      obtain rfl := Except.ok.inj hentity
      have hwide := predefined?_width hname
      omega
    · cases hentity

/-- One character takes up no more than its source. -/
theorem Replaces.single_width (h : Replaces written [v]) : v.utf8Size ≤ byteLength written := by
  rcases h.single with ⟨rfl, -⟩ | hrefers
  · exact Nat.le_refl _
  · exact Nat.le_of_lt hrefers.width_lt

/-- A text with no `&`, up to one or to the end. -/
theorem span_plain (rest : List Char) (h : '&' ∉ cs)
    (hrest : ∀ x, rest.head? = some x → x = '&') :
    (cs ++ rest).takeWhile (· != '&') = cs ∧ (cs ++ rest).dropWhile (· != '&') = rest := by
  have hcs : ∀ x ∈ cs, (x != '&') = true := by
    intro x hx
    exact bne_iff_ne.2 fun heq => h (heq ▸ hx)
  rw [List.takeWhile_append_of_pos hcs, List.dropWhile_append_of_pos hcs]
  cases rest with
  | nil => simp
  | cons x tail =>
    obtain rfl := hrest x rfl
    simp

/-- A text has no `&`, or there is a first one. -/
theorem exists_plain (raw : List Char) :
    ∃ plain rest, raw = plain ++ rest ∧ '&' ∉ plain ∧ ∀ x, rest.head? = some x → x = '&' := by
  refine ⟨raw.takeWhile (· != '&'), raw.dropWhile (· != '&'),
    List.takeWhile_append_dropWhile.symm, fun h => ?_, fun x hx => ?_⟩
  · have hamp := List.all_eq_true.1 List.all_takeWhile '&' h
    exact absurd rfl (bne_iff_ne.1 hamp)
  · have hstop := List.head?_dropWhile_not (· != '&') raw
    rw [hx] at hstop
    simpa using hstop

namespace Mapped

variable {plain escaped : List Char}

theorem append_nil (m : Mapped) : m.append [] = m := by
  simp [append]

theorem append_append (m : Mapped) (a b : List Char) :
    (m.append a).append b = m.append (a ++ b) := by
  simp [append]

theorem appendRest_plain (h : '&' ∉ plain) :
    m.appendRest base plain = (m.append plain, none) := by
  obtain ⟨htake, hdrop⟩ := span_plain [] h nofun
  rw [List.append_nil] at htake hdrop
  rw [appendRest]
  split
  · rw [htake]
  · rename_i hamp
    rw [hdrop] at hamp
    cases hamp

/-- Appending goes on behind the first `&` if there is a reference. -/
theorem appendRest_amp (h : '&' ∉ plain) : m.appendRest base (plain ++ '&' :: escaped) =
    let k := referenceLength ('&' :: escaped)
    match unescape (('&' :: escaped).take k) with
    | .error fault => (m.append plain, some fault)
    | .ok value =>
      let base := base + byteLength plain + byteLength (('&' :: escaped).take k)
      (((m.append plain).append value).anchor base).appendRest base (('&' :: escaped).drop k) := by
  obtain ⟨htake, hdrop⟩ := span_plain ('&' :: escaped) h fun x hx =>
    (Option.some.inj hx).symm
  rw [appendRest, htake]
  split
  · rename_i hnil
    rw [hdrop] at hnil
    cases hnil
  · rename_i amp tail hamp
    rw [hdrop] at hamp
    obtain ⟨rfl, rfl⟩ := List.cons.inj hamp
    rfl

theorem appendRest_amp_front (m : Mapped) (base : Nat) (escaped : List Char) :
    m.appendRest base ('&' :: escaped) =
      let k := referenceLength ('&' :: escaped)
      match unescape (('&' :: escaped).take k) with
      | .error fault => (m, some fault)
      | .ok value =>
        let base := base + byteLength (('&' :: escaped).take k)
        ((m.append value).anchor base).appendRest base (('&' :: escaped).drop k) := by
  have hamp : m.appendRest base ([] ++ '&' :: escaped) = _ := appendRest_amp List.not_mem_nil
  rw [append_nil, byteLength_nil, Nat.add_zero] at hamp
  exact hamp

theorem appendRest_nil : m.appendRest base [] = (m, none) := by
  rw [appendRest_plain List.not_mem_nil, append_nil]

theorem appendRest_char {c : Char} (hc : c ≠ '&') : m.appendRest base (c :: raw) =
    (m.append [c]).appendRest (base + c.utf8Size) raw := by
  obtain ⟨plain, rest, rfl, hplain, hrest⟩ := exists_plain raw
  have hmore : '&' ∉ c :: plain := fun h =>
    (List.mem_cons.1 h).elim (fun heq => hc heq.symm) hplain
  rw [← List.cons_append]
  cases rest with
  | nil =>
    rw [List.append_nil, List.append_nil, appendRest_plain hmore, appendRest_plain hplain,
      append_append]
    rfl
  | cons x escaped =>
    obtain rfl := hrest x rfl
    rw [appendRest_amp hmore, appendRest_amp hplain, append_append, byteLength_cons, Nat.add_assoc]
    rfl

/-- Characters without an `&` are appended as they stand. -/
theorem appendRest_plain_append (h : '&' ∉ plain) :
    m.appendRest base (plain ++ raw) =
      (m.append plain).appendRest (base + byteLength plain) raw := by
  induction plain generalizing m base with
  | nil => rw [List.nil_append, append_nil, byteLength_nil, Nat.add_zero]
  | cons c plain ih =>
    obtain ⟨hc, hplain⟩ := not_or.1 (mt List.mem_cons.2 h)
    rw [List.cons_append, appendRest_char (Ne.symm hc), ih hplain, append_append, byteLength_cons,
      Nat.add_assoc]
    rfl

theorem take_reference (h : Refers written v) (hraw : '&' :: escaped = written ++ raw) :
    ('&' :: escaped).take (referenceLength ('&' :: escaped)) = written ∧
      ('&' :: escaped).drop (referenceLength ('&' :: escaped)) = raw := by
  obtain ⟨name, start, rfl, hname, -⟩ := h
  have hbody : ∀ x ∈ '&' :: name, (x != ';') = true := by
    refine List.forall_mem_cons.2 ⟨rfl, fun x hx => bne_iff_ne.2 ?_⟩
    rintro rfl
    cases hname _ hx
  have hlength : referenceLength ('&' :: escaped) = ('&' :: (name ++ [';'])).length := by
    have hwhole : '&' :: escaped = ('&' :: name) ++ ';' :: raw := by simp [hraw]
    rw [referenceLength, hwhole, List.takeWhile_append_of_pos hbody,
      List.takeWhile_cons_of_neg (by simp)]
    simp only [List.length_append, List.length_cons, List.length_nil, List.append_nil]
    omega
  rw [hlength, hraw]
  exact ⟨List.take_left, List.drop_left⟩

theorem appendRest_reference (h : Refers written v) : m.appendRest base (written ++ raw) =
    ((m.append [v]).anchor (base + byteLength written)).appendRest
      (base + byteLength written) raw := by
  obtain ⟨escaped, hraw⟩ : ∃ escaped, '&' :: escaped = written ++ raw := by
    obtain ⟨name, start, rfl, -⟩ := h
    exact ⟨_, rfl⟩
  obtain ⟨htake, hdrop⟩ := take_reference h hraw
  have hvalue : unescape written = .ok [v] := unescape_eq_ok.2 h.replaces
  rw [← hraw, appendRest_amp_front]
  dsimp only
  rw [htake, hdrop, hvalue]

/-- At an `&` that belongs to no reference appending stops. -/
theorem appendRest_faulty (h : Faulty raw) (m : Mapped) (base : Nat) :
    ∃ fault, m.appendRest base raw = (m, some fault) := by
  obtain ⟨hhead, hnone⟩ := h
  obtain ⟨escaped, rfl⟩ := List.head?_eq_some_iff.1 hhead
  rw [appendRest_amp_front]
  dsimp only
  cases hvalue : unescape (('&' :: escaped).take (referenceLength ('&' :: escaped))) with
  | error fault => exact ⟨fault, rfl⟩
  | ok value =>
    -- A reference in the part that was looked at would be one in the whole.
    obtain ⟨k, hk⟩ : ∃ k, referenceLength ('&' :: escaped) = k + 1 := by
      refine Nat.exists_eq_succ_of_ne_zero ?_
      rw [referenceLength, List.length_cons]
      omega
    rw [hk, List.take_succ_cons] at hvalue
    obtain ⟨written, v, rest, hraw, hrefers⟩ := unescapeFrom_amp hvalue
    refine absurd hrefers (hnone written v (rest ++ escaped.drop k) ?_)
    rw [← List.append_assoc, ← hraw, List.cons_append, List.take_append_drop]

/-- Appending gives no fault just if the text has a value, and that is what is appended. -/
theorem appendRest_eq_none : (m.appendRest base raw).2 = none ↔ ∃ vs, Replaces raw vs := by
  induction raw using raw_induction generalizing m base with
  | nil =>
    rw [appendRest_nil]
    exact ⟨fun _ => ⟨[], .nil⟩, fun _ => rfl⟩
  | char c cs hc ih =>
    rw [appendRest_char hc, ih]
    simp only [replaces_cons_iff hc]
    exact ⟨fun ⟨vs, h⟩ => ⟨_, vs, h, rfl⟩, fun ⟨_, vs, h, _⟩ => ⟨vs, h⟩⟩
  | reference written v cs hrefers ih =>
    rw [appendRest_reference hrefers, ih]
    simp only [replaces_reference_iff hrefers]
    exact ⟨fun ⟨vs, h⟩ => ⟨_, vs, h, rfl⟩, fun ⟨_, vs, h, _⟩ => ⟨vs, h⟩⟩
  | faulty raw hfaulty =>
    obtain ⟨fault, hfault⟩ := appendRest_faulty hfaulty m base
    rw [hfault]
    exact ⟨nofun, fun ⟨vs, h⟩ => absurd h hfaulty.not_replaces⟩

theorem appendRest_chars (h : Replaces raw vs) :
    (m.appendRest base raw).1.chars = m.chars ++ vs := by
  induction h generalizing m base with
  | nil =>
    rw [appendRest_nil]
    exact (List.append_nil _).symm
  | char hc _ ih =>
    rw [appendRest_char hc, ih]
    simp [append]
  | reference hrefers _ ih =>
    rw [appendRest_reference hrefers, ih]
    simp [append, anchor]

end Mapped

end ProjectAnalysis.Xml
