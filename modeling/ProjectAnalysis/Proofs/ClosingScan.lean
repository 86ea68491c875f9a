import Mathlib.Data.List.Infix
import ProjectAnalysis.Proofs.ParenDepth
import ProjectAnalysis.Proofs.TokenRebase

/-! The scan of a tokenizer for a closing parenthesis. It stops right before the last character of
the shortest prefix that closes the levels, whatever else stands in it, and from there on the
tokenizer goes on as on the rest of its input. -/
namespace ProjectAnalysis.Expr

/-- That many more parentheses are closed than opened. -/
def Closes (depth : Nat) (cs : List Char) : Prop :=
  cs.count ')' = cs.count '(' + depth

instance (depth : Nat) (cs : List Char) : Decidable (Closes depth cs) :=
  inferInstanceAs (Decidable (_ = _))

/-- The shortest of the prefixes that close the levels. -/
structure ShortestClosing (depth : Nat) (cs p : List Char) : Prop where
  starts : p <+: cs
  closes : Closes depth p
  least : ∀ q, q <+: cs → Closes depth q → p.length ≤ q.length

/-- On the parenthesis behind some characters, with the rest to read. -/
def onClosing (c : Cursor) (body behind : List Char) : TokenStream :=
  ⟨⟨.rightParen, ")", c.offset + byteLength body, false⟩,
    ⟨c.offset + byteLength (body ++ [')']), behind⟩⟩

/-- A tokenizer over some input that went through calls of any kind in any order. -/
inductive Tokenizer.InUse : Tokenizer → Prop
  | start (input : String) : InUse (start input).1
  | next {t : Tokenizer} (h : InUse t) : InUse t.next.1
  | expect {t : Tokenizer} (h : InUse t) (kind : TokenKind) : InUse (t.expect kind).1
  | putBack {t : Tokenizer} (h : InUse t) (token : Token) : InUse (t.putBack token)
  | scan {t : Tokenizer} (h : InUse t) (depth : Nat) : InUse (t.scan depth)

variable {depth : Nat} {cs body behind p : List Char} {s : TokenStream} {t : Tokenizer}

theorem closes_iff : Closes depth cs ↔ depth + excess cs = 0 := by
  unfold Closes excess
  omega

/-- Where no parenthesis closes the levels, some are open everywhere. -/
theorem open_of_closingParen?_eq_none {depth : Int} (hdepth : 0 < depth)
    (h : TokenStream.closingParen? depth cs = none) : ∀ p, p <+: cs → 0 < depth + excess p := by
  induction cs generalizing depth with
  | nil =>
    intro p hp
    rw [List.prefix_nil.1 hp, excess_nil, Int.add_zero]
    exact hdepth
  | cons c cs ih =>
    have hle := neg_one_le_excess c
    rw [closingParen?_cons hdepth] at h
    split at h
    · cases h
    · rename_i hne
      intro p hp
      rcases List.prefix_cons_iff.1 hp with rfl | ⟨q, rfl, hq⟩
      · rwa [excess_nil, Int.add_zero]
      · have hopen := ih (by omega) (Option.map_eq_none_iff.1 h) q hq
        rw [excess_cons]
        omega

/-- The parenthesis that is found ends the shortest prefix that closes the levels. -/
theorem shortestClosing_of_closingParen? (hdepth : 0 < depth)
    (h : TokenStream.closingParen? depth (body ++ ')' :: behind) = some body.length) :
    ShortestClosing depth (body ++ ')' :: behind) (body ++ [')']) := by
  obtain ⟨hone, hopen⟩ := (closingParen?_iff (by omega) body behind).1 h
  refine ⟨⟨behind, by simp⟩, closes_iff.2 ?_, fun q hq hcloses => ?_⟩
  · have hclose : excess [')'] = -1 := rfl
    rw [excess_append]
    omega
  · have hzero := closes_iff.1 hcloses
    refine Nat.le_of_not_lt fun hshort => ?_
    -- Otherwise it is a prefix of the body, where levels are open.
    rw [List.length_append, List.length_singleton] at hshort
    have hbody := hopen q (List.prefix_of_prefix_length_le hq ⟨_, rfl⟩ (by omega))
    omega

/-- If some prefix closes the levels, a parenthesis is found. -/
theorem exists_closingParen (hdepth : 0 < depth) (h : ∃ p, p <+: cs ∧ Closes depth p) :
    ∃ body behind, cs = body ++ ')' :: behind ∧
      TokenStream.closingParen? depth cs = some body.length := by
  cases hclosing : TokenStream.closingParen? depth cs with
  | none =>
    obtain ⟨p, hp, hcloses⟩ := h
    have hzero := closes_iff.1 hcloses
    have hopen := open_of_closingParen?_eq_none (by omega) hclosing p hp
    omega
  | some k =>
    obtain ⟨body, behind, hcs, rfl⟩ := closingParen?_eq_some hclosing
    exact ⟨body, behind, hcs, rfl⟩

/-- If a parenthesis is found, the prefix that it ends closes the levels. -/
theorem closingParen?_eq_none (hdepth : 0 < depth) (h : ∀ p, p <+: cs → ¬Closes depth p) :
    TokenStream.closingParen? depth cs = none := by
  refine Option.eq_none_iff_forall_ne_some.2 fun k hk => ?_
  obtain ⟨body, behind, rfl, rfl⟩ := closingParen?_eq_some hk
  have hshortest := shortestClosing_of_closingParen? hdepth hk
  exact h _ hshortest.starts hshortest.closes

namespace TokenStream

theorem scan_found (hrest : s.after.rest = body ++ ')' :: behind)
    (h : closingParen? depth s.after.rest = some body.length) :
    s.scan depth = ⟨⟨.word, String.ofList body, s.after.offset, false⟩,
      ⟨s.after.offset + byteLength body, ')' :: behind⟩⟩ := by
  unfold scan
  rw [h]
  simp [Cursor.skip, hrest]

theorem scan_missing (h : closingParen? depth s.after.rest = none) :
    s.scan depth =
      ⟨.atEnd s.after.offset, ⟨s.after.offset + byteLength s.after.rest, []⟩⟩ := by
  unfold scan
  rw [h]
  simp [Cursor.skip]

/-- The closing parenthesis is the next token, as no white space is left out before it. -/
theorem step_scan_found (hrest : s.after.rest = body ++ ')' :: behind)
    (h : closingParen? depth s.after.rest = some body.length) :
    (s.scan depth).step = (onClosing s.after body behind, none) := by
  let d : Cursor := ⟨s.after.offset + byteLength body, ')' :: behind⟩
  rw [scan_found hrest h]
  refine (step_eq_iff (d := d) rfl).2 ⟨rfl, Or.inr ?_⟩
  refine ⟨')', behind, ⟨.rightParen, 0, false⟩, rfl, rfl, ?_⟩
  rw [onClosing, byteLength_append, ← Nat.add_assoc]
  rfl

theorem reaches_step (s : TokenStream) : s.after.Reaches s.step.1.after := by
  unfold step
  split
  · exact .refl _
  · dsimp only
    split <;> exact (nextLexeme s.after).reaches

theorem reaches_scan (depth : Nat) (s : TokenStream) : s.after.Reaches (s.scan depth).after := by
  unfold scan
  split <;> exact s.after.reaches_skip _

end TokenStream

namespace Tokenizer

theorem next_place (t : Tokenizer) : t.next.1.input = t.input ∧
    t.stream.after.Reaches t.next.1.stream.after := by
  unfold next
  split
  · exact ⟨rfl, .refl _⟩
  · exact ⟨rfl, t.stream.reaches_step⟩

/-- A tokenizer in use stands at some place of its input. -/
theorem InUse.reaches (h : t.InUse) : Cursor.Reaches (.ofText t.input.toList) t.stream.after := by
  have hnext {t : Tokenizer} (h : Cursor.Reaches (.ofText t.input.toList) t.stream.after) :
      Cursor.Reaches (.ofText t.next.1.input.toList) t.next.1.stream.after := by
    obtain ⟨hinput, hreaches⟩ := t.next_place
    rw [hinput]
    exact h.trans hreaches
  induction h with
  | start input => exact hnext (t := before input) (.refl _)
  | next _ ih => exact hnext ih
  | expect _ kind ih =>
    unfold Tokenizer.expect
    split
    · exact hnext ih
    · exact ih
  | putBack _ _ ih => exact ih
  | scan _ depth ih => exact ih.trans (TokenStream.reaches_scan depth _)

theorem next_scan_found (hpending : t.pending = none)
    (hrest : t.stream.after.rest = body ++ ')' :: behind)
    (h : TokenStream.closingParen? depth t.stream.after.rest = some body.length) :
    (t.scan depth).next =
      ((t.scan depth).withStream (onClosing t.stream.after body behind), none) :=
  next_eq (t := t.scan depth) hpending (TokenStream.step_scan_found hrest h)

/-- For a tokenizer that took no token back, at some depth: if a prefix of what is left closes that
many levels, the scan makes all but the last character of the shortest such prefix the current
token. The next token is the parenthesis right behind it, and whatever is asked for then, the
answers are those of a tokenizer on the rest alone, with their places moved. If no prefix does, the
scan is at the end and nothing is left. What is left of a tokenizer in use stands at its offset. -/
theorem scan_captures_shortest (t : Tokenizer) (depth : Nat) (hpending : t.pending = none)
    (hdepth : 1 ≤ depth) :
    (t.InUse → ∃ before, t.input.toList = before ++ t.stream.after.rest ∧
      t.stream.after.offset = byteLength before) ∧
    ((∃ p, p <+: t.stream.after.rest ∧ Closes depth p) → ∃ body behind u,
      t.stream.after.rest = body ++ ')' :: behind ∧
      ShortestClosing depth t.stream.after.rest (body ++ [')']) ∧
      (t.scan depth).current = ⟨.word, String.ofList body, t.stream.after.offset, false⟩ ∧
      (t.scan depth).next = (u, none) ∧
      u.current = ⟨.rightParen, ")", t.stream.after.offset + byteLength body, false⟩ ∧
      u.stream.after = ⟨t.stream.after.offset + byteLength (body ++ [')']), behind⟩ ∧
      ∀ calls, u.answers calls = ((before (String.ofList behind)).answers calls).map
        (movedAnswer (t.stream.after.offset + byteLength (body ++ [')'])) t.input)) ∧
    ((∀ p, p <+: t.stream.after.rest → ¬Closes depth p) →
      (t.scan depth).current = .atEnd t.stream.after.offset ∧
      (t.scan depth).stream.after =
        ⟨t.stream.after.offset + byteLength t.stream.after.rest, []⟩) := by
  refine ⟨fun h => ?_, fun h => ?_, fun h => ?_⟩
  · obtain ⟨read, hinput, hoffset⟩ := h.reaches
    exact ⟨read, hinput, hoffset.trans (Nat.zero_add _)⟩
  · obtain ⟨body, behind, hrest, hclosing⟩ := exists_closingParen hdepth h
    have hscan := TokenStream.scan_found hrest hclosing
    refine ⟨body, behind, _, hrest, ?_, congrArg TokenStream.current hscan,
      next_scan_found hpending hrest hclosing, rfl, rfl, ?_⟩
    · rw [hrest] at hclosing ⊢
      exact shortestClosing_of_closingParen? hdepth hclosing
    · exact answers_rest (t := (t.scan depth).withStream (onClosing t.stream.after body behind))
        hpending rfl
  · have hscan := TokenStream.scan_missing (closingParen?_eq_none hdepth h)
    exact ⟨congrArg TokenStream.current hscan, congrArg TokenStream.after hscan⟩

/-- In `$(é(x)) or` the scan behind the first parenthesis takes in the inner ones. Three levels are
not closed there. -/
theorem scan_captures_nested : let t := (start "$(é(x)) or").1.next.1
    t.InUse ∧ t.pending = none ∧ t.stream.after = ⟨2, "é(x)) or".toList⟩ ∧
      (∃ u, (t.scan 1).current = ⟨.word, "é(x)", 2, false⟩ ∧ (t.scan 1).next = (u, none) ∧
        u.current = ⟨.rightParen, ")", 7, false⟩ ∧
        ∀ calls, u.answers calls =
          ((before " or").answers calls).map (movedAnswer 8 "$(é(x)) or")) ∧
      (t.scan 3).current = .atEnd 2 ∧ (t.scan 3).stream.after = ⟨11, []⟩ := by
  intro t
  have huse : t.InUse := .next (.start _)
  have hpending : t.pending = none := by decide +kernel
  have hafter : t.stream.after = ⟨2, "é(x)) or".toList⟩ := by decide +kernel
  have hinput : t.input = "$(é(x)) or" := by decide +kernel
  have hread : (t.scan 1).current = ⟨.word, String.ofList "é(x)".toList, 2, false⟩ := by
    decide +kernel
  refine ⟨huse, hpending, hafter, ?_, ?_⟩
  · obtain ⟨-, hfound, -⟩ := scan_captures_shortest t 1 hpending (by decide)
    rw [hafter, hinput] at hfound
    obtain ⟨body, behind, u, hrest, -, hscan, hnext, hcurrent, -, hanswers⟩ :=
      hfound ⟨"é(x))".toList, ⟨" or".toList, by decide⟩, by decide⟩
    obtain rfl : body = "é(x)".toList :=
      String.ofList_injective (congrArg Token.text (hscan.symm.trans hread))
    have hparts : "é(x)".toList ++ ')' :: " or".toList = "é(x)".toList ++ ')' :: behind := hrest
    obtain rfl := (List.cons.inj (List.append_cancel_left hparts)).2
    exact ⟨u, hread, hnext, hcurrent, hanswers⟩
  · obtain ⟨-, -, hmissing⟩ := scan_captures_shortest t 3 hpending (by decide)
    have hopen : ∀ p ∈ "é(x)) or".toList.inits, ¬Closes 3 p := by decide
    rw [hafter] at hmissing
    exact hmissing fun p hp => hopen p ((List.mem_inits _ _).2 hp)

end Tokenizer

end ProjectAnalysis.Expr
