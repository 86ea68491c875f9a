import ProjectAnalysis.Proofs.NodeLayout

/-! A tokenizer that is called again and again, also after faults, comes to the end of its input,
and what it found on the way stands in the input one behind the other with nothing but white space
between. -/
namespace ProjectAnalysis.Expr

namespace LexemeValue

def position : LexemeValue → Nat
  | .token t => t.position
  | .fault _ _ position => position

/-- The characters of the input that it was read from: those of a token with its quotes, or the one
character where no token begins. -/
def written : LexemeValue → List Char
  | .token t => t.written
  | .fault _ ch _ => [ch]

def span (v : LexemeValue) : Span :=
  ⟨v.position, v.position + byteLength v.written⟩

end LexemeValue

/-- What calls in a row find, as long as there is no end: tokens, and characters where none
begins. -/
inductive Calls : Tokenizer → List LexemeValue → Tokenizer → Prop
  | done (t : Tokenizer) : Calls t [] t
  | token {t u v : Tokenizer} {more : List LexemeValue} (h : t.next = (u, none))
      (hend : u.current.kind ≠ .finish) (behind : Calls u more v) :
      Calls t (.token u.current :: more) v
  | fault {t u v : Tokenizer} {more : List LexemeValue} {cause : LexicalCause} {ch : Char}
      {position : Nat} (h : t.next = (u, some (.lexical cause ch position)))
      (behind : Calls u more v) : Calls t (.fault cause ch position :: more) v

/-- What was found is all of the text but white space. -/
structure Partition (text : List Char) (found : List LexemeValue) : Prop where
  /-- Each lexeme was read from the characters at its place. -/
  slice : ∀ v ∈ found, v.span.slice? text = some v.written ∧ v.written ≠ []
  /-- They stand one behind the other. -/
  ordered : found.Pairwise fun v w => v.span.stop ≤ w.span.start
  /-- Every character outside of them is white space. -/
  blank : ∀ before ch after, text = before ++ ch :: after →
    (∀ v ∈ found, byteLength before < v.span.start ∨ v.span.stop ≤ byteLength before) →
      isBlank ch = true
  /-- Quotes are left out of the text of a token just if it is a string that begins with one. -/
  quoted : ∀ t, .token t ∈ found →
    (t.quoted = true ↔ t.kind = .word ∧ t.written.head? = some '\'')

/-- From the place on there are these lexemes, and white space around them. -/
inductive Lexed : Cursor → List LexemeValue → Prop
  | done {c : Cursor} (h : ∀ x ∈ c.rest, isBlank x = true) : Lexed c []
  | next {c d e : Cursor} {v : LexemeValue} {more : List LexemeValue} (w : Blanks c d)
      (hposition : v.position = d.offset) (hread : d.Reads v.written e) (hne : v.written ≠ [])
      (hquoted : ∀ t, v = .token t →
        (t.quoted = true ↔ t.kind = .word ∧ t.written.head? = some '\''))
      (behind : Lexed e more) : Lexed c (v :: more)

variable {text cs : List Char} {c d e : Cursor} {found : List LexemeValue} {v : LexemeValue}

theorem span_of_reads (hposition : v.position = d.offset) (hread : d.Reads v.written e) :
    v.span = ⟨d.offset, e.offset⟩ := by
  rw [LexemeValue.span, hposition, hread.2]

namespace Lexed

theorem length_le (h : Lexed c found) : found.length ≤ c.rest.length := by
  induction h with
  | done => exact Nat.zero_le _
  | @next c d e v more w _ hread hne _ _ ih =>
    have hpos := List.length_pos_iff.2 hne
    have hd := hread.size_eq
    have hc : d.rest.length ≤ c.rest.length := w.reaches.size_le
    change d.rest.length = v.written.length + e.rest.length at hd
    rw [List.length_cons]
    omega

theorem offset_le (h : Lexed c found) : ∀ v ∈ found, c.offset ≤ v.span.start := by
  induction h with
  | done => exact List.forall_mem_nil _
  | next w hposition hread _ _ _ ih =>
    refine List.forall_mem_cons.2 ⟨?_, fun v hv => ?_⟩
    · rw [span_of_reads hposition hread]
      exact w.reaches.offset_le
    · exact Nat.le_trans (w.reaches.trans hread.reaches).offset_le (ih v hv)

theorem slice (h : Lexed c found) (hc : Inside text c) :
    ∀ v ∈ found, v.span.slice? text = some v.written ∧ v.written ≠ [] := by
  induction h with
  | done => exact List.forall_mem_nil _
  | next w hposition hread hne _ _ ih =>
    have hd := hc.reaches w.reaches
    refine List.forall_mem_cons.2 ⟨⟨?_, hne⟩, ih (hd.reaches hread.reaches)⟩
    rw [span_of_reads hposition hread]
    exact hd.slice?_eq hread

theorem ordered (h : Lexed c found) :
    found.Pairwise fun v w => v.span.stop ≤ w.span.start := by
  induction h with
  | done => exact .nil
  | next _ hposition hread _ _ behind ih =>
    refine .cons (fun w hw => ?_) ih
    rw [span_of_reads hposition hread]
    exact behind.offset_le w hw

theorem quoted (h : Lexed c found) : ∀ t, .token t ∈ found →
    (t.quoted = true ↔ t.kind = .word ∧ t.written.head? = some '\'') := by
  induction h with
  | done => exact nofun
  | next _ _ _ _ hquoted _ ih =>
    intro t ht
    rcases List.mem_cons.1 ht with heq | hmore
    · exact hquoted t heq.symm
    · exact ih t hmore

end Lexed

/-- A character at an offset between two places is one of those that stand there. -/
theorem mem_of_offset {pre tail before after : List Char} {ch : Char}
    (h : pre ++ (cs ++ tail) = before ++ ch :: after) (hlo : byteLength pre ≤ byteLength before)
    (hhi : byteLength before < byteLength pre + byteLength cs) : ch ∈ cs := by
  obtain ⟨as, rfl, hbehind⟩ := split_of_byteLength_le h hlo
  rw [byteLength_append] at hhi
  rcases List.append_eq_append_iff.1 hbehind with ⟨bs, rfl, -⟩ | ⟨bs, rfl, hcons⟩
  · rw [byteLength_append] at hhi
    omega
  · cases bs with
    | nil =>
      rw [List.append_nil] at hhi
      omega
    | cons b bs =>
      obtain ⟨rfl, -⟩ := List.cons.inj hcons
      exact List.mem_append_right as List.mem_cons_self

theorem Lexed.blank (h : Lexed c found) (hc : Cursor.Reaches (.ofText text) c) :
    ∀ before ch after, text = before ++ ch :: after → c.offset ≤ byteLength before →
      (∀ v ∈ found, byteLength before < v.span.start ∨ v.span.stop ≤ byteLength before) →
        isBlank ch = true := by
  have hplace {c : Cursor} (hc : Cursor.Reaches (.ofText text) c) :
      ∃ pre, text = pre ++ c.rest ∧ c.offset = byteLength pre := by
    obtain ⟨pre, htext, hoffset⟩ := hc
    exact ⟨pre, htext, hoffset.trans (Nat.zero_add _)⟩
  intro before ch after htext hlo hout
  -- The character is in the white space before the first lexeme, or it is behind that lexeme.
  induction h with
  | @done c hblank =>
    obtain ⟨pre, hpre, hoffset⟩ := hplace hc
    have hwidth := ch.utf8Size_pos
    have hlength := congrArg byteLength (hpre.symm.trans htext)
    rw [byteLength_append, byteLength_append, byteLength_cons] at hlength
    have hwhole : pre ++ (c.rest ++ []) = before ++ ch :: after := by
      rw [List.append_nil, ← hpre, htext]
    exact hblank ch (mem_of_offset hwhole (hoffset ▸ hlo) (by omega))
  | @next c d e v more w hposition hread hne hquoted behind ih =>
    have hd := hc.trans w.reaches
    rcases Nat.lt_or_ge (byteLength before) d.offset with hlt | hge
    · obtain ⟨pre, hpre, hoffset⟩ := hplace hc
      obtain ⟨ws, hws, hblank⟩ := w
      have hwhole : pre ++ (ws ++ d.rest) = before ++ ch :: after := by
        rw [← hws.1, ← hpre, htext]
      rw [hws.2, hoffset] at hlt
      exact hblank ch (mem_of_offset hwhole (hoffset ▸ hlo) hlt)
    · obtain ⟨hv, hmore⟩ := List.forall_mem_cons.1 hout
      rw [span_of_reads hposition hread] at hv
      have hstop : e.offset ≤ byteLength before := hv.resolve_left (Nat.not_lt.2 hge)
      exact ih (hd.trans hread.reaches) hstop hmore

theorem Lexed.partition (h : Lexed (.ofText text) found) : Partition text found where
  slice := h.slice (inside_ofText text)
  ordered := h.ordered
  blank := fun before ch after htext hout =>
    h.blank (.refl _) before ch after htext (Nat.zero_le _) hout
  quoted := h.quoted

theorem extent_kind_ne {x : Char} {rest : List Char} {e : Extent} (h : extent x rest = .ok e) :
    e.kind ≠ .finish := by
  have hword (word : List Char) : wordKind word ≠ .finish := by
    unfold wordKind
    split
    · exact TokenKind.noConfusion
    · split <;> exact TokenKind.noConfusion
  unfold extent at h
  split at h
  · split at h
    · cases h
      exact TokenKind.noConfusion
    · split at h <;> cases h
      exact TokenKind.noConfusion
  · split at h
    · cases h
      exact TokenKind.noConfusion
    · split at h
      · cases h
        exact hword _
      · split at h <;> cases h <;> exact TokenKind.noConfusion

/-- A token is a string that begins with a quote just if its text leaves out its quotes. -/
theorem quoted_iff {x : Char} {rest : List Char} {e : Extent} (h : extent x rest = .ok e) :
    (e.token d x rest).quoted = true ↔
      (e.token d x rest).kind = .word ∧ (e.token d x rest).written.head? = some '\'' := by
  constructor
  · intro hquoted
    refine ⟨(extent_quoted h hquoted).2.1, ?_⟩
    rw [Token.written, if_pos hquoted]
    rfl
  · rintro ⟨hkind, hhead⟩
    cases hquoted : e.quoted with
    | true => exact hquoted
    | false =>
      -- An apostrophe with nothing behind it makes a token of its own kind.
      have hwritten : (e.token d x rest).written = x :: rest.take e.more := by
        simp [Token.written, Extent.token, hquoted]
      rw [hwritten] at hhead
      obtain rfl : x = '\'' := Option.some.inj hhead
      change e.kind = .word at hkind
      unfold extent at h
      rw [if_pos rfl] at h
      split at h
      · cases h
        cases hkind
      · split at h <;> cases h
        cases hquoted

theorem written_ne_nil {x : Char} {rest : List Char} {e : Extent} :
    (e.token d x rest).written ≠ [] := by
  unfold Token.written Extent.token
  dsimp only
  split
  · exact List.cons_ne_nil _ _
  · rw [String.toList_ofList]
    exact List.cons_ne_nil _ _

theorem next_eq {t : Tokenizer} {s : TokenStream} {fault : Option Fault} (h : t.pending = none)
    (hstep : t.stream.step = (s, fault)) :
    t.next = (t.withStream s, fault.map (·.within t.input)) := by
  unfold Tokenizer.next
  rw [h, hstep]

/-- From any token but the last one on, calls come to the end. -/
theorem exists_calls {t : Tokenizer} (hpending : t.pending = none) (hend : t.stream.atEnd = false)
    (hc : Cursor.Reaches (.ofText text) t.stream.after) : ∃ found u last, Calls t found u ∧
      u.next = (last, none) ∧ last.current = .atEnd (byteLength text) ∧
      Lexed t.stream.after found := by
  -- A token and a fault both pass over a character, so there is less left for the next call.
  induction hsize : t.stream.after.rest.length using Nat.strongRecOn generalizing t with
  | ind k ih =>
    let d := t.stream.after.skipWhile isBlank
    have hblanks : Blanks t.stream.after d :=
      ⟨_, t.stream.after.reads_skipWhile isBlank, t.stream.after.all_run isBlank⟩
    have hd := hc.trans hblanks.reaches
    have hshorter {cs : List Char} {e : Cursor} (hread : d.Reads cs e) (hne : cs ≠ []) :
        e.rest.length < k := by
      have hpos := List.length_pos_iff.2 hne
      have hle := hblanks.reaches.size_le
      have hlength : d.rest.length = cs.length + e.rest.length := hread.size_eq
      change d.rest.length ≤ t.stream.after.rest.length at hle
      omega
    cases hrest : d.rest with
    | nil =>
      have hstep := (step_eq_iff (u := ⟨.atEnd d.offset, d⟩) rfl).2 ⟨hend, Or.inl ⟨hrest, rfl⟩⟩
      refine ⟨[], t, _, .done t, next_eq hpending hstep, ?_, .done ?_⟩
      · obtain ⟨pre, htext, hoffset⟩ := hd
        rw [hrest, List.append_nil] at htext
        change Token.atEnd d.offset = _
        rw [hoffset, ← htext]
        exact congrArg Token.atEnd (Nat.zero_add _)
      · obtain ⟨ws, hws, hblank⟩ := hblanks
        rwa [hws.1, hrest, List.append_nil]
    | cons x rest =>
      cases hextent : extent x rest with
      | error cause =>
        have hstep := (step_eq_fault_iff (s := t.stream) rfl).2
          (Or.inr ⟨hend, x, rest, cause, hrest, hextent, rfl, rfl⟩)
        have hread : d.Reads [x] (d.skip 1) := by
          have hskip := d.reads_skip 1
          rwa [hrest, List.take_succ_cons, List.take_zero] at hskip
        obtain ⟨found, u, last, hcalls, hnext, hlast, hlexed⟩ :=
          ih _ (hshorter hread (List.cons_ne_nil _ _))
            (t := t.withStream ⟨t.stream.current, d.skip 1⟩) hpending hend
            (hd.trans hread.reaches) rfl
        refine ⟨.fault cause x d.offset :: found, u, last, .fault (next_eq hpending hstep) hcalls,
          hnext, hlast, .next hblanks rfl hread (List.cons_ne_nil _ _) nofun hlexed⟩
      | ok e =>
        let token := e.token d x rest
        have hstep := (step_eq_iff (s := t.stream) rfl).2
          ⟨hend, Or.inr ⟨x, rest, e, hrest, hextent, rfl⟩⟩
        have hread := (at_extent hrest hextent).reads
        have hkind : token.kind ≠ .finish := extent_kind_ne hextent
        obtain ⟨found, u, last, hcalls, hnext, hlast, hlexed⟩ :=
          ih _ (hshorter hread written_ne_nil) (t := t.withStream ⟨token, d.skip (e.more + 1)⟩)
            hpending (decide_eq_false hkind) (hd.trans hread.reaches) rfl
        refine ⟨.token token :: found, u, last, .token (next_eq hpending hstep) hkind hcalls,
          hnext, hlast, .next hblanks rfl hread written_ne_nil ?_ hlexed⟩
        intro t ht
        cases ht
        exact quoted_iff hextent

/-- A call that fails leaves the current token as it is. -/
theorem current_of_failed {t u : Tokenizer} {e : Error} (h : t.next = (u, some e)) :
    u.current = t.current := by
  cases hpending : t.pending with
  | some token =>
    unfold Tokenizer.next at h
    rw [hpending] at h
    cases h
  | none =>
    cases hstep : t.stream.step with
    | mk s fault =>
      rw [next_eq hpending hstep] at h
      obtain ⟨rfl, hfault⟩ := Prod.mk.inj h
      obtain ⟨fault, rfl, -⟩ := Option.map_eq_some_iff.1 hfault
      obtain ⟨-, rfl, -⟩ | ⟨-, x, rest, cause, -, -, rfl, -⟩ := (step_eq_fault_iff rfl).1 hstep
      · rfl
      · rfl

/-- Calls from before the first token come to the end, after no more of them than the input has
characters, and what they found is a partition of the input; a call that fails leaves the current
token as it is. -/
theorem tokenizer_partition (input : String) :
    (∃ found t last, Calls (.before input) found t ∧ t.next = (last, none) ∧
      last.current = .atEnd (byteLength input.toList) ∧ found.length ≤ input.toList.length ∧
      Partition input.toList found) ∧
    ∀ (t u : Tokenizer) (e : Error), t.next = (u, some e) → u.current = t.current := by
  refine ⟨?_, fun t u e h => current_of_failed h⟩
  obtain ⟨found, t, last, hcalls, hnext, hlast, hlexed⟩ :=
    exists_calls (t := .before input) rfl rfl (.refl _)
  exact ⟨found, t, last, hcalls, hnext, hlast, hlexed.length_le, hlexed.partition⟩

end ProjectAnalysis.Expr
