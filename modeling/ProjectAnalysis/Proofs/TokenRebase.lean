import ProjectAnalysis.Proofs.TokenPartition

/-! A tokenizer reads what is left of its input; where that stands shows only in the offsets it
gives. So behind the first part of an input it goes on as on the rest alone, with every offset moved
by the width of that part. -/
namespace ProjectAnalysis

/-- The same place of a text that stands `k` bytes further on. -/
def Cursor.moved (k : Nat) (c : Cursor) : Cursor :=
  ⟨k + c.offset, c.rest⟩

namespace Expr

def Token.moved (k : Nat) (t : Token) : Token :=
  { t with position := k + t.position }

def LexemeValue.moved (k : Nat) : LexemeValue → LexemeValue
  | .token t => .token (t.moved k)
  | .fault cause ch position => .fault cause ch (k + position)

def Fault.moved (k : Nat) (f : Fault) : Fault :=
  { f with position := k + f.position }

/-- The same failure, of the text in which all stands `k` bytes further on. -/
def Error.moved (k : Nat) (text : String) : Error → Error
  | .lexical cause ch position => .lexical cause ch (k + position)
  | .syntactic cause _ position => .syntactic cause text (k + position)

/-- What a tokenizer is asked for: the next token, or all up to a closing parenthesis. -/
inductive Call
  | next
  | scan (depth : Nat)
deriving DecidableEq, Repr

namespace Tokenizer

/-- A call gives the token that is current after it, or says what was wrong. -/
def call (t : Tokenizer) : Call → Tokenizer × Except Error Token
  | .next =>
    match t.next with
    | (u, none) => (u, .ok u.current)
    | (u, some e) => (u, .error e)
  | .scan depth => (t.scan depth, .ok (t.scan depth).current)

/-- What calls in a row give. -/
def answers (t : Tokenizer) : List Call → List (Except Error Token)
  | [] => []
  | call :: more => (t.call call).2 :: (t.call call).1.answers more

end Tokenizer

/-- The same answer, for the text in which all stands `k` bytes further on. -/
def movedAnswer (k : Nat) (text : String) : Except Error Token → Except Error Token
  | .ok token => .ok (token.moved k)
  | .error e => .error (e.moved k text)

/-- One stream has the same to read as another one, `k` bytes further on. The current token is not
read again, and only at the end it is asked for its place. -/
structure TokenStream.Follows (k : Nat) (s u : TokenStream) : Prop where
  after : s.after = u.after.moved k
  atEnd : s.atEnd = u.atEnd
  current : u.atEnd = true → s.current = u.current.moved k

variable {k : Nat} {c : Cursor} {s u : TokenStream}

theorem skipWhile_moved (p : Char → Bool) : (c.moved k).skipWhile p = (c.skipWhile p).moved k := by
  simp [Cursor.skipWhile, Cursor.moved, Cursor.run, Nat.add_assoc]

theorem skip_moved (n : Nat) : (c.moved k).skip n = (c.skip n).moved k := by
  simp [Cursor.skip, Cursor.moved, Nat.add_assoc]

theorem lexemeValue_moved (offset : Nat) (x : Char) (rest : List Char) :
    lexemeValue (k + offset) x rest = (lexemeValue offset x rest).moved k := by
  unfold lexemeValue
  cases extent x rest <;> rfl

theorem nextLexeme_moved : (nextLexeme (c.moved k)).value = (nextLexeme c).value.map (·.moved k) ∧
    (nextLexeme (c.moved k)).next = (nextLexeme c).next.moved k := by
  have hblanks : (c.moved k).skipWhile isBlank = (c.skipWhile isBlank).moved k :=
    skipWhile_moved isBlank
  -- Behind the white space both are at the end, or at the same characters.
  cases hrest : (c.skipWhile isBlank).rest with
  | nil =>
    have hmoved : ((c.moved k).skipWhile isBlank).rest = [] := by
      rw [hblanks]
      exact hrest
    obtain ⟨hvalue, hnext⟩ := nextLexeme_nil hrest
    obtain ⟨hvalue', hnext'⟩ := nextLexeme_nil hmoved
    rw [hvalue, hvalue', hnext, hnext', hblanks]
    exact ⟨rfl, rfl⟩
  | cons x rest =>
    have hmoved : ((c.moved k).skipWhile isBlank).rest = x :: rest := by
      rw [hblanks]
      exact hrest
    obtain ⟨hvalue, hnext⟩ := nextLexeme_cons hrest
    obtain ⟨hvalue', hnext'⟩ := nextLexeme_cons hmoved
    rw [hvalue, hvalue', hnext, hnext', hblanks, skip_moved]
    exact ⟨congrArg some (lexemeValue_moved _ x rest), rfl⟩

theorem within_moved (text text' : String) (f : Fault) :
    (f.moved k).within text = (f.within text').moved k text := by
  obtain ⟨cause, position⟩ := f
  cases cause <;> rfl

namespace TokenStream.Follows

/-- A step finds the same in both streams, and leaves them so. -/
theorem step (h : s.Follows k u) : s.step.2 = u.step.2.map (·.moved k) ∧
    s.step.1.Follows k u.step.1 ∧
      (u.step.2 = none → s.step.1.current = u.step.1.current.moved k) := by
  have hatEnd := h.atEnd
  cases hend : u.atEnd with
  | true =>
    rw [hend] at hatEnd
    have hcurrent := h.current hend
    unfold TokenStream.step
    rw [if_pos hatEnd, if_pos hend]
    refine ⟨?_, h, nofun⟩
    rw [hcurrent]
    rfl
  | false =>
    rw [hend] at hatEnd
    obtain ⟨hvalue, hnext⟩ := nextLexeme_moved (k := k) (c := u.after)
    rw [← h.after] at hvalue hnext
    unfold TokenStream.step
    rw [hatEnd, hend, if_neg Bool.false_ne_true, if_neg Bool.false_ne_true]
    dsimp only
    rw [hvalue, hnext]
    cases (nextLexeme u.after).value with
    | none => exact ⟨rfl, ⟨rfl, rfl, fun _ => rfl⟩, fun _ => rfl⟩
    | some v =>
      cases v with
      | token t => exact ⟨rfl, ⟨rfl, rfl, fun _ => rfl⟩, fun _ => rfl⟩
      | fault cause ch position =>
        -- The current token stays, and it is not that of the end.
        refine ⟨rfl, ⟨rfl, hatEnd.trans hend.symm, fun habsurd => ?_⟩, nofun⟩
        exact absurd (hend.symm.trans habsurd) Bool.false_ne_true

theorem scan (h : s.Follows k u) (depth : Nat) : (s.scan depth).Follows k (u.scan depth) ∧
    (s.scan depth).current = (u.scan depth).current.moved k := by
  have hrest : s.after.rest = u.after.rest := by
    rw [h.after]
    rfl
  unfold TokenStream.scan
  rw [hrest, h.after]
  cases closingParen? depth u.after.rest with
  | none => exact ⟨⟨skip_moved _, rfl, fun _ => rfl⟩, rfl⟩
  | some n => exact ⟨⟨skip_moved _, rfl, fun _ => rfl⟩, rfl⟩

end TokenStream.Follows

namespace Tokenizer

variable {t v : Tokenizer}

/-- A call gives the same answer in both places, and leaves the tokenizers so. -/
theorem call_follows (ht : t.pending = none) (hv : v.pending = none)
    (h : t.stream.Follows k v.stream) (a : Call) :
    (t.call a).2 = movedAnswer k t.input (v.call a).2 ∧
      (t.call a).1.stream.Follows k (v.call a).1.stream ∧ (t.call a).1.input = t.input ∧
        (t.call a).1.pending = none ∧ (v.call a).1.pending = none := by
  cases a with
  | next =>
    obtain ⟨hfault, hfollows, hcurrent⟩ := h.step
    have hnext : t.next = (t.withStream t.stream.step.1, t.stream.step.2.map (·.within t.input)) :=
      next_eq ht rfl
    have hnext' : v.next = (v.withStream v.stream.step.1, v.stream.step.2.map (·.within v.input)) :=
      next_eq hv rfl
    unfold call
    dsimp only
    rw [hnext, hnext', hfault]
    cases hstep : v.stream.step.2 with
    | none =>
      have hsame := hcurrent hstep
      exact ⟨congrArg Except.ok hsame, hfollows, rfl, ht, hv⟩
    | some f => exact ⟨congrArg Except.error (within_moved _ _ f), hfollows, rfl, ht, hv⟩
  | scan depth =>
    obtain ⟨hfollows, hcurrent⟩ := h.scan depth
    exact ⟨congrArg Except.ok hcurrent, hfollows, rfl, ht, hv⟩

/-- So all answers are the same, up to the place. -/
theorem answers_follow (ht : t.pending = none) (hv : v.pending = none)
    (h : t.stream.Follows k v.stream) (calls : List Call) :
    t.answers calls = (v.answers calls).map (movedAnswer k t.input) := by
  induction calls generalizing t v with
  | nil => rfl
  | cons a calls ih =>
    -- The calls behind the first one begin where it left both tokenizers.
    obtain ⟨hanswer, hfollows, hinput, ht', hv'⟩ := call_follows ht hv h a
    have hmore := ih ht' hv' hfollows
    rw [hinput] at hmore
    rw [answers, answers, List.map_cons, hanswer, hmore]

/-- A tokenizer that is not at the end goes on as one before the first token of what is left. -/
theorem answers_rest (ht : t.pending = none) (hend : t.stream.atEnd = false) (calls : List Call) :
    t.answers calls = ((before (String.ofList t.stream.after.rest)).answers calls).map
      (movedAnswer t.stream.after.offset t.input) := by
  apply answers_follow ht rfl
  refine ⟨?_, hend, nofun⟩
  simp [before, TokenStream.ofText, Cursor.ofText, Cursor.moved]

end Tokenizer

end Expr

end ProjectAnalysis
