import ProjectAnalysis.XmlMarkup
import ProjectAnalysis.Proofs.TagReading

/-! What stands where a piece of a document was found: character data has no `<` in it, and markup
goes from a `<` to a `>`. -/
namespace ProjectAnalysis.Xml

/-- The characters are those of such a piece. -/
def Piece.Spelled (cs : List Char) : Piece → Prop
  | .text => cs ≠ [] ∧ '<' ∉ cs
  | .characterData => ∃ raw, cs = "<![CDATA[".toList ++ raw ++ "]]>".toList
  | _ => ∃ inside, cs = '<' :: inside ++ ['>']

/-- The length of some markup is where its `>` stands, and character data is within its marks. -/
structure Markup.EndsIn (body : List Char) (m : Markup) : Prop where
  close : ∃ rest, body.drop m.length = '>' :: rest
  raw : m.piece = .characterData →
    ∃ raw, body.take (m.length + 1) = "![CDATA[".toList ++ raw ++ "]]>".toList
  markup : m.piece ≠ .text

variable {mark cs body : List Char} {k : Nat} {c : Cursor} {m : Markup} {q : Option Char}

theorem drop_of_indexOf? (h : indexOf? mark cs = some k) : ∃ rest, cs.drop k = mark ++ rest := by
  induction cs generalizing k with
  | nil => cases h
  | cons x cs ih =>
    rw [indexOf?] at h
    split at h
    · rename_i hmark
      obtain rfl := Option.some.inj h
      obtain ⟨rest, hrest⟩ := List.isPrefixOf_iff_prefix.1 hmark
      exact ⟨rest, hrest.symm⟩
    · obtain ⟨j, hj, rfl⟩ := Option.map_eq_some_iff.1 h
      exact ih hj

theorem drop_of_tagEnd? (h : tagEnd? q cs = some k) : ∃ rest, cs.drop k = '>' :: rest := by
  induction cs generalizing q k with
  | nil => cases h
  | cons x cs ih =>
    rw [tagEnd?.eq_def] at h
    dsimp only at h
    split at h
    · obtain ⟨j, hj, rfl⟩ := Option.map_eq_some_iff.1 h
      exact ih hj
    · split at h
      · rename_i hx
        obtain rfl := Option.some.inj h
        exact ⟨cs, by rw [hx]; rfl⟩
      · obtain ⟨j, hj, rfl⟩ := Option.map_eq_some_iff.1 h
        exact ih hj

theorem drop_of_doctypeEnd? {depth : Nat} (h : doctypeEnd? depth cs = some k) :
    ∃ rest, cs.drop k = '>' :: rest := by
  induction cs generalizing depth k with
  | nil => cases h
  | cons x cs ih =>
    rw [doctypeEnd?.eq_def] at h
    dsimp only at h
    split at h
    · obtain ⟨j, hj, rfl⟩ := Option.map_eq_some_iff.1 h
      exact ih hj
    · split at h
      · rename_i hx
        cases depth with
        | zero =>
          obtain rfl := Option.some.inj h
          exact ⟨cs, by rw [hx]; rfl⟩
        | succ depth =>
          obtain ⟨j, hj, rfl⟩ := Option.map_eq_some_iff.1 h
          exact ih hj
      · obtain ⟨j, hj, rfl⟩ := Option.map_eq_some_iff.1 h
        exact ih hj

/-- The mark that character data begins with does not reach into the one that ends it. -/
theorem raw_of_marks {rest : List Char} (hopen : "![CDATA[".toList.isPrefixOf (body.take (k + 2)))
    (hclose : body.drop k = "]]>".toList ++ rest) :
    ∃ raw, body.take (k + 3) = "![CDATA[".toList ++ raw ++ "]]>".toList := by
  have hbody : body = body.take k ++ ("]]>".toList ++ rest) := by
    rw [← hclose, List.take_append_drop]
  have hk : (body.take k).length = k := by
    have hdrop := congrArg List.length hclose
    simp only [List.length_drop, List.length_append] at hdrop
    rw [List.length_take, Nat.min_eq_left]
    have : 0 < "]]>".toList.length := by decide
    omega
  have htake (j : Nat) (hj : j ≤ 3) :
      body.take (k + j) = body.take k ++ "]]>".toList.take j := by
    conv => lhs; rw [hbody]
    rw [List.take_append, List.take_of_length_le (by omega), hk, Nat.add_sub_cancel_left,
      List.take_append_of_le_length hj]
  rw [htake 2 (by decide)] at hopen
  have hprefix : "![CDATA[".toList <+: body.take k ++ [']'] ++ [']'] := by
    rw [List.append_assoc]
    exact List.isPrefixOf_iff_prefix.1 hopen
  have hlast (cs : List Char) : "![CDATA[".toList ≠ cs ++ [']'] := by
    intro heq
    have hend := congrArg List.getLast? heq
    rw [List.getLast?_concat] at hend
    exact absurd hend (by decide)
  obtain ⟨raw, hraw⟩ := (List.prefix_concat_iff.1
    ((List.prefix_concat_iff.1 hprefix).resolve_left (hlast _))).resolve_left (hlast _)
  refine ⟨raw, ?_⟩
  rw [htake 3 (by decide), hraw]
  rfl

theorem drop_add_of_eq (mark : List Char) {j : Nat} {rest : List Char} {x : Char}
    (h : cs.drop k = mark ++ x :: rest) (hj : mark.length = j) : cs.drop (k + j) = x :: rest := by
  rw [← List.drop_drop, h, ← hj, List.drop_left]

theorem endsIn_declaration (h : declaration body = .ok m) : m.EndsIn body := by
  unfold declaration at h
  split at h
  · split at h
    · cases h
    · rename_i k hk
      obtain ⟨rest, hrest⟩ := drop_of_indexOf? hk
      split at h
      · rename_i hopen
        obtain rfl := Except.ok.inj h
        exact ⟨⟨rest, drop_add_of_eq [']', ']'] hrest rfl⟩,
          fun _ => raw_of_marks hopen hrest, nofun⟩
      · cases h
  · split at h
    · cases h
    · rename_i k hk
      obtain ⟨rest, hrest⟩ := drop_of_indexOf? hk
      split at h
      · obtain rfl := Except.ok.inj h
        rw [List.drop_drop] at hrest
        refine ⟨⟨rest, ?_⟩, nofun, nofun⟩
        have hclose := drop_add_of_eq ['-', '-'] (j := 2) hrest rfl
        rwa [Nat.add_comm 3 k, Nat.add_assoc] at hclose
      · cases h
  · split at h
    · split at h
      · cases h
      · rename_i k hk
        dsimp only at h
        split at h
        · cases h
        · split at h
          · cases h
          · obtain rfl := Except.ok.inj h
            exact ⟨drop_of_doctypeEnd? hk, nofun, nofun⟩
    · cases h
  · cases h

theorem endsIn_instruction (h : instruction body = .ok m) : m.EndsIn body := by
  unfold instruction at h
  split at h
  · rename_i k hk
    obtain ⟨rest, hrest⟩ := drop_of_indexOf? hk
    obtain rfl := Except.ok.inj h
    exact ⟨⟨rest, drop_add_of_eq (k := k + 1) ['?'] hrest rfl⟩, nofun, nofun⟩
  · cases h

theorem endsIn_tag (h : tag body = .ok m) : m.EndsIn body := by
  unfold tag at h
  split at h
  · cases h
  · rename_i k hk
    dsimp only at h
    split at h
    · obtain rfl := Except.ok.inj h
      exact ⟨drop_of_tagEnd? hk, nofun, nofun⟩
    · split at h
      all_goals
        obtain rfl := Except.ok.inj h
        exact ⟨drop_of_tagEnd? hk, nofun, nofun⟩

theorem endsIn_markup (h : markup body = .ok m) : m.EndsIn body := by
  unfold markup at h
  split at h
  · cases h
  · exact endsIn_declaration h
  · exact endsIn_instruction h
  · exact endsIn_tag h

theorem Markup.EndsIn.spelled (h : m.EndsIn body) :
    m.piece.Spelled ('<' :: body.take (m.length + 1)) := by
  obtain ⟨⟨rest, hclose⟩, hraw, htext⟩ := h
  obtain ⟨piece, length⟩ := m
  have htake : body.take (length + 1) = body.take length ++ ['>'] := by
    rw [List.take_add, hclose]
    rfl
  cases piece with
  | text => exact absurd rfl htext
  | characterData =>
    obtain ⟨raw, hraw⟩ := hraw rfl
    exact ⟨raw, by rw [hraw]; rfl⟩
  | opening _ | empty | closing _ | aside => exact ⟨body.take length, by rw [htake]; rfl⟩

/-- A piece is spelled by what stands between its place and the place behind it. -/
theorem reads_of_nextPiece {r : Parsed Piece c} (h : nextPiece c = .ok (some r)) :
    ∃ cs, c.Reads cs r.next ∧ r.value.Spelled cs := by
  obtain ⟨offset, rest⟩ := c
  cases rest with
  | nil => cases h
  | cons x body =>
    rw [nextPiece] at h
    split at h
    · cases h
    · rename_i piece more hfound
      obtain rfl := Option.some.inj (Except.ok.inj h)
      refine ⟨_, Cursor.reads_skip (more + 1) _, ?_⟩
      split at hfound
      · rename_i hx
        split at hfound
        · cases hfound
        · rename_i m hm
          obtain ⟨rfl, rfl⟩ := Prod.mk.inj (Except.ok.inj hfound)
          rw [List.take_succ_cons, hx]
          exact (endsIn_markup hm).spelled
      · rename_i hx
        obtain ⟨rfl, rfl⟩ := Prod.mk.inj (Except.ok.inj hfound)
        have htake : body.take (body.takeWhile (· != '<')).length = body.takeWhile (· != '<') :=
          (List.prefix_iff_eq_take.1 (List.takeWhile_prefix _)).symm
        rw [List.take_succ_cons, htake]
        refine ⟨List.cons_ne_nil _ _, fun hmem => ?_⟩
        rcases List.mem_cons.1 hmem with rfl | hmem
        · exact hx rfl
        · have hmark := List.all_eq_true.1 List.all_takeWhile '<' hmem
          exact absurd rfl (bne_iff_ne.1 hmark)

theorem Piece.Spelled.length_pos {piece : Piece} (h : piece.Spelled cs) : 0 < byteLength cs := by
  cases piece with
  | text => exact byteLength_pos h.1
  | characterData =>
    obtain ⟨raw, rfl⟩ := h
    exact byteLength_pos (List.cons_ne_nil _ _)
  | opening _ | empty | closing _ | aside =>
    obtain ⟨inside, rfl⟩ := h
    exact byteLength_pos (List.cons_ne_nil _ _)

/-- No piece is empty. -/
theorem offset_lt_of_nextPiece {r : Parsed Piece c} (h : nextPiece c = .ok (some r)) :
    c.offset < r.next.offset := by
  obtain ⟨cs, hread, hspelled⟩ := reads_of_nextPiece h
  rw [hread.2]
  exact Nat.lt_add_of_pos_right hspelled.length_pos

theorem rest_of_nextPiece (h : nextPiece c = .ok none) : c.rest = [] := by
  obtain ⟨offset, rest⟩ := c
  cases rest with
  | nil => rfl
  | cons x body =>
    rw [nextPiece] at h
    split at h <;> cases h

theorem cause_of_declaration {f : MarkupFault} (h : declaration body = .error f) :
    f.cause ≠ .misplacedTag := by
  unfold declaration at h
  split at h
  · split at h
    · cases h
      exact nofun
    · split at h <;> cases h
      exact nofun
  · split at h
    · cases h
      exact nofun
    · split at h <;> cases h
      exact nofun
  · split at h
    · split at h
      · cases h
        exact nofun
      · dsimp only at h
        split at h
        · cases h
          exact nofun
        · split at h <;> cases h
          exact nofun
    · cases h
      exact nofun
  · cases h
    exact nofun

theorem cause_of_markup {f : MarkupFault} (h : markup body = .error f) :
    f.cause ≠ .misplacedTag := by
  unfold markup at h
  split at h
  · cases h
    exact nofun
  · exact cause_of_declaration h
  · unfold instruction at h
    split at h <;> cases h
    exact nofun
  · unfold tag at h
    split at h
    · cases h
      exact nofun
    · dsimp only at h
      split at h
      · cases h
      · split at h <;> cases h

/-- Where no piece can be found the fault is within what is left. -/
theorem within_of_nextPiece {fault : Fault} (h : nextPiece c = .error fault) :
    WithinRest c fault := by
  obtain ⟨offset, rest⟩ := c
  cases rest with
  | nil => cases h
  | cons x body =>
    rw [nextPiece] at h
    split at h
    · rename_i found hfound
      obtain rfl := Except.error.inj h
      split at hfound
      · split at hfound
        · rename_i f hf
          obtain rfl := Except.error.inj hfound
          have hreach := Cursor.reaches_skip f.distance ⟨offset, x :: body⟩
          exact Fault.within_at (cause_of_markup hf) (Cursor.Reaches.within hreach)
        · cases hfound
      · cases hfound
    · cases h

end ProjectAnalysis.Xml
