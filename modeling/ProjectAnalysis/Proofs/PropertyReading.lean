import ProjectAnalysis.Proofs.ImportCandidates
import ProjectAnalysis.Proofs.PlainReference

/-! Imports that begin with a property: its name in parentheses and literal text behind it. Such a
text is read whatever the options are, and it stands for what the property may stand for, with the
literal text behind each choice. -/
namespace ProjectAnalysis

namespace Expr

variable {n : Nat} {c d : Cursor} {o : Options} {name tail : List Char}

theorem gives_reference_of_name (hname : IsName name)
    (h : c.Reads ('$' :: '(' :: (name ++ [')'])) d) : ∃ inner,
      Parsed.Gives (reference o c) (.mk ⟨c.offset, d.offset⟩
        (.property (.mk inner (.propertyName (String.ofList name))))) d := by
  obtain ⟨e, hopen, hrest⟩ := Cursor.Reads.split_pair h
  obtain ⟨f, hread, hclose⟩ := hrest.split
  have hnamed : Named e name f := ⟨hread, hname⟩
  have hsize := hopen.shorter
  have hsize' := hread.size_lt hsize
  have hend : Delimited f := delimited_of_peek hclose.peek rfl
  have hne {x : Char} (hx : ')' ≠ x) : f.peek ≠ some x := by
    rw [hclose.peek]
    exact fun heq => hx (Option.some.inj heq)
  let body : Node := .mk ⟨e.offset, f.offset⟩ (.propertyName (String.ofList name))
  have hbody : (propertyBody anywhere o : Read (Position.size c) Node).Gives e body f :=
    gives_propertyBody_of_named hsize hnamed hend
      (gives_members_self hsize' hend.solid (hne (by decide)) (hne (by decide)))
  refine ⟨⟨e.offset, f.offset⟩, ?_⟩
  rw [reference]
  refine gives_referenceWith.2 ⟨'$', e, hopen, Or.inl ⟨rfl, ?_⟩⟩
  refine Reader.gives_solid_bind hnamed.solid ?_
  refine Reader.gives_bind.2 ⟨body, f, hbody, gives_closed.2 ⟨hsize', ?_, rfl⟩⟩
  rwa [hend.solid]

/-- Literal text as a node of its own, if there is any. -/
def literalNodes (span : Span) (text : List Char) : List Node :=
  if text = [] then [] else [.mk span (.text (String.ofList text) false)]

theorem gives_literal_to_end {lists : Bool} (hsize : Position.size c < n)
    (htail : ∀ sigil ∈ ['$', '@', '%'], ¬[sigil, '('] <:+: tail) (hlists : lists = false)
    (hread : c.Reads tail d) (hend : d.rest = []) :
    (literal false lists : Read n _).Gives c (literalNodes ⟨c.offset, d.offset⟩ tail) d := by
  have hlength : literalLength lists c.rest = tail.length := by
    rw [hread.1, hend]
    exact literalLength_append htail (fun h => absurd (h.symm.trans hlists) nofun) rfl nofun
  refine gives_literal.2 ⟨hsize, ?_⟩
  by_cases hnil : tail = []
  · subst hnil
    exact Or.inl ⟨hlength, rfl, Cursor.reads_nil_iff.1 hread⟩
  · exact Or.inr ⟨tail, hnil, hread, hlength, if_neg hnil⟩

/-- A text of one reference and literal text behind it. -/
theorem parse_name_tail (hname : IsName name)
    (htail : ∀ sigil ∈ ['$', '@', '%'], ¬[sigil, '('] <:+: tail) (ho : o.condition = false)
    (hlists : o.lists = false) : ∃ a span inner last,
      parse o (String.ofList ('$' :: '(' :: (name ++ ')' :: tail))) = .ok a ∧
        a.parts = .mk span (.property (.mk inner (.propertyName (String.ofList name)))) ::
          literalNodes last tail := by
  let text := '$' :: '(' :: (name ++ ')' :: tail)
  have htext : text = ('$' :: '(' :: (name ++ [')'])) ++ tail := by simp [text]
  let c : Cursor := .ofText text
  let d : Cursor := ⟨byteLength text, []⟩
  let n := Position.size c + 1
  have hall : c.Reads (('$' :: '(' :: (name ++ [')'])) ++ tail) d := by
    rw [← htext]
    exact ⟨(List.append_nil text).symm, (Nat.zero_add _).symm⟩
  obtain ⟨e, href, hrest⟩ := hall.split
  have hsize : Position.size c < n := Nat.lt_succ_self _
  have hsize' := href.size_lt hsize
  have hd := hrest.size_lt hsize'
  obtain ⟨inner, hproperty⟩ := gives_reference_of_name (o := o) hname href
  let property : Node :=
    .mk ⟨c.offset, e.offset⟩ (.property (.mk inner (.propertyName (String.ofList name))))
  let more := literalNodes ⟨e.offset, d.offset⟩ tail
  have hmore : (literal false o.lists : Read n _).Gives e more d :=
    gives_literal_to_end hsize' htail hlists hrest rfl
  -- The sigil stops literal text at the beginning, and at the end nothing comes next.
  have hnone : (literal false o.lists : Read n _).Gives c [] c := by
    refine gives_literal.2 ⟨hsize, Or.inl ⟨?_, rfl, rfl⟩⟩
    change literalLength o.lists text = 0
    rw [htext, List.cons_append, literalLength, if_pos (by simp [isSigil])]
  have hstep : (nextPart anywhere o false o.lists [] : Branch Cursor Fault n _).Takes c
      (property :: more) d := by
    refine Branch.takes_andThen.2 ⟨property, e, Step.takes_branch.2 ⟨rfl, hsize, hproperty⟩, ?_⟩
    exact Reader.gives_bind.2 ⟨more, d, hmore, Reader.gives_pure.2 ⟨hd, rfl, rfl⟩⟩
  have hends : (nextPart anywhere o false o.lists (property :: more) :
      Branch Cursor Fault n _).Passes d :=
    Branch.passes_andThen.2 (Step.passes_branch.2 ⟨hd, rfl⟩)
  have hconcat : (concat anywhere o false o.lists : Read n _).Gives c
      (joined ⟨c.offset, d.offset⟩ false (property :: more)) d :=
    gives_concat.2 ⟨_, gives_parts.2 ⟨[], c, hnone, hstep.fold hends.fold⟩, rfl⟩
  have hparts : (joined ⟨c.offset, d.offset⟩ false (property :: more)).parts =
      property :: more := by
    unfold more literalNodes
    split <;> rfl
  refine ⟨_, _, inner, _, (parse_eq_ok ho).2 ⟨d, ?_⟩, hparts⟩
  rw [String.toList_ofList]
  refine Reader.gives_offset_bind.2 (Reader.gives_bind.2 ⟨_, d, hconcat, ?_⟩)
  rw [hlists, if_neg Bool.false_ne_true]
  exact Reader.gives_pure.2 ⟨hd, rfl, rfl⟩

end Expr

namespace Evaluation

/-- A property with literal text behind it stands for what the property may stand for, with the text
behind each choice. -/
theorem evaluate_name_tail (x : Evaluation) {name tail : List Char} (hname : Expr.IsName name)
    (htail : ∀ sigil ∈ ['$', '@', '%'], ¬[sigil, '('] <:+: tail) :
    x.evaluate (String.ofList ('$' :: '(' :: (name ++ ')' :: tail))) =
      .ok ((ImportPart.choices x (.property (String.ofList name))).map
        (· ++ String.ofList tail)) := by
  obtain ⟨a, span, inner, last, hparse, hparts⟩ :=
    Expr.parse_name_tail (o := .plain) hname htail rfl rfl
  have hproperty (source : List Char) : x.extend source [""]
      (.mk span (.property (.mk inner (.propertyName (String.ofList name))))) =
        .ok (ImportPart.choices x (.property (String.ofList name))) := by
    rw [extend]
    change Except.ok (x.substitute _ _) = _
    rw [substitute_eq, widen, List.flatMap_singleton]
    simp only [String.empty_append, List.map_id']
  have hmore (source : List Char) (candidates : List String) :
      (Expr.literalNodes last tail).foldlM (x.extend source) candidates =
        .ok (candidates.map (· ++ String.ofList tail)) := by
    unfold Expr.literalNodes
    split
    · rename_i hnil
      simp [hnil, pure, Except.pure]
    · rw [List.foldlM_cons, extend]
      rfl
  rw [evaluate, hparse]
  dsimp only
  rw [extend_eq_foldlM, hparts, List.foldlM_cons, hproperty]
  exact hmore _ _

end Evaluation

end ProjectAnalysis
