import ProjectAnalysis.Proofs.PlainReference

/-! Reading undoes printing: the canonical text of a well formed expression is read as that very
expression, but for the places. -/
namespace ProjectAnalysis.Expr

theorem readsBack_lastSegment {text : Phrase (.parts false)} (htext : ReadsBack text) :
    ReadsBack (.lastSegment text) := by
  intro n c d hsize hread hend
  obtain ⟨a, ha, htree⟩ := htext.concat hsize hread (Or.inl hend)
  have hmeaning : [a].map Node.tree = (Phrase.lastSegment text).meaning := by
    rw [List.map_singleton, htree]
    rfl
  refine ⟨a, d, [a], ha, fun before => ?_, hmeaning⟩
  have hsep : d.peek ≠ some ';' := by
    rw [Cursor.peek, hend]
    intro hpeek
    cases hpeek
  apply Branch.Passes.fold
  exact Branch.passes_andThen.2 (Branch.onChar_passes (Cursor.Reads.size_lt hread hsize) hsep)

theorem readsBack_segment {text : Phrase (.parts false)} {more : Phrase .segments}
    (htext : ReadsBack text) (hmore : ReadsBack more) : ReadsBack (.segment text more) := by
  intro n c d hsize hread hend
  obtain ⟨b, hc, htail⟩ := Cursor.Reads.split hread
  obtain ⟨e, hsep, he⟩ := htail.split_cons
  have hb := hc.size_lt hsize
  obtain ⟨a, ha, htree⟩ := htext.concat hsize hc (Or.inr ⟨rfl, htail.peek⟩)
  obtain ⟨first, f, nodes, hfirst, hfold, hnodes⟩ := hmore (hsep.size_lt hb) he hend
  have hmeaning : (a :: nodes).map Node.tree = (Phrase.segment text more).meaning := by
    rw [List.map_cons, htree, hnodes]
    rfl
  refine ⟨a, b, a :: nodes, ha, fun before => ?_, hmeaning⟩
  have hrest := hfold (before ++ [a])
  rw [List.append_assoc before [a] nodes] at hrest
  have hf := Nat.lt_of_le_of_lt hfirst.size_le (hsep.size_lt hb)
  have hstep : (nextSegment anywhere .full (before ++ [a]) : Branch Cursor Fault n _).Takes b
      (before ++ [a] ++ [first]) f := by
    refine Branch.takes_andThen.2 ⟨';', e, Branch.onChar_takes hb hsep, ?_⟩
    exact Reader.gives_bind.2 ⟨first, f, hfirst, Reader.gives_pure.2 ⟨hf, rfl, rfl⟩⟩
  exact hstep.fold hrest

/-- Every well formed phrase is read back: one case for each way to make a phrase. -/
theorem Phrase.WellFormed.readsBack {rule : TextRule} {p : Phrase rule} (h : p.WellFormed) :
    ReadsBack p := by
  induction p with
  | noParts => exact readsBack_noParts
  | literal run more ih => exact readsBack_literal h.1 h.2.1 (ih h.2.2)
  | part r more hr hmore => exact readsBack_part (hr h.1) (hmore h.2)
  | lastSegment text ih => exact readsBack_lastSegment (ih h)
  | segment text more htext hmore => exact readsBack_segment (htext h.1) (hmore h.2)
  | property b ih => exact readsBack_property (ih h)
  | item x ts s hts hs => exact readsBack_item (hts h.1) (hs h.2)
  | metadata x => exact readsBack_metadata x
  | ownedMetadata owner x => exact readsBack_ownedMetadata owner x
  | registry text => exact readsBack_registry text
  | body v ih => exact readsBack_body (ih h)
  | name x => exact readsBack_name x
  | staticCall cls f c ih => exact readsBack_staticCall (ih h)
  | member target f c htarget hc => exact readsBack_member (htarget h.1) (hc h.2)
  | index target l htarget hl => exact readsBack_index (htarget h.1) (hl h.2)
  | noCall => exact readsBack_noCall
  | call l ih => exact readsBack_call (ih h)
  | noArguments => exact readsBack_noArguments
  | argumentList as ih => exact readsBack_argumentList (ih h)
  | lastArgument a ih => exact readsBack_lastArgument (ih h)
  | argument a more ha hmore => exact readsBack_argument (ha h.1) (hmore h.2)
  | quotedArgument l ih => exact readsBack_quotedArgument (ih h)
  | referenceArgument r ih => exact readsBack_referenceArgument (ih h)
  | number x => exact readsBack_number x
  | word x => exact readsBack_word x
  | quoted mark content ih => exact readsBack_quoted h.1 h.2.1 (ih h.2.2)
  | noTransform => exact readsBack_noTransform
  | quotedTransform l ih => exact readsBack_quotedTransform (ih h)
  | functionTransform before f l hbefore hl =>
    exact readsBack_functionTransform (hbefore h.1) (hl h.2)
  | noSeparator => exact readsBack_noSeparator
  | separator l ih => exact readsBack_separator (ih h)

/-- A whole text is read back. -/
theorem Phrase.WellFormed.gives_segments {p : Phrase .segments} (h : p.WellFormed) {n : Nat}
    {c d : Cursor} (hsize : Position.size c < n) (hread : c.Reads p.print d) (hend : d.rest = []) :
    ∃ a, (segments .full : Read n _).Gives c a d ∧ a.tree = p.expression := by
  obtain ⟨first, e, nodes, hfirst, hfold, hnodes⟩ := h.readsBack hsize hread hend
  have hd := hread.size_lt hsize
  have hlist (nodes : List Node) : (do
      return .mk ⟨c.offset, ← Reader.offset⟩ (.list nodes) : Read n Node).Gives d
        (.mk ⟨c.offset, d.offset⟩ (.list nodes)) d :=
    Reader.gives_offset_bind.2 (Reader.gives_pure.2 ⟨hd, rfl, rfl⟩)
  unfold Phrase.expression
  rw [← hnodes]
  -- A single segment stands for itself.
  rcases nodes with _ | ⟨a, _ | ⟨b, more⟩⟩
  · exact ⟨_, Reader.gives_offset_bind.2 (Reader.gives_bind.2 ⟨first, e, hfirst,
      Reader.gives_bind.2 ⟨[], d, hfold [], hlist []⟩⟩), Node.tree_mk _ _⟩
  · exact ⟨a, Reader.gives_offset_bind.2 (Reader.gives_bind.2 ⟨first, e, hfirst,
      Reader.gives_bind.2 ⟨[a], d, hfold [], Reader.gives_pure.2 ⟨hd, rfl, rfl⟩⟩⟩), rfl⟩
  · exact ⟨_, Reader.gives_offset_bind.2 (Reader.gives_bind.2 ⟨first, e, hfirst,
      Reader.gives_bind.2 ⟨a :: b :: more, d, hfold [], hlist _⟩⟩), Node.tree_mk _ _⟩

/-- A canonical text belongs to one expression only, however it was put into phrases. -/
theorem print_unambiguous {p p' : Phrase .segments} (h : p.WellFormed) (h' : p'.WellFormed)
    (hprint : p.print = p'.print) : p.expression = p'.expression := by
  have hread := Cursor.reads_all 0 p.print
  obtain ⟨a, ha, htree⟩ := h.gives_segments (Nat.lt_succ_self _) hread rfl
  have hread' := hread
  rw [hprint] at hread'
  obtain ⟨b, hb, htree'⟩ := h'.gives_segments (Nat.lt_succ_self _) hread' rfl
  rw [← hprint] at hb
  have hsame := (from_eq_ok.2 ⟨_, ha⟩).symm.trans (from_eq_ok.2 ⟨_, hb⟩)
  rw [← htree, ← htree', Except.ok.inj hsame]

/-- Reading undoes printing: the canonical text of a well formed expression is read, and what is
read is that expression. -/
theorem parse_print {p : Phrase .segments} (h : p.WellFormed) :
    ∃ a, parse .full (String.ofList p.print) = .ok a ∧ a.tree = p.expression := by
  have hread := Cursor.reads_all 0 p.print
  obtain ⟨a, ha, htree⟩ := h.gives_segments (Nat.lt_succ_self _) hread rfl
  have hfrom := from_eq_ok.2 ⟨_, ha⟩
  refine ⟨a, ?_, htree⟩
  have hparse : parse .full (String.ofList p.print) =
      (Read.from (.ofText (String.ofList p.print).toList) (segments .full)).mapError
        (·.within (String.ofList p.print)) := rfl
  rw [hparse, String.toList_ofList, Cursor.ofText, hfrom]
  rfl

/-- A call and an index, transforms after a name that ends in `-`, and a static call over a registry
value. -/
def mixedPhrase : Phrase .segments :=
  .segment
    (.literal ['a'] (.part (.property (.body (.index
      (.member (.name ⟨['B'], by decide⟩) ⟨['C'], by decide⟩ (.call (.argumentList
        (.argument (.quotedArgument (.quoted '\'' (.literal ['x', ';'] .noParts)))
          (.lastArgument (.number ⟨['-', '1'], by decide⟩))))))
      (.argumentList (.lastArgument (.word ⟨['D'], by decide⟩)))))) .noParts))
    (.segment
      (.part (.item ⟨['I', '-'], by decide⟩
        (.functionTransform
          (.quotedTransform (.quoted '\''
            (.part (.ownedMetadata ⟨['J'], by decide⟩ ⟨['K'], by decide⟩) .noParts)))
          ⟨['F'], by decide⟩ .noArguments)
        (.separator (.quoted '"' (.literal [','] .noParts)))) .noParts)
      (.lastSegment (.part (.property (.body (.staticCall ⟨['S', '.', 'T'], by decide⟩
        ⟨['G'], by decide⟩ (.call (.argumentList (.lastArgument (.referenceArgument
          (.property (.registry ⟨['R', '@', 'V'], by decide⟩))))))))) .noParts)))

theorem parse_print_mixed : mixedPhrase.WellFormed ∧
    ∃ a, parse .full "a$(B.C('x;',-1)[D]);@(I-->'%(J.K)'->F(),\",\");$([S.T]::G($(Registry:R@V)))" =
      .ok a ∧ a.tree = mixedPhrase.expression := by
  have hwellFormed : mixedPhrase.WellFormed := by
    repeat' first | exact trivial | apply And.intro | decide
  have hprint : mixedPhrase.print =
      "a$(B.C('x;',-1)[D]);@(I-->'%(J.K)'->F(),\",\");$([S.T]::G($(Registry:R@V)))".toList := by
    decide
  obtain ⟨a, hparse, htree⟩ := parse_print hwellFormed
  rw [hprint, String.ofList_toList] at hparse
  exact ⟨hwellFormed, a, hparse, htree⟩

end ProjectAnalysis.Expr
