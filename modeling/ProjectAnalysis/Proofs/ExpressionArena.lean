import ProjectAnalysis.Proofs.ConditionLanguage
import ProjectAnalysis.Proofs.NodeLayout
import ProjectAnalysis.Proofs.NodeNumbering

/-! Every expression that is read from a text is listed in postorder, each node with its parent and
its children, and each one standing in the text inside its parent and behind its siblings. -/
namespace ProjectAnalysis.Expr

variable {text : List Char} {lo hi : Nat} {a root : Node} {xs : List Node}

theorem Laid.of_mem (h : Laid text lo xs hi) (ha : a ∈ xs) :
    lo ≤ a.span.start ∧ a.span.stop ≤ hi ∧ Boundary text a.span.start ∧
      Boundary text a.span.stop ∧ Laid text a.span.start a.children a.span.stop := by
  induction h with
  | nil _ => cases ha
  | cons h hstart hstop inside behind _ ihbehind =>
    rcases List.mem_cons.1 ha with rfl | ha
    · exact ⟨h, behind.le, hstart, hstop, inside⟩
    · obtain ⟨hlo, hbehind⟩ := ihbehind ha
      exact ⟨Nat.le_trans h (Nat.le_trans inside.le hlo), hbehind⟩

theorem Laid.pairwise (h : Laid text lo xs hi) :
    xs.Pairwise fun a b => a.span.stop ≤ b.span.start := by
  induction h with
  | nil _ => exact .nil
  | cons _ _ _ _ behind _ ihbehind =>
    exact .cons (fun b hb => (behind.of_mem hb).1) ihbehind

/-- What is laid out is laid out at every node of the tree. -/
theorem Laid.numbered (h : Laid text lo [root] hi) {first : Nat} {parent : Option Nat}
    (ha : root.Numbered first parent a) : Boundary text a.span.start ∧
      Boundary text a.span.stop ∧ Laid text a.span.start a.children a.span.stop := by
  induction ha with
  | root => exact (h.of_mem List.mem_cons_self).2.2
  | child _ hc ih =>
    exact (ih.2.2.of_mem (Node.mem_children_of_mem_numberedChildren hc)).2.2

theorem parse_laid {o : Options} {text : String} {n : Node} (h : parse o text = .ok n) :
    ∃ hi, Laid text.toList 0 [n] hi := by
  have hstart : Inside text.toList (.ofText text.toList) := inside_ofText _
  replace h := mapError_eq_ok.1 h
  split at h
  · obtain ⟨s, hstep, ⟨-, rfl⟩ | ⟨-, u, hlevel, -⟩⟩ := wholeCondition_eq_ok.1 h
    · have hempty : Laid text.toList 0 [.mk ⟨0, 0⟩ (.text "" false)] 0 :=
        laid_leaf hstart (.refl _) rfl
      exact ⟨0, hempty⟩
    · obtain ⟨c, hblanks, hc⟩ := at_of_step hstep
      obtain ⟨d, -, -, hlaid⟩ := (forms_level .disjunction hlevel).laid hc
        (hstart.reaches hblanks.reaches)
      exact ⟨d.offset, hlaid.weaken_start (Nat.zero_le _)⟩
  · obtain ⟨d, hsegments⟩ := from_eq_ok.1 h
    obtain ⟨-, nodes, hspells, rfl | rfl⟩ := spells_segments hsegments
    · exact ⟨d.offset, hspells.laid hstart⟩
    · exact ⟨d.offset, laid_node hstart hspells.reaches (hspells.laid hstart)⟩

end ProjectAnalysis.Expr
