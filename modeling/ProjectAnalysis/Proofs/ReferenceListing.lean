import Mathlib.Data.List.Nodup
import ProjectAnalysis.Proofs.ReferenceText

/-! The references of an expression against the listing of its nodes. Every property name, item and
metadata that is listed is one of the references and none is told twice. The listing has children
before their parent, so the order of the references comes from where they begin, and no two begin at
one place: of two that stand inside one another the outer one has a sigil of its own. -/
namespace ProjectAnalysis.Expr

/-- What a node refers to, and its name. -/
def Shape.referent? {α : Type} : Shape α → Option (Referent × String)
  | .propertyName name => some (.property, name)
  | .item name _ _ => some (.item, name)
  | .metadata owner name => some (.metadata owner, name)
  | _ => none

/-- The reference that a listed node is. -/
def Entry.reference? (e : Entry) : Option Reference :=
  e.shape.referent?.map fun (referent, name) => ⟨referent, name, e.span⟩

/-- In the order of where they begin, and as they were given where that is the same. -/
def byStart (rs : List Reference) : List Reference :=
  rs.mergeSort fun r s => decide (r.span.start ≤ s.span.start)

/-- The references of an expression over a text. -/
structure ReferencesListed (text : List Char) (n : Node) : Prop where
  /-- There is one for each listed node that is one. -/
  complete : n.references.Perm (n.entries.filterMap Entry.reference?)
  sorted : n.references = byStart (n.entries.filterMap Entry.reference?)
  increasing : n.references.Pairwise fun r s => r.span.start < s.span.start
  spelled : ∀ r ∈ n.references, r.SpelledIn text

variable {text : List Char} {lo hi : Nat} {a n : Node} {xs : List Node} {r : Reference}
  {rs : List Reference}

theorem Shape.referent?_mapState {α β σ : Type} (f : σ → α → σ × β) (s : σ) (shape : Shape α) :
    (shape.mapState f s).2.referent? = shape.referent? := by
  cases shape <;> rfl

/-- A node refers to the same whether or not its children are numbers. -/
theorem Node.reference?_entry (first : Nat) (parent : Option Nat) (n : Node) :
    (n.entry first parent).reference? = n.reference? := by
  have hshape : (n.entry first parent).shape.referent? = n.shape.referent? :=
    Shape.referent?_mapState _ _ _
  rw [Entry.reference?, hshape]
  obtain ⟨span, shape⟩ := n
  cases shape <;> rfl

theorem Node.references_eq (n : Node) :
    n.references = n.reference?.toList ++ n.children.flatMap references := by
  have hflat : (n.children.flatMap preorder).filterMap reference? =
      n.children.flatMap references := List.filterMap_flatMap
  rw [references, preorder_eq, List.filterMap_cons, hflat]
  cases n.reference? <;> rfl

/-- A tree refers to what its listing refers to. -/
theorem Node.references_perm (n : Node) : ∀ (first : Nat) (parent : Option Nat),
    ((n.entriesFrom first parent).filterMap Entry.reference?).Perm n.references := by
  induction n using children_induction with
  | h n ih =>
    -- Each child is listed from where the one before it ends.
    have hgo (cs : List Node) (hcs : ∀ c ∈ cs, c ∈ n.children) (k : Nat) (parent : Option Nat) :
        ((entriesOf k parent cs).filterMap Entry.reference?).Perm (cs.flatMap references) := by
      induction cs generalizing k with
      | nil => exact .refl _
      | cons c cs ihcs =>
        obtain ⟨hc, hcs⟩ := List.forall_mem_cons.1 hcs
        rw [entriesOf_cons, List.filterMap_append, List.flatMap_cons]
        exact (ih c hc k parent).append (ihcs hcs (k + c.count))
    intro first parent
    have hself : [n.entry first parent].filterMap Entry.reference? = n.reference?.toList := by
      rw [← n.reference?_entry first parent, List.filterMap_cons]
      cases (n.entry first parent).reference? <;> rfl
    rw [entriesFrom_eq, List.filterMap_append, references_eq, hself]
    -- The node itself comes last in the listing, and first in the text.
    exact List.perm_append_comm.trans ((hgo n.children (fun _ h => h) first _).append_left _)

/-- The references in a tree that is laid out stand inside its span. -/
theorem Laid.reference_within (h : Laid text lo xs hi) (ha : a ∈ xs) (hr : r ∈ a.references) :
    a.span.start ≤ r.span.start ∧ r.span.stop ≤ a.span.stop := by
  induction h generalizing a with
  | nil => cases ha
  | cons _ _ _ inside _ ihinside ihbehind =>
    rcases List.mem_cons.1 ha with rfl | ha
    · rcases Node.reference_of_mem hr with hr | ⟨c, hc, hr⟩
      · rw [Node.span_of_reference hr]
        exact ⟨Nat.le_refl _, Nat.le_refl _⟩
      · obtain ⟨hstart, hstop, -⟩ := inside.of_mem hc
        obtain ⟨hlo, hhi⟩ := ihinside hc hr
        exact ⟨Nat.le_trans hstart hlo, Nat.le_trans hhi hstop⟩
    · exact ihbehind ha hr

theorem Reference.SpelledIn.start_lt_stop (h : r.SpelledIn text) : r.span.start < r.span.stop := by
  obtain ⟨cs, hslice, hspelling⟩ := h
  obtain ⟨x, more, rfl⟩ := hspelling.ne_nil
  obtain ⟨-, -, -, -, hstop⟩ := Span.split_of_slice? hslice
  rw [hstop]
  exact Nat.lt_add_of_pos_right (byteLength_pos (List.cons_ne_nil _ _))

/-- In trees that are laid out, each reference begins behind the one before it. -/
theorem Laid.references_increasing (h : Laid text lo xs hi) (hx : Mentions text xs) :
    (xs.flatMap Node.references).Pairwise fun r s => r.span.start < s.span.start := by
  induction h with
  | nil => exact .nil
  | @cons lo hi a more _ hstart hstop inside behind ihinside ihbehind =>
    obtain ⟨ha, hmore⟩ := List.forall_mem_cons.1 hx
    have hchildren : Mentions text a.children := fun c hc m hm =>
      ha m (Node.mem_preorder_iff.2 (Or.inr ⟨c, hc, hm⟩))
    have hself := ha a Node.mem_preorder_self
    rw [List.flatMap_cons, List.pairwise_append]
    refine ⟨?_, ihbehind hmore, fun r hr s hs => ?_⟩
    -- Inside one tree the node comes before all that its children hold.
    · rw [Node.references_eq, List.pairwise_append]
      refine ⟨?_, ihinside hchildren, fun r hr s hs => ?_⟩
      · cases a.reference? <;> simp
      · obtain ⟨c, hc, hs⟩ := List.mem_flatMap.1 hs
        have hbehind := (hself r (Option.mem_toList.1 hr)).2 c hc
        exact Nat.lt_of_lt_of_le hbehind (inside.reference_within hc hs).1
    -- Of two trees the first one ends before the second one begins, and no reference is empty.
    · obtain ⟨b, hb, hs⟩ := List.mem_flatMap.1 hs
      obtain ⟨m, hm, hr'⟩ := List.mem_filterMap.1 hr
      have hsolid := (ha m hm r hr').1.start_lt_stop
      have hwithin := (Laid.cons (Nat.le_refl _) hstart hstop inside behind).reference_within
        List.mem_cons_self hr
      have hafter := (behind.of_mem hb).1
      have hinside := (behind.reference_within hb hs).1
      omega

/-- What already increases is left as it is by sorting, whatever order it is given in. -/
theorem eq_byStart (h : rs.Pairwise fun r s => r.span.start < s.span.start)
    {given : List Reference} (hperm : rs.Perm given) : rs = byStart given := by
  have hdistinct : (rs.map fun r => r.span.start).Nodup :=
    List.pairwise_map.2 (h.imp fun hlt => Nat.ne_of_lt hlt)
  have hsorted : (byStart given).Pairwise fun r s =>
      decide (r.span.start ≤ s.span.start) = true := by
    refine List.pairwise_mergeSort (fun r s t hrs hst => ?_) (fun r s => ?_) given
    · exact decide_eq_true (Nat.le_trans (of_decide_eq_true hrs) (of_decide_eq_true hst))
    · simpa using Nat.le_total r.span.start s.span.start
  have hsame : rs.Perm (byStart given) := hperm.trans (List.mergeSort_perm _ _).symm
  refine hsame.eq_of_pairwise (fun r s hr hs hrs hsr => ?_)
    (h.imp fun hlt => decide_eq_true (Nat.le_of_lt hlt)) hsorted
  have hstart := Nat.le_antisymm (of_decide_eq_true hrs) (of_decide_eq_true hsr)
  exact List.inj_on_of_nodup_map hdistinct hr (hsame.mem_iff.2 hs) hstart

/-- The references of an expression that is read are all its property names, items and metadata,
sorted by where they begin, no two at one place, each written out at its span. -/
theorem parse_references {o : Options} {text : String} {n : Node} (h : parse o text = .ok n) :
    ReferencesListed text.toList n := by
  obtain ⟨hi, hlaid⟩ := parse_laid h
  have hrefers := parse_refers h
  have hincreasing := hlaid.references_increasing (List.forall_mem_singleton.2 hrefers)
  rw [List.flatMap_singleton] at hincreasing
  have hperm := (n.references_perm 0 none).symm
  refine ⟨hperm, eq_byStart hincreasing hperm, hincreasing, fun r hr => ?_⟩
  obtain ⟨m, hm, href⟩ := List.mem_filterMap.1 hr
  exact (hrefers m hm r href).1

/-- A reference in the quoted transform of an item, and one in the call behind it. -/
theorem parse_references_transform : ∃ n,
    parse .full "$(A.Trim());@(B->'%(C.D)'->F($(G)), ';')" = .ok n ∧
      ReferencesListed "$(A.Trim());@(B->'%(C.D)'->F($(G)), ';')".toList n := by
  have hread :
      (parse .full "$(A.Trim());@(B->'%(C.D)'->F($(G)), ';')").toOption.isSome = true := by
    decide +kernel
  cases hparse : parse .full "$(A.Trim());@(B->'%(C.D)'->F($(G)), ';')" with
  | error e =>
    rw [hparse] at hread
    cases hread
  | ok n => exact ⟨n, rfl, parse_references hparse⟩

end ProjectAnalysis.Expr
