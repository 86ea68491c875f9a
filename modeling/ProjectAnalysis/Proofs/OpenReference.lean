import Mathlib.Data.List.Basic
import Mathlib.Data.List.TakeDrop
import Mathlib.Data.List.TakeWhile
import ProjectAnalysis.Completion
import ProjectAnalysis.Proofs.TextRun
import ProjectAnalysis.Resolver

/-! A reference that is being typed. It is found at the end of any text by its last parenthesis, and
what is offered for it are the names of its table, in their order, that begin with what is typed. So
typing on only takes offers away. -/
namespace ProjectAnalysis

/-- What is open before the caret, without the part of its name that is typed. Metadata may be that
of a named item. -/
inductive OpenReference
  | property
  | item
  | metadata (owner : Option String)

/-- The text continues the typed one, up to the case of ASCII letters. -/
def Continues (typed text : String) : Prop :=
  foldAscii typed.toList <+: foldAscii text.toList

/-- The string is a name or a part of one. -/
def IsTyped (s : String) : Prop :=
  ∀ c ∈ s.toList, Trigger.isNameChar c = true

namespace OpenReference

/-- What stands before the name. -/
def lead : OpenReference → String
  | .property => "$("
  | .item => "@("
  | .metadata none => "%("
  | .metadata (some owner) => "%(" ++ owner ++ "."

def trigger (r : OpenReference) (typed : String) : Trigger :=
  match r with
  | .property => .property typed
  | .item => .item typed
  | .metadata owner => .metadata owner typed

/-- The item that metadata is of is named. -/
def IsNamed (r : OpenReference) : Prop :=
  ∀ owner, r = .metadata (some owner) → owner ≠ "" ∧ IsTyped owner

/-- The names that the reference may take. Metadata without an item is that of the item around. -/
def names (g : Generation) (enclosing : Option String) : OpenReference → List String
  | .property => (g.properties true).values.map (·.name)
  | .item => g.items.values.map (·.name)
  | .metadata owner => (owner.or enclosing).toList.flatMap fun item =>
    (g.itemMetadata item true).map (·.name)

end OpenReference

variable {typed more text : String} {cs : List Char}

theorem startsIgnoringCase_iff {lead text : List Char} :
    startsIgnoringCase lead text = true ↔ foldAscii lead <+: foldAscii text := by
  have hlength : (foldAscii lead).length = lead.length := List.length_map _
  rw [startsIgnoringCase, sameIgnoringCase, beq_iff_eq, List.prefix_iff_eq_take, hlength,
    foldAscii, foldAscii, foldAscii, List.map_take]

theorem Continues.of_append (h : Continues (typed ++ more) text) : Continues typed text := by
  refine List.IsPrefix.trans ?_ h
  rw [String.toList_append, foldAscii, foldAscii, List.map_append]
  exact List.prefix_append _ _

/-- No part of a name has one of the characters that a reference is found by. -/
theorem IsTyped.notMem (h : IsTyped typed) : '(' ∉ typed.toList ∧ '.' ∉ typed.toList :=
  ⟨fun hmem => absurd (h _ hmem) (by decide), fun hmem => absurd (h _ hmem) (by decide)⟩

namespace Trigger

theorem splitOnce?_append {sep : Char} {front back : List Char} (h : sep ∉ front) :
    splitOnce? sep (front ++ sep :: back) = some (front, back) := by
  rw [splitOnce?, List.span_eq_takeWhile_dropWhile, Expr.takeWhile_ne_append h,
    Expr.dropWhile_ne_append h]

theorem splitOnce?_eq_none {sep : Char} (h : sep ∉ cs) : splitOnce? sep cs = none := by
  have hcs : cs.dropWhile (· != sep) = [] :=
    List.dropWhile_eq_nil_iff.2 fun c hc => bne_iff_ne.2 fun heq => h (heq ▸ hc)
  rw [splitOnce?, List.span_eq_takeWhile_dropWhile, hcs]

theorem ofMetadata?_unowned (htyped : IsTyped typed) :
    ofMetadata? typed.toList = some (.metadata none typed) := by
  rw [ofMetadata?, splitOnce?_eq_none htyped.notMem.2]
  dsimp only
  rw [if_pos (List.all_eq_true.2 htyped), String.ofList_toList]

theorem ofMetadata?_owned {owner : String} (hne : owner ≠ "") (howner : IsTyped owner)
    (htyped : IsTyped typed) :
    ofMetadata? (owner.toList ++ '.' :: typed.toList) = some (.metadata (some owner) typed) := by
  have hempty : owner.toList.isEmpty = false := by
    rw [List.isEmpty_eq_false_iff]
    exact fun h => hne (String.toList_eq_nil_iff.1 h)
  rw [ofMetadata?, splitOnce?_append howner.notMem.2]
  dsimp only
  rw [hempty, List.all_eq_true.2 howner, List.all_eq_true.2 htyped, String.ofList_toList,
    String.ofList_toList]
  rfl

end Trigger

namespace OpenReference

variable {r : OpenReference}

/-- Whatever stands before it, the reference is found with what is typed of its name. -/
theorem ofText?_eq (hr : r.IsNamed) (htyped : IsTyped typed) (u : String) :
    Trigger.ofText? (u ++ r.lead ++ typed) = some (r.trigger typed) := by
  have hall : typed.toList.all Trigger.isNameChar = true := List.all_eq_true.2 htyped
  -- The text ends with a sigil, a parenthesis and what has no parenthesis in it.
  have hback (lead : String) (sigil : Char) {cs : List Char}
      (hlead : (lead ++ typed).toList = sigil :: '(' :: cs) (hcs : '(' ∉ cs) :
      ((u ++ lead ++ typed).toList.reverse.takeWhile (· != '(')).reverse = cs ∧
        (u ++ lead ++ typed).toList.reverse.dropWhile (· != '(') =
          '(' :: sigil :: u.toList.reverse := by
    have hreverse : (u ++ lead ++ typed).toList.reverse =
        cs.reverse ++ '(' :: sigil :: u.toList.reverse := by
      rw [String.append_assoc, String.toList_append, hlead]
      simp
    have hparen : '(' ∉ cs.reverse := fun h => hcs (List.mem_reverse.1 h)
    rw [hreverse, Expr.takeWhile_ne_append hparen, Expr.dropWhile_ne_append hparen,
      List.reverse_reverse]
    exact ⟨rfl, rfl⟩
  unfold Trigger.ofText?
  dsimp only
  cases r with
  | property =>
    obtain ⟨htaken, hleft⟩ := hback "$(" '$' (by simp) htyped.notMem.1
    rw [lead, htaken, hleft]
    change (if typed.toList.all Trigger.isNameChar then
      some (Trigger.property (String.ofList typed.toList)) else none) = _
    rw [if_pos hall, String.ofList_toList]
    rfl
  | item =>
    obtain ⟨htaken, hleft⟩ := hback "@(" '@' (by simp) htyped.notMem.1
    rw [lead, htaken, hleft]
    change (if typed.toList.all Trigger.isNameChar then
      some (Trigger.item (String.ofList typed.toList)) else none) = _
    rw [if_pos hall, String.ofList_toList]
    rfl
  | metadata owner =>
    cases owner with
    | none =>
      obtain ⟨htaken, hleft⟩ := hback "%(" '%' (by simp) htyped.notMem.1
      rw [lead, htaken, hleft]
      exact Trigger.ofMetadata?_unowned htyped
    | some owner =>
      obtain ⟨hne, howner⟩ := hr owner rfl
      have hparen : '(' ∉ owner.toList ++ '.' :: typed.toList := by
        simp [howner.notMem.1, htyped.notMem.1]
      obtain ⟨htaken, hleft⟩ := hback ("%(" ++ owner ++ ".") '%' (by simp) hparen
      rw [lead, htaken, hleft]
      exact Trigger.ofMetadata?_owned hne howner htyped

end OpenReference

namespace Generation

section
variable {α : Type} [Symbol α] (offer : α → Completion) (symbols : List α)

/-- Offers for symbols that continue what is typed carry just those names that do. -/
theorem labels_continuing (hoffer : ∀ a, (offer a).label = Symbol.name a) :
    ((continuing typed symbols).map offer).map (·.label) =
      (symbols.map Symbol.name).filter fun n => startsIgnoringCase typed.toList n.toList := by
  rw [List.map_map, List.filter_map, continuing]
  exact List.map_congr_left fun a _ => hoffer a

/-- Of these symbols fewer continue a longer text. -/
theorem continuing_append_sublist (typed more : String) :
    ((continuing (typed ++ more) symbols).map offer).Sublist
      ((continuing typed symbols).map offer) := by
  refine (List.monotone_filter_right symbols fun a ha => ?_).map offer
  have hlong : Continues (typed ++ more) (Symbol.name a) := startsIgnoringCase_iff.1 ha
  exact startsIgnoringCase_iff.2 hlong.of_append

end

theorem labels_completions (g : Generation) (r : OpenReference) (typed : String)
    (enclosing : Option String) :
    (g.expressionCompletions (r.trigger typed) enclosing).map (·.label) =
      (r.names g enclosing).filter fun n => startsIgnoringCase typed.toList n.toList := by
  cases r with
  | property => exact labels_continuing _ _ fun _ => rfl
  | item => exact labels_continuing _ _ fun _ => rfl
  | metadata owner =>
    unfold expressionCompletions OpenReference.trigger OpenReference.names
    dsimp only
    cases owner.or enclosing with
    | none => rfl
    | some item =>
      rw [Option.toList_some, List.flatMap_singleton]
      exact labels_continuing _ _ fun _ => rfl

theorem completions_append_sublist (g : Generation) (r : OpenReference) (typed more : String)
    (enclosing : Option String) :
    (g.expressionCompletions (r.trigger (typed ++ more)) enclosing).Sublist
      (g.expressionCompletions (r.trigger typed) enclosing) := by
  cases r with
  | property | item => exact continuing_append_sublist _ _ typed more
  | metadata owner =>
    unfold expressionCompletions OpenReference.trigger
    dsimp only
    cases owner.or enclosing with
    | none => exact List.Sublist.refl _
    | some item => exact continuing_append_sublist _ _ typed more

/-- Wherever a name is being typed it is found out what is typed, and what is offered for it are just
the names that continue it; typing on takes offers away and nothing else. -/
theorem completions_continue (g : Generation) (r : OpenReference) (hr : r.IsNamed) (u : String)
    (htyped : IsTyped typed) :
    Trigger.ofText? (u ++ r.lead ++ typed) = some (r.trigger typed) ∧
      ∀ enclosing, (∀ n ∈ r.names g enclosing, Continues typed n →
          ∃ c ∈ g.expressionCompletions (r.trigger typed) enclosing, c.label = n) ∧
        (∀ c ∈ g.expressionCompletions (r.trigger typed) enclosing,
          c.label ∈ r.names g enclosing ∧ Continues typed c.label) ∧
        ∀ more, (g.expressionCompletions (r.trigger (typed ++ more)) enclosing).Sublist
          (g.expressionCompletions (r.trigger typed) enclosing) := by
  refine ⟨r.ofText?_eq hr htyped u, fun enclosing => ?_⟩
  have hlabels := g.labels_completions r typed enclosing
  refine ⟨fun n hn hcontinues => ?_, fun c hc => ?_,
    fun more => g.completions_append_sublist r typed more enclosing⟩
  · refine List.mem_map.1 (hlabels ▸ List.mem_filter.2 ⟨hn, ?_⟩)
    exact startsIgnoringCase_iff.2 hcontinues
  · have hlabel := List.mem_map_of_mem (f := (·.label)) hc
    rw [hlabels] at hlabel
    obtain ⟨hname, hstarts⟩ := List.mem_filter.1 hlabel
    exact ⟨hname, startsIgnoringCase_iff.1 hstarts⟩

/-- Behind an open reference to an item the reference to metadata is found, and a name that goes on
with other letters than those of ASCII is offered. -/
theorem completions_continue_metadata :
    let r : Resolver := ⟨.standard, false⟩
    let text := "<Project><ItemGroup><Compile><DEpôt>1</DEpôt></Compile></ItemGroup></Project>"
    ∃ g, (r.resolve ⟨"/p/a.proj"⟩ (.ofText text) none .empty).1 = .ok g ∧
      Trigger.ofText? "@(A) == '%(Compile.de" = some (.metadata (some "Compile") "de") ∧
      ∃ c ∈ g.expressionCompletions (.metadata (some "Compile") "de") none, c.label = "DEpôt" := by
  intro r text
  have hrun : (r.resolve ⟨"/p/a.proj"⟩ (.ofText text) none .empty).1.toOption.map
      (fun g => decide ("DEpôt" ∈ OpenReference.names g none (.metadata (some "Compile")))) =
        some true := by
    decide +kernel +revert
  have hnamed : (OpenReference.metadata (some "Compile")).IsNamed := by
    rintro owner ⟨⟩
    exact ⟨by decide, List.all_eq_true.1 rfl⟩
  have htyped : IsTyped "de" := List.all_eq_true.1 rfl
  cases hg : (r.resolve ⟨"/p/a.proj"⟩ (.ofText text) none .empty).1 with
  | error e =>
    rw [hg] at hrun
    cases hrun
  | ok g =>
    rw [hg] at hrun
    have hname := of_decide_eq_true (Option.some.inj hrun)
    obtain ⟨hfound, hoffers⟩ := g.completions_continue _ hnamed "@(A) == '" htyped
    exact ⟨g, rfl, hfound, (hoffers none).1 "DEpôt" hname (by unfold Continues; decide)⟩

end Generation

end ProjectAnalysis
