import Mathlib.Data.List.Forall2
import ProjectAnalysis.ImportValue
import ProjectAnalysis.Proofs.LosslessTree

/-! The candidates of an import against the parts of its text. The text is literal pieces and
property references in a row; the first reference that is no plain name decides on the fault, and
without one the candidates are all ways to choose a meaning for each part, the choice for the
leftmost part being the most significant. -/
namespace ProjectAnalysis

/-- A part of the text of an import. -/
inductive ImportPart
  | literal (text : String)
  /-- `$(name)` -/
  | property (name : String)
  | registryValue
  /-- A property with members or an index, or a static call. -/
  | propertyFunction

namespace ImportPart

/-- Why a part cannot be evaluated. -/
def fault? : ImportPart → Option EvaluationFault
  | .literal _ | .property _ => none
  | .registryValue => some .registryValue
  | .propertyFunction => some .propertyFunction

/-- What a part may stand for, in the order of the search. -/
def choices (x : Evaluation) : ImportPart → List String
  | .literal text => [text]
  | .property name =>
    match x.searchPaths.get? name with
    | some paths => paths
    | none => [(x.property? name).getD ""]
  | .registryValue | .propertyFunction => []

/-- The part that a node over a text is. -/
inductive Of (text : List Char) : Expr.Node → ImportPart → Prop
  | literal {span : Span} {value : String} (h : span.slice? text = some value.toList) :
      Of text (.mk span (.text value false)) (.literal value)
  | property {span inner : Span} {name : String} (hsigil : Expr.FromSigil text span)
      (h : inner.slice? text = some name.toList) :
      Of text (.mk span (.property (.mk inner (.propertyName name)))) (.property name)
  | registryValue {span inner : Span} {value : String} (hsigil : Expr.FromSigil text span) :
      Of text (.mk span (.property (.mk inner (.registryValue value)))) .registryValue
  | propertyFunction {span inner : Span} {target : Expr.Node}
      {function arguments : Option Expr.Node} (hsigil : Expr.FromSigil text span) :
      Of text (.mk span (.property (.mk inner (.invocation target function arguments))))
        .propertyFunction

end ImportPart

/-- The parts of a text as nodes. -/
def Expr.Node.parts (n : Expr.Node) : List Expr.Node :=
  match n.shape with
  | .concat parts => parts
  | _ => [n]

/-- The parts stand right behind one another from the beginning of the text to its end. -/
structure ImportPart.InOrder (text : List Char) (n : Expr.Node) (parts : List ImportPart) :
    Prop where
  tiled : Expr.Tiled text [] 0 n.parts (byteLength text)
  each : List.Forall₂ (Of text) n.parts parts

/-- All ways to choose one entry of each list, by their positions: each way once, and the earlier
lists decide on the order before the later ones. -/
structure WaysInOrder (choices : List (List String)) (ways : List (List Nat)) : Prop where
  mem_iff : ∀ way, way ∈ ways ↔ List.Forall₂ (fun i c => i < c.length) way choices
  increasing : ways.Pairwise (· < ·)

/-- What is chosen by a way, put together. -/
def chosen (choices : List (List String)) (way : List Nat) : String :=
  String.join (List.zipWith (fun c i => c.getD i "") choices way)

/-- The ways to choose, those with an earlier entry of the first list first. -/
def waysOf : List (List String) → List (List Nat)
  | [] => [[]]
  | c :: choices => (List.range c.length).flatMap fun i => (waysOf choices).map (i :: ·)

variable {choices : List (List String)} {text : List Char}

theorem mem_waysOf (way : List Nat) :
    way ∈ waysOf choices ↔ List.Forall₂ (fun i c => i < c.length) way choices := by
  induction choices generalizing way with
  | nil => simp [waysOf]
  | cons c choices ih =>
    cases way with
    | nil => simp [waysOf]
    | cons i way => simp [waysOf, ih]

theorem waysOf_inOrder (choices : List (List String)) : WaysInOrder choices (waysOf choices) := by
  refine ⟨mem_waysOf, ?_⟩
  induction choices with
  | nil => exact List.pairwise_singleton _ _
  | cons c choices ih =>
    rw [waysOf, List.pairwise_flatMap]
    constructor
    · -- Under one entry of the first list the other lists decide.
      intro i _
      rw [List.pairwise_map]
      exact ih.imp fun h => List.cons_lt_cons_iff.2 (Or.inr ⟨rfl, h⟩)
    · apply List.pairwise_lt_range.imp
      intro i j hij way hway other hother
      obtain ⟨way, -, rfl⟩ := List.mem_map.1 hway
      obtain ⟨other, -, rfl⟩ := List.mem_map.1 hother
      exact List.cons_lt_cons_iff.2 (Or.inl hij)

theorem chosen_cons (c : List String) (choices : List (List String)) (i : Nat) (way : List Nat) :
    chosen (c :: choices) (i :: way) = c.getD i "" ++ chosen choices way := by
  simp [chosen, String.join_cons]

/-- The entries of the first list in front of what the others give. -/
theorem map_chosen_waysOf (c : List String) (choices : List (List String)) :
    (waysOf (c :: choices)).map (chosen (c :: choices)) =
      c.flatMap fun first => (waysOf choices).map fun way => first ++ chosen choices way := by
  have hrange : (List.range c.length).map (c.getD · "") = c := by
    apply List.ext_getElem
    · simp
    · intro i hi hi'
      simp [hi']
  have hways (i : Nat) : ((waysOf choices).map (i :: ·)).map (chosen (c :: choices)) =
      (waysOf choices).map fun way => c.getD i "" ++ chosen choices way := by
    rw [List.map_map]
    exact List.map_congr_left fun way _ => chosen_cons c choices i way
  calc (waysOf (c :: choices)).map (chosen (c :: choices))
      = (List.range c.length).flatMap fun i =>
          (waysOf choices).map fun way => c.getD i "" ++ chosen choices way := by
        rw [waysOf, List.map_flatMap]
        exact congrArg (List.flatMap · _) (funext hways)
    _ = ((List.range c.length).map (c.getD · "")).flatMap fun first =>
          (waysOf choices).map fun way => first ++ chosen choices way := by
        rw [List.flatMap_map]
    _ = _ := by rw [hrange]

/-- Puts each choice behind each candidate. -/
def widen (candidates choices : List String) : List String :=
  candidates.flatMap fun candidate => choices.map (candidate ++ ·)

/-- Choosing part after part, from the left, is choosing a way. -/
theorem foldl_widen (choices : List (List String)) (candidates : List String) :
    choices.foldl widen candidates = candidates.flatMap fun candidate =>
      (waysOf choices).map fun way => candidate ++ chosen choices way := by
  induction choices generalizing candidates with
  | nil => simp [waysOf, chosen]
  | cons c choices ih =>
    -- The candidates so far are what the induction is general in: the first choice goes into them.
    rw [List.foldl_cons, ih, widen, List.flatMap_assoc]
    apply congrArg (List.flatMap · candidates)
    funext candidate
    have hfirst : (waysOf (c :: choices)).map (fun way => candidate ++ chosen (c :: choices) way) =
        ((waysOf (c :: choices)).map (chosen (c :: choices))).map (candidate ++ ·) := by
      rw [List.map_map]
      rfl
    rw [hfirst, map_chosen_waysOf, List.map_flatMap, List.flatMap_map]
    simp only [List.map_map, Function.comp_def, String.append_assoc]

namespace Expr

variable {o : Options} {c d : Cursor} {a : Node} {nodes : List Node}

/-- A value is a plain name, or something is asked of it. -/
theorem shape_of_value (h : Spells o .value c [a] d) : (∃ name, a.shape = .propertyName name) ∨
    ∃ target function arguments, a.shape = .invocation target function arguments := by
  generalize hrule : TextRule.value = rule at h
  generalize hnodes : [a] = nodes at h
  induction h with
  | name =>
    obtain rfl := List.singleton_inj.1 hnodes
    exact Or.inl ⟨_, rfl⟩
  | staticCall | member | index =>
    obtain rfl := List.singleton_inj.1 hnodes
    exact Or.inr ⟨_, _, _, rfl⟩
  | afterValue before w ih => exact ih rfl hnodes
  | _ => cases hrule

/-- A property reference is one of three parts. -/
theorem exists_part_of_property (ho : o.items = false) (hm : o.metadata = false)
    (h : Spells o .reference c [a] d) (hc : Inside text c) :
    ∃ part, ImportPart.Of text a part := by
  have hsigil := h.fromSigil hc
  have hexact := h.exactAll hc
  cases h with
  | item hitems => exact absurd (ho.symm.trans hitems) Bool.false_ne_true
  | metadata hmetadata | ownedMetadata hmetadata =>
    exact absurd (hm.symm.trans hmetadata) Bool.false_ne_true
  | @property _ _ _ _ _ _ _ b hopen w₁ body w₃ hclose =>
    have hbody : Exact text b := by
      apply hexact _ List.mem_cons_self
      rw [Node.preorder_eq]
      exact List.mem_cons_of_mem _ (List.mem_flatMap.2
        ⟨b, List.mem_cons_self, Node.mem_preorder_self⟩)
    obtain ⟨inner, shape⟩ := b
    cases body with
    | registry => exact ⟨_, .registryValue hsigil⟩
    | body hvalue =>
      rcases shape_of_value hvalue with ⟨name, hshape⟩ | ⟨target, function, arguments, hshape⟩
      · obtain rfl : shape = .propertyName name := hshape
        exact ⟨_, .property hsigil hbody⟩
      · obtain rfl : shape = .invocation target function arguments := hshape
        exact ⟨_, .propertyFunction hsigil⟩

theorem exists_parts (ho : o.items = false) (hm : o.metadata = false)
    (h : Spells o (.parts false) c nodes d) (hc : Inside text c) :
    ∃ parts, List.Forall₂ (ImportPart.Of text) nodes parts := by
  -- The parts are read from the left, so each step adds one at the end.
  generalize hrule : TextRule.parts false = rule at h
  induction h with
  | noParts => exact ⟨[], .nil⟩
  | literal before hcs hne ih =>
    cases hrule
    obtain ⟨parts, hparts⟩ := ih ho hm hc rfl
    have hvalue := (hc.reaches before.reaches).slice?_ofList hcs
    exact ⟨_, List.rel_append hparts (.cons (.literal hvalue) .nil)⟩
  | part before href ih =>
    obtain ⟨parts, hparts⟩ := ih ho hm hc hrule
    obtain ⟨part, hpart⟩ := exists_part_of_property ho hm href (hc.reaches before.reaches)
    exact ⟨_, List.rel_append hparts (.cons hpart .nil)⟩
  | _ => cases hrule

/-- Parts that are joined to one node are its parts again; joining nothing gives empty text. -/
theorem parts_joined {span : Span} {q : Bool} (h : Spells o (.parts q) c nodes d)
    (hne : nodes ≠ []) : (joined span q nodes).parts = nodes := by
  have hsingle {a : Node} (ha : ∀ parts, a.shape ≠ .concat parts) : a.parts = [a] := by
    unfold Node.parts
    split
    · rename_i parts hshape
      exact absurd hshape (ha parts)
    · rfl
  unfold joined
  split
  · exact absurd rfl hne
  · rename_i a
    apply hsingle
    intro parts hparts
    rcases h.part_shape a List.mem_cons_self with ⟨value, hshape⟩ | href
    · cases hshape.symm.trans hparts
    · rw [hparts] at href
      cases href
  · rfl

/-- A text that is read without options is literal pieces and property references in a row. -/
theorem parse_inOrder {text : String} {n : Node} (h : parse .plain text = .ok n) :
    ∃ parts, ImportPart.InOrder text.toList n parts := by
  have hstart : Inside text.toList (.ofText text.toList) := inside_ofText _
  have hlossless := parse_lossless rfl h
  -- No character is lost: a node for several parts is tiled by them, and any other by itself.
  have htiled : Tiled text.toList [] 0 n.parts (byteLength text.toList) := by
    have hspan := hlossless.span_eq
    have hexact := hlossless.exact n Node.mem_preorder_self
    unfold Node.parts
    split
    · rename_i parts hshape
      unfold Exact at hexact
      rw [hshape, hspan] at hexact
      exact hexact
    · exact tiled_last hspan (Nat.zero_le _)
  obtain ⟨d, hsegments⟩ := (parse_eq_ok rfl).1 h
  obtain ⟨first, e, hfirst, hthen⟩ := Reader.gives_bind.1 (Reader.gives_offset_bind.1 hsegments)
  obtain ⟨-, rfl, rfl⟩ := Reader.gives_pure.1 hthen
  obtain ⟨nodes, hnodes, hjoined, -⟩ := spells_concat innerSpells_anywhere hfirst
  by_cases hne : nodes = []
  · -- Nothing was read, and the one part is empty text.
    subst hne hjoined
    have hempty := hlossless.exact _ Node.mem_preorder_self
    exact ⟨[.literal ""], htiled, .cons (.literal hempty) .nil⟩
  · obtain ⟨parts, hparts⟩ := exists_parts rfl rfl hnodes hstart
    refine ⟨parts, htiled, ?_⟩
    rwa [hjoined, parts_joined hnodes hne]

end Expr

namespace Evaluation

variable (x : Evaluation)

theorem substitute_eq (name : String) (candidates : List String) :
    x.substitute name candidates = widen candidates (ImportPart.choices x (.property name)) := by
  unfold substitute ImportPart.choices widen
  cases hpaths : x.searchPaths.get? name with
  | some paths => simp [hpaths]
  | none => simp [hpaths, List.map_eq_flatMap]

/-- One part puts its choices behind the candidates, or ends the evaluation. -/
theorem extend_part {n : Expr.Node} {part : ImportPart} (h : ImportPart.Of text n part)
    (source : List Char) (candidates : List String) :
    x.extend source candidates n = match part.fault? with
      | some fault => .error fault
      | none => .ok (widen candidates (part.choices x)) := by
  cases h with
  | literal h =>
    rw [extend]
    simp [Expr.Node.shape, ImportPart.fault?, ImportPart.choices, widen, List.map_eq_flatMap]
  | property hsigil h =>
    rw [extend]
    exact congrArg Except.ok (x.substitute_eq _ candidates)
  | registryValue hsigil | propertyFunction hsigil =>
    rw [extend]
    rfl

/-- The parts are taken from the left, up to the first that cannot be evaluated. -/
theorem foldlM_extend {nodes : List Expr.Node} {parts : List ImportPart}
    (h : List.Forall₂ (ImportPart.Of text) nodes parts) (source : List Char)
    (candidates : List String) :
    nodes.foldlM (x.extend source) candidates = match parts.findSome? ImportPart.fault? with
      | some fault => .error fault
      | none => .ok ((parts.map (ImportPart.choices x)).foldl widen candidates) := by
  induction h generalizing candidates with
  | nil => rfl
  | @cons n part nodes parts hpart _ ih =>
    rw [List.foldlM_cons, x.extend_part hpart, List.findSome?_cons]
    cases part.fault? with
    | some fault => rfl
    | none => exact ih _

theorem extend_eq_foldlM (n : Expr.Node) (source : List Char) (candidates : List String) :
    x.extend source candidates n = n.parts.foldlM (x.extend source) candidates := by
  obtain ⟨span, shape⟩ := n
  by_cases hconcat : ∃ parts, shape = .concat parts
  · obtain ⟨parts, rfl⟩ := hconcat
    rw [extend]
    simp only [Expr.Node.shape, Expr.Node.parts]
    rw [List.foldlM_subtype (g := x.extend source) fun _ _ _ => rfl, List.unattach_attach]
  · have hparts : (Expr.Node.mk span shape).parts = [.mk span shape] := by
      unfold Expr.Node.parts
      split
      · rename_i parts hshape
        exact absurd ⟨parts, hshape⟩ hconcat
      · rfl
    rw [hparts]
    simp only [List.foldlM_cons, List.foldlM_nil, bind_pure]

/-- A text that is read comes to what its parts do. -/
theorem evaluate_of_parse {text : String} {n : Expr.Node} (h : Expr.parse .plain text = .ok n) :
    ∃ parts, ImportPart.InOrder text.toList n parts ∧
      x.evaluate text = match parts.findSome? ImportPart.fault? with
        | some fault => .error fault
        | none => .ok ((waysOf (parts.map (ImportPart.choices x))).map
            (chosen (parts.map (ImportPart.choices x)))) := by
  obtain ⟨parts, hparts⟩ := Expr.parse_inOrder h
  refine ⟨parts, hparts, ?_⟩
  rw [evaluate, h]
  dsimp only
  rw [extend_eq_foldlM, x.foldlM_extend hparts.each, foldl_widen]
  simp only [List.flatMap_cons, List.flatMap_nil, List.append_nil, String.empty_append]

/-- An import is evaluated as it is defined. A text that is no expression gives the fault of the
expression. Of the parts of any other text the first that is no literal and no plain name decides on
the fault; without one the candidates are what the ways to choose a meaning for each part come to,
and names that are the same name choose from the same. A construct that cannot be evaluated is
never met. -/
theorem evaluate_parts (text : String) :
    (match Expr.parse .plain text with
      | .error fault => x.evaluate text = .error (.expression fault)
      | .ok n => ∃ parts, ImportPart.InOrder text.toList n parts ∧
        match parts.findSome? ImportPart.fault? with
        | some fault => x.evaluate text = .error fault
        | none => ∃ ways, WaysInOrder (parts.map (ImportPart.choices x)) ways ∧
          x.evaluate text = .ok (ways.map (chosen (parts.map (ImportPart.choices x))))) ∧
      (∀ name other : String, lowercase name.toList = lowercase other.toList →
        ImportPart.choices x (.property name) = ImportPart.choices x (.property other)) ∧
      ∀ source, x.evaluate text ≠ .error (.unsupported source) := by
  have hfault {fault : Expr.Error} (h : Expr.parse .plain text = .error fault) :
      x.evaluate text = .error (.expression fault) := by
    rw [evaluate, h]
  refine ⟨?_, ?_, ?_⟩
  · cases hparse : Expr.parse .plain text with
    | error fault => exact hfault hparse
    | ok n =>
      obtain ⟨parts, hparts, hvalue⟩ := x.evaluate_of_parse hparse
      refine ⟨parts, hparts, ?_⟩
      cases hfirst : parts.findSome? ImportPart.fault? with
      | some fault =>
        rw [hfirst] at hvalue
        exact hvalue
      | none =>
        rw [hfirst] at hvalue
        exact ⟨_, waysOf_inOrder _, hvalue⟩
  · intro name other h
    have hkey : NameKey.of name = NameKey.of other := by rw [NameKey.of, NameKey.of, h]
    simp only [ImportPart.choices, property?, SymbolTable.get?, hkey]
  · intro source h
    cases hparse : Expr.parse .plain text with
    | error fault => cases (hfault hparse).symm.trans h
    | ok n =>
      obtain ⟨parts, -, hvalue⟩ := x.evaluate_of_parse hparse
      rw [hvalue] at h
      cases hfirst : parts.findSome? ImportPart.fault? with
      | none =>
        rw [hfirst] at h
        cases h
      | some fault =>
        rw [hfirst] at h
        -- The first fault is that of some part, and no part has this one.
        obtain ⟨part, -, hpart⟩ := List.exists_of_findSome?_eq_some hfirst
        rw [Except.error.inj h] at hpart
        cases part <;> cases hpart

-- The leftmost of two references with two directories each changes last.
example :
    let x : Evaluation := ⟨.empty, SymbolTable.insert .empty "E" ["a", "b"]⟩
    x.evaluate "$(E)/$(none)$(e)" = .ok ["a/a", "a/b", "b/a", "b/b"] := by
  decide +kernel

end Evaluation

end ProjectAnalysis
