import ProjectAnalysis.Proofs.SymbolEviction
import ProjectAnalysis.Proofs.WalkOrder

/-! The imports of a document beside the document. The elements of a kind come in document order,
and only the root can be a project, so the imports are told by what the root lists and by the import
elements alone. -/
namespace ProjectAnalysis

open Xml (Element Tree Document Subtree InOrder)
open Descriptor (ofPath)

section
variable {α : Type} [BEq α] [LawfulBEq α] {p : α → Bool} {a b : α}

/-- What comes first among some of the members comes first among all. -/
theorem idxOf_lt_of_filter (l : List α) (hb : p b = true)
    (h : (l.filter p).idxOf a < (l.filter p).idxOf b) : l.idxOf a < l.idxOf b := by
  induction l with
  | nil => exact absurd h (Nat.lt_irrefl _)
  | cons x l ih =>
    by_cases hxb : x = b
    · subst hxb
      rw [List.filter_cons_of_pos hb, List.idxOf_cons_self] at h
      exact absurd h (Nat.not_lt_zero _)
    by_cases hxa : x = a
    · subst hxa
      rw [List.idxOf_cons_self, List.idxOf_cons_ne l hxb]
      exact Nat.succ_pos _
    · rw [List.idxOf_cons_ne l hxa, List.idxOf_cons_ne l hxb]
      refine Nat.succ_lt_succ (ih ?_)
      by_cases hx : p x = true
      · rw [List.filter_cons_of_pos hx, List.idxOf_cons_ne _ hxa, List.idxOf_cons_ne _ hxb] at h
        exact Nat.lt_of_succ_lt_succ h
      · rwa [List.filter_cons_of_neg hx] at h

/-- Of members that are equal the first one stays. -/
theorem pairwise_idxOf_eraseDups (l : List α) :
    l.eraseDups.Pairwise fun a b => l.idxOf a < l.idxOf b := by
  match l with
  | [] => exact List.Pairwise.nil
  | x :: l =>
    have hrest := pairwise_idxOf_eraseDups (l.filter fun y => !y == x)
    have hne : ∀ b ∈ (l.filter fun y => !y == x).eraseDups, x ≠ b := by
      intro b hb hx
      have hkept := (List.mem_filter.1 (List.mem_eraseDups.1 hb)).2
      simp [hx] at hkept
    rw [List.eraseDups_cons, List.pairwise_cons]
    refine ⟨fun b hb => ?_, hrest.imp_of_mem fun {a b} ha hb hab => ?_⟩
    · rw [List.idxOf_cons_self, List.idxOf_cons_ne l (hne b hb)]
      exact Nat.succ_pos _
    · rw [List.idxOf_cons_ne l (hne a ha), List.idxOf_cons_ne l (hne b hb)]
      refine Nat.succ_lt_succ (idxOf_lt_of_filter l ?_ hab)
      simpa using (hne b hb).symm
termination_by l.length
decreasing_by exact Nat.lt_succ_of_le (List.length_filter_le _ _)

end

/-- Events that annotate nothing are no elements of a kind. -/
theorem WalkEvent.filterMap_elementOf?_eq_nil {events : List WalkEvent} (kind : Kind)
    (h : events.filterMap (·.annotation?) = []) : events.filterMap (·.elementOf? kind) = [] := by
  refine List.filterMap_eq_nil_iff.2 fun event hevent => ?_
  have hnone := List.filterMap_eq_nil_iff.1 h event hevent
  cases event with
  | element => cases hnone
  | unknown | metadata | reference | problem => rfl

namespace Descriptor

variable {d : Descriptor}

theorem child?_ne_project {kind : Kind} (h : of? kind = some d) (name : String) :
    d.child? name ≠ some .project := by
  have hchildren : ∀ child ∈ d.children, child.2 ≠ .project := by
    cases kind <;> cases h <;> decide
  have hother : d.otherChild ≠ some .project := by
    cases kind <;> cases h <;> decide
  unfold child?
  split
  · rename_i hfind
    intro heq
    exact hchildren _ (List.mem_of_find?_eq_some hfind) (Option.some.inj heq)
  · exact hother

/-- Only the root is a project, if its name is plain. -/
theorem kind_project_iff (above : List Element) (e : Element) :
    (ofPath (above ++ [e])).map (·.kind) = some .project ↔
      above = [] ∧ e.name.isQualified = false ∧ e.name.localName = "Project" := by
  rw [ofPath_kind_iff, List.map_append, List.map_singleton, resolvePath_concat]
  constructor
  · rintro ⟨hplain, hkind⟩
    obtain ⟨d, hd, hproject⟩ := Option.map_eq_some_iff.1 hkind
    split at hd
    · rename_i hnil
      obtain rfl := List.map_eq_nil_iff.1 hnil
      refine ⟨rfl, hplain e (List.mem_singleton_self e), ?_⟩
      unfold resolve at hd
      dsimp only at hd
      split at hd
      · assumption
      · cases hd
    · obtain ⟨parent, hparent, hresolve⟩ := Option.bind_eq_some_iff.1 hd
      have habove : ofPath above = some parent := by
        rw [ofPath, if_neg, hparent]
        simpa using fun x hx => hplain x (List.mem_append_left _ hx)
      rw [resolve] at hresolve
      split at hresolve
      · cases hresolve
      · obtain ⟨kind, hchild, hkind⟩ := Option.bind_eq_some_iff.1 hresolve
        rw [kind_of? hkind] at hproject
        rw [hproject] at hchild
        exact absurd hchild (child?_ne_project (of?_ofPath habove) _)
  · rintro ⟨rfl, hplain, hname⟩
    refine ⟨by simpa using hplain, ?_⟩
    rw [if_pos (List.map_eq_nil_iff.2 rfl), resolve, hname]
    rfl

end Descriptor

namespace Xml.Subtree

/-- The walk meets an element of the schema once, and no other element at its place. -/
theorem filterMap_events (s : Subtree) (kind : Kind) :
    s.events.filterMap (·.elementOf? kind) =
      if s.descriptor?.map (·.kind) = some kind then [s.element] else [] := by
  have hvalues : (s.walkedValues.flatMap (·.events)).filterMap (·.elementOf? kind) = [] := by
    refine WalkEvent.filterMap_elementOf?_eq_nil kind (List.filterMap_eq_nil_iff.2 ?_)
    intro event hevent
    obtain ⟨v, -, hv⟩ := List.mem_flatMap.1 hevent
    exact (DocumentWalk.minor_value event hv).1
  rw [events, List.filterMap_append, hvalues, List.append_nil, remarks]
  cases s.descriptor? with
  | none =>
    dsimp only
    split <;> rfl
  | some d =>
    have hunknown := WalkEvent.filterMap_elementOf?_eq_nil kind
      (DocumentWalk.tells_unknownAttributes s.element d).annotations
    dsimp only [Element.remarks]
    rw [List.filterMap_append, hunknown, List.nil_append, filterMap_cons_eq_append,
      WalkEvent.filterMap_elementOf?_eq_nil kind ?metadata, List.append_nil, WalkEvent.elementOf?]
    · by_cases hkind : d.kind = kind <;> simp [hkind]
    · cases s.item? with
      | none => rfl
      | some item =>
        dsimp only
        split <;> rfl

end Xml.Subtree

namespace Xml.Document

/-- The elements that are annotated with a kind, in document order. -/
def annotatedWith (d : Document) (kind : Kind) (annotations : List (Nat × Kind)) : List Element :=
  d.elements.filter fun e => (e.id, kind) ∈ annotations

/-- The walk meets the elements of a kind in document order. -/
theorem filterMap_walk (d : Document) (kind : Kind) : d.walk.filterMap (·.elementOf? kind) =
    (d.subtrees.filter fun s => s.descriptor?.map (·.kind) = some kind).map Subtree.element := by
  have hfaults : (d.faults.map fun f =>
      WalkEvent.problem (.malformedXml f.message f.span)).filterMap (·.elementOf? kind) = [] :=
    List.filterMap_eq_nil_iff.2 (List.forall_mem_map.2 fun f _ => rfl)
  rw [walk_eq, List.filterMap_append, hfaults, List.nil_append]
  induction d.subtrees with
  | nil => rfl
  | cons s subtrees ih =>
    rw [List.flatMap_cons, List.filterMap_append, Subtree.filterMap_events, ih, List.filter_cons]
    by_cases hkind : s.descriptor?.map (·.kind) = some kind
    · simp [hkind]
    · simp [hkind]

section
variable {P : Tree → Prop} {n hi : Nat} {d : Document}

/-- Elements are numbered apart, so the annotation of an element tells what the walk has met. -/
theorem filterMap_walk_eq_annotated (h : InOrder P 0 0 d.root.toList n hi) (kind : Kind) :
    d.walk.filterMap (·.elementOf? kind) =
      d.annotatedWith kind (d.walk.filterMap (·.annotation?)) := by
  have hkind : ∀ s ∈ d.subtrees, decide (s.descriptor?.map (·.kind) = some kind) =
      decide ((s.element.id, kind) ∈ d.walk.filterMap (·.annotation?)) := by
    intro s hs
    rw [decide_eq_decide, d.tells_walk.annotations, List.mem_filterMap]
    constructor
    · intro hkind
      obtain ⟨descriptor, hdescriptor, rfl⟩ := Option.map_eq_some_iff.1 hkind
      exact ⟨s, hs, Option.map_eq_some_iff.2 ⟨descriptor, hdescriptor, rfl⟩⟩
    · rintro ⟨q, hq, hnote⟩
      obtain ⟨descriptor, hdescriptor, heq⟩ := Option.map_eq_some_iff.1 hnote
      obtain ⟨hid, rfl⟩ := Prod.mk.inj heq
      obtain rfl := h.subtree_unique hs hq hid.symm
      exact Option.map_eq_some_iff.2 ⟨descriptor, hdescriptor, rfl⟩
  rw [filterMap_walk, List.filter_congr hkind, annotatedWith, elements_eq, List.filter_map]
  rfl

end

/-- The root, if it is a project: an element with the plain name `Project`. -/
def projectRoot? (d : Document) : Option Element :=
  d.rootElement?.filter fun e => !e.name.isQualified && e.name.localName = "Project"

/-- Of the elements of a document at most the root is met as a project. -/
theorem filterMap_walk_project (d : Document) :
    d.walk.filterMap (·.elementOf? .project) = d.projectRoot?.toList := by
  rw [filterMap_walk, subtrees, projectRoot?, rootElement?]
  cases d.root with
  | none => rfl
  | some t =>
    -- Every other element is inside the root.
    have hinner : (Tree.allSubtrees [t.root] t.children).filter (fun s =>
        s.descriptor?.map (·.kind) = some .project) = [] := by
      refine List.filter_eq_nil_iff.2 fun s hs hkind => ?_
      have hnil := ((Descriptor.kind_project_iff s.above s.element).1
        (of_decide_eq_true hkind)).1
      rcases Tree.allSubtrees_parent _ _ hs with ⟨habove, -⟩ | ⟨q, -, habove, -⟩
      · exact absurd (habove.symm.trans hnil) (List.cons_ne_nil _ _)
      · exact absurd (habove.symm.trans hnil) (by simp [Subtree.path])
    have hroot : (⟨[], t⟩ : Subtree).descriptor?.map (·.kind) = some .project ↔
        t.root.name.isQualified = false ∧ t.root.name.localName = "Project" :=
      (Descriptor.kind_project_iff [] t.root).trans (and_iff_right rfl)
    rw [Option.toList_some, Tree.allSubtrees, Tree.allSubtrees, List.append_nil, Tree.subtrees_eq,
      List.nil_append, List.filter_cons, hinner, Option.map_some, Option.filter_some]
    by_cases hproject : t.root.name.isQualified = false ∧ t.root.name.localName = "Project"
    · rw [if_pos (decide_eq_true (hroot.2 hproject)), if_pos (by simpa using hproject)]
      rfl
    · rw [if_neg (fun h => hproject (hroot.1 (of_decide_eq_true h))),
        if_neg (by simpa using hproject)]
      rfl

end Xml.Document

namespace ImportScope

/-- The import of a file out of one SDK that an element lists in an attribute. -/
def sdkSite (x : ImportScope) (project : String) (e : Element) (a : Xml.Attribute)
    (sdk : List Char) : ImportSite :=
  ⟨some e.id, project, some a.valueSpan, x.target project (some (String.ofList sdk))⟩

/-- The imports of a file out of all SDKs that an element lists: what stands between the `;` of its
attribute `Sdk`, without white space around it, unless it is blank. -/
def listedSites (x : ImportScope) (project : String) (root? : Option Element) : List ImportSite :=
  root?.toList.flatMap fun root => (root.attribute? "Sdk").toList.flatMap fun a =>
    (((splitAt ';' a.value.toList).map trim).filter (· ≠ [])).map (x.sdkSite project root a)

theorem flatMap_sdkSites (x : ImportScope) (project : String) (root? : Option Element) :
    root?.toList.flatMap (x.sdkSites project) = x.listedSites project root? := by
  refine List.flatMap_congr fun root _ => ?_
  unfold sdkSites
  cases root.attribute? "Sdk" with
  | none => rfl
  | some a =>
    have hkept : ∀ sdk ∈ (splitAt ';' a.value.toList).map trim, (!sdk.isEmpty) = decide (sdk ≠ []) :=
      fun sdk _ => by cases sdk <;> rfl
    rw [Option.toList_some, List.flatMap_singleton, ← List.filter_congr hkept]
    dsimp only
    rw [sdkNames, List.map_map]
    rfl

end ImportScope

namespace FileSymbols

/-- The paths that the import elements of a document give, as they are written, without blank
ones. -/
def rawImports (s : FileSymbols) (d : Document) : List String :=
  ((d.annotatedWith .fileImport s.annotations).map fun e => (e.value? "Project").getD "").filter
    fun raw => trim raw.toList ≠ []

/-- The imports are those of the document, where `root?` is the element that lists the SDKs. -/
structure Mirrors (s : FileSymbols) (x : ImportScope) (d : Document) (root? : Option Element) :
    Prop where
  /-- First the entry files of the SDKs, then the import elements, and last the closing files. -/
  sites : s.sites = x.listedSites "Sdk.props" root? ++
    (d.annotatedWith .fileImport s.annotations).map x.site ++ x.listedSites "Sdk.targets" root?
  mem_imports : ∀ raw, raw ∈ s.imports ↔ raw ∈ s.rawImports d
  /-- Each path once, in the order of first occurrence. -/
  imports_order : s.imports.Pairwise fun a b =>
    (s.rawImports d).idxOf a < (s.rawImports d).idxOf b

theorem ofDocument_mirrors (b : Builtins) (x : ImportScope) (text : String) :
    (ofDocument b x (.ofText text)).Mirrors x (.ofText text) (Document.ofText text).projectRoot? := by
  obtain ⟨n, h⟩ := Xml.inOrder_ofText text
  generalize Document.ofText text = d at h
  have himports := Document.filterMap_walk_eq_annotated h .fileImport
  have hraw : (ofDocument b x d).imports = ((ofDocument b x d).rawImports d).eraseDups := by
    change writtenImports d.walk = _
    have hkept (raw : String) :
        (!(trim raw.toList).isEmpty) = decide (trim raw.toList ≠ []) := by
      cases trim raw.toList <;> rfl
    rw [writtenImports, himports, List.filter_congr fun raw _ => hkept raw]
    rfl
  refine ⟨?_, ?_, ?_⟩
  · change x.sites d.walk = _
    rw [ImportScope.sites, Document.filterMap_walk_project, himports,
      ImportScope.flatMap_sdkSites, ImportScope.flatMap_sdkSites]
    rfl
  · intro raw
    rw [hraw, List.mem_eraseDups]
  · rw [hraw]
    exact pairwise_idxOf_eraseDups _

end FileSymbols

namespace Resolver

/-- The imports of a generation that nothing was merged into are those of its document in order, and
so are those of every file that is read as an import. SDKs are listed by a root that is a project. -/
theorem imports_mirror {r : Resolver} {file : FilePath} {text : String} {depth : Nat}
    {previous : Option Generation} {w : Surroundings} {m : Moment} {g : Generation}
    (h : ((r.resolution depth file (.ofText text) previous).run.runIn w m).1 = .ok g)
    (hown : previous = none ∨ (r.ownSymbols file (.ofText text)).hasErrors = false) :
    g.symbols.Mirrors (.ofFile r.installation (r.project file) file) (.ofText text)
        (Document.ofText text).projectRoot? ∧
      ∀ (v : ImportWalk) path time other, (v.parse path time other).symbols.Mirrors
        (.ofFile v.installation v.project path) (.ofText other)
        (Document.ofText other).projectRoot? := by
  refine ⟨?_, fun v path time other => FileSymbols.ofDocument_mirrors _ _ other⟩
  have hsymbols : r.symbols file (.ofText text) previous = r.ownSymbols file (.ofText text) := by
    unfold symbols
    cases previous with
    | none => rfl
    | some p => exact if_neg (by simpa using hown)
  rw [r.symbols_of_resolution file h, hsymbols]
  exact FileSymbols.ofDocument_mirrors _ _ text

/-- Two SDKs with a blank one between them, and import elements of which one is in an element that
the schema does not know. -/
theorem imports_mirror_sdks :
    let r : Resolver := ⟨.standard, false⟩
    let file : FilePath := ⟨"/p/a.proj"⟩
    let text := "<Project Sdk='A; ;B'><Import Project='y'/><Foo><Import Project='z'/></Foo>" ++
      "<Import Project='x'/><Import Project='y'/></Project>"
    ∃ g, (r.resolve file (.ofText text) none .empty).1 = .ok g ∧
      g.symbols.sites.map (·.project) =
        ["Sdk.props", "Sdk.props", "y", "x", "y", "Sdk.targets", "Sdk.targets"] ∧
      "y" ∈ g.symbols.imports ∧ "z" ∉ g.symbols.imports := by
  intro r file text
  obtain ⟨hraw, hrow⟩ : let d : Document := .ofText text
      let s := r.ownSymbols file d
      let x : ImportScope := .ofFile r.installation (r.project file) file
      s.rawImports d = ["y", "x", "y"] ∧
        (x.listedSites "Sdk.props" d.projectRoot? ++ (d.annotatedWith .fileImport
          s.annotations).map x.site ++ x.listedSites "Sdk.targets" d.projectRoot?).map (·.project) =
            ["Sdk.props", "Sdk.props", "y", "x", "y", "Sdk.targets", "Sdk.targets"] := by
    decide +kernel +revert
  obtain ⟨g, hg, hsymbols⟩ := r.exists_resolve file (.ofText text) none .empty
  obtain ⟨⟨hsites, hmem, -⟩, -⟩ := imports_mirror hg (Or.inl rfl)
  have hown : g.symbols = r.ownSymbols file (.ofText text) := hsymbols
  rw [hown] at hsites hmem
  refine ⟨g, hg, ?_, ?_, ?_⟩
  · rw [hown, hsites]
    exact hrow
  · rw [hown, hmem, hraw]
    decide
  · rw [hown, hmem, hraw]
    decide

/-- A root that is no project lists SDKs in vain. -/
theorem imports_mirror_no_project :
    let r : Resolver := ⟨.standard, false⟩
    let file : FilePath := ⟨"/p/a.proj"⟩
    let d : Document := .ofText "<Foo Sdk='A' />"
    ∃ g, (r.resolve file d none .empty).1 = .ok g ∧
      ¬g.symbols.Mirrors (.ofFile r.installation (r.project file) file) d d.rootElement? := by
  intro r file d
  have hnone : (r.ownSymbols file d).sites = [] := by decide +kernel +revert
  have hlisted : ((ImportScope.ofFile r.installation (r.project file) file).listedSites "Sdk.props"
      d.rootElement?).length = 1 := by
    decide +kernel +revert
  obtain ⟨g, hg, hsymbols⟩ := r.exists_resolve file d none .empty
  refine ⟨g, hg, fun hmirrors => ?_⟩
  have hsites := congrArg List.length hmirrors.sites
  have hown : g.symbols = r.ownSymbols file d := hsymbols
  rw [hown, hnone, List.length_append, List.length_append, hlisted, List.length_nil] at hsites
  omega

end Resolver

end ProjectAnalysis
