import Mathlib.Data.List.Pairwise
import ProjectAnalysis.GenerationView
import ProjectAnalysis.Proofs.GenerationPlace
import ProjectAnalysis.Proofs.ImportOrder

/-! Where imports lead, asked by element and by offset. Both answers are the file of the first import
that was found, one among the imports of an element and one among those around an offset. The
imports of an element all stand at one value, and values of different elements have no offset in
common, so the two agree; imports that are carried over have neither an element nor a place. -/
namespace ProjectAnalysis

open Xml (Element Attribute Document Tree)

/-- The attribute that says what an element of the kind imports: SDKs, or a path. -/
def Kind.importAttribute? : Kind → Option String
  | .project => some "Sdk"
  | .fileImport => some "Project"
  | _ => none

/-- The attribute that the imports of an element are taken from. -/
def Generation.importAttribute? (g : Generation) (e : Element) : Option Attribute :=
  ((g.kindOf e.id).bind Kind.importAttribute?).bind e.attribute?

/-- Where an element leads, every offset at the value that says so leads as well, and no other
offset leads anywhere. -/
structure Generation.ImportsAgree (g : Generation) : Prop where
  /-- Only the root lists SDKs. -/
  root : ∀ e ∈ g.document.elements, g.kindOf e.id = some .project →
    g.document.rootElement? = some e
  at_of_target : ∀ id file, g.importTarget id = some file → ∃ e ∈ g.document.elements, e.id = id ∧
    ∃ a, g.importAttribute? e = some a ∧
      ∀ offset, a.valueSpan.contains offset = true → g.importAt offset = some file
  target_of_at : ∀ offset file, g.importAt offset = some file → ∃ e ∈ g.document.elements,
    ∃ a, g.importAttribute? e = some a ∧ a.valueSpan.contains offset = true ∧
      g.importTarget e.id = some file

/-- The import stands at the attribute of an element that imports are written at. -/
def ImportSite.AtAttribute (d : Document) (site : ImportSite) : Prop :=
  ∃ e ∈ d.elements, ∃ kind name a, d.kindOf? e.id = some kind ∧ kind.importAttribute? = some name ∧
    e.attribute? name = some a ∧ site.element = some e.id ∧ site.span = some a.valueSpan

/-- The import stands at the attribute of an element, or it is carried over. -/
def ImportSite.StandsIn (g : Generation) (site : ImportSite) : Prop :=
  (site.element = none ∧ site.span = none) ∨
    ∃ e ∈ g.document.elements, ∃ a, g.importAttribute? e = some a ∧ site.element = some e.id ∧
      site.span = some a.valueSpan

namespace Xml

variable {P : Tree → Prop} {n hi : Nat} {d : Document} {e e' : Element}

theorem InOrder.element_of_id (h : InOrder P 0 0 d.root.toList n hi) (he : e ∈ d.elements)
    (he' : e' ∈ d.elements) (hid : e.id = e'.id) : e = e' := by
  rw [Document.elements_eq] at he he'
  obtain ⟨s, hs, rfl⟩ := List.mem_map.1 he
  obtain ⟨q, hq, rfl⟩ := List.mem_map.1 he'
  rw [h.subtree_unique hs hq hid]

/-- Elements that begin at the same place are the same. -/
theorem InOrder.element_of_start (h : InOrder P 0 0 d.root.toList n hi) (he : e ∈ d.elements)
    (he' : e' ∈ d.elements) (hstart : e.span.start = e'.span.start) : e = e' := by
  have : Std.Symm fun a b : Element => a.span.start ≠ b.span.start := ⟨fun _ _ h => h.symm⟩
  have hstarts := h.starts
  rw [Tree.allElements_eq [], ← Document.subtrees, ← Document.elements_eq] at hstarts
  by_contra hne
  exact (hstarts.imp Nat.ne_of_lt).forall he he' hne hstart

/-- Between the value of an attribute and what stands around the tag there are at least a name and
quotes, so no offset is at the values of two elements. -/
theorem Document.values_apart (text : String) {e e' : Element} {a a' : Attribute}
    {offset : Nat} (he : e ∈ (Document.ofText text).elements) (ha : a ∈ e.attributes)
    (hin : a.valueSpan.contains offset = true) (he' : e' ∈ (Document.ofText text).elements)
    (ha' : a' ∈ e'.attributes) (hin' : a'.valueSpan.contains offset = true) : e = e' := by
  obtain ⟨stop, htiles, -⟩ := tiles_piecesOf text
  obtain ⟨n, horder⟩ := inOrder_ofText text
  have hplace : ∀ e ∈ (Document.ofText text).elements, ∀ a ∈ e.attributes,
      ∃ x ∈ piecesOf text, e.span.start = x.span.start ∧ x.span.start < a.valueSpan.start ∧
        a.valueSpan.stop < x.span.stop := by
    intro e he a ha
    rw [Document.elements_eq] at he
    obtain ⟨s, hs, rfl⟩ := List.mem_map.1 he
    obtain ⟨tag, span, hstands, hstart, -, -, -, hattributes⟩ := (horder.subtree hs).1.standsAt
    obtain ⟨piece, -, hpiece⟩ := hstands.piece
    obtain ⟨raw, hslice, hread⟩ := hstands.read
    obtain ⟨-, -, -, -, hwidth⟩ := Span.split_of_slice? hslice
    have hmem : a ∈ tag.attributes := hattributes ▸ ha
    obtain ⟨hfirst, hlast⟩ := hread.attributes.within a hmem
    obtain ⟨_, _, _, _, -, -, -, -, -, hname, hquote⟩ := hread.attributes.written a hmem
    have hrange := hread.name_range
    dsimp only at hlast hrange
    refine ⟨_, hpiece, hstart, ?_, ?_⟩ <;> dsimp only <;> omega
  -- The start tags are pieces of the text, and pieces have no offset inside in common.
  obtain ⟨x, hx, hstart, hlo, hhi⟩ := hplace e he a ha
  obtain ⟨y, hy, hstart', hlo', hhi'⟩ := hplace e' he' a' ha'
  obtain ⟨hle, hge⟩ := Span.contains_iff.1 hin
  obtain ⟨hle', hge'⟩ := Span.contains_iff.1 hin'
  rcases htiles.apart hx hy with hbefore | rfl | hbehind
  · omega
  · exact horder.element_of_start he he' (hstart.trans hstart'.symm)
  · omega

end Xml

namespace Findings

/-- The file of an import, if it is one of the element. -/
def atElement (id : Nat) (l : ImportSite × Option FilePath) : Option FilePath :=
  if l.1.element = some id then l.2 else none

/-- The file of an import, if it stands around the offset. -/
def atOffset (offset : Nat) (l : ImportSite × Option FilePath) : Option FilePath :=
  if l.1.span.any (·.contains offset) then l.2 else none

theorem get?_targets_report (f : Findings) (l : ImportSite × Option FilePath) (id : Nat) :
    (f.report l.1 l.2).targets.get? id = (f.targets.get? id).or (atElement id l) := by
  obtain ⟨site, file⟩ := l
  unfold report atElement
  cases file with
  | none => simp
  | some file =>
    unfold link
    dsimp only
    cases hsite : site.element with
    | none => simp
    | some element =>
      dsimp only
      rw [OrderedTable.get?_insertNew]
      by_cases hid : element = id
      · subst hid
        cases f.targets.get? element <;> simp
      · simp [hid]

theorem find?_links_report (f : Findings) (l : ImportSite × Option FilePath) (offset : Nat) :
    ((f.report l.1 l.2).links.find? (·.1.contains offset)).map (·.2) =
      ((f.links.find? (·.1.contains offset)).map (·.2)).or (atOffset offset l) := by
  obtain ⟨site, file⟩ := l
  unfold report atOffset
  cases file with
  | none => simp
  | some file =>
    unfold link
    dsimp only
    rw [List.find?_append, Option.map_or]
    cases site.span with
    | none => rfl
    | some span => cases hin : span.contains offset <;> simp [hin]

/-- An element leads to the file of the first of its imports that was found. -/
theorem get?_targets_ofLocated (located : List (ImportSite × Option FilePath)) (id : Nat) :
    (ofLocated located).targets.get? id = located.findSome? (atElement id) := by
  have hfold (f : Findings) : (located.foldl (fun f l => f.report l.1 l.2) f).targets.get? id =
      (f.targets.get? id).or (located.findSome? (atElement id)) := by
    induction located generalizing f with
    | nil => simp
    | cons l located ih =>
      rw [List.foldl_cons, ih, get?_targets_report, Option.or_assoc, List.findSome?_cons]
      cases atElement id l <;> rfl
  exact hfold .empty

/-- An offset leads to the file of the first of the imports around it that was found. -/
theorem find?_links_ofLocated (located : List (ImportSite × Option FilePath)) (offset : Nat) :
    ((ofLocated located).links.find? (·.1.contains offset)).map (·.2) =
      located.findSome? (atOffset offset) := by
  have hfold (f : Findings) : ((located.foldl (fun f l => f.report l.1 l.2) f).links.find?
      (·.1.contains offset)).map (·.2) =
        ((f.links.find? (·.1.contains offset)).map (·.2)).or
          (located.findSome? (atOffset offset)) := by
    induction located generalizing f with
    | nil => simp
    | cons l located ih =>
      rw [List.foldl_cons, ih, find?_links_report, Option.or_assoc, List.findSome?_cons]
      cases atOffset offset l <;> rfl
  exact hfold .empty

end Findings

section
variable {text : String} {x : ImportScope} {site : ImportSite} {e : Element} {kind : Kind}
  {r : Resolver} {file : FilePath} {previous : Option Generation} {g : Generation}

theorem kindOf?_of_elementOf? (he : e ∈ (Document.ofText text).walk.filterMap (·.elementOf? kind)) :
    e ∈ (Document.ofText text).elements ∧ (Document.ofText text).kindOf? e.id = some kind := by
  obtain ⟨n, h⟩ := Xml.inOrder_ofText text
  rw [Document.filterMap_walk] at he
  obtain ⟨s, hs, rfl⟩ := List.mem_map.1 he
  obtain ⟨hs, hkind⟩ := List.mem_filter.1 hs
  rw [Document.kindOf?_eq h hs, Document.elements_eq]
  exact ⟨List.mem_map_of_mem hs, of_decide_eq_true hkind⟩

/-- Only the root is a project. -/
theorem rootElement?_of_project (he : e ∈ (Document.ofText text).elements)
    (hkind : (Document.ofText text).kindOf? e.id = some .project) :
    (Document.ofText text).rootElement? = some e := by
  obtain ⟨n, h⟩ := Xml.inOrder_ofText text
  rw [Document.elements_eq] at he
  obtain ⟨s, hs, rfl⟩ := List.mem_map.1 he
  rw [Document.kindOf?_eq h hs] at hkind
  have htop := ((Descriptor.kind_project_iff s.above s.element).1 hkind).1
  rcases Tree.allSubtrees_parent [] _ hs with ⟨-, htree⟩ | ⟨q, -, habove, -⟩
  · rw [Document.rootElement?, Option.mem_toList.1 htree]
    rfl
  · exact absurd (habove.symm.trans htop) (by simp [Xml.Subtree.path])

/-- An import of a document that says where to look stands at the attribute of its element. -/
theorem ImportScope.sites_stand {paths : List FilePath}
    (hsite : site ∈ x.sites (Document.ofText text).walk) (htarget : site.target = .candidates paths) :
    site.AtAttribute (.ofText text) := by
  have hsdk (project : String) (hsite : site ∈
      ((Document.ofText text).walk.filterMap (·.elementOf? .project)).flatMap
        (x.sdkSites project)) : site.AtAttribute (.ofText text) := by
    obtain ⟨e, he, hsite⟩ := List.mem_flatMap.1 hsite
    obtain ⟨hmem, hkind⟩ := kindOf?_of_elementOf? he
    unfold sdkSites at hsite
    split at hsite
    · rename_i a ha
      obtain ⟨sdk, -, rfl⟩ := List.mem_map.1 hsite
      exact ⟨e, hmem, _, _, a, hkind, rfl, ha, rfl, rfl⟩
    · cases hsite
  rcases List.mem_append.1 hsite with hsite | hsite
  · rcases List.mem_append.1 hsite with hsite | hsite
    · exact hsdk _ hsite
    · obtain ⟨e, he, rfl⟩ := List.mem_map.1 hsite
      obtain ⟨hmem, hkind⟩ := kindOf?_of_elementOf? he
      cases ha : e.attribute? "Project" with
      | none =>
        -- Without a path there is nowhere to look.
        rw [site, written, Element.value?, ha] at htarget
        cases htarget
      | some a => exact ⟨e, hmem, _, _, a, hkind, rfl, ha, rfl, by rw [site, ha]; rfl⟩
  · exact hsdk _ hsite

variable {l : ImportSite × Option FilePath} {located : List (ImportSite × Option FilePath)}
  {a : Attribute} {offset : Nat} {found : Findings}

theorem Generation.kindOf_eq
    (h : g.symbols.annotations = (Document.ofText text).walk.filterMap (·.annotation?)) (id : Nat) :
    g.kindOf id = (Document.ofText text).kindOf? id := by
  rw [kindOf, h]
  rfl

theorem Generation.mem_of_importAttribute? (h : g.importAttribute? e = some a) :
    a ∈ e.attributes := by
  obtain ⟨name, -, hname⟩ := Option.bind_eq_some_iff.1 h
  exact List.mem_of_find?_eq_some hname

/-- At the value of an element's attribute stand the imports of the element and no others. -/
theorem Findings.atElement_eq_atOffset (hdocument : g.document = .ofText text)
    (hl : ∀ file, l.2 = some file → l.1.StandsIn g) (he : e ∈ g.document.elements)
    (ha : g.importAttribute? e = some a) (hin : a.valueSpan.contains offset = true) :
    atElement e.id l = atOffset offset l := by
  obtain ⟨n, horder⟩ := Xml.inOrder_ofText text
  obtain ⟨site, file⟩ := l
  unfold atElement atOffset
  dsimp only
  cases file with
  | none => rw [ite_self, ite_self]
  | some file =>
    rcases hl file rfl with ⟨helement, hspan⟩ | ⟨e', he', a', ha', helement, hspan⟩
    · dsimp only at helement hspan
      rw [helement, hspan]
      rfl
    · dsimp only at helement hspan
      rw [helement, hspan, Option.any_some]
      rw [hdocument] at he he'
      by_cases heq : e' = e
      · subst heq
        obtain rfl := Option.some.inj (ha.symm.trans ha')
        rw [if_pos rfl, if_pos hin]
      · have hid : ¬some e'.id = some e.id :=
          fun h => heq (horder.element_of_id he' he (Option.some.inj h))
        have hout : ¬a'.valueSpan.contains offset = true := fun h =>
          heq (Document.values_apart text he' (g.mem_of_importAttribute? ha') h he
            (g.mem_of_importAttribute? ha) hin)
        rw [if_neg hid, if_neg hout]

/-- Where all imports that were found stand, the two questions have the same answers. -/
theorem Generation.importsAgree_of_located (hdocument : g.document = .ofText text)
    (hannotations : g.symbols.annotations = (Document.ofText text).walk.filterMap (·.annotation?))
    (hstand : ∀ l ∈ located, ∀ file, l.2 = some file → l.1.StandsIn g)
    (htargets : g.targets = (Findings.ofLocated located).targets)
    (hlinks : g.links = (Findings.ofLocated located).links) : g.ImportsAgree := by
  have htarget (id : Nat) : g.importTarget id = located.findSome? (Findings.atElement id) := by
    rw [importTarget, htargets, Findings.get?_targets_ofLocated]
  have hat (offset : Nat) : g.importAt offset = located.findSome? (Findings.atOffset offset) := by
    rw [importAt, hlinks, Findings.find?_links_ofLocated]
  have hagree : ∀ e ∈ g.document.elements, ∀ a offset, g.importAttribute? e = some a →
      a.valueSpan.contains offset = true → g.importAt offset = g.importTarget e.id := by
    intro e he a offset ha hin
    -- Both questions scan the same imports, and each import is in both scans or in none.
    rw [hat, htarget, ← List.head?_filterMap, ← List.head?_filterMap]
    refine congrArg List.head? (List.filterMap_congr fun l hl => ?_)
    exact (Findings.atElement_eq_atOffset hdocument (hstand l hl) he ha hin).symm
  refine ⟨fun e he hkind => ?_, fun id file hid => ?_, fun offset file hoffset => ?_⟩
  · rw [g.kindOf_eq hannotations] at hkind
    rw [hdocument] at he ⊢
    exact rootElement?_of_project he hkind
  · obtain ⟨l, hl, hfile⟩ := List.exists_of_findSome?_eq_some ((htarget id).symm.trans hid)
    obtain ⟨helement, hfile⟩ := Option.ite_none_right_eq_some.1 hfile
    rcases hstand l hl file hfile with ⟨hnone, -⟩ | ⟨e, he, a, ha, he', -⟩
    · cases helement.symm.trans hnone
    · obtain rfl := Option.some.inj (helement.symm.trans he')
      exact ⟨e, he, rfl, a, ha, fun offset hin => (hagree e he a offset ha hin).trans hid⟩
  · obtain ⟨l, hl, hfile⟩ := List.exists_of_findSome?_eq_some ((hat offset).symm.trans hoffset)
    obtain ⟨haround, hfile⟩ := Option.ite_none_right_eq_some.1 hfile
    rcases hstand l hl file hfile with ⟨-, hnone⟩ | ⟨e, he, a, ha, -, hspan⟩
    · rw [hnone] at haround
      cases haround
    · rw [hspan] at haround
      exact ⟨e, he, a, ha, haround, (hagree e he a offset ha haround).symm.trans hoffset⟩

namespace Resolver

/-- In every generation, whatever it goes on from, elements and offsets lead to the same files. -/
theorem start_importsAgree {s : FileStore} {w : Surroundings} {m : Moment}
    (h : ((r.start file (.ofText text) previous s).runIn w m).1 = .ok g) : g.ImportsAgree := by
  obtain ⟨located, found, rfl, hlocated, hsought, htold⟩ := generation_of_start h
  obtain ⟨-, hannotations, carried, hsites, hcarried⟩ :=
    r.symbols_carry file (.ofText text) previous
  obtain ⟨htargets, hlinks, -⟩ : found.targets = (Findings.ofLocated located).targets ∧
      found.links = (Findings.ofLocated located).links ∧
      found.diagnostics = (Findings.ofLocated located).diagnostics := by
    simpa [Findings.told] using htold
  refine Generation.importsAgree_of_located rfl hannotations (fun l hl path hpath => ?_) htargets
    hlinks
  have hmem : l.1 ∈ (r.symbols file (.ofText text) previous).sites :=
    hlocated ▸ List.mem_map_of_mem hl
  rw [hsites] at hmem
  rcases List.mem_append.1 hmem with hmem | hmem
  · obtain ⟨paths, htarget, -⟩ := hsought l hl path hpath
    obtain ⟨e, he, kind, name, a, hkind, hname, ha, helement, hspan⟩ :=
      ImportScope.sites_stand hmem htarget
    refine Or.inr ⟨e, he, a, ?_, helement, hspan⟩
    rw [Generation.importAttribute?, Generation.kindOf_eq hannotations, hkind, Option.bind_some,
      hname, Option.bind_some, ha]
  · obtain ⟨p, -, old, -, hsite⟩ := hcarried l.1 hmem
    rw [hsite]
    exact Or.inl ⟨rfl, rfl⟩

/-- A document that breaks keeps an import of before, which leads nowhere, beside its own. -/
theorem start_importsAgree_broken :
    let r : Resolver := ⟨.standard, false⟩
    let file : FilePath := ⟨"/p/a.proj"⟩
    let s := (FileStore.empty.write ⟨"/p/x.props"⟩ "<Project />").write ⟨"/p/y.props"⟩ "<Project />"
    ∃ p g, (r.resolve file (.ofText "<Project><Import Project='x.props' /></Project>") none s).1 =
        .ok p ∧
      (r.resolve file (.ofText "<Project><Import Project='y.props' />") (some p) s).1 = .ok g ∧
      g.symbols.sites.map (·.element) = [some 1, none] ∧
      g.importTarget 1 = some ⟨"/p/y.props"⟩ ∧
      [25, 26, 33, 34].map g.importAt =
        [none, some ⟨"/p/y.props"⟩, some ⟨"/p/y.props"⟩, none] ∧
      g.ImportsAgree := by
  intro r file s
  have hrun : ((r.resolve file (.ofText "<Project><Import Project='x.props' /></Project>") none
      s).1.toOption.bind fun p => (r.resolve file (.ofText "<Project><Import Project='y.props' />")
        (some p) s).1.toOption.map fun g => (g.symbols.sites.map (·.element), g.importTarget 1,
          [25, 26, 33, 34].map g.importAt)) =
      some ([some 1, none], some ⟨"/p/y.props"⟩,
        [none, some ⟨"/p/y.props"⟩, some ⟨"/p/y.props"⟩, none]) := by
    decide +kernel +revert
  obtain ⟨p, hp, -⟩ := r.exists_resolve file
    (.ofText "<Project><Import Project='x.props' /></Project>") none s
  obtain ⟨g, hg, -⟩ := r.exists_resolve file
    (.ofText "<Project><Import Project='y.props' />") (some p) s
  rw [hp, Except.toOption, Option.bind_some, hg] at hrun
  obtain ⟨hsites, hrun⟩ := Prod.mk.inj (Option.some.inj hrun)
  obtain ⟨htarget, hat⟩ := Prod.mk.inj hrun
  exact ⟨p, g, hp, hg, hsites, htarget, hat, start_importsAgree hg⟩

end Resolver

end

end ProjectAnalysis
