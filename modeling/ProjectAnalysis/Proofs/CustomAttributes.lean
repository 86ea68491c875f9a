import ProjectAnalysis.Proofs.SymbolCollection

/-! Which attributes are symbols. The metadata of an item comes from attributes, from elements and
from references, the parameters of a task from attributes alone. No qualified attribute is among
them, nor one of the schema; but the declaration of the namespace, which the walk takes for foreign,
is. -/
namespace ProjectAnalysis

open Xml (Element Document Subtree)
open ProjectAnalysis.Expr (Reference)

/-- Whether the schema knows an attribute for elements of a kind. -/
def Kind.hasAttribute (kind : Kind) (name : String) : Bool :=
  (Descriptor.of? kind).any (·.hasAttribute name)

/-- An attribute of this name is a symbol of the element: it is neither foreign nor of the schema,
or else it declares the namespace of names without a prefix. -/
def Xml.Element.RecordsAttribute (e : Element) (kind : Kind) (name : String) : Prop :=
  ∃ a ∈ e.attributes, a.name.localName = name ∧
    ((DocumentWalk.isForeign a = false ∧ kind.hasAttribute name = false) ∨
      (a.name.isQualified = false ∧ name = "xmlns"))

/-- An element puts metadata down to an item: by an attribute, by being it, or by a reference. -/
inductive Xml.Subtree.AddsMetadata (b : Builtins) (s : Subtree) : String → String → Prop
  | byAttribute {kind : Kind} {name : String} (hkind : s.kind? = some kind)
      (hitem : DocumentWalk.isItem kind = true) (h : s.element.RecordsAttribute kind name) :
      AddsMetadata b s s.element.name.localName name
  | byElement {item : Element} (hkind : s.kind? = some .metadata) (hitem : s.item? = some item) :
      AddsMetadata b s item.name.localName s.element.name.localName
  | byReference {r : Reference} {owner : Option String} {item : String} (hr : r ∈ s.references)
      (hreferent : r.referent = .metadata owner)
      (hitem : owner.or (s.item?.map (·.name.localName)) = some item)
      (hbuiltin : b.isMetadata r.name = false) : AddsMetadata b s item r.name

/-- An element puts a parameter down to a task. -/
def Xml.Subtree.AddsParameter (s : Subtree) (task name : String) : Prop :=
  s.kind? = some .task ∧ s.element.name.localName = task ∧ s.element.RecordsAttribute .task name

namespace Mention

/-- The metadata that is mentioned of an item. -/
def metadataOf? (item : NameKey) : Mention → Option String
  | .metadata owner name => if NameKey.of owner = item then some name else none
  | _ => none

/-- The parameter that is mentioned of a task. -/
def parameterOf? (task : NameKey) : Mention → Option String
  | .parameter owner name => if NameKey.of owner = task then some name else none
  | _ => none

end Mention

variable {item name task : String} {b : Builtins} {s : Subtree} {e : Element} {d : Descriptor}
  {kind : Kind} {key : NameKey}

namespace SymbolTable

variable {α β : Type} {inner : α → SymbolTable β}

/-- A new symbol with nothing inside adds nothing to what is inside of the symbols. -/
theorem within_insertNew {a : α} (ha : inner a = .empty) (t : SymbolTable α) (name : String)
    (key : NameKey) : (t.insertNew name a).within inner key = t.within inner key := by
  rw [within, insertNew, OrderedTable.get?_insertNew, within]
  split
  · next h =>
    obtain ⟨rfl, hnone⟩ := h
    rw [hnone, Option.map_some, Option.getD_some, ha]
    rfl
  · rfl

/-- What is added inside of a symbol that is put in first if it is new. -/
theorem within_note {a : α} (ha : inner a = .empty) {f : α → α} {x : β}
    (hf : ∀ a, inner (f a) = (inner a).insertNew name x) (t : SymbolTable α) (owner : String)
    (key : NameKey) : ((t.insertNew owner a).modify owner f).within inner key =
      if .of owner = key then (t.within inner key).insertNew name x else t.within inner key := by
  have hkeep := within_insertNew ha t owner key
  rw [within, modify, OrderedTable.get?_modify]
  split
  · next h =>
    subst h
    obtain ⟨there, hthere⟩ : ∃ there, OrderedTable.get? (t.insertNew owner a) (.of owner) =
        some there := by
      rw [insertNew, OrderedTable.get?_insertNew]
      cases OrderedTable.get? t (.of owner) with
      | none => exact ⟨a, if_pos ⟨rfl, rfl⟩⟩
      | some there => exact ⟨there, if_neg (by simp)⟩
    rw [← hkeep, within, hthere, Option.map_some, Option.map_some, Option.getD_some, hf]
    rfl
  · rw [← hkeep, within]

end SymbolTable

namespace FileSymbols

/-- A mention adds at most the metadata in it to an item. -/
theorem spelling_metadataOf_note (item : NameKey) (s : FileSymbols) (m : Mention) (key : NameKey) :
    ((s.note m).metadataOf item).spelling MetadataInfo.name key =
      ((s.metadataOf item).spelling MetadataInfo.name key).or
        (firstSpelling (m.metadataOf? item).toList key) := by
  rw [metadataOf_eq, metadataOf_eq]
  cases m with
  | property _ | task _ | parameter _ _ => exact Option.or_none.symm
  | item name =>
    change ((s.items.insertNew name (.named name)).within _ item).spelling _ key = _
    rw [SymbolTable.within_insertNew rfl]
    exact Option.or_none.symm
  | metadata owner name =>
    change (((s.items.insertNew owner (.named owner)).modify owner (·.addMetadata name)).within _
      item).spelling _ key = _
    rw [SymbolTable.within_note rfl (fun _ => rfl), Mention.metadataOf?]
    split
    · exact SymbolTable.spelling_insertNew _ (MetadataInfo.named name) rfl key
    · exact Option.or_none.symm

theorem spelling_parametersOf_note (task : NameKey) (s : FileSymbols) (m : Mention)
    (key : NameKey) : ((s.note m).parametersOf task).spelling id key =
      ((s.parametersOf task).spelling id key).or
        (firstSpelling (m.parameterOf? task).toList key) := by
  rw [parametersOf_eq, parametersOf_eq]
  cases m with
  | property _ | item _ | metadata _ _ => exact Option.or_none.symm
  | task name =>
    change ((s.tasks.insertNew name (.named name)).within _ task).spelling _ key = _
    rw [SymbolTable.within_insertNew rfl]
    exact Option.or_none.symm
  | parameter owner name =>
    change (((s.tasks.insertNew owner (.named owner)).modify owner (·.addParameter name)).within _
      task).spelling _ key = _
    rw [SymbolTable.within_note rfl (fun _ => rfl), Mention.parameterOf?]
    split
    · exact SymbolTable.spelling_insertNew _ name rfl key
    · exact Option.or_none.symm

end FileSymbols

/-- The schema does not know the namespace as an attribute of an item or of a task. -/
theorem Descriptor.hasAttribute_xmlns (h : of? kind = some d)
    (hkind : DocumentWalk.isItem kind = true ∨ kind = .task) : d.hasAttribute "xmlns" = false := by
  have hthree : kind = .item ∨ kind = .itemDefinition ∨ kind = .task := by
    simpa [DocumentWalk.isItem, or_assoc] using hkind
  rcases hthree with rfl | rfl | rfl
  all_goals
    obtain rfl := Option.some.inj h
    decide

namespace Mention

/-- The attributes that are listed as symbols of an element are those that it records. -/
theorem mem_customAttributes (h : Descriptor.of? kind = some d)
    (hkind : DocumentWalk.isItem kind = true ∨ kind = .task) :
    name ∈ customAttributes e d ↔ e.RecordsAttribute kind name := by
  have hxmlns := Descriptor.hasAttribute_xmlns h hkind
  have hknown : kind.hasAttribute name = d.hasAttribute name := by
    rw [Kind.hasAttribute, h]
    rfl
  rw [customAttributes, List.mem_map]
  constructor
  · rintro ⟨a, ha, rfl⟩
    obtain ⟨ha, hcustom⟩ := List.mem_filter.1 ha
    obtain ⟨hplain, hnew⟩ :
        a.name.isQualified = false ∧ d.hasAttribute a.name.localName = false := by
      simpa using hcustom
    refine ⟨a, ha, rfl, ?_⟩
    by_cases hname : a.name.localName = "xmlns"
    · exact Or.inr ⟨hplain, hname⟩
    · left
      rw [hknown]
      exact ⟨by simp [DocumentWalk.isForeign, hplain, hname], hnew⟩
  · rintro ⟨a, ha, rfl, ⟨hforeign, hnew⟩ | ⟨hplain, hname⟩⟩
    · obtain ⟨hplain, -⟩ := Bool.or_eq_false_iff.1 hforeign
      rw [hknown] at hnew
      exact ⟨a, List.mem_filter.2 ⟨ha, by simp [hplain, hnew]⟩, rfl⟩
    · rw [← hname] at hxmlns
      exact ⟨a, List.mem_filter.2 ⟨ha, by simp [hplain, hxmlns]⟩, rfl⟩

theorem metadata_mem_ofElement : .metadata item name ∈ ofElement e d ↔
    DocumentWalk.isItem d.kind = true ∧ item = e.name.localName ∧ name ∈ customAttributes e d := by
  unfold ofElement DocumentWalk.isItem
  cases d.kind <;> simp [named_eq, eq_comm, and_comm]

theorem parameter_mem_ofElement : .parameter task name ∈ ofElement e d ↔
    d.kind = .task ∧ task = e.name.localName ∧ name ∈ customAttributes e d := by
  unfold ofElement
  cases d.kind <;> simp [named_eq, eq_comm, and_comm]

theorem metadata_mem_ofReference {r : Reference} {around : Option String} :
    .metadata item name ∈ ofReference b r around ↔ ∃ owner, r.referent = .metadata owner ∧
      owner.or around = some item ∧ b.isMetadata r.name = false ∧ name = r.name := by
  unfold ofReference
  cases r.referent with
  | property => cases b.isProperty r.name <;> simp
  | item => simp
  | metadata owner => cases b.isMetadata r.name <;> simp [eq_comm]

theorem parameter_not_mem_ofReference {r : Reference} {around : Option String} :
    .parameter task name ∉ ofReference b r around := by
  unfold ofReference
  cases r.referent with
  | property => cases b.isProperty r.name <;> simp
  | item => simp
  | metadata owner => cases b.isMetadata r.name <;> simp

theorem metadataOf?_eq_some {m : Mention} : m.metadataOf? key = some name ↔
    ∃ owner, NameKey.of owner = key ∧ m = .metadata owner name := by
  unfold metadataOf?
  cases m <;> simp

theorem parameterOf?_eq_some {m : Mention} : m.parameterOf? key = some name ↔
    ∃ owner, NameKey.of owner = key ∧ m = .parameter owner name := by
  unfold parameterOf?
  cases m <;> simp

end Mention

namespace Xml.Subtree

/-- An element that is not known has no kind, and nothing is said at it. -/
theorem silent_of_unknown (b : Builtins) (h : s.descriptor? = none) :
    s.kind? = none ∧ s.references = [] ∧ s.mentions b = [] := by
  refine ⟨?_, ?_, s.mentions_of_unknown b h⟩
  · rw [kind?, h]
    rfl
  · rw [references, walkedValues_of_unknown h]
    rfl

/-- A known element mentions what it declares, itself as metadata, and what its values refer to. -/
theorem mem_mentions_iff {m : Mention} (h : s.descriptor? = some d) : m ∈ s.mentions b ↔
    m ∈ Mention.ofElement s.element d ∨
      (d.kind = .metadata ∧ ∃ around, s.item? = some around ∧
        m = .metadata around.name.localName s.element.name.localName) ∨
      ∃ r ∈ s.references, m ∈ Mention.ofReference b r (s.item?.map (·.name.localName)) := by
  rw [mentions_of_known b h, List.mem_append, List.mem_append, List.mem_flatMap, or_assoc]
  have hitself : m ∈ (if d.kind = .metadata then s.item?.toList.map fun item =>
      .metadata item.name.localName s.element.name.localName else []) ↔
        d.kind = .metadata ∧ ∃ around, s.item? = some around ∧
          m = .metadata around.name.localName s.element.name.localName := by
    by_cases hkind : d.kind = .metadata <;> simp [hkind, eq_comm]
  rw [hitself]

/-- An element mentions just the metadata that it adds. -/
theorem metadata_mem_mentions :
    .metadata item name ∈ s.mentions b ↔ s.AddsMetadata b item name := by
  cases hd : s.descriptor? with
  | none =>
    obtain ⟨hkind, hreferences, hmentions⟩ := s.silent_of_unknown b hd
    rw [hmentions]
    constructor
    · intro h
      cases h
    · intro h
      cases h with
      | byAttribute h | byElement h => cases hkind.symm.trans h
      | byReference hr =>
        rw [hreferences] at hr
        cases hr
  | some d =>
    have hkind : s.kind? = some d.kind := by rw [kind?, hd]; rfl
    have hschema : Descriptor.of? d.kind = some d := Descriptor.of?_ofPath hd
    rw [mem_mentions_iff hd, Mention.metadata_mem_ofElement]
    constructor
    · rintro (⟨hitem, rfl, hname⟩ | ⟨hmetadata, around, haround, heq⟩ | ⟨r, hr, hmention⟩)
      · apply AddsMetadata.byAttribute hkind hitem
        exact (Mention.mem_customAttributes hschema (Or.inl hitem)).1 hname
      · obtain ⟨rfl, rfl⟩ := Mention.metadata.inj heq
        rw [hmetadata] at hkind
        exact .byElement hkind haround
      · obtain ⟨owner, hreferent, hitem, hbuiltin, rfl⟩ :=
          Mention.metadata_mem_ofReference.1 hmention
        exact .byReference hr hreferent hitem hbuiltin
    · intro h
      cases h with
      | byAttribute hthis hitem h =>
        obtain rfl := Option.some.inj (hkind.symm.trans hthis)
        exact Or.inl ⟨hitem, rfl, (Mention.mem_customAttributes hschema (Or.inl hitem)).2 h⟩
      | byElement hthis haround =>
        have hmetadata := Option.some.inj (hkind.symm.trans hthis)
        exact Or.inr (Or.inl ⟨hmetadata, _, haround, rfl⟩)
      | byReference hr hreferent hitem hbuiltin =>
        refine Or.inr (Or.inr ⟨_, hr, ?_⟩)
        exact Mention.metadata_mem_ofReference.2 ⟨_, hreferent, hitem, hbuiltin, rfl⟩

/-- Nor does it mention any other parameters than it adds. -/
theorem parameter_mem_mentions :
    .parameter task name ∈ s.mentions b ↔ s.AddsParameter task name := by
  unfold AddsParameter
  cases hd : s.descriptor? with
  | none =>
    obtain ⟨hkind, -, hmentions⟩ := s.silent_of_unknown b hd
    rw [hmentions, hkind]
    simp
  | some d =>
    have hkind : s.kind? = some d.kind := by rw [kind?, hd]; rfl
    have hschema : Descriptor.of? d.kind = some d := Descriptor.of?_ofPath hd
    rw [mem_mentions_iff hd, Mention.parameter_mem_ofElement, hkind, Option.some_inj]
    constructor
    · rintro (⟨htask, rfl, hname⟩ | ⟨-, around, -, heq⟩ | ⟨r, -, hmention⟩)
      · have hrecorded := (Mention.mem_customAttributes hschema (Or.inr htask)).1 hname
        rw [htask] at hrecorded
        exact ⟨htask, rfl, hrecorded⟩
      · cases heq
      · exact absurd hmention Mention.parameter_not_mem_ofReference
    · rintro ⟨htask, rfl, hrecorded⟩
      rw [← htask] at hrecorded
      exact Or.inl ⟨htask, rfl, (Mention.mem_customAttributes hschema (Or.inr htask)).2 hrecorded⟩

end Xml.Subtree

namespace FileSymbols

section
variable {α : Type} {label : α → String} (table : FileSymbols → SymbolTable α)
  {name? : Mention → Option String} {mention : String → String → Mention} {owner : NameKey}

/-- If each mention of a name with a certain owner adds at most that name, the table of a document
has the keys of the names that are so mentioned at its elements. -/
theorem mem_keys_foldl_note (hstep : ∀ s m key, (table (note s m)).spelling label key =
      ((table s).spelling label key).or (firstSpelling (name? m).toList key))
    (hempty : ∀ key, (table empty).spelling label key = none)
    (hname : ∀ m name, name? m = some name ↔
      ∃ written, NameKey.of written = owner ∧ m = mention written name)
    (b : Builtins) (doc : Document) (key : NameKey) :
    key ∈ (table ((doc.walk.flatMap (·.mentions b)).foldl note empty)).keys ↔
      ∃ q ∈ doc.subtrees, ∃ written name, mention written name ∈ q.mentions b ∧
        NameKey.of written = owner ∧ NameKey.of name = key := by
  have hspelling := spelling_foldl_note hstep (doc.walk.flatMap (·.mentions b)) empty key
  rw [hempty, Option.none_or, doc.flatMap_mentions b, List.filterMap_flatMap] at hspelling
  rw [doc.flatMap_mentions b, mem_keys_of_spelling hspelling]
  simp only [List.mem_filterMap, hname]
  constructor
  · rintro ⟨q, hq, name, hkey, _, hm, written, howner, rfl⟩
    exact ⟨q, hq, written, name, hm, howner, hkey⟩
  · rintro ⟨q, hq, written, name, hm, howner, hkey⟩
    exact ⟨q, hq, name, hkey, _, hm, written, howner, rfl⟩

end

/-- The metadata of an item and the parameters of a task are what the elements of a document add to
them. So of all attributes just those of items, item definitions and tasks are symbols that are
neither foreign nor of the schema, and those that declare a namespace. -/
theorem ofDocument_attributes (b : Builtins) (x : ImportScope) (doc : Document) :
    let s := ofDocument b x doc
    (∀ item key, key ∈ (s.metadataOf item).keys ↔ ∃ q ∈ doc.subtrees, ∃ owner name,
      q.AddsMetadata b owner name ∧ NameKey.of owner = item ∧ NameKey.of name = key) ∧
    ∀ task key, key ∈ (s.parametersOf task).keys ↔ ∃ q ∈ doc.subtrees, ∃ owner name,
      q.AddsParameter owner name ∧ NameKey.of owner = task ∧ NameKey.of name = key := by
  intro s
  constructor
  · intro item key
    have hkeys := mem_keys_foldl_note (·.metadataOf item) (spelling_metadataOf_note item)
      (fun _ => rfl) (fun _ _ => Mention.metadataOf?_eq_some) b doc key
    simp only [Subtree.metadata_mem_mentions] at hkeys
    exact hkeys
  · intro task key
    have hkeys := mem_keys_foldl_note (·.parametersOf task) (spelling_parametersOf_note task)
      (fun _ => rfl) (fun _ _ => Mention.parameterOf?_eq_some) b doc key
    simp only [Subtree.parameter_mem_mentions] at hkeys
    exact hkeys

example :
    (Document.ofText ("<Project><ItemGroup><A xmlns='u' xmlns:p='u' p:B='1' Include='a' C='1'/>" ++
      "</ItemGroup></Project>")).walk.flatMap (·.mentions (.of .unspecified)) =
    [.item "A", .metadata "A" "xmlns", .metadata "A" "C"] := by
  decide +kernel

end FileSymbols

end ProjectAnalysis
