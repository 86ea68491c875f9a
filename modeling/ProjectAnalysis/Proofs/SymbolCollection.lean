import ProjectAnalysis.Proofs.SymbolMemory
import ProjectAnalysis.Proofs.WalkOrder

/-! What the tables of a document hold. Element by element there are names that are declared and
names that are referred to; the tables have the keys of all of them and no others, and they spell
each as it is met first. -/
namespace ProjectAnalysis

open Xml (Element Tree Document Subtree)
open ProjectAnalysis.Expr (Reference)

/-- The first of some names that is the name of a key. -/
def firstSpelling (names : List String) (key : NameKey) : Option String :=
  names.find? (NameKey.of · = key)

namespace Mention

def property? : Mention → Option String
  | .property name => some name
  | _ => none

def item? : Mention → Option String
  | .item name | .metadata name _ => some name
  | _ => none

def task? : Mention → Option String
  | .task name | .parameter name _ => some name
  | _ => none

end Mention

/-- The property that a reference asks for, unless it is well known. -/
def Expr.Reference.property? (b : Builtins) (r : Reference) : Option String :=
  match r.referent with
  | .property => if b.isProperty r.name then none else some r.name
  | _ => none

/-- The item that a reference asks for, or whose metadata it asks for unless that is well known. -/
def Expr.Reference.item? (b : Builtins) (r : Reference) : Option String :=
  match r.referent with
  | .property => none
  | .item => some r.name
  | .metadata owner => if b.isMetadata r.name then none else owner

namespace Xml.Element

/-- What an attribute names, if it is there and not empty. -/
def named? (e : Element) (label : String) : Option String :=
  (e.value? label).filter (!·.isEmpty)

/-- The properties that an element of some kind declares. -/
def declaredProperties (e : Element) : Kind → List String
  | .property => [e.name.localName]
  | .output => (e.named? "PropertyName").toList
  | _ => []

/-- The items that an element of some kind declares. -/
def declaredItems (e : Element) : Kind → List String
  | .item | .itemDefinition => [e.name.localName]
  | .output => (e.named? "ItemName").toList
  | _ => []

/-- The tasks that an element of some kind declares. -/
def declaredTasks (e : Element) : Kind → List String
  | .task => [e.name.localName]
  | _ => []

end Xml.Element

namespace Xml.Subtree

def kind? (s : Subtree) : Option Kind :=
  s.descriptor?.map (·.kind)

/-- The references in the values of the element that can be read. -/
def references (s : Subtree) : List Reference :=
  s.walkedValues.flatMap (·.references)

/-- Names that the element declares, as its kind says, and then those that its values refer to. -/
def names (declared : Kind → List String) (found? : Reference → Option String) (s : Subtree) :
    List String :=
  s.kind?.toList.flatMap declared ++ s.references.filterMap found?

def propertyNames (b : Builtins) (s : Subtree) : List String :=
  s.names s.element.declaredProperties (·.property? b)

def itemNames (b : Builtins) (s : Subtree) : List String :=
  s.names s.element.declaredItems (·.item? b)

def taskNames (s : Subtree) : List String :=
  s.names s.element.declaredTasks fun _ => none

/-- What is mentioned at the element, in order. -/
def mentions (b : Builtins) (s : Subtree) : List Mention :=
  s.events.flatMap (·.mentions b)

end Xml.Subtree

variable {key : NameKey} {name : String} {names more : List String} {b : Builtins} {s : Subtree}
  {d : Descriptor}

theorem firstSpelling_append (names more : List String) (key : NameKey) :
    firstSpelling (names ++ more) key = (firstSpelling names key).or (firstSpelling more key) :=
  List.find?_append

theorem isSome_firstSpelling_iff :
    (firstSpelling names key).isSome = true ↔ ∃ name ∈ names, NameKey.of name = key := by
  rw [firstSpelling, List.find?_isSome]
  simp

theorem firstSpelling_eq_none (h : ∀ name ∈ names, NameKey.of name ≠ key) :
    firstSpelling names key = none := by
  rw [firstSpelling, List.find?_eq_none]
  simpa using h

theorem firstSpelling_cons_self (name : String) (names : List String) :
    firstSpelling (name :: names) (.of name) = some name := by
  rw [firstSpelling, List.find?_cons_of_pos (by simp)]

theorem firstSpelling_single (name : String) (key : NameKey) :
    firstSpelling [name] key = if .of name = key then some name else none := by
  rw [firstSpelling, List.find?_singleton]
  simp

/-- More of the same name adds nothing. -/
theorem firstSpelling_cons_of_repeated (h : ∀ other ∈ more, other = name) (key : NameKey) :
    firstSpelling (name :: more) key = firstSpelling [name] key := by
  by_cases hkey : NameKey.of name = key
  · subst hkey
    rw [firstSpelling_cons_self, firstSpelling_cons_self]
  · have hnone : firstSpelling (name :: more) key = none := by
      apply firstSpelling_eq_none
      intro other hother
      rcases List.mem_cons.1 hother with rfl | hother
      · exact hkey
      · exact h other hother ▸ hkey
    rw [hnone, firstSpelling_single, if_neg hkey]

/-- If each of some things mentions a key as its names do, then all together do. -/
theorem firstSpelling_flatMap {α : Type} {f : α → List Mention} {name? : Mention → Option String}
    {names : α → List String}
    (h : ∀ a, firstSpelling ((f a).filterMap name?) key = firstSpelling (names a) key)
    (as : List α) :
    firstSpelling ((as.flatMap f).filterMap name?) key = firstSpelling (as.flatMap names) key := by
  induction as with
  | nil => rfl
  | cons a as ih =>
    rw [List.flatMap_cons, List.filterMap_append, firstSpelling_append, h, ih, List.flatMap_cons,
      firstSpelling_append]

namespace SymbolTable

variable {α : Type} {t : SymbolTable α} {label : α → String}

theorem spelling_insertNew (t : SymbolTable α) (a : α) (ha : label a = name) (key : NameKey) :
    (t.insertNew name a).spelling label key =
      (t.spelling label key).or (firstSpelling [name] key) := by
  rw [spelling, insertNew, OrderedTable.get?_insertNew, spelling, firstSpelling_single]
  by_cases hkey : NameKey.of name = key
  · subst hkey
    cases OrderedTable.get? t (.of name) <;> simp [ha]
  · simp [hkey]

theorem spelling_modify (t : SymbolTable α) (name : String) {f : α → α}
    (hf : ∀ a, label (f a) = label a) (key : NameKey) :
    (t.modify name f).spelling label key = t.spelling label key := by
  rw [spelling, modify, OrderedTable.get?_modify, spelling]
  split
  · rename_i hkey
    rw [hkey, Option.map_map]
    exact congrArg (Option.map · _) (funext hf)
  · rfl

end SymbolTable

namespace FileSymbols

section
variable {α : Type} {label : α → String} {table : FileSymbols → SymbolTable α}
  {name? : Mention → Option String}

/-- If each mention adds at most the name in it, then many add the first spelling of each name. -/
theorem spelling_foldl_note (hstep : ∀ s m key, (table (note s m)).spelling label key =
      ((table s).spelling label key).or (firstSpelling (name? m).toList key))
    (mentions : List Mention) (s : FileSymbols) (key : NameKey) :
    (table (mentions.foldl note s)).spelling label key =
      ((table s).spelling label key).or (firstSpelling (mentions.filterMap name?) key) := by
  induction mentions generalizing s with
  | nil => exact Option.or_none.symm
  | cons m mentions ih =>
    rw [List.foldl_cons, ih, hstep, filterMap_cons_eq_append, firstSpelling_append,
      Option.or_assoc]

end

theorem spelling_properties_note (s : FileSymbols) (m : Mention) (key : NameKey) :
    (s.note m).properties.spelling PropertyInfo.name key =
      (s.properties.spelling PropertyInfo.name key).or (firstSpelling m.property?.toList key) := by
  cases m with
  | property name => exact s.properties.spelling_insertNew (PropertyInfo.named name) rfl key
  | item _ | metadata _ _ | task _ | parameter _ _ => exact Option.or_none.symm

theorem spelling_items_note (s : FileSymbols) (m : Mention) (key : NameKey) :
    (s.note m).items.spelling ItemInfo.name key =
      (s.items.spelling ItemInfo.name key).or (firstSpelling m.item?.toList key) := by
  cases m with
  | item name => exact s.items.spelling_insertNew (ItemInfo.named name) rfl key
  | metadata item name =>
    -- The item is put in if it is new; to add metadata to it leaves its name as it is.
    have hkeep := (s.items.insertNew item (.named item)).spelling_modify item
      (fun i : ItemInfo => (rfl : (i.addMetadata name).name = i.name)) key
    exact hkeep.trans (s.items.spelling_insertNew (ItemInfo.named item) rfl key)
  | property _ | task _ | parameter _ _ => exact Option.or_none.symm

theorem spelling_tasks_note (s : FileSymbols) (m : Mention) (key : NameKey) :
    (s.note m).tasks.spelling TaskInfo.name key =
      (s.tasks.spelling TaskInfo.name key).or (firstSpelling m.task?.toList key) := by
  cases m with
  | task name => exact s.tasks.spelling_insertNew (TaskInfo.named name) rfl key
  | parameter task name =>
    have hkeep := (s.tasks.insertNew task (.named task)).spelling_modify task
      (fun t : TaskInfo => (rfl : (t.addParameter name).name = t.name)) key
    exact hkeep.trans (s.tasks.spelling_insertNew (TaskInfo.named task) rfl key)
  | property _ | item _ | metadata _ _ => exact Option.or_none.symm

end FileSymbols

theorem WalkedValue.flatMap_mentions (b : Builtins) (v : WalkedValue) :
    v.events.flatMap (·.mentions b) = v.references.flatMap (Mention.ofReference b · v.item) := by
  unfold references
  cases h : Expr.parse v.options v.text with
  | error fault =>
    rw [events_of_error h]
    rfl
  | ok root =>
    rw [events_of_ok h, List.flatMap_map]
    rfl

namespace Xml.Subtree

theorem item_of_mem_walkedValues {v : WalkedValue} (h : v ∈ s.walkedValues) :
    v.item = s.item?.map (·.name.localName) := by
  obtain ⟨slot, -, hv⟩ := List.mem_filterMap.1 h
  obtain ⟨d, -, hwalked⟩ := Option.bind_eq_some_iff.1 hv
  exact (Element.of_walked? hwalked).1

theorem mentions_of_unknown (b : Builtins) (h : s.descriptor? = none) : s.mentions b = [] := by
  rw [mentions, events_of_unknown h]
  split <;> rfl

/-- A known element is mentioned itself, then with the item that it is metadata of, and then there
is what its values refer to. -/
theorem mentions_of_known (b : Builtins) (h : s.descriptor? = some d) : s.mentions b =
    Mention.ofElement s.element d ++
      (if d.kind = .metadata then s.item?.toList.map fun item =>
        .metadata item.name.localName s.element.name.localName else []) ++
      s.references.flatMap (Mention.ofReference b · (s.item?.map (·.name.localName))) := by
  have hremarks : s.remarks.flatMap (·.mentions b) = Mention.ofElement s.element d ++
      (if d.kind = .metadata then s.item?.toList.map fun item =>
        .metadata item.name.localName s.element.name.localName else []) := by
    have hunknown : (DocumentWalk.unknownAttributes s.element d).flatMap (·.mentions b) = [] := by
      unfold DocumentWalk.unknownAttributes
      split
      · rfl
      · rw [List.flatMap_map]
        exact List.flatMap_eq_nil_iff.2 fun _ _ => rfl
    rw [remarks, h]
    dsimp only
    unfold Element.remarks
    rw [List.flatMap_append, hunknown, List.nil_append, List.flatMap_cons]
    apply congrArg
    cases s.item? with
    | none => exact (ite_self _).symm
    | some item => by_cases hkind : d.kind = .metadata <;> simp [hkind, WalkEvent.mentions]
  have hvalues : (s.walkedValues.flatMap (·.events)).flatMap (·.mentions b) =
      s.references.flatMap (Mention.ofReference b · (s.item?.map (·.name.localName))) := by
    rw [references, List.flatMap_assoc, List.flatMap_assoc]
    apply List.flatMap_congr
    intro v hv
    rw [v.flatMap_mentions b, item_of_mem_walkedValues hv]
  rw [mentions, events, List.flatMap_append, hremarks, hvalues]

end Xml.Subtree

namespace Mention

theorem filterMap_map_eq_nil {α : Type} {f : α → Mention} {name? : Mention → Option String}
    (h : ∀ a, name? (f a) = none) (as : List α) : (as.map f).filterMap name? = [] := by
  rw [List.filterMap_map]
  exact List.filterMap_eq_nil_iff.2 fun a _ => h a

theorem named_eq (e : Element) (label : String) (mention : String → Mention) :
    named e label mention = (e.named? label).toList.map mention := by
  unfold named Element.named?
  cases e.value? label with
  | none => rfl
  | some name => cases hempty : name.isEmpty <;> simp [hempty, Option.filter]

theorem filterMap_ofElement_property? (e : Element) (d : Descriptor) :
    (ofElement e d).filterMap property? = e.declaredProperties d.kind := by
  unfold ofElement Element.declaredProperties
  cases d.kind with
  | output =>
    -- An output may name a property and an item, and here the second does not count.
    have hitems : ((e.named? "ItemName").toList.map item).filterMap property? = [] :=
      filterMap_map_eq_nil (fun _ => rfl) _
    dsimp only
    rw [named_eq, named_eq, List.filterMap_append, hitems, List.append_nil, List.filterMap_map]
    exact List.filterMap_some
  | item | itemDefinition | task => exact filterMap_map_eq_nil (fun _ => rfl) _
  | _ => rfl

/-- An item is mentioned by itself and then by its metadata. -/
theorem firstSpelling_ofElement_item? (e : Element) (d : Descriptor) (key : NameKey) :
    firstSpelling ((ofElement e d).filterMap item?) key =
      firstSpelling (e.declaredItems d.kind) key := by
  unfold ofElement Element.declaredItems
  cases d.kind with
  | output =>
    have hproperties : ((e.named? "PropertyName").toList.map property).filterMap item? = [] :=
      filterMap_map_eq_nil (fun _ => rfl) _
    dsimp only
    rw [named_eq, named_eq, List.filterMap_append, hproperties, List.nil_append, List.filterMap_map]
    exact congrArg (firstSpelling · key) List.filterMap_some
  | item | itemDefinition =>
    apply firstSpelling_cons_of_repeated
    intro name hname
    rw [List.filterMap_map] at hname
    obtain ⟨a, -, ha⟩ := List.mem_filterMap.1 hname
    exact (Option.some.inj ha).symm
  | task => exact congrArg (firstSpelling · key) (filterMap_map_eq_nil (fun _ => rfl) _)
  | _ => rfl

theorem firstSpelling_ofElement_task? (e : Element) (d : Descriptor) (key : NameKey) :
    firstSpelling ((ofElement e d).filterMap task?) key =
      firstSpelling (e.declaredTasks d.kind) key := by
  unfold ofElement Element.declaredTasks
  cases d.kind with
  | output =>
    have hproperties : ((e.named? "PropertyName").toList.map property).filterMap task? = [] :=
      filterMap_map_eq_nil (fun _ => rfl) _
    have hitems : ((e.named? "ItemName").toList.map item).filterMap task? = [] :=
      filterMap_map_eq_nil (fun _ => rfl) _
    dsimp only
    rw [named_eq, named_eq, List.filterMap_append, hproperties, hitems]
    rfl
  | item | itemDefinition =>
    exact congrArg (firstSpelling · key) (filterMap_map_eq_nil (fun _ => rfl) _)
  | task =>
    apply firstSpelling_cons_of_repeated
    intro name hname
    rw [List.filterMap_map] at hname
    obtain ⟨a, -, ha⟩ := List.mem_filterMap.1 hname
    exact (Option.some.inj ha).symm
  | _ => rfl

theorem filterMap_ofReference_property? (b : Builtins) (r : Reference) (item : Option String) :
    (ofReference b r item).filterMap property? = (r.property? b).toList := by
  unfold ofReference Reference.property?
  cases r.referent with
  | property =>
    dsimp only
    split <;> rfl
  | item => rfl
  | metadata owner =>
    dsimp only
    split
    · rfl
    · exact filterMap_map_eq_nil (fun _ => rfl) _

theorem filterMap_ofReference_task? (b : Builtins) (r : Reference) (item : Option String) :
    (ofReference b r item).filterMap task? = [] := by
  unfold ofReference
  cases r.referent with
  | property =>
    dsimp only
    split <;> rfl
  | item => rfl
  | metadata owner =>
    dsimp only
    split
    · rfl
    · exact filterMap_map_eq_nil (fun _ => rfl) _

/-- Metadata without an item is put down to the item around it, which is no news of that. -/
theorem firstSpelling_ofReference_item? (b : Builtins) (r : Reference) {item : Option String}
    (h : ∀ name, item = some name → NameKey.of name ≠ key) :
    firstSpelling ((ofReference b r item).filterMap item?) key =
      firstSpelling (r.item? b).toList key := by
  unfold ofReference Reference.item?
  cases r.referent with
  | property =>
    dsimp only
    split <;> rfl
  | item => rfl
  | metadata owner =>
    dsimp only
    split
    · rfl
    · match owner, item with
      | some owner, _ => rfl
      | none, none => rfl
      | none, some name => exact firstSpelling_eq_none (List.forall_mem_singleton.2 (h name rfl))

end Mention

namespace Xml.Subtree

/-- What is mentioned at an element gives the names that it declares and those that it refers to,
as far as a key is asked for. If the element declares a name of the key nothing else matters. -/
theorem firstSpelling_mentions {name? : Mention → Option String} {declared : Kind → List String}
    {found? : Reference → Option String} (s : Subtree)
    (hown : ∀ d, firstSpelling ((Mention.ofElement s.element d).filterMap name?) key =
      firstSpelling (declared d.kind) key)
    (hmetadata : firstSpelling (s.kind?.toList.flatMap declared) key = none →
      ∀ item, s.item? = some item → firstSpelling
        ([.metadata item.name.localName s.element.name.localName].filterMap name?) key = none)
    (hreference : firstSpelling (s.kind?.toList.flatMap declared) key = none → ∀ r, firstSpelling
      ((Mention.ofReference b r (s.item?.map (·.name.localName))).filterMap name?) key =
        firstSpelling (found? r).toList key) :
    firstSpelling ((s.mentions b).filterMap name?) key =
      firstSpelling (s.names declared found?) key := by
  cases h : s.descriptor? with
  | none =>
    rw [s.mentions_of_unknown b h, names, kind?, h, references, walkedValues_of_unknown h]
    rfl
  | some d =>
    have hdeclared : s.kind?.toList.flatMap declared = declared d.kind := by
      rw [kind?, h]
      exact List.append_nil _
    rw [hdeclared] at hmetadata hreference
    rw [mentions_of_known b h, List.filterMap_append, List.filterMap_append, List.append_assoc,
      firstSpelling_append, hown, names, hdeclared, firstSpelling_append]
    cases hfirst : firstSpelling (declared d.kind) key with
    | some name => rw [Option.some_or, firstSpelling_append, hfirst, Option.some_or]
    | none =>
      -- What is put down to the item around is no news of the key, so the references decide.
      have howner : firstSpelling ((if d.kind = .metadata then s.item?.toList.map fun item =>
          Mention.metadata item.name.localName s.element.name.localName else []).filterMap
            name?) key = none := by
        split
        · cases hitem : s.item? with
          | none => rfl
          | some item => exact hmetadata hfirst item hitem
        · rfl
      have hreferences := firstSpelling_flatMap (hreference hfirst) s.references
      rw [← List.filterMap_eq_flatMap_toList] at hreferences
      rw [howner, hreferences, firstSpelling_append, hfirst, Option.none_or]

theorem firstSpelling_property? (b : Builtins) (s : Subtree) (key : NameKey) :
    firstSpelling ((s.mentions b).filterMap Mention.property?) key =
      firstSpelling (s.propertyNames b) key := by
  apply firstSpelling_mentions
  · intro d
    rw [Mention.filterMap_ofElement_property?]
  · exact fun _ item _ => rfl
  · intro _ r
    rw [Mention.filterMap_ofReference_property?]

theorem firstSpelling_task? (b : Builtins) (s : Subtree) (key : NameKey) :
    firstSpelling ((s.mentions b).filterMap Mention.task?) key =
      firstSpelling s.taskNames key := by
  apply firstSpelling_mentions
  · exact fun d => Mention.firstSpelling_ofElement_task? s.element d key
  · exact fun _ item _ => rfl
  · intro _ r
    rw [Mention.filterMap_ofReference_task?]
    rfl

/-- The item that an element is in, or that it is, has the key only if its name is declared by the
element or is the name of an item further out. -/
theorem item_ne_of_not_declared (s : Subtree)
    (habove : ∀ item, Descriptor.innermostItem s.above = some item →
      NameKey.of item.name.localName ≠ key)
    (hown : firstSpelling (s.kind?.toList.flatMap s.element.declaredItems) key = none) :
    ∀ item, s.item? = some item → NameKey.of item.name.localName ≠ key := by
  intro item hitem
  rw [item?, path, Descriptor.innermostItem_concat] at hitem
  split at hitem
  · -- The element is an item itself, and so it declares its own name.
    rename_i hends
    obtain rfl := Option.some.inj hitem
    obtain ⟨d, hd, hkind⟩ := (Option.any_eq_true ..).1 hends
    have hdeclared : s.kind?.toList.flatMap s.element.declaredItems =
        [s.element.name.localName] := by
      have hdescriptor : s.descriptor? = some d := hd
      rw [DocumentWalk.isItem, Bool.or_eq_true, decide_eq_true_eq, decide_eq_true_eq] at hkind
      rw [kind?, hdescriptor]
      rcases hkind with hkind | hkind <;> simp [hkind, Element.declaredItems]
    intro hkey
    rw [hdeclared, firstSpelling_single, if_pos hkey] at hown
    cases hown
  · exact habove item hitem

theorem firstSpelling_item? (b : Builtins) (s : Subtree)
    (habove : ∀ item, Descriptor.innermostItem s.above = some item →
      NameKey.of item.name.localName ≠ key) :
    firstSpelling ((s.mentions b).filterMap Mention.item?) key =
      firstSpelling (s.itemNames b) key := by
  apply firstSpelling_mentions
  · exact fun d => Mention.firstSpelling_ofElement_item? s.element d key
  · intro hown item hitem
    have hne := s.item_ne_of_not_declared habove hown item hitem
    exact firstSpelling_eq_none (List.forall_mem_singleton.2 hne)
  · intro hown r
    -- Metadata without an owner is put down to the item around it, and that has another key.
    apply Mention.firstSpelling_ofReference_item?
    intro name hname
    obtain ⟨item, hitem, rfl⟩ := Option.map_eq_some_iff.1 hname
    exact s.item_ne_of_not_declared habove hown item hitem

end Xml.Subtree

-- Only for items does the place of an element bear on what is mentioned there, so this is an
-- induction over trees, where for properties and tasks the elements are taken one by one.
mutual

theorem firstSpelling_subtrees (b : Builtins) {above : List Element}
    (habove : ∀ item, Descriptor.innermostItem above = some item →
      NameKey.of item.name.localName ≠ key) (t : Tree) :
    firstSpelling (((t.subtrees above).flatMap (·.mentions b)).filterMap Mention.item?) key =
      firstSpelling ((t.subtrees above).flatMap (·.itemNames b)) key := by
  match t with
  | .node e children =>
    let s : Subtree := ⟨above, .node e children⟩
    rw [Tree.subtrees, List.flatMap_cons, List.filterMap_append, firstSpelling_append,
      s.firstSpelling_item? b habove, List.flatMap_cons, firstSpelling_append]
    cases hown : firstSpelling (s.kind?.toList.flatMap e.declaredItems) key with
    | some name =>
      -- The element spells the name, so nothing behind it matters.
      have hnames : firstSpelling (s.itemNames b) key = some name := by
        rw [Subtree.itemNames, Subtree.names, firstSpelling_append]
        exact congrArg (Option.or · _) hown
      rw [hnames, Option.some_or, Option.some_or]
    | none =>
      have hitem := s.item_ne_of_not_declared habove hown
      exact congrArg _ (firstSpelling_allSubtrees b hitem children)

/-- Whatever item some trees are in, it was met before them; so the metadata that is put down to it
there is no news of its name. -/
theorem firstSpelling_allSubtrees (b : Builtins) {above : List Element}
    (habove : ∀ item, Descriptor.innermostItem above = some item →
      NameKey.of item.name.localName ≠ key) (ts : List Tree) :
    firstSpelling (((Tree.allSubtrees above ts).flatMap (·.mentions b)).filterMap Mention.item?)
      key = firstSpelling ((Tree.allSubtrees above ts).flatMap (·.itemNames b)) key := by
  match ts with
  | [] => rfl
  | t :: ts =>
    rw [Tree.allSubtrees, List.flatMap_append, List.filterMap_append, firstSpelling_append,
      firstSpelling_subtrees b habove t, firstSpelling_allSubtrees b habove ts,
      List.flatMap_append, firstSpelling_append]

end

theorem Xml.Document.flatMap_mentions (b : Builtins) (doc : Document) :
    doc.walk.flatMap (·.mentions b) = doc.subtrees.flatMap (·.mentions b) := by
  have hfaults : (doc.faults.map fun f =>
      WalkEvent.problem (.malformedXml f.message f.span)).flatMap (·.mentions b) = [] := by
    rw [List.flatMap_map]
    exact List.flatMap_eq_nil_iff.2 fun _ _ => rfl
  rw [Document.walk_eq, List.flatMap_append, hfaults, List.nil_append, List.flatMap_assoc]
  rfl

theorem Expr.Reference.property?_eq_some {r : Reference} : r.property? b = some name ↔
    r.referent = .property ∧ b.isProperty name = false ∧ r.name = name := by
  unfold property?
  cases r.referent with
  | property =>
    simp only [true_and]
    constructor
    · intro h
      split at h
      · cases h
      · next hb =>
        obtain rfl := Option.some.inj h
        exact ⟨Bool.eq_false_iff.2 hb, rfl⟩
    · rintro ⟨hb, rfl⟩
      rw [hb, if_neg Bool.false_ne_true]
  | item | metadata owner => simp

theorem Expr.Reference.item?_eq_some {r : Reference} : r.item? b = some name ↔
    (r.referent = .item ∧ r.name = name) ∨
      (r.referent = .metadata (some name) ∧ b.isMetadata r.name = false) := by
  unfold item?
  cases r.referent with
  | property => simp
  | item => simp
  | metadata owner => cases b.isMetadata r.name <;> simp

namespace Xml.Element

variable {e : Element} {kind : Kind} {label : String}

theorem named?_eq_some : e.named? label = some name ↔ e.value? label = some name ∧ name ≠ "" := by
  rw [named?, Option.filter_eq_some_iff]
  simp

theorem mem_declaredProperties : name ∈ e.declaredProperties kind ↔
    (kind = .property ∧ name = e.name.localName) ∨
      (kind = .output ∧ e.value? "PropertyName" = some name ∧ name ≠ "") := by
  unfold declaredProperties
  cases kind <;> simp [named?_eq_some]

theorem mem_declaredItems : name ∈ e.declaredItems kind ↔
    ((kind = .item ∨ kind = .itemDefinition) ∧ name = e.name.localName) ∨
      (kind = .output ∧ e.value? "ItemName" = some name ∧ name ≠ "") := by
  unfold declaredItems
  cases kind <;> simp [named?_eq_some]

theorem mem_declaredTasks : name ∈ e.declaredTasks kind ↔
    kind = .task ∧ name = e.name.localName := by
  unfold declaredTasks
  cases kind <;> simp

end Xml.Element

namespace Xml.Subtree

theorem mem_names {declared : Kind → List String} {found? : Reference → Option String} :
    name ∈ s.names declared found? ↔ (∃ kind, s.kind? = some kind ∧ name ∈ declared kind) ∨
      ∃ r ∈ s.references, found? r = some name := by
  rw [names, List.mem_append, List.mem_flatMap, List.mem_filterMap]
  simp

theorem mem_propertyNames : name ∈ s.propertyNames b ↔
    (s.kind? = some .property ∧ name = s.element.name.localName) ∨
      (s.kind? = some .output ∧ s.element.value? "PropertyName" = some name ∧ name ≠ "") ∨
      ∃ r ∈ s.references, r.referent = .property ∧ b.isProperty name = false ∧ r.name = name := by
  rw [propertyNames, mem_names]
  simp only [Element.mem_declaredProperties, Expr.Reference.property?_eq_some]
  cases s.kind? <;> simp [or_assoc]

theorem mem_itemNames : name ∈ s.itemNames b ↔
    ((s.kind? = some .item ∨ s.kind? = some .itemDefinition) ∧ name = s.element.name.localName) ∨
      (s.kind? = some .output ∧ s.element.value? "ItemName" = some name ∧ name ≠ "") ∨
      ∃ r ∈ s.references, (r.referent = .item ∧ r.name = name) ∨
        (r.referent = .metadata (some name) ∧ b.isMetadata r.name = false) := by
  rw [itemNames, mem_names]
  simp only [Element.mem_declaredItems, Expr.Reference.item?_eq_some]
  cases s.kind? <;> simp [or_assoc]

theorem mem_taskNames : name ∈ s.taskNames ↔
    s.kind? = some .task ∧ name = s.element.name.localName := by
  rw [taskNames, mem_names]
  simp only [Element.mem_declaredTasks]
  cases s.kind? <;> simp

end Xml.Subtree

namespace FileSymbols

/-- A table has the keys of some names of each element of a document, if it spells each of its keys
as the first of them. -/
theorem mem_keys_of_spelling {α : Type} {label : α → String} {t : SymbolTable α}
    {names : Subtree → List String} {ss : List Subtree}
    (h : t.spelling label key = firstSpelling (ss.flatMap names) key) :
    key ∈ t.keys ↔ ∃ q ∈ ss, ∃ name, NameKey.of name = key ∧ name ∈ names q := by
  rw [← SymbolTable.isSome_spelling_iff label, h, isSome_firstSpelling_iff]
  constructor
  · rintro ⟨name, hname, hkey⟩
    obtain ⟨q, hq, hname⟩ := List.mem_flatMap.1 hname
    exact ⟨q, hq, name, hkey, hname⟩
  · rintro ⟨q, hq, name, hkey, hname⟩
    exact ⟨name, List.mem_flatMap.2 ⟨q, hq, hname⟩, hkey⟩

section
variable (b : Builtins) (x : ImportScope) (doc : Document) (key : NameKey)

theorem spelling_properties : (ofDocument b x doc).properties.spelling PropertyInfo.name key =
    firstSpelling (doc.subtrees.flatMap (·.propertyNames b)) key :=
  calc
    _ = firstSpelling ((doc.walk.flatMap (·.mentions b)).filterMap Mention.property?) key :=
        spelling_foldl_note spelling_properties_note _ empty key
    _ = _ := by
        rw [doc.flatMap_mentions b, firstSpelling_flatMap (·.firstSpelling_property? b key)]

theorem spelling_items : (ofDocument b x doc).items.spelling ItemInfo.name key =
    firstSpelling (doc.subtrees.flatMap (·.itemNames b)) key := by
  have hstart : ∀ item, Descriptor.innermostItem [] = some item →
      NameKey.of item.name.localName ≠ key := nofun
  calc
    _ = firstSpelling ((doc.walk.flatMap (·.mentions b)).filterMap Mention.item?) key :=
        spelling_foldl_note spelling_items_note _ empty key
    _ = _ := by
        rw [doc.flatMap_mentions b]
        exact firstSpelling_allSubtrees b hstart doc.root.toList

theorem spelling_tasks : (ofDocument b x doc).tasks.spelling TaskInfo.name key =
    firstSpelling (doc.subtrees.flatMap (·.taskNames)) key :=
  calc
    _ = firstSpelling ((doc.walk.flatMap (·.mentions b)).filterMap Mention.task?) key :=
        spelling_foldl_note spelling_tasks_note _ empty key
    _ = _ := by rw [doc.flatMap_mentions b, firstSpelling_flatMap (·.firstSpelling_task? b key)]

end

/-- What is collected from a document is what its elements declare and what the values that can be
read refer to, no more and no less, and each name is spelled as it is met first. -/
theorem ofDocument_collects (v : ToolsVersion) (x : ImportScope) (doc : Document) :
    let b := Builtins.of v
    let s := ofDocument b x doc
    (∀ key, key ∈ s.properties.keys ↔ ∃ q ∈ doc.subtrees, ∃ name, NameKey.of name = key ∧
      ((q.kind? = some .property ∧ name = q.element.name.localName) ∨
        (q.kind? = some .output ∧ q.element.value? "PropertyName" = some name ∧ name ≠ "") ∨
        ∃ r ∈ q.references, r.referent = .property ∧ b.isProperty name = false ∧
          r.name = name)) ∧
    (∀ key, key ∈ s.items.keys ↔ ∃ q ∈ doc.subtrees, ∃ name, NameKey.of name = key ∧
      (((q.kind? = some .item ∨ q.kind? = some .itemDefinition) ∧
          name = q.element.name.localName) ∨
        (q.kind? = some .output ∧ q.element.value? "ItemName" = some name ∧ name ≠ "") ∨
        ∃ r ∈ q.references, (r.referent = .item ∧ r.name = name) ∨
          (r.referent = .metadata (some name) ∧ b.isMetadata r.name = false))) ∧
    (∀ key, key ∈ s.tasks.keys ↔ ∃ q ∈ doc.subtrees, q.kind? = some .task ∧
      NameKey.of q.element.name.localName = key) ∧
    ∀ key,
      s.properties.spelling PropertyInfo.name key =
        firstSpelling (doc.subtrees.flatMap (·.propertyNames b)) key ∧
      s.items.spelling ItemInfo.name key =
        firstSpelling (doc.subtrees.flatMap (·.itemNames b)) key ∧
      s.tasks.spelling TaskInfo.name key =
        firstSpelling (doc.subtrees.flatMap (·.taskNames)) key := by
  intro b s
  refine ⟨fun key => ?_, fun key => ?_, fun key => ?_, fun key =>
    ⟨spelling_properties b x doc key, spelling_items b x doc key, spelling_tasks b x doc key⟩⟩
  · rw [mem_keys_of_spelling (spelling_properties b x doc key)]
    simp only [Subtree.mem_propertyNames]
  · rw [mem_keys_of_spelling (spelling_items b x doc key)]
    simp only [Subtree.mem_itemNames]
  · rw [mem_keys_of_spelling (spelling_tasks b x doc key)]
    simp only [Subtree.mem_taskNames]
    constructor
    · rintro ⟨q, hq, name, hkey, hkind, rfl⟩
      exact ⟨q, hq, hkind, hkey⟩
    · rintro ⟨q, hq, hkind, hkey⟩
      exact ⟨q, hq, _, hkey, hkind, rfl⟩

end FileSymbols

end ProjectAnalysis
