import ProjectAnalysis.Proofs.LookupAgreement

/-! Tables go by the names of their entries. Whatever a document says, whatever is merged in of
earlier texts and of imports, and in all that a generation shows, every symbol stands under the key
of its own name, and so does everything inside of it. So no table has two spellings of one name, and
any spelling finds the entry. -/
namespace ProjectAnalysis

variable {α β : Type}

namespace SymbolTable

variable {name : α → String} {P : NameKey → α → Prop} {t : SymbolTable α}

/-- Every entry stands under the key of its name; so names differ not in case only, and an entry is
found under any spelling of its name. -/
structure GoesBy (name : α → String) (t : SymbolTable α) : Prop where
  key : ∀ e ∈ t.entries, e.1 = .of (name e.2)
  apart : ((OrderedTable.values t).map fun a => NameKey.of (name a)).Nodup
  found : ∀ a ∈ OrderedTable.values t, ∀ text, NameKey.of text = .of (name a) →
    t.get? text = some a

/-- So does the table inside of every entry. -/
structure GoesByWithin (name : α → String) (inner : α → SymbolTable β) (label : β → String)
    (t : SymbolTable α) : Prop where
  names : t.GoesBy name
  within : ∀ a ∈ OrderedTable.values t, (inner a).GoesBy label

theorem All.goesBy (h : t.All fun key a => key = .of (name a)) : t.GoesBy name := by
  have hkey : ∀ e ∈ t.entries, e.1 = .of (name e.2) := fun e he =>
    h e.1 e.2 (OrderedTable.get?_eq_some_iff.2 he)
  refine ⟨hkey, ?_, fun a ha text htext => ?_⟩
  · have hkeys : (OrderedTable.values t).map (fun a => NameKey.of (name a)) =
        OrderedTable.keys t := by
      rw [OrderedTable.values, OrderedTable.keys, List.map_map]
      exact List.map_congr_left fun e he => (hkey e he).symm
    rw [hkeys]
    exact t.nodup
  · obtain ⟨key, hget⟩ := OrderedTable.mem_values_iff.1 ha
    rw [SymbolTable.get?, htext, ← h key a hget, hget]

theorem All.goesByWithin {inner : α → SymbolTable β} {label : β → String}
    (h : t.All fun key a => key = .of (name a) ∧ (inner a).All fun key b => key = .of (label b)) :
    t.GoesByWithin name inner label := by
  have hnames : t.All fun key a => key = .of (name a) := fun key a ha => (h key a ha).1
  refine ⟨hnames.goesBy, fun a ha => ?_⟩
  obtain ⟨key, hget⟩ := OrderedTable.mem_values_iff.1 ha
  exact All.goesBy (h key a hget).2

end SymbolTable

theorem Builtins.all_properties (v : ToolsVersion) :
    (of v).properties.All fun key p => key = .of p.name :=
  (SymbolTable.all_empty _).foldl_insert BuiltinProperty.name _ _ fun _ => rfl

theorem Builtins.all_metadata (v : ToolsVersion) :
    (of v).metadata.All fun key m => key = .of m.name :=
  (SymbolTable.all_empty _).foldl_insert BuiltinMetadata.name _ _ fun _ => rfl

/-- All tables of a file go by names. -/
structure FileSymbols.GoByNames (s : FileSymbols) : Prop where
  items : s.items.GoesByWithin ItemInfo.name ItemInfo.metadata MetadataInfo.name
  tasks : s.tasks.GoesByWithin TaskInfo.name TaskInfo.parameters id
  properties : s.properties.GoesBy PropertyInfo.name

theorem FileSymbols.Named.goByNames {s : FileSymbols} (h : s.Named) : s.GoByNames :=
  ⟨h.items.goesByWithin, h.tasks.goesByWithin, h.properties.goesBy⟩

namespace Generation

/-- Everything that a generation shows goes by names. -/
structure ShowsByNames (g : Generation) : Prop where
  items : g.items.GoesByWithin ItemInfo.name ItemInfo.metadata MetadataInfo.name
  tasks : g.tasks.GoesByWithin TaskInfo.name TaskInfo.parameters id
  properties : ∀ wellKnown, (g.properties wellKnown).GoesBy PropertyInfo.name
  item : ∀ name i, g.item? name = some i →
    NameKey.of name = .of i.name ∧ i.metadata.GoesBy MetadataInfo.name
  task : ∀ name t, g.task? name = some t →
    NameKey.of name = .of t.name ∧ t.parameters.GoesBy id
  property : ∀ name p, g.property? name = some p → NameKey.of name = .of p.name
  itemMetadata : ∀ item wellKnown,
    ((g.itemMetadata item wellKnown).map fun m => NameKey.of m.name).Nodup

section
variable [Symbol α] {g : Generation} {P : NameKey → α → Prop}
  {table : FileSymbols → SymbolTable α}

/-- What every entry of the files and every given one is, every entry of a merged table is. -/
theorem all_merged (hmerge : ∀ key a b, P key a → P key b → P key (Symbol.merge a b))
    (hkey : ∀ key a, P key a → key = .of (Symbol.name a)) {given : SymbolTable α}
    (hgiven : given.All P) (hfiles : g.All fun s => (table s).All P) :
    (g.merged given table).All P := by
  have hvalue {s : FileSymbols} (hs : (table s).All P) :
      ∀ a ∈ OrderedTable.values (table s), P (.of (Symbol.name a)) a := by
    intro a ha
    obtain ⟨key, hget⟩ := OrderedTable.mem_values_iff.1 ha
    have hP := hs key a hget
    exact hkey key a hP ▸ hP
  refine hgiven.addAll hmerge _ fun a ha => ?_
  rcases List.mem_append.1 ha with hown | himported
  · exact hvalue hfiles.1 a hown
  · obtain ⟨s, hs, ha⟩ := List.mem_flatMap.1 (List.mem_filter.1 himported).1
    obtain ⟨i, hi, rfl⟩ := List.mem_map.1 hs
    exact hvalue (hfiles.of_mem_imports hi) a ha

end

variable {g : Generation}

theorem Proper.all_items (h : g.Proper) : g.items.All fun key i => i.StandsUnder key := by
  have hmerge (key : NameKey) (i j : ItemInfo) (hi : i.StandsUnder key) (hj : j.StandsUnder key) :
      (i.merge j).StandsUnder key := hi.merge hj
  exact all_merged hmerge (fun _ _ hi => hi.1) (SymbolTable.all_empty _)
    ⟨h.symbols.named.items, fun k i hi => (h.imports k i hi).named.items⟩

theorem Proper.all_tasks (h : g.Proper) : g.tasks.All fun key t => t.StandsUnder key := by
  have hmerge (key : NameKey) (t u : TaskInfo) (ht : t.StandsUnder key) (hu : u.StandsUnder key) :
      (t.merge u).StandsUnder key := ht.merge hu
  exact all_merged hmerge (fun _ _ ht => ht.1) (SymbolTable.all_empty _)
    ⟨h.symbols.named.tasks, fun k i hi => (h.imports k i hi).named.tasks⟩

theorem Proper.all_properties (h : g.Proper) (wellKnown : Bool) :
    (g.properties wellKnown).All fun key p => key = .of p.name := by
  refine all_merged (fun _ _ _ hp _ => hp) (fun _ _ hp => hp) ?_
    ⟨h.symbols.named.properties, fun k i hi => (h.imports k i hi).named.properties⟩
  cases wellKnown with
  | false => exact SymbolTable.all_empty _
  | true => exact Builtins.all_properties g.toolsVersion

/-- The metadata of an item is that of one more table, in which the well-known ones are or nothing
is before. -/
theorem nodup_itemMetadata (g : Generation) (item : String) (wellKnown : Bool) :
    ((g.itemMetadata item wellKnown).map fun m => NameKey.of m.name).Nodup := by
  have hgiven : (if wellKnown then g.builtins.metadata else .empty :
      SymbolTable MetadataInfo).All fun key m => key = .of m.name := by
    cases wellKnown with
    | false => exact SymbolTable.all_empty _
    | true => exact Builtins.all_metadata g.toolsVersion
  unfold itemMetadata
  exact (hgiven.addAll (fun _ _ _ hm _ => hm) _ fun _ _ => rfl).goesBy.apart

theorem Proper.showsByNames (h : g.Proper) : g.ShowsByNames where
  items := h.all_items.goesByWithin
  tasks := h.all_tasks.goesByWithin
  properties wellKnown := (h.all_properties wellKnown).goesBy
  item name i hi := by
    rw [h.item?_eq] at hi
    have hstands : i.StandsUnder (.of name) := h.all_items _ i hi
    exact ⟨hstands.1, SymbolTable.All.goesBy hstands.2⟩
  task name t ht := by
    rw [h.task?_eq] at ht
    have hstands : t.StandsUnder (.of name) := h.all_tasks _ t ht
    exact ⟨hstands.1, SymbolTable.All.goesBy hstands.2⟩
  property name p hp := by
    rw [h.property?_eq, Option.or_eq_some_iff] at hp
    rcases hp with hp | ⟨-, hp⟩
    · exact h.all_properties false _ p hp
    · exact Builtins.all_properties g.toolsVersion _ p hp
  itemMetadata := g.nodup_itemMetadata

end Generation

/-- Wherever a table of symbols comes from, it goes by the names of its entries: those that are well
known, those of a document as it is read, those of a file with all that is remembered of its earlier
texts, those of its imports, and those that a generation puts together of them. -/
theorem Resolver.tables_go_by_names (r : Resolver) (file : FilePath) :
    (∀ v, (Builtins.of v).properties.GoesBy PropertyInfo.name ∧
      (Builtins.of v).metadata.GoesBy MetadataInfo.name) ∧
    (∀ b x d, (FileSymbols.ofDocument b x d).GoByNames) ∧
    ∀ g, r.Arises file g → g.symbols.GoByNames ∧
      (∀ i ∈ OrderedTable.values g.imports, i.parsed.symbols.GoByNames) ∧ g.ShowsByNames := by
  refine ⟨fun v => ⟨(Builtins.all_properties v).goesBy, (Builtins.all_metadata v).goesBy⟩,
    fun b x d => (FileSymbols.ofDocument_named b x d).goByNames, fun g h => ?_⟩
  exact ⟨h.proper.symbols.named.goByNames,
    fun _ hi => (h.proper.of_mem_imports hi).named.goByNames, h.proper.showsByNames⟩

/-- An item in three spellings: of an earlier text, of the present one, which is not closed, and of
an import. It is one entry, found under each of them. -/
theorem Resolver.tables_go_by_names_spellings :
    let r : Resolver := ⟨.standard, false⟩
    let file : FilePath := ⟨"/p/a.proj"⟩
    let s := FileStore.empty.write ⟨"/p/x.props"⟩
      "<Project><ItemGroup><Compile Include='x' PACK='1' Copy='2' /></ItemGroup></Project>"
    let d : Xml.Document := .ofText ("<Project><Import Project='x.props' />" ++
      "<ItemGroup><compile Include='a' Link='3' /></ItemGroup></Project>")
    let d' : Xml.Document := .ofText
      "<Project><ItemGroup><COMPILE Include='b' link='4' Pack='5' /></ItemGroup>"
    ∃ p g i, (r.resolve file d none s).1 = .ok p ∧ (r.resolve file d' (some p) s).1 = .ok g ∧
      r.Arises file g ∧ i ∈ OrderedTable.values g.items ∧ i.name = "COMPILE" ∧
      NameKey.of "compile" = .of i.name ∧ g.items.get? "compile" = some i ∧
      (OrderedTable.values i.metadata).map MetadataInfo.name = ["link", "Pack", "Copy"] ∧
      ((OrderedTable.values i.metadata).map fun m => NameKey.of m.name).Nodup := by
  intro r file s d d'
  have hread : ((r.resolve file d none s).1.toOption.bind fun p =>
      (r.resolve file d' (some p) s).1.toOption.map fun g => (OrderedTable.values g.items).map
        fun i => (i.name, (OrderedTable.values i.metadata).map MetadataInfo.name)) =
      some [("COMPILE", ["link", "Pack", "Copy"])] := by
    decide +kernel +revert
  have hkey : NameKey.of "compile" = .of "COMPILE" := by decide +kernel
  obtain ⟨p, hp, -⟩ := r.exists_resolve file d none s
  obtain ⟨g, hg, -⟩ := r.exists_resolve file d' (some p) s
  rw [hp, Except.toOption, Option.bind_some, hg] at hread
  have harises : r.Arises file g := .next (.first hp) hg
  obtain ⟨i, hitems, hi⟩ := List.map_eq_singleton_iff.1 (Option.some.inj hread)
  obtain ⟨hname, hmetadata⟩ := Prod.mk.inj hi
  have hmem : i ∈ OrderedTable.values g.items := hitems ▸ List.mem_singleton_self i
  have hviews := ((tables_go_by_names r file).2.2 g harises).2.2
  rw [← hname] at hkey
  exact ⟨p, g, i, hp, hg, harises, hmem, hname, hkey, hviews.items.names.found i hmem _ hkey,
    hmetadata, (hviews.items.within i hmem).apart⟩

end ProjectAnalysis
