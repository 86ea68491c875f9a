import ProjectAnalysis.Proofs.IncrementalResolution
import ProjectAnalysis.Proofs.SymbolEviction

/-! Where generations come from, and what that says of their tables. A generation is the result of
a resolution, from scratch or from a generation before, and whatever happened meanwhile, its symbols
stand under their names and its imports lead to paths in normal form. -/
namespace ProjectAnalysis

variable {α β : Type}

/-- Every value that a computation can end with has a property, whatever it is answered. -/
def Access.Yields (Q : α → Prop) : Access α → Prop
  | .done a => Q a
  | .ask _ next => ∀ answer, (next answer).Yields Q

namespace Access

variable {Q : α → Prop} {x : Access α}

theorem Yields.mono {R : α → Prop} (h : x.Yields Q) (hQR : ∀ a, Q a → R a) : x.Yields R := by
  induction x with
  | done a => exact hQR a h
  | ask q next ih => exact fun answer => ih answer (h answer)

theorem yields_any (x : Access α) : x.Yields fun _ => True := by
  induction x with
  | done a => trivial
  | ask q next ih => exact ih

theorem Yields.bind {f : α → Access β} {R : β → Prop} (h : x.Yields fun a => (f a).Yields R) :
    (x >>= f).Yields R := by
  induction x with
  | done a => exact h
  | ask q next ih => exact fun answer => ih answer (h answer)

theorem Yields.runIn (h : x.Yields Q) (w : Surroundings) (m : Moment) : Q (x.runIn w m).1 := by
  induction x generalizing m with
  | done a => exact h
  | ask q next ih => exact ih _ (h _) _

end Access

/-- The same for a resolution, if it is not cancelled. -/
def Resolution.Yields (Q : α → Prop) (x : Resolution α) : Prop :=
  x.run.Yields fun result => ∀ a, result = .ok a → Q a

namespace Resolution

variable {Q : α → Prop}

theorem Yields.mono {R : α → Prop} {x : Resolution α} (h : x.Yields Q) (hQR : ∀ a, Q a → R a) :
    x.Yields R :=
  Access.Yields.mono h fun _ hresult a ha => hQR a (hresult a ha)

theorem yields_pure {a : α} (h : Q a) : Yields Q (pure a) := by
  intro b hb
  cases hb
  exact h

theorem yields_lift {x : Access α} (h : x.Yields Q) : Yields Q (liftM x) := by
  rw [Yields, resolution_run_lift]
  refine Access.Yields.bind (h.mono fun a ha => ?_)
  intro b hb
  cases hb
  exact ha

theorem Yields.bind {x : Resolution α} {f : α → Resolution β} {R : β → Prop}
    (h : x.Yields fun a => (f a).Yields R) : Yields R (x >>= f) := by
  rw [Yields, resolution_run_bind]
  refine Access.Yields.bind (Access.Yields.mono h fun result hresult => ?_)
  cases result with
  | ok a => exact hresult a rfl
  | error e => exact fun b hb => nomatch hb

theorem yields_any (x : Resolution α) : x.Yields fun _ => True :=
  (Access.yields_any x.run).mono fun _ _ _ _ => trivial

end Resolution

/-- A fact about every import, as it was read. -/
def ImportTable.All (Q : ParsedImport → Prop) (t : ImportTable) : Prop :=
  ∀ k found, OrderedTable.get? t k = some found → Q found.parsed

/-- A fact about every file that was read ahead. -/
def ReadAhead.All (Q : ParsedImport → Prop) (ahead : ReadAhead) : Prop :=
  ∀ k parsed, OrderedTable.get? ahead k = some (some parsed) → Q parsed

section
variable {Q : ParsedImport → Prop}

theorem ImportTable.all_empty (Q : ParsedImport → Prop) : ImportTable.All Q .empty := by
  intro k found h
  cases h

theorem ImportTable.All.add {t : ImportTable} {found : ResolvedImport} (h : t.All Q)
    (hfound : Q found.parsed) : (t.add found).All Q := by
  intro k i hi
  rw [ImportTable.add, OrderedTable.get?_insert] at hi
  split at hi
  · obtain rfl := Option.some.inj hi
    exact hfound
  · exact h k i hi

theorem ReadAhead.All.erase {ahead : ReadAhead} (h : ahead.All Q) (k : List PathPart) :
    ReadAhead.All Q (OrderedTable.erase ahead k) := by
  intro k' parsed hparsed
  rw [OrderedTable.get?_erase] at hparsed
  split at hparsed
  · cases hparsed
  · exact h k' parsed hparsed

namespace ImportWalk

variable {w : ImportWalk}

section
variable (hparse : ∀ p time text, Q (w.parse p time text))
include hparse

theorem load?_yields (p : FilePath) :
    (w.load? p).Yields fun result => ∀ parsed, result = some parsed → Q parsed := by
  refine Access.Yields.bind fun cancelled => ?_
  cases cancelled with
  | true => exact fun _ h => nomatch h
  | false =>
    refine Access.Yields.bind fun modified => ?_
    cases modified with
    | error fault => exact fun _ h => nomatch h
    | ok time =>
      refine Access.Yields.bind fun read => ?_
      cases read with
      | error fault => exact fun _ h => nomatch h
      | ok text =>
        rintro parsed ⟨⟩
        exact hparse p time text

theorem loadAll_yields (files : List FilePath) :
    (w.loadAll files).Yields fun ahead => ahead.All Q := by
  induction files with
  | nil =>
    intro k parsed h
    cases h
  | cons p ps ih =>
    refine Access.Yields.bind ((load?_yields hparse p).mono fun parsed hparsed => ?_)
    refine Access.Yields.bind (ih.mono fun rest hrest => ?_)
    intro k other hother
    rw [OrderedTable.get?_insert] at hother
    split at hother
    · exact hparsed other (Option.some.inj hother)
    · exact hrest k other hother

theorem readAhead_yields (f : Findings) (files : List FilePath) :
    (w.readAhead f files).Yields fun ahead => ahead.All Q :=
  Access.Yields.bind ((Access.yields_any _).mono fun fresh _ => loadAll_yields hparse fresh)

theorem fetch?_yields (hw : w.reusable.All Q) {ahead : ReadAhead} (hahead : ahead.All Q)
    (p : FilePath) :
    (w.fetch? p ahead).Yields fun result => ∀ found, result = some found → Q found.parsed := by
  have hreuse : (w.reuse? p).Yields fun result => ∀ parsed, result = some parsed → Q parsed := by
    unfold reuse?
    cases hknown : w.reusable.get? p with
    | none => exact fun _ h => nomatch h
    | some known =>
      intro modified
      cases modified with
      | error fault => exact fun _ h => nomatch h
      | ok time =>
        intro parsed hparsed
        split at hparsed
        · obtain rfl := Option.some.inj hparsed
          exact hw p.parts known hknown
        · cases hparsed
  have hload {x : Access (Option ParsedImport)}
      (hx : x.Yields fun result => ∀ parsed, result = some parsed → Q parsed) :
      (x >>= fun parsed => pure (parsed.map fun parsed => ResolvedImport.mk p parsed false)).Yields
        fun result => ∀ found, result = some found → Q found.parsed := by
    refine Access.Yields.bind (hx.mono fun result hresult found hfound => ?_)
    obtain ⟨parsed, rfl, rfl⟩ := Option.map_eq_some_iff.1 hfound
    exact hresult parsed rfl
  refine Access.Yields.bind (hreuse.mono fun reused hreused => ?_)
  cases reused with
  | some parsed =>
    rintro found ⟨⟩
    exact hreused parsed rfl
  | none =>
    dsimp only
    split
    · rename_i parsed hget
      exact hload (x := pure parsed) fun found hfound => hahead p.parts found (hfound ▸ hget)
    · exact hload (load?_yields hparse p)

theorem visit_yields (hw : w.reusable.All Q)
    {enter : List ImportSite → Findings → Resolution Findings}
    (henter : ∀ sites f, f.imports.All Q → (enter sites f).Yields fun f => f.imports.All Q)
    (report : Bool) (sites : List (ImportSite × Option FilePath)) {ahead : ReadAhead}
    {f : Findings} (hahead : ahead.All Q) (hf : f.imports.All Q) :
    (w.visit enter report sites ahead f).Yields fun f => f.imports.All Q := by
  induction sites generalizing ahead f with
  | nil => exact Resolution.yields_pure hf
  | cons located sites ih =>
    obtain ⟨site, file⟩ := located
    have hnoted : (f.noted report site file).imports.All Q := by
      rwa [Findings.imports_noted]
    refine Resolution.Yields.bind ((Resolution.yields_any checkpoint).mono fun _ _ => ?_)
    dsimp only
    split
    · exact ih hahead hnoted
    · rename_i p _
      refine Resolution.Yields.bind ((Resolution.yields_lift
        (fetch?_yields hparse hw hahead p)).mono ?_)
      rintro (_ | found) hfound
      · exact ih (hahead.erase p.parts) hnoted
      · have hbelow := henter found.parsed.symbols.sites
          ((f.noted report site file).withImport found) (hnoted.add (hfound found rfl))
        exact Resolution.Yields.bind (hbelow.mono fun f hf => ih (hahead.erase p.parts) hf)

/-- Whatever every file says when it is parsed, every import of a walk says. -/
theorem resolveSites_yields (hw : w.reusable.All Q) (depth : Nat) (report : Bool)
    (sites : List ImportSite) {f : Findings} (hf : f.imports.All Q) :
    (w.resolveSites depth report sites f).Yields fun f => f.imports.All Q := by
  induction depth generalizing report sites f with
  | zero => exact Resolution.yields_pure hf
  | succ depth ih =>
    refine Resolution.Yields.bind ((Resolution.yields_any _).mono fun located _ => ?_)
    refine Resolution.Yields.bind ((Resolution.yields_lift (readAhead_yields hparse f _)).mono ?_)
    intro ahead hahead
    exact visit_yields hparse hw (fun sites f hf => ih false sites hf) report located hahead hf

end

end ImportWalk

end

/-- Every symbol stands under its name, and every import leads to paths in normal form. -/
structure FileSymbols.Proper (s : FileSymbols) : Prop where
  named : s.Named
  sites : ∀ site ∈ s.sites, site.IsNormal

structure Generation.Proper (g : Generation) : Prop where
  symbols : g.symbols.Proper
  imports : g.imports.All fun i => i.symbols.Proper

/-- A fact about what the document says and about what every import says. -/
def Generation.All (Q : FileSymbols → Prop) (g : Generation) : Prop :=
  Q g.symbols ∧ g.imports.All fun i => Q i.symbols

theorem Generation.proper_iff {g : Generation} : g.Proper ↔ g.All FileSymbols.Proper :=
  ⟨fun h => ⟨h.symbols, h.imports⟩, fun h => ⟨h.1, h.2⟩⟩

theorem FileSymbols.ofDocument_proper (b : Builtins) (x : ImportScope) (d : Xml.Document) :
    (ofDocument b x d).Proper :=
  ⟨ofDocument_named b x d, x.sites_isNormal d.walk⟩

theorem FileSymbols.Proper.merge {s t : FileSymbols} (hs : s.Proper) (ht : t.Proper) :
    (s.merge t).Proper :=
  ⟨merge_named hs.named ht.named, merge_isNormal hs.sites ht.sites⟩

namespace Resolver

variable {r : Resolver} {file : FilePath} {d : Xml.Document} {previous : Option Generation}

theorem reusable_all {Q : ParsedImport → Prop} (h : ∀ p, previous = some p → p.imports.All Q) :
    (r.walk file d previous).reusable.All Q := by
  unfold walk
  cases previous with
  | none => exact ImportTable.all_empty Q
  | some p =>
    dsimp only
    split
    · exact h p rfl
    · exact ImportTable.all_empty Q

/-- The generations of a file: a document is resolved from scratch or goes on from one of them, and
anything may happen around the run. -/
inductive Arises (r : Resolver) (file : FilePath) : Generation → Prop
  | first {depth : Nat} {d : Xml.Document} {w : Surroundings} {m : Moment} {g : Generation}
      (h : ((r.resolution depth file d none).run.runIn w m).1 = .ok g) : Arises r file g
  | next {depth : Nat} {d : Xml.Document} {p : Generation} {w : Surroundings} {m : Moment}
      {g : Generation} (before : Arises r file p)
      (h : ((r.resolution depth file d (some p)).run.runIn w m).1 = .ok g) : Arises r file g

-- What every document says by itself and merging keeps, all files of all generations say.
section
variable {Q : FileSymbols → Prop} (hdocument : ∀ b x d, Q (.ofDocument b x d))
  (hmerge : ∀ s t : FileSymbols, Q s → Q t → Q (s.merge t))
include hdocument hmerge

theorem symbols_all (h : ∀ p, previous = some p → Q p.symbols) : Q (r.symbols file d previous) := by
  have hown : Q (r.ownSymbols file d) := hdocument _ _ d
  unfold symbols
  cases previous with
  | none => exact hown
  | some p =>
    dsimp only
    split
    · exact hmerge _ _ hown (h p rfl)
    · exact hown

theorem resolution_yields (depth : Nat) (h : ∀ p, previous = some p → p.All Q) :
    (r.resolution depth file d previous).Yields (Generation.All Q) := by
  have hparse (p : FilePath) (time : Nat) (text : String) :
      Q ((r.walk file d previous).parse p time text).symbols := hdocument _ _ _
  have hwalk := ImportWalk.resolveSites_yields (Q := fun i => Q i.symbols) hparse
    (reusable_all fun p hp => (h p hp).2) depth true (r.symbols file d previous).sites
    (f := .empty) (ImportTable.all_empty _)
  refine Resolution.Yields.bind ((Resolution.yields_any checkpoint).mono fun _ _ => ?_)
  refine Resolution.Yields.bind ((Resolution.yields_any checkpoint).mono fun _ _ => ?_)
  refine Resolution.Yields.bind (hwalk.mono fun found hfound => ?_)
  refine Resolution.Yields.bind ((Resolution.yields_any checkpoint).mono fun _ _ => ?_)
  exact Resolution.yields_pure ⟨symbols_all hdocument hmerge fun p hp => (h p hp).1, hfound⟩

theorem Arises.all {g : Generation} (h : r.Arises file g) : g.All Q := by
  induction h with
  | @first depth d w m g h =>
    have hyields : (r.resolution depth file d none).Yields (Generation.All Q) :=
      resolution_yields hdocument hmerge depth fun _ hp => nomatch hp
    exact hyields.runIn w m g h
  | @next depth d p w m g before h ih =>
    have hyields : (r.resolution depth file d (some p)).Yields (Generation.All Q) :=
      resolution_yields hdocument hmerge depth fun q hq => Option.some.inj hq ▸ ih
    exact hyields.runIn w m g h

end

theorem symbols_proper (h : ∀ p, previous = some p → p.Proper) :
    (r.symbols file d previous).Proper :=
  symbols_all FileSymbols.ofDocument_proper (fun _ _ => .merge) fun p hp => (h p hp).symbols

theorem Arises.proper {g : Generation} (h : r.Arises file g) : g.Proper :=
  Generation.proper_iff.2 (h.all FileSymbols.ofDocument_proper fun _ _ => .merge)

end Resolver

end ProjectAnalysis
