import Mathlib.Data.Nat.Find
import ProjectAnalysis.Proofs.ResolutionRun
import ProjectAnalysis.Proofs.SymbolMemory

/-! What is forgotten and when. While the texts of a file have errors of their own, each generation
remembers the symbols of the one before; the first text without errors starts anew. So a generation
knows what was said since the last text without errors, and nothing else. -/
namespace ProjectAnalysis.Resolver

variable (r : Resolver) (file : FilePath)

/-- Whatever a resolution ends with, its own symbols depend on the document and on the generation
before alone. -/
theorem symbols_of_resolution {depth : Nat} {d : Xml.Document} {previous : Option Generation}
    {w : Surroundings} {m : Moment} {g : Generation}
    (h : ((r.resolution depth file d previous).run.runIn w m).1 = .ok g) :
    g.symbols = r.symbols file d previous := by
  have hbind {α β : Type} (x : Resolution α) (f : α → Resolution β) (m : Moment) (b : β)
      (h : ((x >>= f).run.runIn w m).1 = .ok b) : ∃ a m', ((f a).run.runIn w m').1 = .ok b := by
    rw [resolution_run_bind, Access.runIn_bind] at h
    cases hx : (x.run.runIn w m).1 with
    | ok a =>
      rw [hx] at h
      exact ⟨a, _, h⟩
    | error e =>
      rw [hx] at h
      cases h
  obtain ⟨_, m₁, h⟩ := hbind _ _ m g h
  obtain ⟨_, m₂, h⟩ := hbind _ _ m₁ g h
  obtain ⟨found, m₃, h⟩ := hbind _ _ m₂ g h
  obtain ⟨_, m₄, h⟩ := hbind _ _ m₃ g h
  cases h
  rfl

/-- A document is resolved, whatever generation was before. -/
theorem exists_resolve (d : Xml.Document) (previous : Option Generation) (s : FileStore) :
    ∃ g, (r.resolve file d previous s).1 = .ok g ∧ g.symbols = r.symbols file d previous := by
  obtain ⟨g, hg⟩ :=
    r.resolution_completes (s.files.entries.length + 1) file d previous .quiet ⟨0, s⟩
  exact ⟨g, hg, r.symbols_of_resolution file hg⟩

theorem ownSymbols_named (d : Xml.Document) : (r.ownSymbols file d).Named :=
  FileSymbols.ofDocument_named _ _ d

/-- The generations of a file whose texts are resolved one after the other, beside any files, each
going on from the one before. -/
def generations (texts : Nat → String) (stores : Nat → FileStore) : Nat → Option Generation
  | 0 => (r.resolve file (.ofText (texts 0)) none (stores 0)).1.toOption
  | n + 1 => (r.resolve file (.ofText (texts (n + 1))) (generations texts stores n)
      (stores (n + 1))).1.toOption

theorem exists_generations_zero (texts : Nat → String) (stores : Nat → FileStore) :
    ∃ g, r.generations file texts stores 0 = some g ∧
      g.symbols = r.ownSymbols file (.ofText (texts 0)) := by
  obtain ⟨g, hg, hsymbols⟩ := r.exists_resolve file (.ofText (texts 0)) none (stores 0)
  refine ⟨g, ?_, hsymbols⟩
  rw [generations, hg]
  rfl

theorem exists_generations_succ {texts : Nat → String} {stores : Nat → FileStore} {n : Nat}
    {p : Generation} (hp : r.generations file texts stores n = some p) :
    ∃ g, r.generations file texts stores (n + 1) = some g ∧
      g.symbols = r.symbols file (.ofText (texts (n + 1))) (some p) := by
  obtain ⟨g, hg, hsymbols⟩ :=
    r.exists_resolve file (.ofText (texts (n + 1))) (some p) (stores (n + 1))
  refine ⟨g, ?_, hsymbols⟩
  rw [generations, hp, hg]
  rfl

/-- A generation gathers what the texts say from the last one without errors of its own on (from
the first one if all have errors): no symbol of an earlier text is left, and none since is lost. -/
theorem generations_gather (texts : Nat → String) (stores : Nat → FileStore) (n : Nat) :
    let own (i : Nat) : FileSymbols := r.ownSymbols file (.ofText (texts i))
    let first := Nat.findGreatest (fun i => (own i).hasErrors = false) n
    ∃ g, r.generations file texts stores n = some g ∧ g.symbols.Gathers own first n := by
  intro own first
  have hown (i : Nat) : (own i).Named := r.ownSymbols_named file _
  suffices h : ∃ g, r.generations file texts stores n = some g ∧ g.symbols.Named ∧
      g.symbols.Gathers own first n by
    obtain ⟨g, hg, -, hgathers⟩ := h
    exact ⟨g, hg, hgathers⟩
  -- Induction on the number of the text: it starts anew or adds to the generation before.
  induction n with
  | zero =>
    obtain ⟨g, hg, hsymbols⟩ := r.exists_generations_zero file texts stores
    refine ⟨g, hg, ?_, ?_⟩ <;> rw [hsymbols]
    · exact hown 0
    · exact FileSymbols.gathers_one own 0
  | succ n ih =>
    obtain ⟨p, hp, hnamed, hgathers⟩ := ih
    obtain ⟨g, hg, hsymbols⟩ := r.exists_generations_succ file hp
    have hsymbols : g.symbols = if (own (n + 1)).hasErrors then (own (n + 1)).merge p.symbols
        else own (n + 1) := hsymbols
    refine ⟨g, hg, ?_⟩
    have hfirst : first = if (own (n + 1)).hasErrors = false then n + 1
        else Nat.findGreatest (fun i => (own i).hasErrors = false) n := Nat.findGreatest_succ n
    cases herrors : (own (n + 1)).hasErrors with
    | false =>
      rw [herrors, if_pos rfl] at hfirst
      rw [hfirst, hsymbols, herrors]
      exact ⟨hown (n + 1), FileSymbols.gathers_one own (n + 1)⟩
    | true =>
      rw [herrors, if_neg Bool.noConfusion] at hfirst
      rw [hfirst, hsymbols, herrors]
      exact ⟨FileSymbols.merge_named (hown (n + 1)) hnamed,
        hgathers.succ (Nat.findGreatest_le n) hnamed⟩

end ProjectAnalysis.Resolver
