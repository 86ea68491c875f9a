import Mathlib.Logic.Relation
import ProjectAnalysis.DocumentHost
import ProjectAnalysis.Proofs.ImportWalkPlain

/-! What can happen around a document host. Updates, the ends of runs in the background, both
halves of resolutions on demand and the closing of the host come in any order. Beside the host
stands what it does not know itself: the calls on their way, and all that was published. -/
namespace ProjectAnalysis

namespace HostState

variable (h : HostState)

/-- The generation that the end of a run publishes. -/
def publishedBy (ticket : Nat) : Except Cancelled Generation → Option Generation
  | .ok g =>
    if h.inFlight = some ticket then
      if h.cancelled.contains ticket || h.closed then none else some g
    else none
  | .error _ => none

/-- The host without a run, if it is the current one. -/
def release (ticket : Nat) : HostState :=
  if h.inFlight = some ticket then { h with inFlight := none } else h

/-- All that the end of a run does. -/
theorem finish_eq (ticket : Nat) (result : Except Cancelled Generation) :
    h.finish ticket result = match h.publishedBy ticket result with
      | some g => (h.release ticket).publish g
      | none => h.release ticket := by
  unfold finish release
  -- The ticket decides first; what the run ended with counts for the current one only.
  by_cases hticket : h.inFlight = some ticket
  · cases result with
    | error e => simp only [publishedBy, if_pos hticket]
    | ok g =>
      simp only [publishedBy, if_pos hticket]
      by_cases hdropped : (h.cancelled.contains ticket || h.closed) = true
      · simp only [if_pos hdropped]
      · simp only [if_neg hdropped]
  · cases result <;> simp only [publishedBy, if_neg hticket]

theorem publishedBy_eq_some {ticket : Nat} {result : Except Cancelled Generation} {g : Generation}
    (hg : h.publishedBy ticket result = some g) :
    result = .ok g ∧ h.inFlight = some ticket ∧ h.closed = false := by
  cases result with
  | error e => cases hg
  | ok g' =>
    rw [publishedBy] at hg
    split at hg
    · split at hg
      · cases hg
      · rename_i hticket hkept
        rw [Bool.not_eq_true, Bool.or_eq_false_iff] at hkept
        exact ⟨congrArg Except.ok (Option.some.inj hg), hticket, hkept.2⟩
    · cases hg

theorem finish_of_not_inFlight {ticket : Nat} (hne : h.inFlight ≠ some ticket)
    (result : Except Cancelled Generation) : h.finish ticket result = h :=
  if_neg hne

/-- All that an update does: it starts a run with a new ticket, or nothing happens. -/
theorem update_cases (debounce now : Nat) :
    (h.closed = false ∧ h.update debounce now = (.started ⟨h.nextTicket, h.published⟩,
        { h with
          inFlight := some h.nextTicket
          nextTicket := h.nextTicket + 1
          lastStarted := some now })) ∨
      (∀ run, (h.update debounce now).1 ≠ .started run) ∧ (h.update debounce now).2 = h := by
  unfold update
  split
  · exact Or.inr ⟨fun _ h => (nomatch h), rfl⟩
  split
  · exact Or.inr ⟨fun _ h => (nomatch h), rfl⟩
  split
  · exact Or.inr ⟨fun _ h => (nomatch h), rfl⟩
  · rename_i hopen _ _
    exact Or.inl ⟨Bool.not_eq_true _ ▸ hopen, rfl⟩

end HostState

/-- A text that is being resolved. -/
structure HostCall where
  /-- The ticket of a run in the background; none for a resolution on demand. -/
  ticket : Option Nat
  text : String
  /-- The generation to go on from. -/
  previous : Option Generation

/-- What a resolution of the text may end with, when it goes as deep as it takes: others may change
the files meanwhile, and a run in the background may be cancelled. -/
def HostCall.Gives (c : HostCall) (r : Resolver) (file : FilePath)
    (result : Except Cancelled Generation) : Prop :=
  ∃ (w : Surroundings) (s : FileStore) (least : Nat), (c.ticket = none → w = w.patient) ∧
    ∀ depth, least ≤ depth →
      ((r.resolution depth file (.ofText c.text) c.previous).run.runIn w ⟨0, s⟩).1 = result

/-- A call from scratch may end with a generation. -/
theorem HostCall.gives_generation (r : Resolver) (file : FilePath) (ticket : Option Nat)
    (text : String) : ∃ g, HostCall.Gives ⟨ticket, text, none⟩ r file (.ok g) := by
  have hnormal : (r.walk file (.ofText text) none).IsNormal := fun _ _ h => nomatch h
  obtain ⟨found, -, hvalue⟩ := Resolver.resolution_walks (s := .empty) hnormal
    (r.ownSymbols_isNormal file (.ofText text))
  refine ⟨r.generation file (.ofText text) none found, .quiet, .empty, 1, fun _ => rfl,
    fun depth hdepth => ?_⟩
  rw [Access.runIn_quiet_fst]
  exact hvalue depth hdepth

/-- A host and the calls around it. -/
structure HostWorld where
  host : DocumentHost
  /-- The calls that have not ended yet. -/
  pending : List HostCall
  /-- Every call so far, with the generation that was published when it started. -/
  started : List (HostCall × Option Generation)
  /-- What was published so far and by which call, the latest first. -/
  publications : List (HostCall × Generation)

namespace HostWorld

def new (file : FilePath) (r : Resolver) (debounce : Nat) : HostWorld :=
  ⟨.new file r debounce, [], [], []⟩

/-- A call starts. -/
def call (x : HostWorld) (c : HostCall) : HostWorld :=
  { x with
    pending := c :: x.pending
    started := (c, x.host.state.published) :: x.started }

/-- A new text for the background. -/
def update (x : HostWorld) (text : String) (now : Nat) : HostWorld :=
  match x.host.update now with
  | (.started run, host) => { x.call ⟨some run.ticket, text, run.previous⟩ with host := host }
  | (_, host) => { x with host := host }

/-- The first half of a resolution on demand. -/
def begin (x : HostWorld) (text : String) : HostWorld :=
  match x.host.state.begin with
  | .ok previous => x.call ⟨none, text, previous⟩
  | .error _ => x

/-- A call has ended and may have published a generation; the others are still on their way. -/
def ended (x : HostWorld) (c : HostCall) (others : List HostCall) (host : DocumentHost)
    (published : Option Generation) : HostWorld :=
  { x with
    host := host
    pending := others
    publications := (published.map fun g => (c, g)).toList ++ x.publications }

/-- What happens next, at any point. -/
inductive Step (x : HostWorld) : HostWorld → Prop
  | update (text : String) (now : Nat) : Step x (x.update text now)
  | finish {c : HostCall} {before after : List HostCall} {ticket : Nat}
      {result : Except Cancelled Generation} (hc : x.pending = before ++ c :: after)
      (hticket : c.ticket = some ticket)
      (hresult : c.Gives x.host.resolver x.host.file result) :
      Step x (x.ended c (before ++ after) (x.host.finish ⟨ticket, c.previous⟩ result)
        (x.host.state.publishedBy ticket result))
  | begin (text : String) : Step x (x.begin text)
  | complete {c : HostCall} {before after : List HostCall} {g : Generation}
      (hc : x.pending = before ++ c :: after) (hticket : c.ticket = none)
      (hresult : c.Gives x.host.resolver x.host.file (.ok g)) :
      Step x (x.ended c (before ++ after) { x.host with state := (x.host.state.complete g).2 }
        (x.host.state.complete g).1.toOption)
  | fail {c : HostCall} {before after : List HostCall} {e : Cancelled}
      (hc : x.pending = before ++ c :: after) (hticket : c.ticket = none)
      (hresult : c.Gives x.host.resolver x.host.file (.error e)) :
      Step x (x.ended c (before ++ after) x.host none)
  | close : Step x { x with host := x.host.close }

def tickets {α : Type} (calls : List (HostCall × α)) : List Nat :=
  calls.filterMap (·.1.ticket)

theorem tickets_cons {α : Type} (c : HostCall) (a : α) (calls : List (HostCall × α)) :
    tickets ((c, a) :: calls) = c.ticket.toList ++ tickets calls := by
  unfold tickets
  cases hc : c.ticket with
  | none => exact List.filterMap_cons_none hc
  | some t => exact List.filterMap_cons_some hc

abbrev Steps : HostWorld → HostWorld → Prop :=
  Relation.ReflTransGen Step

/-- An update that starts nothing leaves all as it is. -/
theorem update_of_not_started {x : HostWorld} {text : String} {now : Nat}
    (h : ∀ run, (x.host.update now).1 ≠ .started run) : x.update text now = x := by
  have hstate : (x.host.update now).2 = x.host := by
    rcases x.host.state.update_cases x.host.debounce now with ⟨-, hupdate⟩ | ⟨-, hsame⟩
    · exact absurd (congrArg Prod.fst hupdate) (h _)
    · exact congrArg (fun state => { x.host with state := state }) hsame
  unfold update
  split
  · rename_i run host hrun
    exact absurd (congrArg Prod.fst hrun) (h run)
  · rename_i outcome host _ hhost
    rw [hhost] at hstate
    exact congrArg (fun host => { x with host := host }) hstate

end HostWorld

end ProjectAnalysis
