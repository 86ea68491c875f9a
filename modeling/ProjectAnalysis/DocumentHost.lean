import ProjectAnalysis.Resolver

/-! An open document that is resolved again and again. The latest generation stays readable while
the next one is on its way. At most one resolution runs in the background; a text that comes
meanwhile, or too soon after the last one, is dropped. -/
namespace ProjectAnalysis

/-- A resolution in the background. -/
structure BackgroundRun where
  ticket : Nat
  /-- The generation that was published at the start. -/
  previous : Option Generation

/-- What became of a new text. -/
inductive UpdateOutcome
  | started (run : BackgroundRun)
  /-- Dropped: a resolution is running. -/
  | coalesced
  /-- Dropped: a resolution was started a short time ago. -/
  | debounced
  | closed

structure HostState where
  published : Option Generation
  /-- The ticket of the resolution that runs in the background. -/
  inFlight : Option Nat
  nextTicket : Nat
  /-- The time of the last start in the background. -/
  lastStarted : Option Nat
  /-- The number of generations published so far. -/
  generation : Nat
  closed : Bool
  /-- The tickets of the runs that were cancelled, the latest first. -/
  cancelled : List Nat

namespace HostState

def start : HostState :=
  ⟨none, none, 0, none, 0, false, []⟩

def publish (h : HostState) (g : Generation) : HostState :=
  { h with published := some g, generation := h.generation + 1 }

/-- Whether the last start is less than the interval `debounce` ago. -/
def startedWithin (h : HostState) (debounce now : Nat) : Bool :=
  h.lastStarted.any fun last => now - last < debounce

/-- Starts a resolution in the background, unless the text is dropped. -/
def update (h : HostState) (debounce now : Nat) : UpdateOutcome × HostState :=
  if h.closed then (.closed, h)
  else if h.inFlight.isSome then (.coalesced, h)
  else if h.startedWithin debounce now then (.debounced, h)
  else
    let run : BackgroundRun := ⟨h.nextTicket, h.published⟩
    (.started run, { h with
      inFlight := some run.ticket
      nextTicket := h.nextTicket + 1
      lastStarted := some now })

/-- Takes the result of a run in the background; that of any other than the current one is
dropped, and so is that of a run that was cancelled. -/
def finish (h : HostState) (ticket : Nat) (result : Except Cancelled Generation) : HostState :=
  if h.inFlight = some ticket then
    let h := { h with inFlight := none }
    match result with
    | .ok g => if h.cancelled.contains ticket || h.closed then h else h.publish g
    | .error _ => h
  else h

/-- The first half of a resolution on demand: the generation to go on from. -/
def begin (h : HostState) : Except Cancelled (Option Generation) :=
  if h.closed then .error .cancelled else .ok h.published

/-- The second half of a resolution on demand: its result is published. -/
def complete (h : HostState) (g : Generation) : Except Cancelled Generation × HostState :=
  if h.closed then (.error .cancelled, h) else (.ok g, h.publish g)

/-- Ends it all: what is published is dropped, and what runs is cancelled. -/
def close (h : HostState) : HostState :=
  { h with
    closed := true
    published := none
    inFlight := none
    cancelled := h.inFlight.toList ++ h.cancelled }

end HostState

structure DocumentHost where
  file : FilePath
  resolver : Resolver
  /-- The least time between two starts in the background. -/
  debounce : Nat
  state : HostState

namespace DocumentHost

def new (file : FilePath) (resolver : Resolver) (debounce : Nat) : DocumentHost :=
  ⟨file, resolver, debounce, .start⟩

def update (h : DocumentHost) (now : Nat) : UpdateOutcome × DocumentHost :=
  let r := h.state.update h.debounce now
  (r.1, { h with state := r.2 })

/-- The work of a run in the background, beside the given files. -/
def work (h : DocumentHost) (text : String) (run : BackgroundRun) (s : FileStore) :
    Access (Except Cancelled Generation) :=
  h.resolver.start h.file (.ofText text) run.previous s

def finish (h : DocumentHost) (run : BackgroundRun) (result : Except Cancelled Generation) :
    DocumentHost :=
  { h with state := h.state.finish run.ticket result }

/-- Resolves a text at once and publishes the result. -/
def resolveNow (h : DocumentHost) (text : String) (s : FileStore) :
    Except Cancelled Generation × DocumentHost × FileStore :=
  match h.state.begin with
  | .error e => (.error e, h, s)
  | .ok previous =>
    match h.resolver.resolve h.file (.ofText text) previous s with
    | (.error e, s) => (.error e, h, s)
    | (.ok g, s) =>
      let r := h.state.complete g
      (r.1, { h with state := r.2 }, s)

def close (h : DocumentHost) : DocumentHost :=
  { h with state := h.state.close }

end DocumentHost

end ProjectAnalysis
