import ProjectAnalysis.Proofs.HostWorld

/-! Document hosts under every interleaving. One invariant ties the calls on their way, the run in
flight and what was published together, and each thing that can happen keeps it. -/
namespace ProjectAnalysis.HostWorld

/-- The invariant of a host. -/
structure Safe (r : Resolver) (file : FilePath) (x : HostWorld) : Prop where
  resolver_eq : x.host.resolver = r
  file_eq : x.host.file = file
  closed : x.host.state.closed = true →
    x.host.state.published = none ∧ x.host.state.inFlight = none
  inFlight_lt : ∀ t, x.host.state.inFlight = some t → t < x.host.state.nextTicket
  generation : x.host.state.generation = x.publications.length
  published : x.host.state.closed = false →
    x.host.state.published = x.publications.head?.map Prod.snd
  running : ∀ t, x.host.state.inFlight = some t → ∃ c ∈ x.pending, c.ticket = some t
  /-- A ticket that has published is neither in flight nor given out again. -/
  spent : ∀ t ∈ tickets x.publications,
    t < x.host.state.nextTicket ∧ x.host.state.inFlight ≠ some t
  publishedOnce : (tickets x.publications).Nodup
  given : ∀ t ∈ tickets x.started, t < x.host.state.nextTicket
  givenOnce : (tickets x.started).Nodup
  pending : ∀ c ∈ x.pending, (c, c.previous) ∈ x.started
  answered : ∀ e ∈ x.publications, (e.1, e.1.previous) ∈ x.started ∧ e.1.Gives r file (.ok e.2)

section
variable {r : Resolver} {file : FilePath} {x y : HostWorld}

theorem safe_new (file : FilePath) (r : Resolver) (debounce : Nat) :
    (new file r debounce).Safe r file where
  resolver_eq := rfl
  file_eq := rfl
  closed := fun h => nomatch h
  inFlight_lt := fun _ h => nomatch h
  generation := rfl
  published := fun _ => rfl
  running := fun _ h => nomatch h
  spent := List.forall_mem_nil _
  publishedOnce := List.nodup_nil
  given := List.forall_mem_nil _
  givenOnce := List.nodup_nil
  pending := List.forall_mem_nil _
  answered := List.forall_mem_nil _

theorem Safe.pending_call (h : x.Safe r file) {c : HostCall}
    (hc : c.previous = x.host.state.published) :
    ∀ c' ∈ (x.call c).pending, (c', c'.previous) ∈ (x.call c).started := by
  intro c' hc'
  rcases List.mem_cons.1 hc' with rfl | hc'
  · exact hc ▸ List.mem_cons_self
  · exact List.mem_cons_of_mem _ (h.pending c' hc')

theorem Safe.answered_call (h : x.Safe r file) (c : HostCall) : ∀ e ∈ (x.call c).publications,
    (e.1, e.1.previous) ∈ (x.call c).started ∧ e.1.Gives r file (.ok e.2) :=
  fun e he => (h.answered e he).imp_left (List.mem_cons_of_mem _)

theorem Safe.call (h : x.Safe r file) (text : String) :
    (x.call ⟨none, text, x.host.state.published⟩).Safe r file :=
  { h with
    running := fun t ht => by
      obtain ⟨c, hc, hticket⟩ := h.running t ht
      exact ⟨c, List.mem_cons_of_mem _ hc, hticket⟩
    pending := h.pending_call rfl
    answered := h.answered_call _ }

theorem Safe.begin (h : x.Safe r file) (text : String) : (x.begin text).Safe r file := by
  unfold HostWorld.begin HostState.begin
  split
  · rename_i previous hprevious
    split at hprevious
    · cases hprevious
    · obtain rfl := Except.ok.inj hprevious
      exact h.call text
  · exact h

theorem Safe.update (h : x.Safe r file) (text : String) (now : Nat) :
    (x.update text now).Safe r file := by
  rcases x.host.state.update_cases x.host.debounce now with ⟨hopen, hupdate⟩ | ⟨hnone, -⟩
  · have hstarted : x.update text now =
        { x.call ⟨some x.host.state.nextTicket, text, x.host.state.published⟩ with
          host := { x.host with state := { x.host.state with
            inFlight := some x.host.state.nextTicket
            nextTicket := x.host.state.nextTicket + 1
            lastStarted := some now } } } := by
      unfold HostWorld.update DocumentHost.update
      rw [hupdate]
    rw [hstarted]
    -- The new ticket is beyond all that were given out, spent ones included.
    have hnew : x.host.state.nextTicket ∉ tickets x.started := fun hmem =>
      Nat.lt_irrefl _ (h.given _ hmem)
    exact { h with
      closed := fun hclosed => absurd (hopen.symm.trans hclosed) Bool.false_ne_true
      inFlight_lt := fun t ht => Option.some.inj ht ▸ Nat.lt_succ_self _
      running := fun t ht => ⟨_, List.mem_cons_self, ht⟩
      spent := fun t ht => by
        have hlt := (h.spent t ht).1
        exact ⟨Nat.lt_succ_of_lt hlt, fun heq => Nat.ne_of_gt hlt (Option.some.inj heq)⟩
      given := List.forall_mem_cons.2
        ⟨Nat.lt_succ_self _, fun t ht => Nat.lt_succ_of_lt (h.given t ht)⟩
      givenOnce := List.nodup_cons.2 ⟨hnew, h.givenOnce⟩
      pending := h.pending_call rfl
      answered := h.answered_call _ }
  · rw [update_of_not_started hnone]
    exact h

section
variable {c : HostCall} {before after : List HostCall}

theorem mem_others {c' : HostCall} (hc : x.pending = before ++ c :: after) (h : c' ∈ x.pending)
    (hne : c' ≠ c) : c' ∈ before ++ after := by
  rw [hc, List.mem_append, List.mem_cons] at h
  rcases h with h | h | h
  · exact List.mem_append_left _ h
  · exact absurd h hne
  · exact List.mem_append_right _ h

theorem Safe.pending_others (h : x.Safe r file) (hc : x.pending = before ++ c :: after) :
    ∀ c' ∈ before ++ after, (c', c'.previous) ∈ x.started := by
  intro c' hc'
  apply h.pending c'
  rw [hc, List.mem_append, List.mem_cons]
  exact (List.mem_append.1 hc').imp_right Or.inr

/-- A call that ends publishes nothing, and the host goes on without it. -/
theorem Safe.ended_none (h : x.Safe r file) (hc : x.pending = before ++ c :: after)
    (hticket : ∀ t, x.host.state.inFlight = some t → c.ticket ≠ some t) :
    (x.ended c (before ++ after) x.host none).Safe r file :=
  { h with
    running := fun t ht => by
      -- The run in flight is another call, which is still on its way.
      obtain ⟨c', hc', hticket'⟩ := h.running t ht
      have hne : c' ≠ c := fun heq => hticket t ht (heq ▸ hticket')
      exact ⟨c', mem_others hc hc' hne, hticket'⟩
    pending := h.pending_others hc }

theorem Safe.release (h : x.Safe r file) (ticket : Nat) :
    Safe r file { x with host := { x.host with state := x.host.state.release ticket } } := by
  unfold HostState.release
  split
  · exact { h with
      closed := fun hclosed => ⟨(h.closed hclosed).1, rfl⟩
      inFlight_lt := fun _ ht => nomatch ht
      running := fun _ ht => nomatch ht
      spent := fun t ht => ⟨(h.spent t ht).1, fun heq => nomatch heq⟩ }
  · exact h

/-- An open host publishes what a call was given, under a ticket that was not used before. -/
theorem Safe.publish (h : x.Safe r file) {g : Generation} (hopen : x.host.state.closed = false)
    (hstarted : (c, c.previous) ∈ x.started) (hresult : c.Gives r file (.ok g))
    (hticket : ∀ t, c.ticket = some t → t < x.host.state.nextTicket ∧
      x.host.state.inFlight ≠ some t ∧ t ∉ tickets x.publications) :
    Safe r file { x with
      host := { x.host with state := x.host.state.publish g }
      publications := (c, g) :: x.publications } :=
  { h with
    closed := fun hclosed => absurd (hopen.symm.trans hclosed) Bool.false_ne_true
    generation := congrArg Nat.succ h.generation
    published := fun _ => rfl
    spent := fun t ht => by
      rw [tickets_cons, List.mem_append, Option.mem_toList] at ht
      rcases ht with ht | ht
      · exact ⟨(hticket t ht).1, (hticket t ht).2.1⟩
      · exact h.spent t ht
    publishedOnce := by
      rw [tickets_cons]
      cases hc : c.ticket with
      | none => exact h.publishedOnce
      | some t => exact List.nodup_cons.2 ⟨(hticket t hc).2.2, h.publishedOnce⟩
    answered := List.forall_mem_cons.2 ⟨⟨hstarted, hresult⟩, h.answered⟩ }

theorem Safe.finish (h : x.Safe r file) {ticket : Nat} {result : Except Cancelled Generation}
    (hc : x.pending = before ++ c :: after) (hticket : c.ticket = some ticket)
    (hresult : c.Gives r file result) :
    (x.ended c (before ++ after) (x.host.finish ⟨ticket, c.previous⟩ result)
      (x.host.state.publishedBy ticket result)).Safe r file := by
  have hreleased : (x.host.state.release ticket).inFlight ≠ some ticket := by
    unfold HostState.release
    split
    · exact fun heq => nomatch heq
    · assumption
  -- The host lets go of the run, then the call is over, and only then something is published.
  have hdone := (h.release ticket).ended_none hc fun t ht heq => by
    obtain rfl := Option.some.inj (hticket.symm.trans heq)
    exact hreleased ht
  unfold DocumentHost.finish
  rw [HostState.finish_eq]
  cases hg : x.host.state.publishedBy ticket result with
  | none => exact hdone
  | some g =>
    obtain ⟨rfl, hflight, hopen⟩ := x.host.state.publishedBy_eq_some hg
    have hmem : c ∈ x.pending := hc ▸ List.mem_append_right _ List.mem_cons_self
    have hstate : x.host.state.release ticket = { x.host.state with inFlight := none } :=
      if_pos hflight
    have hnew : ticket ∉ tickets x.publications := fun hspent => (h.spent ticket hspent).2 hflight
    apply hdone.publish (by rwa [hstate]) (h.pending c hmem) hresult
    intro t ht
    obtain rfl := Option.some.inj (hticket.symm.trans ht)
    exact ⟨hstate ▸ h.inFlight_lt ticket hflight, hreleased, hnew⟩

theorem Safe.complete (h : x.Safe r file) {g : Generation} (hc : x.pending = before ++ c :: after)
    (hticket : c.ticket = none) (hresult : c.Gives r file (.ok g)) :
    (x.ended c (before ++ after) { x.host with state := (x.host.state.complete g).2 }
      (x.host.state.complete g).1.toOption).Safe r file := by
  have hdone := h.ended_none hc fun t _ heq => nomatch hticket.symm.trans heq
  unfold HostState.complete
  split
  · exact hdone
  · rename_i hopen
    have hmem : c ∈ x.pending := hc ▸ List.mem_append_right _ List.mem_cons_self
    exact hdone.publish (Bool.not_eq_true _ ▸ hopen) (h.pending c hmem) hresult
      fun t heq => nomatch hticket.symm.trans heq

end

theorem Safe.close (h : x.Safe r file) : Safe r file { x with host := x.host.close } :=
  { h with
    closed := fun _ => ⟨rfl, rfl⟩
    inFlight_lt := fun _ ht => nomatch ht
    published := fun hopen => nomatch hopen
    running := fun _ ht => nomatch ht
    spent := fun t ht => ⟨(h.spent t ht).1, fun heq => nomatch heq⟩ }

theorem step_safe (h : x.Safe r file) (hstep : Step x y) : y.Safe r file := by
  have hgives {c : HostCall} {result : Except Cancelled Generation}
      (hresult : c.Gives x.host.resolver x.host.file result) : c.Gives r file result := by
    rwa [h.resolver_eq, h.file_eq] at hresult
  cases hstep with
  | update text now => exact h.update text now
  | finish hc hticket hresult => exact h.finish hc hticket (hgives hresult)
  | begin text => exact h.begin text
  | complete hc hticket hresult => exact h.complete hc hticket (hgives hresult)
  | fail hc hticket _ => exact h.ended_none hc fun t _ heq => nomatch hticket.symm.trans heq
  | close => exact h.close

theorem steps_safe (h : x.Safe r file) (hsteps : x.Steps y) : y.Safe r file := by
  induction hsteps with
  | refl => exact h
  | tail _ hstep ih => exact step_safe ih hstep

theorem step_publications (hstep : Step x y) : x.publications <:+ y.publications := by
  cases hstep with
  | update text now =>
    unfold HostWorld.update
    split <;> exact List.suffix_rfl
  | begin text =>
    unfold HostWorld.begin
    split <;> exact List.suffix_rfl
  | finish | complete | fail => exact List.suffix_append _ _
  | close => exact List.suffix_rfl

/-- A closed host stays closed, and no step publishes any more. -/
theorem step_closed (hclosed : x.host.state.closed = true) (hstep : Step x y) :
    y.host.state.closed = true ∧ y.publications = x.publications := by
  cases hstep with
  | update text now =>
    have hdropped (run : BackgroundRun) : (x.host.update now).1 ≠ .started run := by
      unfold DocumentHost.update HostState.update
      rw [if_pos hclosed]
      exact fun heq => nomatch heq
    rw [update_of_not_started hdropped]
    exact ⟨hclosed, rfl⟩
  | begin text =>
    unfold HostWorld.begin HostState.begin
    rw [if_pos hclosed]
    exact ⟨hclosed, rfl⟩
  | @finish c before after ticket result _ _ _ =>
    have hnone : x.host.state.publishedBy ticket result = none := by
      cases hg : x.host.state.publishedBy ticket result with
      | none => rfl
      | some g =>
        have hopen := (x.host.state.publishedBy_eq_some hg).2.2
        exact absurd (hopen.symm.trans hclosed) Bool.false_ne_true
    have hstays : (x.host.state.release ticket).closed = true := by
      unfold HostState.release
      split <;> exact hclosed
    refine ⟨?_, by rw [hnone]; rfl⟩
    unfold ended DocumentHost.finish
    rw [HostState.finish_eq, hnone]
    exact hstays
  | complete =>
    unfold HostState.complete
    rw [if_pos hclosed]
    exact ⟨hclosed, rfl⟩
  | fail => exact ⟨hclosed, rfl⟩
  | close => exact ⟨rfl, rfl⟩

theorem steps_publications (hsteps : x.Steps y) : x.publications <:+ y.publications := by
  induction hsteps with
  | refl => exact List.suffix_rfl
  | tail _ hstep ih => exact ih.trans (step_publications hstep)

theorem steps_closed (hclosed : x.host.state.closed = true) (hsteps : x.Steps y) :
    y.host.state.closed = true ∧ y.publications = x.publications := by
  induction hsteps with
  | refl => exact ⟨hclosed, rfl⟩
  | tail _ hstep ih =>
    obtain ⟨hstill, hsame⟩ := step_closed ih.1 hstep
    exact ⟨hstill, hsame.trans ih.2⟩

/-- Document hosts are safe in whatever order things happen: nothing is published or in flight once
a host is closed, each ticket publishes at most once, publications are counted and never taken
back, and each of them is what its call resolves to from the generation published when the call
started. Updates that are dropped and runs that are not current change nothing. -/
theorem reachable_safe {file : FilePath} {r : Resolver} {debounce : Nat} {x : HostWorld}
    (h : (new file r debounce).Steps x) :
    (x.host.state.closed = true →
      x.host.state.published = none ∧ x.host.state.inFlight = none) ∧
    (∀ t, x.host.state.inFlight = some t →
      t < x.host.state.nextTicket ∧ ∃ c ∈ x.pending, c.ticket = some t) ∧
    x.host.state.generation = x.publications.length ∧
    (x.host.state.closed = false →
      x.host.state.published = x.publications.head?.map Prod.snd) ∧
    (tickets x.publications).Nodup ∧ (tickets x.started).Nodup ∧
    (∀ e ∈ x.publications, (e.1, e.1.previous) ∈ x.started ∧ e.1.Gives r file (.ok e.2)) ∧
    (∀ y, x.Steps y →
      x.host.state.generation ≤ y.host.state.generation ∧ x.publications <:+ y.publications ∧
      (x.host.state.closed = true →
        y.host.state.closed = true ∧ y.publications = x.publications)) ∧
    (∀ text now, (∀ run, (x.host.update now).1 ≠ .started run) → x.update text now = x) ∧
    (∀ (run : BackgroundRun) (result : Except Cancelled Generation),
      x.host.state.inFlight ≠ some run.ticket → x.host.finish run result = x.host) := by
  have hsafe := steps_safe (safe_new file r debounce) h
  refine ⟨hsafe.closed, fun t ht => ⟨hsafe.inFlight_lt t ht, hsafe.running t ht⟩, hsafe.generation,
    hsafe.published, hsafe.publishedOnce, hsafe.givenOnce, hsafe.answered, fun y hy => ?_,
    fun text now hnone => update_of_not_started hnone, fun run result hne => ?_⟩
  · have hsuffix := steps_publications hy
    refine ⟨?_, hsuffix, fun hclosed => steps_closed hclosed hy⟩
    rw [hsafe.generation, (steps_safe hsafe hy).generation]
    exact hsuffix.length_le
  · unfold DocumentHost.finish
    rw [HostState.finish_of_not_inFlight _ hne]

end

/-- A host that is closed after its first publication. -/
theorem closed_after_publication :
    ∃ (x : HostWorld) (c : HostCall) (g : Generation),
      (new ⟨"/p/a.proj"⟩ ⟨.standard, false⟩ 0).Steps x ∧ x.publications = [(c, g)] ∧
      x.host.state.published = none ∧ x.host.state.generation = 1 ∧
      c.Gives ⟨.standard, false⟩ ⟨"/p/a.proj"⟩ (.ok g) ∧
      ∀ y, x.Steps y → y.publications = [(c, g)] := by
  obtain ⟨g, hg⟩ :=
    HostCall.gives_generation ⟨.standard, false⟩ ⟨"/p/a.proj"⟩ (some 0) "<Project />"
  let x₀ := new ⟨"/p/a.proj"⟩ ⟨.standard, false⟩ 0
  let x₁ := x₀.update "<Project />" 0
  let c : HostCall := ⟨some 0, "<Project />", none⟩
  let x₂ := x₁.ended c [] (x₁.host.finish ⟨0, none⟩ (.ok g)) (x₁.host.state.publishedBy 0 (.ok g))
  let x : HostWorld := { x₂ with host := x₂.host.close }
  have h₁ : Step x₀ x₁ := .update "<Project />" 0
  have h₂ : Step x₁ x₂ := @Step.finish x₁ c [] [] 0 (.ok g) rfl rfl hg
  have hx : x₀.Steps x := .tail (.tail (.single h₁) h₂) .close
  obtain ⟨hclosed, -, hgeneration, -, -, -, hanswered, hlater, -, -⟩ := reachable_safe hx
  refine ⟨x, c, g, hx, rfl, (hclosed rfl).1, hgeneration, ?_, fun y hy => ?_⟩
  · exact (hanswered (c, g) List.mem_cons_self).2
  · exact ((hlater y hy).2.2 rfl).2

end ProjectAnalysis.HostWorld
