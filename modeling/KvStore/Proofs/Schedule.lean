/-
Whose descriptor a reader reads.

A reader reads the descriptor of its connection through the address of a variable of `server`,
and first does so when it runs for the first time, which is after `server` has yielded.  The
variable is on the stack that all coroutines share.  So the descriptor is the right one as long
as nobody else was resumed in between, that is, if the event of `server` was the last one of
its batch (`reader_own_descriptor`).  Otherwise a coroutine is resumed with its own stack first.

What a step can do (`Transition`), and what holds in every run (`Sound`) and in the runs in which
nobody comes in between (`InOrder`), is the same for all readers.  A scheduler of any readers can
do no more than the one of `anyReader`, which follows each of its steps (`simulated`).
-/
import KvStore.Base.Simulation
import KvStore.Server.Schedule

namespace KvStore

variable {P W I : Type} {R : Reader P W I}

/-- The descriptor that a new reader is for. -/
def NewCoroutine.descriptor : NewCoroutine → Option Int
  | .server => none
  | .serverReader cliFd => some cliFd

/-- The reader waits for the descriptor again, or has ended. -/
def waitNext (m : Dict Int (Coroutine P)) (fd y : Int) : Option P → Dict Int (Coroutine P)
  | none => m.erase fd
  | some place => m.insert fd ⟨.reader place, y⟩

theorem lookup_waitNext (m : Dict Int (Coroutine P)) (fd y : Int) (next : Option P) :
    (waitNext m fd y next).lookup fd = next.map fun place => ⟨.reader place, y⟩ := by
  cases next with
  | none => exact Finmap.lookup_erase fd m
  | some place => exact Finmap.lookup_insert m

theorem lookup_waitNext_of_ne (m : Dict Int (Coroutine P)) {fd fd' : Int} (y : Int)
    (next : Option P) (hne : fd' ≠ fd) : (waitNext m fd y next).lookup fd' = m.lookup fd' := by
  cases next with
  | none => exact Finmap.lookup_erase_ne hne
  | some place => exact Finmap.lookup_insert_of_ne _ hne

namespace Schedule

/-- No event is left while a new coroutine is to run. -/
def Undisturbed (s : Schedule P W) : Prop := s.events = [] ∨ s.ready = []

/-! ### The transitions -/

/-- What the scheduler can do in one step, one constructor for each. -/
inductive Transition (R : Reader P W I) (s : Schedule P W) : Schedule P W → Prop
  | report (fds : List Int) (hevents : s.events = []) (hready : s.ready = []) (hnodup : fds.Nodup)
      (hfound : ∀ fd ∈ fds, fd ∈ s.waiting) : Transition R s { s with events := fds }
  | startServer (rest : List NewCoroutine) (x : Int) (hevents : s.events = [])
      (hready : s.ready = .server :: rest) : Transition R s { s with ready := rest, stack := x }
  | startServerWait (rest : List NewCoroutine) (x fd : Int) (hevents : s.events = [])
      (hready : s.ready = .server :: rest) (hsocket : 0 ≤ fd) (hfd : fd ∉ s.waiting) :
      Transition R s { s with
        ready := rest
        stack := x
        waiting := s.waiting.insert fd ⟨.accept, x⟩ }
  | startReader (cliFd : Int) (rest : List NewCoroutine) (x : Int) (hevents : s.events = [])
      (hready : s.ready = .serverReader cliFd :: rest) (hfd : s.stack ∉ s.waiting) :
      Transition R s { s with
        ready := rest
        stack := x
        read := s.read ++ [s.stack]
        waiting := s.waiting.insert s.stack ⟨.reader (R.first s.read.length), x⟩ }
  | again (fds : List Int) (fd x : Int) (hevents : s.events = fds ++ [fd])
      (hco : s.waiting.lookup fd = some ⟨.accept, x⟩) :
      Transition R s { s with
        events := fds
        stack := x
        waiting := s.waiting.insert fd ⟨.accept, x⟩ }
  | accept (fds : List Int) (fd x cliFd : Int) (hevents : s.events = fds ++ [fd])
      (hco : s.waiting.lookup fd = some ⟨.accept, x⟩) :
      Transition R s { s with
        events := fds
        stack := cliFd
        ready := s.ready ++ [.serverReader cliFd]
        accepted := s.accepted ++ [cliFd]
        waiting := s.waiting.insert fd ⟨.accept, cliFd⟩ }
  | reader (fds : List Int) (fd x y : Int) (place : P) (i : I) (next : Option P) (w : W)
      (hevents : s.events = fds ++ [fd]) (hco : s.waiting.lookup fd = some ⟨.reader place, x⟩)
      (hturn : (R.turn i fd place).run s.work = .ok (next, w)) :
      Transition R s { s with
        events := fds
        stack := y
        waiting := waitNext s.waiting fd y next
        work := w }

section Inversion

variable {s s' : Schedule P W} {o : Outside I} {fd : Int}

theorem ntyPollInner_inv {place : Place P} (h : (ntyPollInner place fd).run s = .ok ((), s')) :
    fd ∉ s.waiting ∧ s' = { s with waiting := s.waiting.insert fd ⟨place, s.stack⟩ } := by
  obtain ⟨s₁, s₂, hget, h⟩ := run_bind_inv h
  cases hget
  by_cases hfd : fd ∈ s.waiting
  · rw [if_pos hfd] at h
    cases h
  · rw [if_neg hfd] at h
    cases h
    exact ⟨hfd, rfl⟩

theorem resumeNew_inv {co : NewCoroutine} {rest : List NewCoroutine} (hevents : s.events = [])
    (hready : s.ready = co :: rest)
    (h : (resumeNew R o co).run { s with ready := rest } = .ok ((), s')) : Transition R s s' := by
  cases co with
  | server =>
      obtain ⟨u, s₁, hframe, h⟩ := run_bind_inv h
      cases hframe
      unfold whenever at h
      by_cases hsocket : 0 ≤ o.socket
      · rw [if_pos hsocket] at h
        obtain ⟨hfd, rfl⟩ := ntyPollInner_inv h
        exact .startServerWait rest _ _ hevents hready hsocket hfd
      · rw [if_neg hsocket] at h
        cases h
        exact .startServer rest _ hevents hready
  | serverReader cliFd =>
      obtain ⟨s₁, s₂, hget, h⟩ := run_bind_inv h
      cases hget
      obtain ⟨u, s₁, hset, h⟩ := run_bind_inv h
      cases hset
      obtain ⟨u, s₁, hframe, h⟩ := run_bind_inv h
      cases hframe
      obtain ⟨hfd, rfl⟩ := ntyPollInner_inv h
      exact .startReader cliFd rest _ hevents hready hfd

theorem resumeWaiting_inv {fds : List Int} (hevents : s.events = fds ++ [fd])
    (h : (resumeWaiting R o fd).run { s with events := fds } = .ok ((), s')) :
    Transition R s s' := by
  obtain ⟨s₁, s₂, hget, h⟩ := run_bind_inv h
  cases hget
  have hinsert : ∀ co, (s.waiting.erase fd).insert fd co = s.waiting.insert fd co :=
    fun co => insert_erase co
  cases hco : s.waiting.lookup fd with
  | none =>
      simp only [hco] at h
      cases h
  | some co =>
      obtain ⟨place, x⟩ := co
      simp only [hco] at h
      obtain ⟨u, s₁, hset, h⟩ := run_bind_inv h
      cases hset
      cases place with
      | accept =>
          cases haccept : o.accept with
          | none =>
              simp only [continueAt, serverAccept, haccept] at h
              obtain ⟨-, rfl⟩ := ntyPollInner_inv h
              rw [hinsert]
              exact .again fds fd x hevents hco
          | some cliFd =>
              simp only [continueAt, serverAccept, haccept] at h
              obtain ⟨u, s₁, hmodify, h⟩ := run_bind_inv h
              cases hmodify
              obtain ⟨-, rfl⟩ := ntyPollInner_inv h
              rw [hinsert]
              exact .accept fds fd x cliFd hevents hco
      | reader place =>
          obtain ⟨u, s₁, hframe, h⟩ := run_bind_inv h
          cases hframe
          obtain ⟨next, s₁, hzoom, h⟩ := run_bind_inv h
          obtain ⟨w, hturn, rfl⟩ := zoom_inv hzoom
          have ht := Transition.reader fds fd x (o.frame.getD x) place o.reader next w hevents hco
            hturn
          cases next with
          | none =>
              cases h
              exact ht
          | some place' =>
              obtain ⟨-, rfl⟩ := ntyPollInner_inv h
              rw [hinsert]
              exact ht

/-- **Every step is one of the transitions.** -/
theorem Step.transition (h : Step R s s') : Transition R s s' := by
  obtain ⟨o, h⟩ := h
  obtain ⟨s₁, s₂, hget, h⟩ := run_bind_inv h
  cases hget
  cases hlast : s.events.getLast? with
  | some fd =>
      simp only [hlast] at h
      obtain ⟨u, s₁, hset, h⟩ := run_bind_inv h
      cases hset
      exact resumeWaiting_inv (List.dropLast_append_getLast? fd hlast).symm h
  | none =>
      have hevents : s.events = [] := List.getLast?_eq_none_iff.mp hlast
      cases hready : s.ready with
      | cons co rest =>
          simp only [hlast, hready] at h
          obtain ⟨u, s₁, hset, h⟩ := run_bind_inv h
          cases hset
          exact resumeNew_inv hevents hready h
      | nil =>
          simp only [hlast, hready] at h
          cases h
          rw [← hready]
          refine .report _ hevents hready (List.nodup_dedup _) ?_
          intro fd hfd
          rw [List.mem_dedup, List.mem_filter] at hfd
          exact of_decide_eq_true hfd.2

end Inversion

section Construction

variable {s s' : Schedule P W} {o : Outside I} {fd : Int}

theorem ntyPollInner_run (place : Place P) (hfd : fd ∉ s.waiting) :
    (ntyPollInner place fd).run s =
      .ok ((), { s with waiting := s.waiting.insert fd ⟨place, s.stack⟩ }) :=
  run_bind_of (run_get s) (run_ite_neg hfd rfl)

/-- `epoll_wait` reports what waits. -/
theorem run_report (hevents : s.events = []) (hready : s.ready = []) :
    (ntyScheduleRun R o).run s = .ok ((), { s with
      events := (o.reported.filter fun fd => fd ∈ s.waiting).dedup }) := by
  refine run_bind_of (run_get s) ?_
  simp only [hevents, List.getLast?_nil, hready]
  rw [← hready]
  rfl

/-- The next coroutine of the queue is resumed. -/
theorem run_new {co : NewCoroutine} {rest : List NewCoroutine} (hevents : s.events = [])
    (hready : s.ready = co :: rest) {r : Except Fault (Unit × Schedule P W)}
    (h : (resumeNew R o co).run { s with ready := rest } = r) : (ntyScheduleRun R o).run s = r := by
  refine (run_bind_ok (run_get s)).trans ?_
  simp only [hevents, List.getLast?_nil, hready]
  rw [← h, ← hevents]
  rfl

/-- The coroutine of the last event is resumed. -/
theorem run_event {fds : List Int} {co : Coroutine P} (hevents : s.events = fds ++ [fd])
    (hco : s.waiting.lookup fd = some co) {r : Except Fault (Unit × Schedule P W)}
    (h : (continueAt R o fd co.place).run
      { s with events := fds, stack := co.stack, waiting := s.waiting.erase fd } = r) :
    (ntyScheduleRun R o).run s = r := by
  refine (run_bind_ok (run_get s)).trans ?_
  simp only [hevents, List.getLast?_concat, List.dropLast_concat]
  refine (run_bind_ok rfl).trans ((run_bind_ok (run_get _)).trans ?_)
  simp only [hco]
  exact (run_bind_ok rfl).trans h

/-- A reader that no longer waits goes on. -/
theorem serverReaderGoOn_run {place : P} {next : Option P} {w : W}
    (hturn : (R.turn o.reader fd place).run s.work = .ok (next, w)) :
    (serverReaderGoOn R o fd place).run { s with waiting := s.waiting.erase fd } =
      .ok ((), { s with
        stack := o.frame.getD s.stack
        waiting := waitNext s.waiting fd (o.frame.getD s.stack) next
        work := w }) := by
  refine run_bind_of rfl (run_bind_of (zoom_run hturn) ?_)
  cases next with
  | none => rfl
  | some place' =>
      rw [waitNext, ← insert_erase]
      exact ntyPollInner_run _ Finmap.notMem_erase_self

/-- Every transition is a step. -/
theorem Transition.step [Inhabited I] (h : Transition R s s') : Step R s s' := by
  cases h with
  | report fds hevents hready hnodup hfound =>
      have hall : (fds.filter fun fd => fd ∈ s.waiting) = fds :=
        List.filter_eq_self.mpr fun fd hfd => decide_eq_true (hfound fd hfd)
      refine ⟨⟨0, fds, none, none, default⟩, (run_report hevents hready).trans ?_⟩
      simp only [hall, hnodup.dedup]
  | startServer rest x hevents hready =>
      exact ⟨⟨-1, [], none, some x, default⟩, run_new hevents hready rfl⟩
  | startServerWait rest x fd hevents hready hsocket hfd =>
      refine ⟨⟨fd, [], none, some x, default⟩, run_new hevents hready ?_⟩
      exact run_bind_of rfl (run_ite_pos hsocket (ntyPollInner_run .accept hfd))
  | startReader cliFd rest x hevents hready hfd =>
      refine ⟨⟨0, [], none, some x, default⟩, run_new hevents hready ?_⟩
      exact run_bind_of (run_get _) (run_bind_of rfl (run_bind_of rfl (ntyPollInner_run _ hfd)))
  | again fds fd x hevents hco =>
      refine ⟨⟨0, [], none, none, default⟩, run_event hevents hco ?_⟩
      rw [← insert_erase]
      exact ntyPollInner_run .accept Finmap.notMem_erase_self
  | accept fds fd x cliFd hevents hco =>
      refine ⟨⟨0, [], some cliFd, none, default⟩, run_event hevents hco ?_⟩
      rw [← insert_erase]
      exact run_bind_of rfl (ntyPollInner_run .accept Finmap.notMem_erase_self)
  | reader fds fd x y place i next w hevents hco hturn =>
      exact ⟨⟨0, [], none, some y, i⟩, run_event hevents hco (serverReaderGoOn_run
        (s := { s with events := fds, stack := x }) hturn)⟩

end Construction

/-! ### Runs in which nobody comes in between -/

/-- A new reader finds its descriptor, and the readers before it have found theirs. -/
structure InOrder (s : Schedule P W) : Prop where
  oneNew : s.ready.length ≤ 1
  own : ∀ cliFd, .serverReader cliFd ∈ s.ready → s.stack = cliFd
  order : s.read ++ s.ready.filterMap NewCoroutine.descriptor = s.accepted

theorem InOrder.start (x : Int) (w : W) : InOrder (start (P := P) x w) :=
  ⟨Nat.le_refl 1, by simp [Schedule.start], rfl⟩

theorem InOrder.step {s s' : Schedule P W} (h : InOrder s) (hund : Undisturbed s)
    (hstep : Transition R s s') : InOrder s' := by
  obtain ⟨hone, hown, horder⟩ := h
  -- An event is dispatched only if no coroutine is new.
  have hnone : ∀ {fds : List Int} {fd : Int}, s.events = fds ++ [fd] → s.ready = [] := by
    intro fds fd hevents
    refine hund.resolve_left ?_
    rw [hevents]
    simp
  -- Of the new ones there is only the one that runs.
  have hlast : ∀ {co : NewCoroutine} {rest : List NewCoroutine}, s.ready = co :: rest →
      rest = [] := by
    intro co rest hready
    rw [hready, List.length_cons] at hone
    exact List.length_eq_zero_iff.mp (by omega)
  cases hstep with
  | report fds => exact ⟨hone, hown, horder⟩
  | startServer rest x hevents hready | startServerWait rest x fd hevents hready =>
      cases hlast hready
      rw [hready] at horder
      exact ⟨by simp, by simp, horder⟩
  | startReader cliFd rest x hevents hready =>
      cases hlast hready
      rw [hready] at horder
      refine ⟨by simp, by simp, ?_⟩
      rw [hown cliFd (by rw [hready]; simp)]
      simpa [NewCoroutine.descriptor] using horder
  | again fds fd x hevents | reader fds fd x y place i next w hevents =>
      have hready := hnone hevents
      exact ⟨hone, by simp [hready], horder⟩
  | accept fds fd x cliFd hevents =>
      have hready := hnone hevents
      rw [hready] at horder
      refine ⟨by simp [hready], by simp [hready], ?_⟩
      rw [← horder, hready]
      simp [NewCoroutine.descriptor]

theorem InOrder.run {x : Int} {w : W} {s : Schedule P W} (h : Relation.ReflTransGen
    (fun s s' => Undisturbed s ∧ Step R s s') (Schedule.start x w) s) : InOrder s :=
  run_keeps (fun _ _ hs hstep => hs.step hstep.1 hstep.2.transition) (.start x w) h

/-! ### Runs in which somebody does -/

/-- What holds in every run. -/
structure Sound (s : Schedule P W) : Prop where
  nodup : s.events.Nodup
  found : ∀ fd ∈ s.events, fd ∈ s.waiting
  oneNew : s.ready.length ≤ 1
  newServer : .server ∈ s.ready → s.events = [] ∧ s.waiting = ∅
  oneServer : ∀ fd fd' x x', s.waiting.lookup fd = some ⟨.accept, x⟩ →
    s.waiting.lookup fd' = some ⟨.accept, x'⟩ → fd = fd'
  socket : ∀ fd x, s.waiting.lookup fd = some ⟨.accept, x⟩ → 0 ≤ fd
  readers : s.ready ≠ [] → ∀ fd ∈ s.events, ∀ x, s.waiting.lookup fd ≠ some ⟨.accept, x⟩

theorem Sound.start (x : Int) (w : W) : Sound (start (P := P) x w) := by
  refine ⟨List.nodup_nil, ?_, Nat.le_refl 1, fun _ => ⟨rfl, rfl⟩, ?_, ?_, ?_⟩
  · simp [Schedule.start]
  · simp [Schedule.start]
  · simp [Schedule.start]
  · simp [Schedule.start]

section Sound

variable {s s' : Schedule P W} {fds : List Int} {fd : Int}

/-- The other events are not for the same descriptor. -/
theorem Sound.others (h : Sound s) (hevents : s.events = fds ++ [fd]) : fds.Nodup ∧ fd ∉ fds := by
  have hnodup := h.nodup
  rw [hevents, List.nodup_append] at hnodup
  obtain ⟨hnd, -, hdisj⟩ := hnodup
  exact ⟨hnd, fun hfd => hdisj fd hfd fd (by simp) rfl⟩

/-- The coroutine of an event waits again or ends, and all others wait as before. -/
theorem Sound.dispatch (h : Sound s) (hevents : s.events = fds ++ [fd]) (hfds : s'.events = fds)
    (hready : s'.ready = s.ready)
    (hother : ∀ fd', fd' ≠ fd → s'.waiting.lookup fd' = s.waiting.lookup fd')
    (hfd : ∀ x, s'.waiting.lookup fd = some ⟨.accept, x⟩ →
      ∃ x', s.waiting.lookup fd = some ⟨.accept, x'⟩) : Sound s' := by
  have hserver : ∀ fd' x, s'.waiting.lookup fd' = some ⟨.accept, x⟩ →
      ∃ x', s.waiting.lookup fd' = some ⟨.accept, x'⟩ := by
    intro fd' x hx
    by_cases hc : fd' = fd
    · rw [hc] at hx ⊢
      exact hfd x hx
    · exact ⟨x, by rw [← hother fd' hc, hx]⟩
  obtain ⟨hnd, hnot⟩ := h.others hevents
  refine ⟨by rw [hfds]; exact hnd, ?_, by rw [hready]; exact h.oneNew, ?_, ?_, ?_, ?_⟩
  · intro fd' hfd'
    rw [hfds] at hfd'
    have hne : fd' ≠ fd := fun hc => hnot (hc ▸ hfd')
    have hold := h.found fd' (by rw [hevents]; simp [hfd'])
    rw [Finmap.mem_iff] at hold ⊢
    rw [hother fd' hne]
    exact hold
  · intro hmem
    rw [hready] at hmem
    have hnil := (h.newServer hmem).1
    rw [hevents] at hnil
    exact absurd hnil (by simp)
  · intro fd₁ fd₂ x₁ x₂ h₁ h₂
    obtain ⟨y₁, hy₁⟩ := hserver fd₁ x₁ h₁
    obtain ⟨y₂, hy₂⟩ := hserver fd₂ x₂ h₂
    exact h.oneServer fd₁ fd₂ y₁ y₂ hy₁ hy₂
  · intro fd' x hx
    obtain ⟨y, hy⟩ := hserver fd' x hx
    exact h.socket fd' y hy
  · intro hne fd' hfd' x hx
    rw [hready] at hne
    rw [hfds] at hfd'
    obtain ⟨y, hy⟩ := hserver fd' x hx
    exact h.readers hne fd' (by rw [hevents]; simp [hfd']) y hy

/-- The queue is empty after a new coroutine has run, and no event is left. -/
theorem Sound.started (h : Sound s) {co : NewCoroutine} {rest : List NewCoroutine}
    (hevents : s.events = []) (hready : s.ready = co :: rest) (hevents' : s'.events = s.events)
    (hready' : s'.ready = rest)
    (hserver : ∀ fd fd' x x', s'.waiting.lookup fd = some ⟨.accept, x⟩ →
      s'.waiting.lookup fd' = some ⟨.accept, x'⟩ → fd = fd')
    (hsocket : ∀ fd x, s'.waiting.lookup fd = some ⟨.accept, x⟩ → 0 ≤ fd) : Sound s' := by
  have hrest : rest = [] := by
    have hone := h.oneNew
    rw [hready, List.length_cons] at hone
    exact List.length_eq_zero_iff.mp (by omega)
  rw [hevents] at hevents'
  rw [hrest] at hready'
  refine ⟨by rw [hevents']; exact List.nodup_nil, ?_, by rw [hready']; simp, ?_, hserver,
    hsocket, ?_⟩
  · simp [hevents']
  · simp [hready']
  · simp [hready']

/-- `server` creates a reader, the only new one, and the events that are left are for readers. -/
theorem Sound.accept (h : Sound s) (hevents : s.events = fds ++ [fd]) {x : Int}
    (hco : s.waiting.lookup fd = some ⟨.accept, x⟩) (cliFd : Int) :
    Sound { s with
      events := fds
      stack := cliFd
      ready := s.ready ++ [.serverReader cliFd]
      accepted := s.accepted ++ [cliFd]
      waiting := s.waiting.insert fd ⟨.accept, cliFd⟩ } := by
  -- It is the event of `server`, so no reader was new before.
  have hnil : s.ready = [] := by
    by_contra hc
    exact h.readers hc fd (by rw [hevents]; simp) x hco
  have hsound : Sound { s with
      events := fds
      waiting := s.waiting.insert fd ⟨.accept, cliFd⟩ } :=
    h.dispatch hevents rfl rfl (fun fd' hne => Finmap.lookup_insert_of_ne _ hne)
      (fun _ _ => ⟨x, hco⟩)
  refine ⟨hsound.nodup, hsound.found, by simp [hnil], by simp [hnil], hsound.oneServer,
    hsound.socket, ?_⟩
  intro _ fd' hfd' y hy
  have hsame := hsound.oneServer fd' fd y cliFd hy (Finmap.lookup_insert _)
  exact (h.others hevents).2 (hsame ▸ hfd')

theorem Sound.step (h : Sound s) (hstep : Transition R s s') : Sound s' := by
  cases hstep with
  | report fds hevents hready hnodup hfound =>
      exact ⟨hnodup, hfound, h.oneNew, by simp [hready], h.oneServer, h.socket, by simp [hready]⟩
  | startServer rest x hevents hready =>
      exact h.started hevents hready rfl rfl h.oneServer h.socket
  | startServerWait rest x fd hevents hready hsocket hfd =>
      have hnone := (h.newServer (by rw [hready]; simp)).2
      have honly : ∀ fd' y, (s.waiting.insert fd ⟨.accept, x⟩).lookup fd' = some ⟨.accept, y⟩ →
          fd' = fd := by
        intro fd' y hy
        by_contra hne
        rw [Finmap.lookup_insert_of_ne _ hne, hnone, Finmap.lookup_empty] at hy
        cases hy
      refine h.started hevents hready rfl rfl ?_ ?_
      · intro fd₁ fd₂ x₁ x₂ h₁ h₂
        rw [honly fd₁ x₁ h₁, honly fd₂ x₂ h₂]
      · intro fd' y hy
        rw [honly fd' y hy]
        exact hsocket
  | startReader cliFd rest x hevents hready hfd =>
      have hold : ∀ fd' y, (s.waiting.insert s.stack ⟨.reader (R.first s.read.length), x⟩).lookup
          fd' = some ⟨.accept, y⟩ → s.waiting.lookup fd' = some ⟨.accept, y⟩ := by
        intro fd' y hy
        by_cases hc : fd' = s.stack
        · rw [hc, Finmap.lookup_insert] at hy
          cases hy
        · rw [Finmap.lookup_insert_of_ne _ hc] at hy
          exact hy
      refine h.started hevents hready rfl rfl ?_ fun fd' y hy => h.socket fd' y (hold fd' y hy)
      intro fd₁ fd₂ x₁ x₂ h₁ h₂
      exact h.oneServer fd₁ fd₂ x₁ x₂ (hold fd₁ x₁ h₁) (hold fd₂ x₂ h₂)
  | again fds fd x hevents hco =>
      exact h.dispatch hevents rfl rfl (fun fd' hne => Finmap.lookup_insert_of_ne _ hne)
        (fun _ _ => ⟨x, hco⟩)
  | reader fds fd x y place i next w hevents hco =>
      refine h.dispatch hevents rfl rfl (fun fd' hne => lookup_waitNext_of_ne _ _ _ hne) ?_
      intro z hz
      rw [lookup_waitNext, Option.map_eq_some_iff] at hz
      obtain ⟨place', -, hz⟩ := hz
      cases hz
  | accept fds fd x cliFd hevents hco => exact h.accept hevents hco cliFd

theorem Sound.run {x : Int} {w : W} (h : Relation.ReflTransGen (Step R) (Schedule.start x w) s) :
    Sound s :=
  run_keeps (fun _ _ hs hstep => hs.step hstep.transition) (.start x w) h

end Sound

/-- With an event left, somebody comes in between, and a reader reads what is not its own. -/
theorem Sound.goes_wrong {cliFd : Int} :
    ∀ (n : Nat) (s : Schedule Unit Unit), Sound s → s.events.length = n →
      s.ready = [.serverReader cliFd] → (s.events = [] → s.stack ≠ cliFd) →
      ∃ s', Relation.ReflTransGen (Step anyReader) s s' ∧ ¬ OwnDescriptor s' := by
  intro n
  induction n with
  | zero =>
      intro s _ hlen hready hstack
      have hevents := List.length_eq_zero_iff.mp hlen
      refine ⟨s, .refl, ?_⟩
      intro hown
      exact hstack hevents (hown hevents cliFd [] hready)
  | succ n ih =>
      intro s h hlen hready _
      obtain ⟨fds, fd, hevents⟩ : ∃ fds fd, s.events = fds ++ [fd] := by
        have hne : s.events ≠ [] := List.ne_nil_of_length_eq_add_one hlen
        exact ⟨_, _, (List.dropLast_append_getLast hne).symm⟩
      have hmem : fd ∈ s.events := by rw [hevents]; simp
      obtain ⟨x, hco⟩ : ∃ x, s.waiting.lookup fd = some ⟨.reader (), x⟩ := by
        obtain ⟨⟨place, x⟩, hco⟩ := Finmap.mem_iff.mp (h.found fd hmem)
        cases place with
        | accept => exact absurd hco (h.readers (by rw [hready]; simp) fd hmem x)
        | reader => exact ⟨x, hco⟩
      -- The reader ends, and has left something else there.
      have hstep : Transition anyReader s _ :=
        .reader fds fd x (cliFd + 1) () true none () hevents hco rfl
      rw [hevents, List.length_append] at hlen
      obtain ⟨s', hreach, hwrong⟩ := ih _ (h.step hstep) (Nat.succ.inj hlen) hready
        (fun _ => show cliFd + 1 ≠ cliFd by omega)
      exact ⟨s', .head hstep.step hreach, hwrong⟩

/-! ### Steps that return -/

section Returning

variable {s : Schedule P W} {o : Outside I} {fds : List Int} {fd x : Int} {place : P}

/-- A new reader is to wait for a descriptor that a coroutine waits for already. -/
def Doubled (s : Schedule P W) : Prop :=
  s.events = [] ∧ (∃ cliFd rest, s.ready = .serverReader cliFd :: rest) ∧ s.stack ∈ s.waiting

theorem Doubled.run (h : Doubled s) (R : Reader P W I) (o : Outside I) :
    (ntyScheduleRun R o).run s = .error .assertFailed := by
  obtain ⟨hevents, ⟨cliFd, rest, hready⟩, hfd⟩ := h
  refine run_new hevents hready (run_bind_of rfl (run_bind_of rfl (run_bind_of rfl ?_)))
  exact run_bind_of rfl (run_ite_pos hfd rfl)

/-- If a reader faults in its turn, the process does. -/
theorem run_turn_error (hevents : s.events = fds ++ [fd])
    (hco : s.waiting.lookup fd = some ⟨.reader place, x⟩) {e : Fault}
    (hturn : (R.turn o.reader fd place).run s.work = .error e) :
    (ntyScheduleRun R o).run s = .error e :=
  run_event hevents hco (run_bind_of rfl (run_bind_error (zoom_error hturn)))

theorem serverStart_returns (hempty : s.waiting = ∅) :
    ∃ s', (serverStart o).run s = .ok ((), s') := by
  by_cases hsocket : 0 ≤ o.socket
  · have hfd : o.socket ∉ s.waiting := hempty ▸ Finmap.notMem_empty
    exact ⟨_, run_bind_of rfl (run_whenever_pos hsocket (ntyPollInner_run .accept hfd))⟩
  · exact ⟨_, run_bind_of rfl (run_whenever_neg hsocket)⟩

/-- `server` goes on, and waits as before. -/
theorem serverAccept_returns (hfd : fd ∉ s.waiting) :
    ∃ s', (serverAccept o fd).run s = .ok ((), s') := by
  unfold serverAccept
  cases o.accept with
  | none => exact ⟨_, ntyPollInner_run .accept hfd⟩
  | some cliFd => exact ⟨_, run_bind_of rfl (ntyPollInner_run .accept hfd)⟩

/--
**A step returns, unless a new reader would wait for a descriptor that is waited for**, if the
reader that goes on returns.
-/
theorem Sound.returns (h : Sound s) (hd : ¬ s.Doubled)
    (hturn : ∀ fds fd place x, s.events = fds ++ [fd] →
      s.waiting.lookup fd = some ⟨.reader place, x⟩ →
      ∃ r, (R.turn o.reader fd place).run s.work = .ok r) :
    ∃ s', (ntyScheduleRun R o).run s = .ok ((), s') := by
  rcases List.eq_nil_or_concat s.events with hevents | ⟨fds, fd, hevents⟩
  · cases hready : s.ready with
    | nil => exact ⟨_, run_report hevents hready⟩
    | cons co rest =>
        cases co with
        | server =>
            have hempty := (h.newServer (by rw [hready]; simp)).2
            obtain ⟨s', hs'⟩ := serverStart_returns (s := { s with ready := rest }) (o := o) hempty
            exact ⟨s', run_new hevents hready hs'⟩
        | serverReader cliFd =>
            have hfd : s.stack ∉ s.waiting := fun hc => hd ⟨hevents, ⟨cliFd, rest, hready⟩, hc⟩
            exact ⟨_, run_new hevents hready (run_bind_of rfl (run_bind_of rfl (run_bind_of rfl
              (ntyPollInner_run _ hfd))))⟩
  · rw [List.concat_eq_append] at hevents
    obtain ⟨⟨place, x⟩, hco⟩ := Finmap.mem_iff.mp (h.found fd (by rw [hevents]; simp))
    cases place with
    | accept =>
        obtain ⟨s', hs'⟩ := serverAccept_returns (o := o) (s := { s with
          events := fds, stack := x, waiting := s.waiting.erase fd }) Finmap.notMem_erase_self
        exact ⟨s', run_event hevents hco hs'⟩
    | reader place =>
        obtain ⟨⟨next, w⟩, hw⟩ := hturn fds fd place x hevents hco
        exact ⟨_, run_event hevents hco (serverReaderGoOn_run
          (s := { s with events := fds, stack := x }) hw)⟩

end Returning

/-! ### The end of the scheduler -/

/-- `server` waits in `accept`. -/
def ServerWaits (s : Schedule P W) : Prop := ∃ fd y, s.waiting.lookup fd = some ⟨.accept, y⟩

/-- `server` has ended, and nobody else has done anything. -/
structure NeverBegun (w : W) (s : Schedule P W) : Prop where
  ready : s.ready = []
  waiting : s.waiting = ∅
  events : s.events = []
  accepted : s.accepted = []
  work : s.work = w

section End

variable {s s' : Schedule P W} {w : W}

theorem ServerWaits.not_isDone (h : s.ServerWaits) : ¬ s.isDone := by
  obtain ⟨fd, y, hco⟩ := h
  intro hdone
  rw [hdone.1, Finmap.lookup_empty] at hco
  cases hco

/-- `server` never leaves its loop. -/
theorem ServerWaits.step (h : s.ServerWaits) (hstep : Transition R s s') : s'.ServerWaits := by
  obtain ⟨fd, y, hco⟩ := h
  cases hstep with
  | report | startServer => exact ⟨fd, y, hco⟩
  | startServerWait rest x fd' => exact ⟨fd', x, Finmap.lookup_insert _⟩
  | startReader cliFd rest x hevents hready hfd =>
      have hne : fd ≠ s.stack := by
        rintro rfl
        exact hfd (Finmap.mem_of_lookup_eq_some hco)
      exact ⟨fd, y, (Finmap.lookup_insert_of_ne _ hne).trans hco⟩
  | again fds fd' x => exact ⟨fd', x, Finmap.lookup_insert _⟩
  | accept fds fd' x cliFd => exact ⟨fd', cliFd, Finmap.lookup_insert _⟩
  | reader fds fd' x z place i next w hevents hco' =>
      have hne : fd ≠ fd' := by
        rintro rfl
        cases hco.symm.trans hco'
      exact ⟨fd, y, (lookup_waitNext_of_ne _ _ _ hne).trans hco⟩

theorem NeverBegun.step (h : NeverBegun w s) (hstep : Transition R s s') : NeverBegun w s' := by
  obtain ⟨hready, hwaiting, hevents, haccepted, hwork⟩ := h
  have hnobody : ∀ {fd co}, s.waiting.lookup fd ≠ some co := by
    intro fd co hco
    rw [hwaiting, Finmap.lookup_empty] at hco
    cases hco
  cases hstep with
  | report fds _ _ _ hfound =>
      refine ⟨hready, hwaiting, List.eq_nil_iff_forall_not_mem.mpr fun fd hfd => ?_, haccepted,
        hwork⟩
      have hmem := hfound fd hfd
      rw [hwaiting] at hmem
      exact Finmap.notMem_empty hmem
  | startServer _ _ _ hnew | startServerWait _ _ _ _ hnew | startReader _ _ _ _ hnew =>
      exact absurd (hready.symm.trans hnew) (by simp)
  | again _ _ _ _ hco | accept _ _ _ _ _ hco | reader _ _ _ _ _ _ _ _ _ hco =>
      exact absurd hco hnobody

/-- In the first step `server` gets a socket and waits, or gets none and ends. -/
theorem start_step {x : Int} {o : Outside I}
    (h : (ntyScheduleRun R o).run (start x w) = .ok ((), s)) :
    (0 ≤ o.socket ∧ s.ServerWaits) ∨ (o.socket < 0 ∧ NeverBegun w s) := by
  rw [run_new rfl rfl rfl] at h
  obtain ⟨u, s₁, hframe, h⟩ := run_bind_inv h
  cases hframe
  unfold whenever at h
  by_cases hsocket : 0 ≤ o.socket
  · rw [if_pos hsocket] at h
    obtain ⟨-, rfl⟩ := ntyPollInner_inv h
    exact Or.inl ⟨hsocket, _, _, Finmap.lookup_insert _⟩
  · rw [if_neg hsocket] at h
    cases h
    exact Or.inr ⟨by omega, rfl, rfl, rfl, rfl, rfl⟩

/-- **What the first step has decided stays so**: `server` waits for ever, or nothing is done. -/
theorem after_first_step {s₁ : Schedule P W} {x : Int} {o : Outside I}
    (h : (ntyScheduleRun R o).run (start x w) = .ok ((), s₁))
    (hrun : Relation.ReflTransGen (Step R) s₁ s) :
    (0 ≤ o.socket ∧ s.ServerWaits) ∨ (o.socket < 0 ∧ NeverBegun w s) := by
  rcases start_step h with ⟨hsocket, hwaits⟩ | ⟨hsocket, hnever⟩
  · exact Or.inl ⟨hsocket, run_keeps (fun _ _ hs hstep => hs.step hstep.transition) hwaits hrun⟩
  · exact Or.inr ⟨hsocket, run_keeps (fun _ _ hs hstep => hs.step hstep.transition) hnever hrun⟩

end End

/-! ### The scheduler of any reader -/

/-- What is known of a coroutine if nothing is known of the places of a reader. -/
def Projects.coroutine (co : Coroutine P) : Coroutine Unit where
  place := match co.place with
    | .accept => .accept
    | .reader _ => .reader ()
  stack := co.stack

/-- The same state, but for the places of the readers and what they work on. -/
structure Projects (s : Schedule P W) (t : Schedule Unit Unit) : Prop where
  stack : t.stack = s.stack
  ready : t.ready = s.ready
  waiting : ∀ fd, t.waiting.lookup fd = (s.waiting.lookup fd).map Projects.coroutine
  events : t.events = s.events
  accepted : t.accepted = s.accepted
  read : t.read = s.read

namespace Projects

variable {s : Schedule P W} {t : Schedule Unit Unit}

theorem start (x : Int) (w : W) : Projects (Schedule.start (P := P) x w) (Schedule.start x ()) :=
  ⟨rfl, rfl, fun fd => by simp [Schedule.start], rfl, rfl, rfl⟩

theorem mem_iff (h : Projects s t) (fd : Int) : fd ∈ t.waiting ↔ fd ∈ s.waiting := by
  rw [Finmap.mem_iff, Finmap.mem_iff, h.waiting fd]
  cases s.waiting.lookup fd <;> simp

theorem lookup (h : Projects s t) {fd : Int} {co : Coroutine P}
    (hco : s.waiting.lookup fd = some co) : t.waiting.lookup fd = some (coroutine co) := by
  rw [h.waiting fd, hco]
  rfl

theorem insert_waiting (h : Projects s t) (fd : Int) (co : Coroutine P) (fd' : Int) :
    (t.waiting.insert fd (coroutine co)).lookup fd' =
      ((s.waiting.insert fd co).lookup fd').map coroutine := by
  by_cases hfd : fd' = fd
  · rw [hfd, Finmap.lookup_insert, Finmap.lookup_insert]
    rfl
  · rw [Finmap.lookup_insert_of_ne _ hfd, Finmap.lookup_insert_of_ne _ hfd, h.waiting]

theorem waitNext_waiting (h : Projects s t) (fd y : Int) (next : Option P) (fd' : Int) :
    (waitNext t.waiting fd y (next.map fun _ => ())).lookup fd' =
      ((waitNext s.waiting fd y next).lookup fd').map coroutine := by
  by_cases hfd : fd' = fd
  · rw [hfd, lookup_waitNext, lookup_waitNext]
    cases next <;> rfl
  · rw [lookup_waitNext_of_ne _ _ _ hfd, lookup_waitNext_of_ne _ _ _ hfd, h.waiting]

end Projects

/-- **The scheduler of any reader follows every step.** -/
theorem simulated (R : Reader P W I) : Simulates (Step R) (Step anyReader) Projects := by
  intro s s' t h hstep
  have hback : ∀ {t'}, t.Transition anyReader t' → Projects s' t' →
      ∃ t', t.Step anyReader t' ∧ Projects s' t' :=
    fun ht hp => ⟨_, ht.step, hp⟩
  cases hstep.transition with
  | report fds hevents hready hnodup hfound =>
      refine hback (.report fds (h.events.trans hevents) (h.ready.trans hready) hnodup ?_) ?_
      · exact fun fd hfd => (h.mem_iff fd).mpr (hfound fd hfd)
      · exact ⟨h.stack, h.ready, h.waiting, rfl, h.accepted, h.read⟩
  | startServer rest x hevents hready =>
      refine hback (.startServer rest x (h.events.trans hevents) (h.ready.trans hready)) ?_
      exact ⟨rfl, rfl, h.waiting, h.events, h.accepted, h.read⟩
  | startServerWait rest x fd hevents hready hsocket hfd =>
      refine hback (.startServerWait rest x fd (h.events.trans hevents) (h.ready.trans hready)
        hsocket (fun hc => hfd ((h.mem_iff fd).mp hc))) ?_
      exact ⟨rfl, rfl, h.insert_waiting fd ⟨.accept, x⟩, h.events, h.accepted, h.read⟩
  | startReader cliFd rest x hevents hready hfd =>
      refine hback (.startReader cliFd rest x (h.events.trans hevents) (h.ready.trans hready)
        (fun hc => hfd ?_)) ?_
      · rw [h.stack] at hc
        exact (h.mem_iff _).mp hc
      · rw [h.stack, h.read]
        exact ⟨rfl, rfl, h.insert_waiting s.stack ⟨.reader (R.first s.read.length), x⟩, h.events,
          h.accepted, rfl⟩
  | again fds fd x hevents hco =>
      refine hback (.again fds fd x (h.events.trans hevents) (h.lookup hco)) ?_
      exact ⟨rfl, h.ready, h.insert_waiting fd ⟨.accept, x⟩, rfl, h.accepted, h.read⟩
  | accept fds fd x cliFd hevents hco =>
      refine hback (.accept fds fd x cliFd (h.events.trans hevents) (h.lookup hco)) ?_
      rw [h.ready, h.accepted]
      exact ⟨rfl, rfl, h.insert_waiting fd ⟨.accept, cliFd⟩, rfl, rfl, h.read⟩
  | reader fds fd x y place i next w hevents hco hturn =>
      have hany : (anyReader.turn next.isNone fd ()).run t.work =
          .ok (next.map fun _ => (), t.work) := by cases next <;> rfl
      refine hback (.reader fds fd x y () next.isNone _ t.work (h.events.trans hevents)
        (h.lookup hco) hany) ?_
      exact ⟨rfl, h.ready, h.waitNext_waiting fd y next, rfl, h.accepted, h.read⟩

end Schedule

/--
**A new reader reads the descriptor of its own connection, as long as no other coroutine was
resumed in between**: in every run in which no event is dispatched while a coroutine is new,
the readers have read what the `accept`s have returned, one reader for each, and the next one
will do so too.  But once an event is left with a new coroutine in the queue, the run can go on
such that the reader reads something else.
-/
theorem reader_own_descriptor (x : Int) :
    (∀ s, Relation.ReflTransGen (fun s s' => s.Undisturbed ∧ Schedule.Step anyReader s s')
        (Schedule.start x ()) s →
      s.OwnDescriptor ∧ s.read ++ s.ready.filterMap NewCoroutine.descriptor = s.accepted) ∧
    (∀ s, Relation.ReflTransGen (Schedule.Step anyReader) (Schedule.start x ()) s →
      ¬ s.Undisturbed →
        ∃ s', Relation.ReflTransGen (Schedule.Step anyReader) s s' ∧ ¬ s'.OwnDescriptor) := by
  constructor
  · intro s hrun
    have horder := Schedule.InOrder.run hrun
    refine ⟨?_, horder.order⟩
    intro _ cliFd rest hready
    exact horder.own cliFd (by rw [hready]; simp)
  · intro s hrun hdist
    have hsound := Schedule.Sound.run hrun
    obtain ⟨hevents, hnew⟩ := not_or.mp hdist
    obtain ⟨co, hready⟩ : ∃ co, s.ready = [co] := by
      have hpos := List.length_pos_of_ne_nil hnew
      have hone := hsound.oneNew
      exact List.length_eq_one_iff.mp (by omega)
    cases co with
    | server => exact absurd (hsound.newServer (by rw [hready]; simp)).1 hevents
    | serverReader cliFd =>
        exact hsound.goes_wrong _ s rfl hready (fun hc => absurd hc hevents)

/--
The second client connects as the first one goes, and `epoll_wait` reports both at once.  The
reader for the descriptor 6 reads the 0 that the other reader's stack has there, and nobody
reads from 6.
-/
theorem reader_reads_other_descriptor :
    ∃ s s', Relation.ReflTransGen (Schedule.Step anyReader) (Schedule.start 0 ()) s ∧
      ¬ s.OwnDescriptor ∧ s.Step anyReader s' ∧ s'.accepted = [5, 6] ∧ s'.read = [5, 0] := by
  -- The server listens on 4, and the first client is served.
  let s₁ : Schedule Unit Unit :=
    ⟨0, [], (∅ : Dict Int (Coroutine Unit)).insert 4 ⟨.accept, 0⟩, [], [], [], ()⟩
  have h₁ : (Schedule.start 0 ()).Transition anyReader s₁ :=
    .startServerWait [] 0 4 rfl rfl (by decide) Finmap.notMem_empty
  let s₂ : Schedule Unit Unit := { s₁ with events := [4] }
  have h₂ : s₁.Transition anyReader s₂ := .report [4] rfl rfl (by decide) (by decide)
  let s₃ : Schedule Unit Unit := { s₂ with
    stack := 5, ready := [.serverReader 5], events := [], accepted := [5]
    waiting := s₂.waiting.insert 4 ⟨.accept, 5⟩ }
  have h₃ : s₂.Transition anyReader s₃ := .accept [] 4 0 5 rfl (by decide)
  let s₄ : Schedule Unit Unit := { s₃ with
    stack := 0, ready := [], read := [5], waiting := s₃.waiting.insert 5 ⟨.reader (), 0⟩ }
  have h₄ : s₃.Transition anyReader s₄ := .startReader 5 [] 0 rfl rfl (by decide)
  -- The event of the second client comes last in the batch, and first in the loop.
  let s₅ : Schedule Unit Unit := { s₄ with events := [5, 4] }
  have h₅ : s₄.Transition anyReader s₅ := .report [5, 4] rfl rfl (by decide) (by decide)
  let s₆ : Schedule Unit Unit := { s₅ with
    stack := 6, ready := [.serverReader 6], events := [5], accepted := [5, 6]
    waiting := s₅.waiting.insert 4 ⟨.accept, 6⟩ }
  have h₆ : s₅.Transition anyReader s₆ := .accept [5] 4 5 6 rfl (by decide)
  let s₇ : Schedule Unit Unit := { s₆ with
    stack := 0, events := [], waiting := s₆.waiting.erase 5 }
  have h₇ : s₆.Transition anyReader s₇ := .reader [] 5 0 0 () true none () rfl (by decide) rfl
  let s₈ : Schedule Unit Unit := { s₇ with
    ready := [], read := [5, 0], waiting := s₇.waiting.insert 0 ⟨.reader (), 0⟩ }
  have h₈ : s₇.Transition anyReader s₈ := .startReader 6 [] 0 rfl rfl (by decide)
  refine ⟨s₇, s₈, ?_, ?_, h₈.step, rfl, rfl⟩
  · exact ((((((Relation.ReflTransGen.single h₁.step).tail h₂.step).tail h₃.step).tail
      h₄.step).tail h₅.step).tail h₆.step).tail h₇.step
  · intro hown
    exact absurd (hown rfl 6 [] rfl) (by decide)

end KvStore
