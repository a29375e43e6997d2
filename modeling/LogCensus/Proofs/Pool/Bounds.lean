import LogCensus.Proofs.Pool.Losses
import LogCensus.Proofs.Pool.Turns

/-!
What stays within bounds in a pool, whatever its owner and its workers do. Each worker has one job
at most, each queue has room for so many items, all jobs go into the processor of the one start that
took effect, and a pool that was closed stays at rest.
-/

namespace LogCensus.Pool

variable {P J R E : Type}

/-- The processor of the first start, unless the pool was closed before it. -/
def firstStart : List (Event P J R E) → Option P
  | [] => none
  | .start processor :: _ => some processor
  | .closed :: _ => none
  | _ :: rest => firstStart rest

structure Drains (pool later : Pool J R E) : Prop where
  results : later.results.queue <:+ pool.results.queue
  errors : later.errors.queue <:+ pool.errors.queue

theorem Drains.refl (pool : Pool J R E) : Drains pool pool where
  results := List.suffix_rfl
  errors := List.suffix_rfl

theorem Drains.trans {pool middle later : Pool J R E} (first : Drains pool middle)
    (second : Drains middle later) : Drains pool later where
  results := second.results.trans first.results
  errors := second.errors.trans first.errors

section Counts

variable {pool : Pool J R E}

theorem active_le_length (pool : Pool J R E) : pool.active ≤ pool.workers.length :=
  List.countP_le_length

theorem active_of_allStopped (rest : pool.allStopped = true) : pool.active = 0 := by
  refine List.countP_eq_zero.2 fun worker member => ?_
  rw [eq_stopped_of_allStopped rest member]
  exact Bool.false_ne_true

end Counts

structure Kept (capacity : Nat) (history : History P J R E) : Prop where
  sized : history.pool.capacity = capacity
  jobs : history.pool.jobs.length ≤ capacity
  results : history.pool.results.queue.length ≤ capacity
  errors : history.pool.errors.queue.length ≤ capacity
  unstarted : history.pool.started = false → history.entered = []
  processor : ∀ entry ∈ history.entered, history.processor = some entry.1

namespace Kept

variable {capacity : Nat} {before after : History P J R E}

theorem create (size capacity : Nat) :
    Kept capacity (History.create size capacity : History P J R E) where
  sized := rfl
  jobs := Nat.zero_le _
  results := Nat.zero_le _
  errors := Nat.zero_le _
  unstarted := fun _ => rfl
  processor := fun _ member => nomatch member

theorem sized_step (kept : Kept capacity before) (step : Step before after) :
    after.pool.capacity = capacity := by
  cases step with
  | _ => exact kept.sized

theorem jobs_step (kept : Kept capacity before) (step : Step before after) :
    after.pool.jobs.length ≤ capacity := by
  have old := kept.jobs
  cases step with
  | accepted job accepting calm room =>
    rw [kept.sized] at room
    rw [List.length_append, List.length_singleton]
    exact room
  | entered worker job rest turn calm front =>
    rw [front, List.length_cons] at old
    exact Nat.le_of_succ_le old
  | _ => exact old

/-- An outcome is put into a queue that has room for it. -/
theorem queues_push (kept : Kept capacity before) {job : J} {outcome : Except E R}
    (room : before.pool.queuedFor outcome < before.pool.capacity) :
    (before.pool.push job outcome).results.queue.length ≤ capacity ∧
      (before.pool.push job outcome).errors.queue.length ≤ capacity := by
  rw [kept.sized] at room
  cases outcome with
  | ok value =>
    simp only [push, Channel.push, List.length_append, List.length_singleton]
    exact ⟨room, kept.errors⟩
  | error value =>
    simp only [push, Channel.push, List.length_append, List.length_singleton]
    exact ⟨kept.results, room⟩

theorem queues_step (kept : Kept capacity before) (step : Step before after) :
    after.pool.results.queue.length ≤ capacity ∧ after.pool.errors.queue.length ≤ capacity := by
  have results := kept.results
  have errors := kept.errors
  cases step with
  | droppedResults => exact ⟨Nat.zero_le _, errors⟩
  | droppedErrors => exact ⟨results, Nat.zero_le _⟩
  | receivedResult item rest taken front =>
    rw [front, List.length_cons] at results
    exact ⟨Nat.le_of_succ_le results, errors⟩
  | receivedError item rest taken front =>
    rw [front, List.length_cons] at errors
    exact ⟨results, Nat.le_of_succ_le errors⟩
  | sent worker job outcome turn wanted room => exact kept.queues_push room
  | sentLate worker job outcome turn calm wanted room => exact kept.queues_push room
  | _ => exact ⟨results, errors⟩

theorem unstarted_step (kept : Kept capacity before) (accounts : Accounts before)
    (step : Step before after) (unstarted : after.pool.started = false) : after.entered = [] := by
  have old := kept.unstarted
  cases step with
  | started => cases unstarted
  | entered worker job rest turn =>
    have empty := accounts.unstarted unstarted
    simp [empty] at turn
  | _ => exact old unstarted

theorem processor_step (kept : Kept capacity before) (step : Step before after) :
    ∀ entry ∈ after.entered, after.processor = some entry.1 := by
  have old := kept.processor
  cases step with
  | started processor fresh => simp [kept.unstarted fresh]
  | entered worker job rest turn calm front =>
    intro entry member
    rcases List.mem_append.1 member with before | new
    · exact old entry before
    · rw [Option.mem_toList, Option.map_eq_some_iff] at new
      obtain ⟨processor, present, rfl⟩ := new
      exact present
  | _ => exact old

theorem step (kept : Kept capacity before) (accounts : Accounts before)
    (step : Step before after) : Kept capacity after where
  sized := kept.sized_step step
  jobs := kept.jobs_step step
  results := (kept.queues_step step).1
  errors := (kept.queues_step step).2
  unstarted := kept.unstarted_step accounts step
  processor := kept.processor_step step

theorem of_reachable {size capacity : Nat} {history : History P J R E}
    (reached : History.Reachable size capacity history) : Kept capacity history :=
  reached.invariant (create size capacity) fun reached kept =>
    kept.step (Accounts.of_reachable reached)

end Kept

/-- No worker of a closed pool works, and no event adds an outcome to a queue. -/
theorem Step.drains {before after : History P J R E} (step : Step before after)
    (closed : before.pool.phase = .closed) (still : before.pool.allStopped = true) :
    after.pool.phase = .closed ∧ Drains before.pool after.pool := by
  have same : Drains before.pool before.pool := .refl _
  cases step with
  | started processor fresh notClosed => exact absurd closed notClosed
  | accepted job accepting | closing accepting => simp [closed] at accepting
  | closed => exact ⟨rfl, same.results, same.errors⟩
  | droppedResults => exact ⟨closed, List.nil_suffix, same.errors⟩
  | droppedErrors => exact ⟨closed, same.results, List.nil_suffix⟩
  | receivedResult item rest taken front =>
    exact ⟨closed, front ▸ List.suffix_cons item rest, same.errors⟩
  | receivedError item rest taken front =>
    exact ⟨closed, same.results, front ▸ List.suffix_cons item rest⟩
  | entered worker job rest turn | retired worker turn | sent worker job outcome turn
  | deferred worker job outcome turn | refused worker job outcome turn | crashed worker job turn
  | sentLate worker job outcome turn | refusedLate worker job outcome turn
  | abandoned worker job outcome turn =>
    cases eq_stopped_of_allStopped still (List.mem_of_getElem? turn)
  | _ => exact ⟨closed, same.results, same.errors⟩

namespace History

variable {size capacity : Nat} {history next later : History P J R E} {event : Event P J R E}
  {events : List (Event P J R E)}

theorem drains_afterAll? (reached : Reachable size capacity history)
    (closed : history.pool.phase = .closed) (happened : history.afterAll? events = some later) :
    later.pool.phase = .closed ∧ Drains history.pool later.pool := by
  induction events generalizing history with
  | nil => exact Option.some.inj happened ▸ ⟨closed, .refl _⟩
  | cons event rest ih =>
    obtain ⟨next, one, more⟩ := Option.bind_eq_some_iff.1 happened
    have resting := (Endings.of_reachable reached).rested closed
    obtain ⟨still, first⟩ := (step_of_after? one).drains closed resting
    obtain ⟨last, second⟩ := ih (reached.step one) still more
    exact ⟨last, first.trans second⟩

/-! ### Which start takes effect -/

/-- No start has an effect any more. -/
def Settled (history : History P J R E) : Prop :=
  history.pool.started = true ∨ history.pool.phase = .closed

theorem Settled.step (settled : Settled history) (step : Step history next) :
    Settled next ∧ next.processor = history.processor := by
  cases step with
  | started processor fresh notClosed =>
    rcases settled with started | closed
    · simp [started] at fresh
    · exact absurd closed notClosed
  | closing accepting =>
    rcases settled with started | closed
    · exact ⟨.inl started, rfl⟩
    · simp [closed] at accepting
  | closed => exact ⟨.inr rfl, rfl⟩
  | _ => exact ⟨settled, rfl⟩

theorem Settled.processor_afterAll? (settled : Settled history)
    (happened : history.afterAll? events = some later) :
    later.processor = history.processor := by
  induction events generalizing history with
  | nil => exact Option.some.inj happened ▸ rfl
  | cons event rest ih =>
    obtain ⟨next, one, more⟩ := Option.bind_eq_some_iff.1 happened
    obtain ⟨still, same⟩ := settled.step (step_of_after? one)
    exact (ih still more).trans same

theorem start_of_unsettled (unsettled : ¬Settled history) (processor : P) :
    Settled (history.start processor) ∧
      (history.start processor).processor = some processor := by
  rw [Settled, not_or, Bool.not_eq_true] at unsettled
  simp [Settled, start, Pool.start, unsettled.1, unsettled.2]

/-- The workers of a pool that was not started have no turns. -/
theorem owner_of_unstarted (empty : history.pool.workers = [])
    (happens : history.after? event = some next) : event.worker? = none := by
  cases turn : event.worker? with
  | none => rfl
  | some worker =>
    have absent : history.pool.workers[worker]? = .none := by simp [empty]
    cases looking : event.looks with
    | true =>
      obtain ⟨other, same, look⟩ := look_of_after? looking happens
      rw [turn, Option.some.injEq] at same
      have idle := wantsJob_iff.1 look.wantsJob
      simp [← same, absent] at idle
    | false =>
      obtain ⟨old, present, _⟩ := (act_of_after? looking turn happens).exists_worker
      simp [absent] at present

/-- An event that neither starts a pool nor closes it leaves both open. -/
theorem unsettled_after? (reached : Reachable size capacity history) (unsettled : ¬Settled history)
    (fresh : ∀ processor, event ≠ .start processor) (stays : event.closes = false)
    (happens : history.after? event = some next) :
    ¬Settled next ∧ next.processor = history.processor := by
  rw [Settled, not_or, Bool.not_eq_true] at unsettled
  have empty := (Accounts.of_reachable reached).unstarted unsettled.1
  have errand := errand_of_after? (owner_of_unstarted empty happens) fresh happens
  rw [Settled, errand.started, errand.closed]
  exact ⟨by simp [unsettled, stays], errand.processor⟩

theorem processor_of_unsettled (reached : Reachable size capacity history)
    (unsettled : ¬Settled history) (unprocessed : history.processor = none)
    (happened : history.afterAll? events = some later) :
    later.processor = firstStart events := by
  induction events generalizing history with
  | nil => exact Option.some.inj happened ▸ unprocessed
  | cons event rest ih =>
    obtain ⟨next, one, more⟩ := Option.bind_eq_some_iff.1 happened
    have goOn (fresh : ∀ processor, event ≠ .start processor) (stays : event.closes = false) :
        later.processor = firstStart rest := by
      obtain ⟨still, same⟩ := unsettled_after? reached unsettled fresh stays one
      exact ih (reached.step one) still (same.trans unprocessed) more
    cases event with
    | start processor =>
      cases one
      obtain ⟨settled, effective⟩ := start_of_unsettled unsettled processor
      rw [settled.processor_afterAll? more]
      exact effective
    | closed =>
      have errand := errand_of_after? rfl nofun one
      have settled : Settled next := .inr (errand.closed.2 (.inl rfl))
      rw [settled.processor_afterAll? more]
      exact errand.processor.trans unprocessed
    | _ => exact goOn nofun rfl

/-- The processor of a pool is that of the first start. -/
theorem processor_eq_firstStart
    (happened : (create size capacity).afterAll? events = some history) :
    history.processor = firstStart events :=
  processor_of_unsettled .created (by simp [Settled, create, Pool.create]) rfl happened

theorem closed_of_mem (reached : Reachable size capacity history)
    (happened : history.afterAll? events = some later) (ended : .closed ∈ events) :
    later.pool.phase = .closed := by
  induction events generalizing history with
  | nil => cases ended
  | cons event rest ih =>
    obtain ⟨next, one, more⟩ := Option.bind_eq_some_iff.1 happened
    rcases List.mem_cons.1 ended with rfl | after
    · have errand := errand_of_after? rfl nofun one
      exact (drains_afterAll? (reached.step one) (errand.closed.2 (.inl rfl)) more).1
    · exact ih (reached.step one) more after

end History

/-- What is within bounds in a pool of so many workers and places after some events. -/
structure Bounds (size capacity : Nat) (events : List (Event P J R E))
    (history : History P J R E) : Prop where
  active : history.pool.active ≤ size
  /-- Nothing is processed before the first start, nor ever if the pool is closed before it. -/
  fresh : firstStart events = none → history.entered = [] ∧ history.pool.active = 0
  processor : ∀ entry ∈ history.entered, firstStart events = some entry.1
  entered : (history.entered.map Prod.snd).Perm
    (history.pool.running ++ history.crashed ++ history.returned.map Prod.fst)
  jobs : history.pool.jobs.length ≤ capacity
  results : history.pool.results.queue.length ≤ capacity
  errors : history.pool.errors.queue.length ≤ capacity
  closed : .closed ∈ events → history.pool.active = 0 ∧
    ∀ more later, history.afterAll? more = some later →
      later.pool.active = 0 ∧ Drains history.pool later.pool

/-- No order of events brings a pool out of its bounds. -/
theorem pool_keeps_bounds {size capacity : Nat} {events : List (Event P J R E)}
    {history : History P J R E}
    (happened : (History.create size capacity).afterAll? events = some history) :
    Bounds size capacity events history := by
  have reached := History.reachable_of_afterAll? events .created happened
  have accounts := Accounts.of_reachable reached
  have endings := Endings.of_reachable reached
  have kept := Kept.of_reachable reached
  have first := History.processor_eq_firstStart happened
  refine ⟨?_, ?_, first ▸ kept.processor, accounts.entered, kept.jobs, kept.results, kept.errors, ?_⟩
  · have bounded := active_le_length history.pool
    cases started : history.pool.started with
    | true => exact endings.staffed started ▸ bounded
    | false =>
      rw [accounts.unstarted started] at bounded
      exact bounded.trans (Nat.zero_le size)
  · intro none
    rw [← first] at none
    refine ⟨List.eq_nil_iff_forall_not_mem.2 fun entry member => ?_, ?_⟩
    · simp [kept.processor entry member] at none
    · have empty : history.pool.workers = [] := by
        by_contra nonempty
        simpa [none] using accounts.processed nonempty
      simp [active, empty]
  · intro ended
    have closed := History.closed_of_mem .created happened ended
    refine ⟨active_of_allStopped (endings.rested closed), fun more later goesOn => ?_⟩
    obtain ⟨still, drains⟩ := History.drains_afterAll? reached closed goesOn
    have resting := Endings.of_reachable (History.reachable_of_afterAll? more reached goesOn)
    exact ⟨active_of_allStopped (resting.rested still), drains⟩

/-- Two workers with queues of one place. The start with the second processor has no effect, nor has
the one after the end of closing; one result was dropped by then and one is still in its queue. -/
def restartedEvents : List (Event Nat Nat Nat String) :=
  [.submit 3, .start 1, .takeResults, .start 2, .proceed 0, .submit 4, .proceed 1,
    .finish 0 (.ok 30), .finish 1 (.ok 40), .close, .proceed 0, .cancel, .release 1, .closed,
    .start 3]

def restarted : History Nat Nat Nat String :=
  ((History.create 2 1).afterAll? restartedEvents).getD (History.create 2 1)

theorem pool_keeps_bounds_sample :
    (History.create 2 1).afterAll? restartedEvents = some restarted ∧
      restarted.entered = [(1, 3), (1, 4)] ∧ firstStart restartedEvents = some 1 ∧
      restarted.pool.results.queue = [(3, 30)] ∧ restarted.pool.active = 0 ∧
      ∀ later, restarted.afterAll? [.receiveResult] = some later →
        Drains restarted.pool later.pool := by
  have bounds : Bounds 2 1 restartedEvents restarted := pool_keeps_bounds rfl
  have ended : .closed ∈ restartedEvents := by simp [restartedEvents]
  obtain ⟨still, later⟩ := bounds.closed ended
  exact ⟨rfl, rfl, rfl, rfl, still, fun following received => (later _ following received).2⟩

end LogCensus.Pool
