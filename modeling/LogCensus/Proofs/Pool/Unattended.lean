import LogCensus.Proofs.Pool.Bounds

/-!
A pool whose workers have all stopped. Nobody notices that they are gone: unless the pool is closed
or cancelled it goes on accepting jobs as long as they fit into the queue, where they stay, and then
lets others wait. It comes to that only if a processing crashed or a receiver was dropped; workers
that stop for another reason leave a pool that accepts nothing.
-/

namespace LogCensus.Pool

variable {P J R E : Type}

def Welcoming (pool : Pool J R E) : Prop := pool.phase = .open ∧ pool.cancelled = false

/-- What becomes of a pool whose workers have all stopped. -/
structure Unattended (history later : History P J R E) : Prop where
  started : later.pool.started = true
  rest : later.pool.allStopped = true
  entered : later.entered = history.entered
  queued : ∃ jobs, later.accepted = history.accepted ++ jobs ∧
    later.pool.jobs = history.pool.jobs ++ jobs

namespace Unattended

variable {history middle later : History P J R E} {events : List (Event P J R E)}

theorem refl (started : history.pool.started = true) (rest : history.pool.allStopped = true) :
    Unattended history history :=
  ⟨started, rest, rfl, [], (List.append_nil _).symm, (List.append_nil _).symm⟩

theorem trans (first : Unattended history middle) (second : Unattended middle later) :
    Unattended history later := by
  obtain ⟨jobs, accepted, queued⟩ := first.queued
  obtain ⟨more, acceptedLater, queuedLater⟩ := second.queued
  refine ⟨second.started, second.rest, second.entered.trans first.entered, jobs ++ more, ?_, ?_⟩
  · rw [acceptedLater, accepted, List.append_assoc]
  · rw [queuedLater, queued, List.append_assoc]

theorem of_step (started : history.pool.started = true) (rest : history.pool.allStopped = true)
    (step : Step history later) : Unattended history later := by
  have same : Unattended history history := refl started rest
  cases step with
  | started processor fresh => simp [started] at fresh
  | accepted job => exact ⟨started, rest, rfl, [job], rfl, rfl⟩
  | entered worker job jobs turn | retired worker turn | sent worker job outcome turn
  | deferred worker job outcome turn | refused worker job outcome turn | crashed worker job turn
  | sentLate worker job outcome turn | refusedLate worker job outcome turn
  | abandoned worker job outcome turn =>
    cases eq_stopped_of_allStopped rest (List.mem_of_getElem? turn)
  | _ => exact ⟨started, rest, rfl, same.queued⟩

theorem of_afterAll? (started : history.pool.started = true)
    (rest : history.pool.allStopped = true) (happened : history.afterAll? events = some later) :
    Unattended history later := by
  induction events generalizing history with
  | nil => exact Option.some.inj happened ▸ refl started rest
  | cons event events ih =>
    obtain ⟨next, one, more⟩ := Option.bind_eq_some_iff.1 happened
    have first := of_step started rest (History.step_of_after? one)
    exact first.trans (ih first.started first.rest more)

theorem length_jobs_le (left : Unattended history later) :
    history.pool.jobs.length ≤ later.pool.jobs.length := by
  obtain ⟨jobs, -, queued⟩ := left.queued
  rw [queued, List.length_append]
  exact Nat.le_add_right _ _

end Unattended

section Submissions

variable {pool : Pool J R E}

theorem exists_rejected (refusing : ¬pool.Welcoming) (job : J) :
    ∃ rejection, pool.submit job = .rejected rejection := by
  unfold submit
  by_cases accepting : pool.phase = .open
  · have cancelled : pool.cancelled = true := by
      simpa using fun calm => refusing ⟨accepting, calm⟩
    exact ⟨.cancelled, by rw [if_neg (not_not_intro accepting), if_pos cancelled]⟩
  · exact ⟨.closed, if_pos accepting⟩

theorem submit_of_room (welcoming : pool.Welcoming) (room : pool.jobs.length < pool.capacity)
    (job : J) : pool.submit job = .accepted { pool with jobs := pool.jobs ++ [job] } := by
  obtain ⟨accepting, calm⟩ := welcoming
  rw [submit, if_neg (not_not_intro accepting), if_neg (by simp [calm]), if_pos room]

theorem submit_of_full (welcoming : pool.Welcoming) (full : pool.capacity ≤ pool.jobs.length)
    (job : J) : pool.submit job = .waits := by
  obtain ⟨accepting, calm⟩ := welcoming
  rw [submit, if_neg (not_not_intro accepting), if_neg (by simp [calm]),
    if_neg (Nat.not_lt.2 full)]

end Submissions

section Stopped

variable {size capacity : Nat} {history later : History P J R E} {events : List (Event P J R E)}

/-- Workers do not all stop in a pool that accepts jobs unless something goes wrong. -/
theorem disturbed_of_welcoming (positive : 0 < size)
    (reached : History.Reachable size capacity history) (started : history.pool.started = true)
    (rest : history.pool.allStopped = true) (welcoming : history.pool.Welcoming) :
    history.crashed ≠ [] ∨ ∃ outcome, history.pool.receiverFor outcome = .dropped := by
  obtain ⟨accepting, calm⟩ := welcoming
  have endings := Endings.of_reachable reached
  have staffed := endings.staffed started
  obtain ⟨worker, member⟩ := List.exists_mem_of_length_pos (staffed ▸ positive)
  have stopped := eq_stopped_of_allStopped rest member
  rcases endings.stopped (stopped ▸ member) with (cancelled | disturbed) | ⟨refusing, -⟩
  · simp [calm] at cancelled
  · exact disturbed
  · exact absurd accepting refusing

/-- A job that waits outside a full queue that nobody looks at waits forever. -/
theorem waits_of_full (left : Unattended history later) (sized : later.pool.capacity = capacity)
    (full : capacity ≤ history.pool.jobs.length) (welcoming : later.pool.Welcoming) (job : J) :
    later.pool.submit job = .waits := by
  apply submit_of_full welcoming
  rw [sized]
  exact full.trans left.length_jobs_le

/-- When all workers of a started pool have stopped, jobs are accepted as long as they fit, none of
them is ever taken from the queue, and then jobs wait for as long as the pool is neither closed nor
cancelled. In a closed or cancelled pool all jobs are rejected, and a pool whose workers have all
stopped is one of these if no processing crashed and no receiver was dropped. -/
theorem stopped_pool_keeps_jobs (positive : 0 < size)
    (reached : History.Reachable size capacity history) (started : history.pool.started = true)
    (rest : history.pool.allStopped = true) (happened : history.afterAll? events = some later) :
    Unattended history later ∧
      (later.pool.Welcoming →
        (later.crashed ≠ [] ∨ ∃ outcome, later.pool.receiverFor outcome = .dropped) ∧
        (later.pool.jobs.length < capacity → ∀ job,
          later.pool.submit job = .accepted { later.pool with jobs := later.pool.jobs ++ [job] }) ∧
        (capacity ≤ later.pool.jobs.length → ∀ job more last, later.afterAll? more = some last →
          last.pool.Welcoming → last.pool.submit job = .waits)) ∧
      (¬later.pool.Welcoming → ∀ job, ∃ rejection, later.pool.submit job = .rejected rejection) := by
  have left := Unattended.of_afterAll? started rest happened
  have reachedLater := History.reachable_of_afterAll? events reached happened
  have sized := (Kept.of_reachable reachedLater).sized
  refine ⟨left, fun welcoming => ⟨?_, fun room => ?_, fun full job more last continued => ?_⟩,
    exists_rejected⟩
  · exact disturbed_of_welcoming positive reachedLater left.started left.rest welcoming
  · exact submit_of_room welcoming (sized.symm ▸ room)
  · have reachedLast := History.reachable_of_afterAll? more reachedLater continued
    have leftLast := Unattended.of_afterAll? left.started left.rest continued
    exact fun still => waits_of_full leftLast (Kept.of_reachable reachedLast).sized full still job

end Stopped

/-- The processing of the only job crashes, and with it the only worker stops. -/
def crashingEvents : List (Event Unit Int Int String) :=
  [.takeResults, .takeErrors, .start (), .submit (-1), .proceed 0, .crash 0]

def loneHistory (events : List (Event Unit Int Int String)) : History Unit Int Int String :=
  ((History.create 1 1).afterAll? events).getD (History.create 1 1)

theorem stopped_pool_keeps_jobs_sample :
    (loneHistory crashingEvents).pool.allStopped = true ∧
      (loneHistory (crashingEvents ++ [.submit 1])).accepted = [-1, 1] ∧
      (loneHistory (crashingEvents ++ [.submit 1])).pool.jobs = [1] ∧
      Unattended (loneHistory crashingEvents) (loneHistory (crashingEvents ++ [.submit 1])) ∧
      ∀ more last, (loneHistory (crashingEvents ++ [.submit 1])).afterAll? more = some last →
        last.pool.Welcoming → last.pool.submit 2 = .waits := by
  have reached : History.Reachable 1 1 (loneHistory crashingEvents) :=
    History.reachable_of_afterAll? crashingEvents .created rfl
  have submitted : (loneHistory crashingEvents).afterAll? [.submit 1] =
      some (loneHistory (crashingEvents ++ [.submit 1])) := rfl
  obtain ⟨left, welcome, -⟩ := stopped_pool_keeps_jobs (by decide) reached rfl rfl submitted
  exact ⟨rfl, rfl, rfl, left, (welcome ⟨rfl, rfl⟩).2.2 (by decide) 2⟩

/-- A pool may accept a job although all its workers have stopped. -/
theorem not_all_submissions_rejected :
    ¬∀ history : History Unit Int Int String, History.Reachable 1 1 history →
      history.pool.started = true → history.pool.allStopped = true →
      ∀ job, ∃ rejection, history.pool.submit job = .rejected rejection := by
  intro always
  have reached : History.Reachable 1 1 (loneHistory crashingEvents) :=
    History.reachable_of_afterAll? crashingEvents .created rfl
  obtain ⟨rejection, rejected⟩ := always _ reached rfl rfl 1
  cases rejected

end LogCensus.Pool
