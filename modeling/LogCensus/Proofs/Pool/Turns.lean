import LogCensus.Proofs.Pool.Accounts
import LogCensus.Proofs.Pool.Line

/-!
Whose turn an event of a history is. Each event is a look or an act of one worker, or something that
the owner of the pool does, which concerns no worker; so a line can stand before the queue.
-/

namespace LogCensus.Pool

variable {P J R E : Type}

def Event.closes : Event P J R E → Bool
  | .closed => true
  | _ => false

namespace History

variable {history next : History P J R E} {event : Event P J R E} {worker : Nat}

theorem pool_of_proceed? (happens : history.proceed? worker = some next) :
    history.pool.proceed? worker = some next.pool := by
  unfold proceed? at happens
  obtain ⟨pool, proceeded, rfl⟩ := Option.map_eq_some_iff.1 happens
  rw [proceeded]
  split
  next => rfl
  next => rfl

theorem pool_of_finish? {outcome : Except E R}
    (happens : history.finish? worker outcome = some next) :
    history.pool.finish? worker outcome = some next.pool := by
  unfold finish? at happens
  split at happens
  next =>
    obtain ⟨pool, finished, rfl⟩ := Option.map_eq_some_iff.1 happens
    exact finished
  next => cases happens

theorem pool_of_defer? {outcome : Except E R}
    (happens : history.defer? worker outcome = some next) :
    history.pool.defer? worker outcome = some next.pool := by
  unfold defer? at happens
  split at happens
  next =>
    obtain ⟨pool, deferred, rfl⟩ := Option.map_eq_some_iff.1 happens
    exact deferred
  next => cases happens

theorem pool_of_crash? (happens : history.crash? worker = some next) :
    history.pool.crash? worker = some next.pool := by
  unfold crash? at happens
  split at happens
  next =>
    obtain ⟨pool, crashed, rfl⟩ := Option.map_eq_some_iff.1 happens
    exact crashed
  next => cases happens

theorem look_of_after? (looking : event.looks = true)
    (happens : history.after? event = some next) :
    ∃ worker, event.worker? = some worker ∧ Look history.pool worker next.pool := by
  cases event with
  | proceed worker => exact ⟨worker, rfl, look_of_proceed? (pool_of_proceed? happens)⟩
  | _ => cases looking

theorem act_of_after? (looking : event.looks = false) (turn : event.worker? = some worker)
    (happens : history.after? event = some next) : Act history.pool worker next.pool := by
  cases event with
  | proceed other => cases looking
  | finish other outcome =>
    cases turn
    exact act_of_finish? (pool_of_finish? happens)
  | defer other outcome =>
    cases turn
    exact act_of_defer? (pool_of_defer? happens)
  | crash other =>
    cases turn
    exact act_of_crash? (pool_of_crash? happens)
  | release other =>
    cases turn
    obtain ⟨pool, released, rfl⟩ := Option.map_eq_some_iff.1 happens
    exact act_of_release? released
  | _ => cases turn

/-- What the owner does, a start apart, changes no worker and no processor. It makes no work once
the pool is cancelled, and the pool is closed by the end of closing only. -/
structure Errand (event : Event P J R E) (history next : History P J R E) : Prop where
  workers : next.pool.workers = history.pool.workers
  started : next.pool.started = history.pool.started
  processor : next.processor = history.processor
  work : history.pool.cancelled = true → next.pool.work ≤ history.pool.work
  closed : next.pool.phase = .closed ↔ event.closes = true ∨ history.pool.phase = .closed

theorem Errand.of_same {pool : Pool J R E} {accepted : List J} (stays : event.closes = false)
    (workers : pool.workers = history.pool.workers)
    (started : pool.started = history.pool.started) (phase : pool.phase = history.pool.phase)
    (work : history.pool.cancelled = true → pool.work ≤ history.pool.work) :
    Errand event history { history with pool, accepted } where
  workers := workers
  started := started
  processor := rfl
  work := work
  closed := by simp [stays, phase]

theorem errand_of_after? (owner : event.worker? = none)
    (fresh : ∀ processor, event ≠ .start processor) (happens : history.after? event = some next) :
    Errand event history next := by
  cases event with
  | start processor => exact absurd rfl (fresh processor)
  | submit job =>
    simp only [after?, submit?] at happens
    split at happens
    next pool accepted =>
      obtain ⟨_, calm, _, rfl⟩ := submit_accepted accepted
      exact Option.some.inj happens ▸ .of_same rfl rfl rfl rfl fun cancelled => by
        simp [calm] at cancelled
    next => exact Option.some.inj happens ▸ .of_same rfl rfl rfl rfl fun _ => le_rfl
    next => cases happens
  | cancel => exact Option.some.inj happens ▸ .of_same rfl rfl rfl rfl fun _ => le_rfl
  | close =>
    simp only [after?, Option.some.injEq] at happens
    subst happens
    unfold Pool.close
    split
    next accepting => exact ⟨rfl, rfl, rfl, fun _ => le_rfl, by simp [Event.closes, accepting]⟩
    next => exact .of_same rfl rfl rfl rfl fun _ => le_rfl
  | closed =>
    obtain ⟨pool, done, rfl⟩ := Option.map_eq_some_iff.1 happens
    obtain ⟨_, _, rfl⟩ := closed?_cases done
    exact ⟨rfl, rfl, rfl, fun _ => le_rfl, by simp [Event.closes]⟩
  | takeResults =>
    obtain ⟨pool, taken, rfl⟩ := Option.map_eq_some_iff.1 happens
    unfold Pool.takeResults at taken
    split at taken
    next => exact Option.some.inj taken ▸ .of_same rfl rfl rfl rfl fun _ => le_rfl
    next => cases taken
  | takeErrors =>
    obtain ⟨pool, taken, rfl⟩ := Option.map_eq_some_iff.1 happens
    unfold Pool.takeErrors at taken
    split at taken
    next => exact Option.some.inj taken ▸ .of_same rfl rfl rfl rfl fun _ => le_rfl
    next => cases taken
  | dropResults =>
    simp only [after?, Option.some.injEq] at happens
    subst happens
    unfold Pool.dropResults
    split
    next =>
      exact .of_same rfl rfl rfl rfl fun _ =>
        work_le_of_queues history.pool (Nat.zero_le _) le_rfl
    next => exact .of_same rfl rfl rfl rfl fun _ => le_rfl
  | dropErrors =>
    simp only [after?, Option.some.injEq] at happens
    subst happens
    unfold Pool.dropErrors
    split
    next =>
      exact .of_same rfl rfl rfl rfl fun _ =>
        work_le_of_queues history.pool le_rfl (Nat.zero_le _)
    next => exact .of_same rfl rfl rfl rfl fun _ => le_rfl
  | receiveResult =>
    obtain ⟨⟨value, pool⟩, received, rfl⟩ := Option.map_eq_some_iff.1 happens
    obtain ⟨item, rest, _, front, _, rfl⟩ := receiveResult?_cases received
    exact .of_same rfl rfl rfl rfl fun _ =>
      work_le_of_queues history.pool (by simp [front]) le_rfl
  | receiveError =>
    obtain ⟨⟨value, pool⟩, received, rfl⟩ := Option.map_eq_some_iff.1 happens
    obtain ⟨item, rest, _, front, _, rfl⟩ := receiveError?_cases received
    exact .of_same rfl rfl rfl rfl fun _ =>
      work_le_of_queues history.pool le_rfl (by simp [front])
  | proceed | finish | defer | crash | release => cases owner

/-- What the owner does concerns no worker of a pool that is started, and makes no work once the pool
is cancelled. -/
theorem owner_after? (started : history.pool.started = true) (owner : event.worker? = none)
    (happens : history.after? event = some next) :
    next.pool.workers = history.pool.workers ∧
      (history.pool.cancelled = true → next.pool.work ≤ history.pool.work) := by
  by_cases fresh : ∃ processor, event = .start processor
  · obtain ⟨processor, rfl⟩ := fresh
    have same : history.start processor = history := by simp [start, Pool.start, started]
    rw [after?, same, Option.some.injEq] at happens
    subst happens
    exact ⟨rfl, fun _ => le_rfl⟩
  · have errand := errand_of_after? owner (not_exists.1 fresh) happens
    exact ⟨errand.workers, errand.work⟩

/-- An event is a look, an act, or something that the owner does. -/
theorem after?_cases (started : history.pool.started = true)
    (happens : history.after? event = some next) :
    (∃ worker, event = .proceed worker ∧ Look history.pool worker next.pool) ∨
    (∃ worker, event.worker? = some worker ∧ Act history.pool worker next.pool) ∨
    event.worker? = none ∧ next.pool.workers = history.pool.workers := by
  cases turn : event.worker? with
  | none => exact .inr (.inr ⟨rfl, (owner_after? started turn happens).1⟩)
  | some worker =>
    cases looking : event.looks with
    | true =>
      cases event with
      | proceed other => exact .inl ⟨other, rfl, look_of_proceed? (pool_of_proceed? happens)⟩
      | _ => cases looking
    | false => exact .inr (.inl ⟨worker, rfl, act_of_after? looking turn happens⟩)

theorem regular : (workshop : Workshop (History P J R E) (Event P J R E) J R E).Regular where
  look := fun looking happened => look_of_after? looking happened
  act := fun looking turn happened => act_of_after? looking turn happened
  evenly := by
    intro state next event other looking happened idle
    cases event with
    | proceed worker =>
      have proceeded := pool_of_proceed? happened
      have wanted := (look_of_proceed? proceeded).wantsJob
      have reason := (isSome_proceed?_iff wanted).1 (Option.isSome_of_eq_some proceeded)
      refine ⟨.proceed other, rfl, rfl, ?_⟩
      change ((state.pool.proceed? other).map _).isSome = true
      rw [Option.isSome_map]
      exact (isSome_proceed?_iff idle).2 reason
    | _ => cases looking

theorem lawful (size capacity : Nat) :
    (workshop : Workshop (History P J R E) (Event P J R E) J R E).Lawful
      (Reachable size capacity) where
  toRegular := regular
  kept := fun reached happened => reached.step happened
  owner := by
    intro state next event worker reached owner happened idle
    change next.pool.wantsJob worker = true
    cases started : state.pool.started with
    | false =>
      have none := (Accounts.of_reachable reached).unstarted started
      simp [workshop, wantsJob, none] at idle
    | true =>
      rw [wantsJob, (owner_after? started owner happened).1]
      exact idle

end History

end LogCensus.Pool
