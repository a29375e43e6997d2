import LogCensus.Pool.History

/-!
What one event does to a history. `Step` has one constructor for each effect, with the condition
under which it happens, so that what holds of all histories is shown by cases on it and not by
opening the events again.
-/

namespace LogCensus

variable {P J R E : Type}

def Worker.running? : Worker J R E → Option J
  | .running job => some job
  | _ => none

def Worker.held? : Worker J R E → Option (J × Except E R)
  | .holding job outcome => some (job, outcome)
  | _ => none

namespace Pool

/-- The effects that an event can have on a history. -/
inductive Step : History P J R E → History P J R E → Prop where
  | unchanged (history : History P J R E) : Step history history
  | started {history : History P J R E} (processor : P) (fresh : history.pool.started = false)
      (notClosed : history.pool.phase ≠ .closed) :
      Step history { history with
        pool := { history.pool with
          started := true, workers := List.replicate history.pool.size .idle }
        processor := some processor }
  | accepted {history : History P J R E} (job : J) (accepting : history.pool.phase = .open)
      (calm : history.pool.cancelled = false)
      (room : history.pool.jobs.length < history.pool.capacity) :
      Step history { history with
        pool := { history.pool with jobs := history.pool.jobs ++ [job] }
        accepted := history.accepted ++ [job] }
  | cancelled (history : History P J R E) :
      Step history { history with pool := history.pool.cancel }
  | closing {history : History P J R E} (accepting : history.pool.phase = .open) :
      Step history { history with pool := { history.pool with phase := .closing } }
  | closed {history : History P J R E} (refusing : history.pool.phase ≠ .open)
      (rest : history.pool.allStopped = true) :
      Step history { history with pool := { history.pool with phase := .closed } }
  | tookResults {history : History P J R E} (kept : history.pool.results.receiver = .kept) :
      Step history { history with pool := { history.pool with
        results := { history.pool.results with receiver := .taken } } }
  | tookErrors {history : History P J R E} (kept : history.pool.errors.receiver = .kept) :
      Step history { history with pool := { history.pool with
        errors := { history.pool.errors with receiver := .taken } } }
  | droppedResults {history : History P J R E} (taken : history.pool.results.receiver = .taken) :
      Step history { history with pool := { history.pool with
        results := { history.pool.results with receiver := .dropped, queue := [] }
        lost := history.pool.lost ++
          history.pool.results.queue.map fun item => (item.1, .unwanted (.ok item.2)) } }
  | droppedErrors {history : History P J R E} (taken : history.pool.errors.receiver = .taken) :
      Step history { history with pool := { history.pool with
        errors := { history.pool.errors with receiver := .dropped, queue := [] }
        lost := history.pool.lost ++
          history.pool.errors.queue.map fun item => (item.1, .unwanted (.error item.2)) } }
  | receivedResult {history : History P J R E} (item : J × R) (rest : List (J × R))
      (taken : history.pool.results.receiver = .taken)
      (front : history.pool.results.queue = item :: rest) :
      Step history { history with pool := { history.pool with
        results := { history.pool.results with
          queue := rest, received := history.pool.results.received ++ [item] } } }
  | receivedError {history : History P J R E} (item : J × E) (rest : List (J × E))
      (taken : history.pool.errors.receiver = .taken)
      (front : history.pool.errors.queue = item :: rest) :
      Step history { history with pool := { history.pool with
        errors := { history.pool.errors with
          queue := rest, received := history.pool.errors.received ++ [item] } } }
  | entered {history : History P J R E} (worker : Nat) (job : J) (rest : List J)
      (turn : history.pool.workers[worker]? = some .idle) (calm : history.pool.cancelled = false)
      (front : history.pool.jobs = job :: rest) :
      Step history { history with
        pool := { history.pool with jobs := rest }.setWorker worker (.running job)
        entered := history.entered ++
          (history.processor.map fun processor => (processor, job)).toList }
  | retired {history : History P J R E} (worker : Nat)
      (turn : history.pool.workers[worker]? = some .idle)
      (reason : history.pool.cancelled = true ∨
        history.pool.jobs = [] ∧ history.pool.phase ≠ .open) :
      Step history { history with pool := history.pool.setWorker worker .stopped }
  | sent {history : History P J R E} (worker : Nat) (job : J) (outcome : Except E R)
      (turn : history.pool.workers[worker]? = some (.running job))
      (wanted : history.pool.receiverFor outcome ≠ .dropped)
      (room : history.pool.queuedFor outcome < history.pool.capacity) :
      Step history { history with
        pool := (history.pool.push job outcome).setWorker worker .idle
        returned := history.returned ++ [(job, outcome)] }
  | deferred {history : History P J R E} (worker : Nat) (job : J) (outcome : Except E R)
      (turn : history.pool.workers[worker]? = some (.running job))
      (wanted : history.pool.receiverFor outcome ≠ .dropped)
      (full : history.pool.capacity ≤
        history.pool.queuedFor outcome + history.pool.waitingFor outcome) :
      Step history { history with
        pool := history.pool.setWorker worker (.holding job outcome)
        returned := history.returned ++ [(job, outcome)]
        deferred := history.deferred ++ [(job, outcome)] }
  | refused {history : History P J R E} (worker : Nat) (job : J) (outcome : Except E R)
      (turn : history.pool.workers[worker]? = some (.running job))
      (unwanted : history.pool.receiverFor outcome = .dropped) :
      Step history { history with
        pool := (history.pool.lose job (.unwanted outcome)).setWorker worker .stopped
        returned := history.returned ++ [(job, outcome)] }
  | crashed {history : History P J R E} (worker : Nat) (job : J)
      (turn : history.pool.workers[worker]? = some (.running job)) :
      Step history { history with
        pool := (history.pool.lose job .crashed).setWorker worker .stopped
        crashed := history.crashed ++ [job] }
  | sentLate {history : History P J R E} (worker : Nat) (job : J) (outcome : Except E R)
      (turn : history.pool.workers[worker]? = some (.holding job outcome))
      (calm : history.pool.cancelled = false)
      (wanted : history.pool.receiverFor outcome ≠ .dropped)
      (room : history.pool.queuedFor outcome < history.pool.capacity) :
      Step history { history with
        pool := (history.pool.push job outcome).setWorker worker .idle }
  | refusedLate {history : History P J R E} (worker : Nat) (job : J) (outcome : Except E R)
      (turn : history.pool.workers[worker]? = some (.holding job outcome))
      (calm : history.pool.cancelled = false)
      (unwanted : history.pool.receiverFor outcome = .dropped) :
      Step history { history with
        pool := (history.pool.lose job (.unwanted outcome)).setWorker worker .stopped }
  | abandoned {history : History P J R E} (worker : Nat) (job : J) (outcome : Except E R)
      (turn : history.pool.workers[worker]? = some (.holding job outcome))
      (cancelled : history.pool.cancelled = true) :
      Step history { history with
        pool := (history.pool.lose job (.cancelled outcome)).setWorker worker .stopped }

section Workers

variable {pool after : Pool J R E} {worker : Nat}

theorem worker_set (pool : Pool J R E) {old : Worker J R E}
    (turn : pool.workers[worker]? = some old) (new : Worker J R E) :
    (pool.setWorker worker new).workers[worker]? = some new := by
  obtain ⟨bound, _⟩ := List.getElem?_eq_some_iff.1 turn
  exact List.getElem?_set_self bound

theorem proceed?_cases (proceeded : pool.proceed? worker = some after) :
    pool.workers[worker]? = some .idle ∧
      ((pool.cancelled = false ∧ ∃ job rest, pool.jobs = job :: rest ∧
          after = { pool with jobs := rest }.setWorker worker (.running job)) ∨
        (pool.cancelled = true ∨ pool.jobs = [] ∧ pool.phase ≠ .open) ∧
          after = pool.setWorker worker .stopped) := by
  unfold proceed? at proceeded
  split at proceeded
  next turn =>
    refine ⟨turn, ?_⟩
    by_cases cancelled : pool.cancelled = true
    · rw [if_pos cancelled, Option.some.injEq] at proceeded
      exact .inr ⟨.inl cancelled, proceeded.symm⟩
    · rw [if_neg cancelled] at proceeded
      split at proceeded
      next job rest front =>
        rw [Option.some.injEq] at proceeded
        exact .inl ⟨by simpa using cancelled, job, rest, front, proceeded.symm⟩
      next empty =>
        by_cases accepting : pool.phase = .open
        · simp [accepting] at proceeded
        · rw [if_neg accepting, Option.some.injEq] at proceeded
          exact .inr ⟨.inr ⟨empty, accepting⟩, proceeded.symm⟩
  next => cases proceeded

theorem deliver?_cases {job : J} {outcome : Except E R}
    (delivered : pool.deliver? worker job outcome = some after) :
    (pool.receiverFor outcome ≠ .dropped ∧ pool.queuedFor outcome < pool.capacity ∧
        after = (pool.push job outcome).setWorker worker .idle) ∨
      pool.receiverFor outcome = .dropped ∧
        after = (pool.lose job (.unwanted outcome)).setWorker worker .stopped := by
  unfold deliver? at delivered
  by_cases unwanted : pool.receiverFor outcome = .dropped
  · rw [if_pos unwanted, Option.some.injEq] at delivered
    exact .inr ⟨unwanted, delivered.symm⟩
  · rw [if_neg unwanted] at delivered
    by_cases room : pool.queuedFor outcome < pool.capacity
    · rw [if_pos room, Option.some.injEq] at delivered
      exact .inl ⟨unwanted, room, delivered.symm⟩
    · simp only [if_neg room, reduceCtorEq] at delivered

theorem deliver?_eq_none {job : J} {outcome : Except E R}
    (full : pool.deliver? worker job outcome = none) :
    pool.receiverFor outcome ≠ .dropped ∧ pool.capacity ≤ pool.queuedFor outcome := by
  unfold deliver? at full
  by_cases unwanted : pool.receiverFor outcome = .dropped
  · simp [unwanted] at full
  · by_cases room : pool.queuedFor outcome < pool.capacity
    · simp [unwanted, room] at full
    · exact ⟨unwanted, Nat.le_of_not_lt room⟩

theorem finish?_cases {outcome : Except E R} (finished : pool.finish? worker outcome = some after) :
    ∃ job, pool.workers[worker]? = some (.running job) ∧
      (pool.deliver? worker job outcome = some after ∨
        pool.deliver? worker job outcome = none ∧
          after = pool.setWorker worker (.holding job outcome)) := by
  unfold finish? at finished
  split at finished
  next job turn =>
    rw [Option.some.injEq] at finished
    refine ⟨job, turn, ?_⟩
    cases delivered : pool.deliver? worker job outcome with
    | none => exact .inr ⟨rfl, by rw [← finished, delivered, Option.getD_none]⟩
    | some following => exact .inl (by rw [← finished, delivered, Option.getD_some])
  next => cases finished

theorem defer?_cases {outcome : Except E R} (deferred : pool.defer? worker outcome = some after) :
    ∃ job, pool.workers[worker]? = some (.running job) ∧ pool.receiverFor outcome ≠ .dropped ∧
      pool.capacity ≤ pool.queuedFor outcome + pool.waitingFor outcome ∧
      after = pool.setWorker worker (.holding job outcome) := by
  unfold defer? at deferred
  split at deferred
  next job turn =>
    by_cases full : pool.receiverFor outcome ≠ .dropped ∧
        pool.capacity ≤ pool.queuedFor outcome + pool.waitingFor outcome
    · rw [if_pos full, Option.some.injEq] at deferred
      exact ⟨job, turn, full.1, full.2, deferred.symm⟩
    · simp only [if_neg full, reduceCtorEq] at deferred
  next => cases deferred

theorem crash?_cases (crashed : pool.crash? worker = some after) :
    ∃ job, pool.workers[worker]? = some (.running job) ∧
      after = (pool.lose job .crashed).setWorker worker .stopped := by
  unfold crash? at crashed
  split at crashed
  next job turn => exact ⟨job, turn, (Option.some.inj crashed).symm⟩
  next => cases crashed

theorem release?_cases (released : pool.release? worker = some after) :
    ∃ job outcome, pool.workers[worker]? = some (.holding job outcome) ∧
      (pool.cancelled = true ∧
          after = (pool.lose job (.cancelled outcome)).setWorker worker .stopped ∨
        pool.cancelled = false ∧ pool.deliver? worker job outcome = some after) := by
  unfold release? at released
  split at released
  next job outcome turn =>
    refine ⟨job, outcome, turn, ?_⟩
    by_cases cancelled : pool.cancelled = true
    · rw [if_pos cancelled, Option.some.injEq] at released
      exact .inl ⟨cancelled, released.symm⟩
    · rw [if_neg cancelled] at released
      exact .inr ⟨by simpa using cancelled, released⟩
  next => cases released

end Workers

section Owner

variable {pool after : Pool J R E}

theorem closed?_cases (done : pool.closed? = some after) :
    pool.phase ≠ .open ∧ pool.allStopped = true ∧ after = { pool with phase := .closed } := by
  unfold closed? at done
  by_cases ready : pool.phase ≠ .open ∧ pool.allStopped = true
  · rw [if_pos ready, Option.some.injEq] at done
    exact ⟨ready.1, ready.2, done.symm⟩
  · simp only [if_neg ready, reduceCtorEq] at done

theorem receiveResult?_cases {value : R} (received : pool.receiveResult? = some (value, after)) :
    ∃ item rest, pool.results.receiver = .taken ∧ pool.results.queue = item :: rest ∧
      value = item.2 ∧ after = { pool with results := { pool.results with
        queue := rest, received := pool.results.received ++ [item] } } := by
  unfold receiveResult? Channel.receive? at received
  by_cases taken : pool.results.receiver = .taken
  · rw [if_pos taken] at received
    cases front : pool.results.queue with
    | nil => simp [front] at received
    | cons item rest =>
      simp only [front, Option.map_some, Option.some.injEq, Prod.mk.injEq] at received
      exact ⟨item, rest, taken, rfl, received.1.symm, received.2.symm⟩
  · simp [taken] at received

theorem receiveError?_cases {value : E} (received : pool.receiveError? = some (value, after)) :
    ∃ item rest, pool.errors.receiver = .taken ∧ pool.errors.queue = item :: rest ∧
      value = item.2 ∧ after = { pool with errors := { pool.errors with
        queue := rest, received := pool.errors.received ++ [item] } } := by
  unfold receiveError? Channel.receive? at received
  by_cases taken : pool.errors.receiver = .taken
  · rw [if_pos taken] at received
    cases front : pool.errors.queue with
    | nil => simp [front] at received
    | cons item rest =>
      simp only [front, Option.map_some, Option.some.injEq, Prod.mk.injEq] at received
      exact ⟨item, rest, taken, rfl, received.1.symm, received.2.symm⟩
  · simp [taken] at received

end Owner

namespace History

variable {history next : History P J R E}

theorem step_start (processor : P) : Step history (history.start processor) := by
  unfold start Pool.start
  by_cases settled : history.pool.started = true ∨ history.pool.phase = .closed
  · simpa [settled] using Step.unchanged history
  · have fresh : history.pool.started = false := by
      simpa using fun started => settled (.inl started)
    have notClosed : history.pool.phase ≠ .closed := fun closed => settled (.inr closed)
    have step := Step.started processor fresh notClosed
    simpa [Pool.start, fresh, notClosed] using step

theorem step_submit {job : J} (happens : history.submit? job = some next) : Step history next := by
  unfold submit? Pool.submit at happens
  by_cases refusing : history.pool.phase ≠ .open
  · simp only [if_pos refusing, Option.some.injEq] at happens
    exact happens ▸ .unchanged history
  · by_cases cancelled : history.pool.cancelled = true
    · simp only [if_neg refusing, if_pos cancelled, Option.some.injEq] at happens
      exact happens ▸ .unchanged history
    · by_cases room : history.pool.jobs.length < history.pool.capacity
      · simp only [if_neg refusing, if_neg cancelled, if_pos room, Option.some.injEq] at happens
        exact happens ▸ .accepted job (Decidable.not_not.1 refusing) (by simpa using cancelled) room
      · simp only [if_neg refusing, if_neg cancelled, if_neg room, reduceCtorEq] at happens

theorem step_close : Step history { history with pool := history.pool.close } := by
  unfold Pool.close
  by_cases accepting : history.pool.phase = .open
  · simpa only [if_pos accepting] using Step.closing accepting
  · simpa only [if_neg accepting] using Step.unchanged history

theorem step_closed {pool : Pool J R E} (done : history.pool.closed? = some pool) :
    Step history { history with pool } := by
  obtain ⟨refusing, rest, rfl⟩ := closed?_cases done
  exact .closed refusing rest

theorem step_dropResults : Step history { history with pool := history.pool.dropResults } := by
  by_cases taken : history.pool.results.receiver = .taken
  · simpa only [Pool.dropResults, if_pos taken] using Step.droppedResults taken
  · simpa only [Pool.dropResults, if_neg taken] using Step.unchanged history

theorem step_dropErrors : Step history { history with pool := history.pool.dropErrors } := by
  by_cases taken : history.pool.errors.receiver = .taken
  · simpa only [Pool.dropErrors, if_pos taken] using Step.droppedErrors taken
  · simpa only [Pool.dropErrors, if_neg taken] using Step.unchanged history

theorem step_takeResults {pool : Pool J R E} (taken : history.pool.takeResults = some pool) :
    Step history { history with pool } := by
  unfold Pool.takeResults at taken
  by_cases kept : history.pool.results.receiver = .kept
  · rw [if_pos kept, Option.some.injEq] at taken
    exact taken ▸ .tookResults kept
  · simp only [if_neg kept, reduceCtorEq] at taken

theorem step_takeErrors {pool : Pool J R E} (taken : history.pool.takeErrors = some pool) :
    Step history { history with pool } := by
  unfold Pool.takeErrors at taken
  by_cases kept : history.pool.errors.receiver = .kept
  · rw [if_pos kept, Option.some.injEq] at taken
    exact taken ▸ .tookErrors kept
  · simp only [if_neg kept, reduceCtorEq] at taken

theorem step_receiveResult {value : R} {pool : Pool J R E}
    (received : history.pool.receiveResult? = some (value, pool)) :
    Step history { history with pool } := by
  obtain ⟨item, rest, taken, front, _, rfl⟩ := receiveResult?_cases received
  exact .receivedResult item rest taken front

theorem step_receiveError {value : E} {pool : Pool J R E}
    (received : history.pool.receiveError? = some (value, pool)) :
    Step history { history with pool } := by
  obtain ⟨item, rest, taken, front, _, rfl⟩ := receiveError?_cases received
  exact .receivedError item rest taken front

theorem step_proceed {worker : Nat} (happens : history.proceed? worker = some next) :
    Step history next := by
  unfold proceed? at happens
  obtain ⟨pool, proceeded, rfl⟩ := Option.map_eq_some_iff.1 happens
  obtain ⟨turn, ⟨calm, job, rest, front, rfl⟩ | ⟨reason, rfl⟩⟩ := proceed?_cases proceeded
  · have running := worker_set { history.pool with jobs := rest } turn (.running job)
    have step := Step.entered worker job rest turn calm front
    cases present : history.processor with
    | none => simpa [present, running] using step
    | some processor => simpa [present, running] using step
  · have stopped := worker_set history.pool turn .stopped
    have step := Step.retired worker turn reason
    cases present : history.processor with
    | none => simpa [present, stopped] using step
    | some processor => simpa [present, stopped] using step

theorem step_finish {worker : Nat} {outcome : Except E R}
    (happens : history.finish? worker outcome = some next) : Step history next := by
  unfold finish? at happens
  split at happens
  next job turn =>
    obtain ⟨pool, finished, rfl⟩ := Option.map_eq_some_iff.1 happens
    obtain ⟨other, same, offered⟩ := finish?_cases finished
    rw [turn, Option.some.injEq, Worker.running.injEq] at same
    subst same
    rcases offered with delivered | ⟨missed, rfl⟩
    · rw [delivered]
      obtain ⟨wanted, room, rfl⟩ | ⟨unwanted, rfl⟩ := deliver?_cases delivered
      · exact .sent worker job outcome turn wanted room
      · exact .refused worker job outcome turn unwanted
    · rw [missed]
      obtain ⟨wanted, full⟩ := deliver?_eq_none missed
      exact .deferred worker job outcome turn wanted (Nat.le_add_right_of_le full)
  next => cases happens

theorem step_defer {worker : Nat} {outcome : Except E R}
    (happens : history.defer? worker outcome = some next) : Step history next := by
  unfold defer? at happens
  split at happens
  next job turn =>
    obtain ⟨pool, deferred, rfl⟩ := Option.map_eq_some_iff.1 happens
    obtain ⟨other, same, wanted, full, rfl⟩ := defer?_cases deferred
    rw [turn, Option.some.injEq, Worker.running.injEq] at same
    subst same
    exact .deferred worker job outcome turn wanted full
  next => cases happens

theorem step_crash {worker : Nat} (happens : history.crash? worker = some next) :
    Step history next := by
  unfold crash? at happens
  split at happens
  next job turn =>
    obtain ⟨pool, crashed, rfl⟩ := Option.map_eq_some_iff.1 happens
    obtain ⟨other, same, rfl⟩ := crash?_cases crashed
    rw [turn, Option.some.injEq, Worker.running.injEq] at same
    subst same
    exact .crashed worker job turn
  next => cases happens

theorem step_release {worker : Nat} {pool : Pool J R E}
    (released : history.pool.release? worker = some pool) : Step history { history with pool } := by
  obtain ⟨job, outcome, turn, ⟨cancelled, rfl⟩ | ⟨calm, delivered⟩⟩ := release?_cases released
  · exact .abandoned worker job outcome turn cancelled
  · obtain ⟨wanted, room, rfl⟩ | ⟨unwanted, rfl⟩ := deliver?_cases delivered
    · exact .sentLate worker job outcome turn calm wanted room
    · exact .refusedLate worker job outcome turn calm unwanted

/-- Every event has one of the effects. -/
theorem step_of_after? {event : Event P J R E} (happens : history.after? event = some next) :
    Step history next := by
  cases event with
  | start processor => exact Option.some.inj happens ▸ step_start processor
  | submit job => exact step_submit happens
  | cancel => exact Option.some.inj happens ▸ .cancelled history
  | close => exact Option.some.inj happens ▸ step_close
  | closed =>
    obtain ⟨pool, done, rfl⟩ := Option.map_eq_some_iff.1 happens
    exact step_closed done
  | takeResults =>
    obtain ⟨pool, taken, rfl⟩ := Option.map_eq_some_iff.1 happens
    exact step_takeResults taken
  | takeErrors =>
    obtain ⟨pool, taken, rfl⟩ := Option.map_eq_some_iff.1 happens
    exact step_takeErrors taken
  | dropResults => exact Option.some.inj happens ▸ step_dropResults
  | dropErrors => exact Option.some.inj happens ▸ step_dropErrors
  | receiveResult =>
    obtain ⟨⟨value, pool⟩, received, rfl⟩ := Option.map_eq_some_iff.1 happens
    exact step_receiveResult received
  | receiveError =>
    obtain ⟨⟨value, pool⟩, received, rfl⟩ := Option.map_eq_some_iff.1 happens
    exact step_receiveError received
  | proceed worker => exact step_proceed happens
  | finish worker outcome => exact step_finish happens
  | defer worker outcome => exact step_defer happens
  | crash worker => exact step_crash happens
  | release worker =>
    obtain ⟨pool, released, rfl⟩ := Option.map_eq_some_iff.1 happens
    exact step_release released

/-- What holds of a fresh history and is kept by every effect holds of all histories. -/
theorem Reachable.invariant {size capacity : Nat} {holds : History P J R E → Prop}
    (first : holds (create size capacity))
    (kept : ∀ {before after : History P J R E}, Reachable size capacity before → holds before →
      Step before after → holds after)
    (reached : Reachable size capacity history) : holds history := by
  induction reached with
  | created => exact first
  | step before happens ih => exact kept before ih (step_of_after? happens)

theorem reachable_of_afterAll? {size capacity : Nat} (events : List (Event P J R E))
    (reached : Reachable size capacity history) (happen : history.afterAll? events = some next) :
    Reachable size capacity next := by
  induction events generalizing history with
  | nil => exact Option.some.inj happen ▸ reached
  | cons event rest ih =>
    obtain ⟨middle, first, later⟩ := Option.bind_eq_some_iff.1 happen
    exact ih (reached.step first) later

end History

end Pool

end LogCensus
