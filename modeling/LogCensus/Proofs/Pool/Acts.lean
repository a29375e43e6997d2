import LogCensus.Pool.Line
import LogCensus.Proofs.Pool.Steps
import Mathlib.Algebra.Order.Ring.Nat

/-!
What the turn of one worker does to its pool. A worker that wants a job looks at the queue; a worker
that has one acts on its outcome. `Look` and `Act` have one constructor for each effect, and each
effect leaves the pool with less work to do.
-/

namespace LogCensus

variable {J R E : Type}

def Worker.work : Worker J R E → Nat
  | .idle => 1
  | .running _ => 4
  | .holding _ _ => 3
  | .stopped => 0

@[simp] theorem Worker.work_idle : (.idle : Worker J R E).work = 1 := rfl

@[simp] theorem Worker.work_running (job : J) : (.running job : Worker J R E).work = 4 := rfl

@[simp] theorem Worker.work_holding (job : J) (outcome : Except E R) :
    (.holding job outcome : Worker J R E).work = 3 := rfl

@[simp] theorem Worker.work_stopped : (.stopped : Worker J R E).work = 0 := rfl

namespace Pool

/-- The most turns that are left: of the workers, and to receive what they hand on. -/
def work (pool : Pool J R E) : Nat :=
  4 * pool.jobs.length + (pool.workers.map Worker.work).sum + pool.results.queue.length +
    pool.errors.queue.length

/-- A worker that looks at the queue takes the first job, or stops. -/
inductive Look (pool : Pool J R E) (worker : Nat) : Pool J R E → Prop where
  | enters (job : J) (rest : List J) (turn : pool.workers[worker]? = some .idle)
      (calm : pool.cancelled = false) (front : pool.jobs = job :: rest) :
      Look pool worker ({ pool with jobs := rest }.setWorker worker (.running job))
  | retires (turn : pool.workers[worker]? = some .idle)
      (reason : pool.cancelled = true ∨ pool.jobs = [] ∧ pool.phase ≠ .open) :
      Look pool worker (pool.setWorker worker .stopped)

/-- A worker offers the outcome of its job: when its processing ends, or later, if it had to wait
for room and the pool is not cancelled. -/
def Offers (pool : Pool J R E) (worker : Nat) (job : J) (outcome : Except E R) : Prop :=
  pool.workers[worker]? = some (.running job) ∨
    pool.workers[worker]? = some (.holding job outcome) ∧ pool.cancelled = false

/-- A worker that has a job sends its outcome, waits with it, or stops without having sent it. -/
inductive Act (pool : Pool J R E) (worker : Nat) : Pool J R E → Prop where
  | sends (job : J) (outcome : Except E R) (turn : pool.Offers worker job outcome)
      (wanted : pool.receiverFor outcome ≠ .dropped)
      (room : pool.queuedFor outcome < pool.capacity) :
      Act pool worker ((pool.push job outcome).setWorker worker .idle)
  | waits (job : J) (outcome : Except E R) (turn : pool.workers[worker]? = some (.running job))
      (wanted : pool.receiverFor outcome ≠ .dropped)
      (full : pool.capacity ≤ pool.queuedFor outcome + pool.waitingFor outcome) :
      Act pool worker (pool.setWorker worker (.holding job outcome))
  | refused (job : J) (outcome : Except E R) (turn : pool.Offers worker job outcome)
      (unwanted : pool.receiverFor outcome = .dropped) :
      Act pool worker ((pool.lose job (.unwanted outcome)).setWorker worker .stopped)
  | crashes (job : J) (turn : pool.workers[worker]? = some (.running job)) :
      Act pool worker ((pool.lose job .crashed).setWorker worker .stopped)
  | abandons (job : J) (outcome : Except E R)
      (turn : pool.workers[worker]? = some (.holding job outcome))
      (cancelled : pool.cancelled = true) :
      Act pool worker ((pool.lose job (.cancelled outcome)).setWorker worker .stopped)

variable {pool after : Pool J R E} {worker other : Nat} {job : J} {outcome : Except E R}

theorem look_of_proceed? (proceeded : pool.proceed? worker = some after) :
    Look pool worker after := by
  obtain ⟨turn, ⟨calm, job, rest, front, rfl⟩ | ⟨reason, rfl⟩⟩ := proceed?_cases proceeded
  · exact .enters job rest turn calm front
  · exact .retires turn reason

theorem act_of_deliver? (turn : pool.Offers worker job outcome)
    (delivered : pool.deliver? worker job outcome = some after) : Act pool worker after := by
  obtain ⟨wanted, room, rfl⟩ | ⟨unwanted, rfl⟩ := deliver?_cases delivered
  · exact .sends job outcome turn wanted room
  · exact .refused job outcome turn unwanted

theorem act_of_finish? (finished : pool.finish? worker outcome = some after) :
    Act pool worker after := by
  obtain ⟨job, turn, delivered | ⟨missed, rfl⟩⟩ := finish?_cases finished
  · exact act_of_deliver? (.inl turn) delivered
  · obtain ⟨wanted, full⟩ := deliver?_eq_none missed
    exact .waits job outcome turn wanted (Nat.le_add_right_of_le full)

theorem act_of_defer? (deferred : pool.defer? worker outcome = some after) :
    Act pool worker after := by
  obtain ⟨job, turn, wanted, full, rfl⟩ := defer?_cases deferred
  exact .waits job outcome turn wanted full

theorem act_of_crash? (crashed : pool.crash? worker = some after) : Act pool worker after := by
  obtain ⟨job, turn, rfl⟩ := crash?_cases crashed
  exact .crashes job turn

theorem act_of_release? (released : pool.release? worker = some after) :
    Act pool worker after := by
  obtain ⟨job, outcome, turn, ⟨cancelled, rfl⟩ | ⟨calm, delivered⟩⟩ := release?_cases released
  · exact .abandons job outcome turn cancelled
  · exact act_of_deliver? (.inr ⟨turn, calm⟩) delivered

/-! ### When a worker has its turn -/

theorem finish?_of_room (turn : pool.workers[worker]? = some (.running job))
    (wanted : pool.receiverFor outcome ≠ .dropped)
    (room : pool.queuedFor outcome < pool.capacity) :
    pool.finish? worker outcome = some ((pool.push job outcome).setWorker worker .idle) := by
  unfold finish? deliver?
  rw [turn]
  simp only [if_neg wanted, if_pos room, Option.getD_some]

theorem finish?_of_full (turn : pool.workers[worker]? = some (.running job))
    (wanted : pool.receiverFor outcome ≠ .dropped)
    (full : pool.capacity ≤ pool.queuedFor outcome) :
    pool.finish? worker outcome = some (pool.setWorker worker (.holding job outcome)) := by
  unfold finish? deliver?
  rw [turn]
  simp only [if_neg wanted, if_neg (Nat.not_lt.2 full), Option.getD_none]

theorem finish?_isSome (turn : pool.workers[worker]? = some (.running job)) :
    (pool.finish? worker outcome).isSome := by
  unfold finish?
  rw [turn]
  rfl

theorem submit_accepted (accepted : pool.submit job = .accepted after) :
    pool.phase = .open ∧ pool.cancelled = false ∧ pool.jobs.length < pool.capacity ∧
      after = { pool with jobs := pool.jobs ++ [job] } := by
  unfold submit at accepted
  by_cases refusing : pool.phase ≠ .open
  · simp [if_pos refusing] at accepted
  · by_cases cancelled : pool.cancelled = true
    · simp [if_neg refusing, if_pos cancelled] at accepted
    · by_cases room : pool.jobs.length < pool.capacity
      · simp only [if_neg refusing, if_neg cancelled, if_pos room, Submission.accepted.injEq]
          at accepted
        exact ⟨Decidable.not_not.1 refusing, by simpa using cancelled, room, accepted.symm⟩
      · simp [if_neg refusing, if_neg cancelled, if_neg room] at accepted

theorem defer?_eq_none
    (room : pool.queuedFor outcome + pool.waitingFor outcome < pool.capacity) :
    pool.defer? worker outcome = none := by
  unfold defer?
  split
  next => rw [if_neg fun full => absurd full.2 (Nat.not_le.2 room)]
  next => rfl

theorem release?_of_cancelled (turn : pool.workers[worker]? = some (.holding job outcome))
    (cancelled : pool.cancelled = true) :
    pool.release? worker =
      some ((pool.lose job (.cancelled outcome)).setWorker worker .stopped) := by
  unfold release?
  rw [turn]
  exact if_pos cancelled

/-! ### Which worker changes -/

theorem wantsJob_iff : pool.wantsJob worker = true ↔ pool.workers[worker]? = some .idle := by
  unfold wantsJob
  split
  next turn => simp [turn]
  next busy => simpa using busy

theorem Look.wantsJob (look : Look pool worker after) : pool.wantsJob worker = true := by
  cases look with
  | enters job rest turn | retires turn => exact wantsJob_iff.2 turn

theorem Look.set (look : Look pool worker after) :
    ∃ new, new ≠ .idle ∧ after.workers = pool.workers.set worker new := by
  cases look with
  | enters job => exact ⟨.running job, by simp, rfl⟩
  | retires => exact ⟨.stopped, by simp, rfl⟩

theorem Offers.not_wantsJob (turn : pool.Offers worker job outcome) :
    pool.wantsJob worker = false := by
  rw [Bool.eq_false_iff, Ne, wantsJob_iff]
  rcases turn with running | ⟨holding, _⟩
  · simp [running]
  · simp [holding]

theorem Act.not_wantsJob (act : Act pool worker after) : pool.wantsJob worker = false := by
  cases act with
  | sends job outcome turn | refused job outcome turn => exact turn.not_wantsJob
  | waits job outcome turn | crashes job turn | abandons job outcome turn =>
    rw [Bool.eq_false_iff, Ne, wantsJob_iff, turn]
    simp

theorem Act.set (act : Act pool worker after) :
    ∃ new, (∀ job, new ≠ .running job) ∧ after.workers = pool.workers.set worker new := by
  cases act with
  | sends => exact ⟨.idle, by simp, rfl⟩
  | waits job outcome => exact ⟨.holding job outcome, by simp, rfl⟩
  | refused | crashes | abandons => exact ⟨.stopped, by simp, rfl⟩

theorem wantsJob_set_of_ne {new : Worker J R E}
    (changed : after.workers = pool.workers.set worker new)
    (apart : worker ≠ other) : after.wantsJob other = pool.wantsJob other := by
  unfold Pool.wantsJob
  rw [changed, List.getElem?_set_ne apart]

/-- Any worker that wants a job can go on once the pool is cancelled or closing or has a job. -/
theorem isSome_proceed?_iff (idle : pool.wantsJob worker = true) :
    (pool.proceed? worker).isSome ↔
      pool.cancelled = true ∨ pool.jobs ≠ [] ∨ pool.phase ≠ .open := by
  unfold proceed?
  rw [wantsJob_iff.1 idle]
  by_cases cancelled : pool.cancelled = true
  · simp [cancelled]
  · cases front : pool.jobs with
    | cons job rest => simp [cancelled]
    | nil => by_cases accepting : pool.phase = .open <;> simp [cancelled, accepting]

/-- A worker that looks wants no job any more, and nobody else is concerned. -/
theorem Look.wantsJob_iff (look : Look pool worker after) :
    after.wantsJob other = true ↔ pool.wantsJob other = true ∧ other ≠ worker := by
  obtain ⟨new, busy, changed⟩ := look.set
  by_cases same : other = worker
  · subst same
    rw [Pool.wantsJob_iff, changed]
    refine ⟨fun idle => ?_, fun apart => absurd rfl apart.2⟩
    obtain ⟨bound, _⟩ := List.getElem?_eq_some_iff.1 idle
    rw [List.length_set] at bound
    rw [List.getElem?_set_self bound, Option.some.injEq] at idle
    exact absurd idle busy
  · rw [wantsJob_set_of_ne changed (Ne.symm same)]
    simp [same]

/-- Who wants a job goes on wanting it while another worker acts. -/
theorem Act.wantsJob_of (act : Act pool worker after) (idle : pool.wantsJob other = true) :
    after.wantsJob other = true := by
  obtain ⟨new, _, changed⟩ := act.set
  have apart : worker ≠ other := by
    rintro rfl
    simp [act.not_wantsJob] at idle
  rw [wantsJob_set_of_ne changed apart]
  exact idle

theorem Act.wantsJob_or (act : Act pool worker after) (idle : after.wantsJob other = true) :
    pool.wantsJob other = true ∨ other = worker := by
  obtain ⟨new, _, changed⟩ := act.set
  by_cases same : other = worker
  · exact .inr same
  · rw [wantsJob_set_of_ne changed (Ne.symm same)] at idle
    exact .inl idle

/-! ### How much work is left -/

theorem sum_map_set {α : Type} {items : List α} {index : Nat} {old : α}
    (present : items[index]? = some old) (new : α) (weight : α → Nat) :
    ((items.set index new).map weight).sum + weight old =
      (items.map weight).sum + weight new := by
  induction items generalizing index with
  | nil => simp at present
  | cons head rest ih =>
    cases index with
    | zero =>
      simp only [List.getElem?_cons_zero, Option.some.injEq] at present
      subst present
      simp only [List.set_cons_zero, List.map_cons, List.sum_cons]
      omega
    | succ index =>
      have later := ih (by simpa using present)
      simp only [List.set_cons_succ, List.map_cons, List.sum_cons]
      omega

theorem work_push (pool : Pool J R E) (job : J) (outcome : Except E R) :
    (pool.push job outcome).work = pool.work + 1 := by
  cases outcome with
  | ok value =>
    simp only [work, push, Channel.push, List.length_append, List.length_singleton]
    omega
  | error value =>
    simp only [work, push, Channel.push, List.length_append, List.length_singleton]
    omega

theorem work_le_of_queues (pool : Pool J R E) {results : Channel J R} {errors : Channel J E}
    (fewer : results.queue.length ≤ pool.results.queue.length)
    (less : errors.queue.length ≤ pool.errors.queue.length) :
    { pool with results, errors }.work ≤ pool.work := by
  simp only [work]
  omega

theorem work_lose (pool : Pool J R E) (job : J) (loss : Loss R E) :
    (pool.lose job loss).work = pool.work := rfl

theorem work_setWorker (pool : Pool J R E) {old : Worker J R E}
    (turn : pool.workers[worker]? = some old)
    (new : Worker J R E) : (pool.setWorker worker new).work + old.work = pool.work + new.work := by
  have moved := sum_map_set turn new Worker.work
  simp only [work, setWorker]
  omega

theorem Look.work_lt (look : Look pool worker after) : after.work < pool.work := by
  cases look with
  | enters job rest turn calm front =>
    have moved := work_setWorker { pool with jobs := rest } turn (.running job)
    have taken : pool.work = { pool with jobs := rest }.work + 4 := by
      simp only [work, front, List.length_cons]
      omega
    simp only [Worker.work_idle, Worker.work_running] at moved
    omega
  | retires turn =>
    have moved := work_setWorker pool turn .stopped
    simp only [Worker.work_idle, Worker.work_stopped] at moved
    omega

/-- A worker with an outcome to offer has work for three turns at least. -/
theorem Offers.exists_worker (turn : pool.Offers worker job outcome) :
    ∃ old, pool.workers[worker]? = some old ∧ 3 ≤ old.work := by
  rcases turn with running | ⟨holding, _⟩
  · exact ⟨_, running, by simp⟩
  · exact ⟨_, holding, by simp⟩

theorem Act.exists_worker (act : Act pool worker after) :
    ∃ old, pool.workers[worker]? = some old ∧ old ≠ .stopped := by
  cases act with
  | sends job outcome turn | refused job outcome turn =>
    obtain ⟨old, present, heavy⟩ := turn.exists_worker
    refine ⟨old, present, ?_⟩
    rintro rfl
    simp at heavy
  | waits job outcome turn | crashes job turn | abandons job outcome turn =>
    exact ⟨_, turn, by simp⟩

theorem Act.work_lt (act : Act pool worker after) : after.work < pool.work := by
  cases act with
  | sends job outcome turn =>
    obtain ⟨old, present, heavy⟩ := turn.exists_worker
    have moved := work_setWorker (pool.push job outcome) present .idle
    rw [work_push] at moved
    simp only [Worker.work_idle] at moved
    omega
  | waits job outcome turn =>
    have moved := work_setWorker pool turn (.holding job outcome)
    simp only [Worker.work_running, Worker.work_holding] at moved
    omega
  | refused job outcome turn =>
    obtain ⟨old, present, heavy⟩ := turn.exists_worker
    have moved := work_setWorker (pool.lose job (.unwanted outcome)) present .stopped
    rw [work_lose] at moved
    simp only [Worker.work_stopped] at moved
    omega
  | crashes job turn =>
    have moved := work_setWorker (pool.lose job .crashed) turn .stopped
    rw [work_lose] at moved
    simp only [Worker.work_running, Worker.work_stopped] at moved
    omega
  | abandons job outcome turn =>
    have moved := work_setWorker (pool.lose job (.cancelled outcome)) turn .stopped
    rw [work_lose] at moved
    simp only [Worker.work_holding, Worker.work_stopped] at moved
    omega

end Pool

end LogCensus
