import LogCensus.Analysis.Run
import LogCensus.Proofs.Pool.Steps

/-!
A run of an analysis is followed by a history of its pool: each turn is one event there, or changes
nothing. What the history knows of the pool's jobs is then known of the files of the run.
-/

namespace LogCensus

namespace Pool

variable {J R E : Type} {pool after : Pool J R E} {worker : Nat} {job : J} {outcome : Except E R}

structure Desk (J R E : Type) where
  started : Bool
  cancelled : Bool
  phase : Phase
  results : Receiver
  errors : Receiver
  receivedResults : List (J × R)
  receivedErrors : List (J × E)

def desk (pool : Pool J R E) : Desk J R E where
  started := pool.started
  cancelled := pool.cancelled
  phase := pool.phase
  results := pool.results.receiver
  errors := pool.errors.receiver
  receivedResults := pool.results.received
  receivedErrors := pool.errors.received

theorem desk_setWorker (pool : Pool J R E) (state : Worker J R E) :
    (pool.setWorker worker state).desk = pool.desk := rfl

theorem desk_push (pool : Pool J R E) : (pool.push job outcome).desk = pool.desk := by
  cases outcome <;> rfl

theorem desk_proceed? (proceeded : pool.proceed? worker = some after) : after.desk = pool.desk := by
  obtain ⟨_, ⟨_, job, rest, _, rfl⟩ | ⟨_, rfl⟩⟩ := proceed?_cases proceeded
  · rfl
  · rfl

theorem desk_deliver? (delivered : pool.deliver? worker job outcome = some after) :
    after.desk = pool.desk := by
  obtain ⟨_, _, rfl⟩ | ⟨_, rfl⟩ := deliver?_cases delivered
  · rw [desk_setWorker, desk_push]
  · rfl

theorem desk_finish? (finished : pool.finish? worker outcome = some after) :
    after.desk = pool.desk := by
  obtain ⟨job, _, delivered | ⟨_, rfl⟩⟩ := finish?_cases finished
  · exact desk_deliver? delivered
  · rfl

theorem desk_defer? (deferred : pool.defer? worker outcome = some after) :
    after.desk = pool.desk := by
  obtain ⟨job, _, _, _, rfl⟩ := defer?_cases deferred
  rfl

theorem desk_release? (released : pool.release? worker = some after) : after.desk = pool.desk := by
  obtain ⟨job, outcome, _, ⟨_, rfl⟩ | ⟨_, delivered⟩⟩ := release?_cases released
  · rfl
  · exact desk_deliver? delivered

end Pool

namespace Pool.History

variable {P J R E : Type} {history : History P J R E} {pool : Pool J R E} {worker : Nat} {job : J}
  {outcome : Except E R}

theorem proceed?_of_pool (proceeded : history.pool.proceed? worker = some pool) :
    ∃ entered, history.proceed? worker = some { history with pool, entered } := by
  unfold proceed?
  rw [proceeded, Option.map_some]
  split
  next processor job _ _ => exact ⟨history.entered ++ [(processor, job)], rfl⟩
  next => exact ⟨history.entered, rfl⟩

theorem finish?_of_pool (turn : history.pool.workers[worker]? = some (.running job))
    (finished : history.pool.finish? worker outcome = some pool) :
    ∃ deferred, history.finish? worker outcome = some { history with
      pool, returned := history.returned ++ [(job, outcome)], deferred } := by
  unfold finish?
  simp only [turn, finished, Option.map_some]
  exact ⟨_, rfl⟩

theorem defer?_of_pool (turn : history.pool.workers[worker]? = some (.running job))
    (deferred : history.pool.defer? worker outcome = some pool) :
    history.defer? worker outcome = some { history with
      pool
      returned := history.returned ++ [(job, outcome)]
      deferred := history.deferred ++ [(job, outcome)] } := by
  unfold defer?
  simp only [turn, deferred, Option.map_some]

end Pool.History

namespace Analysis.Run

open Pool (History)

variable {subject : Subject} {workers capacity : Nat} {paths : List Path} {run next : Run}
  {history : History Unit Path Tally Failure}

def outcomes (subject : Subject) (run : Run) : List (Path × Except Failure Tally) :=
  run.inspected.map fun inspection => (inspection.1, outcomeOf subject inspection.2 inspection.1)

structure Follows (subject : Subject) (paths : List Path) (run : Run)
    (history : History Unit Path Tally Failure) : Prop where
  pool : history.pool = run.pool
  returned : history.returned = outcomes subject run
  unbroken : history.crashed = []
  started : run.pool.started = true
  results : run.pool.results.receiver = .taken
  errors : run.pool.errors.receiver = .taken
  tallies : run.gathered.tallies = run.pool.results.received.map Prod.snd
  failures : run.gathered.failures = run.pool.errors.received.map Prod.snd
  /-- Files are given up only after a cancellation. -/
  submitted : run.pool.cancelled = false → history.accepted ++ run.waiting = paths
  refusing : run.pool.phase ≠ .open → run.waiting = []
  asked : (history.accepted ++ run.waiting).Sublist paths
  unseen : run.pool.cancelled = false → ∀ inspection ∈ run.inspected, inspection.2 = none

theorem follows_begin (subject : Subject) (workers capacity : Nat) (paths : List Path) :
    ∃ history, History.Reachable workers capacity history ∧
      Follows subject paths (begin workers capacity paths) history := by
  refine ⟨{ pool := freshPool workers capacity, processor := some () }, ?_, ?_⟩
  · exact History.reachable_of_afterAll? [.takeResults, .takeErrors, .start ()] .created rfl
  · exact ⟨rfl, rfl, rfl, rfl, rfl, rfl, rfl, rfl, fun _ => rfl, fun closed => absurd rfl closed,
      List.Sublist.refl paths, fun _ _ member => nomatch member⟩

theorem Follows.worked (follows : Follows subject paths run history)
    {pool : Pool Path Tally Failure} {inspected : List (Path × Option Nat)} {later : History Unit Path Tally Failure}
    (desk : pool.desk = run.pool.desk) (kept : later.pool = pool)
    (accepted : later.accepted = history.accepted) (unbroken : later.crashed = history.crashed)
    (returned : later.returned = outcomes subject { run with pool, inspected })
    (unseen : run.pool.cancelled = false → ∀ inspection ∈ inspected, inspection.2 = none) :
    Follows subject paths { run with pool, inspected } later := by
  have started : pool.started = run.pool.started := congrArg Pool.Desk.started desk
  have cancelled : pool.cancelled = run.pool.cancelled := congrArg Pool.Desk.cancelled desk
  have phase : pool.phase = run.pool.phase := congrArg Pool.Desk.phase desk
  have results : pool.results.receiver = run.pool.results.receiver :=
    congrArg Pool.Desk.results desk
  have errors : pool.errors.receiver = run.pool.errors.receiver :=
    congrArg Pool.Desk.errors desk
  have tallies : pool.results.received = run.pool.results.received :=
    congrArg Pool.Desk.receivedResults desk
  have failures : pool.errors.received = run.pool.errors.received :=
    congrArg Pool.Desk.receivedErrors desk
  refine ⟨kept, returned, unbroken.trans follows.unbroken, started.trans follows.started,
    results.trans follows.results, errors.trans follows.errors, ?_, ?_, ?_, ?_, ?_, ?_⟩
  · exact tallies ▸ follows.tallies
  · exact failures ▸ follows.failures
  · intro calm
    rw [accepted]
    exact follows.submitted (cancelled ▸ calm)
  · intro closed
    exact follows.refusing (phase ▸ closed)
  · rw [accepted]
    exact follows.asked
  · intro calm
    exact unseen (cancelled ▸ calm)

theorem isOver_iff : run.isOver = true ↔ run.pool.phase = .closed ∧
    run.pool.results.queue = [] ∧ run.pool.errors.queue = [] := by
  rw [isOver, Bool.and_eq_true, Bool.and_eq_true, decide_eq_true_eq, List.isEmpty_iff,
    List.isEmpty_iff, and_assoc]

theorem endInspection?_cases {worker : Nat} {seenAfter : Option Nat}
    {offer? : Except Failure Tally → Option (Pool Path Tally Failure)}
    (ended : run.endInspection? subject worker seenAfter offer? = some next) :
    ∃ path pool, run.pool.workers[worker]? = some (.running path) ∧
      (run.pool.cancelled = false → seenAfter = none) ∧
      offer? (outcomeOf subject seenAfter path) = some pool ∧
      next = { run with pool, inspected := run.inspected ++ [(path, seenAfter)] } := by
  unfold endInspection? at ended
  split at ended
  next path turn =>
    by_cases early : (seenAfter.isSome && !run.pool.cancelled) = true
    · simp only [if_pos early, reduceCtorEq] at ended
    · rw [if_neg early] at ended
      obtain ⟨pool, offered, rfl⟩ := Option.map_eq_some_iff.1 ended
      refine ⟨path, pool, turn, ?_, offered, rfl⟩
      intro calm
      simpa [calm] using early
  next => cases ended

theorem Follows.inspected (follows : Follows subject paths run history)
    {pool : Pool Path Tally Failure} {later : History Unit Path Tally Failure} {path : Path} {seenAfter : Option Nat}
    (desk : pool.desk = run.pool.desk) (kept : later.pool = pool)
    (accepted : later.accepted = history.accepted) (unbroken : later.crashed = history.crashed)
    (returned : later.returned = history.returned ++ [(path, outcomeOf subject seenAfter path)])
    (unseen : run.pool.cancelled = false → seenAfter = none) :
    Follows subject paths
      { run with pool, inspected := run.inspected ++ [(path, seenAfter)] } later := by
  apply follows.worked desk kept accepted unbroken
  · rw [returned, follows.returned]
    unfold outcomes
    rw [List.map_append, List.map_singleton]
  · intro calm inspection member
    rcases List.mem_append.1 member with before | last
    · exact follows.unseen calm inspection before
    · rw [List.mem_singleton] at last
      rw [last]
      exact unseen calm

theorem Follows.submit (follows : Follows subject paths run history)
    (taken : run.submit? = some next) :
    ∃ path later, history.submit? path = some later ∧ Follows subject paths next later := by
  unfold submit? at taken
  cases waiting : run.waiting with
  | nil => simp [waiting] at taken
  | cons path rest =>
    simp only [waiting] at taken
    refine ⟨path, ?_⟩
    unfold History.submit?
    rw [follows.pool]
    unfold Pool.submit at taken ⊢
    -- The submitter closes the pool only when nothing waits, so it is still open here.
    by_cases refusing : run.pool.phase ≠ .open
    · have none := follows.refusing refusing
      simp [waiting] at none
    · by_cases cancelled : run.pool.cancelled = true
      · simp only [if_neg refusing, if_pos cancelled, Option.some.injEq] at taken ⊢
        refine ⟨history, rfl, ?_⟩
        subst taken
        exact { follows with
          submitted := fun calm => absurd (cancelled.symm.trans calm) (by decide)
          refusing := fun _ => rfl
          asked := by
            rw [List.append_nil]
            exact (List.sublist_append_left _ _).trans follows.asked }
      · by_cases room : run.pool.jobs.length < run.pool.capacity
        · simp only [if_neg refusing, if_neg cancelled, if_pos room, Option.some.injEq] at taken ⊢
          refine ⟨_, rfl, ?_⟩
          subst taken
          exact { follows with
            pool := rfl
            submitted := fun calm => by
              rw [List.append_assoc, List.singleton_append, ← waiting]
              exact follows.submitted calm
            refusing := fun closed => absurd closed refusing
            asked := by
              rw [List.append_assoc, List.singleton_append, ← waiting]
              exact follows.asked }
        · simp [if_neg refusing, if_neg cancelled, if_neg room] at taken

theorem Follows.turn {turn : Turn} (follows : Follows subject paths run history)
    (taken : run.after? subject turn = some next) :
    ∃ event later, history.after? event = some later ∧ Follows subject paths next later := by
  cases turn with
  | submit =>
    obtain ⟨path, later, happened, kept⟩ := follows.submit taken
    exact ⟨.submit path, later, happened, kept⟩
  | close =>
    by_cases ready : (run.waiting.isEmpty && run.pool.phase = .open) = true
    · simp only [after?, if_pos ready, Option.some.injEq] at taken
      subst taken
      simp only [Bool.and_eq_true, List.isEmpty_iff, decide_eq_true_eq] at ready
      obtain ⟨done, accepting⟩ := ready
      refine ⟨.close, { history with pool := history.pool.close }, rfl, ?_⟩
      unfold Pool.close
      rw [follows.pool, if_pos accepting]
      exact { follows with pool := rfl, refusing := fun _ => done }
    · simp only [after?, if_neg ready, reduceCtorEq] at taken
  | closed =>
    by_cases closing : run.pool.phase = .closing
    · simp only [after?, if_pos closing] at taken
      obtain ⟨pool, done, rfl⟩ := Option.map_eq_some_iff.1 taken
      refine ⟨.closed, { history with pool }, ?_, ?_⟩
      · change history.pool.closed?.map _ = _
        rw [follows.pool, done]
        rfl
      · obtain ⟨refusing, _, rfl⟩ := Pool.closed?_cases done
        exact { follows with pool := rfl, refusing := fun _ => follows.refusing refusing }
    · simp only [after?, if_neg closing, reduceCtorEq] at taken
  | cancel =>
    by_cases cancelled : run.pool.cancelled = true
    · simp only [after?, if_pos cancelled, reduceCtorEq] at taken
    · simp only [after?, if_neg cancelled, Option.some.injEq] at taken
      subst taken
      refine ⟨.cancel, { history with pool := history.pool.cancel }, rfl, ?_⟩
      exact { follows with
        pool := by rw [follows.pool]
        submitted := fun calm => nomatch calm
        unseen := fun calm => nomatch calm }
  | proceed worker =>
    obtain ⟨pool, proceeded, rfl⟩ := Option.map_eq_some_iff.1 taken
    have desk := Pool.desk_proceed? proceeded
    rw [← follows.pool] at proceeded
    obtain ⟨entered, happened⟩ := History.proceed?_of_pool proceeded
    exact ⟨.proceed worker, _, happened,
      follows.worked desk rfl rfl rfl follows.returned follows.unseen⟩
  | finish worker seenAfter =>
    obtain ⟨path, pool, running, unseen, finished, rfl⟩ := endInspection?_cases taken
    have desk := Pool.desk_finish? finished
    rw [← follows.pool] at running finished
    obtain ⟨deferred, happened⟩ := History.finish?_of_pool running finished
    exact ⟨.finish worker _, _, happened, follows.inspected desk rfl rfl rfl rfl unseen⟩
  | defer worker seenAfter =>
    obtain ⟨path, pool, running, unseen, deferred, rfl⟩ := endInspection?_cases taken
    have desk := Pool.desk_defer? deferred
    rw [← follows.pool] at running deferred
    have happened := History.defer?_of_pool running deferred
    exact ⟨.defer worker _, _, happened, follows.inspected desk rfl rfl rfl rfl unseen⟩
  | release worker =>
    obtain ⟨pool, released, rfl⟩ := Option.map_eq_some_iff.1 taken
    have desk := Pool.desk_release? released
    refine ⟨.release worker, { history with pool }, ?_, ?_⟩
    · change (history.pool.release? worker).map _ = _
      rw [follows.pool, released]
      rfl
    · exact follows.worked desk rfl rfl rfl follows.returned follows.unseen
  | gatherTally =>
    obtain ⟨⟨tally, pool⟩, received, rfl⟩ := Option.map_eq_some_iff.1 taken
    refine ⟨.receiveResult, { history with pool }, ?_, ?_⟩
    · change history.pool.receiveResult?.map _ = _
      rw [follows.pool, received]
      rfl
    · obtain ⟨item, rest, _, _, rfl, rfl⟩ := Pool.receiveResult?_cases received
      exact { follows with
        pool := rfl
        tallies := by
          rw [List.map_append, ← follows.tallies]
          rfl }
  | gatherFailure =>
    obtain ⟨⟨failure, pool⟩, received, rfl⟩ := Option.map_eq_some_iff.1 taken
    refine ⟨.receiveError, { history with pool }, ?_, ?_⟩
    · change history.pool.receiveError?.map _ = _
      rw [follows.pool, received]
      rfl
    · obtain ⟨item, rest, _, _, rfl, rfl⟩ := Pool.receiveError?_cases received
      exact { follows with
        pool := rfl
        failures := by
          rw [List.map_append, ← follows.failures]
          rfl }

/-- Every run is followed by a history of its pool. -/
theorem exists_follows (reached : Reachable subject workers capacity paths run) :
    ∃ history, History.Reachable workers capacity history ∧ Follows subject paths run history := by
  induction reached with
  | begun => exact follows_begin subject workers capacity paths
  | turn _ taken ih =>
    obtain ⟨history, before, follows⟩ := ih
    obtain ⟨event, later, happened, kept⟩ := follows.turn taken
    exact ⟨later, before.step happened, kept⟩

theorem reachable_of_afterAll? (turns : List Turn)
    (reached : Reachable subject workers capacity paths run)
    (taken : run.afterAll? subject turns = some next) :
    Reachable subject workers capacity paths next := by
  induction turns generalizing run with
  | nil => exact Option.some.inj taken ▸ reached
  | cons turn rest ih =>
    obtain ⟨middle, first, later⟩ := Option.bind_eq_some_iff.1 taken
    exact ih (reached.turn first) later

end Analysis.Run

end LogCensus
