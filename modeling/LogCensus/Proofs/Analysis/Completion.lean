import LogCensus.Proofs.Analysis.Schedule
import LogCensus.Proofs.Pool.Bounds

/-!
An analysis always comes to an end. Submitter, workers and gatherer wait for one another, but never
all of them at once: while the queues of outcomes hold something, it can be gathered; when they are
empty, each worker that has an outcome can hand it on; and when no worker has one, files can be
submitted or taken, or the pool can be closed. Every move brings the end nearer.
-/

namespace LogCensus

def Phase.stepsLeft : Phase → Nat
  | .open => 2
  | .closing => 1
  | .closed => 0

namespace Analysis.Run

open Pool (Lined)

variable {subject : Subject} {workers capacity : Nat} {paths : List Path} {run next : Run}
  {turn : Turn}

/-- The most turns that are left: a file needs one to be submitted and four from then on. -/
def stepsLeft (run : Run) : Nat :=
  5 * run.waiting.length + run.pool.work + run.pool.phase.stepsLeft +
    if run.pool.cancelled then 0 else 1

structure Worked (run next : Run) : Prop where
  waiting : next.waiting = run.waiting
  desk : next.pool.desk = run.pool.desk

theorem Worked.stepsLeft_lt (worked : Worked run next) (less : next.pool.work < run.pool.work) :
    next.stepsLeft < run.stepsLeft := by
  have phase : next.pool.phase = run.pool.phase := congrArg Pool.Desk.phase worked.desk
  have cancelled : next.pool.cancelled = run.pool.cancelled :=
    congrArg Pool.Desk.cancelled worked.desk
  unfold stepsLeft
  rw [worked.waiting, phase, cancelled]
  omega

theorem submit?_cases (taken : run.submit? = some next) :
    next.pool.workers = run.pool.workers ∧ next.pool.lost = run.pool.lost ∧
      next.stepsLeft < run.stepsLeft := by
  unfold submit? at taken
  split at taken
  next => cases taken
  next path rest waiting =>
    split at taken
    next pool accepted =>
      obtain ⟨_, _, _, rfl⟩ := Pool.submit_accepted accepted
      rw [Option.some.injEq] at taken
      subst taken
      refine ⟨rfl, rfl, ?_⟩
      simp only [stepsLeft, Pool.work, waiting, List.length_append, List.length_cons,
        List.length_nil]
      omega
    next =>
      rw [Option.some.injEq] at taken
      subst taken
      refine ⟨rfl, rfl, ?_⟩
      simp only [stepsLeft, waiting, List.length_cons, List.length_nil]
      omega
    next => cases taken

/-- A turn is a look or an act of a worker, or brings the others nearer to the end. Nothing is lost
by the others. -/
theorem turn_cases (taken : run.after? subject turn = some next) :
    (∃ worker, turn = .proceed worker ∧ run.pool.Look worker next.pool ∧ Worked run next) ∨
    (∃ worker, looks turn = false ∧ worker? turn = some worker ∧
      run.pool.Act worker next.pool ∧ Worked run next) ∨
    worker? turn = none ∧ next.pool.workers = run.pool.workers ∧
      next.pool.lost = run.pool.lost ∧ next.stepsLeft < run.stepsLeft := by
  cases turn with
  | submit => exact .inr (.inr ⟨rfl, submit?_cases taken⟩)
  | close =>
    simp only [after?] at taken
    split at taken
    next ready =>
      rw [Option.some.injEq] at taken
      subst taken
      rw [Bool.and_eq_true, decide_eq_true_eq] at ready
      refine .inr (.inr ⟨rfl, ?_⟩)
      unfold Pool.close
      rw [if_pos ready.2]
      refine ⟨rfl, rfl, ?_⟩
      simp only [stepsLeft, Pool.work, ready.2, Phase.stepsLeft]
      omega
    next => cases taken
  | closed =>
    simp only [after?] at taken
    split at taken
    next closing =>
      obtain ⟨pool, done, rfl⟩ := Option.map_eq_some_iff.1 taken
      obtain ⟨_, _, rfl⟩ := Pool.closed?_cases done
      refine .inr (.inr ⟨rfl, rfl, rfl, ?_⟩)
      simp only [stepsLeft, Pool.work, closing, Phase.stepsLeft]
      omega
    next => cases taken
  | cancel =>
    simp only [after?] at taken
    split at taken
    next => cases taken
    next calm =>
      rw [Option.some.injEq] at taken
      subst taken
      refine .inr (.inr ⟨rfl, rfl, rfl, ?_⟩)
      simp only [stepsLeft, Pool.cancel, Pool.work, if_neg calm, if_true]
      omega
  | proceed worker =>
    obtain ⟨pool, proceeded, rfl⟩ := Option.map_eq_some_iff.1 taken
    exact .inl ⟨worker, rfl, Pool.look_of_proceed? proceeded, rfl, Pool.desk_proceed? proceeded⟩
  | finish worker seenAfter =>
    obtain ⟨path, pool, _, _, finished, rfl⟩ := endInspection?_cases taken
    exact .inr (.inl ⟨worker, rfl, rfl, Pool.act_of_finish? finished, rfl,
      Pool.desk_finish? finished⟩)
  | defer worker seenAfter =>
    obtain ⟨path, pool, _, _, deferred, rfl⟩ := endInspection?_cases taken
    exact .inr (.inl ⟨worker, rfl, rfl, Pool.act_of_defer? deferred, rfl,
      Pool.desk_defer? deferred⟩)
  | release worker =>
    obtain ⟨pool, released, rfl⟩ := Option.map_eq_some_iff.1 taken
    exact .inr (.inl ⟨worker, rfl, rfl, Pool.act_of_release? released, rfl,
      Pool.desk_release? released⟩)
  | gatherTally =>
    obtain ⟨⟨tally, pool⟩, received, rfl⟩ := Option.map_eq_some_iff.1 taken
    obtain ⟨item, rest, _, front, rfl, rfl⟩ := Pool.receiveResult?_cases received
    refine .inr (.inr ⟨rfl, rfl, rfl, ?_⟩)
    simp only [stepsLeft, Pool.work, front, List.length_cons]
    omega
  | gatherFailure =>
    obtain ⟨⟨failure, pool⟩, received, rfl⟩ := Option.map_eq_some_iff.1 taken
    obtain ⟨item, rest, _, front, rfl, rfl⟩ := Pool.receiveError?_cases received
    refine .inr (.inr ⟨rfl, rfl, rfl, ?_⟩)
    simp only [stepsLeft, Pool.work, front, List.length_cons]
    omega

theorem stepsLeft_lt (taken : run.after? subject turn = some next) :
    next.stepsLeft < run.stepsLeft := by
  rcases turn_cases taken with ⟨_, _, look, worked⟩ | ⟨_, _, _, act, worked⟩ | ⟨_, _, _, less⟩
  · exact worked.stepsLeft_lt look.work_lt
  · exact worked.stepsLeft_lt act.work_lt
  · exact less

/-! ### Whose turn it is -/

theorem isSome_submit (waiting : run.waiting ≠ [])
    (ready : run.pool.cancelled = true ∨ run.pool.jobs.length < run.pool.capacity) :
    (run.after? subject .submit).isSome := by
  obtain ⟨path, rest, shape⟩ := List.exists_cons_of_ne_nil waiting
  simp only [after?, submit?, shape]
  unfold Pool.submit
  by_cases refusing : run.pool.phase ≠ .open
  · simp [if_pos refusing]
  · by_cases cancelled : run.pool.cancelled = true
    · simp [if_neg refusing, if_pos cancelled]
    · have room := ready.resolve_left cancelled
      simp [if_neg refusing, if_neg cancelled, if_pos room]

theorem isSome_close (empty : run.waiting = []) (accepting : run.pool.phase = .open) :
    (run.after? subject .close).isSome := by
  simp [after?, empty, accepting]

theorem isSome_closed (closing : run.pool.phase = .closing) (still : run.pool.allStopped = true) :
    (run.after? subject .closed).isSome := by
  simp [after?, Pool.closed?, closing, still]

theorem isSome_proceed {worker : Nat} (idle : run.pool.workers[worker]? = some .idle)
    (reason : run.pool.cancelled = true ∨ run.pool.jobs ≠ [] ∨ run.pool.phase ≠ .open) :
    (run.after? subject (.proceed worker)).isSome := by
  simp only [after?, Option.isSome_map]
  exact (Pool.isSome_proceed?_iff (Pool.wantsJob_iff.2 idle)).2 reason

/-- An inspection may end without having seen a cancellation, whether there was one or not. -/
theorem isSome_finish {worker : Nat} {path : Path}
    (running : run.pool.workers[worker]? = some (.running path)) :
    (run.after? subject (.finish worker none)).isSome := by
  simp only [after?, endInspection?, running, Option.isSome_none, Bool.false_and,
    Bool.false_eq_true, if_false, Option.isSome_map]
  exact Pool.finish?_isSome running

theorem isSome_release {worker : Nat} {path : Path} {outcome : Except Failure Tally}
    (holding : run.pool.workers[worker]? = some (.holding path outcome))
    (room : run.pool.queuedFor outcome < run.pool.capacity) :
    (run.after? subject (.release worker)).isSome := by
  simp only [after?, Option.isSome_map]
  unfold Pool.release?
  rw [holding]
  dsimp only
  split
  next => rfl
  next =>
    unfold Pool.deliver?
    rw [if_pos room]
    split
    next => rfl
    next => rfl

theorem isSome_gatherTally (taken : run.pool.results.receiver = .taken)
    (waiting : run.pool.results.queue ≠ []) : (run.after? subject .gatherTally).isSome := by
  obtain ⟨item, rest, front⟩ := List.exists_cons_of_ne_nil waiting
  simp [after?, Pool.receiveResult?, taken, Channel.receive?, front]

theorem isSome_gatherFailure (taken : run.pool.errors.receiver = .taken)
    (waiting : run.pool.errors.queue ≠ []) : (run.after? subject .gatherFailure).isSome := by
  obtain ⟨item, rest, front⟩ := List.exists_cons_of_ne_nil waiting
  simp [after?, Pool.receiveError?, taken, Channel.receive?, front]

/-- All workers of an open pool can have stopped only because of a cancellation. -/
theorem cancelled_of_rest (staffed : 0 < workers)
    (reached : Reachable subject workers capacity paths run) (still : run.pool.allStopped = true)
    (accepting : run.pool.phase = .open) : run.pool.cancelled = true := by
  obtain ⟨history, before, follows⟩ := exists_follows reached
  have endings := Pool.Endings.of_reachable before
  have length := endings.staffed (follows.pool ▸ follows.started)
  obtain ⟨worker, member⟩ := List.exists_mem_of_length_pos (length ▸ staffed)
  rw [follows.pool] at member
  have stopped := Pool.eq_stopped_of_allStopped still member
  rcases endings.stopped (follows.pool ▸ stopped ▸ member) with disturbed | exhausted
  · exact follows.cancelled_of_disturbed disturbed
  · exact absurd (follows.pool ▸ accepting) exhausted.1

/-- While a worker has not stopped, and no outcome waits to be gathered, it or the submitter has a
turn. -/
theorem exists_turn_of_worker {worker : Nat} {state : Worker Path Tally Failure}
    (room : 0 < run.pool.capacity) (results : run.pool.results.queue = [])
    (errors : run.pool.errors.queue = []) (present : run.pool.workers[worker]? = some state)
    (awake : state ≠ .stopped) :
    ∃ turn, turn ≠ .cancel ∧ (run.after? subject turn).isSome := by
  cases state with
  | idle =>
    by_cases reason : run.pool.cancelled = true ∨ run.pool.jobs ≠ [] ∨ run.pool.phase ≠ .open
    · exact ⟨.proceed worker, nofun, isSome_proceed present reason⟩
    · rw [not_or, not_or, ne_eq, ne_eq, not_not, not_not] at reason
      obtain ⟨_, empty, accepting⟩ := reason
      by_cases waiting : run.waiting = []
      · exact ⟨.close, nofun, isSome_close waiting accepting⟩
      · exact ⟨.submit, nofun, isSome_submit waiting (.inr (by simpa [empty] using room))⟩
  | running path => exact ⟨.finish worker none, nofun, isSome_finish present⟩
  | holding path outcome =>
    have free : run.pool.queuedFor outcome < run.pool.capacity := by
      cases outcome with
      | ok tally => simpa [Pool.queuedFor, results] using room
      | error failure => simpa [Pool.queuedFor, errors] using room
    exact ⟨.release worker, nofun, isSome_release present free⟩
  | stopped => exact absurd rfl awake

/-- When all workers have stopped, the submitter has a turn until the pool is closed. -/
theorem exists_turn_of_rest (staffed : 0 < workers)
    (reached : Reachable subject workers capacity paths run) (still : run.pool.allStopped = true)
    (unclosed : run.pool.phase ≠ .closed) :
    ∃ turn, turn ≠ .cancel ∧ (run.after? subject turn).isSome := by
  cases phase : run.pool.phase with
  | «open» =>
    have cancelled := cancelled_of_rest staffed reached still phase
    by_cases waiting : run.waiting = []
    · exact ⟨.close, nofun, isSome_close waiting phase⟩
    · exact ⟨.submit, nofun, isSome_submit waiting (.inl cancelled)⟩
  | closing => exact ⟨.closed, nofun, isSome_closed phase still⟩
  | closed => exact absurd phase unclosed

/-- Until a run is over somebody has a turn. -/
theorem exists_turn (staffed : 0 < workers) (room : 0 < capacity)
    (reached : Reachable subject workers capacity paths run) (unfinished : run.isOver = false) :
    ∃ turn, turn ≠ .cancel ∧ (run.after? subject turn).isSome := by
  obtain ⟨history, before, follows⟩ := exists_follows reached
  have sized : run.pool.capacity = capacity := follows.pool ▸ (Pool.Kept.of_reachable before).sized
  by_cases results : run.pool.results.queue = []
  · by_cases errors : run.pool.errors.queue = []
    · by_cases still : run.pool.allStopped = true
      · refine exists_turn_of_rest staffed reached still fun closed => ?_
        rw [isOver_iff.2 ⟨closed, results, errors⟩] at unfinished
        cases unfinished
      · rw [Pool.allStopped, List.all_eq_true, not_forall] at still
        obtain ⟨state, awake⟩ := still
        obtain ⟨member, busy⟩ := Classical.not_imp.1 awake
        obtain ⟨worker, present⟩ := List.getElem?_of_mem member
        exact exists_turn_of_worker (sized ▸ room) results errors present fun stopped =>
          busy (stopped ▸ rfl)
    · exact ⟨.gatherFailure, nofun, isSome_gatherFailure follows.errors errors⟩
  · exact ⟨.gatherTally, nofun, isSome_gatherTally follows.results results⟩

/-- Nothing but a cancellation can happen to a run that is over. -/
theorem eq_cancel_of_isOver (reached : Reachable subject workers capacity paths run)
    (ended : run.isOver = true) (taken : run.after? subject turn = some next) : turn = .cancel := by
  obtain ⟨history, before, follows⟩ := exists_follows reached
  obtain ⟨closed, results, errors⟩ := isOver_iff.1 ended
  have still : run.pool.allStopped = true :=
    follows.pool ▸ (Pool.Endings.of_reachable before).rested (follows.pool ▸ closed)
  have nobody {worker : Nat} {state : Worker Path Tally Failure}
      (present : run.pool.workers[worker]? = some state) : state = .stopped :=
    Pool.eq_stopped_of_allStopped still (List.mem_of_getElem? present)
  rcases turn_cases taken with ⟨worker, _, look, _⟩ | ⟨worker, _, _, act, _⟩ | ⟨owner, _⟩
  · cases nobody (Pool.wantsJob_iff.1 look.wantsJob)
  · obtain ⟨state, present, awake⟩ := act.exists_worker
    exact absurd (nobody present) awake
  · cases turn with
    | cancel => rfl
    | submit => simp [after?, submit?, follows.refusing (by simp [closed])] at taken
    | close | closed => simp [after?, closed] at taken
    | gatherTally => simp [after?, Pool.receiveResult?, Channel.receive?, results] at taken
    | gatherFailure => simp [after?, Pool.receiveError?, Channel.receive?, errors] at taken
    | proceed | finish | defer | release => cases owner

/-! ### The line of the workers -/

theorem regular (subject : Subject) : (workshop subject).Regular where
  look := by
    intro run next turn looking taken
    cases turn with
    | proceed worker =>
      obtain ⟨pool, proceeded, rfl⟩ := Option.map_eq_some_iff.1 taken
      exact ⟨worker, rfl, Pool.look_of_proceed? proceeded⟩
    | _ => cases looking
  act := by
    intro run next turn worker looking acting taken
    rcases turn_cases taken with ⟨_, rfl, _⟩ | ⟨other, _, same, act, _⟩ | ⟨owner, _⟩
    · cases looking
    · rw [show worker? turn = some worker from acting, Option.some.injEq] at same
      exact same ▸ act
    · rw [show worker? turn = some worker from acting] at owner
      cases owner
  evenly := by
    intro run next turn other looking taken idle
    cases turn with
    | proceed worker =>
      obtain ⟨pool, proceeded, rfl⟩ := Option.map_eq_some_iff.1 taken
      have wanted := (Pool.look_of_proceed? proceeded).wantsJob
      have reason := (Pool.isSome_proceed?_iff wanted).1 (Option.isSome_of_eq_some proceeded)
      refine ⟨.proceed other, rfl, rfl, ?_⟩
      change ((run.pool.proceed? other).map _).isSome = true
      rw [Option.isSome_map]
      exact (Pool.isSome_proceed?_iff idle).2 reason
    | _ => cases looking

theorem lawful (subject : Subject) (workers capacity : Nat) (paths : List Path) :
    (workshop subject).Lawful (Reachable subject workers capacity paths) where
  toRegular := regular subject
  kept := fun reached taken => reached.turn taken
  owner := by
    intro run next turn worker reached owner taken idle
    rcases turn_cases taken with ⟨_, rfl, _⟩ | ⟨other, _, acting, _⟩ | ⟨_, same, _⟩
    · cases owner
    · rw [show worker? turn = none from owner] at acting
      cases acting
    · change next.pool.wantsJob worker = true
      rw [Pool.wantsJob, same]
      exact idle

/-- The most moves that are left, joining the line included. -/
def movesLeft (subject : Subject) (lined : Lined Run) : Nat :=
  lined.toil (workshop subject) stepsLeft

theorem movesLeft_lt {lined later : Lined Run} {move : Lined.Move Turn}
    (taken : lined.after? (workshop subject) move = some later) :
    movesLeft subject later < movesLeft subject lined := by
  by_cases turn : (move.worker? (workshop subject)).isSome
  · exact Lined.toil_lt_of_worker (regular subject) (fun _ happened => stepsLeft_lt happened) turn
      taken
  · rcases Lined.after?_cases taken with ⟨worker, rfl, _⟩ |
      ⟨event, worker, rest, state, rfl, _, acting, _⟩ | ⟨event, state, rfl, _, happened, rfl⟩
    · exact absurd rfl turn
    · simp [Lined.Move.worker?, acting] at turn
    · have less := stepsLeft_lt happened
      have workers : state.pool.workers = lined.state.pool.workers := by
        rcases turn_cases happened with ⟨_, rfl, _⟩ | ⟨_, _, acting, _⟩ | ⟨_, same, _⟩
        · exact absurd rfl turn
        · exact absurd (Option.isSome_of_eq_some acting) turn
        · exact same
      unfold movesLeft
      rw [Lined.toil_of_owner (workshop subject) _ workers, Lined.toil]
      omega

/-! ### The end -/

section Lines

variable {lined later : Lined Run} {move : Lined.Move Turn}

theorem movesLeft_of_afterAll? (moves : List (Lined.Move Turn))
    (taken : lined.afterAll? (workshop subject) moves = some later) :
    moves.length + movesLeft subject later ≤ movesLeft subject lined := by
  induction moves generalizing lined with
  | nil =>
    rw [← Option.some.inj taken, List.length_nil, Nat.zero_add]
  | cons move rest ih =>
    obtain ⟨middle, one, more⟩ := Option.bind_eq_some_iff.1 taken
    have first := movesLeft_lt one
    have others := ih more
    rw [List.length_cons]
    omega

/-- Until an analysis is over there is a move that is no cancellation. -/
theorem exists_move (staffed : 0 < workers) (room : 0 < capacity)
    (reached : Lined.Reachable (workshop subject) (begin workers capacity paths) lined)
    (unfinished : lined.state.isOver = false) :
    ∃ move later, move ≠ .act .cancel ∧ lined.after? (workshop subject) move = some later := by
  obtain ⟨run, ordered⟩ := reached.ordered (lawful subject workers capacity paths) .begun
  obtain ⟨turn, other, possible⟩ := exists_turn staffed room run unfinished
  obtain ⟨move, happens, kind⟩ := Lined.exists_move (regular subject) ordered possible
  obtain ⟨later, taken⟩ := Option.isSome_iff_exists.1 happens
  refine ⟨move, later, ?_, taken⟩
  rintro rfl
  rcases kind with same | worker
  · exact other (Lined.Move.act.inj same).symm
  · cases worker

theorem eq_cancel_of_ended
    (reached : Lined.Reachable (workshop subject) (begin workers capacity paths) lined)
    (ended : lined.state.isOver = true)
    (taken : lined.after? (workshop subject) move = some later) : move = .act .cancel := by
  obtain ⟨run, _⟩ := reached.ordered (lawful subject workers capacity paths) .begun
  rcases Lined.after?_cases taken with ⟨worker, rfl, idle, _⟩ |
    ⟨turn, _, _, _, rfl, _, _, _, happened, _⟩ | ⟨turn, _, rfl, _, happened, _⟩
  · have possible : (lined.state.after? subject (.proceed worker)).isSome := by
      refine isSome_proceed (Pool.wantsJob_iff.1 idle) (.inr (.inr ?_))
      simp [(isOver_iff.1 ended).1]
    obtain ⟨_, happened⟩ := Option.isSome_iff_exists.1 possible
    cases eq_cancel_of_isOver run ended happened
  · rw [eq_cancel_of_isOver run ended happened]
  · rw [eq_cancel_of_isOver run ended happened]

theorem exists_end (staffed : 0 < workers) (room : 0 < capacity)
    (reached : Lined.Reachable (workshop subject) (begin workers capacity paths) lined) :
    ∃ moves later, .act .cancel ∉ moves ∧
      lined.afterAll? (workshop subject) moves = some later ∧ later.state.isOver = true := by
  induction left : movesLeft subject lined using Nat.strong_induction_on generalizing lined with
  | h count ih =>
    cases unfinished : lined.state.isOver with
    | true => exact ⟨[], lined, List.not_mem_nil, rfl, unfinished⟩
    | false =>
      obtain ⟨move, middle, other, taken⟩ := exists_move staffed room reached unfinished
      have fewer := left ▸ movesLeft_lt taken
      obtain ⟨moves, later, others, more, ended⟩ := ih _ fewer (reached.moved taken) rfl
      refine ⟨move :: moves, later, ?_, ?_, ended⟩
      · rw [List.mem_cons, not_or]
        exact ⟨other.symm, others⟩
      · rw [Lined.afterAll?, taken]
        exact more

end Lines

/-- With a worker and a place in each queue, an analysis can always go on without a cancellation
until it is over, and each move brings it nearer to its end: it goes through so many moves at most,
and where it cannot go on it is over. -/
theorem analysis_comes_to_end (subject : Subject) (workers capacity : Nat) (paths : List Path)
    (staffed : 0 < workers) (room : 0 < capacity) (lined : Lined Run)
    (reached : Lined.Reachable (workshop subject) (begin workers capacity paths) lined) :
    (lined.state.isOver = false → ∃ move later, move ≠ .act .cancel ∧
      lined.after? (workshop subject) move = some later) ∧
    (∀ move later, lined.after? (workshop subject) move = some later →
      movesLeft subject later < movesLeft subject lined) ∧
    (∀ moves later, lined.afterAll? (workshop subject) moves = some later →
      moves.length ≤ movesLeft subject lined ∧
      (later.state.isOver = true ↔
        ∀ move, move ≠ .act .cancel → later.after? (workshop subject) move = none)) ∧
    ∃ moves later, .act .cancel ∉ moves ∧
      lined.afterAll? (workshop subject) moves = some later ∧ later.state.isOver = true := by
  refine ⟨exists_move staffed room reached, fun _ _ => movesLeft_lt, ?_,
    exists_end staffed room reached⟩
  intro moves later taken
  have following := reached.afterAll? moves taken
  have bound := movesLeft_of_afterAll? moves taken
  refine ⟨by omega, fun ended move other => ?_, fun quiet => ?_⟩
  · cases happens : later.after? (workshop subject) move with
    | none => rfl
    | some next => exact absurd (eq_cancel_of_ended following ended happens) other
  · by_contra unfinished
    rw [Bool.not_eq_true] at unfinished
    obtain ⟨move, next, other, happens⟩ := exists_move staffed room following unfinished
    rw [quiet move other] at happens
    cases happens

/-- Two workers with one place in each queue. Both files fail, the first failure fills its queue and
the second has to wait. -/
def crowdedMoves : List (Lined.Move Turn) :=
  [.act .submit, .join 1, .act (.proceed 1), .join 0, .act .submit, .act (.proceed 0),
    .act (.finish 0 none), .join 0, .act (.finish 1 none)]

def crowdedPaths : List Path := [⟨[47, 98]⟩, ⟨[47, 99]⟩]

def crowded : Lined Run :=
  (({ state := begin 2 1 crowdedPaths } : Lined Run).afterAll? (workshop sampleSubject)
    crowdedMoves).getD { state := begin 2 1 crowdedPaths }

theorem analysis_comes_to_end_sample :
    crowded.line = [0] ∧ crowded.state.isOver = false ∧ movesLeft sampleSubject crowded = 16 ∧
      ∃ moves later, .act .cancel ∉ moves ∧
        crowded.afterAll? (workshop sampleSubject) moves = some later ∧
        later.state.isOver = true := by
  have reached : Lined.Reachable (workshop sampleSubject) (begin 2 1 crowdedPaths) crowded :=
    Lined.Reachable.begun.afterAll? crowdedMoves rfl
  obtain ⟨_, _, _, completed⟩ :=
    analysis_comes_to_end sampleSubject 2 1 crowdedPaths (by decide) (by decide) crowded reached
  exact ⟨by decide, by decide, by decide, completed⟩

end Analysis.Run

end LogCensus
