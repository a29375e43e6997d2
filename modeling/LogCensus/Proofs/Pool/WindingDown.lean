import LogCensus.Proofs.Pool.Turns

/-!
A cancelled pool comes to rest by itself. Whatever its queues hold and whoever stands in line, no
job is taken or accepted any more, each worker ends at most the job that it has, and every turn of a
worker brings the end nearer until all have stopped and the pool can be closed.
-/

namespace LogCensus

variable {P J R E : Type}

inductive Worker.Winds : Worker J R E → Worker J R E → Prop where
  | still (worker : Worker J R E) : Winds worker worker
  | stops (worker : Worker J R E) : Winds worker .stopped
  | waits (job : J) (outcome : Except E R) : Winds (.running job) (.holding job outcome)
  | rests (job : J) : Winds (.running job) .idle

theorem Worker.Winds.trans {one two three : Worker J R E} (first : one.Winds two)
    (second : two.Winds three) : one.Winds three := by
  cases first with
  | still => exact second
  | stops =>
    cases second with
    | still | stops => exact .stops one
  | waits job outcome =>
    cases second with
    | still => exact .waits job outcome
    | stops => exact .stops _
  | rests job =>
    cases second with
    | still => exact .rests job
    | stops => exact .stops _

namespace Pool

def busy (pool : Pool J R E) (worker : Nat) : Nat :=
  match pool.workers[worker]? with
  | some (.running _) => 1
  | _ => 0

def Event.ends (worker : Nat) : Event P J R E → Bool
  | .finish other _ | .defer other _ | .crash other => other == worker
  | _ => false

def Lined.Move.ends (worker : Nat) : Lined.Move (Event P J R E) → Bool
  | .join _ => false
  | .act event => event.ends worker

def Lined.Move.isTurn (move : Lined.Move (Event P J R E)) : Bool :=
  (move.worker? History.workshop).isSome

/-- The most turns of workers that are left, joining the line included. -/
def Lined.turnsLeft (lined : Lined (History P J R E)) : Nat :=
  lined.toil History.workshop fun history => history.pool.work

section Workers

variable {pool after : Pool J R E} {worker other : Nat} {job : J} {outcome : Except E R}
  {old new : Worker J R E}

theorem winds_set (turn : pool.workers[worker]? = some old)
    (changed : after.workers = pool.workers.set worker new) (winds : old.Winds new)
    (other : Nat) (state : Worker J R E) (present : pool.workers[other]? = some state) :
    ∃ following, after.workers[other]? = some following ∧ state.Winds following := by
  rw [changed]
  by_cases same : worker = other
  · subst same
    obtain ⟨bound, _⟩ := List.getElem?_eq_some_iff.1 turn
    rw [turn, Option.some.injEq] at present
    exact ⟨new, List.getElem?_set_self bound, present ▸ winds⟩
  · exact ⟨state, by rw [List.getElem?_set_ne same, present], .still state⟩

theorem Look.stops (look : Look pool worker after) (cancelled : pool.cancelled = true) :
    pool.workers[worker]? = some .idle ∧ after = pool.setWorker worker .stopped := by
  cases look with
  | enters job rest turn calm => simp [cancelled] at calm
  | retires turn => exact ⟨turn, rfl⟩

theorem Look.winds (look : Look pool worker after) (cancelled : pool.cancelled = true)
    (other : Nat) (state : Worker J R E) (present : pool.workers[other]? = some state) :
    ∃ following, after.workers[other]? = some following ∧ state.Winds following := by
  obtain ⟨turn, rfl⟩ := look.stops cancelled
  exact winds_set turn rfl (.stops _) other state present

theorem Act.winds (act : Act pool worker after) (cancelled : pool.cancelled = true)
    (other : Nat) (state : Worker J R E) (present : pool.workers[other]? = some state) :
    ∃ following, after.workers[other]? = some following ∧ state.Winds following := by
  cases act with
  | sends job outcome turn =>
    rcases turn with running | ⟨_, calm⟩
    · exact winds_set running rfl (.rests job) other state present
    · simp [cancelled] at calm
  | waits job outcome turn => exact winds_set turn rfl (.waits job outcome) other state present
  | refused job outcome turn =>
    rcases turn with running | ⟨_, calm⟩
    · exact winds_set running rfl (.stops _) other state present
    · simp [cancelled] at calm
  | crashes job turn | abandons job outcome turn =>
    exact winds_set turn rfl (.stops _) other state present

theorem busy_set (changed : after.workers = pool.workers.set worker new)
    (free : ∀ job, new ≠ .running job) (other : Nat) :
    after.busy other = if other = worker then 0 else pool.busy other := by
  unfold busy
  rw [changed]
  by_cases same : other = worker
  · subst same
    rw [if_pos rfl]
    split
    next job turn =>
      rw [List.getElem?_set, if_pos rfl] at turn
      split at turn
      next => exact absurd (Option.some.inj turn) (free job)
      next => cases turn
    next => rfl
  · rw [if_neg same, List.getElem?_set_ne (Ne.symm same)]

end Workers

/-- What no event changes in a cancelled pool that was started. -/
theorem Step.frame {before after : History P J R E} (step : Step before after)
    (started : before.pool.started = true) (cancelled : before.pool.cancelled = true) :
    after.pool.jobs = before.pool.jobs ∧ after.accepted = before.accepted ∧
      after.entered = before.entered ∧ after.pool.started = true ∧
      after.pool.cancelled = true := by
  cases step with
  | started processor fresh => simp [started] at fresh
  | accepted job accepting calm => simp [cancelled] at calm
  | entered worker job rest turn calm => simp [cancelled] at calm
  | cancelled => exact ⟨rfl, rfl, rfl, started, rfl⟩
  | _ => exact ⟨rfl, rfl, rfl, started, cancelled⟩

namespace History

variable {history next : History P J R E} {event : Event P J R E} {worker : Nat}

theorem busy_of_ends (ends : event.ends worker = true)
    (happens : history.after? event = some next) :
    event.worker? = some worker ∧ history.pool.busy worker = 1 := by
  have full {other : Nat} {job : J} (running : history.pool.workers[other]? = some (.running job)) :
      history.pool.busy other = 1 := by
    simp [busy, running]
  cases event with
  | finish other outcome =>
    obtain ⟨job, running, _⟩ := finish?_cases (pool_of_finish? happens)
    exact beq_iff_eq.1 ends ▸ ⟨rfl, full running⟩
  | defer other outcome =>
    obtain ⟨job, running, _⟩ := defer?_cases (pool_of_defer? happens)
    exact beq_iff_eq.1 ends ▸ ⟨rfl, full running⟩
  | crash other =>
    obtain ⟨job, running, _⟩ := crash?_cases (pool_of_crash? happens)
    exact beq_iff_eq.1 ends ▸ ⟨rfl, full running⟩
  | _ => cases ends

theorem winds_after? (started : history.pool.started = true)
    (cancelled : history.pool.cancelled = true) (happens : history.after? event = some next)
    (other : Nat) (old : Worker J R E) (present : history.pool.workers[other]? = some old) :
    ∃ new, next.pool.workers[other]? = some new ∧ old.Winds new := by
  rcases after?_cases started happens with ⟨worker, _, look⟩ | ⟨worker, _, act⟩ | ⟨_, same⟩
  · exact look.winds cancelled other old present
  · exact act.winds cancelled other old present
  · exact ⟨old, same ▸ present, .still old⟩

theorem busy_after? (started : history.pool.started = true)
    (cancelled : history.pool.cancelled = true) (happens : history.after? event = some next)
    (other : Nat) :
    (if event.ends other then 1 else 0) + next.pool.busy other ≤ history.pool.busy other := by
  by_cases ends : event.ends other = true
  · obtain ⟨turn, full⟩ := busy_of_ends ends happens
    have looking : event.looks = false := by
      cases event with
      | proceed => cases ends
      | _ => rfl
    obtain ⟨new, free, changed⟩ := (act_of_after? looking turn happens).set
    rw [if_pos ends, busy_set changed free, if_pos rfl, full]
  · rw [if_neg ends, Nat.zero_add]
    have less {new : Worker J R E} {worker : Nat} (free : ∀ job, new ≠ .running job)
        (changed : next.pool.workers = history.pool.workers.set worker new) :
        next.pool.busy other ≤ history.pool.busy other := by
      rw [busy_set changed free]
      split
      next => exact Nat.zero_le _
      next => exact le_rfl
    rcases after?_cases started happens with ⟨worker, _, look⟩ | ⟨worker, _, act⟩ | ⟨_, same⟩
    · exact less (by simp) (congrArg Pool.workers (look.stops cancelled).2)
    · obtain ⟨new, free, changed⟩ := act.set
      exact less free changed
    · rw [busy, same]
      exact le_rfl

end History

/-- What is left of a cancelled pool after some moves. -/
structure WindingDown (lined : Lined (History P J R E))
    (moves : List (Lined.Move (Event P J R E))) (later : Lined (History P J R E)) : Prop where
  /-- No job leaves the queue, none is accepted, and none enters the processor. -/
  jobs : later.state.pool.jobs = lined.state.pool.jobs
  accepted : later.state.accepted = lined.state.accepted
  entered : later.state.entered = lined.state.entered
  /-- A worker ends the processing of the job that it has, if it has one, and takes no other. -/
  workers : ∀ (worker : Nat) (old : Worker J R E), lined.state.pool.workers[worker]? = some old →
    ∃ new, later.state.pool.workers[worker]? = some new ∧ old.Winds new
  endings : ∀ worker, moves.countP (·.ends worker) + later.state.pool.busy worker ≤
    lined.state.pool.busy worker
  /-- Turns of workers bring the end nearer, and nothing puts it off. -/
  turns : moves.countP (·.isTurn) + later.turnsLeft ≤ lined.turnsLeft
  started : later.state.pool.started = true
  cancelled : later.state.pool.cancelled = true

namespace WindingDown

variable {lined middle later : Lined (History P J R E)}
  {move : Lined.Move (Event P J R E)} {moves more : List (Lined.Move (Event P J R E))}

theorem refl (started : lined.state.pool.started = true)
    (cancelled : lined.state.pool.cancelled = true) : WindingDown lined [] lined where
  jobs := rfl
  accepted := rfl
  entered := rfl
  workers := fun _ old present => ⟨old, present, .still old⟩
  endings := fun worker => by simp
  turns := by simp
  started := started
  cancelled := cancelled

theorem trans (first : WindingDown lined moves middle) (second : WindingDown middle more later) :
    WindingDown lined (moves ++ more) later where
  jobs := second.jobs.trans first.jobs
  accepted := second.accepted.trans first.accepted
  entered := second.entered.trans first.entered
  workers := by
    intro worker old present
    obtain ⟨between, found, winds⟩ := first.workers worker old present
    obtain ⟨new, following, further⟩ := second.workers worker between found
    exact ⟨new, following, winds.trans further⟩
  endings := by
    intro worker
    have one := first.endings worker
    have two := second.endings worker
    rw [List.countP_append]
    omega
  turns := by
    have one := first.turns
    have two := second.turns
    rw [List.countP_append]
    omega
  started := second.started
  cancelled := second.cancelled

/-- What one event leaves of a cancelled pool. -/
theorem of_event {state : History P J R E} {event : Event P J R E} {line : List Nat}
    (started : lined.state.pool.started = true) (cancelled : lined.state.pool.cancelled = true)
    (happened : lined.state.after? event = some state)
    (turns : (if (Lined.Move.act event).isTurn then 1 else 0) +
      Lined.turnsLeft { state, line } ≤ lined.turnsLeft) :
    WindingDown lined [.act event] { state, line } := by
  obtain ⟨jobs, accepted, entered, already, still⟩ :=
    (History.step_of_after? happened).frame started cancelled
  refine ⟨jobs, accepted, entered, History.winds_after? started cancelled happened, ?_, ?_,
    already, still⟩
  · intro worker
    rw [List.countP_singleton]
    exact History.busy_after? started cancelled happened worker
  · rw [List.countP_singleton]
    exact turns

theorem of_move (started : lined.state.pool.started = true)
    (cancelled : lined.state.pool.cancelled = true)
    (taken : lined.after? History.workshop move = some middle) :
    WindingDown lined [move] middle := by
  have fewer (turn : move.isTurn = true) : middle.turnsLeft < lined.turnsLeft := by
    refine Lined.toil_lt_of_worker History.regular ?_ turn taken
    intro state event worker acting happened
    rcases History.after?_cases started happened with ⟨_, _, look⟩ | ⟨_, _, act⟩ | ⟨owner, _⟩
    · exact look.work_lt
    · exact act.work_lt
    · exact absurd (acting.symm.trans owner) (by simp)
  rcases Lined.after?_cases taken with ⟨worker, rfl, idle, away, rfl⟩ |
    ⟨event, worker, rest, state, rfl, looking, turn, shape, happened, rfl⟩ |
    ⟨event, state, rfl, looking, happened, rfl⟩
  · have one := fewer rfl
    refine { WindingDown.refl started cancelled with endings := ?_, turns := ?_ }
    · intro other
      rw [List.countP_singleton]
      exact (Nat.zero_add _).le
    · rw [List.countP_singleton, if_pos (show (Lined.Move.join worker).isTurn = true from rfl)]
      omega
  · apply of_event started cancelled happened
    have isTurn : (Lined.Move.act event).isTurn = true := by
      simp [Lined.Move.isTurn, Lined.Move.worker?, turn]
    rw [if_pos isTurn]
    have one := fewer isTurn
    omega
  · apply of_event started cancelled happened
    by_cases isTurn : (Lined.Move.act event).isTurn = true
    · rw [if_pos isTurn]
      have one := fewer isTurn
      omega
    · rw [if_neg isTurn, Nat.zero_add]
      have owner : event.worker? = none := Option.not_isSome_iff_eq_none.1 isTurn
      obtain ⟨workers, work⟩ := History.owner_after? started owner happened
      unfold Lined.turnsLeft
      rw [Lined.toil_of_owner History.workshop _ workers]
      exact Nat.add_le_add_right (Nat.mul_le_mul_left 2 (work cancelled)) _

theorem of_moves (started : lined.state.pool.started = true)
    (cancelled : lined.state.pool.cancelled = true)
    (taken : lined.afterAll? History.workshop moves = some later) :
    WindingDown lined moves later := by
  induction moves generalizing lined with
  | nil => exact Option.some.inj taken ▸ refl started cancelled
  | cons move rest ih =>
    obtain ⟨middle, one, more⟩ := Option.bind_eq_some_iff.1 taken
    have first := of_move started cancelled one
    exact first.trans (ih first.started first.cancelled more)

end WindingDown

/-- Whether a worker can have the turn that its state leads to; its processing may return any
outcome. -/
def Ready (history : History P J R E) (worker : Nat) : Worker J R E → Prop
  | .idle => (history.after? (.proceed worker)).isSome
  | .running _ => ∀ outcome, (history.after? (.finish worker outcome)).isSome
  | .holding _ _ => (history.after? (.release worker)).isSome
  | .stopped => True

structure Settling (lined : Lined (History P J R E)) : Prop where
  delivers : ∀ worker job outcome next,
    lined.state.pool.workers[worker]? = some (.running job) →
    lined.state.pool.receiverFor outcome ≠ .dropped →
    lined.state.pool.queuedFor outcome < lined.state.pool.capacity →
    lined.state.after? (.finish worker outcome) = some next →
    next.pool = (lined.state.pool.push job outcome).setWorker worker .idle
  /-- It can miss a free place only if each of them is promised to a worker that waits. -/
  promised : ∀ worker outcome,
    lined.state.pool.queuedFor outcome + lined.state.pool.waitingFor outcome <
      lined.state.pool.capacity →
    lined.state.after? (.defer worker outcome) = none
  waits : ∀ worker job outcome next,
    lined.state.pool.workers[worker]? = some (.running job) →
    lined.state.pool.receiverFor outcome ≠ .dropped →
    lined.state.pool.capacity ≤ lined.state.pool.queuedFor outcome →
    lined.state.after? (.finish worker outcome) = some next →
    next.pool = lined.state.pool.setWorker worker (.holding job outcome)
  drops : ∀ worker job outcome next,
    lined.state.pool.workers[worker]? = some (.holding job outcome) →
    lined.state.after? (.release worker) = some next →
    next.pool = (lined.state.pool.lose job (.cancelled outcome)).setWorker worker .stopped
  turns : ∀ move next, move.isTurn = true → lined.after? History.workshop move = some next →
    next.turnsLeft < lined.turnsLeft
  /-- No worker that has not stopped is without a turn. -/
  ready : ∀ (worker : Nat) (state : Worker J R E),
    lined.state.pool.workers[worker]? = some state → Ready lined.state worker state
  line : ∀ worker, lined.state.pool.wantsJob worker = true →
    (lined.after? History.workshop (.join worker)).isSome ∨
      ∃ front rest, lined.line = front :: rest ∧ worker ∈ lined.line ∧
        (lined.after? History.workshop (.act (.proceed front))).isSome
  rests : (∀ move, move.isTurn = true → lined.after? History.workshop move = none) →
    lined.state.pool.allStopped = true
  closes : lined.state.pool.allStopped = true →
    ∃ closing closed, lined.state.after? .close = some closing ∧
      closing.after? .closed = some closed ∧ closed.pool.phase = .closed

namespace History

variable {history next : History P J R E} {worker : Nat} {job : J} {outcome : Except E R}

theorem ready (cancelled : history.pool.cancelled = true) {state : Worker J R E}
    (turn : history.pool.workers[worker]? = some state) : Ready history worker state := by
  cases state with
  | idle =>
    change ((history.pool.proceed? worker).map _).isSome = true
    rw [Option.isSome_map]
    exact (isSome_proceed?_iff (wantsJob_iff.2 turn)).2 (.inl cancelled)
  | running job =>
    intro outcome
    simp only [after?, finish?, turn, Option.isSome_map]
    exact finish?_isSome turn
  | holding job outcome =>
    simp only [Ready, after?, release?_of_cancelled turn cancelled, Option.map_some,
      Option.isSome_some]
  | stopped => trivial

end History

namespace Settling

variable {size capacity : Nat} {lined : Lined (History P J R E)}

theorem line_of (ordered : lined.Ordered History.workshop)
    (cancelled : lined.state.pool.cancelled = true) (worker : Nat)
    (idle : lined.state.pool.wantsJob worker = true) :
    (lined.after? History.workshop (.join worker)).isSome ∨
      ∃ front rest, lined.line = front :: rest ∧ worker ∈ lined.line ∧
        (lined.after? History.workshop (.act (.proceed front))).isSome := by
  by_cases standing : worker ∈ lined.line
  · right
    cases shape : lined.line with
    | nil => simp [shape] at standing
    | cons front rest =>
      have wants : lined.state.pool.wantsJob front = true := ordered.wants front (by simp [shape])
      refine ⟨front, rest, rfl, shape ▸ standing, ?_⟩
      exact Lined.isSome_front shape rfl rfl (History.ready cancelled (wantsJob_iff.1 wants))
  · exact .inl (Lined.isSome_join idle standing)

theorem rests_of (ordered : lined.Ordered History.workshop)
    (cancelled : lined.state.pool.cancelled = true)
    (quiet : ∀ move, move.isTurn = true → lined.after? History.workshop move = none) :
    lined.state.pool.allStopped = true := by
  have stuck (move : Lined.Move (Event P J R E)) (turn : move.isTurn = true)
      (possible : (lined.after? History.workshop move).isSome) : False := by
    rw [quiet move turn] at possible
    cases possible
  refine List.all_eq_true.2 fun state member => ?_
  obtain ⟨worker, bound, rfl⟩ := List.mem_iff_getElem.1 member
  have present : lined.state.pool.workers[worker]? = some lined.state.pool.workers[worker] :=
    List.getElem?_eq_getElem bound
  have ready := History.ready cancelled present
  cases shape : lined.state.pool.workers[worker] with
  | stopped => rfl
  | idle =>
    rw [shape] at present
    rcases line_of ordered cancelled worker (wantsJob_iff.2 present) with
      join | ⟨front, rest, _, _, move⟩
    · exact (stuck (.join worker) rfl join).elim
    · exact (stuck (.act (.proceed front)) rfl move).elim
  | running job =>
    -- A crash needs no outcome that the processing could return.
    rw [shape] at present
    refine (stuck (.act (.crash worker)) rfl (Lined.isSome_act rfl ?_)).elim
    simp [History.workshop, History.after?, History.crash?, Pool.crash?, present]
  | holding job outcome =>
    rw [shape] at ready
    exact (stuck (.act (.release worker)) rfl (Lined.isSome_act rfl ready)).elim

theorem closes_of (rest : lined.state.pool.allStopped = true) :
    ∃ closing closed, lined.state.after? .close = some closing ∧
      closing.after? .closed = some closed ∧ closed.pool.phase = .closed := by
  have closable : lined.state.pool.close.phase ≠ .open ∧
      lined.state.pool.close.allStopped = true := by
    unfold Pool.close
    split
    next => exact ⟨by simp, rest⟩
    next refusing => exact ⟨refusing, rest⟩
  refine ⟨_, { lined.state with pool := { lined.state.pool.close with phase := .closed } }, rfl,
    ?_, rfl⟩
  simp only [History.after?, Pool.closed?, if_pos closable, Option.map_some]

theorem of_cancelled
    (reached : Lined.Reachable History.workshop (History.create size capacity) lined)
    (started : lined.state.pool.started = true) (cancelled : lined.state.pool.cancelled = true) :
    Settling lined := by
  obtain ⟨_, ordered⟩ := reached.ordered (History.lawful size capacity) .created
  refine ⟨?_, ?_, ?_, ?_, ?_, fun _ _ => History.ready cancelled, line_of ordered cancelled,
    rests_of ordered cancelled, closes_of⟩
  · intro worker job outcome next turn wanted room happens
    have finished := History.pool_of_finish? happens
    rw [finish?_of_room turn wanted room, Option.some.injEq] at finished
    exact finished.symm
  · intro worker outcome room
    simp only [History.after?, History.defer?, defer?_eq_none room, Option.map_none]
    split
    next => rfl
    next => rfl
  · intro worker job outcome next turn wanted full happens
    have finished := History.pool_of_finish? happens
    rw [finish?_of_full turn wanted full, Option.some.injEq] at finished
    exact finished.symm
  · intro worker job outcome next turn happens
    obtain ⟨pool, released, rfl⟩ := Option.map_eq_some_iff.1 happens
    rw [release?_of_cancelled turn cancelled, Option.some.injEq] at released
    exact released.symm
  · intro move next turn taken
    have after := (WindingDown.of_move started cancelled taken).turns
    rw [List.countP_singleton, if_pos turn] at after
    omega

end Settling

/-- From the moment when a started pool is cancelled, whatever waits in its queues and whoever
receives from them: no job is taken or accepted, each worker ends at most the job that it has, an
outcome is delivered if it fits when it is first offered and dropped if it has to wait, every turn
of a worker is one of the last, and when there are none left the pool can be closed. -/
theorem cancelled_pool_winds_down {size capacity : Nat} {lined later : Lined (History P J R E)}
    (reached : Lined.Reachable History.workshop (History.create size capacity) lined)
    (started : lined.state.pool.started = true) (cancelled : lined.state.pool.cancelled = true)
    (moves : List (Lined.Move (Event P J R E)))
    (taken : lined.afterAll? History.workshop moves = some later) :
    WindingDown lined moves later ∧ Settling later ∧
      ∀ job, ∃ rejection, later.state.pool.submit job = .rejected rejection := by
  have winding := WindingDown.of_moves started cancelled taken
  refine ⟨winding, .of_cancelled (reached.afterAll? moves taken) winding.started winding.cancelled, ?_⟩
  intro job
  unfold submit
  split
  next => exact ⟨.closed, rfl⟩
  next => exact ⟨.cancelled, if_pos winding.cancelled⟩

/-- Two workers with queues of one place. When the pool is cancelled a job waits in the queue, one
worker stands in line and the other waits with a result. -/
def stirredMoves : List (Lined.Move (Event Unit Nat Nat String)) :=
  [.act .takeResults, .act (.start ()), .act (.submit 3), .join 0, .act (.proceed 0),
    .act (.submit 4), .join 1, .act (.proceed 1), .act (.submit 5), .act (.finish 0 (.ok 30)),
    .act (.finish 1 (.ok 40)), .join 0, .act .cancel]

def calmingMoves : List (Lined.Move (Event Unit Nat Nat String)) :=
  [.act (.release 1), .act (.submit 6), .act (.proceed 0)]

def linedOf (moves : List (Lined.Move (Event Unit Nat Nat String))) :
    Lined (History Unit Nat Nat String) :=
  (({ state := History.create 2 1 } : Lined (History Unit Nat Nat String)).afterAll?
    History.workshop moves).getD { state := History.create 2 1 }

theorem cancelled_pool_winds_down_sample :
    (linedOf stirredMoves).line = [0] ∧ (linedOf stirredMoves).turnsLeft = 18 ∧
      WindingDown (linedOf stirredMoves) calmingMoves (linedOf (stirredMoves ++ calmingMoves)) ∧
      (linedOf (stirredMoves ++ calmingMoves)).state.pool.jobs = [5] ∧
      (linedOf (stirredMoves ++ calmingMoves)).state.pool.allStopped = true ∧
      ∃ closing closed, (linedOf (stirredMoves ++ calmingMoves)).state.after? .close = some closing ∧
        closing.after? .closed = some closed ∧ closed.pool.phase = .closed := by
  have reached : Lined.Reachable History.workshop (History.create 2 1) (linedOf stirredMoves) :=
    Lined.Reachable.begun.afterAll? stirredMoves rfl
  have calmed : (linedOf stirredMoves).afterAll? History.workshop calmingMoves =
      some (linedOf (stirredMoves ++ calmingMoves)) := rfl
  obtain ⟨winding, settling, _⟩ := cancelled_pool_winds_down reached rfl rfl calmingMoves calmed
  exact ⟨rfl, by decide, winding, rfl, rfl, settling.closes rfl⟩

end Pool

end LogCensus
