import LogCensus.Proofs.Analysis.Completion

/-!
What a report covers. Each inspection that ended is in it, unless its outcome found no room when it
was first offered and still waited for it when the analysis was cancelled; then the outcome is given
up. Without a cancellation the report covers them all.
-/

namespace LogCensus

def Tally.outcome (tally : Tally) : Path × Except Failure Tally := (tally.path, .ok tally)

def Failure.outcome (failure : Failure) : Path × Except Failure Tally :=
  (failure.path, .error failure)

def Report.outcomes (report : Report) : List (Path × Except Failure Tally) :=
  report.files.map Tally.outcome ++ report.failures.map Failure.outcome

namespace Pool

variable {J R E : Type} {pool after : Pool J R E} {worker : Nat} {old new : Worker J R E}

theorem held_perm (present : pool.workers[worker]? = some old)
    (changed : after.workers = pool.workers.set worker new) :
    (after.held ++ old.held?.toList).Perm (pool.held ++ new.held?.toList) := by
  classical
  rw [List.perm_iff_count]
  intro item
  rw [List.count_append, List.count_append]
  exact count_held_set after present changed item

theorem Look.holds_nothing (look : Look pool worker after) :
    ∃ new, pool.workers[worker]? = some .idle ∧ after.workers = pool.workers.set worker new ∧
      new.held? = none ∧ after.lost = pool.lost := by
  cases look with
  | enters job rest turn => exact ⟨.running job, turn, rfl, rfl, rfl⟩
  | retires turn => exact ⟨.stopped, turn, rfl, rfl, rfl⟩

end Pool

namespace Analysis.Run

open scoped List

variable {subject : Subject} {workers capacity : Nat} {paths : List Path} {run next later : Run}
  {turn : Turn} {turns : List Turn}

/-- The outcome that a turn offers first and that finds no room: its queue is full, or each free
place of it is promised to a worker that waits. -/
def turnedAway? (subject : Subject) (run : Run) : Turn → Option (Path × Except Failure Tally)
  | .finish worker seenAfter =>
    match run.pool.workers[worker]? with
    | some (.running path) =>
      if run.pool.capacity ≤ run.pool.queuedFor (outcomeOf subject seenAfter path) then
        some (path, outcomeOf subject seenAfter path)
      else none
    | _ => none
  | .defer worker seenAfter =>
    match run.pool.workers[worker]? with
    | some (.running path) => some (path, outcomeOf subject seenAfter path)
    | _ => none
  | _ => none

/-- The outcome that a turn gives up: a worker waits with it when the analysis is cancelled. -/
def givenUp? (run : Run) : Turn → Option (Path × Except Failure Tally)
  | .release worker =>
    match run.pool.workers[worker]? with
    | some (.holding path outcome) => if run.pool.cancelled then some (path, outcome) else none
    | _ => none
  | _ => none

def along {α : Type} (subject : Subject) (found? : Run → Turn → Option α) :
    Run → List Turn → List α
  | _, [] => []
  | run, turn :: rest =>
    (found? run turn).toList ++
      match run.after? subject turn with
      | none => []
      | some next => along subject found? next rest

theorem along_cons {α : Type} {found? : Run → Turn → Option α}
    (taken : run.after? subject turn = some next) (rest : List Turn) :
    along subject found? run (turn :: rest) =
      (found? run turn).toList ++ along subject found? next rest := by
  rw [along, taken]

structure Waiting (subject : Subject) (run next : Run) (turn : Turn) : Prop where
  lost : next.pool.lostOutcomes = run.pool.lostOutcomes ++ (givenUp? run turn).toList
  held : (next.pool.held ++ (givenUp? run turn).toList).Subperm
    (run.pool.held ++ (turnedAway? subject run turn).toList)

namespace Waiting

theorem of_owner (workers : next.pool.workers = run.pool.workers)
    (lost : next.pool.lost = run.pool.lost) (none : givenUp? run turn = none) :
    Waiting subject run next turn where
  lost := by
    rw [none, Option.toList_none, List.append_nil, Pool.lostOutcomes, lost]
    rfl
  held := by
    rw [none, Option.toList_none, List.append_nil, Pool.held, workers]
    exact (List.sublist_append_left _ _).subperm

/-- A worker gives up what it holds at most, and holds afterwards what was turned away at most. -/
theorem of_worker {worker : Nat} {old new : Worker Path Tally Failure}
    (present : run.pool.workers[worker]? = some old)
    (changed : next.pool.workers = run.pool.workers.set worker new)
    (lost : next.pool.lostOutcomes = run.pool.lostOutcomes ++ (givenUp? run turn).toList)
    (given : (givenUp? run turn).toList.Sublist old.held?.toList)
    (away : new.held?.toList.Sublist (turnedAway? subject run turn).toList) :
    Waiting subject run next turn where
  lost := lost
  held := by
    have moved := Pool.held_perm present changed
    have before : next.pool.held ++ (givenUp? run turn).toList <+~
        next.pool.held ++ old.held?.toList := (given.append_left _).subperm
    have after : run.pool.held ++ new.held?.toList <+~
        run.pool.held ++ (turnedAway? subject run turn).toList := (away.append_left _).subperm
    exact before.trans (moved.subperm.trans after)

theorem of_look {worker : Nat} (look : run.pool.Look worker next.pool) :
    Waiting subject run next (.proceed worker) := by
  obtain ⟨new, idle, changed, free, lost⟩ := look.holds_nothing
  refine of_worker idle changed ?_ (List.nil_sublist _) ?_
  · rw [Pool.lostOutcomes, lost]
    exact (List.append_nil _).symm
  · rw [free]
    exact List.nil_sublist _

theorem of_finish {worker : Nat} {seenAfter : Option Nat}
    (wanted : ∀ outcome, run.pool.receiverFor outcome ≠ .dropped)
    (taken : run.after? subject (.finish worker seenAfter) = some next) :
    Waiting subject run next (.finish worker seenAfter) := by
  obtain ⟨path, pool, running, _, finished, rfl⟩ := endInspection?_cases taken
  by_cases full : run.pool.capacity ≤ run.pool.queuedFor (outcomeOf subject seenAfter path)
  · rw [Pool.finish?_of_full running (wanted _) full, Option.some.injEq] at finished
    subst finished
    refine of_worker running rfl (List.append_nil _).symm (List.nil_sublist _) ?_
    simp [turnedAway?, running, full, Worker.held?]
  · rw [Pool.finish?_of_room running (wanted _) (Nat.lt_of_not_le full),
      Option.some.injEq] at finished
    subst finished
    exact of_worker running rfl (List.append_nil _).symm (List.nil_sublist _) (List.nil_sublist _)

theorem of_defer {worker : Nat} {seenAfter : Option Nat}
    (taken : run.after? subject (.defer worker seenAfter) = some next) :
    Waiting subject run next (.defer worker seenAfter) := by
  obtain ⟨path, pool, running, _, deferred, rfl⟩ := endInspection?_cases taken
  obtain ⟨other, same, _, _, rfl⟩ := Pool.defer?_cases deferred
  rw [running, Option.some.injEq, Worker.running.injEq] at same
  subst same
  refine of_worker running rfl (List.append_nil _).symm (List.nil_sublist _) ?_
  simp [turnedAway?, running, Worker.held?]

theorem of_release {worker : Nat}
    (wanted : ∀ outcome, run.pool.receiverFor outcome ≠ .dropped)
    (taken : run.after? subject (.release worker) = some next) :
    Waiting subject run next (.release worker) := by
  obtain ⟨pool, released, rfl⟩ := Option.map_eq_some_iff.1 taken
  obtain ⟨path, outcome, holding, ⟨cancelled, rfl⟩ | ⟨calm, delivered⟩⟩ :=
    Pool.release?_cases released
  · have given : givenUp? run (.release worker) = some (path, outcome) := by
      simp [givenUp?, holding, cancelled]
    refine of_worker holding rfl ?_ ?_ (List.nil_sublist _)
    · rw [given, Pool.lostOutcomes_setWorker, Pool.lostOutcomes_lose]
      rfl
    · rw [given]
      exact List.Sublist.refl _
  · have given : givenUp? run (.release worker) = none := by
      simp [givenUp?, holding, calm]
    obtain ⟨_, _, rfl⟩ | ⟨unwanted, _⟩ := Pool.deliver?_cases delivered
    · refine of_worker holding rfl ?_ ?_ (List.nil_sublist _)
      · rw [given, Option.toList_none, List.append_nil]
        rfl
      · rw [given]
        exact List.nil_sublist _
    · exact absurd unwanted (wanted outcome)

theorem of_turn (wanted : ∀ outcome, run.pool.receiverFor outcome ≠ .dropped)
    (taken : run.after? subject turn = some next) : Waiting subject run next turn := by
  rcases turn_cases taken with ⟨worker, rfl, look, _⟩ | ⟨worker, looking, acting, _⟩ |
    ⟨owner, workers, lost, _⟩
  · exact of_look look
  · cases turn with
    | finish => exact of_finish wanted taken
    | defer => exact of_defer taken
    | release => exact of_release wanted taken
    | proceed => cases looking
    | _ => cases acting
  · refine of_owner workers lost ?_
    cases turn with
    | release => cases owner
    | _ => rfl

end Waiting

theorem wanted_of_reachable (reached : Reachable subject workers capacity paths run)
    (outcome : Except Failure Tally) : run.pool.receiverFor outcome ≠ .dropped := by
  obtain ⟨history, _, follows⟩ := exists_follows reached
  cases outcome with
  | ok tally => simp [Pool.receiverFor, follows.results]
  | error failure => simp [Pool.receiverFor, follows.errors]

theorem lostOutcomes_of_afterAll? (reached : Reachable subject workers capacity paths run)
    (taken : run.afterAll? subject turns = some later) :
    later.pool.lostOutcomes = run.pool.lostOutcomes ++ along subject givenUp? run turns := by
  induction turns generalizing run with
  | nil =>
    rw [← Option.some.inj taken, along, List.append_nil]
  | cons turn rest ih =>
    obtain ⟨next, one, more⟩ := Option.bind_eq_some_iff.1 taken
    have waiting := Waiting.of_turn (wanted_of_reachable reached) one
    rw [ih (reached.turn one) more, waiting.lost, along_cons one, List.append_assoc]

/-- What is held or has been given up was held before or has been turned away. -/
theorem held_of_afterAll? (reached : Reachable subject workers capacity paths run)
    (taken : run.afterAll? subject turns = some later) :
    later.pool.held ++ along subject givenUp? run turns <+~
      run.pool.held ++ along subject (turnedAway? subject) run turns := by
  induction turns generalizing run with
  | nil =>
    rw [← Option.some.inj taken, along, along]
  | cons turn rest ih =>
    obtain ⟨next, one, more⟩ := Option.bind_eq_some_iff.1 taken
    have waiting := Waiting.of_turn (wanted_of_reachable reached) one
    have others := ih (reached.turn one) more
    classical
    rw [along_cons one, along_cons one, List.subperm_ext_iff]
    intro item _
    have first := waiting.held.count_le item
    have second := others.count_le item
    simp only [List.count_append] at first second ⊢
    omega

theorem outcomes_eq_report (valid : subject.settings.fault? = none)
    (reached : Reachable subject workers capacity paths run) (ended : run.isOver = true)
    (started finished : Time.Instant) (elapsed : Time.Duration) :
    run.pool.outcomes =
      (run.gathered.report subject.settings started finished elapsed).outcomes := by
  obtain ⟨history, _, follows⟩ := exists_follows reached
  obtain ⟨_, results, errors⟩ := isOver_iff.1 ended
  have all : run.pool.outcomes = run.pool.results.received.map Pool.okItem ++
      run.pool.errors.received.map Pool.errorItem := by
    rw [Pool.outcomes, Channel.items, Channel.items, results, errors, List.append_nil,
      List.append_nil]
  have tallies : run.pool.results.received.map Pool.okItem =
      run.gathered.tallies.map Tally.outcome := by
    rw [follows.tallies, List.map_map]
    refine List.map_congr_left fun item member => ?_
    have delivered : (item.1, .ok item.2) ∈ run.pool.outcomes :=
      all ▸ List.mem_append_left _ (List.mem_map_of_mem member)
    obtain ⟨seenAfter, _, outcome⟩ := inspected_of_outcomes reached delivered
    have same := Inspection.path_of_ok (Settings.limit_ne_zero valid) outcome
    exact Prod.ext same.symm rfl
  have failures : run.pool.errors.received.map Pool.errorItem =
      run.gathered.failures.map Failure.outcome := by
    rw [follows.failures, List.map_map]
    refine List.map_congr_left fun item member => ?_
    have delivered : (item.1, .error item.2) ∈ run.pool.outcomes :=
      all ▸ List.mem_append_right _ (List.mem_map_of_mem member)
    obtain ⟨seenAfter, _, outcome⟩ := inspected_of_outcomes reached delivered
    exact Prod.ext (Inspection.path_of_error outcome).symm rfl
  rw [all, tallies, failures]
  rfl

/-- A run that was not cancelled has lost nothing. -/
theorem lost_of_calm (reached : Reachable subject workers capacity paths run)
    (calm : run.pool.cancelled = false) : run.pool.lost = [] := by
  obtain ⟨history, before, follows⟩ := exists_follows reached
  have accounts := Pool.Accounts.of_reachable before
  have losses := Pool.Losses.of_reachable before
  have undisturbed : ¬Pool.Disturbed history := fun disturbed =>
    absurd (calm.symm.trans (follows.cancelled_of_disturbed disturbed)) (by decide)
  exact follows.pool ▸ Pool.lost_eq_nil (fun _ lost => losses.justified accounts lost) undisturbed

/-- The report of an analysis that is over shows the outcome of each inspection that ended, cancelled
or not, but for those that were given up. Each of these found no room when it was first offered, and
none is given up unless the analysis was cancelled. -/
theorem report_covers_inspections (subject : Subject) (valid : subject.settings.fault? = none)
    (workers capacity : Nat) (paths : List Path) (turns : List Turn) (run : Run)
    (taken : (begin workers capacity paths).afterAll? subject turns = some run)
    (ended : run.isOver = true) (started finished : Time.Instant) (elapsed : Time.Duration) :
    let report := run.gathered.report subject.settings started finished elapsed
    let dropped := along subject givenUp? (begin workers capacity paths) turns
    (outcomes subject run).Perm (report.outcomes ++ dropped) ∧
      dropped.Subperm (along subject (turnedAway? subject) (begin workers capacity paths) turns) ∧
      (run.pool.cancelled = false → dropped = []) := by
  intro report dropped
  have reached : Reachable subject workers capacity paths run :=
    reachable_of_afterAll? turns .begun taken
  have lost : run.pool.lostOutcomes = dropped := lostOutcomes_of_afterAll? .begun taken
  refine ⟨?_, ?_, fun calm => ?_⟩
  · obtain ⟨history, before, follows⟩ := exists_follows reached
    have closed : history.pool.phase = .closed := follows.pool ▸ (isOver_iff.1 ended).1
    have still := (Pool.Endings.of_reachable before).rested closed
    have returned := (Pool.Accounts.of_reachable before).returned
    rw [(Pool.views_of_allStopped still).2, List.nil_append, follows.returned, follows.pool,
      lost, outcomes_eq_report valid reached ended started finished elapsed] at returned
    exact returned
  · have held := held_of_afterAll? .begun taken
    have free : (begin workers capacity paths).pool.held = [] :=
      Pool.filterMap_idle workers Worker.held? rfl
    rw [free, List.nil_append] at held
    exact (List.sublist_append_right _ _).subperm.trans held
  · rw [← lost, Pool.lostOutcomes, lost_of_calm reached calm]
    rfl

/-- Two workers with one place in each queue. The failure of the second file waits behind that of the
first one when the analysis is cancelled. -/
def abandonedTurns : List Turn :=
  [.submit, .proceed 0, .submit, .proceed 1, .finish 0 none, .finish 1 none, .cancel, .release 1,
    .close, .proceed 0, .closed, .gatherFailure]

def abandoned : Run :=
  ((begin 2 1 crowdedPaths).afterAll? sampleSubject abandonedTurns).getD (begin 2 1 crowdedPaths)

theorem report_covers_inspections_sample :
    sampleSubject.settings.fault? = none ∧
      (begin 2 1 crowdedPaths).afterAll? sampleSubject abandonedTurns = some abandoned ∧
      abandoned.isOver = true ∧ abandoned.gathered.failures.map Failure.path = [⟨[47, 98]⟩] ∧
      ∃ dropped : List (Path × Except Failure Tally), dropped.map Prod.fst = [⟨[47, 99]⟩] ∧
        (outcomes sampleSubject abandoned).Perm
          ((abandoned.gathered.report sampleSubject.settings Time.Instant.epoch Time.Instant.epoch
            .none).outcomes ++ dropped) := by
  have taken : (begin 2 1 crowdedPaths).afterAll? sampleSubject abandonedTurns = some abandoned :=
    rfl
  obtain ⟨covers, _, _⟩ := report_covers_inspections sampleSubject (by decide) 2 1 crowdedPaths
    abandonedTurns abandoned taken (by decide) Time.Instant.epoch Time.Instant.epoch .none
  exact ⟨by decide, taken, by decide, by decide, _, by decide, covers⟩

/-- Not every inspection that ended is in the report of an analysis that was cancelled. -/
theorem not_all_inspections_reported :
    ¬∀ (subject : Subject) (workers capacity : Nat) (paths : List Path) (run : Run)
      (started finished : Time.Instant) (elapsed : Time.Duration),
      subject.settings.fault? = none →
      Reachable subject workers capacity paths run → run.isOver = true →
      let report := run.gathered.report subject.settings started finished elapsed
      (report.files.map Tally.path ++ report.failures.map Failure.path).Perm
        (run.inspected.map Prod.fst) := by
  intro covers
  have reached : Reachable sampleSubject 2 1 crowdedPaths abandoned :=
    reachable_of_afterAll? abandonedTurns .begun rfl
  have same := covers sampleSubject 2 1 crowdedPaths abandoned Time.Instant.epoch
    Time.Instant.epoch .none (by decide) reached (by decide)
  have fewer := same.length_eq
  revert fewer
  decide

end Analysis.Run

end LogCensus
