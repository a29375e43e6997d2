import LogCensus.Proofs.Pool.Steps

/-!
Where the jobs of a pool are. A job that was accepted waits in the queue or has entered the
processor; one that has entered is still there, crashed, or was returned with an outcome; an outcome
is held by a worker, has reached its queue, or is lost. Each of the three divisions is an invariant
of its own, and together they leave each job exactly one place.
-/

namespace LogCensus

variable {P J R E α β : Type}

def Channel.items (channel : Channel J α) : List (J × α) := channel.received ++ channel.queue

def Loss.outcome? : Loss R E → Option (Except E R)
  | .crashed => none
  | .cancelled outcome => some outcome
  | .unwanted outcome => some outcome

namespace Pool

def running (pool : Pool J R E) : List J := pool.workers.filterMap Worker.running?

def held (pool : Pool J R E) : List (J × Except E R) := pool.workers.filterMap Worker.held?

def okItem (item : J × R) : J × Except E R := (item.1, .ok item.2)
def errorItem (item : J × E) : J × Except E R := (item.1, .error item.2)

def outcomes (pool : Pool J R E) : List (J × Except E R) :=
  pool.results.items.map okItem ++ pool.errors.items.map errorItem

def lostOutcome? (item : J × Loss R E) : Option (J × Except E R) :=
  item.2.outcome?.map fun outcome => (item.1, outcome)

def lostOutcomes (pool : Pool J R E) : List (J × Except E R) := pool.lost.filterMap lostOutcome?

def crash (item : J × Loss R E) : Option J :=
  match item.2 with
  | .crashed => some item.1
  | _ => none

def crashes (pool : Pool J R E) : List J := pool.lost.filterMap crash

theorem count_filterMap_set [BEq β] {items : List α} {index : Nat} {old : α}
    (present : items[index]? = some old) (new : α) (view : α → Option β) (value : β) :
    ((items.set index new).filterMap view).count value + (view old).toList.count value =
      (items.filterMap view).count value + (view new).toList.count value := by
  induction items generalizing index with
  | nil => simp at present
  | cons head rest ih =>
    cases index with
    | zero =>
      simp only [List.getElem?_cons_zero, Option.some.injEq] at present
      subst present
      simp only [List.set_cons_zero, List.filterMap_cons]
      cases view head <;> cases view new <;> simp [List.count_cons]
      omega
    | succ index =>
      have later := ih (by simpa using present)
      simp only [List.set_cons_succ, List.filterMap_cons]
      cases view head <;> simp only [List.count_cons] <;> omega

section Views

variable {pool : Pool J R E} {worker : Nat} {old new : Worker J R E} {job : J}
  {outcome : Except E R}

theorem count_running_set [BEq J] (next : Pool J R E)
    (turn : pool.workers[worker]? = some old)
    (changed : next.workers = pool.workers.set worker new) (item : J) :
    next.running.count item + old.running?.toList.count item =
      pool.running.count item + new.running?.toList.count item := by
  rw [running, changed]
  exact count_filterMap_set turn new Worker.running? item

theorem count_running_left [BEq J] (next : Pool J R E)
    (turn : pool.workers[worker]? = some (.running job))
    (changed : next.workers = pool.workers.set worker new) (gone : new.running? = none) (item : J) :
    next.running.count item + [job].count item = pool.running.count item := by
  have moved := count_running_set next turn changed item
  rw [gone] at moved
  exact moved

theorem count_running_kept [BEq J] (next : Pool J R E)
    (turn : pool.workers[worker]? = some old)
    (changed : next.workers = pool.workers.set worker new) (outside : old.running? = none)
    (still : new.running? = none) (item : J) :
    next.running.count item = pool.running.count item := by
  have moved := count_running_set next turn changed item
  simpa only [outside, still, Option.toList_none, List.count_nil, Nat.add_zero] using moved

theorem count_held_set [BEq (J × Except E R)] (next : Pool J R E)
    (turn : pool.workers[worker]? = some old)
    (changed : next.workers = pool.workers.set worker new) (item : J × Except E R) :
    next.held.count item + old.held?.toList.count item =
      pool.held.count item + new.held?.toList.count item := by
  rw [held, changed]
  exact count_filterMap_set turn new Worker.held? item

theorem count_held_left [BEq (J × Except E R)] (next : Pool J R E)
    (turn : pool.workers[worker]? = some (.holding job outcome))
    (changed : next.workers = pool.workers.set worker new) (gone : new.held? = none)
    (item : J × Except E R) :
    next.held.count item + [(job, outcome)].count item = pool.held.count item := by
  have moved := count_held_set next turn changed item
  rw [gone] at moved
  exact moved

theorem count_held_kept [BEq (J × Except E R)] (next : Pool J R E)
    (turn : pool.workers[worker]? = some old)
    (changed : next.workers = pool.workers.set worker new) (outside : old.held? = none)
    (still : new.held? = none) (item : J × Except E R) :
    next.held.count item = pool.held.count item := by
  have moved := count_held_set next turn changed item
  simpa only [outside, still, Option.toList_none, List.count_nil, Nat.add_zero] using moved

@[simp] theorem lostOutcomes_push : (pool.push job outcome).lostOutcomes = pool.lostOutcomes := rfl

@[simp] theorem outcomes_setWorker : (pool.setWorker worker new).outcomes = pool.outcomes := rfl

@[simp] theorem lostOutcomes_setWorker :
    (pool.setWorker worker new).lostOutcomes = pool.lostOutcomes := rfl

@[simp] theorem outcomes_lose (loss : Loss R E) : (pool.lose job loss).outcomes = pool.outcomes :=
  rfl

@[simp] theorem lostOutcomes_lose (loss : Loss R E) :
    (pool.lose job loss).lostOutcomes =
      pool.lostOutcomes ++ (lostOutcome? (job, loss)).toList := by
  simp only [lostOutcomes, lose, List.filterMap_append]
  cases loss <;> rfl

theorem crashes_lose (pool : Pool J R E) (loss : Loss R E) :
    (pool.lose job loss).crashes = pool.crashes ++ (crash (job, loss)).toList := by
  simp only [crashes, lose, List.filterMap_append]
  cases loss <;> rfl

theorem count_outcomes_push [BEq (J × Except E R)] (pool : Pool J R E) (job : J)
    (outcome : Except E R) (item : J × Except E R) :
    (pool.push job outcome).outcomes.count item =
      pool.outcomes.count item + [(job, outcome)].count item := by
  cases outcome with
  | ok value =>
    simp only [outcomes, push, Channel.push, Channel.items, List.map_append, List.map_cons,
      List.map_nil, List.count_append, okItem]
    omega
  | error value =>
    simp only [outcomes, push, Channel.push, Channel.items, List.map_append, List.map_cons,
      List.map_nil, List.count_append, errorItem]
    omega

theorem lostOutcomes_unwanted (queue : List (J × α)) (wrap : α → Except E R) :
    (queue.map fun item => (item.1, (.unwanted (wrap item.2) : Loss R E))).filterMap lostOutcome? =
      queue.map fun item => (item.1, wrap item.2) := by
  simp [List.filterMap_map, Function.comp_def, lostOutcome?, Loss.outcome?]

theorem crashes_unwanted (queue : List (J × α)) (wrap : α → Except E R) :
    (queue.map fun item => (item.1, (.unwanted (wrap item.2) : Loss R E))).filterMap crash =
      [] := by
  rw [List.filterMap_map]
  exact List.filterMap_eq_nil_iff.2 fun _ _ => rfl

theorem filterMap_idle (count : Nat) (view : Worker J R E → Option β) (none : view .idle = none) :
    (List.replicate count .idle).filterMap view = [] :=
  List.filterMap_eq_nil_iff.2 fun _ member => List.eq_of_mem_replicate member ▸ none

end Views

/-- The three divisions, and the processor that all workers have. -/
structure Accounts (history : History P J R E) : Prop where
  accepted : history.accepted.Perm (history.pool.jobs ++ history.entered.map Prod.snd)
  entered : (history.entered.map Prod.snd).Perm
    (history.pool.running ++ history.crashed ++ history.returned.map Prod.fst)
  returned : history.returned.Perm
    (history.pool.held ++ history.pool.outcomes ++ history.pool.lostOutcomes)
  crashed : history.pool.crashes = history.crashed
  processed : history.pool.workers ≠ [] → history.processor.isSome
  unstarted : history.pool.started = false → history.pool.workers = []

namespace Accounts

variable {before after : History P J R E}

theorem create (size capacity : Nat) :
    Accounts (History.create size capacity : History P J R E) where
  accepted := .nil
  entered := .nil
  returned := .nil
  crashed := rfl
  processed := fun nonempty => absurd rfl nonempty
  unstarted := fun _ => rfl

theorem accepted_step (accounts : Accounts before) (step : Step before after) :
    after.accepted.Perm (after.pool.jobs ++ after.entered.map Prod.snd) := by
  have balance := accounts.accepted
  cases step with
  | accepted job accepting calm room =>
    simp only [List.append_assoc]
    refine (balance.append_right [job]).trans ?_
    rw [List.append_assoc]
    exact List.perm_append_comm.append_left before.pool.jobs
  | entered worker job rest turn calm front =>
    have nonempty : before.pool.workers ≠ [] := fun empty => by simp [empty] at turn
    obtain ⟨processor, present⟩ := Option.isSome_iff_exists.1 (accounts.processed nonempty)
    rw [front] at balance
    simp only [setWorker, present, Option.map_some, Option.toList_some, List.map_append,
      List.map_cons, List.map_nil]
    rw [← List.append_assoc]
    exact balance.trans (List.perm_append_singleton job _).symm
  | _ => exact balance

theorem entered_step (accounts : Accounts before) (step : Step before after) :
    (after.entered.map Prod.snd).Perm
      (after.pool.running ++ after.crashed ++ after.returned.map Prod.fst) := by
  classical
  have balance := accounts.entered
  rw [List.perm_iff_count] at balance ⊢
  intro item
  have sum := balance item
  simp only [List.count_append] at sum ⊢
  cases step with
  | started processor fresh notClosed =>
    have idle := filterMap_idle before.pool.size (Worker.running? : Worker J R E → _) rfl
    simpa [running, accounts.unstarted fresh, idle] using sum
  | entered worker job rest turn calm front =>
    have nonempty : before.pool.workers ≠ [] := fun empty => by simp [empty] at turn
    obtain ⟨processor, present⟩ := Option.isSome_iff_exists.1 (accounts.processed nonempty)
    have moved := count_running_set ({ before.pool with jobs := rest }.setWorker worker
      (.running job)) turn rfl item
    simp only [Worker.running?, Option.toList_none, Option.toList_some, List.count_nil] at moved
    simp only [present, Option.map_some, Option.toList_some, List.map_append, List.map_cons,
      List.map_nil, List.count_append]
    omega
  | retired worker turn reason =>
    have moved := count_running_kept (before.pool.setWorker worker .stopped) turn rfl rfl rfl item
    dsimp only
    omega
  | sent worker job outcome turn wanted room =>
    have moved := count_running_left ((before.pool.push job outcome).setWorker worker .idle)
      turn rfl rfl item
    simp only [List.map_append, List.map_cons, List.map_nil, List.count_append]
    omega
  | deferred worker job outcome turn wanted full =>
    have moved := count_running_left (before.pool.setWorker worker (.holding job outcome)) turn rfl
      rfl item
    simp only [List.map_append, List.map_cons, List.map_nil, List.count_append]
    omega
  | refused worker job outcome turn unwanted =>
    have moved := count_running_left
      ((before.pool.lose job (.unwanted outcome)).setWorker worker .stopped) turn rfl rfl item
    simp only [List.map_append, List.map_cons, List.map_nil, List.count_append]
    omega
  | crashed worker job turn =>
    have moved := count_running_left
      ((before.pool.lose job .crashed).setWorker worker .stopped) turn rfl rfl item
    simp only [List.count_append]
    omega
  | sentLate worker job outcome turn calm wanted room =>
    have moved := count_running_kept ((before.pool.push job outcome).setWorker worker .idle)
      turn rfl rfl rfl item
    dsimp only
    omega
  | refusedLate worker job outcome turn calm unwanted =>
    have moved := count_running_kept
      ((before.pool.lose job (.unwanted outcome)).setWorker worker .stopped) turn rfl rfl rfl item
    dsimp only
    omega
  | abandoned worker job outcome turn cancelled =>
    have moved := count_running_kept
      ((before.pool.lose job (.cancelled outcome)).setWorker worker .stopped) turn rfl rfl rfl item
    dsimp only
    omega
  | _ => exact sum

theorem returned_step (accounts : Accounts before) (step : Step before after) :
    after.returned.Perm (after.pool.held ++ after.pool.outcomes ++ after.pool.lostOutcomes) := by
  classical
  have balance := accounts.returned
  rw [List.perm_iff_count] at balance ⊢
  intro item
  have sum := balance item
  simp only [List.count_append] at sum ⊢
  cases step with
  | started processor fresh notClosed =>
    have idle := filterMap_idle before.pool.size (Worker.held? : Worker J R E → _) rfl
    simpa [held, accounts.unstarted fresh, idle, outcomes, lostOutcomes] using sum
  | droppedResults taken =>
    have thrown : _ = before.pool.results.queue.map okItem :=
      lostOutcomes_unwanted before.pool.results.queue (.ok : R → Except E R)
    simp only [held, outcomes, lostOutcomes, Channel.items, List.map_append, List.filterMap_append,
      List.count_append, List.append_nil, thrown] at sum ⊢
    omega
  | droppedErrors taken =>
    have thrown : _ = before.pool.errors.queue.map errorItem :=
      lostOutcomes_unwanted before.pool.errors.queue (.error : E → Except E R)
    simp only [held, outcomes, lostOutcomes, Channel.items, List.map_append, List.filterMap_append,
      List.count_append, List.append_nil, thrown] at sum ⊢
    omega
  | receivedResult value rest taken front =>
    have same : before.pool.results.items = before.pool.results.received ++ [value] ++ rest := by
      rw [Channel.items, front, List.append_assoc, List.singleton_append]
    rw [outcomes, same] at sum
    exact sum
  | receivedError value rest taken front =>
    have same : before.pool.errors.items = before.pool.errors.received ++ [value] ++ rest := by
      rw [Channel.items, front, List.append_assoc, List.singleton_append]
    rw [outcomes, same] at sum
    exact sum
  | entered worker job rest turn calm front =>
    have kept := count_held_kept ({ before.pool with jobs := rest }.setWorker worker
      (.running job)) turn rfl rfl rfl item
    dsimp only
    rw [kept]
    exact sum
  | retired worker turn reason =>
    have kept := count_held_kept (before.pool.setWorker worker .stopped) turn rfl rfl rfl item
    dsimp only
    rw [kept]
    exact sum
  | sent worker job outcome turn wanted room =>
    have kept := count_held_kept ((before.pool.push job outcome).setWorker worker .idle) turn rfl
      rfl rfl item
    have grown := count_outcomes_push before.pool job outcome item
    simp only [outcomes_setWorker, lostOutcomes_setWorker, lostOutcomes_push, List.count_append]
    omega
  | deferred worker job outcome turn wanted full =>
    have moved := count_held_set (before.pool.setWorker worker (.holding job outcome)) turn rfl item
    simp only [Worker.held?, Option.toList_none, Option.toList_some, List.count_nil] at moved
    simp only [outcomes_setWorker, lostOutcomes_setWorker, List.count_append]
    omega
  | refused worker job outcome turn unwanted =>
    have kept := count_held_kept ((before.pool.lose job (.unwanted outcome)).setWorker worker
      .stopped) turn rfl rfl rfl item
    simp only [outcomes_setWorker, outcomes_lose, lostOutcomes_setWorker, lostOutcomes_lose,
      lostOutcome?, Loss.outcome?, Option.map_some, Option.toList_some, List.count_append]
    omega
  | crashed worker job turn =>
    have kept := count_held_kept ((before.pool.lose job .crashed).setWorker worker .stopped) turn
      rfl rfl rfl item
    simp only [outcomes_setWorker, outcomes_lose, lostOutcomes_setWorker, lostOutcomes_lose,
      lostOutcome?, Loss.outcome?, Option.map_none, Option.toList_none, List.append_nil]
    omega
  | sentLate worker job outcome turn calm wanted room =>
    have moved := count_held_left ((before.pool.push job outcome).setWorker worker .idle) turn rfl
      rfl item
    have grown := count_outcomes_push before.pool job outcome item
    simp only [outcomes_setWorker, lostOutcomes_setWorker, lostOutcomes_push]
    omega
  | refusedLate worker job outcome turn calm unwanted =>
    have moved := count_held_left ((before.pool.lose job (.unwanted outcome)).setWorker worker
      .stopped) turn rfl rfl item
    simp only [outcomes_setWorker, outcomes_lose, lostOutcomes_setWorker, lostOutcomes_lose,
      lostOutcome?, Loss.outcome?, Option.map_some, Option.toList_some, List.count_append]
    omega
  | abandoned worker job outcome turn cancelled =>
    have moved := count_held_left ((before.pool.lose job (.cancelled outcome)).setWorker worker
      .stopped) turn rfl rfl item
    simp only [outcomes_setWorker, outcomes_lose, lostOutcomes_setWorker, lostOutcomes_lose,
      lostOutcome?, Loss.outcome?, Option.map_some, Option.toList_some, List.count_append]
    omega
  | _ => exact sum

theorem crashed_step (accounts : Accounts before) (step : Step before after) :
    after.pool.crashes = after.crashed := by
  have same := accounts.crashed
  cases step with
  | droppedResults =>
    have silent := crashes_unwanted before.pool.results.queue (.ok : R → Except E R)
    simpa only [crashes, List.filterMap_append, silent, List.append_nil] using same
  | droppedErrors =>
    have silent := crashes_unwanted before.pool.errors.queue (.error : E → Except E R)
    simpa only [crashes, List.filterMap_append, silent, List.append_nil] using same
  | refused worker job | crashed worker job | refusedLate worker job | abandoned worker job =>
    refine (crashes_lose before.pool _).trans ?_
    simpa [crash] using same
  | _ => exact same

theorem processed_step (accounts : Accounts before) (step : Step before after) :
    after.pool.workers ≠ [] → after.processor.isSome := by
  have same := accounts.processed
  cases step with
  | started => exact fun _ => rfl
  | entered | retired | sent | deferred | refused | crashed | sentLate | refusedLate | abandoned =>
    simpa [setWorker, lose, push] using same
  | _ => exact same

theorem unstarted_step (accounts : Accounts before) (step : Step before after) :
    after.pool.started = false → after.pool.workers = [] := by
  have same := accounts.unstarted
  cases step with
  | started => simp
  | entered | retired | sent | deferred | refused | crashed | sentLate | refusedLate | abandoned =>
    simpa [setWorker, lose, push] using same
  | _ => exact same

theorem step (accounts : Accounts before) (step : Step before after) : Accounts after where
  accepted := accounts.accepted_step step
  entered := accounts.entered_step step
  returned := accounts.returned_step step
  crashed := accounts.crashed_step step
  processed := accounts.processed_step step
  unstarted := accounts.unstarted_step step

theorem of_reachable {size capacity : Nat} {history : History P J R E}
    (reached : History.Reachable size capacity history) : Accounts history :=
  reached.invariant (Accounts.create size capacity) fun _ accounts => accounts.step

end Accounts

end Pool

end LogCensus
