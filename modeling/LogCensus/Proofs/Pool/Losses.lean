import LogCensus.Proofs.Pool.Accounts

/-!
Why outcomes are lost, and why workers stop. An outcome is lost only where its processing crashed,
where it waited for room until the pool was cancelled, or where nobody wants it any more; a worker
stops for one of these reasons or because there is no more work. So a pool that was left alone is
closed with an outcome for each job.
-/

namespace LogCensus.Pool

variable {P J R E : Type}

theorem dropped_step {before after : History P J R E} (outcome : Except E R)
    (dropped : before.pool.receiverFor outcome = .dropped) (step : Step before after) :
    after.pool.receiverFor outcome = .dropped := by
  cases step with
  | tookResults kept =>
    cases outcome with
    | ok value => simp [receiverFor, kept] at dropped
    | error value => exact dropped
  | tookErrors kept =>
    cases outcome with
    | ok value => exact dropped
    | error value => simp [receiverFor, kept] at dropped
  | droppedResults =>
    cases outcome with
    | ok value => rfl
    | error value => exact dropped
  | droppedErrors =>
    cases outcome with
    | ok value => exact dropped
    | error value => rfl
  | receivedResult | receivedError => cases outcome <;> exact dropped
  | sent worker job other | sentLate worker job other =>
    cases outcome <;> cases other <;> exact dropped
  | _ => exact dropped

structure Losses (history : History P J R E) : Prop where
  held : ∀ item ∈ history.pool.held, item ∈ history.deferred
  cancelled : ∀ job outcome, (job, .cancelled outcome) ∈ history.pool.lost →
    history.pool.cancelled = true ∧ (job, outcome) ∈ history.deferred
  unwanted : ∀ job outcome, (job, .unwanted outcome) ∈ history.pool.lost →
    history.pool.receiverFor outcome = .dropped

namespace Losses

variable {before after : History P J R E}

theorem create (size capacity : Nat) :
    Losses (History.create size capacity : History P J R E) where
  held := by simp [History.create, Pool.create, Pool.held]
  cancelled := by simp [History.create, Pool.create]
  unwanted := by simp [History.create, Pool.create]

theorem held_setWorker (pool : Pool J R E) {next : Pool J R E} {worker : Nat} {new : Worker J R E}
    (changed : next.workers = pool.workers.set worker new) {item : J × Except E R}
    (member : item ∈ next.held) : item ∈ pool.held ∨ new.held? = some item := by
  rw [Pool.held, changed] at member
  obtain ⟨one, present, holds⟩ := List.mem_filterMap.1 member
  rcases List.mem_or_eq_of_mem_set present with old | rfl
  · exact .inl (List.mem_filterMap.2 ⟨one, old, holds⟩)
  · exact .inr holds

theorem held_step (losses : Losses before) (step : Step before after) :
    ∀ item ∈ after.pool.held, item ∈ after.deferred := by
  have known := losses.held
  intro item member
  cases step with
  | started =>
    have idle := filterMap_idle before.pool.size (Worker.held? : Worker J R E → _) rfl
    simp [Pool.held, idle] at member
  | entered | retired | sent | refused | crashed | sentLate | refusedLate | abandoned =>
    rcases held_setWorker before.pool rfl member with old | new
    · exact known item old
    · cases new
  | deferred worker job outcome =>
    rcases held_setWorker before.pool rfl member with old | new
    · exact List.mem_append_left _ (known item old)
    · simp only [Worker.held?, Option.some.injEq] at new
      simp [new]
  | _ => exact known item member

theorem cancelled_step (losses : Losses before) (step : Step before after) (job : J)
    (outcome : Except E R) (lost : (job, .cancelled outcome) ∈ after.pool.lost) :
    after.pool.cancelled = true ∧ (job, outcome) ∈ after.deferred := by
  have known := losses.cancelled job outcome
  cases step with
  | cancelled => exact ⟨rfl, (known lost).2⟩
  | deferred =>
    have old := known lost
    exact ⟨old.1, List.mem_append_left _ old.2⟩
  | droppedResults | droppedErrors | refused | crashed | refusedLate =>
    exact known (by simpa [setWorker, lose] using lost)
  | abandoned worker other waiting turn cancelled =>
    refine ⟨cancelled, ?_⟩
    rcases List.mem_append.1 lost with old | new
    · exact (known old).2
    · simp only [List.mem_singleton, Prod.mk.injEq, Loss.cancelled.injEq] at new
      rw [new.1, new.2]
      exact losses.held _ (List.mem_filterMap.2 ⟨_, List.mem_of_getElem? turn, rfl⟩)
  | _ => exact known lost

theorem unwanted_step (losses : Losses before) (step : Step before after) (job : J)
    (outcome : Except E R) (lost : (job, .unwanted outcome) ∈ after.pool.lost) :
    after.pool.receiverFor outcome = .dropped := by
  have known : (job, .unwanted outcome) ∈ before.pool.lost →
      after.pool.receiverFor outcome = .dropped :=
    fun old => dropped_step outcome (losses.unwanted job outcome old) step
  cases step with
  | droppedResults taken =>
    rcases List.mem_append.1 lost with old | new
    · exact known old
    · obtain ⟨value, _, same⟩ := List.mem_map.1 new
      simp only [Prod.mk.injEq, Loss.unwanted.injEq] at same
      rw [← same.2]
      rfl
  | droppedErrors taken =>
    rcases List.mem_append.1 lost with old | new
    · exact known old
    · obtain ⟨value, _, same⟩ := List.mem_map.1 new
      simp only [Prod.mk.injEq, Loss.unwanted.injEq] at same
      rw [← same.2]
      rfl
  | refused worker other result turn unwanted
  | refusedLate worker other result turn calm unwanted =>
    rcases List.mem_append.1 lost with old | new
    · exact known old
    · simp only [List.mem_singleton, Prod.mk.injEq, Loss.unwanted.injEq] at new
      rw [new.2]
      exact unwanted
  | crashed | abandoned => exact known (by simpa [setWorker, lose] using lost)
  | _ => exact known lost

theorem step (losses : Losses before) (step : Step before after) : Losses after where
  held := losses.held_step step
  cancelled := losses.cancelled_step step
  unwanted := losses.unwanted_step step

theorem of_reachable {size capacity : Nat} {history : History P J R E}
    (reached : History.Reachable size capacity history) : Losses history :=
  reached.invariant (create size capacity) fun _ losses => losses.step

end Losses

/-- What makes workers stop although there may be more work. -/
def Disturbed (history : History P J R E) : Prop :=
  history.pool.cancelled = true ∨ history.crashed ≠ [] ∨
    ∃ outcome, history.pool.receiverFor outcome = .dropped

def Exhausted (history : History P J R E) : Prop :=
  history.pool.phase ≠ .open ∧ history.pool.jobs = []

theorem eq_stopped_of_allStopped {pool : Pool J R E} {worker : Worker J R E}
    (rest : pool.allStopped = true) (member : worker ∈ pool.workers) : worker = .stopped := by
  have done := List.all_eq_true.1 rest worker member
  cases worker with
  | stopped => rfl
  | idle | running | holding => cases done

structure Endings (size : Nat) (history : History P J R E) : Prop where
  sized : history.pool.size = size
  staffed : history.pool.started = true → history.pool.workers.length = size
  stopped : .stopped ∈ history.pool.workers → Disturbed history ∨ Exhausted history
  rested : history.pool.phase = .closed → history.pool.allStopped = true

namespace Endings

variable {size : Nat} {before after : History P J R E}

theorem create (size capacity : Nat) :
    Endings size (History.create size capacity : History P J R E) where
  sized := rfl
  staffed := by simp [History.create, Pool.create]
  stopped := by simp [History.create, Pool.create]
  rested := by simp [History.create, Pool.create]

theorem disturbed_step (disturbed : Disturbed before) (step : Step before after) :
    Disturbed after := by
  rcases disturbed with cancelled | crashed | ⟨outcome, dropped⟩
  · left
    cases step with
    | cancelled => rfl
    | _ => exact cancelled
  · right; left
    cases step with
    | crashed => simp
    | _ => exact crashed
  · exact .inr (.inr ⟨outcome, dropped_step outcome dropped step⟩)

theorem exhausted_step (exhausted : Exhausted before) (step : Step before after) :
    Exhausted after := by
  obtain ⟨refusing, empty⟩ := exhausted
  cases step with
  | accepted job accepting => exact absurd accepting refusing
  | closing accepting => exact absurd accepting refusing
  | closed => exact ⟨by simp, empty⟩
  | entered worker job rest turn calm front => simp [empty] at front
  | _ => exact ⟨refusing, empty⟩

theorem stopped_setWorker (pool : Pool J R E) {next : Pool J R E} {worker : Nat}
    {new : Worker J R E} (changed : next.workers = pool.workers.set worker new)
    (member : .stopped ∈ next.workers) : .stopped ∈ pool.workers ∨ new = .stopped := by
  rw [changed] at member
  rcases List.mem_or_eq_of_mem_set member with old | same
  · exact .inl old
  · exact .inr same.symm

theorem stopped_step (endings : Endings size before) (step : Step before after)
    (member : .stopped ∈ after.pool.workers) : Disturbed after ∨ Exhausted after := by
  have known (old : .stopped ∈ before.pool.workers) : Disturbed after ∨ Exhausted after :=
    (endings.stopped old).imp (disturbed_step · step) (exhausted_step · step)
  cases step with
  | started => cases List.eq_of_mem_replicate member
  | entered | sent | deferred | sentLate =>
    rcases stopped_setWorker before.pool rfl member with old | new
    · exact known old
    · cases new
  | retired worker turn reason => exact reason.imp .inl fun exhausted => ⟨exhausted.2, exhausted.1⟩
  | refused worker job outcome turn unwanted => exact .inl (.inr (.inr ⟨outcome, unwanted⟩))
  | crashed => exact .inl (.inr (.inl (by simp)))
  | refusedLate worker job outcome turn calm unwanted =>
    exact .inl (.inr (.inr ⟨outcome, unwanted⟩))
  | abandoned worker job outcome turn cancelled => exact .inl (.inl cancelled)
  | _ => exact known member

theorem rested_step (endings : Endings size before) (step : Step before after)
    (closed : after.pool.phase = .closed) : after.pool.allStopped = true := by
  have known := endings.rested
  cases step with
  | started processor fresh notClosed => exact absurd closed notClosed
  | closing => cases closed
  | closed refusing rest => exact rest
  | entered worker job rest turn | retired worker turn | sent worker job outcome turn
  | deferred worker job outcome turn | refused worker job outcome turn | crashed worker job turn
  | sentLate worker job outcome turn | refusedLate worker job outcome turn
  | abandoned worker job outcome turn =>
    cases eq_stopped_of_allStopped (known closed) (List.mem_of_getElem? turn)
  | _ => exact known closed

theorem staffed_step (endings : Endings size before) (step : Step before after)
    (started : after.pool.started = true) : after.pool.workers.length = size := by
  have known := endings.staffed
  cases step with
  | started => simp [endings.sized]
  | entered | retired | sent | deferred | refused | crashed | sentLate | refusedLate | abandoned =>
    simpa [setWorker, lose, push] using known started
  | _ => exact known started

theorem sized_step (endings : Endings size before) (step : Step before after) :
    after.pool.size = size := by
  cases step with
  | _ => exact endings.sized

theorem step (endings : Endings size before) (step : Step before after) : Endings size after where
  sized := endings.sized_step step
  staffed := endings.staffed_step step
  stopped := endings.stopped_step step
  rested := endings.rested_step step

theorem of_reachable {capacity : Nat} {history : History P J R E}
    (reached : History.Reachable size capacity history) : Endings size history :=
  reached.invariant (create size capacity) fun _ endings => endings.step

end Endings

end LogCensus.Pool
