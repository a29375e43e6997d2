import LogCensus.Proofs.Pool.Losses

/-!
No job gets lost unnoticed. Whatever happens to a pool, each accepted job is in one place, and one
that is lost has its reason; a pool that is closed undisturbed has an outcome for each of them.
-/

namespace LogCensus.Pool

variable {P J R E : Type} {size capacity : Nat} {history : History P J R E}

def Justified (history : History P J R E) : J × Loss R E → Prop
  | (job, .crashed) => job ∈ history.crashed
  | (job, .cancelled outcome) =>
    (job, outcome) ∈ history.deferred ∧ history.pool.cancelled = true
  | (job, .unwanted outcome) =>
    (job, outcome) ∈ history.returned ∧ history.pool.receiverFor outcome = .dropped

theorem lost_perm (pool : Pool J R E) :
    (pool.crashes ++ pool.lostOutcomes.map Prod.fst).Perm (pool.lost.map Prod.fst) := by
  rw [crashes, lostOutcomes]
  induction pool.lost with
  | nil => exact .nil
  | cons item rest ih =>
    obtain ⟨job, loss⟩ := item
    cases loss with
    | crashed => exact ih.cons job
    | cancelled outcome => exact List.perm_middle.trans (ih.cons job)
    | unwanted outcome => exact List.perm_middle.trans (ih.cons job)

theorem outcomes_jobs_perm (pool : Pool J R E) :
    (pool.outcomes.map Prod.fst).Perm
      (pool.results.queue.map Prod.fst ++ pool.errors.queue.map Prod.fst ++
        pool.results.received.map Prod.fst ++ pool.errors.received.map Prod.fst) := by
  classical
  have ok (items : List (J × R)) :
      (items.map (okItem : J × R → J × Except E R)).map Prod.fst = items.map Prod.fst := by
    simp [okItem, Function.comp_def]
  have error (items : List (J × E)) :
      (items.map (errorItem : J × E → J × Except E R)).map Prod.fst = items.map Prod.fst := by
    simp [errorItem, Function.comp_def]
  rw [List.perm_iff_count]
  intro job
  simp only [outcomes, List.map_append, ok, error, Channel.items, List.count_append]
  omega

/-- Each job is in one of eight places. -/
theorem Accounts.places (accounts : Accounts history) :
    history.accepted.Perm
      (history.pool.jobs ++ history.pool.running ++ history.pool.held.map Prod.fst ++
        history.pool.results.queue.map Prod.fst ++ history.pool.errors.queue.map Prod.fst ++
        history.pool.results.received.map Prod.fst ++
        history.pool.errors.received.map Prod.fst ++ history.pool.lost.map Prod.fst) := by
  classical
  have accepted := List.perm_iff_count.1 accounts.accepted
  have entered := List.perm_iff_count.1 accounts.entered
  have returned := List.perm_iff_count.1 (accounts.returned.map Prod.fst)
  have lost := List.perm_iff_count.1 (lost_perm history.pool)
  have outcomes := List.perm_iff_count.1 (outcomes_jobs_perm history.pool)
  rw [accounts.crashed] at lost
  rw [List.perm_iff_count]
  intro job
  have one := accepted job
  have two := entered job
  have three := returned job
  have four := lost job
  have five := outcomes job
  simp only [List.map_append, List.count_append] at one two three four five ⊢
  omega

theorem Losses.justified (losses : Losses history) (accounts : Accounts history)
    {item : J × Loss R E} (lost : item ∈ history.pool.lost) : Justified history item := by
  obtain ⟨job, loss⟩ := item
  have returned (outcome : Except E R) (gone : loss.outcome? = some outcome) :
      (job, outcome) ∈ history.returned := by
    refine accounts.returned.mem_iff.2 (List.mem_append_right _ ?_)
    exact List.mem_filterMap.2 ⟨_, lost, by simp [lostOutcome?, gone]⟩
  cases loss with
  | crashed =>
    have crash : job ∈ history.pool.crashes := List.mem_filterMap.2 ⟨_, lost, rfl⟩
    rw [accounts.crashed] at crash
    exact crash
  | cancelled outcome => exact (losses.cancelled job outcome lost).symm
  | unwanted outcome => exact ⟨returned outcome rfl, losses.unwanted job outcome lost⟩

theorem lost_eq_nil (justified : ∀ item ∈ history.pool.lost, Justified history item)
    (undisturbed : ¬Disturbed history) : history.pool.lost = [] := by
  rw [List.eq_nil_iff_forall_not_mem]
  rintro ⟨job, loss⟩ lost
  have reason := justified _ lost
  cases loss with
  | crashed => exact undisturbed (.inr (.inl (List.ne_nil_of_mem reason)))
  | cancelled outcome => exact undisturbed (.inl reason.2)
  | unwanted outcome => exact undisturbed (.inr (.inr ⟨outcome, reason.2⟩))

/-- A pool that is closed undisturbed has done all its work. -/
theorem Endings.exhausted (endings : Endings size history) (positive : 0 < size)
    (started : history.pool.started = true) (undisturbed : ¬Disturbed history)
    (closed : history.pool.phase = .closed) : history.pool.jobs = [] := by
  have staffed := endings.staffed started
  obtain ⟨worker, member⟩ := List.exists_mem_of_length_pos (staffed ▸ positive)
  have stopped := eq_stopped_of_allStopped (endings.rested closed) member
  exact ((endings.stopped (stopped ▸ member)).resolve_left undisturbed).2

theorem views_of_allStopped {pool : Pool J R E} (rest : pool.allStopped = true) :
    pool.running = [] ∧ pool.held = [] := by
  constructor
  · refine List.filterMap_eq_nil_iff.2 fun worker member => ?_
    rw [eq_stopped_of_allStopped rest member]
    rfl
  · refine List.filterMap_eq_nil_iff.2 fun worker member => ?_
    rw [eq_stopped_of_allStopped rest member]
    rfl

/-- What a pool that is closed undisturbed leaves. -/
theorem closed_undisturbed (positive : 0 < size)
    (reached : History.Reachable size capacity history) (started : history.pool.started = true)
    (undisturbed : ¬Disturbed history) (closed : history.pool.phase = .closed) :
    history.pool.jobs = [] ∧ history.accepted.Perm (history.returned.map Prod.fst) ∧
      history.returned.Perm history.pool.outcomes := by
  have accounts := Accounts.of_reachable reached
  have endings := Endings.of_reachable reached
  have empty := endings.exhausted positive started undisturbed closed
  obtain ⟨quiet, free⟩ := views_of_allStopped (endings.rested closed)
  have calm : history.crashed = [] :=
    Decidable.not_not.1 fun crashed => undisturbed (.inr (.inl crashed))
  have lost := lost_eq_nil
    (fun _ lost => (Losses.of_reachable reached).justified accounts lost) undisturbed
  refine ⟨empty, ?_, ?_⟩
  · have accepted := accounts.accepted.trans (accounts.entered.append_left history.pool.jobs)
    simpa [empty, quiet, calm] using accepted
  · simpa [free, lostOutcomes, lost] using accounts.returned

/-- Wherever the events lead, each accepted job is in the queue, inside the processor, with a worker
that waits for room, in the queue of its outcome, received or lost, and in one of these places only.
It has entered the processor at most once, what is delivered or held is what the processor returned,
and what is lost is lost for a reason. -/
theorem jobs_accounted_for (positive : 0 < size)
    (reached : History.Reachable size capacity history) :
    history.accepted.Perm
      (history.pool.jobs ++ history.pool.running ++ history.pool.held.map Prod.fst ++
        history.pool.results.queue.map Prod.fst ++ history.pool.errors.queue.map Prod.fst ++
        history.pool.results.received.map Prod.fst ++
        history.pool.errors.received.map Prod.fst ++ history.pool.lost.map Prod.fst) ∧
    history.accepted.Perm (history.pool.jobs ++ history.entered.map Prod.snd) ∧
    (history.entered.map Prod.snd).Perm
      (history.pool.running ++ history.crashed ++ history.returned.map Prod.fst) ∧
    history.returned.Perm
      (history.pool.held ++ history.pool.outcomes ++ history.pool.lostOutcomes) ∧
    (∀ item ∈ history.pool.lost, Justified history item) ∧
    (history.pool.started = true → history.pool.cancelled = false → history.crashed = [] →
      history.pool.results.receiver ≠ .dropped → history.pool.errors.receiver ≠ .dropped →
      history.pool.phase = .closed →
      history.pool.jobs = [] ∧ history.accepted.Perm (history.returned.map Prod.fst) ∧
        history.returned.Perm history.pool.outcomes) := by
  have accounts := Accounts.of_reachable reached
  have losses := Losses.of_reachable reached
  refine ⟨accounts.places, accounts.accepted, accounts.entered, accounts.returned,
    fun _ lost => losses.justified accounts lost, ?_⟩
  intro started calm unbroken results errors closed
  have undisturbed : ¬Disturbed history := by
    rintro (cancelled | crashed | ⟨outcome, dropped⟩)
    · simp [calm] at cancelled
    · exact crashed unbroken
    · cases outcome with
      | ok value => exact results dropped
      | error value => exact errors dropped
  exact closed_undisturbed positive reached started undisturbed closed

/-- Two workers with queues of one place: the second result has to wait until the first one is
received, the third job fails, and then the pool is closed. -/
def sampleEvents : List (Event Unit Nat Nat String) :=
  [.takeResults, .start (), .submit 3, .proceed 0, .submit 4, .proceed 1, .finish 0 (.ok 30),
    .finish 1 (.ok 40), .submit 5, .receiveResult, .release 1, .proceed 0,
    .finish 0 (.error "odd"), .close, .proceed 0, .proceed 1, .closed]

def historyOf (events : List (Event Unit Nat Nat String)) : History Unit Nat Nat String :=
  ((History.create 2 1).afterAll? events).getD (History.create 2 1)

theorem jobs_accounted_for_sample :
    History.Reachable 2 1 (historyOf sampleEvents) ∧
      (historyOf sampleEvents).deferred = [(4, .ok 40)] ∧ (historyOf sampleEvents).pool.jobs = [] ∧
      (historyOf sampleEvents).accepted.Perm ((historyOf sampleEvents).returned.map Prod.fst) ∧
      (historyOf sampleEvents).returned.Perm (historyOf sampleEvents).pool.outcomes := by
  have reached : History.Reachable 2 1 (historyOf sampleEvents) :=
    History.reachable_of_afterAll? sampleEvents .created rfl
  have balance := jobs_accounted_for (by decide) reached
  exact ⟨reached, rfl, balance.2.2.2.2.2 rfl rfl rfl (by decide) (by decide) rfl⟩

end LogCensus.Pool
