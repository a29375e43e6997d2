import LogCensus.Proofs.Analysis.Following
import LogCensus.Proofs.Inspection
import LogCensus.Proofs.Pool.Conservation
import LogCensus.Proofs.Report
import LogCensus.Proofs.Scan.Reference

/-!
The report on an analysis that is not cancelled does not depend on whose turn it was, on the number
of workers or on the length of the queues: each file is in it as often as it was asked for, with
what comes of it by itself.
-/

namespace LogCensus

namespace Pool

variable {J R E : Type}

def error? : Except E R → Option E
  | .ok _ => none
  | .error value => some value

theorem results_of_outcomes (pool : Pool J R E) :
    pool.outcomes.filterMap (fun item => item.2.toOption) = pool.results.items.map Prod.snd := by
  rw [outcomes, List.filterMap_append, List.filterMap_map, List.filterMap_map]
  have ok : ((fun item : J × Except E R => item.2.toOption) ∘ okItem) = some ∘ Prod.snd := rfl
  have error : ((fun item : J × Except E R => item.2.toOption) ∘ errorItem) = fun _ => none := rfl
  rw [ok, error, List.filterMap_eq_map, List.filterMap_none, List.append_nil]

theorem errors_of_outcomes (pool : Pool J R E) :
    pool.outcomes.filterMap (fun item => error? item.2) = pool.errors.items.map Prod.snd := by
  rw [outcomes, List.filterMap_append, List.filterMap_map, List.filterMap_map]
  have ok : ((fun item : J × Except E R => error? item.2) ∘ okItem) = fun _ => none := rfl
  have error : ((fun item : J × Except E R => error? item.2) ∘ errorItem) = some ∘ Prod.snd := rfl
  rw [ok, error, List.filterMap_eq_map, List.filterMap_none, List.nil_append]

end Pool

namespace Analysis

namespace Subject

def outcome (subject : Subject) (path : Path) : Except Failure Tally :=
  (Inspection.ofPath subject.registry subject.settings (fun _ _ => false) subject.files
    path).outcome

def tallies (subject : Subject) (paths : List Path) : List Tally :=
  paths.filterMap fun path => (subject.outcome path).toOption

def failures (subject : Subject) (paths : List Path) : List Failure :=
  paths.filterMap fun path => Pool.error? (subject.outcome path)

theorem tallies_cons (subject : Subject) (path : Path) (rest : List Path) :
    subject.tallies (path :: rest) =
      (subject.outcome path).toOption.toList ++ subject.tallies rest := by
  unfold tallies
  rw [List.filterMap_cons]
  cases (subject.outcome path).toOption <;> rfl

theorem failures_cons (subject : Subject) (path : Path) (rest : List Path) :
    subject.failures (path :: rest) =
      (Pool.error? (subject.outcome path)).toList ++ subject.failures rest := by
  unfold failures
  rw [List.filterMap_cons]
  cases Pool.error? (subject.outcome path) <;> rfl

end Subject

namespace Run

variable {subject : Subject} {workers capacity : Nat} {paths : List Path} {run : Run}

/-- Nothing but a cancellation disturbs the pool of a run. -/
theorem Follows.cancelled_of_disturbed {history : Pool.History Unit Path Tally Failure}
    (follows : Follows subject paths run history) (disturbed : Pool.Disturbed history) :
    run.pool.cancelled = true := by
  rcases disturbed with cancelled | crashed | ⟨outcome, dropped⟩
  · exact follows.pool ▸ cancelled
  · exact absurd follows.unbroken crashed
  · cases outcome with
    | ok tally => simp [Pool.receiverFor, follows.pool, follows.results] at dropped
    | error failure => simp [Pool.receiverFor, follows.pool, follows.errors] at dropped

/-- What a run that is over and was not cancelled has made of its files. -/
theorem outcomes_settled (positive : 0 < workers)
    (reached : Reachable subject workers capacity paths run) (ended : run.isOver = true)
    (calm : run.pool.cancelled = false) :
    run.pool.outcomes.Perm (paths.map fun path => (path, subject.outcome path)) := by
  obtain ⟨history, before, follows⟩ := exists_follows reached
  have closed : run.pool.phase = .closed := (isOver_iff.1 ended).1
  have undisturbed : ¬Pool.Disturbed history := fun disturbed =>
    absurd (calm.symm.trans (follows.cancelled_of_disturbed disturbed)) (by decide)
  have settled := Pool.closed_undisturbed positive before
    (follows.pool ▸ follows.started) undisturbed (follows.pool ▸ closed)
  obtain ⟨_, accepted, returned⟩ := settled
  have all : history.accepted = paths := by
    have submitted := follows.submitted calm
    rwa [follows.refusing (by simp [closed]), List.append_nil] at submitted
  -- No inspection saw a cancellation, so each outcome is that of its path alone.
  have alone : history.returned =
      (history.returned.map Prod.fst).map fun path => (path, subject.outcome path) := by
    rw [follows.returned, outcomes, List.map_map, List.map_map]
    apply List.map_congr_left
    intro inspection member
    rw [follows.unseen calm inspection member]
    rfl
  rw [follows.pool] at returned
  refine returned.symm.trans ?_
  rw [alone, ← all]
  exact (accepted.map _).symm

theorem inspected_of_outcomes (reached : Reachable subject workers capacity paths run)
    {path : Path} {outcome : Except Failure Tally}
    (delivered : (path, outcome) ∈ run.pool.outcomes) :
    ∃ seenAfter, (path, seenAfter) ∈ run.inspected ∧
      outcomeOf subject seenAfter path = outcome := by
  obtain ⟨history, before, follows⟩ := exists_follows reached
  rw [← follows.pool] at delivered
  have returned : (path, outcome) ∈ history.returned :=
    (Pool.Accounts.of_reachable before).returned.mem_iff.2
      (List.mem_append_left _ (List.mem_append_right _ delivered))
  rw [follows.returned] at returned
  obtain ⟨⟨other, seenAfter⟩, inspected, same⟩ := List.mem_map.1 returned
  rw [Prod.mk.injEq] at same
  obtain ⟨rfl, rfl⟩ := same
  exact ⟨seenAfter, inspected, rfl⟩

theorem gathered_eq (reached : Reachable subject workers capacity paths run)
    (ended : run.isOver = true) :
    run.gathered.tallies = run.pool.outcomes.filterMap (fun item => item.2.toOption) ∧
      run.gathered.failures = run.pool.outcomes.filterMap (fun item => Pool.error? item.2) := by
  obtain ⟨history, _, follows⟩ := exists_follows reached
  obtain ⟨_, results, errors⟩ := isOver_iff.1 ended
  rw [Pool.results_of_outcomes, Pool.errors_of_outcomes, Channel.items, Channel.items, results,
    errors, List.append_nil, List.append_nil]
  exact ⟨follows.tallies, follows.failures⟩

def sampleSubject : Subject where
  registry := ⟨[Scan.sampleFormat]⟩
  settings := { workers := 2, bufferSize := 1, limit := some 2 }
  files := {
    tree := (FileTree.bare.place? [[97]] (.file Scan.sampleContent)).getD .bare
    current := [] }

def samplePaths : List Path := [⟨[47, 97]⟩, ⟨[47, 98]⟩]

/-- Two workers, the second of which is done first. -/
def sampleTurns : List Turn :=
  [.submit, .proceed 0, .submit, .proceed 1, .finish 1 none, .finish 0 none, .close, .proceed 0,
    .proceed 1, .closed, .gatherTally, .gatherFailure]

def runOf (turns : List Turn) : Run :=
  ((begin 2 1 samplePaths).afterAll? sampleSubject turns).getD (begin 2 1 samplePaths)

end Run

/-! ### One file after the other -/

variable {subject : Subject} {analysis : Analysis}

theorem addOutcome_eq (analysis : Analysis) (outcome : Except Failure Tally) :
    (analysis.addOutcome outcome).cancelled = analysis.cancelled ∧
      (analysis.addOutcome outcome).tallies = analysis.tallies ++ outcome.toOption.toList ∧
      (analysis.addOutcome outcome).failures =
        analysis.failures ++ (Pool.error? outcome).toList := by
  cases outcome with
  | ok tally => exact ⟨rfl, rfl, (List.append_nil _).symm⟩
  | error failure => exact ⟨rfl, (List.append_nil _).symm, rfl⟩

theorem inspect_uncancelled (subject : Subject) (calm : analysis.cancelled = false) (path : Path) :
    (inspect subject.registry subject.settings {} subject.files analysis path).cancelled = false ∧
      (inspect subject.registry subject.settings {} subject.files analysis path).tallies =
        analysis.tallies ++ (subject.outcome path).toOption.toList ∧
      (inspect subject.registry subject.settings {} subject.files analysis path).failures =
        analysis.failures ++ (Pool.error? (subject.outcome path)).toList := by
  obtain ⟨flag, tallies, failures⟩ := addOutcome_eq analysis (subject.outcome path)
  unfold inspect
  rw [calm]
  simp only [Bool.false_eq_true, if_false]
  split
  next => exact ⟨flag.trans calm, tallies, failures⟩
  next => exact ⟨rfl, tallies, failures⟩

theorem foldl_inspect (subject : Subject) (analysis : Analysis)
    (calm : analysis.cancelled = false) (paths : List Path) :
    (paths.foldl (inspect subject.registry subject.settings {} subject.files) analysis).tallies =
        analysis.tallies ++ subject.tallies paths ∧
      (paths.foldl (inspect subject.registry subject.settings {} subject.files) analysis).failures =
        analysis.failures ++ subject.failures paths := by
  induction paths generalizing analysis with
  | nil => exact ⟨(List.append_nil _).symm, (List.append_nil _).symm⟩
  | cons path rest ih =>
    obtain ⟨flag, tallies, failures⟩ := inspect_uncancelled subject calm path
    obtain ⟨allTallies, allFailures⟩ := ih _ flag
    rw [List.foldl_cons, allTallies, allFailures, tallies, failures, List.append_assoc,
      List.append_assoc, ← Subject.tallies_cons, ← Subject.failures_cons]
    exact ⟨rfl, rfl⟩

/-- Files that are inspected one after the other, with no cancellation, leave what a run leaves. -/
theorem ofPaths_uncancelled {paths : List Path}
    (analyzed : ofPaths subject.registry subject.settings {} subject.files paths = .ok analysis) :
    analysis.tallies = subject.tallies paths ∧ analysis.failures = subject.failures paths := by
  unfold ofPaths at analyzed
  split at analyzed
  next => cases analyzed
  next =>
    by_cases empty : paths.isEmpty = true
    · rw [if_pos empty] at analyzed
      cases analyzed
    · rw [if_neg empty] at analyzed
      by_cases none : (pool? subject.settings).isNone = true
      · rw [if_pos none] at analyzed
        cases analyzed
      · rw [if_neg none, Except.ok.injEq] at analyzed
        subst analyzed
        exact foldl_inspect subject (ofCount paths.length {}) rfl paths

end Analysis

end LogCensus
