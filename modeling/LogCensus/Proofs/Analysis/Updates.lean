import LogCensus.Proofs.Analysis.Coverage

/-!
The updates that an analysis sends, one for each outcome that is received. An update shows the
outcomes received up to then: how many they are, what has been read and which file was the last one.
Counters never go back, and the last update has the numbers of the report.
-/

namespace LogCensus

open Pool (error?)

def pathOf : Except Failure Tally → Path
  | .ok tally => tally.path
  | .error failure => failure.path

/-- The sum of a counter over tallies, which may go beyond a word. -/
def Tally.sum (counter : Tally → UInt64) (tallies : List Tally) : Nat :=
  (tallies.map fun tally => (counter tally).toNat).sum

theorem Tally.sum_append (counter : Tally → UInt64) (tallies more : List Tally) :
    sum counter (tallies ++ more) = sum counter tallies + sum counter more := by
  rw [sum, List.map_append, List.sum_append]
  rfl

theorem Tally.sum_singleton (counter : Tally → UInt64) (tally : Tally) :
    sum counter [tally] = (counter tally).toNat :=
  List.sum_singleton

theorem Tally.sum_le {counter : Tally → UInt64} {tallies more : List Tally}
    (front : tallies <+: more) : sum counter tallies ≤ sum counter more := by
  obtain ⟨rest, rfl⟩ := front
  rw [sum_append]
  exact Nat.le_add_right _ _

/-! ### Sums of words -/

theorem Summary.entries_totals (tallies : List Tally) :
    (totals tallies).entries = UInt64.ofNat (Tally.sum Tally.entries tallies) := by
  induction tallies using List.reverseRecOn with
  | nil => rfl
  | append_singleton tallies tally ih =>
    rw [totals, List.foldl_append, ← totals, Tally.sum_append, Tally.sum_singleton,
      UInt64.ofNat_add, UInt64.ofNat_toNat, ← ih]
    rfl

theorem Report.totalBytes_eq (report : Report) :
    report.totalBytes = UInt64.ofNat (Tally.sum Tally.bytesRead report.files) := by
  rw [totalBytes]
  induction report.files using List.reverseRecOn with
  | nil => rfl
  | append_singleton tallies tally ih =>
    rw [List.foldl_append, ih, Tally.sum_append, Tally.sum_singleton, UInt64.ofNat_add,
      UInt64.ofNat_toNat]
    rfl

/-! ### Outcomes one after the other -/

section Outcomes

variable {outcomes : List (Except Failure Tally)}

theorem length_outcomes (outcomes : List (Except Failure Tally)) :
    (outcomes.filterMap Except.toOption).length + (outcomes.filterMap error?).length =
      outcomes.length := by
  induction outcomes with
  | nil => rfl
  | cons outcome rest ih =>
    cases outcome with
    | ok tally =>
      have kept : ((.ok tally :: rest).filterMap Except.toOption).length =
          (rest.filterMap Except.toOption).length + 1 := rfl
      have none : (.ok tally :: rest).filterMap error? = rest.filterMap error? := rfl
      rw [kept, none, List.length_cons, ← ih, Nat.add_right_comm]
    | error failure =>
      have none : (.error failure :: rest).filterMap Except.toOption =
          rest.filterMap Except.toOption := rfl
      have kept : ((.error failure :: rest).filterMap error?).length =
          (rest.filterMap error?).length + 1 := rfl
      rw [none, kept, List.length_cons, ← ih, Nat.add_assoc]

namespace Progress

def record (progress : Progress) : Except Failure Tally → Progress
  | .ok tally => progress.recordTally tally
  | .error failure => progress.recordFailure failure

def after (files : Nat) (outcomes : List (Except Failure Tally)) : Progress :=
  outcomes.foldl record { files := files.toUInt64 }

theorem after_concat (files : Nat) (outcomes : List (Except Failure Tally))
    (outcome : Except Failure Tally) :
    after files (outcomes ++ [outcome]) = (after files outcomes).record outcome := by
  rw [after, List.foldl_append]
  rfl

theorem after_eq (files : Nat) (outcomes : List (Except Failure Tally)) :
    let tallies := outcomes.filterMap Except.toOption
    after files outcomes = {
      files := files.toUInt64
      done := UInt64.ofNat tallies.length
      failed := UInt64.ofNat (outcomes.filterMap error?).length
      entries := UInt64.ofNat (Tally.sum Tally.entries tallies)
      bytes := UInt64.ofNat (Tally.sum Tally.bytesRead tallies)
      current := (outcomes.getLast?.map pathOf).getD ⟨[]⟩ } := by
  induction outcomes using List.reverseRecOn with
  | nil => rfl
  | append_singleton outcomes outcome ih =>
    simp only at ih
    rw [after_concat, ih]
    cases outcome with
    | ok tally =>
      have kept : [(.ok tally : Except Failure Tally)].filterMap Except.toOption = [tally] := rfl
      have none : [(.ok tally : Except Failure Tally)].filterMap error? = [] := rfl
      simp only [record, recordTally, List.filterMap_append, kept, none, List.append_nil,
        List.length_append, List.length_singleton, Tally.sum_append, Tally.sum_singleton,
        UInt64.ofNat_add, UInt64.ofNat_toNat, List.getLast?_concat, Option.map_some,
        Option.getD_some, pathOf, UInt64.ofNat_one]
    | error failure =>
      have none : [(.error failure : Except Failure Tally)].filterMap Except.toOption = [] := rfl
      have kept : [(.error failure : Except Failure Tally)].filterMap error? = [failure] := rfl
      simp only [record, recordFailure, List.filterMap_append, kept, none, List.append_nil,
        List.length_append, List.length_singleton, UInt64.ofNat_add, List.getLast?_concat,
        Option.map_some, Option.getD_some, pathOf, UInt64.ofNat_one]

/-- The numbers of an update, while the counts of files stay within a word. -/
theorem toNat_after (files : Nat) (few : outcomes.length < 2 ^ 64) :
    (after files outcomes).done.toNat = (outcomes.filterMap Except.toOption).length ∧
      (after files outcomes).failed.toNat = (outcomes.filterMap error?).length ∧
      (after files outcomes).finished.toNat = outcomes.length := by
  have total := length_outcomes outcomes
  have done : (after files outcomes).done.toNat =
      (outcomes.filterMap Except.toOption).length := by
    rw [after_eq]
    exact toNat_ofNat_of_lt (by omega)
  have failed : (after files outcomes).failed.toNat = (outcomes.filterMap error?).length := by
    rw [after_eq]
    exact toNat_ofNat_of_lt (by omega)
  refine ⟨done, failed, ?_⟩
  rw [finished, UInt64.toNat_add, done, failed, total, Nat.mod_eq_of_lt few]

/-- Where no counter is smaller in a second update, if the sums that it shows are words. -/
structure Grows (entries bytes : Nat) (former later : Progress) : Prop where
  done : former.done ≤ later.done
  failed : former.failed ≤ later.failed
  entries : entries < 2 ^ 64 → former.entries ≤ later.entries
  bytes : bytes < 2 ^ 64 → former.bytes ≤ later.bytes

theorem ofNat_le {small large bound : Nat} (le : small ≤ large) (within : large ≤ bound)
    (word : bound < 2 ^ 64) : UInt64.ofNat small ≤ UInt64.ofNat large :=
  (UInt64.ofNat_le_iff_le (by simp only [UInt64.size]; omega) (by simp only [UInt64.size]; omega)).2
    le

theorem grows_after {files : Nat} {more whole : List (Except Failure Tally)}
    (front : outcomes <+: more) (part : more <+: whole) (few : whole.length < 2 ^ 64) :
    Grows (Tally.sum Tally.entries (whole.filterMap Except.toOption))
      (Tally.sum Tally.bytesRead (whole.filterMap Except.toOption))
      (after files outcomes) (after files more) := by
  have tallies := front.filterMap Except.toOption
  have allTallies := part.filterMap Except.toOption
  have failures := (front.filterMap error?).length_le
  have allFailures := (part.filterMap error?).length_le
  have total := length_outcomes whole
  rw [after_eq, after_eq]
  exact {
    done := ofNat_le tallies.length_le allTallies.length_le (by omega)
    failed := ofNat_le failures allFailures (by omega)
    entries := ofNat_le (Tally.sum_le tallies) (Tally.sum_le allTallies)
    bytes := ofNat_le (Tally.sum_le tallies) (Tally.sum_le allTallies) }

end Progress

namespace Analysis

def ofOutcomes (files : Nat) (outcomes : List (Except Failure Tally)) : Analysis :=
  outcomes.foldl addOutcome (.ofCount files {})

theorem ofOutcomes_concat (files : Nat) (outcomes : List (Except Failure Tally))
    (outcome : Except Failure Tally) :
    ofOutcomes files (outcomes ++ [outcome]) = (ofOutcomes files outcomes).addOutcome outcome := by
  rw [ofOutcomes, List.foldl_append]
  rfl

theorem gathered_ofOutcomes (files : Nat) (outcomes : List (Except Failure Tally)) :
    (ofOutcomes files outcomes).tallies = outcomes.filterMap Except.toOption ∧
      (ofOutcomes files outcomes).failures = outcomes.filterMap error? := by
  induction outcomes using List.reverseRecOn with
  | nil => exact ⟨rfl, rfl⟩
  | append_singleton outcomes outcome ih =>
    obtain ⟨-, tallies, failures⟩ := addOutcome_eq (ofOutcomes files outcomes) outcome
    rw [ofOutcomes_concat, tallies, failures, ih.1, ih.2, List.filterMap_append,
      List.filterMap_append]
    cases outcome with
    | ok tally => exact ⟨rfl, rfl⟩
    | error failure => exact ⟨rfl, rfl⟩

theorem progress_addOutcome (analysis : Analysis) (outcome : Except Failure Tally) :
    (analysis.addOutcome outcome).progress = analysis.progress.record outcome ∧
      (analysis.addOutcome outcome).updates =
        analysis.updates ++ [analysis.progress.record outcome] := by
  cases outcome with
  | ok tally => exact ⟨rfl, rfl⟩
  | error failure => exact ⟨rfl, rfl⟩

theorem progress_ofOutcomes (files : Nat) (outcomes : List (Except Failure Tally)) :
    (ofOutcomes files outcomes).progress = .after files outcomes := by
  induction outcomes using List.reverseRecOn with
  | nil => rfl
  | append_singleton outcomes outcome ih =>
    rw [ofOutcomes_concat, (progress_addOutcome _ _).1, ih, Progress.after_concat]

/-- Each outcome makes one update, of the outcomes up to it. -/
theorem updates_ofOutcomes (files : Nat) (outcomes : List (Except Failure Tally)) :
    (ofOutcomes files outcomes).updates =
      (List.range outcomes.length).map fun index =>
        Progress.after files (outcomes.take (index + 1)) := by
  induction outcomes using List.reverseRecOn with
  | nil => rfl
  | append_singleton outcomes outcome ih =>
    have front : (List.range outcomes.length).map (fun index =>
        Progress.after files ((outcomes ++ [outcome]).take (index + 1))) =
        (List.range outcomes.length).map fun index =>
          Progress.after files (outcomes.take (index + 1)) := by
      refine List.map_congr_left fun index member => ?_
      rw [List.take_append_of_le_length (List.mem_range.1 member)]
    have whole : (outcomes ++ [outcome]).take (outcomes.length + 1) = outcomes ++ [outcome] := by
      exact List.take_of_length_le (by rw [List.length_append, List.length_singleton])
    rw [ofOutcomes_concat, (progress_addOutcome _ _).2, ih, progress_ofOutcomes,
      ← Progress.after_concat, List.length_append, List.length_singleton, List.range_succ,
      List.map_append, front, List.map_singleton, whole]

section Sent

variable {index : Nat} {outcome : Except Failure Tally}

theorem length_updates (files : Nat) :
    (ofOutcomes files outcomes).updates.length = outcomes.length := by
  rw [updates_ofOutcomes, List.length_map, List.length_range]

theorem update_of_outcome (files : Nat) (few : outcomes.length < 2 ^ 64)
    (taken : outcomes[index]? = some outcome) :
    ∃ update, (ofOutcomes files outcomes).updates[index]? = some update ∧
      update.files = files.toUInt64 ∧
      update.done.toNat + update.failed.toNat = index + 1 ∧ update.finished.toNat = index + 1 ∧
      update.current = pathOf outcome := by
  obtain ⟨within, _⟩ := List.getElem?_eq_some_iff.1 taken
  have length : (outcomes.take (index + 1)).length = index + 1 := List.length_take_of_le within
  have total := length_outcomes (outcomes.take (index + 1))
  have short : (outcomes.take (index + 1)).length < 2 ^ 64 := by omega
  obtain ⟨done, failed, finished⟩ := Progress.toNat_after files short
  refine ⟨.after files (outcomes.take (index + 1)), ?_, ?_, ?_, ?_, ?_⟩
  · rw [updates_ofOutcomes, List.getElem?_map, List.getElem?_range within, Option.map_some]
  · rw [Progress.after_eq]
  · rw [done, failed, total, length]
  · rw [finished, length]
  · have last : (outcomes.take (index + 1)).getLast? = some outcome := by
      rw [List.getLast?_take, if_neg (Nat.succ_ne_zero _), Nat.add_sub_cancel, taken, Option.some_or]
    rw [Progress.after_eq, last]
    rfl

theorem updates_grow (files : Nat) (few : outcomes.length < 2 ^ 64) :
    (ofOutcomes files outcomes).updates.Pairwise (Progress.Grows
      (Tally.sum Tally.entries (outcomes.filterMap Except.toOption))
      (Tally.sum Tally.bytesRead (outcomes.filterMap Except.toOption))) := by
  rw [updates_ofOutcomes, List.pairwise_map]
  refine List.pairwise_lt_range.imp fun before => ?_
  exact Progress.grows_after (List.take_prefix_take_left (Nat.succ_le_succ before.le))
    (List.take_prefix _ _) few

theorem last_update {files : Nat} {last : Progress}
    (sent : (ofOutcomes files outcomes).updates.getLast? = some last) :
    last = .after files outcomes := by
  rcases List.eq_nil_or_concat outcomes with rfl | ⟨front, outcome, rfl⟩
  · cases sent
  · rw [List.concat_eq_append] at sent ⊢
    rw [ofOutcomes_concat, (progress_addOutcome _ _).2, List.getLast?_concat, progress_ofOutcomes,
      ← Progress.after_concat] at sent
    exact (Option.some.inj sent).symm

end Sent

/-! ### Along a run -/

namespace Run

variable {subject : Subject} {workers capacity : Nat} {paths : List Path} {run next later : Run}
  {turn : Turn} {turns : List Turn}

def received? (run : Run) : Turn → Option (Except Failure Tally)
  | .gatherTally => run.pool.receiveResult?.map fun received => .ok received.1
  | .gatherFailure => run.pool.receiveError?.map fun received => .error received.1
  | _ => none

/-- A turn adds what it receives to what has been gathered, and nothing else. -/
theorem gathered_after? (taken : run.after? subject turn = some next) :
    next.gathered = (received? run turn).toList.foldl addOutcome run.gathered := by
  cases turn with
  | submit =>
    change run.submit? = some next at taken
    unfold submit? at taken
    split at taken
    next => cases taken
    next =>
      split at taken
      next => exact Option.some.inj taken ▸ rfl
      next => exact Option.some.inj taken ▸ rfl
      next => cases taken
  | close =>
    obtain ⟨_, closing⟩ := Option.ite_none_right_eq_some.1 taken
    exact Option.some.inj closing ▸ rfl
  | closed =>
    obtain ⟨_, closed⟩ := Option.ite_none_right_eq_some.1 taken
    obtain ⟨_, _, rfl⟩ := Option.map_eq_some_iff.1 closed
    rfl
  | cancel =>
    obtain ⟨_, cancelled⟩ := Option.ite_none_left_eq_some.1 taken
    exact Option.some.inj cancelled ▸ rfl
  | proceed worker =>
    obtain ⟨_, _, rfl⟩ := Option.map_eq_some_iff.1 taken
    rfl
  | finish worker seenAfter =>
    obtain ⟨_, _, _, _, _, rfl⟩ := endInspection?_cases taken
    rfl
  | defer worker seenAfter =>
    obtain ⟨_, _, _, _, _, rfl⟩ := endInspection?_cases taken
    rfl
  | release worker =>
    obtain ⟨_, _, rfl⟩ := Option.map_eq_some_iff.1 taken
    rfl
  | gatherTally =>
    obtain ⟨⟨tally, pool⟩, received, rfl⟩ := Option.map_eq_some_iff.1 taken
    have found : received? run .gatherTally = some (.ok tally) := by rw [received?, received]; rfl
    rw [found]
    rfl
  | gatherFailure =>
    obtain ⟨⟨failure, pool⟩, received, rfl⟩ := Option.map_eq_some_iff.1 taken
    have found : received? run .gatherFailure = some (.error failure) := by
      rw [received?, received]
      rfl
    rw [found]
    rfl

theorem gathered_afterAll? (taken : run.afterAll? subject turns = some later) :
    later.gathered = (along subject received? run turns).foldl addOutcome run.gathered := by
  induction turns generalizing run with
  | nil =>
    rw [← Option.some.inj taken]
    rfl
  | cons turn rest ih =>
    obtain ⟨next, one, more⟩ := Option.bind_eq_some_iff.1 taken
    rw [ih more, gathered_after? one, along_cons one, List.foldl_append]

theorem length_gathered_le (reached : Reachable subject workers capacity paths run) :
    run.gathered.tallies.length + run.gathered.failures.length ≤ paths.length := by
  obtain ⟨history, before, follows⟩ := exists_follows reached
  have accounts := Pool.Accounts.of_reachable before
  have accepted := accounts.accepted.length_eq
  have entered := accounts.entered.length_eq
  have returned := accounts.returned.length_eq
  have asked := follows.asked.length_le
  rw [follows.tallies, follows.failures, ← follows.pool]
  simp only [List.length_append, List.length_map, Pool.outcomes, Channel.items] at *
  omega

/-- All that was asked for has been gathered when a run is over that was not cancelled. -/
theorem length_gathered (positive : 0 < workers)
    (reached : Reachable subject workers capacity paths run) (ended : run.isOver = true)
    (calm : run.pool.cancelled = false) :
    run.gathered.tallies.length + run.gathered.failures.length = paths.length := by
  obtain ⟨tallies, failures⟩ := gathered_eq reached ended
  have all := length_outcomes (run.pool.outcomes.map Prod.snd)
  rw [List.filterMap_map, List.filterMap_map, List.length_map] at all
  have settled := (outcomes_settled positive reached ended calm).length_eq
  rw [List.length_map] at settled
  rw [tallies, failures]
  exact all.trans settled

/-- Each outcome that is received makes one update. It counts the outcomes up to this one, whose file
it shows, and no counter goes back. The last update has the numbers of the report; if nothing was
cancelled, all files are finished by then. -/
theorem updates_agree_with_report (subject : Subject) (workers capacity : Nat) (paths : List Path)
    (countable : paths.length < 2 ^ 64) (turns : List Turn) (run : Run)
    (taken : (begin workers capacity paths).afterAll? subject turns = some run)
    (started finished : Time.Instant) (elapsed : Time.Duration) :
    let received := along subject received? (begin workers capacity paths) turns
    let updates := run.gathered.updates
    let report := run.gathered.report subject.settings started finished elapsed
    report.files = received.filterMap Except.toOption ∧
      report.failures = received.filterMap error? ∧
      updates.length = received.length ∧ received.length ≤ paths.length ∧
      (∀ index outcome, received[index]? = some outcome →
        ∃ update, updates[index]? = some update ∧ update.files.toNat = paths.length ∧
          update.done.toNat + update.failed.toNat = index + 1 ∧
          update.finished.toNat = index + 1 ∧ update.current = pathOf outcome) ∧
      updates.Pairwise (Progress.Grows (Tally.sum Tally.entries report.files)
        (Tally.sum Tally.bytesRead report.files)) ∧
      (∀ last, updates.getLast? = some last →
        last.done.toNat = report.files.length ∧ last.failed.toNat = report.failures.length ∧
          last.entries = report.summary.entries ∧ last.bytes = report.totalBytes) ∧
      (0 < workers → run.isOver = true → run.pool.cancelled = false →
        updates.length = paths.length ∧
          ∀ last, updates.getLast? = some last → last.finished = last.files) := by
  intro received updates report
  have reached : Reachable subject workers capacity paths run :=
    reachable_of_afterAll? turns .begun taken
  have gathered : run.gathered = ofOutcomes paths.length received := gathered_afterAll? taken
  obtain ⟨tallies, failures⟩ := gathered_ofOutcomes paths.length received
  rw [← gathered] at tallies failures
  have total := length_outcomes received
  have within : received.length ≤ paths.length := by
    rw [← total, ← tallies, ← failures]
    exact length_gathered_le reached
  have few : received.length < 2 ^ 64 := within.trans_lt countable
  have sent : updates = (ofOutcomes paths.length received).updates :=
    congrArg Analysis.updates gathered
  have files : report.files = received.filterMap Except.toOption := tallies
  have length : updates.length = received.length := by rw [sent, length_updates]
  refine ⟨files, failures, length, within, ?_, ?_, ?_, ?_⟩
  · intro index outcome present
    obtain ⟨update, found, asked, counted⟩ := update_of_outcome paths.length few present
    refine ⟨update, sent ▸ found, ?_, counted⟩
    rw [asked]
    exact toNat_ofNat_of_lt countable
  · rw [sent, files]
    exact updates_grow paths.length few
  · intro last found
    obtain ⟨done, failed, _⟩ := Progress.toNat_after paths.length few
    rw [sent] at found
    have same := last_update found
    subst same
    rw [done, failed, ← tallies, ← failures]
    refine ⟨rfl, rfl, ?_, ?_⟩
    · rw [Progress.after_eq, ← files]
      exact (Summary.entries_totals report.files).symm
    · rw [Progress.after_eq, Report.totalBytes_eq, files]
  · intro positive ended calm
    have all : received.length = paths.length := by
      rw [← total, ← tallies, ← failures, length_gathered positive reached ended calm]
    refine ⟨length.trans all, fun last found => ?_⟩
    rw [sent] at found
    have same := last_update found
    subst same
    obtain ⟨_, _, finished⟩ := Progress.toNat_after paths.length few
    rw [← UInt64.toNat_inj, finished, all, Progress.after_eq]
    exact (toNat_ofNat_of_lt countable).symm

/-- One file is counted and the other fails: the second update has both. -/
theorem updates_agree_with_report_sample :
    samplePaths.length < 2 ^ 64 ∧
      (begin 2 1 samplePaths).afterAll? sampleSubject sampleTurns = some (runOf sampleTurns) ∧
      (runOf sampleTurns).gathered.updates.map Progress.current = [⟨[47, 97]⟩, ⟨[47, 98]⟩] ∧
      (runOf sampleTurns).gathered.updates.length = samplePaths.length ∧
      ∀ last, (runOf sampleTurns).gathered.updates.getLast? = some last →
        last.finished = last.files := by
  have taken : (begin 2 1 samplePaths).afterAll? sampleSubject sampleTurns =
      some (runOf sampleTurns) := rfl
  obtain ⟨_, _, _, _, _, _, _, settled⟩ := updates_agree_with_report sampleSubject 2 1 samplePaths
    (by decide) sampleTurns (runOf sampleTurns) taken Time.Instant.epoch Time.Instant.epoch .none
  exact ⟨by decide, taken, by decide, settled (by decide) (by decide) (by decide)⟩

end Run

end Analysis

end Outcomes

end LogCensus
