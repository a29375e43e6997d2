import LogCensus.Proofs.Analysis.Schedule

/-!
The numbers of a report fit together, whenever the analysis was cancelled. Each tally in it is that
of the entries which some inspection accepted, so the totals are those of all these entries.
-/

namespace LogCensus.Analysis.Run

variable {subject : Subject} {workers capacity : Nat} {paths : List Path} {run : Run}
  {tally : Tally} {entries : List Entry}

/-- The entries that an inspection in a run accepted for a tally. -/
def AcceptedIn (subject : Subject) (run : Run) (tally : Tally) (entries : List Entry) : Prop :=
  ∃ seenAfter format scan ending,
    (tally.path, seenAfter) ∈ run.inspected ∧
      Inspection.scanPath subject.registry subject.settings (fun _ => sees seenAfter)
        subject.files tally.path = .ok (format, scan, ending) ∧
      tally = scan.tally ∧
      entries = Scan.acceptedOf subject.settings.filter format.readGroup scan.handed.reverse

/-- Every tally that was gathered is the outcome of an inspection. -/
theorem inspected_of_gathered (reached : Reachable subject workers capacity paths run)
    (gathered : tally ∈ run.gathered.tallies) :
    ∃ path seenAfter, (path, seenAfter) ∈ run.inspected ∧
      outcomeOf subject seenAfter path = .ok tally := by
  obtain ⟨history, _, follows⟩ := exists_follows reached
  rw [follows.tallies] at gathered
  obtain ⟨⟨path, received⟩, member, rfl⟩ := List.mem_map.1 gathered
  have delivered : (path, .ok received) ∈ run.pool.outcomes := by
    refine List.mem_append_left _ (List.mem_map.2 ⟨(path, received), ?_, rfl⟩)
    exact List.mem_append_left _ member
  exact ⟨path, inspected_of_outcomes reached delivered⟩

theorem exists_acceptedIn (valid : subject.settings.fault? = none)
    (reached : Reachable subject workers capacity paths run)
    (gathered : tally ∈ run.gathered.tallies) :
    ∃ entries, AcceptedIn subject run tally entries := by
  obtain ⟨path, seenAfter, inspected, outcome⟩ := inspected_of_gathered reached gathered
  have same := Inspection.path_of_ok (Settings.limit_ne_zero valid) outcome
  obtain ⟨format, scan, ending, scanned, counted⟩ := Inspection.scan_of_ok outcome
  subst same
  exact ⟨_, seenAfter, format, scan, ending, inspected, scanned, counted, rfl⟩

namespace AcceptedIn

variable (accepted : AcceptedIn subject run tally entries)
include accepted

theorem covers (valid : subject.settings.fault? = none) : tally.Covers entries := by
  obtain ⟨seenAfter, format, scan, ending, _, scanned, counted, rfl⟩ := accepted
  obtain ⟨_, ledger⟩ := Inspection.ledger_of_scanPath (Settings.limit_ne_zero valid) scanned
  exact ⟨_, _, _, _, counted.trans ledger.tally⟩

theorem within (valid : subject.settings.fault? = none) {most : UInt64}
    (limited : subject.settings.limit = some most) : entries.length ≤ most.toNat := by
  obtain ⟨seenAfter, format, scan, ending, _, scanned, _, rfl⟩ := accepted
  obtain ⟨_, ledger⟩ := Inspection.ledger_of_scanPath (Settings.limit_ne_zero valid) scanned
  exact ledger.within most limited

theorem admitted {entry : Entry} (member : entry ∈ entries) :
    subject.settings.filter.admits entry.timestamp = true := by
  obtain ⟨seenAfter, format, scan, ending, _, _, _, rfl⟩ := accepted
  exact Scan.admits_of_mem_acceptedOf member

end AcceptedIn

/-- The numbers of a report fit together if no count goes beyond a word: the files are counted, the
entries of all files are those counted by level and by kind, and those counted as errors are those
of the two levels of errors. The same holds of each file, which has no more entries than the limit.
The span is there if an accepted entry has a timestamp, and lies within the bounds asked for. -/
theorem report_in_balance (subject : Subject) (valid : subject.settings.fault? = none)
    (workers capacity : Nat) (paths : List Path) (run : Run)
    (reached : Reachable subject workers capacity paths run)
    (started finished : Time.Instant) (elapsed : Time.Duration) :
    let report := run.gathered.report subject.settings started finished elapsed
    let summary := report.summary
    ∃ accepted : Tally → List Entry,
      (∀ tally ∈ report.files, AcceptedIn subject run tally (accepted tally)) ∧
      (∀ tally ∈ report.files, ∀ most, subject.settings.limit = some most → tally.entries ≤ most) ∧
      (report.files.length < 2 ^ 64 → (report.files.flatMap accepted).length < 2 ^ 64 →
        summary.files.toNat = report.files.length ∧
        summary.entries.toNat = (report.files.map fun tally => tally.entries.toNat).sum ∧
        Balanced summary.entries summary.errors summary.byLevel summary.byKind ∧
        ∀ tally ∈ report.files,
          Balanced tally.entries tally.errors tally.byLevel tally.byKind) ∧
      report.range.lower = subject.settings.filter.lower ∧
      report.range.upper = subject.settings.filter.upper ∧
      report.range.Spans (report.files.flatMap accepted) := by
  intro report summary
  have each : ∀ tally ∈ report.files, ∃ entries, AcceptedIn subject run tally entries :=
    fun _ gathered => exists_acceptedIn valid reached gathered
  choose! accepted known using each
  have covers : List.Forall₂ Tally.Covers report.files (report.files.map accepted) := by
    rw [List.forall₂_map_right_iff, List.forall₂_same]
    exact fun tally gathered => (known tally gathered).covers valid
  refine ⟨accepted, known, ?_, ?_, rfl, rfl, ?_⟩
  · intro tally gathered most limited
    have bound := (known tally gathered).within valid limited
    have small := Nat.lt_of_le_of_lt bound most.toNat_lt
    rw [UInt64.le_iff_toNat_le, ((known tally gathered).covers valid).toNat_entries small]
    exact bound
  · intro few small
    have short (tally : Tally) (gathered : tally ∈ report.files) :
        (accepted tally).length < 2 ^ 64 := by
      have part := List.sublist_flatten_of_mem (List.mem_map_of_mem (f := accepted) gathered)
      exact Nat.lt_of_le_of_lt part.length_le small
    have number (tally : Tally) (gathered : tally ∈ report.files) :
        tally.entries.toNat = (accepted tally).length :=
      ((known tally gathered).covers valid).toNat_entries (short tally gathered)
    obtain ⟨unreadable, totals⟩ := Summary.totals_ofEntries covers
    have closed : summary = { Summary.ofEntries report.files.length
        (report.files.flatMap accepted) unreadable with throughput := summary.throughput } := by
      calc
        summary = { Summary.totals report.files with throughput := summary.throughput } := rfl
        _ = _ := by
          rw [totals]
          rfl
    refine ⟨?_, ?_, ?_, ?_⟩
    · rw [closed]
      exact toNat_ofNat_of_lt few
    · rw [closed, List.map_congr_left number, ← List.length_flatMap]
      exact toNat_ofNat_of_lt small
    · rw [closed]
      exact balanced_ofEntries small
    · intro tally gathered
      exact ((known tally gathered).covers valid).balanced (short tally gathered)
  · obtain ⟨earliest, latest⟩ := DateRange.ofTallies_ofEntries subject.settings.filter covers
    apply DateRange.spans_of_admitted rfl rfl earliest latest
    intro entry member
    obtain ⟨tally, gathered, inside⟩ := List.mem_flatMap.1 member
    exact (known tally gathered).admitted inside

/-- The inspection of the first file sees a cancellation after four lines, and the second file is
given up. -/
def cancelledTurns : List Turn :=
  [.submit, .proceed 0, .cancel, .finish 0 (some 4), .submit, .close, .proceed 0, .proceed 1,
    .closed, .gatherTally]

theorem report_in_balance_sample :
    sampleSubject.settings.fault? = none ∧
      Reachable sampleSubject 2 1 samplePaths (runOf cancelledTurns) ∧
      (runOf cancelledTurns).isOver = true ∧ (runOf cancelledTurns).pool.cancelled = true ∧
      (runOf cancelledTurns).gathered.tallies.map Tally.entries = [1] ∧
      ∃ accepted : Tally → List Entry, ∀ tally ∈ (runOf cancelledTurns).gathered.tallies,
        AcceptedIn sampleSubject (runOf cancelledTurns) tally (accepted tally) := by
  have valid : sampleSubject.settings.fault? = none := by decide
  have reached : Reachable sampleSubject 2 1 samplePaths (runOf cancelledTurns) :=
    reachable_of_afterAll? cancelledTurns .begun rfl
  obtain ⟨accepted, known, _⟩ := report_in_balance sampleSubject valid 2 1 samplePaths
    (runOf cancelledTurns) reached Time.Instant.epoch Time.Instant.epoch .none
  exact ⟨valid, reached, by decide, by decide, by decide, accepted, known⟩

end LogCensus.Analysis.Run
