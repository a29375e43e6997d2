import LogCensus.Proofs.Export.Run
import LogCensus.Proofs.Json.Forms

/-!
What an export writes of a report is what is read back from it. Only of the throughput, a double
that the reader rounds on its own, no more is said than that it is read.
-/

namespace LogCensus

open Json

/-! ### Parts of a report -/

namespace Failure

/-- The text form of a failure must tell where its path ends. -/
theorem readsAs_toJson {text : String}
    (unmarked : ∀ stage : Stage, ¬ stage.mark <:+: text.toList ++ separator) (stage : Stage)
    (cause : String) :
    ReadsAs read (toJson ⟨.ofString text, stage, cause⟩) ⟨.ofString text, stage, cause⟩ :=
  readsAs_textThen (ofText_display unmarked stage cause)

end Failure

theorem Tally.readsAs_toJson {tally : Tally} {text : String}
    (path : tally.path = Path.ofString text) : ReadsAs Tally.read tally.toJson tally := by
  apply reads_record (by decide)
  have pathRead : ReadsAs readPath (ofPath tally.path) tally.path := path ▸ readsAs_path text
  refine .as pathRead (.as (readsAs_text _) ?_)
  refine .as (readsAs_count _) (.as (readsAs_count _) (.as (readsAs_count _) ?_))
  refine .as (readsAs_count _) (.as (readsAs_levelCounts _) (.as (readsAs_kindCounts _) ?_))
  refine .as (readsAs_optionalInstant _) (.as (readsAs_optionalInstant _) ?_)
  exact .as (readsAs_duration _) (.done ⟨tally, rfl, rfl⟩)

theorem Summary.reads_toJson {summary : Summary} (finite : summary.throughput.IsFinite) :
    Reads Summary.read summary.toJson fun back =>
      ∃ throughput, back = { summary with throughput } := by
  apply reads_record (by decide)
  refine .as (readsAs_count _) (.as (readsAs_count _) (.as (readsAs_count _) ?_))
  refine .as (readsAs_count _) (.as (readsAs_levelCounts _) (.as (readsAs_kindCounts _) ?_))
  refine .member (reads_real finite) fun throughput _ => .done ?_
  exact ⟨{ summary with throughput }, ⟨throughput, rfl⟩, rfl⟩

theorem DateRange.readsAs_toJson (range : DateRange) :
    ReadsAs DateRange.read range.toJson range := by
  apply reads_record (by decide)
  refine .as (readsAs_optionalInstant _) (.as (readsAs_optionalInstant _) ?_)
  exact .as (readsAs_optionalInstant _) (.as (readsAs_optionalInstant _) (.done ⟨range, rfl, rfl⟩))

namespace Report

variable {report : Report}

theorem reads_toJson (paths : ∀ tally ∈ report.files, ∃ text, tally.path = Path.ofString text)
    (failures : ∀ failure ∈ report.failures, ∃ text, failure.path = Path.ofString text ∧
      ∀ stage : Stage, ¬ stage.mark <:+: text.toList ++ Failure.separator)
    (finite : report.summary.throughput.IsFinite) :
    Reads Report.read report.toJson fun back =>
      ∃ throughput, back = { report with summary := { report.summary with throughput } } := by
  have filesRead : ReadsAs (readList Tally.read) (.array (report.files.map Tally.toJson))
      report.files := by
    apply readsAs_list
    intro tally member
    obtain ⟨text, path⟩ := paths tally member
    exact Tally.readsAs_toJson path
  have failuresRead : ReadsAs (readList Failure.read)
      (.array (report.failures.map Failure.toJson)) report.failures := by
    apply readsAs_list
    rintro ⟨path, stage, cause⟩ member
    obtain ⟨text, rfl, unmarked⟩ := failures _ member
    exact Failure.readsAs_toJson unmarked stage cause
  apply reads_record (by decide)
  refine .as (readsAs_instant _) (.as (readsAs_instant _) (.as (readsAs_duration _) ?_))
  refine .as filesRead (.member (Summary.reads_toJson finite) ?_)
  rintro summary ⟨throughput, rfl⟩
  refine .as failuresRead (.as (DateRange.readsAs_toJson _) (.done ?_))
  exact ⟨_, ⟨throughput, rfl⟩, rfl⟩

end Report

namespace Report

/-- A report reads back from its JSON text, with some throughput in place of its own: paths have to
be text, and none of a failure may hold what looks like the end of a path. -/
theorem json_reads_back {report : Report}
    (paths : ∀ tally ∈ report.files, ∃ text, tally.path = Path.ofString text)
    (failures : ∀ failure ∈ report.failures, ∃ text, failure.path = Path.ofString text ∧
      ∀ stage : Stage, ¬ stage.mark <:+: text.toList ++ Failure.separator)
    (finite : report.summary.throughput.IsFinite) :
    ∃ (text : String) (throughput : Binary64),
      Export.run .unlimited (Export.reportSteps .json report) =
        (Text.Utf8.encodeString text, .ok ()) ∧
      readWhole Report.read text =
        .ok { report with summary := { report.summary with throughput } } := by
  obtain ⟨text, _, ⟨throughput, rfl⟩, written, read⟩ :=
    Export.exists_readWhole (reads_toJson paths failures finite)
  exact ⟨text, throughput, written, read⟩

/-- A path with the separator in it, and a cause that looks like a stage. -/
theorem json_reads_back_sample :
    let failure : Failure := ⟨.ofString "a: b", .read, "x: open: y"⟩
    let tally : Tally :=
      { path := .ofString "log \"1\".txt", entries := 2, byLevel := SortedMap.empty.insert .error 2,
        first := some Time.Instant.epoch }
    let throughput : Binary64 := .finite false (2 ^ 52) (-52)
    let report : Report :=
      { files := [tally], failures := [failure]
        summary := { files := 1, entries := 2, throughput } }
    ∃ (text : String) (back : Binary64),
      Export.run .unlimited (Export.reportSteps .json report) =
        (Text.Utf8.encodeString text, .ok ()) ∧
      readWhole Report.read text =
        .ok { report with summary := { report.summary with throughput := back } } := by
  apply json_reads_back
  · intro tally member
    exact ⟨"log \"1\".txt", by rw [List.mem_singleton.1 member]⟩
  · intro failure member
    refine ⟨"a: b", by rw [List.mem_singleton.1 member], fun stage => ?_⟩
    cases stage <;> decide
  · decide

end Report

end LogCensus
