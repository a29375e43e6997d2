import LogCensus.Proofs.Counts
import LogCensus.Proofs.Csv.Writing
import LogCensus.Proofs.Export.Run
import Mathlib.Data.List.SplitBy

/-!
Tables of reports and of entries come back field by field. In the table of a report only titles are
records of a single field, so a reader finds its four sections again, whatever the names of formats
and the paths of files look like.
-/

namespace LogCensus

namespace Csv

/-- A table of groups is cut into them if each one starts with its only record of a single field. -/
theorem parts_flatten {groups : List (List (List String))}
    (titled : ∀ group ∈ groups, ∃ title rest, group = [title] :: rest ∧
      ∀ fields ∈ rest, fields.length ≠ 1) : parts groups.flatten = groups := by
  apply List.splitBy_flatten
  · intro empty
    obtain ⟨title, rest, shape, -⟩ := titled [] empty
    cases shape
  · intro group member
    obtain ⟨title, rest, rfl, wide⟩ := titled group member
    apply List.Pairwise.isChain
    refine List.pairwise_cons.2 ⟨fun fields inside => by simpa using wide fields inside, ?_⟩
    exact List.pairwise_of_forall_mem_list fun _ _ fields inside => by simpa using wide fields inside
  · apply List.Pairwise.isChain
    refine List.pairwise_of_forall_mem_list fun group member next later => ?_
    obtain ⟨title, rest, rfl, -⟩ := titled group member
    obtain ⟨other, more, rfl, -⟩ := titled next later
    exact ⟨by simp, by simp, rfl⟩

end Csv

namespace Export

/-- All records of a section but its title have several fields. -/
def Section.Wide (part : Section) : Prop :=
  ∀ fields ∈ part.header.toList ++ part.rows, 2 ≤ fields.length

theorem Section.Wide.ne_nil {part : Section} (wide : part.Wide) :
    ∀ fields ∈ part.records, fields ≠ [] := by
  intro fields member
  rcases List.mem_cons.1 member with rfl | inside
  · simp
  · rintro rfl
    exact absurd (wide [] inside) (by simp)

theorem parts_sections {parts : List Section} (wide : ∀ part ∈ parts, part.Wide) :
    Csv.parts (parts.flatMap Section.records) = parts.map Section.records := by
  apply Csv.parts_flatten
  intro group member
  obtain ⟨part, inside, rfl⟩ := List.mem_map.1 member
  refine ⟨part.title, part.header.toList ++ part.rows, rfl, fun fields among => ?_⟩
  have several := wide part inside fields among
  omega

/-- The blank lines between sections are no records. -/
theorem exists_hands_sectionSteps {parts : List Section} (wide : ∀ part ∈ parts, part.Wide) :
    ∃ octets, Hands (sectionSteps parts) octets ∧
      Csv.Tells octets ((parts.flatMap Section.records).map Csv.encoded) := by
  induction parts with
  | nil => exact ⟨[], hands_nil, Csv.tells_nil⟩
  | cons part rest ih =>
    have hands := Csv.hands_steps part.records
    have tells := Csv.tells_tableOctets (wide part List.mem_cons_self).ne_nil
    cases rest with
    | nil => exact ⟨_, hands, by simpa using tells⟩
    | cons next rest =>
      obtain ⟨octets, later, others⟩ :=
        ih fun other member => wide other (List.mem_cons_of_mem _ member)
      refine ⟨_, hands.append ((hands_plainText "\n").append later), ?_⟩
      rw [List.flatMap_cons, List.map_append]
      exact tells.append (Csv.tells_lineFeed.append others)

theorem wide_of {title : String} {header : Option (List String)} {rows : List (List String)}
    (head : ∀ fields ∈ header, 2 ≤ fields.length) (body : ∀ fields ∈ rows, 2 ≤ fields.length) :
    Section.Wide ⟨title, header, rows⟩ := by
  intro fields member
  rcases List.mem_append.1 member with inside | inside
  · exact head fields (Option.mem_toList.1 inside)
  · exact body fields inside

theorem wide_map {α : Type} {title : String} {header : List String} {items : List α}
    {row : α → List String} (head : 2 ≤ header.length) (body : ∀ item, 2 ≤ (row item).length) :
    Section.Wide ⟨title, some header, items.map row⟩ := by
  apply wide_of
  · intro fields member
    cases member
    exact head
  · intro fields member
    obtain ⟨item, -, rfl⟩ := List.mem_map.1 member
    exact body item

theorem wide_sections (report : Report) : ∀ part ∈ sections report, part.Wide := by
  have summary : Section.Wide ⟨"# Summary", none, summaryRows report⟩ :=
    wide_of (by simp) (by simp [summaryRows])
  have levels : Section.Wide ⟨"# Level Counts", some levelHeader, levelRows report.summary⟩ :=
    wide_map (by decide) fun _ => by simp
  have kinds : Section.Wide ⟨"# Type Counts", some kindHeader, kindRows report.summary⟩ :=
    wide_map (by decide) fun _ => by simp
  have files : Section.Wide ⟨"# File Details", some fileHeader, fileRows report.files⟩ :=
    wide_map (by decide) fun _ => by simp
  simp only [sections, List.forall_mem_cons, summary, levels, kinds, files, List.not_mem_nil,
    false_imp_iff, implies_true, and_self]

theorem levelRows_eq (summary : Summary) :
    levelRows summary = summary.byLevel.toList.map fun (level, number) =>
      [level.name, Text.ofNat number.toNat, (summary.percentage number).fixed 2] := by
  refine List.map_congr_left fun (level, number) listed => ?_
  simp only [Summary.levelPercentage, Counts.count_of_mem listed, countText]

theorem kindRows_eq (summary : Summary) :
    kindRows summary = summary.byKind.toList.map fun (kind, number) =>
      [kind, Text.ofNat number.toNat, (summary.percentage number).fixed 2] := by
  refine List.map_congr_left fun (kind, number) listed => ?_
  simp only [Summary.kindPercentage, Counts.count_of_mem listed, countText]

/-- The table of a report reads back as its four sections: the six totals, a row for each level in
order of severity, a row for each type in the order of their names, and a row for each file in the
order of the report. -/
theorem report_table_reads_back (report : Report) :
    let summary := report.summary
    ∃ octets table, run .unlimited (reportSteps .csv report) = (octets, .ok ()) ∧
      Csv.table? octets = some table ∧
      Csv.parts table =
        [[["# Summary"],
            ["total_files", Text.ofNat summary.files.toNat],
            ["total_entries", Text.ofNat summary.entries.toNat],
            ["total_errors", Text.ofNat summary.errors.toNat],
            ["parse_errors", Text.ofNat summary.unreadable.toNat],
            ["entries_per_sec", summary.throughput.fixed 2],
            ["duration_ms", Text.ofNat report.elapsed.milliseconds]],
          ["# Level Counts"] :: ["level", "count", "percentage"] ::
            summary.byLevel.toList.map fun (level, number) =>
              [level.name, Text.ofNat number.toNat, (summary.percentage number).fixed 2],
          ["# Type Counts"] :: ["type", "count", "percentage"] ::
            summary.byKind.toList.map fun (kind, number) =>
              [kind, Text.ofNat number.toNat, (summary.percentage number).fixed 2],
          ["# File Details"] :: ["path", "parsed", "errors", "parse_errors", "parse_time_ms"] ::
            report.files.map fun tally =>
              [tally.path.display, Text.ofNat tally.entries.toNat, Text.ofNat tally.errors.toNat,
                Text.ofNat tally.unreadable.toNat, Text.ofNat tally.elapsed.milliseconds]] ∧
      (summary.byLevel.toList.map Prod.fst).Pairwise
        (fun one other => one.severity < other.severity) ∧
      (summary.byKind.toList.map Prod.fst).Pairwise (· < ·) := by
  intro summary
  have wide := wide_sections report
  obtain ⟨octets, hands, tells⟩ := exists_hands_sectionSteps wide
  refine ⟨octets, _, run_of_hands hands, tells.table?_eq, (parts_sections wide).trans ?_, ?_, ?_⟩
  · rw [sections, levelRows_eq, kindRows_eq]
    rfl
  · refine List.pairwise_map.2 (summary.byLevel.sorted.imp fun {one other} before => ?_)
    exact Nat.compare_eq_lt.1 before
  · refine List.pairwise_map.2 (summary.byKind.sorted.imp fun {one other} before => ?_)
    exact compareOfLessAndEq_eq_lt.1 before

/-! ### Entries -/

/-- A stream hands on each record by itself, and in the end the same octets. -/
theorem hands_streamedSteps (first : Bool) (entries : List Entry) :
    Hands (streamedSteps .csv first entries) (Csv.tableOctets (entries.map entryRow)) := by
  induction entries generalizing first with
  | nil => exact hands_nil
  | cons entry rest ih =>
    have hands := (Csv.hands_steps [entryRow entry]).append (ih false)
    rwa [← Csv.tableOctets_append] at hands

/-- The table of entries is the same if they are written at once and if they come from a stream,
and it reads back as the header and the six fields of each entry. -/
theorem entries_table_reads_back (entries : List Entry) :
    ∃ octets, run .unlimited (entriesSteps .csv entries) = (octets, .ok ()) ∧
      stream .unlimited .csv entries = (octets, .ok (UInt64.ofNat entries.length)) ∧
      Csv.table? octets = some
        (["timestamp", "level", "type", "message", "source", "line"] :: entries.map entryRow) ∧
      ∀ entry ∈ entries, entryRow entry =
        [(entry.timestamp.map Time.Instant.offsetText).getD "", entry.level.name, entry.kind,
          entry.message, (entry.source.map Path.display).getD "", Text.ofNat entry.line.toNat] := by
  have atOnce := Csv.hands_steps (entryHeader :: entries.map entryRow)
  have streamed := (Csv.hands_steps [entryHeader]).append (hands_streamedSteps true entries)
  rw [← Csv.tableOctets_append] at streamed
  rw [List.map_cons, List.map_map] at atOnce
  have tells : Csv.Tells _ ((entryHeader :: entries.map entryRow).map Csv.encoded) :=
    Csv.tells_tableOctets (by simp [entryHeader, entryRow])
  exact ⟨_, run_of_hands atOnce, stream_of_hands .csv streamed, tells.table?_eq, fun _ _ => rfl⟩

end Export

end LogCensus
