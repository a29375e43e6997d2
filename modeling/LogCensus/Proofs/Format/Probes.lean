import LogCensus.Proofs.Format.Application
import LogCensus.Proofs.Format.TimeText
import LogCensus.Registry

/-!
Probes and readers of the standard formats. What a reader takes its probe takes too, and of the lines
that a probe takes the reader refuses only those with a bad time, or for access logs with a status
that is not a number. So a format is found for each line that one of them can read.
-/

namespace LogCensus.Format

variable {line : String}

/-- What a line may be refused for although the probe of the format takes it, and the reason that is
given. -/
inductive Fault : (format : Format) → (line reason : String) → Prop where
  | startTime {line : String} {form : Application.StartForm} (same : form.text = line.toList)
    (bad : ¬ form.stamp.IsTime) :
    Fault application line
      ("bad timestamp '" ++ String.ofList (Application.pointed form.stamp.text) ++ "'")
  | memberTime {line text : String} {entries : List (String × Json)}
    (object : JsonLines.members (Text.trim line.toList) = .ok entries)
    (picked : JsonLines.pick? JsonLines.timestampKeys entries = some text)
    (bad : ¬ JsonLines.IsTimeText text.toList) :
    Fault jsonLines line ("bad timestamp '" ++ text ++ "'")
  | accessTime {line : String} {parts : AccessLog.Line} {fault : Time.ReadFault}
    (form : AccessLog.Line.ofText? line.toList = some parts)
    (bad : Time.readInstant Time.accessLogPattern parts.time = .error fault) :
    Fault accessLog line ("bad timestamp '" ++ String.ofList parts.time ++ "': " ++ fault.message)
  | accessStatus {line : String} {parts : AccessLog.Line}
    (form : AccessLog.Line.ofText? line.toList = some parts)
    (bad : Text.natural? parts.status = none) : Fault accessLog line "bad status code"

/-- Whether the probe of a format takes what its reader takes and, faults apart, nothing else. -/
structure ProbesReads (format : Format) (line : String) : Prop where
  probes : (∃ entry, format.read line = .entry entry) → format.probe line = true
  reads : format.probe line = true → (∃ entry, format.read line = .entry entry) ∨
    ∃ reason, format.read line = .refused ⟨format.kind, reason⟩ ∧ Fault format line reason

theorem probesReads_application (line : String) : ProbesReads application line where
  probes := by
    rintro ⟨entry, read⟩
    exact Application.starts_of_readStart (Application.read_eq_entry.1 read)
  reads := by
    intro started
    obtain ⟨form, same⟩ := Application.starts_iff.1 started
    by_cases time : form.stamp.IsTime
    · obtain ⟨entry, read⟩ := Application.exists_entry same time
      exact .inl ⟨entry, Application.read_eq_entry.2 read⟩
    · obtain ⟨greedy, isGreedy, text, stamp, -⟩ := Application.exists_greedy form
      have start := Application.StartLine.ofText?_text isGreedy
      rw [text, same] at start
      have unknown : Application.instant? greedy.startLine.stamp = none := by
        cases found : Application.instant? greedy.startLine.stamp with
        | none => rfl
        | some instant =>
          exact absurd (stamp ▸ (Application.instant?_text.1 found).1) time
      refine .inr ⟨_, ?_, .startTime (text.trans same) (stamp ▸ time)⟩
      change Outcome.ofExcept (Application.readStart line) = _
      simp only [Application.readStart, start, unknown]
      rfl

theorem probesReads_jsonLines (line : String) : ProbesReads jsonLines line where
  probes := by
    rintro ⟨entry, read⟩
    obtain ⟨entries, instant, object, -, -⟩ := JsonLines.read_eq_entry.1 read
    obtain ⟨gap, written, -, shown, -⟩ := JsonLines.members_trim_iff.1 object
    have last : (Json.objectText gap written).getLast? = some '}' := by
      rw [Json.objectText, ← List.append_assoc, ← List.cons_append, List.getLast?_concat]
    change JsonLines.recognises line = true
    simp only [JsonLines.recognises, object]
    rw [shown, last]
    rfl
  reads := by
    intro recognised
    change JsonLines.recognises line = true at recognised
    simp only [JsonLines.recognises, Bool.and_eq_true] at recognised
    obtain ⟨-, parsed⟩ := recognised
    cases object : JsonLines.members (Text.trim line.toList) with
    | error reason =>
      rw [object] at parsed
      cases parsed
    | ok entries =>
      cases picked : JsonLines.pick? JsonLines.timestampKeys entries with
      | none =>
        have time : JsonLines.timestamp entries = .ok none := by rw [JsonLines.timestamp, picked]
        exact .inl ⟨_, JsonLines.read_eq_entry.2 ⟨entries, none, object, time, rfl⟩⟩
      | some text =>
        have read := JsonLines.read_of_timestamp object picked
        cases known : JsonLines.instant? text.toList with
        | some instant =>
          rw [known] at read
          exact .inl ⟨_, read⟩
        | none =>
          rw [known] at read
          refine .inr ⟨_, read, .memberTime object picked ?_⟩
          rw [← JsonLines.isSome_instant?_iff, known]
          exact Bool.false_ne_true

theorem probesReads_accessLog (line : String) : ProbesReads accessLog line where
  probes := by
    rintro ⟨entry, read⟩
    change Outcome.ofExcept (AccessLog.readLine line) = _ at read
    change (AccessLog.Line.ofText? line.toList).isSome = true
    cases form : AccessLog.Line.ofText? line.toList with
    | some parts => rfl
    | none =>
      rw [AccessLog.readLine, form] at read
      cases read
  reads := by
    intro matched
    obtain ⟨parts, form⟩ := Option.isSome_iff_exists.1 matched
    change (∃ entry, Outcome.ofExcept (AccessLog.readLine line) = _) ∨
      ∃ reason, Outcome.ofExcept (AccessLog.readLine line) = _ ∧ _
    cases time : Time.readInstant Time.accessLogPattern parts.time with
    | error fault =>
      refine .inr ⟨_, ?_, .accessTime form time⟩
      simp only [AccessLog.readLine, form, time]
      rfl
    | ok instant =>
      cases status : Text.natural? parts.status with
      | none =>
        refine .inr ⟨_, ?_, .accessStatus form status⟩
        simp only [AccessLog.readLine, form, time, status]
        rfl
      | some status' =>
        refine .inl ⟨AccessLog.entryOf line parts instant status', ?_⟩
        simp only [AccessLog.readLine, form, time, status]
        rfl

theorem ofExcept_eq_entry (result : Except Refusal Entry) :
    (∃ entry, Outcome.ofExcept result = .entry entry) ↔ result.isOk = true := by
  cases result with
  | error refusal =>
    refine iff_of_false ?_ Bool.false_ne_true
    rintro ⟨entry, read⟩
    cases read
  | ok entry => exact iff_of_true ⟨entry, rfl⟩ rfl

end LogCensus.Format

namespace LogCensus.Registry

open Format (ProbesReads)

theorem probesReads_of_mem {format : Format} (known : format ∈ standard.formats) (line : String) :
    ProbesReads format line := by
  change format ∈ [Format.application, Format.jsonLines, Format.accessLog] at known
  simp only [List.mem_cons, List.not_mem_nil, or_false] at known
  rcases known with rfl | rfl | rfl
  · exact Format.probesReads_application line
  · exact Format.probesReads_jsonLines line
  · exact Format.probesReads_accessLog line

/-- The standard formats: probes agree with readers but for faults; entries of application logs start
where the probe says so, and a group of lines is read exactly if its first line is; and a format is
detected for each line that one of them reads. -/
theorem standard_probes_agree :
    (∀ format ∈ standard.formats, ∀ line, ProbesReads format line) ∧
    (∃ framing, Format.application.framing = some framing ∧
      framing.starts = Format.application.probe ∧
      ∀ first rest, (∃ entry, framing.read (first :: rest) = .entry entry) ↔
        ∃ entry, Format.application.read first = .entry entry) ∧
    ∀ line, (∃ format ∈ standard.formats, ∃ entry, format.read line = .entry entry) →
      ∃ found, standard.detect? line = some found := by
  refine ⟨fun format known line => probesReads_of_mem known line, ⟨_, rfl, rfl, ?_⟩, ?_⟩
  · intro first rest
    rw [Format.ofExcept_eq_entry, Format.Application.isOk_readGroup, ← Format.ofExcept_eq_entry]
    rfl
  · rintro line ⟨format, known, read⟩
    have probed := (probesReads_of_mem known line).probes read
    exact Option.isSome_iff_exists.1 (List.find?_isSome.2 ⟨format, known, probed⟩)

end LogCensus.Registry
