import LogCensus.Proofs.Format.Stamp
import LogCensus.Proofs.Format.StartLine
import LogCensus.Proofs.Scan.Ledger

/-!
The lines of application logs. A line is read exactly if it has the form of a start line and its
stamp names a time, and the entry then tells the parts of its greedy form.
-/

namespace LogCensus.Format.Application

variable {line : String} {entry : Entry}

theorem starts_iff : starts line = true ↔ ∃ form : StartForm, form.text = line.toList := by
  rw [starts, Option.isSome_iff_exists]
  constructor
  · rintro ⟨start, read⟩
    obtain ⟨form, same, -, -⟩ := StartLine.ofText?_eq_some.1 read
    exact ⟨form, same⟩
  · rintro ⟨form, same⟩
    obtain ⟨greedy, isGreedy, text, -, -⟩ := exists_greedy form
    exact ⟨greedy.startLine, StartLine.ofText?_eq_some.2 ⟨greedy, text.trans same, isGreedy, rfl⟩⟩

/-- All forms of a line have the stamp and the level word of the greedy one. -/
theorem StartForm.Greedy.alike {form other : StartForm} (greedy : form.Greedy)
    (same : other.text = form.text) : other.stamp = form.stamp ∧ other.level = form.level := by
  obtain ⟨longest, isGreedy, text, stamp, level⟩ := exists_greedy other
  rw [← stamp, ← level, eq_of_greedy isGreedy greedy (text.trans same)]
  exact ⟨rfl, rfl⟩

structure StartForm.Tells (form : StartForm) (line : String) (entry : Entry) : Prop where
  timestamp : ∃ instant, entry.timestamp = some instant ∧ instant.shown = form.stamp.fields
  level : entry.level = form.level.level
  known : entry.level ≠ .unknown
  thread : entry.fields.get? "thread" = form.thread.map fun thread => String.ofList thread.name
  others : ∀ name, name ≠ "thread" → entry.fields.get? name = none
  message : entry.message = String.ofList form.message
  raw : entry.raw = line

theorem readStart_greedy {form : StartForm} (same : form.text = line.toList)
    (greedy : form.Greedy) (read : readStart line = .ok entry) :
    form.stamp.IsTime ∧ form.Tells line entry := by
  have start := StartLine.ofText?_text greedy
  rw [same] at start
  rw [readStart, start] at read
  dsimp only at read
  split at read
  next => cases read
  next instant found =>
    obtain ⟨time, shown⟩ := instant?_text.1 found
    have level := form.level.ofSpelling_text
    have known := form.level.level_ne_unknown
    rw [← level] at known
    cases threaded : form.thread with
    | none =>
      simp only [StartForm.startLine, threaded, Option.map_none] at read
      cases read
      exact ⟨time, ⟨instant, rfl, shown⟩, level, known, by rw [threaded]; rfl, fun _ _ => rfl,
        rfl, rfl⟩
    | some thread =>
      simp only [StartForm.startLine, threaded, Option.map_some] at read
      cases read
      refine ⟨time, ⟨instant, rfl, shown⟩, level, known, ?_, ?_, rfl, rfl⟩
      · rw [threaded]
        exact SortedMap.get?_insert_self ..
      · intro name differs
        exact SortedMap.get?_insert_of_ne _ differs _

theorem starts_of_readStart (read : readStart line = .ok entry) : starts line = true := by
  rw [starts]
  cases start : StartLine.ofText? line.toList with
  | none =>
    rw [readStart, start] at read
    cases read
  | some _ => rfl

/-- An entry tells the parts of the greedy form of its line. -/
theorem exists_tells (read : readStart line = .ok entry) :
    ∃ form : StartForm, form.text = line.toList ∧ form.Greedy ∧ form.stamp.IsTime ∧
      form.Tells line entry := by
  obtain ⟨form, same⟩ := starts_iff.1 (starts_of_readStart read)
  obtain ⟨greedy, isGreedy, text, -, -⟩ := exists_greedy form
  obtain ⟨time, tells⟩ := readStart_greedy (text.trans same) isGreedy read
  exact ⟨greedy, text.trans same, isGreedy, time, tells⟩

theorem exists_entry {form : StartForm} (same : form.text = line.toList)
    (time : form.stamp.IsTime) : ∃ entry, readStart line = .ok entry := by
  obtain ⟨greedy, isGreedy, text, stamp, -⟩ := exists_greedy form
  have start := StartLine.ofText?_text isGreedy
  rw [text, same] at start
  obtain ⟨instant, found⟩ := time.exists_instant
  have same : greedy.startLine.stamp = form.stamp.text := congrArg Stamp.text stamp
  simp only [readStart, start, same, found]
  exact ⟨_, rfl⟩

def HasBadTime (line : String) : Prop :=
  ∃ form : StartForm, form.text = line.toList ∧ ¬ form.stamp.IsTime

theorem hasBadTime_iff :
    starts line = true ∧ (readStart line).isOk = false ↔ HasBadTime line := by
  constructor
  · rintro ⟨started, failed⟩
    obtain ⟨form, same⟩ := starts_iff.1 started
    refine ⟨form, same, fun time => ?_⟩
    obtain ⟨entry, read⟩ := exists_entry same time
    rw [read] at failed
    cases failed
  · rintro ⟨form, same, bad⟩
    refine ⟨starts_iff.2 ⟨form, same⟩, ?_⟩
    cases read : readStart line with
    | error refusal => rfl
    | ok entry =>
      obtain ⟨greedy, isGreedy, text, stamp, -⟩ := exists_greedy form
      obtain ⟨time, -⟩ := readStart_greedy (text.trans same) isGreedy read
      exact absurd (stamp ▸ time) bad

instance : DecidablePred HasBadTime := fun _ => decidable_of_iff _ hasBadTime_iff

theorem isOk_readGroup (first : String) (rest : List String) :
    (readGroup (first :: rest)).isOk = (readStart first).isOk := by
  cases read : readStart first with
  | error refusal =>
    rw [readGroup, read]
    rfl
  | ok entry =>
    rw [readGroup, read]
    cases rest <;> rfl

theorem isRefused_readGroup (first : String) (rest : List String) :
    (application.readGroup (first :: rest)).isRefused = !(readStart first).isOk := by
  rw [← isOk_readGroup first rest]
  change (Outcome.ofExcept (readGroup (first :: rest))).isRefused = _
  cases readGroup (first :: rest) <;> rfl

/-- A group that a line opens is refused for the time of that line alone. -/
theorem isRefused_iff {first : String} (started : starts first = true) (rest : List String) :
    (application.readGroup (first :: rest)).isRefused = true ↔ HasBadTime first := by
  rw [isRefused_readGroup, ← hasBadTime_iff, Bool.not_eq_true', and_iff_right started]

theorem read_eq_entry : application.read line = .entry entry ↔ readStart line = .ok entry := by
  change Outcome.ofExcept (readStart line) = _ ↔ _
  cases readStart line with
  | error refusal => simp [Outcome.ofExcept]
  | ok found => simp [Outcome.ofExcept]

/-- Lines are read exactly by the grammar of start lines, and what is captured is unique: all forms
of a line agree on stamp and level word, and one of them only takes as much as possible in front of
the message, whose parts the entry tells. -/
theorem read_start_line (line : String) :
    ((∃ entry, application.read line = .entry entry) ↔
      ∃ form : StartForm, form.text = line.toList ∧ form.stamp.IsTime) ∧
    ∀ entry, application.read line = .entry entry →
      ∃ form : StartForm, form.text = line.toList ∧ form.Greedy ∧ form.stamp.IsTime ∧
        form.Tells line entry ∧
        ∀ other : StartForm, other.text = line.toList →
          other.stamp = form.stamp ∧ other.level = form.level ∧ (other.Greedy → other = form) := by
  simp only [read_eq_entry]
  refine ⟨⟨?_, ?_⟩, ?_⟩
  · rintro ⟨entry, read⟩
    obtain ⟨form, same, -, time, -⟩ := exists_tells read
    exact ⟨form, same, time⟩
  · rintro ⟨form, same, time⟩
    exact exists_entry same time
  · intro entry read
    obtain ⟨form, same, greedy, time, tells⟩ := exists_tells read
    refine ⟨form, same, greedy, time, tells, fun other text => ?_⟩
    obtain ⟨stamp, level⟩ := greedy.alike (text.trans same.symm)
    exact ⟨stamp, level, fun alike =>
      StartForm.eq_of_greedy alike greedy (text.trans same.symm)⟩

end LogCensus.Format.Application
