import LogCensus.Proofs.Csv.Session
import LogCensus.Proofs.Export.Run

/-!
Exports to a sink that is too small. The sink holds the front of what it would have taken, nothing
is handed on behind the octets that it refused, and the export fails. Where the writes are cut makes
no difference to that, only to how much of the front is taken.
-/

namespace LogCensus.Export

/-- A part of an export: a plan, or a table with a writer of its own, which hands on all it has in
the end. -/
inductive Part where
  | plan (steps : List WriteStep)
  | table (commands : List Csv.Command)

namespace Part

def steps : Part → List WriteStep
  | plan steps => steps
  | table commands => Csv.steps (commands ++ [.flush])

def write (sink : Sink) (held : Nat) : Part → List UInt8 × Option WriteFault
  | plan steps => sink.run held steps
  | table commands => Csv.Session.write sink held (commands ++ [.flush])

def writeAll (sink : Sink) (held : Nat) : List Part → List UInt8 × Option WriteFault
  | [] => ([], none)
  | part :: rest =>
    match part.write sink held with
    | (taken, none) =>
      ((taken ++ (writeAll sink (held + taken.length) rest).1),
        (writeAll sink (held + taken.length) rest).2)
    | (taken, some fault) => (taken, some fault)

theorem write_eq (sink : Sink) (held : Nat) (part : Part) :
    part.write sink held = sink.run held part.steps := by
  cases part with
  | plan => rfl
  | table commands => exact Csv.Session.write_eq sink held commands

theorem writeAll_eq (sink : Sink) (held : Nat) (parts : List Part) :
    writeAll sink held parts = sink.run held (parts.flatMap steps) := by
  induction parts generalizing held with
  | nil => rfl
  | cons part rest ih =>
    rw [List.flatMap_cons, Sink.run_append, writeAll, write_eq]
    cases sink.run held part.steps with
    | mk taken fault =>
      cases fault with
      | none => exact congrArg (fun more => (taken ++ more.1, more.2)) (ih _)
      | some fault => rfl

end Part

/-! ### What is exported -/

inductive Job where
  | report (report : Report)
  | entries (entries : List Entry)
  | stream (entries : List Entry)

def sectionParts : List Section → List Part
  | [] => []
  | [part] => [.table (part.records.map .record)]
  | part :: rest =>
    .table (part.records.map .record) :: .plan [.plainText "\n"] :: sectionParts rest

namespace Job

variable (form : Form) (job : Job)

/-- What a sink takes of an export, and what the export gives: of a stream, the number of entries. -/
def run (sink : Sink) : List UInt8 × Except WriteFault (Option UInt64) :=
  match job with
  | .report whole =>
    ((Export.run sink (reportSteps form whole)).1,
      (Export.run sink (reportSteps form whole)).2.map fun _ => none)
  | .entries all =>
    ((Export.run sink (entriesSteps form all)).1,
      (Export.run sink (entriesSteps form all)).2.map fun _ => none)
  | .stream all =>
    ((Export.stream sink form all).1, (Export.stream sink form all).2.map some)

def parts : List Part :=
  match form, job with
  | .json, .report whole => [.plan (reportSteps .json whole)]
  | .json, .entries all => [.plan (entriesSteps .json all)]
  | .json, .stream all => [.plan (streamSteps .json all)]
  | .csv, .report whole => sectionParts (sections whole)
  | .csv, .entries all => [.table (.record entryHeader :: all.map (.record ∘ entryRow))]
  | .csv, .stream all =>
    [.table (.record entryHeader ::
      all.flatMap fun entry => [.flush, .record (entryRow entry)])]

def count : Option UInt64 :=
  match job with
  | .stream all => some (UInt64.ofNat all.length)
  | _ => none

def ended : Option WriteFault → Except WriteFault (Option UInt64)
  | none => .ok job.count
  | some fault => .error fault

/-- What a sink takes of an export by writers each of which offers its buffer once more when it is
given up. -/
def offered (sink : Sink) : List UInt8 × Except WriteFault (Option UInt64) :=
  let (taken, fault) := Part.writeAll sink 0 (job.parts form)
  (taken, job.ended fault)

def steps : List WriteStep :=
  match job with
  | .report whole => reportSteps form whole
  | .entries all => entriesSteps form all
  | .stream all => streamSteps form all

/-- What a sink takes of an export that hands its octets on by this plan. -/
def runAs (plan : List WriteStep) (sink : Sink) : List UInt8 × Except WriteFault (Option UInt64) :=
  let (taken, fault) := sink.run 0 plan
  (taken, job.ended fault)

theorem run_eq (sink : Sink) : job.run form sink = job.runAs (job.steps form) sink := by
  cases job with
  | report whole =>
    simp only [run, Export.run, runAs, steps]
    cases sink.run 0 (reportSteps form whole) with
    | mk taken fault => cases fault <;> rfl
  | entries all =>
    simp only [run, Export.run, runAs, steps]
    cases sink.run 0 (entriesSteps form all) with
    | mk taken fault => cases fault <;> rfl
  | stream all =>
    simp only [run, stream_eq, Export.run, runAs, steps]
    cases sink.run 0 (streamSteps form all) with
    | mk taken fault => cases fault <;> rfl

theorem steps_sectionParts (sections : List Section) :
    (sectionParts sections).flatMap Part.steps = sectionSteps sections := by
  induction sections with
  | nil => rfl
  | cons part rest ih =>
    cases rest with
    | nil => exact List.flatMap_singleton _ _
    | cons next rest =>
      rw [sectionParts, sectionSteps, List.flatMap_cons, List.flatMap_cons, ih]
      · rfl
      · exact nofun
      · exact nofun

theorem stepsFrom_record_flush (buffer : Csv.Buffer) (fields : List String)
    (rest : List Csv.Command) :
    Csv.stepsFrom buffer (.record fields :: .flush :: rest) =
      Csv.stepsFrom buffer [.record fields, .flush] ++ Csv.steps rest := by
  simp only [Csv.stepsFrom, Csv.steps, List.append_assoc, List.cons_append, List.nil_append]

/-- One writer that hands on each record by itself does what a writer for each record would do. -/
theorem steps_stream (first : Bool) (entries : List Entry) :
    Csv.steps (entries.flatMap fun entry => [.record (entryRow entry), .flush]) =
      streamedSteps .csv first entries := by
  induction entries generalizing first with
  | nil => rfl
  | cons entry rest ih =>
    rw [List.flatMap_cons, streamedSteps, ← ih false]
    exact stepsFrom_record_flush {} (entryRow entry) _

theorem flatMap_flush (entries : List Entry) :
    (entries.flatMap fun entry => [.flush, .record (entryRow entry)]) ++ [.flush] =
      Csv.Command.flush :: entries.flatMap fun entry => [.record (entryRow entry), .flush] := by
  induction entries with
  | nil => rfl
  | cons entry rest ih => rw [List.flatMap_cons, List.append_assoc, ih]; rfl

theorem steps_parts : (job.parts form).flatMap Part.steps = job.steps form := by
  cases form with
  | json => cases job <;> exact List.flatMap_singleton _ _
  | csv =>
    cases job with
    | report whole => exact steps_sectionParts (sections whole)
    | entries all => exact List.flatMap_singleton _ _
    | stream all =>
      refine (List.flatMap_singleton _ _).trans ?_
      rw [Part.steps, List.cons_append, flatMap_flush]
      refine (stepsFrom_record_flush {} entryHeader _).trans ?_
      rw [steps_stream true]
      rfl

theorem offered_eq (sink : Sink) : job.offered form sink = job.run form sink := by
  rw [offered, Part.writeAll_eq, steps_parts, run_eq, runAs]

end Job

/-- A sink with room for so many octets holds a front of the `whole` export, which has succeeded if
and only if all of it fits in there. -/
structure Clean (whole : List UInt8) (count : Option UInt64) (capacity : Nat)
    (outcome : List UInt8 × Except WriteFault (Option UInt64)) : Prop where
  front : outcome.1 <+: whole
  within : outcome.1.length ≤ capacity
  succeeds : outcome.2 = .ok count ↔ whole.length ≤ capacity
  all : whole.length ≤ capacity → outcome.1 = whole
  fails : capacity < whole.length → ∃ medium, outcome.2 = .error (.full medium)

theorem Job.clean_of_hands {job : Job} {plan : List WriteStep} {whole : List UInt8}
    (hands : Hands plan whole) (capacity : Nat) :
    Clean whole job.count capacity (job.runAs plan { capacity }) := by
  rcases Nat.lt_or_ge capacity whole.length with overflow | room
  · obtain ⟨taken, medium, full, front, within⟩ :=
      hands.run_of_overflow (Nat.zero_le capacity) (overflow.trans_eq (Nat.zero_add _).symm)
    rw [Nat.zero_add] at within
    rw [runAs, full]
    exact {
      front
      within
      succeeds := ⟨nofun, fun room => absurd overflow (Nat.not_lt_of_le room)⟩
      all := fun room => absurd overflow (Nat.not_lt_of_le room)
      fails := fun _ => ⟨medium, rfl⟩ }
  · have all : Sink.run { capacity } 0 plan = (whole, none) :=
      hands.run_of_room ((Nat.zero_add _).trans_le room)
    rw [runAs, all]
    exact {
      front := List.prefix_rfl
      within := room
      succeeds := ⟨fun _ => room, fun _ => rfl⟩
      all := fun _ => rfl
      fails := fun overflow => absurd overflow (Nat.not_lt_of_le room) }

/-- An export to a sink that holds so many octets succeeds if all that it writes fits in there, and
gives what it gives without bounds. Otherwise it fails, and the sink holds the front of what it would
have taken, also if each writer of a table offers its buffer once more when it is given up. Texts
that are put together while they are written may come in smaller parts; then no less is taken. -/
theorem export_to_bounded_sink (job : Job) (form : Form) (whole : List UInt8)
    (count : Option UInt64) (exports : job.run form .unlimited = (whole, .ok count))
    (capacity : Nat) :
    Clean whole count capacity (job.run form { capacity }) ∧
      job.offered form { capacity } = job.run form { capacity } ∧
      ∀ plan, Finer plan (job.steps form) →
        Clean whole count capacity (job.runAs plan { capacity }) ∧
        (job.run form { capacity }).1 <+: (job.runAs plan { capacity }).1 := by
  rw [Job.run_eq, Job.runAs, Prod.mk.injEq] at exports
  obtain ⟨taken, fine⟩ := exports
  cases ran : Sink.unlimited.run 0 (job.steps form) with
  | mk octets fault =>
    rw [ran] at taken fine
    cases fault with
    | some fault => cases fine
    | none =>
      obtain rfl : octets = whole := taken
      obtain rfl : job.count = count := Except.ok.inj fine
      have hands := hands_of_run ran
      rw [Job.offered_eq, Job.run_eq]
      refine ⟨Job.clean_of_hands hands capacity, rfl, fun plan finer => ⟨?_, ?_⟩⟩
      · exact Job.clean_of_hands (finer.hands hands) capacity
      · exact finer.run_isPrefix { capacity } 0

/-- The stream of an entry to a sink that has room for the header, but not for the row. -/
theorem export_to_bounded_sink_sample :
    let table := Text.Utf8.encodeString
      "timestamp,level,type,message,source,line\n,unknown,,,,0\n"
    Job.run .csv (.stream [{}]) .unlimited = (table, .ok (some 1)) ∧ 50 < table.length ∧
      (Job.run .csv (.stream [{}]) { capacity := some 50 }).1.length = 41 ∧
      ∃ taken medium, Job.run .csv (.stream [{}]) { capacity := some 50 } =
        (taken, .error (.full medium)) ∧ taken <+: table := by
  intro table
  have exports : Job.run .csv (.stream [{}]) .unlimited = (table, .ok (some 1)) := by
    decide +kernel
  have small : 50 < table.length := by decide
  obtain ⟨clean, -⟩ := export_to_bounded_sink (.stream [{}]) .csv table (some 1) exports 50
  obtain ⟨medium, full⟩ := clean.fails small
  exact ⟨exports, small, by decide +kernel, _, medium, Prod.ext rfl full, clean.front⟩

end LogCensus.Export
