import LogCensus.Csv.Writer
import LogCensus.Decimal.Fixed
import LogCensus.Report
import LogCensus.Text.Blank

/-!
Reports and entries as JSON or as tables. Each export is a plan of write steps.

The table form of a report has four sections in this order, with a blank line between two: the
summary, the counts by level, the counts by type, and the files.
-/

namespace LogCensus.Export

inductive Form where
  | json
  | csv
  deriving DecidableEq, Repr

namespace Form

def name : Form → String
  | json => "json"
  | csv => "csv"

def ofName? (text : String) : Option Form :=
  [json, csv].find? fun form => Text.sameLetters form.name.toList text.toList

end Form

/-! ### Rows -/

def entryHeader : List String := ["timestamp", "level", "type", "message", "source", "line"]

def entryRow (entry : Entry) : List String :=
  [(entry.timestamp.map Time.Instant.offsetText).getD "", entry.level.name, entry.kind,
    entry.message, (entry.source.map Path.display).getD "", Text.ofNat entry.line.toNat]

def countText (count : UInt64) : String := Text.ofNat count.toNat

def summaryRows (report : Report) : List (List String) :=
  let summary := report.summary
  [["total_files", countText summary.files], ["total_entries", countText summary.entries],
    ["total_errors", countText summary.errors], ["parse_errors", countText summary.unreadable],
    ["entries_per_sec", summary.throughput.fixed 2],
    ["duration_ms", Text.ofNat report.elapsed.milliseconds]]

def levelHeader : List String := ["level", "count", "percentage"]

def levelRows (summary : Summary) : List (List String) :=
  summary.byLevel.toList.map fun (level, count) =>
    [level.name, countText count, (summary.levelPercentage level).fixed 2]

def kindHeader : List String := ["type", "count", "percentage"]

def kindRows (summary : Summary) : List (List String) :=
  summary.byKind.toList.map fun (kind, count) =>
    [kind, countText count, (summary.kindPercentage kind).fixed 2]

def fileHeader : List String := ["path", "parsed", "errors", "parse_errors", "parse_time_ms"]

def fileRows (files : List Tally) : List (List String) :=
  files.map fun tally =>
    [tally.path.display, countText tally.entries, countText tally.errors,
      countText tally.unreadable, Text.ofNat tally.elapsed.milliseconds]

/-! ### Sections -/

structure Section where
  title : String
  header : Option (List String)
  rows : List (List String)

def Section.records (part : Section) : List (List String) :=
  [part.title] :: part.header.toList ++ part.rows

def sections (report : Report) : List Section :=
  [⟨"# Summary", none, summaryRows report⟩,
    ⟨"# Level Counts", some levelHeader, levelRows report.summary⟩,
    ⟨"# Type Counts", some kindHeader, kindRows report.summary⟩,
    ⟨"# File Details", some fileHeader, fileRows report.files⟩]

/-- Each section has a writer of its own. -/
def Section.steps (part : Section) : List WriteStep :=
  Csv.steps (part.records.map .record ++ [.flush])

def sectionSteps : List Section → List WriteStep
  | [] => []
  | [part] => part.steps
  | part :: rest => part.steps ++ .plainText "\n" :: sectionSteps rest

/-! ### Exports -/

def jsonSteps (style : Json.Style) (value : Json) : List WriteStep :=
  (Json.pieces style 0 value).map .ofPiece

def reportSteps (form : Form) (report : Report) : List WriteStep :=
  match form with
  | .json => jsonSteps .indented report.toJson ++ [.plainText "\n"]
  | .csv => sectionSteps (sections report)

def entriesSteps (form : Form) (entries : List Entry) : List WriteStep :=
  match form with
  | .json => jsonSteps .indented (.array (entries.map Entry.toJson)) ++ [.plainText "\n"]
  | .csv => Csv.steps (.record entryHeader :: entries.map (.record ∘ entryRow) ++ [.flush])

/-! ### Streams

Entries are taken from a stream one by one, and each is handed on before the next one is taken.
-/

def frontSteps : Form → List WriteStep
  | .json => [.plainText "["]
  | .csv => Csv.steps [.record entryHeader, .flush]

def entrySteps (form : Form) (first : Bool) (entry : Entry) : List WriteStep :=
  match form with
  | .json => .plainText (if first then "\n  " else ",\n  ") :: jsonSteps .compact entry.toJson
  | .csv => Csv.steps [.record (entryRow entry), .flush]

def backSteps : Form → List WriteStep
  | .json => [.plainText "\n]\n"]
  | .csv => []

def streamedSteps (form : Form) (first : Bool) : List Entry → List WriteStep
  | [] => backSteps form
  | entry :: rest => entrySteps form first entry ++ streamedSteps form false rest

def streamSteps (form : Form) (entries : List Entry) : List WriteStep :=
  frontSteps form ++ streamedSteps form true entries

/-! ### Runs -/

def run (sink : Sink) (steps : List WriteStep) : List UInt8 × Except WriteFault Unit :=
  match sink.run 0 steps with
  | (taken, none) => (taken, .ok ())
  | (taken, some fault) => (taken, .error fault)

/-- What a sink that holds `held` octets takes of a plan and, unless the plan fails, of what comes
`next`, with the result of that. -/
def runThen {α : Type} (sink : Sink) (held : Nat) (steps : List WriteStep)
    (next : (held : Nat) → List UInt8 × Except WriteFault α) : List UInt8 × Except WriteFault α :=
  match sink.run held steps with
  | (taken, none) =>
    let (more, result) := next (held + taken.length)
    (taken ++ more, result)
  | (taken, some fault) => (taken, .error fault)

def streamFrom (sink : Sink) (form : Form) (first : Bool) (written : UInt64) (held : Nat) :
    List Entry → List UInt8 × Except WriteFault UInt64
  | [] => runThen sink held (backSteps form) fun _ => ([], .ok written)
  | entry :: rest =>
    runThen sink held (entrySteps form first entry) fun held =>
      streamFrom sink form false (written + 1) held rest

def stream (sink : Sink) (form : Form) (entries : List Entry) :
    List UInt8 × Except WriteFault UInt64 :=
  runThen sink 0 (frontSteps form) fun held => streamFrom sink form true 0 held entries

end LogCensus.Export
