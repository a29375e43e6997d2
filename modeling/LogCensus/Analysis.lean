import LogCensus.Expansion
import LogCensus.Inspection
import LogCensus.Pool.Basic
import LogCensus.Progress

/-!
The analysis of many files: each one is inspected, and the outcomes are gathered into a report.
Files after the one in which an analysis is cancelled are not inspected.
-/

namespace LogCensus

inductive AnalysisFault where
  | settings (fault : SettingsFault)
  | expansion (fault : ExpansionFault)
  | noFiles (patterns : List String)
  | noQueues

def AnalysisFault.message : AnalysisFault → String
  | settings fault => "Invalid configuration: " ++ fault.message
  | expansion fault => fault.message
  | noFiles patterns => "No files match: " ++ ", ".intercalate patterns
  | noQueues => "No queue can be that long"

/-- When an analysis is cancelled: before it begins, or once a format has been asked to read so
many times. -/
structure Cancellation where
  fromStart : Bool := false
  afterCalls : (format : String) → (calls : Nat) → Bool := fun _ _ => false

/-- How far an analysis has got. Tallies, failures and progress are in the order in which files
were finished. -/
structure Analysis where
  tallies : List Tally := []
  failures : List Failure := []
  progress : Progress := {}
  updates : List Progress := []
  /-- How often each format has been asked to read. -/
  calls : List (String × Nat) := []
  cancelled : Bool := false

namespace Analysis

def ofCount (files : Nat) (cancellation : Cancellation) : Analysis where
  progress := { files := files.toUInt64 }
  cancelled := cancellation.fromStart

def addTally (analysis : Analysis) (tally : Tally) : Analysis :=
  let progress := analysis.progress.recordTally tally
  { analysis with
    tallies := analysis.tallies ++ [tally]
    progress
    updates := analysis.updates ++ [progress] }

def addFailure (analysis : Analysis) (failure : Failure) : Analysis :=
  let progress := analysis.progress.recordFailure failure
  { analysis with
    failures := analysis.failures ++ [failure]
    progress
    updates := analysis.updates ++ [progress] }

def addOutcome (analysis : Analysis) : Except Failure Tally → Analysis
  | .ok tally => analysis.addTally tally
  | .error failure => analysis.addFailure failure

def callsOf (analysis : Analysis) (format : String) : Nat :=
  (analysis.calls.lookup format).getD 0

def inspect (registry : Registry) (settings : Settings) (cancellation : Cancellation)
    (files : FileSystem) (analysis : Analysis) (path : Path) : Analysis :=
  if analysis.cancelled then analysis
  else
    let cancelled (format : String) (scan : Scan) : Bool :=
      cancellation.afterCalls format (analysis.callsOf format + scan.calls)
    let inspection := Inspection.ofPath registry settings cancelled files path
    let analysis := analysis.addOutcome inspection.outcome
    match inspection.format with
    | none => analysis
    | some format =>
      let calls := analysis.callsOf format + inspection.calls
      { analysis with
        calls := (format, calls) :: analysis.calls
        cancelled := cancellation.afterCalls format calls }

def pool? (settings : Settings) : Option (Pool Path Tally Failure) :=
  let capacity := resolveBufferSize settings.bufferSize settings.workers
  Pool.create? settings.workers.toNat capacity.toNat

def ofPaths (registry : Registry) (settings : Settings) (cancellation : Cancellation)
    (files : FileSystem) (paths : List Path) : Except AnalysisFault Analysis :=
  match settings.fault? with
  | some fault => .error (.settings fault)
  | none =>
    if paths.isEmpty then .error (.noFiles [])
    else if (pool? settings).isNone then .error .noQueues
    else
      .ok (paths.foldl (inspect registry settings cancellation files)
        (.ofCount paths.length cancellation))

def ofPatterns (registry : Registry) (settings : Settings) (cancellation : Cancellation)
    (files : FileSystem) (patterns : List String) : Except AnalysisFault Analysis :=
  match settings.fault? with
  | some fault => .error (.settings fault)
  | none =>
    match files.expand patterns with
    | .error fault => .error (.expansion fault)
    | .ok [] => .error (.noFiles patterns)
    | .ok (location :: more) =>
      ofPaths registry settings cancellation files ((location :: more).map Location.path)

def report (analysis : Analysis) (settings : Settings) (started finished : Time.Instant)
    (elapsed : Time.Duration) : Report where
  started
  finished
  elapsed
  files := analysis.tallies
  summary := .ofTallies analysis.tallies elapsed
  failures := analysis.failures
  range := .ofTallies settings.filter analysis.tallies

end Analysis

end LogCensus
