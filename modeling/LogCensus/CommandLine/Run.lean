import LogCensus.Analysis
import LogCensus.CommandLine.Usage
import LogCensus.Digest
import LogCensus.Export
import LogCensus.Time.Bound

/-!
What a run of the program comes to: all that it says and writes, and the code that it ends with.
-/

namespace LogCensus.CommandLine

structure Conclusion where
  /-- Zero, one where the work failed, two where it was not asked for properly, 101 where it broke
  off. -/
  code : Nat := 0
  out : List UInt8 := []
  notices : List String := []
  /-- Why the work failed: what was attempted, and then the causes, each with its own behind it. -/
  causes : List String := []
  misuse : Option UsageFault := none
  written : Option (Location × List UInt8) := none

structure Times where
  started : Time.Instant := .epoch
  finished : Time.Instant := .epoch
  elapsed : Time.Duration := .none

structure Surroundings where
  files : FileSystem
  zone : Time.Zone := .utc

def listing (registry : Registry) : String :=
  ofLines ((" " ++ Text.alignLeft 8 "TYPE" ++ " " ++ Text.alignLeft 12 "MODE" ++ " NAME")
    :: registry.formats.map fun format =>
      " " ++ Text.alignLeft 8 format.kind ++ " "
        ++ Text.alignLeft 12 (if format.framing.isSome then "multi-line" else "single-line")
        ++ " " ++ format.title)

def boundOf (zone : Time.Zone) (bound : Time.Bound) :
    Option String → Except String (Option Time.Instant)
  | none => .ok none
  | some text => (bound.read zone text).map some

def invalidDate (shown : String) : String :=
  "Invalid date '" ++ shown ++ "': expected RFC3339 or YYYY-MM-DD"

def settingsOf (zone : Time.Zone) (request : Request) : Except (List String) Settings := do
  let lower ← (boundOf zone .lower request.lower).mapError fun shown =>
    ["Invalid --from", invalidDate shown]
  let upper ← (boundOf zone .upper request.upper).mapError fun shown =>
    ["Invalid --to", invalidDate shown]
  let settings : Settings := {
    workers := request.workers, format := request.format, filter := { lower, upper },
    limit := request.limit }
  match settings.fault? with
  | some fault => .error ["Invalid configuration", fault.message]
  | none => .ok settings

def causesOf (fault : AnalysisFault) : List String :=
  ["Analysis failed", fault.message] ++
    match fault with
    | .expansion .noCurrentDirectory => [AccessFault.missing.message]
    | _ => []

def lay (layout : Layout) (report : Report) : Except String (List UInt8) :=
  match layout with
  | .text =>
    match Digest.text? report with
    | some text => .ok (Text.Utf8.encodeString text)
    | none => .error "The report is too long"
  | .json => exported .json
  | .csv => exported .csv
where
  exported (form : Export.Form) : Except String (List UInt8) :=
    match Export.run .unlimited (Export.reportSteps form report) with
    | (octets, .ok ()) => .ok octets
    | (_, .error fault) => .error fault.message

def failed (notices causes : List String) : Conclusion := { code := 1, notices, causes }

structure Findings where
  request : Request
  settings : Settings
  analysis : Analysis

def analyzing (request : Request) : String :=
  "Analyzing " ++ " ".intercalate request.patterns ++ "..."

def find (here : Surroundings) (request : Request) : Except Conclusion Findings :=
  match settingsOf here.zone request with
  | .error causes => .error (failed [] causes)
  | .ok settings =>
    match Analysis.ofPatterns .standard settings {} here.files request.patterns with
    | .error .noQueues => .error { code := 101, notices := [analyzing request] }
    | .error fault => .error (failed [analyzing request] (causesOf fault))
    | .ok analysis => .ok { request, settings, analysis }

namespace Findings

def report (findings : Findings) (times : Times) : Report :=
  findings.analysis.report findings.settings times.started times.finished times.elapsed

def conclude (findings : Findings) (files : FileSystem) (times : Times) : Conclusion :=
  let notice := analyzing findings.request
  let laidOut := lay findings.request.layout (findings.report times)
  match findings.request.output with
  | none =>
    match laidOut with
    | .error cause => failed [notice] [cause]
    | .ok out => { out, notices := [notice] }
  | some output =>
    let path := Path.ofString output
    match files.writable path with
    | .error fault => failed [notice] ["Cannot create " ++ path.display, fault.message]
    | .ok location =>
      match laidOut with
      | .error cause => failed [notice] [cause]
      | .ok content =>
        { notices := [notice, "Report written to " ++ path.display]
          written := some (location, content) }

end Findings

def Command.run (here : Surroundings) (times : Times) : Command → Conclusion
  | .analyze request =>
    match find here request with
    | .error conclusion => conclusion
    | .ok findings => findings.conclude here.files times
  | .formats => { out := Text.Utf8.encodeString (listing .standard) }
  | .version => { out := Text.Utf8.encodeString versionText }
  | .help scope => { out := Text.Utf8.encodeString (helpText scope) }

def misused (fault : UsageFault) : Conclusion := { code := 2, misuse := some fault }

def run (here : Surroundings) (times : Times) (arguments : List String) : Conclusion :=
  match read arguments with
  | .ok command => command.run here times
  | .error fault => misused fault

end LogCensus.CommandLine
