import LogCensus.Failure
import LogCensus.FileSystem
import LogCensus.Registry
import LogCensus.Scan
import LogCensus.Settings

/-!
The inspection of one file: it is opened, its format is found by the first line that is not blank,
and its lines are scanned. What goes wrong is a failure of this file alone.
-/

namespace LogCensus

structure Inspection where
  outcome : Except Failure Tally
  format : Option String := none
  calls : Nat := 0

namespace Inspection

def emptyFile : String := "empty file"
def unrecognized : String := "no parser recognizes the first line"
def unknownFormat (kind : String) : String := "unknown parser type '" ++ kind ++ "'"
def crash : String := "<panic>"

def sample? (lines : List Line) : Option String :=
  (lines.map Line.text).find? fun text => !Text.allBlank text.toList

def format? (registry : Registry) (settings : Settings) (sample : String) : Except String Format :=
  match settings.format with
  | some kind =>
    match registry.get? kind with
    | some format => .ok format
    | none => .error (unknownFormat kind)
  | none =>
    match registry.detect? sample with
    | some format => .ok format
    | none => .error unrecognized

/-- The format of a file with some content, and how far its scan got; a scan in a format is
cancelled when `cancelled` says so. -/
def scanContent (registry : Registry) (settings : Settings) (cancelled : String → Scan → Bool)
    (path : Path) (content : List UInt8) : Except Failure (Format × Scan × ScanEnd) :=
  let lines := Line.list content
  match sample? lines with
  | none => .error ⟨path, .detect, emptyFile⟩
  | some sample =>
    match format? registry settings sample with
    | .error cause => .error ⟨path, .detect, cause⟩
    | .ok format =>
      let terms : ScanTerms := {
        filter := settings.filter, limit := settings.limit, cancelled := cancelled format.kind }
      .ok (format, Scan.run terms path format lines)

def scanPath (registry : Registry) (settings : Settings) (cancelled : String → Scan → Bool)
    (files : FileSystem) (path : Path) : Except Failure (Format × Scan × ScanEnd) :=
  match files.locate path with
  | .error fault => .error ⟨path, .open, fault.message⟩
  | .ok location =>
    match files.contentAt location with
    | .error fault => .error ⟨path, .read, fault.message⟩
    | .ok content => scanContent registry settings cancelled path content

def ofPath (registry : Registry) (settings : Settings) (cancelled : String → Scan → Bool)
    (files : FileSystem) (path : Path) : Inspection :=
  match scanPath registry settings cancelled files path with
  | .error failure => { outcome := .error failure }
  | .ok (format, scan, ending) =>
    { outcome := if ending = .crashed then .error ⟨path, .worker, crash⟩ else .ok scan.tally
      format := some format.kind
      calls := scan.calls }

end Inspection

end LogCensus
