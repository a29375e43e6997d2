import LogCensus.Format
import LogCensus.Line
import LogCensus.Tally

/-!
Scans: the lines of a file are read one after the other, and entries that the filter admits are
tallied until there are enough of them. Before each line a scan looks whether it has been
cancelled; then it ends with what it has.
-/

namespace LogCensus

structure Scan where
  tally : Tally
  lines : Nat := 0
  /-- The lines, or groups of lines, that were handed to the format, the newest first. -/
  handed : List (List String) := []
  calls : Nat := 0

inductive ScanEnd where
  | complete
  | limited
  | cancelled
  | crashed
  deriving DecidableEq, Repr

structure ScanTerms where
  filter : Filter := {}
  limit : Option UInt64 := none
  cancelled : Scan → Bool := fun _ => false

namespace Scan

def ofFile (path : Path) (format : Format) : Scan := { tally := .ofFile path format.kind }

def readLine (scan : Scan) (line : Line) : Scan :=
  { scan with tally := scan.tally.recordBytes line.octets.length, lines := scan.lines + 1 }

def isEnough (limit : Option UInt64) (entries : UInt64) : Bool := limit.any (· ≤ entries)

def take (scan : Scan) (terms : ScanTerms) (lines : List String) (outcome : Outcome) :
    Scan × Option ScanEnd :=
  let scan := { scan with handed := lines :: scan.handed, calls := scan.calls + 1 }
  match outcome with
  | .entry entry =>
    if terms.filter.admits entry.timestamp then
      let tally := scan.tally.record entry
      ({ scan with tally }, if isEnough terms.limit tally.entries then some .limited else none)
    else (scan, none)
  | .refused _ => ({ scan with tally := scan.tally.recordUnreadable }, none)
  | .crashed => (scan, some .crashed)

def singly (terms : ScanTerms) (read : String → Outcome) (scan : Scan) :
    List Line → Scan × ScanEnd
  | [] => (scan, .complete)
  | line :: rest =>
    if terms.cancelled scan then (scan, .cancelled)
    else
      let text := line.text
      if Text.allBlank text.toList then singly terms read (scan.readLine line) rest
      else
        match (scan.readLine line).take terms [text] (read text) with
        | (scan, some ending) => (scan, ending)
        | (scan, none) => singly terms read scan rest

/-- A scan in which lines that are not blank are read in groups: a line that starts an entry ends
the group before it. The group at hand has its newest line first. A scan that is cancelled does
not read it. -/
def grouped (terms : ScanTerms) (framing : Framing) (scan : Scan) (group : List String) :
    List Line → Scan × ScanEnd
  | [] =>
    if terms.cancelled scan then (scan, .cancelled)
    else if group.isEmpty then (scan, .complete)
    else
      let (scan, ending) := scan.take terms group.reverse (framing.read group.reverse)
      (scan, ending.getD .complete)
  | line :: rest =>
    if terms.cancelled scan then (scan, .cancelled)
    else
      let text := line.text
      if Text.allBlank text.toList then grouped terms framing (scan.readLine line) group rest
      else if framing.starts text && !group.isEmpty then
        match (scan.readLine line).take terms group.reverse (framing.read group.reverse) with
        | (scan, some ending) => (scan, ending)
        | (scan, none) => grouped terms framing scan [text] rest
      else grouped terms framing (scan.readLine line) (text :: group) rest

def run (terms : ScanTerms) (path : Path) (format : Format) (lines : List Line) : Scan × ScanEnd :=
  match format.framing with
  | none => singly terms format.read (.ofFile path format) lines
  | some framing => grouped terms framing (.ofFile path format) [] lines

end Scan

end LogCensus
