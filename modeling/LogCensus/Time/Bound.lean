import LogCensus.Time.Strict
import LogCensus.Time.Zone

/-!
Date bounds. A bound is written as a full date-time or as a bare day of the local time zone; a bare
day stands for its first second as a lower bound and for its last nanosecond as an upper one.
-/

namespace LogCensus.Time

inductive Bound where
  | lower
  | upper
  deriving DecidableEq, Repr

namespace Bound

/-- The second of a local day and the nanoseconds that a bare day stands for. -/
def secondOfDay : Bound → Int
  | lower => 0
  | upper => 86399

def nanos : Bound → Nat
  | lower => 0
  | upper => 999999999

/-- The instant of a bound given by a day of a zone, unless the clocks leave out that time. -/
def ofDate? (zone : Zone) (bound : Bound) (date : Date) : Option Instant := do
  let time := date.dayNumber * 86400 + bound.secondOfDay
  let offset ← zone.offsetAt? date.year time
  Instant.ofParts? (time - offset) bound.nanos

def readTrimmed? (zone : Zone) (bound : Bound) (text : List Char) : Option Instant :=
  match Strict.readInstant? text with
  | some instant => some instant
  | none => (readDate? text).bind (ofDate? zone bound)

/-- The instant of a bound; on failure, the text that is none. -/
def read (zone : Zone) (bound : Bound) (text : String) : Except String Instant :=
  let text := Text.trim text.toList
  match readTrimmed? zone bound text with
  | some instant => .ok instant
  | none => .error (String.ofList text)

end Bound

end LogCensus.Time
