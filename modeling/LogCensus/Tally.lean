import LogCensus.Filter

/-!
What is counted of one file. Counters are 64-bit words and wrap around.
-/

namespace LogCensus

open Time (Instant)

/-- Counts by key; a key that has never been counted is not in the map. -/
abbrev Counts (κ : Type) [Key κ] := SortedMap κ UInt64

namespace Counts

variable {κ : Type} [Key κ]

def count (counts : Counts κ) (key : κ) : UInt64 := (counts.get? key).getD 0

def add (counts : Counts κ) (key : κ) (amount : UInt64) : Counts κ :=
  counts.alter key fun old => old.getD 0 + amount

def union (counts other : Counts κ) : Counts κ :=
  other.toList.foldl (fun sum entry => sum.add entry.1 entry.2) counts

end Counts

structure Tally where
  path : Path := ⟨[]⟩
  format : String := ""
  bytesRead : UInt64 := 0
  entries : UInt64 := 0
  /-- Accepted entries whose level counts as an error. -/
  errors : UInt64 := 0
  /-- Lines, or groups of lines, that could not be read. -/
  unreadable : UInt64 := 0
  byLevel : Counts Level := ∅
  byKind : Counts String := ∅
  first : Option Instant := none
  last : Option Instant := none
  elapsed : Time.Duration := .none

namespace Tally

def ofFile (path : Path) (format : String) : Tally := { path, format }

def earliestWith (first : Option Instant) (instant : Instant) : Instant :=
  match first with
  | some first => first.earlier instant
  | none => instant

def latestWith (last : Option Instant) (instant : Instant) : Instant :=
  match last with
  | some last => last.later instant
  | none => instant

def record (tally : Tally) (entry : Entry) : Tally :=
  { tally with
    entries := tally.entries + 1
    errors := tally.errors + if entry.level.isError then 1 else 0
    byLevel := tally.byLevel.add entry.level 1
    byKind := tally.byKind.add entry.kind 1
    first := entry.timestamp.elim tally.first fun instant => some (earliestWith tally.first instant)
    last := entry.timestamp.elim tally.last fun instant => some (latestWith tally.last instant) }

def recordUnreadable (tally : Tally) : Tally :=
  { tally with unreadable := tally.unreadable + 1 }

def recordBytes (tally : Tally) (count : Nat) : Tally :=
  { tally with bytesRead := tally.bytesRead + count.toUInt64 }

def toJson (tally : Tally) : Json :=
  .object [("path", Json.ofPath tally.path), ("parser", .string tally.format),
    ("bytes_read", .natural tally.bytesRead), ("parsed_count", .natural tally.entries),
    ("error_count", .natural tally.errors), ("parse_errors", .natural tally.unreadable),
    ("level_counts", Json.ofCounts Level.name tally.byLevel),
    ("type_counts", Json.ofCounts id tally.byKind),
    ("first_entry", Json.ofOption Json.ofInstant tally.first),
    ("last_entry", Json.ofOption Json.ofInstant tally.last),
    ("parse_time", Json.ofDuration tally.elapsed)]

open Json (member) in
/-- The members of a tally; `presence` is that of all but the first and the last entry. -/
def membersWith (presence : Json.Presence) : List (Json.Member Tally) := [
    member "path" presence Json.readPath fun tally value => { tally with path := value },
    member "parser" presence Json.readText fun tally value => { tally with format := value },
    member "bytes_read" presence Json.readCount
      fun tally value => { tally with bytesRead := value },
    member "parsed_count" presence Json.readCount
      fun tally value => { tally with entries := value },
    member "error_count" presence Json.readCount fun tally value => { tally with errors := value },
    member "parse_errors" presence Json.readCount
      fun tally value => { tally with unreadable := value },
    member "level_counts" presence Json.readLevelCounts
      fun tally value => { tally with byLevel := value },
    member "type_counts" presence Json.readKindCounts
      fun tally value => { tally with byKind := value },
    member "first_entry" .optional (Json.readOptional Json.readInstant)
      fun tally value => { tally with first := value },
    member "last_entry" .optional (Json.readOptional Json.readInstant)
      fun tally value => { tally with last := value },
    member "parse_time" presence Json.readDuration
      fun tally value => { tally with elapsed := value }]

def record? (presence : Json.Presence) : Json.Record Tally Tally where
  name := "struct FileStats"
  members := membersWith presence
  blank := {}
  finish := .ok

def read : Json.Reader Tally := (record? .required).read

end Tally

end LogCensus
