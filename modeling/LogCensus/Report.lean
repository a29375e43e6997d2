import LogCensus.Failure
import LogCensus.Tally

/-!
Totals over all files, the span of time they cover, and the report that holds both beside the
tallies and the failures of single files.
-/

namespace LogCensus

open Time (Instant Duration)

structure Summary where
  files : UInt64 := 0
  entries : UInt64 := 0
  errors : UInt64 := 0
  unreadable : UInt64 := 0
  byLevel : Counts Level := ∅
  byKind : Counts String := ∅
  throughput : Binary64 := Binary64.zeroOf false

namespace Summary

def add (summary : Summary) (tally : Tally) : Summary :=
  { summary with
    files := summary.files + 1
    entries := summary.entries + tally.entries
    errors := summary.errors + tally.errors
    unreadable := summary.unreadable + tally.unreadable
    byLevel := summary.byLevel.union tally.byLevel
    byKind := summary.byKind.union tally.byKind }

def totals (tallies : List Tally) : Summary := tallies.foldl add {}

def throughputOf (entries : UInt64) (elapsed : Duration) : Binary64 :=
  let seconds := elapsed.inSeconds
  if Binary64.less (Binary64.zeroOf false) seconds then Binary64.ofWord entries / seconds
  else Binary64.zeroOf false

def ofTallies (tallies : List Tally) (elapsed : Duration) : Summary :=
  let summary := totals tallies
  { summary with throughput := throughputOf summary.entries elapsed }

def percentage (summary : Summary) (count : UInt64) : Binary64 :=
  if summary.entries = 0 then Binary64.zeroOf false
  else Binary64.ofNat 100 * Binary64.ofWord count / Binary64.ofWord summary.entries

def levelPercentage (summary : Summary) (level : Level) : Binary64 :=
  summary.percentage (summary.byLevel.count level)

def kindPercentage (summary : Summary) (kind : String) : Binary64 :=
  summary.percentage (summary.byKind.count kind)

def errorRate (summary : Summary) : Binary64 := summary.percentage summary.errors

def toJson (summary : Summary) : Json :=
  .object [("total_files", .natural summary.files), ("total_entries", .natural summary.entries),
    ("total_errors", .natural summary.errors), ("parse_errors", .natural summary.unreadable),
    ("level_counts", Json.ofCounts Level.name summary.byLevel),
    ("type_counts", Json.ofCounts id summary.byKind),
    ("entries_per_sec", .number (.real summary.throughput))]

open Json (member) in
def record : Json.Record Summary Summary where
  name := "struct Summary"
  members := [
    member "total_files" .required Json.readCount
      fun summary value => { summary with files := value },
    member "total_entries" .required Json.readCount
      fun summary value => { summary with entries := value },
    member "total_errors" .required Json.readCount
      fun summary value => { summary with errors := value },
    member "parse_errors" .required Json.readCount
      fun summary value => { summary with unreadable := value },
    member "level_counts" .required Json.readLevelCounts
      fun summary value => { summary with byLevel := value },
    member "type_counts" .required Json.readKindCounts
      fun summary value => { summary with byKind := value },
    member "entries_per_sec" .required Json.readReal
      fun summary value => { summary with throughput := value }]
  blank := {}
  finish := .ok

def read : Json.Reader Summary := record.read

end Summary

/-- The bounds that were asked for, and the span of the accepted entries. -/
structure DateRange where
  lower : Option Instant := none
  upper : Option Instant := none
  earliest : Option Instant := none
  latest : Option Instant := none
  deriving DecidableEq

namespace DateRange

def earliestOf (instants : List (Option Instant)) : Option Instant :=
  instants.foldl (fun first instant => instant.elim first (some ∘ Tally.earliestWith first)) none

def latestOf (instants : List (Option Instant)) : Option Instant :=
  instants.foldl (fun last instant => instant.elim last (some ∘ Tally.latestWith last)) none

def ofTallies (filter : Filter) (tallies : List Tally) : DateRange where
  lower := filter.lower
  upper := filter.upper
  earliest := earliestOf (tallies.map Tally.first)
  latest := latestOf (tallies.map Tally.last)

def toJson (range : DateRange) : Json :=
  .object [("from", Json.ofOption Json.ofInstant range.lower),
    ("to", Json.ofOption Json.ofInstant range.upper),
    ("earliest", Json.ofOption Json.ofInstant range.earliest),
    ("latest", Json.ofOption Json.ofInstant range.latest)]

open Json (member) in
def record : Json.Record DateRange DateRange where
  name := "struct DateRange"
  members := [
    member "from" .optional (Json.readOptional Json.readInstant)
      fun range value => { range with lower := value },
    member "to" .optional (Json.readOptional Json.readInstant)
      fun range value => { range with upper := value },
    member "earliest" .optional (Json.readOptional Json.readInstant)
      fun range value => { range with earliest := value },
    member "latest" .optional (Json.readOptional Json.readInstant)
      fun range value => { range with latest := value }]
  blank := {}
  finish := .ok

def read : Json.Reader DateRange := record.read

end DateRange

structure Report where
  started : Instant := Time.Instant.epoch
  finished : Instant := Time.Instant.epoch
  elapsed : Duration := .none
  /-- In the order in which the files were finished. -/
  files : List Tally := []
  summary : Summary := {}
  failures : List Failure := []
  range : DateRange := {}

namespace Report

def hasFailures (report : Report) : Bool := !report.failures.isEmpty

def failureTexts (report : Report) : List String := report.failures.map Failure.display

def totalBytes (report : Report) : UInt64 :=
  report.files.foldl (fun sum tally => sum + tally.bytesRead) 0

def toJson (report : Report) : Json :=
  .object [("started_at", Json.ofInstant report.started),
    ("finished_at", Json.ofInstant report.finished), ("duration", Json.ofDuration report.elapsed),
    ("files", .array (report.files.map Tally.toJson)), ("summary", report.summary.toJson),
    ("errors", .array (report.failures.map Failure.toJson)),
    ("date_range", report.range.toJson)]

open Json (member) in
def record : Json.Record Report Report where
  name := "struct Report"
  members := [
    member "started_at" .required Json.readInstant
      fun report value => { report with started := value },
    member "finished_at" .required Json.readInstant
      fun report value => { report with finished := value },
    member "duration" .required Json.readDuration
      fun report value => { report with elapsed := value },
    member "files" .required (Json.readList Tally.read)
      fun report value => { report with files := value },
    member "summary" .required Summary.read fun report value => { report with summary := value },
    member "errors" .required (Json.readList Failure.read)
      fun report value => { report with failures := value },
    member "date_range" .required DateRange.read fun report value => { report with range := value }]
  blank := {}
  finish := .ok

def read : Json.Reader Report := record.read

end Report

end LogCensus
