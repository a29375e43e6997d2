import LogCensus.Filter

/-!
Settings of an analysis. A zero stands for a number that is worked out: the workers of the host, or
a queue twice as long as there are workers.
-/

namespace LogCensus

structure Settings where
  workers : UInt64 := 0
  bufferSize : UInt64 := 0
  /-- The kind of the format of all files; without it each file's format is detected. -/
  format : Option String := none
  filter : Filter := {}
  limit : Option UInt64 := none

inductive SettingsFault where
  | zeroLimit
  | emptyRange (lower upper : Time.Instant)
  | blankFormat

def SettingsFault.message : SettingsFault → String
  | zeroLimit => "Limit must be greater than zero"
  | emptyRange lower upper =>
    "Date range is empty: " ++ lower.plainText ++ " is after " ++ upper.plainText
  | blankFormat => "Parser type cannot be empty"

def resolveBufferSize (bufferSize workers : UInt64) : UInt64 :=
  if bufferSize = 0 then (if workers = 0 then 1 else workers) * 2 else bufferSize

namespace Settings

def rangeFault? (filter : Filter) : Option SettingsFault :=
  match filter.lower, filter.upper with
  | some lower, some upper => if upper.before lower then some (.emptyRange lower upper) else none
  | _, _ => none

def fault? (settings : Settings) : Option SettingsFault :=
  if settings.limit = some 0 then some .zeroLimit
  else
    (rangeFault? settings.filter).or <|
      if (settings.format.map fun format => Text.allBlank format.toList) = some true then
        some .blankFormat
      else none

def toJson (settings : Settings) : Json :=
  .object [("workers", .natural settings.workers), ("buffer_size", .natural settings.bufferSize),
    ("parser_type", Json.ofOption .string settings.format), ("filter", settings.filter.toJson),
    ("limit", Json.ofOption .natural settings.limit)]

open Json (member) in
def record : Json.Record Settings Settings where
  name := "struct AnalyzeConfig"
  members := [
    member "workers" .defaulted Json.readSize
      fun settings value => { settings with workers := value },
    member "buffer_size" .defaulted Json.readSize
      fun settings value => { settings with bufferSize := value },
    member "parser_type" .defaulted (Json.readOptional Json.readText)
      fun settings value => { settings with format := value },
    member "filter" .defaulted Filter.read
      fun settings value => { settings with filter := value },
    member "limit" .defaulted (Json.readOptional Json.readCount)
      fun settings value => { settings with limit := value }]
  blank := {}
  finish := .ok

def read : Json.Reader Settings := record.read

end Settings

end LogCensus
