import LogCensus.Decimal.Fixed
import LogCensus.Report
import LogCensus.Text.Column

/-!
The report for readers: a heading with the totals, the levels and types from the most to the least
frequent with a bar for their share, the files in path order, and the failures.
-/

namespace LogCensus.Digest

def rule : String := String.ofList (List.replicate 70 '─')

/-- The most cells in a row. A text has less than `2 ^ 63` octets, and a cell has three. -/
def mostCells : Nat := 0x7FFFFFFFFFFFFFFF / 3

def cells? (count : Nat) (cell : Char) : Option String :=
  if count ≤ mostCells then some (String.ofList (List.replicate count cell)) else none

/-- A bar of `width` cells, filled up to a share of them, a half cell counted as one. A share above
one makes it longer; there is no bar that no text can hold. -/
def bar? (share : Binary64) (width : UInt64) : Option String := do
  let cells := (share * Binary64.ofWord width).roundHalfAway
  let filled := (cells.saturated 0 0xFFFFFFFFFFFFFFFF).toNat
  return "[" ++ (← cells? filled '█') ++ (← cells? (width.toNat - filled) '░') ++ "]"

def sizeUnits : List String := ["B", "KiB", "MiB", "GiB", "TiB", "PiB", "EiB"]

def sizeIn : List String → Binary64 → Binary64 × String
  | [], number => (number, "")
  | [unit], number => (number, unit)
  | unit :: units, number =>
    if number.less (Binary64.ofNat 1024) then (number, unit)
    else sizeIn units (number / Binary64.ofNat 1024)

/-- Less than this is no fraction: `2 ^ -52`. -/
def smallest : Binary64 := Binary64.ofRatio false 1 0x10000000000000

def size (bytes : UInt64) : String :=
  let (number, unit) := sizeIn sizeUnits (Binary64.ofWord bytes)
  let fraction := number - number.truncate
  let places := if smallest.less fraction then 2 else 0
  number.fixed places ++ " " ++ unit

def countText (count : UInt64) : String := Text.ofNat count.toNat

/-- The entries of a map from the greatest count down, equal ones in key order. -/
def byCount {κ : Type} [Key κ] (counts : Counts κ) : List (κ × UInt64) :=
  counts.toList.mergeSort fun one other => other.2 ≤ one.2

def shareRow? (name : String) (count : UInt64) (percentage : Binary64) : Option String :=
  (bar? (percentage / Binary64.ofNat 100) 20).map fun bar =>
    "   " ++ Text.alignLeft 10 name ++ " " ++ Text.alignRight 10 (countText count) ++ " "
      ++ Text.alignRight 6 (percentage.fixed 1) ++ "% " ++ bar

def levelRows? (summary : Summary) : Option (List String) :=
  (byCount summary.byLevel).mapM fun (level, count) =>
    shareRow? level.name count (summary.levelPercentage level)

def kindRows? (summary : Summary) : Option (List String) :=
  (byCount summary.byKind).mapM fun (kind, count) =>
    shareRow? kind count (summary.kindPercentage kind)

def fileRow (tally : Tally) : String :=
  "   " ++ Text.alignLeft 40 (Text.keepTail tally.path.display 40) ++ " "
    ++ Text.alignLeft 6 tally.format ++ " " ++ Text.alignRight 8 (countText tally.entries)
    ++ " entries " ++ Text.alignRight 6 (countText tally.errors)
    ++ " errors " ++ Text.alignRight 6 (countText tally.unreadable)
    ++ " unparsed " ++ Text.alignRight 10 (size tally.bytesRead)

def sortedFiles (files : List Tally) : List Tally :=
  files.mergeSort fun one other => one.path.atMost other.path

def fileRows (files : List Tally) : List String := (sortedFiles files).map fileRow

def block (title : String) (rows : List String) : List String :=
  if rows.isEmpty then [] else "" :: (" " ++ title ++ ":") :: rows

def spanLines (range : DateRange) : List String :=
  match range.earliest, range.latest with
  | some earliest, some latest =>
    [" Time span: " ++ earliest.plainText ++ " .. " ++ latest.plainText]
  | _, _ => []

def filterLines (range : DateRange) : List String :=
  let boundText (bound : Option Time.Instant) : String :=
    (bound.map Time.Instant.offsetText).getD "*"
  if range.lower.isSome || range.upper.isSome then
    [" Filter: " ++ boundText range.lower ++ " .. " ++ boundText range.upper]
  else []

def heading (report : Report) : List String :=
  let summary := report.summary
  ["", rule, " Log Analysis Report", rule,
    " " ++ countText summary.files ++ " files analyzed, "
      ++ Text.ofNat report.failures.length ++ " failed, " ++ size report.totalBytes ++ " read",
    " " ++ countText summary.entries ++ " entries, " ++ countText summary.errors ++ " errors ("
      ++ summary.errorRate.fixed 1 ++ "%), " ++ countText summary.unreadable ++ " parse errors",
    " Finished in " ++ report.elapsed.inSeconds.fixed 2 ++ "s ("
      ++ summary.throughput.fixed 0 ++ " entries/s)"]
    ++ spanLines report.range ++ filterLines report.range ++ [rule]

def lines? (report : Report) : Option (List String) := do
  let levels ← levelRows? report.summary
  let kinds ← kindRows? report.summary
  return heading report
    ++ block "Levels" levels
    ++ block "Types" kinds
    ++ block "Files" (fileRows report.files)
    ++ block "Failed files" (report.failureTexts.map ("   " ++ ·))
    ++ [""]

/-- The whole text, each line ended. A summary whose counts exceed its total too far has none. -/
def text? (report : Report) : Option String :=
  (lines? report).map fun lines => String.join (lines.map (· ++ "\n"))

end LogCensus.Digest
