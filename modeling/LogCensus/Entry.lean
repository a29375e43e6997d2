import LogCensus.Json.Print
import LogCensus.Json.Read
import LogCensus.Level
import LogCensus.Path
import LogCensus.Time.Duration
import LogCensus.Time.Reading

/-!
Log entries and their JSON form.
-/

namespace LogCensus

open Time (Instant)

structure Entry where
  timestamp : Option Instant := none
  level : Level := .unknown
  kind : String := ""
  message : String := ""
  fields : SortedMap String String := ∅
  labels : SortedMap String String := ∅
  raw : String := ""
  source : Option Path := none
  /-- The line on which the entry starts, zero if it is not known. -/
  line : UInt64 := 0
  deriving Inhabited

namespace Entry

def withField (entry : Entry) (name value : String) : Entry :=
  { entry with fields := entry.fields.insert name value }

def withLabel (entry : Entry) (name value : String) : Entry :=
  { entry with labels := entry.labels.insert name value }

end Entry

/-! ### JSON forms shared by all records -/

namespace Json

def ofInstant (instant : Instant) : Json := .string instant.zuluText

def ofOption {α : Type} (convert : α → Json) : Option α → Json
  | some value => convert value
  | none => .null

def ofPath (path : Path) : Json :=
  match path.text? with
  | some text => .string text
  | none => .unwritable

def ofTexts (map : SortedMap String String) : Json :=
  .object (map.toList.map fun entry => (entry.1, .string entry.2))

def ofCounts {κ : Type} [Key κ] (name : κ → String) (counts : SortedMap κ UInt64) : Json :=
  .object (counts.toList.map fun entry => (name entry.1, .natural entry.2))

def ofDuration (duration : Time.Duration) : Json :=
  .object [("secs", .natural duration.seconds), ("nanos", .natural duration.nanos.toUInt64)]

def readInstant : Reader Instant :=
  readTextAs "an RFC 3339 formatted date and time string" fun text =>
    (Time.readInstant Time.freePattern text.toList).mapError Time.ReadFault.message

def readPath : Reader Path :=
  readTextAs "path string" fun text => .ok (Path.ofString text)

def readLevel : Reader Level := readChoice Level.names

def readTexts : Reader (SortedMap String String) := readMap .ok readText

def readLevelCounts : Reader (SortedMap Level UInt64) := readMap (chosen Level.names) readCount

def readKindCounts : Reader (SortedMap String UInt64) := readMap .ok readCount

def member {ρ α : Type} (name : String) (presence : Presence) (reader : Reader α)
    (store : ρ → α → ρ) : Member ρ :=
  ⟨name, presence, fun origin node record => (reader origin node).map (store record)⟩

def durationRecord : Record (UInt64 × UInt64) Time.Duration where
  name := "struct Duration"
  members := [
    member "secs" .required readCount fun parts value => (value, parts.2),
    member "nanos" .required readHalfWord fun parts value => (parts.1, value)]
  blank := (0, 0)
  closed := true
  tellsLength := false
  finish := fun (seconds, nanos) =>
    match Time.Duration.ofParts? seconds nanos.toNat with
    | some duration => .ok duration
    | none => .error "overflow deserializing Duration"

def readDuration : Reader Time.Duration := durationRecord.read

end Json

namespace Entry

open Json (member)

/-- Maps without entries and an unknown source are left out. -/
def toJson (entry : Entry) : Json :=
  .object <|
    [("timestamp", Json.ofOption Json.ofInstant entry.timestamp),
      ("level", .string entry.level.name), ("type", .string entry.kind),
      ("message", .string entry.message)]
    ++ (if entry.fields.isEmpty then [] else [("fields", Json.ofTexts entry.fields)])
    ++ (if entry.labels.isEmpty then [] else [("labels", Json.ofTexts entry.labels)])
    ++ [("raw", .string entry.raw)]
    ++ (match entry.source with
      | some source => [("source", Json.ofPath source)]
      | none => [])
    ++ [("line", .natural entry.line)]

def record : Json.Record Entry Entry where
  name := "struct Entry"
  members := [
    member "timestamp" .optional (Json.readOptional Json.readInstant)
      fun entry value => { entry with timestamp := value },
    member "level" .required Json.readLevel fun entry value => { entry with level := value },
    member "type" .required Json.readText fun entry value => { entry with kind := value },
    member "message" .required Json.readText fun entry value => { entry with message := value },
    member "fields" .defaulted Json.readTexts fun entry value => { entry with fields := value },
    member "labels" .defaulted Json.readTexts fun entry value => { entry with labels := value },
    member "raw" .required Json.readText fun entry value => { entry with raw := value },
    member "source" .defaulted (Json.readOptional Json.readPath)
      fun entry value => { entry with source := value },
    member "line" .defaulted Json.readCount fun entry value => { entry with line := value }]
  blank := {}
  finish := .ok

def read : Json.Reader Entry := record.read

end Entry

end LogCensus
