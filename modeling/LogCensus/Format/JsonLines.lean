import LogCensus.Format
import LogCensus.Decimal.Numeral
import LogCensus.Time.Strict

/-!
Logs with one JSON object a line. A few well-known keys make up the entry, every other member that
is a string, a number or a truth value becomes a field.
-/

namespace LogCensus.Format.JsonLines

def timestampKeys : List String := ["timestamp", "@timestamp", "time", "ts"]
def levelKeys : List String := ["level", "severity", "log_level"]
def kindKeys : List String := ["type", "event"]
def messageKeys : List String := ["message", "msg"]

def knownKeys : List String := timestampKeys ++ levelKeys ++ kindKeys ++ messageKeys

def kind : String := "json"

def refusal (reason : String) : Refusal := ⟨kind, reason⟩

def scalarText? : Json → Option String
  | .string text => some text
  | .number value => some (String.ofList value.text)
  | .bool true => some "true"
  | .bool false => some "false"
  | _ => none

/-- The scalar under the first of the keys that is there; a later key does not stand in for one
without a scalar. -/
def pick? (keys : List String) (members : List (String × Json)) : Option String :=
  (keys.findSome? fun key => members.lookup key).bind scalarText?

def members (text : List Char) : Except String (List (String × Json)) :=
  let describe (fault : Json.Fault) : String := fault.describe text
  match Json.Node.ofText text with
  | (.object start inner, trailing) =>
    match (Json.Node.object start inner).value Json.depthLimit, trailing with
    | .error fault, _ => .error (describe fault)
    | .ok _, some fault => .error (describe fault)
    | .ok (.object members), none => .ok members
    | .ok _, none => .ok []
  | (other, _) =>
    let issue := other.mismatch "a map"
    .error (Json.located text issue.message (issue.offset.getD 0))

def leastWord : Int := -0x8000000000000000
def greatestWord : Int := 0x7FFFFFFFFFFFFFFF

/-- The instant of a number of seconds: the whole seconds towards zero, and the nanoseconds of
what is left over where that is positive. -/
def instantOfSeconds? (seconds : Binary64) : Option Time.Instant :=
  let whole := seconds.truncate
  let nanos := ((seconds - whole) * Binary64.ofNat 1000000000).saturated 0 0xFFFFFFFF
  Time.Instant.ofParts? (whole.saturated leastWord greatestWord) nanos.toNat

def instant? (text : List Char) : Option Time.Instant :=
  match Time.Strict.readInstant? text with
  | some instant => some instant
  | none => (Binary64.ofNumeral? text).bind instantOfSeconds?

def timestamp (members : List (String × Json)) : Except Refusal (Option Time.Instant) :=
  match pick? timestampKeys members with
  | none => .ok none
  | some text =>
    match instant? text.toList with
    | some instant => .ok (some instant)
    | none => .error (refusal ("bad timestamp '" ++ text ++ "'"))

def fields (members : List (String × Json)) : SortedMap String String :=
  .ofList <| members.filterMap fun (key, value) =>
    if knownKeys.contains key then none else (scalarText? value).map fun text => (key, text)

def entryOf (line : String) (members : List (String × Json)) : Except Refusal Entry := do
  let timestamp ← timestamp members
  let fields := fields members
  let labels : SortedMap String String :=
    match fields.get? "service" with
    | some service => SortedMap.empty.insert "service" service
    | none => .empty
  .ok {
    timestamp
    level := ((pick? levelKeys members).map fun text => Level.ofSpelling text.toList).getD .unknown
    kind := (pick? kindKeys members).getD kind
    message := (pick? messageKeys members).getD ""
    fields
    labels
    raw := line }

def readLine (line : String) : Except Refusal Entry :=
  match members (Text.trim line.toList) with
  | .error reason => .error (refusal reason)
  | .ok members => entryOf line members

def recognises (line : String) : Bool :=
  let text := Text.trim line.toList
  text.head? == some '{' && text.getLast? == some '}' && (members text).toBool

end JsonLines

def jsonLines : Format where
  kind := JsonLines.kind
  title := "JSON lines"
  probe := JsonLines.recognises
  read line := .ofExcept (JsonLines.readLine line)

end LogCensus.Format
