import LogCensus.Time.Instant
import LogCensus.Text.Blank
import LogCensus.Text.Utf8

/-!
Reading dates and times by a pattern of items. Each item takes what it needs from the front of the
text, and the first one that cannot names the fault. A field out of its range is found when the
field is read, a day that the calendar does not have when all fields are there.
-/

namespace LogCensus.Time

inductive ReadFault where
  | outOfRange
  | impossible
  | invalid
  | tooShort
  | tooLong
  deriving DecidableEq, Repr

def ReadFault.message : ReadFault → String
  | outOfRange => "input is out of range"
  | impossible => "no possible date and time matching input"
  | invalid => "input contains invalid characters"
  | tooShort => "premature end of input"
  | tooLong => "trailing input"

/-- The fields read so far. The offset is in seconds east of UTC. -/
structure Fields where
  year : Int := 0
  month : Nat := 1
  day : Nat := 1
  hour : Nat := 0
  minute : Nat := 0
  second : Nat := 0
  nanos : Nat := 0
  offset : Int := 0

inductive Item where
  /-- Up to four digits, or a sign and any number of digits. -/
  | year
  | month
  | day
  | hour
  | minute
  | second
  | monthName
  /-- Nothing, or a point and digits, of which nine count. -/
  | fraction
  | literal (c : Char)
  | blanks
  /-- Between date and time: `T`, `t` or a blank. -/
  | separator
  /-- A sign, two digits of hours and two of minutes, colons and blanks between them ignored. -/
  | offset
  /-- As `offset`, or `Z`, or `UTC` in any case. -/
  | zone

abbrev Taken (α : Type) := α × List Char

def takeNumber (most : Nat) (text : List Char) : Except ReadFault (Taken Nat) :=
  match text with
  | [] => .error .tooShort
  | c :: _ =>
    if Text.isDigit c then
      let digits := (text.take most).takeWhile Text.isDigit
      .ok (Text.digitsValue digits, text.drop digits.length)
    else .error .invalid

def takeField (low high : Nat) (text : List Char) : Except ReadFault (Taken Nat) := do
  let (value, rest) ← takeNumber 2 (Text.trimLeft text)
  if low ≤ value ∧ value ≤ high then .ok (value, rest) else .error .outOfRange

/-- Years are 32-bit words. -/
def checkedYear (year : Int) (rest : List Char) : Except ReadFault (Taken Int) :=
  if -2147483648 ≤ year ∧ year ≤ 2147483647 then .ok (year, rest) else .error .outOfRange

def takeYear (text : List Char) : Except ReadFault (Taken Int) :=
  match Text.trimLeft text with
  | '-' :: digits => do
    let (size, rest) ← takeNumber digits.length digits
    checkedYear (-(size : Int)) rest
  | '+' :: digits => do
    let (size, rest) ← takeNumber digits.length digits
    checkedYear size rest
  | digits => do
    let (size, rest) ← takeNumber 4 digits
    checkedYear size rest

def monthNames : List String :=
  ["jan", "feb", "mar", "apr", "may", "jun", "jul", "aug", "sep", "oct", "nov", "dec"]

/-- The number of octets of a text up to four, enough to tell short texts from long ones. -/
def octetsUpTo (limit : Nat) (text : List Char) : Nat :=
  Text.Utf8.byteCount (text.take limit)

def takeMonthName (text : List Char) : Except ReadFault (Taken Nat) :=
  if octetsUpTo 3 text < 3 then .error .tooShort
  else
    match monthNames.findIdx? fun name => Text.sameLetters name.toList (text.take 3) with
    | some index => .ok (index + 1, text.drop 3)
    | none => .error .invalid

def takeLiteral (expected : Char) : List Char → Except ReadFault (List Char)
  | [] => .error .tooShort
  | c :: rest => if c = expected then .ok rest else .error .invalid

def takeSeparator : List Char → Except ReadFault (List Char)
  | [] => .error .tooShort
  | c :: rest => if c = 'T' ∨ c = 't' ∨ c = ' ' then .ok rest else .error .invalid

def fractionNanos (digits : List Char) : Nat :=
  let counted := digits.take 9
  Text.digitsValue counted * Nat.pow 10 (9 - counted.length)

def takeFraction (text : List Char) : Except ReadFault (Taken Nat) :=
  match text with
  | '.' :: digits => do
    let _ ← takeNumber 9 digits
    .ok (fractionNanos (digits.takeWhile Text.isDigit), digits.dropWhile Text.isDigit)
  | _ => .ok (0, text)

def takePair (tens : Char) (text : List Char) : Except ReadFault (Taken Nat) :=
  match text with
  | one :: other :: rest =>
    if Text.isDigit one && Text.isDigit other then
      if one ≤ tens then .ok (Text.digitsValue [one, other], rest) else .error .outOfRange
    else .error .invalid
  | [c] => if 1 < c.utf8Size then .error .invalid else .error .tooShort
  | [] => .error .tooShort

def isOffsetGap (c : Char) : Bool := c == ':' || Text.isBlank c

/-- The sign of an offset, `true` for west. The true minus sign is one too. -/
def takeOffsetSign : List Char → Except ReadFault (Taken Bool)
  | [] => .error .tooShort
  | c :: rest =>
    if c = '+' then .ok (false, rest)
    else if c = '-' ∨ c.toNat = 0x2212 then .ok (true, rest)
    else .error .invalid

def signedOffset (west : Bool) (hours minutes : Nat) : Int :=
  let size : Int := hours * 3600 + minutes * 60
  if west then -size else size

def takeOffset (text : List Char) : Except ReadFault (Taken Int) := do
  let (west, rest) ← takeOffsetSign text
  let (hours, rest) ← takePair '9' rest
  let (minutes, rest) ← takePair '5' (rest.dropWhile isOffsetGap)
  .ok (signedOffset west hours minutes, rest)

def takeZone (text : List Char) : Except ReadFault (Taken Int) :=
  let text := Text.trimLeft text
  if Text.sameLetters (text.take 3) "utc".toList then .ok (0, text.drop 3)
  else
    match text with
    | 'Z' :: rest | 'z' :: rest => .ok (0, rest)
    | _ => takeOffset text

def Item.take (item : Item) (fields : Fields) (text : List Char) : Except ReadFault (Taken Fields) :=
  match item with
  | year => (takeYear text).map fun (value, rest) => ({ fields with year := value }, rest)
  | month => (takeField 1 12 text).map fun (value, rest) => ({ fields with month := value }, rest)
  | day => (takeField 1 31 text).map fun (value, rest) => ({ fields with day := value }, rest)
  | hour => (takeField 0 23 text).map fun (value, rest) => ({ fields with hour := value }, rest)
  | minute => (takeField 0 59 text).map fun (value, rest) => ({ fields with minute := value }, rest)
  | second => (takeField 0 60 text).map fun (value, rest) => ({ fields with second := value }, rest)
  | monthName =>
    (takeMonthName text).map fun (value, rest) => ({ fields with month := value }, rest)
  | fraction => (takeFraction text).map fun (value, rest) => ({ fields with nanos := value }, rest)
  | literal c => (takeLiteral c text).map fun rest => (fields, rest)
  | blanks => .ok (fields, Text.trimLeft text)
  | separator => (takeSeparator text).map fun rest => (fields, rest)
  | offset =>
    (takeOffset (Text.trimLeft text)).map fun (value, rest) => ({ fields with offset := value }, rest)
  | zone => (takeZone text).map fun (value, rest) => ({ fields with offset := value }, rest)

def takeItems : (pattern : List Item) → Fields → (text : List Char) → Except ReadFault (Taken Fields)
  | [], fields, text => .ok (fields, text)
  | item :: pattern, fields, text => do
    let (fields, rest) ← item.take fields text
    takeItems pattern fields rest

namespace Fields

def date? (fields : Fields) : Option Date :=
  Date.ofParts? fields.year fields.month fields.day

/-- The second 60 is the second 59 with a second of nanoseconds more. -/
def secondOfDay (fields : Fields) : Int :=
  fields.hour * 3600 + fields.minute * 60 + min fields.second 59

def nanosOfSecond (fields : Fields) : Nat :=
  fields.nanos + if fields.second = 60 then nanosPerSecond else 0

def instant (fields : Fields) : Except ReadFault Instant :=
  match fields.date? with
  | none => .error .outOfRange
  | some date =>
    if -86400 < fields.offset ∧ fields.offset < 86400 then
      match Instant.ofParts? (date.dayNumber * 86400 + fields.secondOfDay - fields.offset)
          fields.nanosOfSecond with
      | some instant => .ok instant
      | none => .error .impossible
    else .error .outOfRange

end Fields

/-- `2024-05-01T12:00:00.5+02:00` with blanks allowed between the parts. -/
def freePattern : List Item :=
  [.year, .blanks, .literal '-', .month, .blanks, .literal '-', .day, .separator,
    .hour, .blanks, .literal ':', .minute, .blanks, .literal ':', .second, .fraction, .blanks,
    .zone, .blanks]

/-- `01/May/2024:12:00:00 +0200`. -/
def accessLogPattern : List Item :=
  [.day, .literal '/', .monthName, .literal '/', .year, .literal ':', .hour, .literal ':',
    .minute, .literal ':', .second, .blanks, .offset]

/-- `2024-05-01`. -/
def datePattern : List Item :=
  [.year, .literal '-', .month, .literal '-', .day]

def readInstant (pattern : List Item) (text : List Char) : Except ReadFault Instant := do
  let (fields, rest) ← takeItems pattern {} text
  if rest.isEmpty then fields.instant else .error .tooLong

def readDate? (text : List Char) : Option Date :=
  match takeItems datePattern {} text with
  | .ok (fields, []) => fields.date?
  | _ => none

end LogCensus.Time
