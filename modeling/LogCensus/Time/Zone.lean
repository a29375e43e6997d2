import LogCensus.Time.Calendar
import LogCensus.Text.Numeral
import LogCensus.Text.Search

/-!
Time zones by rule: a standard offset, and for a part of the year another one. `Zone.ofRule?`
reads the written rule (`EST5EDT,M3.2.0,M11.1.0`); `Zone.offsetsAt` finds the offsets a clock in
the zone may have when it shows a local time.

Which of the two changes of a year comes first is told by their months alone. When a clock is set
back, a local time in the repeated hour has both offsets, the one of the later half of the year in
front.
-/

namespace LogCensus.Time

inductive YearDay where
  /-- The n-th day from 1 on, 29 February never counted. -/
  | common (number : Nat)
  /-- The n-th day from 0 on, 29 February counted. -/
  | counted (number : Nat)
  /-- A weekday (0 for Sunday) of a week of a month; week 5 is the last one. -/
  | weekday (month week weekday : Nat)
  deriving DecidableEq, Repr

def monthOfDay (year : Int) : (months : List Nat) → (number : Nat) → Nat × Nat
  | [], number => (12, number + 32)
  | month :: months, number =>
    if number < daysInMonth year month then (month, number + 1)
    else monthOfDay year months (number - daysInMonth year month)

def monthNumbers : List Nat := [1, 2, 3, 4, 5, 6, 7, 8, 9, 10, 11, 12]

/-- Month and day in a year. The 365th counted day of a common year is the 32nd of December. -/
def YearDay.monthDay (year : Int) : YearDay → Nat × Nat
  | common number => monthOfDay 2001 monthNumbers (number - 1)
  | counted number => monthOfDay year monthNumbers number
  | weekday month week day =>
    let first := 1 + (((day : Int) - Time.weekday (dayNumber year month 1)) % 7).toNat
    let found := first + (week - 1) * 7
    (month, if daysInMonth year month < found then found - 7 else found)

structure Change where
  day : YearDay
  second : Int
  deriving DecidableEq, Repr

def Change.month (change : Change) (year : Int) : Nat :=
  (change.day.monthDay year).1

def Change.localSeconds (change : Change) (year : Int) : Int :=
  let (month, day) := change.day.monthDay year
  dayNumber year month day * 86400 + change.second

structure Season where
  offset : Int
  start : Change
  finish : Change
  deriving DecidableEq, Repr

/-- Offsets in seconds east of UTC. -/
structure Zone where
  standard : Int
  summer : Option Season := none
  deriving DecidableEq, Repr

namespace Zone

def utc : Zone := { standard := 0 }

inductive Offsets where
  | none
  | one (offset : Int)
  | two (first second : Int)
  deriving DecidableEq, Repr

/-- The offsets of a zone whose summer offset is the greater one. The first change leaves out the
local times from `startBefore` to `startAfter`, the second one repeats those from `finishAfter` to
`finishBefore`. -/
def offsetsForward (standard summer : Int) (startFirst : Bool)
    (startBefore startAfter finishBefore finishAfter time : Int) : Offsets :=
  if startFirst then
    if time ≤ startBefore then .one standard
    else if time < startAfter then .none
    else if time < finishAfter then .one summer
    else if time ≤ finishBefore then .two standard summer
    else .one standard
  else
    if time < finishAfter then .one summer
    else if time ≤ finishBefore then .two standard summer
    else if time < startBefore then .one standard
    else if time < startAfter then .none
    else .one summer

/-- The same for a zone whose summer offset is the smaller one: the start repeats and the finish
leaves out. -/
def offsetsBackward (standard summer : Int) (startFirst : Bool)
    (startBefore startAfter finishBefore finishAfter time : Int) : Offsets :=
  if startFirst then
    if time < startAfter then .one standard
    else if time ≤ startBefore then .two summer standard
    else if time < finishBefore then .one summer
    else if time < finishAfter then .none
    else .one standard
  else
    if time ≤ finishBefore then .one summer
    else if time < finishAfter then .none
    else if time < startAfter then .one standard
    else if time ≤ startBefore then .two summer standard
    else .one summer

def offsetsAt (zone : Zone) (year : Int) (time : Int) : Offsets :=
  match zone.summer with
  | none => .one zone.standard
  | some season =>
    let gain := season.offset - zone.standard
    let startBefore := season.start.localSeconds year
    let finishBefore := season.finish.localSeconds year
    let startFirst : Bool := season.start.month year < season.finish.month year
    if gain = 0 then .one zone.standard
    else if 0 < gain then
      offsetsForward zone.standard season.offset startFirst
        startBefore (startBefore + gain) finishBefore (finishBefore - gain) time
    else
      offsetsBackward zone.standard season.offset startFirst
        startBefore (startBefore + gain) finishBefore (finishBefore - gain) time

def offsetAt? (zone : Zone) (year time : Int) : Option Int :=
  let whole (offset : Int) : Bool := -86400 < offset && offset < 86400
  match zone.offsetsAt year time with
  | .none => none
  | .one offset => if whole offset then some offset else none
  | .two first second => if whole first && whole second then some first else none

/-! ### Written rules -/

def isLetter (c : Char) : Bool := ('a' ≤ c && c ≤ 'z') || ('A' ≤ c && c ≤ 'Z')

def isNameChar (c : Char) : Bool := isLetter c || Text.isDigit c || c == '+' || c == '-'

/-- A name: letters, or letters, digits and signs between angle brackets; 3 to 7 of them. -/
def dropName? (text : List Char) : Option (List Char) :=
  let (name, rest) :=
    match text with
    | '<' :: quoted => (quoted.takeWhile (· != '>'), quoted.dropWhile (· != '>'))
    | _ => (text.takeWhile isLetter, '>' :: text.dropWhile isLetter)
  match rest with
  | '>' :: rest =>
    if 3 ≤ name.length ∧ name.length ≤ 7 ∧ name.all isNameChar then some rest else none
  | _ => none

def takeInteger? (limit : Nat) (text : List Char) : Option (Nat × List Char) :=
  let digits := text.takeWhile Text.isDigit
  if digits.isEmpty || limit < Text.digitsValue digits then none
  else some (Text.digitsValue digits, text.dropWhile Text.isDigit)

def takeAfterColon? (text : List Char) : Option (Nat × List Char) :=
  match text with
  | ':' :: rest => takeInteger? 59 rest
  | _ => some (0, text)

/-- Hours, and minutes and seconds behind colons, in seconds. Without minutes no seconds follow. -/
def takeClock? (text : List Char) : Option (Int × List Char) := do
  let (hours, rest) ← takeInteger? 24 text
  match rest with
  | ':' :: _ =>
    let (minutes, rest) ← takeAfterColon? rest
    let (seconds, rest) ← takeAfterColon? rest
    some (hours * 3600 + minutes * 60 + seconds, rest)
  | _ => some (hours * 3600, rest)

/-- A signed time, west of Greenwich positive. -/
def takeOffset? (text : List Char) : Option (Int × List Char) :=
  match text with
  | '-' :: rest => (takeClock? rest).map fun (size, rest) => (size, rest)
  | '+' :: rest => (takeClock? rest).map fun (size, rest) => (-size, rest)
  | _ => (takeClock? text).map fun (size, rest) => (-size, rest)

def inRange? (low high : Nat) (found : Nat × List Char) : Option (Nat × List Char) :=
  if low ≤ found.1 ∧ found.1 ≤ high then some found else none

def takeYearDay? (text : List Char) : Option (YearDay × List Char) :=
  match text with
  | 'M' :: rest => do
    let (month, rest) ← takeInteger? 255 rest >>= inRange? 1 12
    let rest ← Text.dropPrefix? ['.'] rest
    let (week, rest) ← takeInteger? 255 rest >>= inRange? 1 5
    let rest ← Text.dropPrefix? ['.'] rest
    let (weekday, rest) ← takeInteger? 255 rest >>= inRange? 0 6
    some (.weekday month week weekday, rest)
  | 'J' :: rest => do
    let (number, rest) ← takeInteger? 65535 rest >>= inRange? 1 365
    some (.common number, rest)
  | _ => do
    let (number, rest) ← takeInteger? 65535 text >>= inRange? 0 365
    some (.counted number, rest)

/-- A day and a time, two o'clock unless another one is given. -/
def takeChange? (text : List Char) : Option (Change × List Char) := do
  let (day, rest) ← takeYearDay? text
  match rest with
  | '/' :: rest =>
    let (second, rest) ← takeClock? rest
    some (⟨day, second⟩, rest)
  | _ => some (⟨day, 7200⟩, rest)

def ofRule? (rule : List Char) : Option Zone := do
  let rest ← dropName? rule
  let (standard, rest) ← takeOffset? rest
  if rest.isEmpty then some { standard }
  else
    let rest ← dropName? rest
    let (offset, rest) ←
      match rest with
      | ',' :: _ => some (standard + 3600, rest)
      | _ => takeOffset? rest
    let rest ← Text.dropPrefix? [','] rest
    let (start, rest) ← takeChange? rest
    let rest ← Text.dropPrefix? [','] rest
    let (finish, rest) ← takeChange? rest
    if rest.isEmpty then some { standard, summer := some { offset, start, finish } } else none

def ofRule (rule : String) : Zone :=
  let isSpace (c : Char) : Bool :=
    c == ' ' || c == '\t' || c == '\n' || c == '\r' || c.toNat == 12
  let body := rule.toList.dropWhile isSpace
  (ofRule? (body.reverse.dropWhile isSpace).reverse).getD utc

end Zone

end LogCensus.Time
