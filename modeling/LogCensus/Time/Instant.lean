import LogCensus.Time.Calendar
import LogCensus.Text.Numeral

/-!
Instants of UTC with nanoseconds. A leap second is the second 59 of its minute continued: its
nanoseconds count on from `10 ^ 9`. Three written forms differ in the separator and in the name
they give the zone.
-/

namespace LogCensus.Time

def nanosPerSecond : Nat := 1000000000

def leastSeconds : Int := -8334601228800
def greatestSeconds : Int := 8210266876799

/-- Seconds since 1970-01-01T00:00:00Z, leap seconds not counted, and nanoseconds within. -/
structure Instant where
  seconds : Int
  nanos : Nat
  seconds_range : leastSeconds ≤ seconds ∧ seconds ≤ greatestSeconds
  nanos_range : nanos < nanosPerSecond ∨ (seconds % 60 = 59 ∧ nanos < 2 * nanosPerSecond)
  deriving DecidableEq

namespace Instant

def ofParts? (seconds : Int) (nanos : Nat) : Option Instant :=
  if range : leastSeconds ≤ seconds ∧ seconds ≤ greatestSeconds then
    if nanoRange : nanos < nanosPerSecond ∨ (seconds % 60 = 59 ∧ nanos < 2 * nanosPerSecond) then
      some ⟨seconds, nanos, range, nanoRange⟩
    else none
  else none

def epoch : Instant := ⟨0, 0, by decide, by decide⟩

instance : Inhabited Instant := ⟨epoch⟩

def atMost (one other : Instant) : Bool :=
  one.seconds < other.seconds || (one.seconds == other.seconds && one.nanos ≤ other.nanos)

def before (one other : Instant) : Bool :=
  one.seconds < other.seconds || (one.seconds == other.seconds && one.nanos < other.nanos)

/-- The earlier of two, the first of equals. -/
def earlier (one other : Instant) : Instant :=
  if other.before one then other else one

def later (one other : Instant) : Instant :=
  if one.before other then other else one

def yearText (year : Int) : List Char :=
  if 0 ≤ year ∧ year ≤ 9999 then Text.paddedDigits 4 year.toNat
  else (if year < 0 then '-' else '+') :: Text.digitsAtLeast 4 year.natAbs

/-- A fraction of a second: nothing, or the fewest of 3, 6 and 9 digits that hold it. -/
def fractionText (nanos : Nat) : List Char :=
  if nanos = 0 then []
  else if nanos % 1000000 = 0 then '.' :: Text.paddedDigits 3 (nanos / 1000000)
  else if nanos % 1000 = 0 then '.' :: Text.paddedDigits 6 (nanos / 1000)
  else '.' :: Text.paddedDigits 9 nanos

def dateTimeText (separator : Char) (instant : Instant) : List Char :=
  let (year, month, day) := civilDate (instant.seconds / 86400)
  let secondOfDay := (instant.seconds % 86400).toNat
  let second := secondOfDay % 60 + instant.nanos / nanosPerSecond
  yearText year ++ '-' :: Text.paddedDigits 2 month ++ '-' :: Text.paddedDigits 2 day
    ++ separator :: Text.paddedDigits 2 (secondOfDay / 3600)
    ++ ':' :: Text.paddedDigits 2 (secondOfDay / 60 % 60)
    ++ ':' :: Text.paddedDigits 2 second
    ++ fractionText (instant.nanos % nanosPerSecond)

/-- `2024-01-01T00:00:00Z`, the form in JSON. -/
def zuluText (instant : Instant) : String :=
  String.ofList (dateTimeText 'T' instant ++ ['Z'])

/-- `2024-01-01T00:00:00+00:00`, the form in tables. -/
def offsetText (instant : Instant) : String :=
  String.ofList (dateTimeText 'T' instant ++ "+00:00".toList)

/-- `2024-01-01 00:00:00 UTC`, the form for readers. -/
def plainText (instant : Instant) : String :=
  String.ofList (dateTimeText ' ' instant ++ " UTC".toList)

end Instant

end LogCensus.Time
