/-!
The Gregorian calendar in both directions: dates as day numbers, counted from 1970-01-01, and day
numbers as dates. Years are astronomical, the year 0 comes before the year 1.
-/

namespace LogCensus.Time

def isLeapYear (year : Int) : Bool :=
  year % 4 == 0 && (year % 100 != 0 || year % 400 == 0)

def daysInMonth (year : Int) (month : Nat) : Nat :=
  match month with
  | 2 => if isLeapYear year then 29 else 28
  | 4 | 6 | 9 | 11 => 30
  | _ => 31

def leastYear : Int := -262143
def greatestYear : Int := 262142

def isDate (year : Int) (month day : Nat) : Bool :=
  leastYear ≤ year && year ≤ greatestYear && 1 ≤ month && month ≤ 12 && 1 ≤ day
    && day ≤ daysInMonth year month

structure Date where
  year : Int
  month : Nat
  day : Nat
  isDate : isDate year month day = true
  deriving DecidableEq

def Date.ofParts? (year : Int) (month day : Nat) : Option Date :=
  if valid : Time.isDate year month day = true then some ⟨year, month, day, valid⟩ else none

/-- The days from 1970-01-01 to a date. Years are counted from March, so that the leap day is the
last one of its year. -/
def dayNumber (year : Int) (month day : Nat) : Int :=
  let marchYear := if month ≤ 2 then year - 1 else year
  let cycle := marchYear / 400
  let yearOfCycle := marchYear % 400
  let marchMonth : Int := ((month + 9) % 12 : Nat)
  let dayOfYear := (153 * marchMonth + 2) / 5 + (day : Int) - 1
  let dayOfCycle := yearOfCycle * 365 + yearOfCycle / 4 - yearOfCycle / 100 + dayOfYear
  cycle * 146097 + dayOfCycle - 719468

def Date.dayNumber (date : Date) : Int :=
  Time.dayNumber date.year date.month date.day

def civilDate (dayNumber : Int) : Int × Nat × Nat :=
  let shifted := dayNumber + 719468
  let cycle := shifted / 146097
  let dayOfCycle := shifted % 146097
  let yearOfCycle :=
    (dayOfCycle - dayOfCycle / 1460 + dayOfCycle / 36524 - dayOfCycle / 146096) / 365
  let dayOfYear := dayOfCycle - (365 * yearOfCycle + yearOfCycle / 4 - yearOfCycle / 100)
  let marchMonth := (5 * dayOfYear + 2) / 153
  let day := (dayOfYear - (153 * marchMonth + 2) / 5 + 1).toNat
  let month := (if marchMonth < 10 then marchMonth + 3 else marchMonth - 9).toNat
  let year := yearOfCycle + cycle * 400 + (if month ≤ 2 then 1 else 0)
  (year, month, day)

/-- The day of the week, 0 for Sunday. -/
def weekday (dayNumber : Int) : Int :=
  (dayNumber + 4) % 7

end LogCensus.Time
