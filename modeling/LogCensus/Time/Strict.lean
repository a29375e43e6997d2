import LogCensus.Time.Reading

/-!
The date-time form of RFC 3339: fixed widths, one colon in the offset, no blanks.
-/

namespace LogCensus.Time.Strict

def takeExactly? (width low high : Nat) (text : List Char) : Option (Taken Nat) :=
  let digits := text.take width
  let value := Text.digitsValue digits
  if digits.length = width ∧ digits.all Text.isDigit ∧ low ≤ value ∧ value ≤ high then
    some (value, text.drop width)
  else none

def takeLiteral? (expected : Char) : List Char → Option (List Char)
  | [] => none
  | c :: rest => if c = expected then some rest else none

def takeFraction? (text : List Char) : Option (Taken Nat) :=
  match text with
  | '.' :: digits =>
    if (digits.takeWhile Text.isDigit).isEmpty then none
    else some (fractionNanos (digits.takeWhile Text.isDigit), digits.dropWhile Text.isDigit)
  | _ => some (0, text)

def takeOffset? (text : List Char) : Option (Taken Int) :=
  match text with
  | 'Z' :: rest | 'z' :: rest => some (0, rest)
  | _ => do
    let (west, rest) ← (takeOffsetSign text).toOption
    let (hours, rest) ← takeExactly? 2 0 23 rest
    let rest ← takeLiteral? ':' rest
    let (minutes, rest) ← takeExactly? 2 0 59 rest
    some (signedOffset west hours minutes, rest)

/-- Date and time of day, the fields of an offset left at zero. -/
def takeDateTime? (text : List Char) : Option (Taken Fields) := do
  let (year, rest) ← takeExactly? 4 0 9999 text
  let rest ← takeLiteral? '-' rest
  let (month, rest) ← takeExactly? 2 1 12 rest
  let rest ← takeLiteral? '-' rest
  let (day, rest) ← takeExactly? 2 1 31 rest
  let rest ← (takeSeparator rest).toOption
  let (hour, rest) ← takeExactly? 2 0 23 rest
  let rest ← takeLiteral? ':' rest
  let (minute, rest) ← takeExactly? 2 0 59 rest
  let rest ← takeLiteral? ':' rest
  let (second, rest) ← takeExactly? 2 0 60 rest
  let (nanos, rest) ← takeFraction? rest
  some ({ year, month, day, hour, minute, second, nanos }, rest)

def takeFields? (text : List Char) : Option (Taken Fields) := do
  let (fields, rest) ← takeDateTime? text
  let (offset, rest) ← takeOffset? rest
  some ({ fields with offset }, rest)

def readInstant? (text : List Char) : Option Instant :=
  match takeFields? text with
  | some (fields, []) => fields.instant.toOption
  | _ => none

end LogCensus.Time.Strict
