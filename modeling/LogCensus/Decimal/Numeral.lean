import LogCensus.Decimal.Binary64
import LogCensus.Text.Numeral
import LogCensus.Text.Blank

/-!
Numerals of a number of seconds: an optional sign, digits with at most one point among or beside
them, and an optional exponent; or a word for infinity or for no number, in any case. A numeral
reads as the nearest double.
-/

namespace LogCensus.Binary64

/-- A sign in front, `true` for a minus, and what follows. -/
def splitSign : List Char → Bool × List Char
  | '-' :: rest => (true, rest)
  | '+' :: rest => (false, rest)
  | rest => (false, rest)

def exponentPart? : List Char → Option Int
  | [] => some 0
  | c :: rest =>
    if c = 'e' ∨ c = 'E' then
      let (negative, digits) := splitSign rest
      (Text.natural? digits).map fun size => if negative then -(size : Int) else size
    else none

def ofNumeral? (text : List Char) : Option Binary64 :=
  let (negative, body) := splitSign text
  if Text.sameLetters body "inf".toList || Text.sameLetters body "infinity".toList then
    some (.infinity negative)
  else if Text.sameLetters body "nan".toList then some .nan
  else
    let whole := body.takeWhile Text.isDigit
    let afterWhole := body.dropWhile Text.isDigit
    let (places, rest) :=
      match afterWhole with
      | '.' :: rest => (rest.takeWhile Text.isDigit, rest.dropWhile Text.isDigit)
      | rest => ([], rest)
    if whole.isEmpty && places.isEmpty then none
    else
      (exponentPart? rest).map fun exponent =>
        ofDecimal negative (Text.digitsValue (whole ++ places)) (exponent - places.length)

end LogCensus.Binary64
