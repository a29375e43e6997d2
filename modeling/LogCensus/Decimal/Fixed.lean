import LogCensus.Decimal.Binary64
import LogCensus.Text.Numeral

/-!
Decimals with a fixed number of places. The exact binary value is rounded, a tie going to the
even digit; a negative zero keeps its sign.
-/

namespace LogCensus.Binary64

def fixed (places : Nat) (number : Binary64) : String :=
  match number with
  | .nan => "NaN"
  | .infinity negative => if negative then "-inf" else "inf"
  | .finite negative mantissa exponent =>
    let (num, den) := ratio mantissa exponent
    let units := roundHalfEven (num * Nat.pow 10 places) den
    let whole := Text.digits (units / Nat.pow 10 places)
    let sign := if negative then ['-'] else []
    let behind := if places = 0 then [] else '.' :: Text.paddedDigits places (units % Nat.pow 10 places)
    String.ofList (sign ++ whole ++ behind)

end LogCensus.Binary64
