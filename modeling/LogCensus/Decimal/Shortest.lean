import LogCensus.Decimal.Binary64
import LogCensus.Text.Numeral

/-!
The shortest decimal that reads back. Of the decimals with the fewest digits inside the interval
of reals that round to a number, the nearest one counts, a tie going to the even digit.
-/

namespace LogCensus.Binary64

/-- The greatest `power` with `10 ^ power ≤ num / den`, for `0 < num`. -/
def decimalMagnitude (num den : Nat) : Int :=
  if den ≤ num then Text.digitCount (num / den) - 1
  else
    let guess : Nat := (den.log2 - num.log2) * 3 / 10
    let shift := guess + Text.digitCount (den / (num * Nat.pow 10 guess)) - 1
    if den ≤ num * Nat.pow 10 shift then -shift else -(shift + 1 : Nat)

/-- The reals that round to `mantissa * 2 ^ exponent`, in units of `2 ^ (exponent - 2)`: the ends,
and whether they belong. Below a power of two the spacing is half as wide. -/
structure Neighbourhood where
  low : Nat
  middle : Nat
  high : Nat
  closed : Bool

def neighbourhood (mantissa : Nat) (exponent : Int) : Neighbourhood where
  low := if mantissa = hiddenBit ∧ leastExponent < exponent then 4 * mantissa - 1 else 4 * mantissa - 2
  middle := 4 * mantissa
  high := 4 * mantissa + 2
  closed := mantissa % 2 == 0

structure Decimal where
  digits : Nat
  power : Int
  deriving DecidableEq, Repr

def Neighbourhood.holds (area : Neighbourhood) (value den : Nat) : Bool :=
  if area.closed then area.low * den ≤ value && value ≤ area.high * den
  else area.low * den < value && value < area.high * den

def onGrid? (area : Neighbourhood) (exponent power : Int) : Option Nat :=
  -- a grid step of `10 ^ power` is `step / unit` units of `2 ^ (exponent - 2)`
  let binary := exponent - 2
  let step := Nat.pow 10 power.toNat * Nat.pow 2 (-binary).toNat
  let unit := Nat.pow 10 (-power).toNat * Nat.pow 2 binary.toNat
  let below := area.middle * unit / step
  let above := below + 1
  let belowHolds := area.holds (below * step) unit
  let aboveHolds := area.holds (above * step) unit
  let gapBelow := area.middle * unit - below * step
  let gapAbove := above * step - area.middle * unit
  if belowHolds && aboveHolds then
    if gapBelow < gapAbove || (gapBelow == gapAbove && below % 2 == 0) then some below
    else some above
  else if belowHolds then some below
  else if aboveHolds then some above
  else none

def shortestFrom (area : Neighbourhood) (exponent : Int) : (tries : Nat) → (power : Int) → Decimal
  | 0, power => ⟨0, power⟩
  | tries + 1, power =>
    match onGrid? area exponent power with
    | some digits => ⟨digits, power⟩
    | none => shortestFrom area exponent tries (power - 1)

def withoutTrailingZeros : (tries : Nat) → Decimal → Decimal
  | 0, decimal => decimal
  | tries + 1, decimal =>
    if decimal.digits ≠ 0 ∧ decimal.digits % 10 = 0 then
      withoutTrailingZeros tries ⟨decimal.digits / 10, decimal.power + 1⟩
    else decimal

/-- The shortest decimal of a finite number other than zero. Seventeen digits always suffice. -/
def shortest (mantissa : Nat) (exponent : Int) : Decimal :=
  let (num, den) := ratio mantissa exponent
  withoutTrailingZeros 20
    (shortestFrom (neighbourhood mantissa exponent) exponent 18 (decimalMagnitude num den))

end LogCensus.Binary64
