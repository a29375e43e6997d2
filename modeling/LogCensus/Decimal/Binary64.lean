/-!
Double precision numbers of IEEE 754 in exact arithmetic. A finite number is
`mantissa * 2 ^ exponent`, with `exponent` from -1074 to 971 and `mantissa` below `2 ^ 53`; every
operation rounds its exact result to the nearest such number, a tie to the even mantissa.
-/

namespace LogCensus

inductive Binary64 where
  | nan
  | infinity (negative : Bool)
  | finite (negative : Bool) (mantissa : Nat) (exponent : Int)
  deriving DecidableEq, Repr, Inhabited

namespace Binary64

def leastExponent : Int := -1074
def greatestExponent : Int := 971

/-- The least mantissa of a number that is written with all 53 binary digits, `2 ^ 52`. -/
def hiddenBit : Nat := 0x10000000000000

def roundHalfEven (num den : Nat) : Nat :=
  let quotient := num / den
  let remainder := num % den
  if den < 2 * remainder ∨ (2 * remainder = den ∧ quotient % 2 = 1) then quotient + 1 else quotient

/-- Numerator and denominator of `num / den / 2 ^ exponent`. -/
def scaled (num den : Nat) (exponent : Int) : Nat × Nat :=
  if exponent ≤ 0 then (num * Nat.pow 2 (-exponent).toNat, den) else (num, den * Nat.pow 2 exponent.toNat)

/-- The exponent at which `num / den` has 53 binary digits before the point, or the least one. -/
def exponentOf (num den : Nat) : Int :=
  let guess := (num.log2 : Int) - (den.log2 : Int) - 53
  let (top, bottom) := scaled num den guess
  max (if top / bottom < 2 * hiddenBit then guess else guess + 1) leastExponent

def zeroOf (negative : Bool) : Binary64 := .finite negative 0 leastExponent

/-- The double nearest to `num / den`, infinite from half a unit above the greatest one on. -/
def ofRatio (negative : Bool) (num den : Nat) : Binary64 :=
  if num = 0 then zeroOf negative
  else
    let exponent := exponentOf num den
    let (top, bottom) := scaled num den exponent
    let mantissa := roundHalfEven top bottom
    let (mantissa, exponent) :=
      if mantissa = 2 * hiddenBit then (hiddenBit, exponent + 1) else (mantissa, exponent)
    if greatestExponent < exponent then .infinity negative else .finite negative mantissa exponent

def ofScaled (negative : Bool) (mantissa : Nat) (exponent : Int) : Binary64 :=
  if 0 ≤ exponent then ofRatio negative (mantissa * Nat.pow 2 exponent.toNat) 1
  else ofRatio negative mantissa (Nat.pow 2 (-exponent).toNat)

def ofNat (value : Nat) : Binary64 := ofRatio false value 1

def ofWord (value : UInt64) : Binary64 := ofNat value.toNat

def ofInt (value : Int) : Binary64 := ofRatio (value < 0) value.natAbs 1

def one : Binary64 := ofNat 1

def isInfinite : Binary64 → Bool
  | infinity _ => true
  | _ => false

def isZero : Binary64 → Bool
  | finite _ mantissa _ => mantissa == 0
  | _ => false

def neg : Binary64 → Binary64
  | nan => nan
  | infinity negative => infinity !negative
  | finite negative mantissa exponent => finite (!negative) mantissa exponent

/-- `±mantissa * 2 ^ exponent` counted in units of `2 ^ unit`, for `unit ≤ exponent`. -/
def inUnits (negative : Bool) (mantissa : Nat) (exponent unit : Int) : Int :=
  let size : Int := (mantissa * Nat.pow 2 (exponent - unit).toNat : Nat)
  if negative then -size else size

def add : Binary64 → Binary64 → Binary64
  | nan, _ => nan
  | _, nan => nan
  | infinity one, infinity other => if one = other then infinity one else nan
  | infinity negative, finite .. => infinity negative
  | finite .., infinity negative => infinity negative
  | finite negative₁ mantissa₁ exponent₁, finite negative₂ mantissa₂ exponent₂ =>
    let unit := min exponent₁ exponent₂
    let sum := inUnits negative₁ mantissa₁ exponent₁ unit +
      inUnits negative₂ mantissa₂ exponent₂ unit
    if sum = 0 then zeroOf (negative₁ && negative₂) else ofScaled (sum < 0) sum.natAbs unit

def sub (left right : Binary64) : Binary64 := add left (neg right)

def mul : Binary64 → Binary64 → Binary64
  | nan, _ => nan
  | _, nan => nan
  | infinity one, infinity other => infinity (one != other)
  | infinity one, finite other mantissa _ => if mantissa = 0 then nan else infinity (one != other)
  | finite one mantissa _, infinity other => if mantissa = 0 then nan else infinity (one != other)
  | finite negative₁ mantissa₁ exponent₁, finite negative₂ mantissa₂ exponent₂ =>
    ofScaled (negative₁ != negative₂) (mantissa₁ * mantissa₂) (exponent₁ + exponent₂)

def div : Binary64 → Binary64 → Binary64
  | nan, _ => nan
  | _, nan => nan
  | infinity _, infinity _ => nan
  | infinity one, finite other _ _ => infinity (one != other)
  | finite one _ _, infinity other => zeroOf (one != other)
  | finite negative₁ mantissa₁ exponent₁, finite negative₂ mantissa₂ exponent₂ =>
    let negative := negative₁ != negative₂
    if mantissa₂ = 0 then if mantissa₁ = 0 then nan else infinity negative
    else if exponent₁ < exponent₂ then
      ofRatio negative mantissa₁ (mantissa₂ * Nat.pow 2 (exponent₂ - exponent₁).toNat)
    else ofRatio negative (mantissa₁ * Nat.pow 2 (exponent₁ - exponent₂).toNat) mantissa₂

instance : Add Binary64 := ⟨add⟩
instance : Sub Binary64 := ⟨sub⟩
instance : Mul Binary64 := ⟨mul⟩
instance : Div Binary64 := ⟨div⟩
instance : Neg Binary64 := ⟨neg⟩

/-- Whether `left < right`; a number that is not one is never smaller nor greater. -/
def less : Binary64 → Binary64 → Bool
  | nan, _ => false
  | _, nan => false
  | infinity one, infinity other => one && !other
  | infinity negative, finite .. => negative
  | finite .., infinity negative => !negative
  | finite negative₁ mantissa₁ exponent₁, finite negative₂ mantissa₂ exponent₂ =>
    let unit := min exponent₁ exponent₂
    inUnits negative₁ mantissa₁ exponent₁ unit < inUnits negative₂ mantissa₂ exponent₂ unit

def ratio (mantissa : Nat) (exponent : Int) : Nat × Nat :=
  if 0 ≤ exponent then (mantissa * Nat.pow 2 exponent.toNat, 1)
  else (mantissa, Nat.pow 2 (-exponent).toNat)

def truncate : Binary64 → Binary64
  | finite negative mantissa exponent =>
    let (num, den) := ratio mantissa exponent
    ofRatio negative (num / den) 1
  | other => other

/-- The whole number on the side of zero, or the nearest of `low … high` beyond its ends; zero
for what is not a number. -/
def saturated (low high : Int) : Binary64 → Int
  | nan => 0
  | infinity negative => if negative then low else high
  | finite negative mantissa exponent =>
    let (num, den) := ratio mantissa exponent
    let size : Int := (num / den : Nat)
    max low (min high (if negative then -size else size))

def roundHalfAway : Binary64 → Binary64
  | finite negative mantissa exponent =>
    let (num, den) := ratio mantissa exponent
    ofRatio negative ((2 * num + den) / (2 * den)) 1
  | other => other

def toBits : Binary64 → Nat
  | nan => 0x7FF8000000000000
  | infinity negative => (if negative then 0x8000000000000000 else 0) + 0x7FF0000000000000
  | finite negative mantissa exponent =>
    (if negative then 0x8000000000000000 else 0) +
      if mantissa < hiddenBit then mantissa
      else (exponent + 1075).toNat * hiddenBit + (mantissa - hiddenBit)

/-- The double nearest to `digits * 10 ^ exponent`. Beyond 10 ^ 310 every number is infinite, and
below 10 ^ -330 every number is zero. -/
def ofDecimal (negative : Bool) (digits : Nat) (exponent : Int) : Binary64 :=
  if digits = 0 then zeroOf negative
  else if 310 < exponent + (digits.log2 : Int) / 4 then .infinity negative
  else if exponent + (digits.log2 : Int) / 3 + 1 < -330 then zeroOf negative
  else if 0 ≤ exponent then ofRatio negative (digits * Nat.pow 10 exponent.toNat) 1
  else ofRatio negative digits (Nat.pow 10 (-exponent).toNat)

def powerOfTen (exponent : Nat) : Binary64 := ofDecimal false 1 exponent

end Binary64

end LogCensus
