/-!
Decimal digits: the ten ASCII digits, and the characters of the Unicode category
`Decimal_Number`, which come in blocks of ten.
-/

namespace LogCensus.Text

/-- The zero of each block of ten decimal digits. -/
def numeralZeros : List Nat :=
  [0x30, 0x660, 0x6F0, 0x7C0, 0x966, 0x9E6, 0xA66, 0xAE6, 0xB66, 0xBE6, 0xC66, 0xCE6, 0xD66,
    0xDE6, 0xE50, 0xED0, 0xF20, 0x1040, 0x1090, 0x17E0, 0x1810, 0x1946, 0x19D0, 0x1A80, 0x1A90,
    0x1B50, 0x1BB0, 0x1C40, 0x1C50, 0xA620, 0xA8D0, 0xA900, 0xA9D0, 0xA9F0, 0xAA50, 0xABF0,
    0xFF10, 0x104A0, 0x10D30, 0x10D40, 0x11066, 0x110F0, 0x11136, 0x111D0, 0x112F0, 0x11450,
    0x114D0, 0x11650, 0x116C0, 0x116D0, 0x116DA, 0x11730, 0x118E0, 0x11950, 0x11BF0, 0x11C50,
    0x11D50, 0x11DA0, 0x11F50, 0x16130, 0x16A60, 0x16AC0, 0x16B50, 0x16D70, 0x1CCF0, 0x1D7CE,
    0x1D7D8, 0x1D7E2, 0x1D7EC, 0x1D7F6, 0x1E140, 0x1E2F0, 0x1E4F0, 0x1E5F1, 0x1E950, 0x1FBF0]

def isNumeral (c : Char) : Bool :=
  numeralZeros.any fun first => first ≤ c.toNat && c.toNat < first + 10

def isDigit (c : Char) : Bool :=
  '0' ≤ c && c ≤ '9'

def digitValue (c : Char) : Nat :=
  c.toNat - '0'.toNat

def digitsValue (digits : List Char) : Nat :=
  digits.foldl (fun value c => value * 10 + digitValue c) 0

def digitChar (value : Nat) : Char :=
  Char.ofNat ('0'.toNat + value % 10)

def paddedDigits : (width : Nat) → (value : Nat) → List Char
  | 0, _ => []
  | width + 1, value => paddedDigits width (value / 10) ++ [digitChar value]

/-- The number of base ten digits of `value`; zero has one. -/
def digitCount (value : Nat) : Nat :=
  if value < 10 then 1 else digitCount (value / 10) + 1

def digits (value : Nat) : List Char :=
  paddedDigits (digitCount value) value

def ofNat (value : Nat) : String :=
  String.ofList (digits value)

def ofInt (value : Int) : String :=
  String.ofList (if value < 0 then '-' :: digits value.natAbs else digits value.natAbs)

def digitsAtLeast (width value : Nat) : List Char :=
  paddedDigits (max width (digitCount value)) value

def natural? (text : List Char) : Option Nat :=
  if text ≠ [] ∧ text.all isDigit then some (digitsValue text) else none

theorem isNumeral_of_isDigit (c : Char) (digit : isDigit c = true) : isNumeral c = true := by
  simp only [isDigit, Bool.and_eq_true, decide_eq_true_eq] at digit
  have low : 48 ≤ c.toNat := digit.1
  have high : c.toNat ≤ 57 := digit.2
  simp only [isNumeral, numeralZeros, List.any_cons]
  have first : (decide (0x30 ≤ c.toNat) && decide (c.toNat < 0x30 + 10)) = true := by
    simp only [Bool.and_eq_true, decide_eq_true_eq]
    omega
  simp [first]

theorem length_paddedDigits (width value : Nat) : (paddedDigits width value).length = width := by
  induction width generalizing value with
  | zero => rfl
  | succ width ih => simp [paddedDigits, ih]

end LogCensus.Text
