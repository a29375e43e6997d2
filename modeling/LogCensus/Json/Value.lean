import LogCensus.Decimal.Shortest

/-!
JSON values and the text of their numbers. A whole number is kept exactly as far as it fits 64
bits; every other number is a double.
-/

namespace LogCensus

inductive Json.Number where
  | natural (value : UInt64)
  | negative (value : Int)
  | real (value : Binary64)
  deriving DecidableEq, Repr, Inhabited

/-- The members of an object stand in the order in which they are written. -/
inductive Json where
  | null
  | bool (value : Bool)
  | number (value : Json.Number)
  | string (value : String)
  | array (elements : List Json)
  | object (members : List (String × Json))
  /-- A value that has no JSON text; writing stops at it. -/
  | unwritable
  deriving Inhabited

namespace Json

def natural (value : UInt64) : Json := .number (.natural value)

mutual

def same : Json → Json → Bool
  | .null, .null => true
  | .bool left, .bool right => left == right
  | .number left, .number right => left == right
  | .string left, .string right => left == right
  | .array left, .array right => sameElements left right
  | .object left, .object right => sameMembers left right
  | .unwritable, .unwritable => true
  | _, _ => false

def sameElements : List Json → List Json → Bool
  | [], [] => true
  | left :: lefts, right :: rights => same left right && sameElements lefts rights
  | _, _ => false

def sameMembers : List (String × Json) → List (String × Json) → Bool
  | [], [] => true
  | (key, left) :: lefts, (other, right) :: rights =>
    key == other && same left right && sameMembers lefts rights
  | _, _ => false

end

mutual

theorem same_iff : ∀ left right : Json, same left right = true ↔ left = right
  | .null, right => by cases right <;> simp [same]
  | .bool _, right => by cases right <;> simp [same]
  | .number _, right => by cases right <;> simp [same]
  | .string _, right => by cases right <;> simp [same]
  | .array left, right => by cases right <;> simp [same, sameElements_iff left]
  | .object left, right => by cases right <;> simp [same, sameMembers_iff left]
  | .unwritable, right => by cases right <;> simp [same]

theorem sameElements_iff : ∀ left right : List Json, sameElements left right = true ↔ left = right
  | [], right => by cases right <;> simp [sameElements]
  | left :: lefts, right => by
    cases right <;> simp [sameElements, same_iff left, sameElements_iff lefts]

theorem sameMembers_iff : ∀ left right : List (String × Json),
    sameMembers left right = true ↔ left = right
  | [], right => by cases right <;> simp [sameMembers]
  | (key, left) :: lefts, right => by
    cases right <;> simp [sameMembers, Prod.ext_iff, same_iff left, sameMembers_iff lefts]

end

instance : DecidableEq Json :=
  fun left right => decidable_of_iff (same left right = true) (same_iff left right)

/-- The shortest decimal that reads back, positional from 0.00001 on and below 10 ^ 16 and there
with at least one place, otherwise with an exponent that has a sign. -/
def realText (negative : Bool) (mantissa : Nat) (exponent : Int) : List Char :=
  let sign := if negative then ['-'] else []
  if mantissa = 0 then sign ++ "0.0".toList
  else
    let decimal := Binary64.shortest mantissa exponent
    let digits := Text.digits decimal.digits
    -- the number of digits in front of the point
    let whole : Int := digits.length + decimal.power
    sign ++
      if 0 ≤ decimal.power ∧ whole ≤ 16 then
        digits ++ List.replicate decimal.power.toNat '0' ++ ".0".toList
      else if 0 < whole ∧ whole ≤ 16 then
        digits.take whole.toNat ++ '.' :: digits.drop whole.toNat
      else if -5 < whole ∧ whole ≤ 0 then
        "0.".toList ++ List.replicate (-whole).toNat '0' ++ digits
      else
        let scale := whole - 1
        let scaleText := (if scale < 0 then '-' else '+') :: Text.digits scale.natAbs
        match digits with
        | [] => []
        | [digit] => digit :: 'e' :: scaleText
        | digit :: places => digit :: '.' :: places ++ 'e' :: scaleText

def Number.text : Number → List Char
  | natural value => Text.digits value.toNat
  | negative value => '-' :: Text.digits value.natAbs
  | real (.finite minus mantissa exponent) => realText minus mantissa exponent
  | real _ => "null".toList

end Json

end LogCensus
