import LogCensus.Decimal.Numeral
import LogCensus.Proofs.Decimal.Nearest
import LogCensus.Proofs.Json.Numeral

/-!
Numerals as they are written, and what they say. The reader of numerals takes exactly these texts
and the words for infinity and for no number; which double it gives depends on nothing but the
digits of a numeral and the power of ten they count.
-/

namespace LogCensus.Binary64

open Json.Numeral (Digits placesText)
open Text (isDigit digitsValue isMinus signText unsigned_of_isDigit)

/-! ### Signs -/

theorem splitSign_signText (sign : Option Bool) {body : List Char}
    (unsigned : ∀ c ∈ body.head?, c ≠ '-' ∧ c ≠ '+') :
    splitSign (signText sign ++ body) = (isMinus sign, body) := by
  rcases sign with _ | _ | _
  · cases body with
    | nil => rfl
    | cons c body =>
      obtain ⟨minus, plus⟩ := unsigned c rfl
      simp only [signText, List.nil_append]
      unfold splitSign
      split
      · next same => exact absurd (List.cons.inj same).1 minus
      · next same => exact absurd (List.cons.inj same).1 plus
      · rfl
  · rfl
  · rfl

theorem exists_signText (text : List Char) :
    ∃ sign, text = signText sign ++ (splitSign text).2 ∧ (splitSign text).1 = isMinus sign := by
  unfold splitSign
  split
  · exact ⟨some true, rfl, rfl⟩
  · exact ⟨some false, rfl, rfl⟩
  · exact ⟨none, rfl, rfl⟩

/-! ### Scales -/

structure Scale where
  mark : Char
  sign : Option Bool
  digits : List Char
  known : mark = 'e' ∨ mark = 'E'
  formed : Digits digits

namespace Scale

def text (scale : Scale) : List Char := scale.mark :: (signText scale.sign ++ scale.digits)

def power (scale : Scale) : Int :=
  if isMinus scale.sign then -(digitsValue scale.digits : Int) else digitsValue scale.digits

theorem unsigned (scale : Scale) : ∀ c ∈ scale.digits.head?, c ≠ '-' ∧ c ≠ '+' := fun c first =>
  unsigned_of_isDigit (scale.formed.2 c (List.mem_of_mem_head? first))

end Scale

def scaleText (scale : Option Scale) : List Char := scale.elim [] Scale.text
def scalePower (scale : Option Scale) : Int := scale.elim 0 Scale.power

theorem natural?_iff {digits : List Char} {value : Nat} :
    Text.natural? digits = some value ↔ Digits digits ∧ value = digitsValue digits := by
  simp only [Text.natural?, Option.ite_none_right_eq_some, Option.some.injEq, List.all_eq_true,
    Digits, eq_comm (a := digitsValue digits)]

theorem exponentPart?_iff {text : List Char} {exponent : Int} :
    exponentPart? text = some exponent ↔
      ∃ scale, text = scaleText scale ∧ exponent = scalePower scale := by
  constructor
  · intro read
    cases text with
    | nil =>
      cases read
      exact ⟨none, rfl, rfl⟩
    | cons c rest =>
      simp only [exponentPart?, Option.ite_none_right_eq_some, Option.map_eq_some_iff,
        Option.bind_eq_bind, Option.bind_eq_some_iff, Option.pure_def, Option.some.injEq] at read
      obtain ⟨known, size, ⟨digits, natural, rfl⟩, rfl⟩ := read
      obtain ⟨formed, rfl⟩ := natural?_iff.1 natural
      obtain ⟨sign, shown, minus⟩ := exists_signText rest
      refine ⟨some ⟨c, sign, (splitSign rest).2, known, formed⟩, congrArg (c :: ·) shown, ?_⟩
      rw [minus]
      rfl
  · rintro ⟨scale, rfl, rfl⟩
    cases scale with
    | none => rfl
    | some scale =>
      have sign := splitSign_signText scale.sign scale.unsigned
      have digits := natural?_iff.2 ⟨scale.formed, rfl⟩
      simp only [scaleText, scalePower, Option.elim, Scale.text, exponentPart?, if_pos scale.known,
        sign, digits, Option.bind_eq_bind, Option.bind_some, Option.pure_def, Option.map_some,
        Scale.power]

theorem scaleText_head (scale : Option Scale) :
    ∀ c ∈ (scaleText scale).head?, c = 'e' ∨ c = 'E' := by
  intro c first
  cases scale with
  | none => cases first
  | some scale =>
    cases first
    exact scale.known

theorem scaleText_stop (scale : Option Scale) :
    ∀ c ∈ (scaleText scale).head?, isDigit c = false := by
  intro c first
  rcases scaleText_head scale c first with rfl | rfl <;> rfl

/-! ### Numerals -/

/-- A numeral as it is written. A point may stand in front of or behind all digits. -/
structure Numeral where
  sign : Option Bool
  whole : List Char
  places : Option (List Char)
  scale : Option Scale
  whole_all : ∀ c ∈ whole, isDigit c = true
  places_all : ∀ digits ∈ places, ∀ c ∈ digits, isDigit c = true
  formed : whole ++ places.getD [] ≠ []

namespace Numeral

def body (numeral : Numeral) : List Char :=
  numeral.whole ++ (placesText numeral.places ++ scaleText numeral.scale)

def text (numeral : Numeral) : List Char := signText numeral.sign ++ numeral.body

def count (numeral : Numeral) : Nat := digitsValue (numeral.whole ++ numeral.places.getD [])

def power (numeral : Numeral) : Int :=
  scalePower numeral.scale - ((numeral.places.getD []).length : Int)

def value (numeral : Numeral) : ℚ :=
  signed (isMinus numeral.sign) (numeral.count * 10 ^ numeral.power)

theorem placesText_stop (numeral : Numeral) :
    ∀ c ∈ (placesText numeral.places ++ scaleText numeral.scale).head?, isDigit c = false := by
  intro c first
  cases places : numeral.places with
  | none =>
    rw [places] at first
    exact scaleText_stop numeral.scale c first
  | some digits =>
    rw [places] at first
    cases first
    rfl

theorem exists_body_head (numeral : Numeral) :
    ∃ c rest, numeral.body = c :: rest ∧ (isDigit c = true ∨ c = '.') := by
  cases whole : numeral.whole with
  | cons c rest =>
    refine ⟨c, rest ++ (placesText numeral.places ++ scaleText numeral.scale), ?_, .inl ?_⟩
    · rw [body, whole, List.cons_append]
    · exact numeral.whole_all c (whole ▸ List.mem_cons_self)
  | nil =>
    cases places : numeral.places with
    | none => exact absurd (by rw [whole, places]; rfl) numeral.formed
    | some digits =>
      refine ⟨'.', digits ++ scaleText numeral.scale, ?_, .inr rfl⟩
      rw [body, whole, places]
      rfl

theorem body_unsigned (numeral : Numeral) : ∀ c ∈ numeral.body.head?, c ≠ '-' ∧ c ≠ '+' := by
  intro c first
  obtain ⟨front, rest, shown, digit | rfl⟩ := numeral.exists_body_head
  · rw [shown] at first
    cases first
    exact unsigned_of_isDigit digit
  · rw [shown] at first
    cases first
    decide

end Numeral

/-! ### Words -/

def IsWord (text word : List Char) : Prop :=
  ∃ sign body, text = signText sign ++ body ∧ Text.sameLetters body word = true

theorem toLower_of_isDigit {c : Char} (front : isDigit c = true ∨ c = '.') : c.toLower = c := by
  rcases front with digit | rfl
  · have bounds := Text.isDigit_iff.1 digit
    refine dif_neg ?_
    rintro ⟨low, -⟩
    have code : 65 ≤ c.toNat := low
    omega
  · rfl

/-- No numeral has the letters of a word. -/
theorem Numeral.sameLetters_body (numeral : Numeral) {letter : Char} {letters : List Char}
    (small : isDigit letter.toLower = false ∧ letter.toLower ≠ '.') :
    Text.sameLetters numeral.body (letter :: letters) = false := by
  obtain ⟨c, rest, shown, front⟩ := numeral.exists_body_head
  rw [shown, Text.sameLetters, beq_eq_false_iff_ne]
  simp only [Text.lowered, List.map_cons, ne_eq, List.cons.injEq, not_and]
  intro same
  rw [toLower_of_isDigit front] at same
  rw [← same] at small
  rcases front with digit | rfl
  · rw [digit] at small
    cases small.1
  · exact absurd rfl small.2

/-! ### What the reader takes -/

/-- What stands behind the sign is one of the words, or digits, a point, digits and a scale. -/
theorem ofNumeral?_of_body {text body : List Char} {negative : Bool}
    (whole places rest : List Char) (sign : splitSign text = (negative, body))
    (inf : Text.sameLetters body "inf".toList = false)
    (infinity : Text.sameLetters body "infinity".toList = false)
    (nan : Text.sameLetters body "nan".toList = false)
    (front : body.takeWhile isDigit = whole)
    (point : body.dropWhile isDigit = '.' :: (places ++ rest) ∧
      (places ++ rest).takeWhile isDigit = places ∧ (places ++ rest).dropWhile isDigit = rest ∨
      body.dropWhile isDigit = rest ∧ places = [] ∧ rest.head? ≠ some '.') :
    ofNumeral? text =
      if whole.isEmpty && places.isEmpty then none
      else (exponentPart? rest).map fun exponent =>
        ofDecimal negative (digitsValue (whole ++ places)) (exponent - places.length) := by
  unfold ofNumeral?
  simp only [sign, inf, infinity, nan, Bool.or_self, Bool.false_eq_true, if_false, front]
  rcases point with ⟨behind, taken, left⟩ | ⟨behind, rfl, noPoint⟩
  · simp only [behind, taken, left]
  · rw [behind]
    split
    · next same => exact absurd rfl noPoint
    · rfl

theorem ofNumeral?_text (numeral : Numeral) :
    ofNumeral? numeral.text =
      some (ofDecimal (isMinus numeral.sign) numeral.count numeral.power) := by
  have exponent := exponentPart?_iff.2 ⟨numeral.scale, rfl, rfl⟩
  have some : (numeral.whole.isEmpty && (numeral.places.getD []).isEmpty) = false := by
    have formed := numeral.formed
    rw [Ne, List.append_eq_nil_iff, ← List.isEmpty_iff, ← List.isEmpty_iff,
      ← Bool.and_eq_true] at formed
    exact eq_false_of_ne_true formed
  have read := ofNumeral?_of_body numeral.whole (numeral.places.getD []) (scaleText numeral.scale)
    (splitSign_signText numeral.sign numeral.body_unsigned)
    (numeral.sameLetters_body (by decide)) (numeral.sameLetters_body (by decide))
    (numeral.sameLetters_body (by decide))
    (Text.takeWhile_append_stop numeral.whole_all numeral.placesText_stop) (by
      rw [Numeral.body, Text.dropWhile_append_stop numeral.whole_all numeral.placesText_stop]
      have stop := scaleText_stop numeral.scale
      cases places : numeral.places with
      | none =>
        refine .inr ⟨rfl, rfl, fun point => ?_⟩
        rcases scaleText_head numeral.scale '.' point with same | same <;> cases same
      | some digits =>
        have all := numeral.places_all digits places
        exact .inl ⟨rfl, Text.takeWhile_append_stop all stop, Text.dropWhile_append_stop all stop⟩)
  rw [Numeral.text, read, some, exponent]
  rfl

theorem ofNumeral?_nan {text : List Char} (word : IsWord text "nan".toList) :
    ofNumeral? text = some .nan := by
  obtain ⟨sign, body, rfl, nan⟩ := word
  have letters : Text.lowered body = Text.lowered "nan".toList := eq_of_beq nan
  have inf : Text.sameLetters body "inf".toList = false := by
    rw [Text.sameLetters, letters]
    decide
  have infinity : Text.sameLetters body "infinity".toList = false := by
    rw [Text.sameLetters, letters]
    decide
  have unsigned : ∀ c ∈ body.head?, c ≠ '-' ∧ c ≠ '+' := by
    intro c first
    have small : c.toLower = 'n' := by
      have front := congrArg List.head? letters
      rw [Text.lowered, List.head?_map, first] at front
      exact Option.some.inj front
    constructor <;> rintro rfl <;> cases small
  simp only [ofNumeral?, splitSign_signText sign unsigned, inf, infinity, nan, Bool.or_self,
    Bool.false_eq_true, if_false, if_true]

theorem exists_scale_of_read {whole places rest : List Char} {make : Int → Binary64}
    {number : Binary64}
    (read : (if whole.isEmpty && places.isEmpty then none else (exponentPart? rest).map make) =
      some number) :
    whole ++ places ≠ [] ∧ ∃ scale, rest = scaleText scale := by
  rw [Option.ite_none_left_eq_some, Option.map_eq_some_iff] at read
  obtain ⟨some, exponent, found, -⟩ := read
  obtain ⟨scale, shown, -⟩ := exponentPart?_iff.1 found
  rw [Bool.and_eq_true, List.isEmpty_iff, List.isEmpty_iff, ← List.append_eq_nil_iff] at some
  exact ⟨some, scale, shown⟩

/-- A text that reads is a numeral or one of the words. -/
theorem exists_numeral {text : List Char} {number : Binary64} (read : ofNumeral? text = some number) :
    (∃ numeral : Numeral, text = numeral.text) ∨
      (∃ negative, number = .infinity negative) ∨ number = .nan ∧ IsWord text "nan".toList := by
  obtain ⟨sign, shown, minus⟩ := exists_signText text
  obtain ⟨body, body_eq⟩ : ∃ body, body = (splitSign text).2 := ⟨_, rfl⟩
  have split : splitSign text = (isMinus sign, body) := by rw [body_eq, ← minus]
  rw [← body_eq] at shown
  by_cases inf : Text.sameLetters body "inf".toList = true
  · simp only [ofNumeral?, split, inf, Bool.true_or, if_true, Option.some.injEq] at read
    exact .inr (.inl ⟨_, read.symm⟩)
  by_cases infinity : Text.sameLetters body "infinity".toList = true
  · simp only [ofNumeral?, split, infinity, Bool.or_true, if_true, Option.some.injEq] at read
    exact .inr (.inl ⟨_, read.symm⟩)
  rw [Bool.not_eq_true] at inf infinity
  by_cases nan : Text.sameLetters body "nan".toList = true
  · simp only [ofNumeral?, split, inf, infinity, nan, Bool.or_self, Bool.false_eq_true, if_false,
      if_true, Option.some.injEq] at read
    exact .inr (.inr ⟨read.symm, sign, body, shown, nan⟩)
  rw [Bool.not_eq_true] at nan
  left
  have cut := List.takeWhile_append_dropWhile (p := isDigit) (l := body)
  have whole : ∀ c ∈ body.takeWhile isDigit, isDigit c = true := fun c => List.mem_takeWhile_imp
  by_cases point : ∃ rest, body.dropWhile isDigit = '.' :: rest
  · obtain ⟨rest, behind⟩ := point
    have cutRest := List.takeWhile_append_dropWhile (p := isDigit) (l := rest)
    rw [ofNumeral?_of_body _ _ _ split inf infinity nan rfl
      (.inl ⟨by rw [cutRest]; exact behind, by rw [cutRest], by rw [cutRest]⟩)] at read
    obtain ⟨digits, scale, scaled⟩ := exists_scale_of_read read
    refine ⟨⟨sign, _, some (rest.takeWhile isDigit), scale, whole, ?_, digits⟩, ?_⟩
    · rintro _ ⟨⟩ c
      exact List.mem_takeWhile_imp
    · have places : body.dropWhile isDigit =
          placesText (some (rest.takeWhile isDigit)) ++ scaleText scale := by
        rw [behind, ← scaled]
        exact congrArg ('.' :: ·) cutRest.symm
      exact shown.trans (congrArg (signText sign ++ ·) (cut.symm.trans (congrArg _ places)))
  · rw [ofNumeral?_of_body _ _ _ split inf infinity nan rfl
      (.inr ⟨rfl, rfl, fun first => point ?_⟩)] at read
    · obtain ⟨digits, scale, scaled⟩ := exists_scale_of_read read
      refine ⟨⟨sign, _, none, scale, whole, nofun, digits⟩, ?_⟩
      exact shown.trans (congrArg (signText sign ++ ·) (cut.symm.trans (congrArg _ scaled)))
    · obtain ⟨rest, behind⟩ := List.head?_eq_some_iff.1 first
      exact ⟨rest, behind⟩

/-! ### The double of digits and a power of ten -/

section Bounds

variable {count : Nat} (some : 0 < count) (power : Int)
include some

/-- Four binary digits make at least one decimal one. -/
theorem pow_le_of_log2 : (10 : ℚ) ^ (power + (count.log2 : Int) / 4) ≤ count * 10 ^ power := by
  obtain ⟨low, -⟩ := log2_bounds some
  obtain ⟨quarter, quarter_eq⟩ : ∃ quarter : Nat, (count.log2 : Int) / 4 = quarter :=
    Int.eq_ofNat_of_zero_le (by omega)
  have split : 4 * quarter ≤ count.log2 := by omega
  rw [quarter_eq, zpow_add₀ (by norm_num), zpow_natCast, mul_comm]
  gcongr
  calc (10 : ℚ) ^ quarter ≤ (2 ^ 4) ^ quarter := by gcongr; norm_num
    _ = 2 ^ (4 * quarter) := by rw [pow_mul]
    _ ≤ 2 ^ count.log2 := by gcongr; norm_num
    _ ≤ count := by rwa [zpow_natCast] at low

/-- Three binary digits make at most one decimal one. -/
theorem lt_pow_of_log2 : (count : ℚ) * 10 ^ power < 10 ^ (power + (count.log2 : Int) / 3 + 1) := by
  obtain ⟨-, high⟩ := log2_bounds some
  obtain ⟨third, third_eq⟩ : ∃ third : Nat, (count.log2 : Int) / 3 + 1 = third :=
    Int.eq_ofNat_of_zero_le (by omega)
  have split : count.log2 + 1 ≤ 3 * third := by omega
  rw [add_assoc, third_eq, zpow_add₀ (by norm_num), zpow_natCast, mul_comm]
  gcongr
  calc (count : ℚ) < 2 ^ (count.log2 + 1) := by exact_mod_cast high
    _ ≤ 2 ^ (3 * third) := by gcongr; norm_num
    _ = (2 ^ 3) ^ third := by rw [pow_mul]
    _ ≤ 10 ^ third := by gcongr; norm_num

/-- Digits and a power of ten are rounded as the ratio they are, unless that is far beyond the
greatest double or far below the least one. -/
theorem ofDecimal_cases (negative : Bool) :
    (ofDecimal negative count power = .infinity negative ∧
        (10 : ℚ) ^ (311 : Int) ≤ count * 10 ^ power) ∨
      (ofDecimal negative count power = zeroOf negative ∧
        (count : ℚ) * 10 ^ power < 10 ^ (-330 : Int)) ∨
      ∃ num den : Nat, 0 < num ∧ 0 < den ∧ (num : ℚ) / den = count * 10 ^ power ∧
        ofDecimal negative count power = ofRatio negative num den := by
  have powers : ∀ size, 0 < Nat.pow 10 size := fun size => Nat.pow_pos (by decide)
  unfold ofDecimal
  rw [if_neg some.ne']
  split_ifs with large small up
  · refine .inl ⟨rfl, le_trans ?_ (pow_le_of_log2 some power)⟩
    exact zpow_le_zpow_right₀ (by norm_num) large
  · refine .inr (.inl ⟨rfl, (lt_pow_of_log2 some power).trans_le ?_⟩)
    exact zpow_le_zpow_right₀ (by norm_num) small.le
  · obtain ⟨size, rfl⟩ := Int.eq_ofNat_of_zero_le up
    refine .inr (.inr ⟨_, _, Nat.mul_pos some (powers _), Nat.one_pos, ?_, rfl⟩)
    rw [Int.toNat_natCast, Nat.pow_eq, zpow_natCast]
    push_cast
    rw [div_one]
  · obtain ⟨size, rfl⟩ := Int.exists_eq_neg_ofNat (not_le.1 up).le
    refine .inr (.inr ⟨_, _, some, powers _, ?_, rfl⟩)
    rw [neg_neg, Int.toNat_natCast, Nat.pow_eq, zpow_neg, zpow_natCast]
    push_cast
    rw [div_eq_mul_inv]

end Bounds

theorem ofDecimal_zero (negative : Bool) (power : Int) :
    ofDecimal negative 0 power = zeroOf negative := if_pos rfl

end LogCensus.Binary64
