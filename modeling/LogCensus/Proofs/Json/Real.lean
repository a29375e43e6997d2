import LogCensus.Json.Scalar
import LogCensus.Proofs.Decimal.Shortest
import LogCensus.Proofs.Json.Numeral

/-!
The text of a finite double reads as a double. The decimal is rounded three times when it is read,
which can only matter for the greatest finite numbers, and those are read one by one.
-/

namespace LogCensus.Json

open Binary64 (overflow shortest slack)
open Text (isDigit digitsValue)

/-! ### Scaling what was read -/

theorem overflow_lt : overflow < 10 ^ 309 := by
  have powers : 18014398509481983 * 2 ^ 970 < 10 ^ 309 := by decide +kernel
  have mantissa : (2 : ℚ) ^ 54 - 1 = (18014398509481983 : Nat) := by norm_num
  rw [overflow, mantissa]
  exact_mod_cast powers

/-- The scale of a number below the overflow is one that is applied in one step. -/
theorem exponent_le {value : ℚ} {exponent : Int} (some : 1 ≤ value)
    (bound : value * 10 ^ exponent ≤ overflow) : exponent ≤ 308 := by
  by_contra beyond
  have large : (10 : ℚ) ^ (309 : Int) ≤ 10 ^ exponent :=
    zpow_le_zpow_right₀ (by norm_num) (by omega)
  have least : (10 : ℚ) ^ exponent ≤ value * 10 ^ exponent :=
    le_mul_of_one_le_left (by positivity) some
  rw [show (10 : ℚ) ^ (309 : Int) = 10 ^ 309 from zpow_natCast 10 309] at large
  exact absurd (large.trans least) (not_le.2 (bound.trans_lt overflow_lt))

theorem realOfParts?_some {value : Nat} {exponent : Int}
    (bound : 0 ≤ exponent → (value : ℚ) * 10 ^ exponent * slack ^ 2 < overflow) :
    ∃ size, realOfParts? value exponent = some size := by
  unfold realOfParts?
  simp only
  split_ifs with zero negative beyond infinite
  · exact ⟨_, rfl⟩
  · exact ⟨_, rfl⟩
  all_goals
    obtain ⟨power, rfl⟩ := Int.eq_ofNat_of_zero_le (not_lt.1 negative)
    have positive : 0 < value := by
      rcases Nat.eq_zero_or_pos value with rfl | positive
      · exact absurd rfl zero
      · exact positive
    have below := bound (Int.natCast_nonneg power)
    have value_ge : (1 : ℚ) ≤ value := by exact_mod_cast positive
    have plain : (value : ℚ) * 10 ^ (power : Int) < overflow :=
      (le_mul_of_one_le_right (by positivity) Binary64.one_le_slack_sq).trans_lt below
    have small := exponent_le value_ge plain.le
  · exact absurd beyond (not_lt.2 small)
  · rw [zpow_natCast] at below
    rw [Int.toNat_natCast] at infinite
    have finite := Binary64.isInfinite_mul_powerOfTen positive (by omega) below
    rw [finite] at infinite
    cases infinite
  · exact ⟨_, rfl⟩

theorem word_below_overflow {value : Nat} (fits : value ≤ greatestWord) :
    (value : ℚ) * slack ^ 2 < overflow := by
  have cast : (value : ℚ) ≤ 2 ^ 64 := by
    have bound : value ≤ 2 ^ 64 := by rw [greatestWord] at fits; omega
    exact_mod_cast bound
  have close : slack ^ 2 ≤ 4 := by norm_num [slack]
  have large : (2 : ℚ) ^ 13 ≤ 2 ^ 970 := pow_le_pow_right₀ (by norm_num) (by decide)
  calc (value : ℚ) * slack ^ 2 ≤ 2 ^ 64 * 4 := by gcongr
    _ < (2 ^ 54 - 1) * 2 ^ 13 := by norm_num
    _ ≤ overflow := by
      rw [overflow]
      exact mul_le_mul_of_nonneg_left large (by norm_num)

/-- Without a scale above zero a word is far from the overflow. -/
theorem realOfParts?_word {value : Nat} (fits : value ≤ greatestWord) {exponent : Int}
    (low : exponent ≤ 0) : ∃ size, realOfParts? value exponent = some size := by
  apply realOfParts?_some
  intro up
  rw [le_antisymm low up, zpow_zero, mul_one]
  exact word_below_overflow fits

/-! ### Reading a numeral as a double -/

/-- A numeral with a point or a scale that reads as a double. -/
structure Numeral.IsReal (numeral : Numeral) : Prop where
  formed : numeral.WellFormed
  fits : digitsValue numeral.whole ≤ greatestWord
  real : numeral.places.isSome ∨ numeral.scale.isSome
  /-- The digits counted behind the point are all of them if the number fits a word. -/
  bound : ∀ digits, numeral.scale = some (false, digits) → digitsValue digits ≤ greatestScale ∧
    ∀ counted ≤ (numeral.places.getD []).length,
      (digitsValue (numeral.whole ++ numeral.places.getD []) ≤ greatestWord →
        counted = (numeral.places.getD []).length) →
      ∃ size, realOfParts? (digitsValue (numeral.whole ++ (numeral.places.getD []).take counted))
        (digitsValue digits - counted) = some size

theorem Lexeme.value_real {lexeme : Lexeme} {numeral : Numeral} (readable : numeral.IsReal)
    (whole : lexeme.whole = numeral.whole) (places : lexeme.places = numeral.places)
    (scale : lexeme.scale = numeral.scale) (negative : Bool) :
    ∃ size, lexeme.value negative = .ok (.real size) := by
  obtain ⟨formed, fits, real, bound⟩ := readable
  have front := fitDigits_word fits
  obtain ⟨count, number⟩ := fitDigits_spec (digitsValue numeral.whole) (numeral.places.getD [])
  have complete : digitsValue (numeral.whole ++ numeral.places.getD []) ≤ greatestWord →
      (fitDigits (digitsValue numeral.whole) (numeral.places.getD [])).2.1 =
        (numeral.places.getD []).length := by
    intro room
    rw [Text.digitsValue_append] at room
    rw [fitDigits_all room]
  have fitted := fitDigits_le fits (numeral.places.getD [])
  have notWhole : ¬ (numeral.places.isNone = true ∧ numeral.scale.isNone = true) := by
    rintro ⟨noPlaces, noScale⟩
    rw [Option.isNone_iff_eq_none] at noPlaces noScale
    rw [noPlaces, noScale] at real
    simp at real
  unfold Lexeme.value
  simp only [whole, places, scale, front, List.isEmpty_nil, true_and, if_neg notWhole,
    List.length_nil, Nat.cast_zero, zero_sub]
  generalize fitDigits (digitsValue numeral.whole) (numeral.places.getD []) = taken
    at count number complete fitted
  obtain ⟨value, counted, behind⟩ := taken
  simp only at count number complete fitted ⊢
  have taken : digitsValue (numeral.whole ++ (numeral.places.getD []).take counted) = value := by
    rw [number, Text.digitsValue_append, List.length_take, Nat.min_eq_left count]
  cases parts : numeral.scale with
  | none =>
    obtain ⟨size, read⟩ := realOfParts?_word fitted (show -(counted : Int) + 0 ≤ 0 by omega)
    exact ⟨withSign negative size, by simp only [read]⟩
  | some part =>
    obtain ⟨down, digits⟩ := part
    cases down with
    | true =>
      cases far : overflowAt? 0 0 digits with
      | some place => exact ⟨withSign negative (Binary64.zeroOf false), by simp [far]⟩
      | none =>
        obtain ⟨size, read⟩ := realOfParts?_word fitted
          (show -(counted : Int) + -(digitsValue digits : Int) ≤ 0 by omega)
        exact ⟨withSign negative size, by simp only [far, if_true, read]⟩
    | false =>
      obtain ⟨scaleFits, scaled⟩ := bound digits parts
      obtain ⟨size, read⟩ := scaled counted count complete
      have near : overflowAt? 0 0 digits = none := by
        apply overflowAt?_none
        rwa [Nat.zero_mul, Nat.zero_add]
      rw [taken, show (digitsValue digits : Int) - counted = -counted + digitsValue digits by ring]
        at read
      exact ⟨withSign negative size, by simp only [near, Bool.false_eq_true, if_false, read]⟩

/-! ### The text of a double as a numeral -/

structure ReadsFinite (decimal : Binary64.Decimal) : Prop where
  digits : 0 < decimal.digits
  near : (decimal.digits : ℚ) * 10 ^ decimal.power ≤ overflow
  finite : (decimal.digits : ℚ) * 10 ^ decimal.power * slack ^ 2 < overflow ∨
    (decimal.digits ≤ greatestWord ∧
      ∃ size, realOfParts? decimal.digits decimal.power = some size)

theorem overflow_eq : overflow = (2 ^ 55 - 2) * 2 ^ (969 : Int) := by
  have double : (2 : ℚ) ^ 970 = 2 * 2 ^ (969 : Int) := (pow_succ' 2 969).trans rfl
  rw [overflow, double, ← mul_assoc]
  norm_num

/-- Four units below the overflow the roundings do not reach it. -/
theorem mul_slack_sq_lt {value : ℚ} (below : value ≤ (2 ^ 55 - 10) * 2 ^ (969 : Int)) :
    value * slack ^ 2 < overflow := by
  have slack_sq : slack ^ 2 = 1 + 1 / 2 ^ 52 + 1 / 2 ^ 106 := by norm_num [slack]
  have top_pos : (0 : ℚ) < 2 ^ (969 : Int) := by positivity
  rw [overflow_eq, slack_sq]
  generalize (2 : ℚ) ^ (969 : Int) = top at below top_pos
  calc value * (1 + 1 / 2 ^ 52 + 1 / 2 ^ 106)
      ≤ (2 ^ 55 - 10) * top * (1 + 1 / 2 ^ 52 + 1 / 2 ^ 106) := by gcongr
    _ < (2 ^ 55 - 2) * top := by linarith

/-- The shortest decimal of a finite number reads as one. Only for the two greatest numbers the
roundings could matter. -/
theorem readsFinite_shortest {mantissa : Nat} {exponent : Int} (positive : 0 < mantissa)
    (small : mantissa < 2 * Binary64.hiddenBit) (most : exponent ≤ Binary64.greatestExponent) :
    ReadsFinite (shortest mantissa exponent) := by
  obtain ⟨digits, bound⟩ := Binary64.shortest_spec positive small exponent
  rw [Binary64.hiddenBit] at small
  rw [Binary64.greatestExponent] at most
  have mantissa_le : (mantissa : ℚ) ≤ 2 ^ 53 - 1 := by
    rw [le_sub_iff_add_le]
    exact_mod_cast (show mantissa + 1 ≤ 2 ^ 53 by omega)
  have scale : (2 : ℚ) ^ (exponent - 2) ≤ 2 ^ (969 : Int) :=
    zpow_le_zpow_right₀ (by norm_num) (by omega)
  have near : ((shortest mantissa exponent).digits : ℚ) * 10 ^ (shortest mantissa exponent).power ≤
      overflow := by
    rw [overflow_eq]
    exact bound.trans (mul_le_mul (by linarith) scale (by positivity) (by norm_num))
  refine ⟨digits, near, ?_⟩
  by_cases low : exponent ≤ 970
  · refine .inl (mul_slack_sq_lt (bound.trans ?_))
    have half : (2 : ℚ) ^ (exponent - 2) ≤ 2 ^ (968 : Int) :=
      zpow_le_zpow_right₀ (by norm_num) (by omega)
    have double : (2 : ℚ) ^ (969 : Int) = 2 * 2 ^ (968 : Int) := zpow_one_add₀ two_ne_zero 968
    have unit : (0 : ℚ) < 2 ^ (968 : Int) := by positivity
    calc (4 * (mantissa : ℚ) + 2) * 2 ^ (exponent - 2) ≤ (2 ^ 55 - 2) * 2 ^ (968 : Int) :=
          mul_le_mul (by linarith) half (by positivity) (by norm_num)
      _ ≤ (2 ^ 55 - 10) * 2 ^ (969 : Int) := by
          rw [double]
          generalize (2 : ℚ) ^ (968 : Int) = top at unit
          linarith
  · by_cases less : mantissa + 3 ≤ 2 ^ 53
    · refine .inl (mul_slack_sq_lt (bound.trans ?_))
      have mantissa_less : (mantissa : ℚ) ≤ 2 ^ 53 - 3 := by
        rw [le_sub_iff_add_le]
        exact_mod_cast less
      exact mul_le_mul (by linarith) scale (by positivity) (by norm_num)
    · right
      obtain rfl : exponent = 971 := by omega
      obtain rfl | rfl :
          mantissa = 2 * Binary64.hiddenBit - 1 ∨ mantissa = 2 * Binary64.hiddenBit - 2 := by
        rw [Binary64.hiddenBit]
        omega
      · rw [Binary64.shortest_greatest]
        exact ⟨by decide, Option.isSome_iff_exists.1 (by decide +kernel)⟩
      · rw [Binary64.shortest_below_greatest]
        exact ⟨by decide, Option.isSome_iff_exists.1 (by decide +kernel)⟩

def scientific (digits : List Char) (scale : Int) : Numeral :=
  ⟨digits.take 1, if digits.length = 1 then none else some (digits.drop 1),
    some (decide (scale < 0), Text.digits scale.natAbs)⟩

/-- The numeral of a decimal: positional if the digits in front of the point are few. -/
def decimalNumeral (decimal : Binary64.Decimal) : Numeral :=
  let digits := Text.digits decimal.digits
  let whole : Int := digits.length + decimal.power
  if 0 ≤ decimal.power ∧ whole ≤ 16 then
    ⟨digits ++ List.replicate decimal.power.toNat '0', some ['0'], none⟩
  else if 0 < whole ∧ whole ≤ 16 then
    ⟨digits.take whole.toNat, some (digits.drop whole.toNat), none⟩
  else if -5 < whole ∧ whole ≤ 0 then
    ⟨['0'], some (List.replicate (-whole).toNat '0' ++ digits), none⟩
  else scientific digits (whole - 1)

theorem scientific_single (digit : Char) (scale : Int) :
    (scientific [digit] scale).text =
      digit :: 'e' :: (if scale < 0 then '-' else '+') :: Text.digits scale.natAbs := by
  simp [scientific, Numeral.text, Numeral.placesText, Numeral.scaleText]

theorem scientific_more (digit second : Char) (places : List Char) (scale : Int) :
    (scientific (digit :: second :: places) scale).text =
      digit :: '.' :: second :: places
        ++ 'e' :: (if scale < 0 then '-' else '+') :: Text.digits scale.natAbs := by
  simp [scientific, Numeral.text, Numeral.placesText, Numeral.scaleText]

theorem realText_eq (negative : Bool) {mantissa : Nat} (positive : mantissa ≠ 0) (exponent : Int) :
    realText negative mantissa exponent =
      (if negative then ['-'] else []) ++ (decimalNumeral (shortest mantissa exponent)).text := by
  obtain ⟨first, places, digits⟩ :=
    List.exists_cons_of_ne_nil (Text.digits_ne_nil (shortest mantissa exponent).digits)
  rw [realText, if_neg positive, decimalNumeral]
  simp only [digits]
  congr 1
  split_ifs with trailing inside front below
  · simp [Numeral.text, Numeral.placesText, Numeral.scaleText]
  · simp [Numeral.text, Numeral.placesText, Numeral.scaleText]
  · simp [Numeral.text, Numeral.placesText, Numeral.scaleText]
  all_goals
    cases places with
    | nil => simp only [scientific_single, below, if_true, if_false]
    | cons second places => simp only [scientific_more, below, if_true, if_false]

theorem isReal_positional {whole places : List Char} (formed : Numeral.Whole whole)
    (few : whole.length ≤ 16) (digits : Numeral.Digits places) :
    Numeral.IsReal ⟨whole, some places, none⟩ where
  formed := ⟨formed, by simpa using digits, by simp⟩
  fits := by
    have bound := Text.digitsValue_lt whole formed.digits.2
    have power : 10 ^ whole.length ≤ 10 ^ 16 := Nat.pow_le_pow_right (by decide) few
    exact (bound.trans_le power).le.trans (by decide)
  real := .inl rfl
  bound := by simp

theorem whole_take_digits {value count : Nat} (positive : 0 < value) (some : 0 < count) :
    Numeral.Whole ((Text.digits value).take count) := by
  obtain ⟨first, places, digits⟩ := List.exists_cons_of_ne_nil (Text.digits_ne_nil value)
  obtain ⟨less, rfl⟩ := Nat.exists_eq_succ_of_ne_zero some.ne'
  right
  refine ⟨⟨by simp [digits], fun c member => ?_⟩, ?_⟩
  · exact Text.isDigit_of_mem_digits (List.mem_of_mem_take member)
  · rw [digits, List.take_succ_cons, List.head?_cons]
    exact fun same => Text.head_digits_ne_zero positive digits (Option.some.inj same)

theorem digitsValue_take_le (digits : List Char) (count : Nat) :
    digitsValue (digits.take count) * 10 ^ (digits.length - count) ≤ digitsValue digits := by
  have whole := Text.digitsValue_append (digits.take count) (digits.drop count)
  rw [List.take_append_drop, List.length_drop] at whole
  omega

theorem placesOf_scientific (digits : List Char) (scale : Int) :
    (scientific digits scale).places.getD [] = digits.drop 1 := by
  unfold scientific
  split_ifs with single
  · rw [List.drop_eq_nil_of_le single.le]
    rfl
  · rfl

theorem wellFormed_scientific {value : Nat} (positive : 0 < value) (scale : Int) :
    (scientific (Text.digits value) scale).WellFormed where
  whole := whole_take_digits positive Nat.one_pos
  places := by
    intro shown member
    have some := List.length_pos_iff.2 (Text.digits_ne_nil value)
    simp only [scientific, Option.mem_def, Option.ite_none_left_eq_some, Option.some.injEq] at member
    obtain ⟨several, rfl⟩ := member
    refine ⟨?_, fun c inside => Text.isDigit_of_mem_digits (List.mem_of_mem_drop inside)⟩
    rw [Ne, List.drop_eq_nil_iff]
    omega
  scale := by
    intro part member
    cases member
    exact ⟨Text.digits_ne_nil _, fun c => Text.isDigit_of_mem_digits⟩

section Scientific

variable {decimal : Binary64.Decimal} (reads : ReadsFinite decimal)
include reads

theorem scale_le : ((Text.digits decimal.digits).length : Int) + decimal.power - 1 ≤ 308 := by
  apply exponent_le le_rfl
  have least := Text.pow_digitCount_le reads.digits
  have some := Text.digitCount_pos decimal.digits
  have split : (Text.digitCount decimal.digits : Int) + decimal.power - 1 =
      (Text.digitCount decimal.digits - 1 : Nat) + decimal.power := by
    omega
  rw [one_mul, Text.length_digits, split, zpow_add₀ (by norm_num), zpow_natCast]
  refine le_trans ?_ reads.near
  gcongr
  exact_mod_cast least

/-- Digits that are not counted behind the point only make the number smaller. -/
theorem realOfParts?_cut {counted : Nat} (few : counted < (Text.digits decimal.digits).length)
    (complete : decimal.digits ≤ greatestWord →
      counted + 1 = (Text.digits decimal.digits).length) :
    ∃ size, realOfParts? (digitsValue ((Text.digits decimal.digits).take (1 + counted)))
      ((Text.digits decimal.digits).length + decimal.power - 1 - counted) = some size := by
  have value := Text.digitsValue_digits decimal.digits
  rcases reads.finite with finite | ⟨fits, exact⟩
  · apply realOfParts?_some
    intro
    refine lt_of_le_of_lt ?_ finite
    have cut := digitsValue_take_le (Text.digits decimal.digits) (1 + counted)
    have split : ((Text.digits decimal.digits).length : Int) + decimal.power - 1 - counted =
        ((Text.digits decimal.digits).length - (1 + counted) : Nat) + decimal.power := by
      omega
    rw [value] at cut
    rw [split, zpow_add₀ (by norm_num), zpow_natCast, ← mul_assoc]
    gcongr
    exact_mod_cast cut
  · have all := complete fits
    have power : ((Text.digits decimal.digits).length : Int) + decimal.power - 1 - counted =
        decimal.power := by
      omega
    rw [List.take_of_length_le (by omega), value, power]
    exact exact

theorem isReal_scientific :
    (scientific (Text.digits decimal.digits)
      ((Text.digits decimal.digits).length + decimal.power - 1)).IsReal where
  formed := wellFormed_scientific reads.digits _
  fits := by
    have bound := Text.digitsValue_lt _ (whole_take_digits reads.digits Nat.one_pos).digits.2
    have power := Nat.pow_le_pow_right (by decide : 0 < 10)
      (List.length_take_le 1 (Text.digits decimal.digits))
    exact (bound.trans_le power).le.trans (by decide)
  real := .inr rfl
  bound := by
    intro digits parts
    obtain ⟨sign, rfl⟩ := Prod.mk.inj (Option.some.inj parts)
    rw [decide_eq_false_iff_not, not_lt] at sign
    have small := scale_le reads
    have some := List.length_pos_iff.2 (Text.digits_ne_nil decimal.digits)
    have number : (digitsValue (Text.digits
        ((Text.digits decimal.digits).length + decimal.power - 1).natAbs) : Int) =
          (Text.digits decimal.digits).length + decimal.power - 1 := by
      rw [Text.digitsValue_digits]
      omega
    constructor
    · rw [greatestScale]
      omega
    · simp only [placesOf_scientific, number, List.length_drop]
      simp only [scientific, ← List.take_add, List.take_append_drop, Text.digitsValue_digits]
      intro counted few complete
      apply realOfParts?_cut reads (by omega)
      intro fits
      have all := complete fits
      omega

end Scientific

theorem isDigit_of_mem_replicate {count : Nat} {c : Char} (member : c ∈ List.replicate count '0') :
    isDigit c = true := by
  rw [List.eq_of_mem_replicate member]
  decide

theorem isReal_decimalNumeral {decimal : Binary64.Decimal} (reads : ReadsFinite decimal) :
    (decimalNumeral decimal).IsReal := by
  obtain ⟨first, places, digits⟩ :=
    List.exists_cons_of_ne_nil (Text.digits_ne_nil decimal.digits)
  have all : ∀ c ∈ Text.digits decimal.digits, isDigit c = true :=
    fun c => Text.isDigit_of_mem_digits
  unfold decimalNumeral
  simp only
  split_ifs with trailing inside front
  · have whole : Numeral.Whole
        (Text.digits decimal.digits ++ List.replicate decimal.power.toNat '0') := by
      refine .inr ⟨⟨by simp [digits], fun c member => ?_⟩, ?_⟩
      · rcases List.mem_append.1 member with shown | zero
        · exact all c shown
        · exact isDigit_of_mem_replicate zero
      · rw [digits, List.cons_append, List.head?_cons]
        exact fun same => Text.head_digits_ne_zero reads.digits digits (Option.some.inj same)
    refine isReal_positional whole ?_ ⟨by simp, by simp [isDigit]⟩
    rw [List.length_append, List.length_replicate]
    omega
  · refine isReal_positional (whole_take_digits reads.digits (by omega)) ?_ ⟨?_, ?_⟩
    · exact (List.length_take_le _ _).trans (by omega)
    · rw [Ne, List.drop_eq_nil_iff, not_le]
      omega
    · exact fun c member => all c (List.mem_of_mem_drop member)
  · refine isReal_positional (.inl rfl) (by decide) ⟨by simp [digits], fun c member => ?_⟩
    rcases List.mem_append.1 member with zero | shown
    · exact isDigit_of_mem_replicate zero
    · exact all c shown
  · exact isReal_scientific reads

end LogCensus.Json
