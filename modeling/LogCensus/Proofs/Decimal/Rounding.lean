import LogCensus.Decimal.Binary64
import Mathlib.Algebra.Order.Field.Power
import Mathlib.Algebra.Order.Field.Rat
import Mathlib.Tactic.FieldSimp
import Mathlib.Tactic.Linarith
import Mathlib.Tactic.Positivity
import Mathlib.Tactic.Ring

/-!
How far rounding goes. A ratio of at least one is rounded by at most one part in `2 ^ 53`, and it
becomes infinite only from half a unit above the greatest finite number on.
-/

namespace LogCensus.Binary64

def IsFinite : Binary64 → Prop
  | finite _ mantissa exponent =>
    mantissa < 2 * hiddenBit ∧ leastExponent ≤ exponent ∧ exponent ≤ greatestExponent
  | _ => False

instance : DecidablePred IsFinite := fun number =>
  match number with
  | finite .. => inferInstanceAs (Decidable (_ ∧ _ ∧ _))
  | nan => .isFalse id
  | infinity _ => .isFalse id

def magnitude (mantissa : Nat) (exponent : Int) : ℚ := mantissa * 2 ^ exponent

/-! ### Rounding to a whole number -/

theorem roundHalfEven_le {num den : Nat} (positive : 0 < den) :
    (roundHalfEven num den : ℚ) ≤ num / den + 1 / 2 := by
  have whole : den * (num / den) + num % den = num := Nat.div_add_mod num den
  have bound : 2 * roundHalfEven num den * den ≤ 2 * num + den := by
    unfold roundHalfEven
    simp only
    split_ifs with up
    · have half : den ≤ 2 * (num % den) := by omega
      linarith
    · linarith [Nat.zero_le (num % den)]
  have cast : 2 * (roundHalfEven num den : ℚ) * den ≤ 2 * num + den := by exact_mod_cast bound
  have some : (0 : ℚ) < den := by exact_mod_cast positive
  rw [div_add_div _ _ some.ne' two_ne_zero, le_div_iff₀ (by positivity)]
  linarith

/-! ### The exponent of a ratio -/

theorem scaled_ratio (num den : Nat) (exponent : Int) :
    ((scaled num den exponent).1 : ℚ) / (scaled num den exponent).2 =
      num / den / 2 ^ exponent := by
  unfold scaled
  split_ifs with low
  · obtain ⟨down, rfl⟩ := Int.exists_eq_neg_ofNat low
    simp only [neg_neg, Int.toNat_natCast, Nat.pow_eq, Nat.cast_mul, Nat.cast_pow, Nat.cast_ofNat,
      zpow_neg, zpow_natCast, div_inv_eq_mul]
    ring
  · obtain ⟨up, rfl⟩ := Int.eq_ofNat_of_zero_le (by omega : 0 ≤ exponent)
    simp only [Int.toNat_natCast, Nat.pow_eq, Nat.cast_mul, Nat.cast_pow, Nat.cast_ofNat,
      zpow_natCast]
    rw [div_div]

theorem scaled_den_pos (num : Nat) {den : Nat} (positive : 0 < den) (exponent : Int) :
    0 < (scaled num den exponent).2 := by
  unfold scaled
  split_ifs
  · exact positive
  · exact Nat.mul_pos positive (Nat.pow_pos (by decide))

theorem log2_bounds {value : Nat} (positive : 0 < value) :
    (2 : ℚ) ^ (value.log2 : Int) ≤ value ∧ (value : ℚ) < 2 ^ ((value.log2 : Int) + 1) := by
  constructor
  · rw [zpow_natCast]
    exact_mod_cast Nat.log2_self_le positive.ne'
  · rw [zpow_add_one₀ two_ne_zero, zpow_natCast, ← pow_succ]
    exact_mod_cast Nat.lt_log2_self

/-- The logarithms of numerator and denominator tell the size of a ratio up to a factor of two. -/
theorem ratio_bounds {num den : Nat} (some : 0 < num) (positive : 0 < den) :
    (2 : ℚ) ^ ((num.log2 : Int) - den.log2 - 1) ≤ num / den ∧
      (num : ℚ) / den < 2 ^ ((num.log2 : Int) - den.log2 + 1) := by
  obtain ⟨num_low, num_high⟩ := log2_bounds some
  obtain ⟨den_low, den_high⟩ := log2_bounds positive
  have den_pos : (0 : ℚ) < den := by exact_mod_cast positive
  constructor
  · rw [le_div_iff₀ den_pos]
    calc (2 : ℚ) ^ ((num.log2 : Int) - den.log2 - 1) * den
        ≤ 2 ^ ((num.log2 : Int) - den.log2 - 1) * 2 ^ ((den.log2 : Int) + 1) := by gcongr
      _ = 2 ^ (num.log2 : Int) := by rw [← zpow_add₀ two_ne_zero]; congr 1; ring
      _ ≤ num := num_low
  · rw [div_lt_iff₀ den_pos]
    calc (num : ℚ) < 2 ^ ((num.log2 : Int) + 1) := num_high
      _ = 2 ^ ((num.log2 : Int) - den.log2 + 1) * 2 ^ (den.log2 : Int) := by
        rw [← zpow_add₀ two_ne_zero]; congr 1; ring
      _ ≤ 2 ^ ((num.log2 : Int) - den.log2 + 1) * den := by gcongr

theorem div_lt_iff_ratio (top : Nat) {bottom : Nat} (positive : 0 < bottom) (bound : Nat) :
    top / bottom < bound ↔ (top : ℚ) / bottom < bound := by
  have cast : (0 : ℚ) < bottom := by exact_mod_cast positive
  rw [Nat.div_lt_iff_lt_mul positive, div_lt_iff₀ cast]
  exact_mod_cast Iff.rfl

/-- At its exponent a ratio has 53 binary digits before the point, or fewer at the least one. -/
theorem exponentOf_spec {num den : Nat} (some : 0 < num) (positive : 0 < den) :
    (num : ℚ) / den / 2 ^ exponentOf num den < 2 ^ (53 : Int) ∧
      (leastExponent < exponentOf num den →
        (2 : ℚ) ^ (52 : Int) ≤ num / den / 2 ^ exponentOf num den) := by
  obtain ⟨low, high⟩ := ratio_bounds some positive
  -- the exponent before the least one is set as a bound
  obtain ⟨free, exponent_eq, free_low, free_high⟩ : ∃ free : Int,
      exponentOf num den = max free leastExponent ∧
        (2 : ℚ) ^ (52 : Int) * 2 ^ free ≤ num / den ∧ (num : ℚ) / den < 2 ^ (53 : Int) * 2 ^ free := by
    have test := div_lt_iff_ratio (scaled num den ((num.log2 : Int) - den.log2 - 53)).1
      (scaled_den_pos num positive ((num.log2 : Int) - den.log2 - 53)) (2 * hiddenBit)
    rw [scaled_ratio, div_lt_iff₀ (by positivity)] at test
    have bound : ((2 * hiddenBit : Nat) : ℚ) = 2 ^ (53 : Int) := by norm_num [hiddenBit]
    rw [bound] at test
    by_cases small : (num : ℚ) / den < 2 ^ (53 : Int) * 2 ^ ((num.log2 : Int) - den.log2 - 53)
    · refine ⟨(num.log2 : Int) - den.log2 - 53, ?_, ?_, small⟩
      · simp only [exponentOf, if_pos (test.2 small)]
      · rw [← zpow_add₀ two_ne_zero]
        convert low using 2
        ring
    · refine ⟨(num.log2 : Int) - den.log2 - 53 + 1, ?_, ?_, ?_⟩
      · simp only [exponentOf, if_neg (mt test.1 small)]
      · refine le_trans (le_of_eq ?_) (not_lt.1 small)
        rw [← zpow_add₀ two_ne_zero, ← zpow_add₀ two_ne_zero]
        congr 1
        ring
      · rw [← zpow_add₀ two_ne_zero]
        convert high using 2
        ring
  rw [exponent_eq, div_lt_iff₀ (by positivity), le_div_iff₀ (by positivity)]
  constructor
  · refine free_high.trans_le ?_
    gcongr
    · norm_num
    · exact le_max_left _ _
  · intro above
    rwa [max_eq_left (by omega)]

/-! ### Rounding to a double -/

/-- What rounding to 53 binary digits adds at most to a whole. -/
def slack : ℚ := 1 + 1 / 2 ^ 53

/-- Half a unit above the greatest finite number: what becomes infinite. -/
def overflow : ℚ := (2 ^ 54 - 1) * 2 ^ 970

/-- The mantissa of a ratio at its exponent. It may be one too great, which ends in a carry. -/
def mantissaOf (num den : Nat) : Nat :=
  roundHalfEven (scaled num den (exponentOf num den)).1 (scaled num den (exponentOf num den)).2

theorem one_le_slack : 1 ≤ slack := by norm_num [slack]

theorem one_le_slack_sq : 1 ≤ slack ^ 2 := one_le_pow₀ one_le_slack

theorem mantissaOf_le (num : Nat) {den : Nat} (positive : 0 < den) :
    (mantissaOf num den : ℚ) ≤ num / den / 2 ^ exponentOf num den + 1 / 2 := by
  rw [mantissaOf, ← scaled_ratio]
  exact roundHalfEven_le (scaled_den_pos num positive _)

theorem magnitude_carry (exponent : Int) :
    magnitude hiddenBit (exponent + 1) = magnitude (2 * hiddenBit) exponent := by
  rw [magnitude, magnitude, zpow_add_one₀ two_ne_zero]
  push_cast
  ring

section Ratio

variable {num den : Nat} (some : 0 < num) (positive : 0 < den)
include some positive

theorem leastExponent_lt (whole : (1 : ℚ) ≤ num / den) : leastExponent < exponentOf num den := by
  by_contra below
  obtain ⟨high, -⟩ := exponentOf_spec some positive
  rw [div_lt_iff₀ (by positivity)] at high
  have tiny : (2 : ℚ) ^ exponentOf num den ≤ 2 ^ leastExponent :=
    zpow_le_zpow_right₀ (by norm_num) (not_lt.1 below)
  have less : (2 : ℚ) ^ (53 : Int) * 2 ^ leastExponent < 1 := by
    rw [← zpow_add₀ two_ne_zero]
    exact zpow_lt_one_of_neg₀ (by norm_num) (by decide)
  have scaledUp :
      (2 : ℚ) ^ (53 : Int) * 2 ^ exponentOf num den ≤ 2 ^ (53 : Int) * 2 ^ leastExponent := by
    gcongr
  linarith

theorem magnitude_mantissaOf_le (whole : (1 : ℚ) ≤ num / den) :
    magnitude (mantissaOf num den) (exponentOf num den) ≤ num / den * slack := by
  have unit : (0 : ℚ) < 2 ^ exponentOf num den := by positivity
  have full := (exponentOf_spec some positive).2 (leastExponent_lt some positive whole)
  rw [le_div_iff₀ unit] at full
  norm_num at full
  calc (mantissaOf num den : ℚ) * 2 ^ exponentOf num den
      ≤ (num / den / 2 ^ exponentOf num den + 1 / 2) * 2 ^ exponentOf num den := by
        gcongr
        exact mantissaOf_le num positive
    _ = num / den + 2 ^ exponentOf num den / 2 := by field_simp
    _ ≤ num / den * slack := by
        rw [slack]
        linarith

theorem exponentOf_le (bound : (num : ℚ) / den < overflow) :
    exponentOf num den ≤ greatestExponent := by
  by_contra beyond
  have far : (972 : Int) ≤ exponentOf num den := not_le.1 beyond
  have full := (exponentOf_spec some positive).2 (lt_of_lt_of_le (by decide) far)
  rw [le_div_iff₀ (by positivity)] at full
  have large : (2 : ℚ) ^ (972 : Int) ≤ 2 ^ exponentOf num den :=
    zpow_le_zpow_right₀ (by norm_num) far
  have scale : (2 : ℚ) ^ (972 : Int) = 4 * 2 ^ 970 := by
    rw [show (972 : Int) = 2 + (970 : Nat) from rfl, zpow_add₀ two_ne_zero, zpow_natCast]
    norm_num
  have top_pos : (0 : ℚ) < 2 ^ 970 := by positivity
  rw [scale] at large
  rw [overflow] at bound
  generalize (2 : ℚ) ^ 970 = top at bound large top_pos
  norm_num at full
  linarith

theorem exponentOf_lt_of_carry (bound : (num : ℚ) / den < overflow)
    (carry : mantissaOf num den = 2 * hiddenBit) : exponentOf num den + 1 ≤ greatestExponent := by
  by_contra beyond
  have greatest : exponentOf num den = 971 := by
    have least := exponentOf_le some positive bound
    simp only [greatestExponent] at least beyond
    omega
  have rounded := mantissaOf_le num positive
  have scale : (2 : ℚ) ^ (971 : Int) = 2 * 2 ^ 970 := by
    rw [show (971 : Int) = 1 + (970 : Nat) from rfl, zpow_add₀ two_ne_zero, zpow_natCast]
    norm_num
  have top_pos : (0 : ℚ) < 2 ^ 970 := by positivity
  rw [carry, greatest, scale] at rounded
  rw [overflow] at bound
  generalize (2 : ℚ) ^ 970 = top at bound rounded top_pos
  rw [div_add_div _ _ (by positivity) two_ne_zero, le_div_iff₀ (by positivity)] at rounded
  norm_num [hiddenBit] at rounded
  linarith

theorem ofRatio_finite (negative : Bool) (bound : (num : ℚ) / den < overflow) :
    ∃ mantissa exponent, ofRatio negative num den = .finite negative mantissa exponent ∧
      ((1 : ℚ) ≤ num / den → magnitude mantissa exponent ≤ num / den * slack) := by
  by_cases carry : mantissaOf num den = 2 * hiddenBit
  · refine ⟨hiddenBit, exponentOf num den + 1, ?_, fun whole => ?_⟩
    · have least := exponentOf_lt_of_carry some positive bound carry
      rw [mantissaOf] at carry
      simp only [ofRatio, if_neg some.ne', if_pos carry, if_neg (not_lt.2 least)]
    · rw [magnitude_carry, ← carry]
      exact magnitude_mantissaOf_le some positive whole
  · refine ⟨mantissaOf num den, exponentOf num den, ?_, magnitude_mantissaOf_le some positive⟩
    have least := exponentOf_le some positive bound
    rw [mantissaOf] at carry ⊢
    simp only [ofRatio, if_neg some.ne', if_neg carry, if_neg (not_lt.2 least)]

end Ratio

/-! ### Products -/

theorem isInfinite_ofRatio (negative : Bool) (num : Nat) {den : Nat} (positive : 0 < den)
    (bound : (num : ℚ) / den < overflow) :
    (ofRatio negative num den).isInfinite = false := by
  rcases Nat.eq_zero_or_pos num with rfl | some
  · rfl
  · obtain ⟨mantissa, exponent, finite, -⟩ := ofRatio_finite some positive negative bound
    rw [finite]
    rfl

theorem isInfinite_ofScaled (negative : Bool) (mantissa : Nat) (exponent : Int)
    (bound : magnitude mantissa exponent < overflow) :
    (ofScaled negative mantissa exponent).isInfinite = false := by
  rw [magnitude] at bound
  unfold ofScaled
  split_ifs with up
  · obtain ⟨size, rfl⟩ := Int.eq_ofNat_of_zero_le up
    apply isInfinite_ofRatio negative _ Nat.one_pos
    rw [Int.toNat_natCast, Nat.pow_eq, Nat.cast_one, div_one, Nat.cast_mul, Nat.cast_pow,
      Nat.cast_ofNat]
    rwa [zpow_natCast] at bound
  · obtain ⟨size, rfl⟩ := Int.exists_eq_neg_ofNat (not_le.1 up).le
    rw [neg_neg, Int.toNat_natCast, Nat.pow_eq]
    apply isInfinite_ofRatio negative mantissa (Nat.pow_pos (by decide))
    rw [Nat.cast_pow, Nat.cast_ofNat]
    rwa [zpow_neg, zpow_natCast, ← div_eq_mul_inv] at bound

theorem powerOfTen_eq {exponent : Nat} (small : exponent ≤ 308) :
    powerOfTen exponent = ofNat (10 ^ exponent) := by
  have log : (1 : Nat).log2 = 0 := by decide
  rw [powerOfTen, ofDecimal, log, if_neg (by decide), if_neg (by omega), if_neg (by omega),
    if_pos (by omega), Nat.one_mul, Int.toNat_natCast, Nat.pow_eq, ofNat]

/-- A whole number is rounded by one part in `2 ^ 53` at most. -/
theorem ofNat_finite {value : Nat} (some : 0 < value) (bound : (value : ℚ) < overflow) :
    ∃ mantissa exponent, ofNat value = .finite false mantissa exponent ∧
      magnitude mantissa exponent ≤ value * slack := by
  have whole : (1 : ℚ) ≤ value := by exact_mod_cast some
  have same : (value : ℚ) / (1 : Nat) = value := by rw [Nat.cast_one, div_one]
  obtain ⟨mantissa, exponent, finite, close⟩ :=
    ofRatio_finite some Nat.one_pos false (same.trans_lt bound)
  rw [same] at close
  exact ⟨mantissa, exponent, finite, close whole⟩

/-- A whole number scaled by a power of ten is rounded three times. -/
theorem isInfinite_mul_powerOfTen {value exponent : Nat} (some : 0 < value)
    (small : exponent ≤ 308) (bound : (value : ℚ) * 10 ^ exponent * slack ^ 2 < overflow) :
    (ofNat value * powerOfTen exponent).isInfinite = false := by
  have slack_ge := one_le_slack
  have value_ge : (1 : ℚ) ≤ value := by exact_mod_cast some
  have power_ge : (1 : ℚ) ≤ 10 ^ exponent := one_le_pow₀ (by norm_num)
  have product : (value : ℚ) * 10 ^ exponent < overflow :=
    (le_mul_of_one_le_right (by positivity) one_le_slack_sq).trans_lt bound
  have value_lt : (value : ℚ) < overflow :=
    (le_mul_of_one_le_right (by positivity) power_ge).trans_lt product
  have power_lt : ((10 ^ exponent : Nat) : ℚ) < overflow := by
    rw [Nat.cast_pow, Nat.cast_ofNat]
    exact (le_mul_of_one_le_left (by positivity) value_ge).trans_lt product
  obtain ⟨mantissa₁, exponent₁, finite₁, close₁⟩ := ofNat_finite some value_lt
  obtain ⟨mantissa₂, exponent₂, finite₂, close₂⟩ :=
    ofNat_finite (Nat.pow_pos (by decide : 0 < 10)) power_lt
  rw [Nat.cast_pow, Nat.cast_ofNat] at close₂
  rw [powerOfTen_eq small, finite₁, finite₂]
  apply isInfinite_ofScaled
  refine lt_of_le_of_lt ?_ bound
  calc magnitude (mantissa₁ * mantissa₂) (exponent₁ + exponent₂)
      = magnitude mantissa₁ exponent₁ * magnitude mantissa₂ exponent₂ := by
        rw [magnitude, magnitude, magnitude, zpow_add₀ two_ne_zero, Nat.cast_mul]
        ring
    _ ≤ (value * slack) * (10 ^ exponent * slack) := by
        have low : 0 ≤ magnitude mantissa₂ exponent₂ := by
          rw [magnitude]
          positivity
        gcongr
    _ = value * 10 ^ exponent * slack ^ 2 := by ring

end LogCensus.Binary64
