import LogCensus.Proofs.Decimal.Exact

/-!
Which ratios are rounded to a double below a bound. Where the bound has an even mantissa, these
are the ratios less than half a unit below it, since the ratio in the middle goes to the bound.
-/

namespace LogCensus.Binary64

/-! ### Rounding to a whole number -/

theorem roundHalfEven_le_of_le {num den bound : Nat} (below : num ≤ bound * den) :
    roundHalfEven num den ≤ bound := by
  have whole : den * (num / den) + num % den = num := Nat.div_add_mod num den
  rcases Nat.eq_zero_or_pos den with rfl | positive
  · have none : num = 0 := by omega
    subst none
    exact Nat.zero_le bound
  have quotient : num / den ≤ bound := (Nat.div_le_iff_le_mul_add_pred positive).2 (by
    rw [Nat.mul_comm]
    omega)
  unfold roundHalfEven
  simp only
  split_ifs with up
  · -- rounding up from the bound would need a remainder
    rcases quotient.lt_or_eq with less | same
    · exact less
    · rw [same, Nat.mul_comm] at whole
      omega
  · exact quotient

theorem le_roundHalfEven {num den bound : Nat} (positive : 0 < den) (above : bound * den ≤ num) :
    bound ≤ roundHalfEven num den := by
  have quotient : bound ≤ num / den := (Nat.le_div_iff_mul_le positive).2 above
  unfold roundHalfEven
  simp only
  split_ifs
  · exact Nat.le_succ_of_le quotient
  · exact quotient

/-- The middle in front of an even number is rounded to it. -/
theorem roundHalfEven_lt_iff {num den bound : Nat} (positive : 0 < den) (even : bound % 2 = 0) :
    roundHalfEven num den < bound ↔ 2 * num + den < 2 * (bound * den) := by
  have whole : den * (num / den) + num % den = num := Nat.div_add_mod num den
  have less := Nat.mod_lt num positive
  rw [Nat.mul_comm] at whole
  rcases Nat.lt_trichotomy (num / den + 1) bound with below | next | above
  · have room : (num / den + 2) * den ≤ bound * den := Nat.mul_le_mul_right den below
    have most := roundHalfEven_le_of_le (show num ≤ (num / den + 1) * den by
      rw [Nat.succ_mul]
      omega)
    rw [Nat.add_mul] at room
    exact iff_of_true (most.trans_lt below) (by omega)
  · have odd : num / den % 2 = 1 := by omega
    rw [← next, Nat.add_mul (num / den) 1 den, Nat.one_mul]
    unfold roundHalfEven
    simp only
    split_ifs <;> omega
  · have room : bound * den ≤ num / den * den := Nat.mul_le_mul_right den (by omega)
    have least := le_roundHalfEven positive (show bound * den ≤ num by omega)
    exact iff_of_false (not_lt.2 least) (by omega)

/-! ### Rounding to a double -/

/-- The size of the double that is nearest to a ratio, however great. -/
def rounded (num den : Nat) : ℚ := magnitude (mantissaOf num den) (exponentOf num den)

/-- At its exponent a ratio is rounded as a whole number is. -/
theorem mantissaOf_lt_iff (num : Nat) {den bound : Nat} (positive : 0 < den)
    (even : bound % 2 = 0) :
    mantissaOf num den < bound ↔ (num : ℚ) / den / 2 ^ exponentOf num den < bound - 1 / 2 := by
  have den_pos := scaled_den_pos num positive (exponentOf num den)
  have den_cast : (0 : ℚ) < (scaled num den (exponentOf num den)).2 := by exact_mod_cast den_pos
  rw [mantissaOf, roundHalfEven_lt_iff den_pos even, ← scaled_ratio, div_lt_iff₀ den_cast]
  have cast : 2 * (scaled num den (exponentOf num den)).1 + (scaled num den (exponentOf num den)).2 <
      2 * (bound * (scaled num den (exponentOf num den)).2) ↔
        2 * ((scaled num den (exponentOf num den)).1 : ℚ) + (scaled num den (exponentOf num den)).2 <
          2 * (bound * (scaled num den (exponentOf num den)).2) := by
    exact_mod_cast Iff.rfl
  rw [cast]
  constructor <;> intro below <;> linarith

section Ratio

variable {num den : Nat} (some : 0 < num) (positive : 0 < den)
include some positive

theorem mantissaOf_le_bound : mantissaOf num den ≤ 2 * hiddenBit := by
  obtain ⟨high, -⟩ := exponentOf_spec some positive
  have den_pos := scaled_den_pos num positive (exponentOf num den)
  have den_cast : (0 : ℚ) < (scaled num den (exponentOf num den)).2 := by exact_mod_cast den_pos
  apply roundHalfEven_le_of_le
  rw [← scaled_ratio, div_lt_iff₀ den_cast] at high
  norm_num at high
  have whole : (scaled num den (exponentOf num den)).1 <
      2 * hiddenBit * (scaled num den (exponentOf num den)).2 := by
    rw [hiddenBit]
    exact_mod_cast high
  exact whole.le

theorem le_mantissaOf (least : leastExponent < exponentOf num den) :
    hiddenBit ≤ mantissaOf num den := by
  have low := (exponentOf_spec some positive).2 least
  have den_pos := scaled_den_pos num positive (exponentOf num den)
  have den_cast : (0 : ℚ) < (scaled num den (exponentOf num den)).2 := by exact_mod_cast den_pos
  apply le_roundHalfEven den_pos
  rw [← scaled_ratio, le_div_iff₀ den_cast] at low
  norm_num at low
  rw [hiddenBit]
  exact_mod_cast low

/-- A ratio is rounded below a number with an even mantissa if it is more than half a unit below
it. -/
theorem rounded_lt_iff {bound : Nat} {exponent : Int} (low : hiddenBit < bound)
    (high : bound ≤ 2 * hiddenBit) (even : bound % 2 = 0) (least : leastExponent ≤ exponent) :
    rounded num den < magnitude bound exponent ↔ (num : ℚ) / den < (bound - 1 / 2) * 2 ^ exponent := by
  have unit : (0 : ℚ) < 2 ^ exponent := by positivity
  have least_cast : (2 : ℚ) ^ 52 + 1 ≤ bound := by
    exact_mod_cast (show 2 ^ 52 + 1 ≤ bound by rw [hiddenBit] at low; omega)
  have most_cast : (bound : ℚ) ≤ 2 ^ 53 := by
    exact_mod_cast (show bound ≤ 2 ^ 53 by rw [hiddenBit] at high; omega)
  have own : (0 : ℚ) < 2 ^ exponentOf num den := by positivity
  rcases lt_trichotomy (exponentOf num den) exponent with below | same | above
  · -- with a smaller unit all of it lies below
    have step : (2 : ℚ) ^ (exponentOf num den + 1) ≤ 2 ^ exponent :=
      zpow_le_zpow_right₀ (by norm_num) below
    rw [zpow_add_one₀ two_ne_zero] at step
    have mantissa : (mantissaOf num den : ℚ) ≤ 2 ^ 53 := by
      have whole := mantissaOf_le_bound some positive
      exact_mod_cast (show mantissaOf num den ≤ 2 ^ 53 by rw [hiddenBit] at whole; omega)
    obtain ⟨size, -⟩ := exponentOf_spec some positive
    rw [div_lt_iff₀ own] at size
    norm_num at size
    refine iff_of_true ?_ (by nlinarith)
    rw [rounded, magnitude, magnitude]
    nlinarith
  · rw [rounded, same, magnitude, magnitude, mul_lt_mul_iff_left₀ unit, Nat.cast_lt,
      mantissaOf_lt_iff num positive even, same, div_lt_iff₀ unit]
  · -- with a greater unit all of it lies above
    have step : (2 : ℚ) ^ (exponent + 1) ≤ 2 ^ exponentOf num den :=
      zpow_le_zpow_right₀ (by norm_num) above
    rw [zpow_add_one₀ two_ne_zero] at step
    have beyond : leastExponent < exponentOf num den := least.trans_lt above
    have mantissa : (2 : ℚ) ^ 52 ≤ mantissaOf num den := by
      have whole := le_mantissaOf some positive beyond
      exact_mod_cast (show 2 ^ 52 ≤ mantissaOf num den by rw [hiddenBit] at whole; omega)
    have size := (exponentOf_spec some positive).2 beyond
    rw [le_div_iff₀ own] at size
    norm_num at size
    refine iff_of_false ?_ (by nlinarith)
    rw [rounded, magnitude, magnitude]
    nlinarith

/-- A ratio is rounded to the double of its size, or it is beyond all doubles. -/
theorem ofRatio_cases (negative : Bool) :
    Shows (ofRatio negative num den) (signed negative (rounded num den)) ∨
      ofRatio negative num den = .infinity negative ∧
        magnitude (2 * hiddenBit) greatestExponent ≤ rounded num den := by
  have most := mantissaOf_le_bound some positive
  by_cases carry : mantissaOf num den = 2 * hiddenBit
  · by_cases room : exponentOf num den + 1 ≤ greatestExponent
    · left
      have finite : ofRatio negative num den = .finite negative hiddenBit (exponentOf num den + 1) := by
        rw [mantissaOf] at carry
        simp only [ofRatio, if_neg some.ne', if_pos carry, if_neg (not_lt.2 room)]
      refine ⟨negative, _, _, finite, ?_, by rw [rounded, carry, magnitude_carry]⟩
      rw [finite]
      exact ⟨by decide, (exponentOf_ge num den).trans (by omega), room⟩
    · right
      constructor
      · rw [mantissaOf] at carry
        simp only [ofRatio, if_neg some.ne', if_pos carry, if_pos (not_le.1 room)]
      · rw [rounded, carry, magnitude, magnitude]
        gcongr
        · norm_num
        · omega
  · by_cases room : exponentOf num den ≤ greatestExponent
    · left
      have fits : mantissaOf num den < 2 * hiddenBit := lt_of_le_of_ne most carry
      have finite := ofRatio_of_fits negative some fits room
      refine ⟨negative, _, _, finite, ?_, rfl⟩
      rw [finite]
      exact ⟨fits, exponentOf_ge num den, room⟩
    · right
      rw [not_le] at room
      have least := le_mantissaOf some positive (lt_trans (by decide) room)
      constructor
      · rw [mantissaOf] at carry
        simp only [ofRatio, if_neg some.ne', if_neg carry, if_pos room]
      · have step : (2 : ℚ) ^ (greatestExponent + 1) ≤ 2 ^ exponentOf num den :=
          zpow_le_zpow_right₀ (by norm_num) room
        rw [zpow_add_one₀ two_ne_zero] at step
        have mantissa : (hiddenBit : ℚ) ≤ mantissaOf num den := by exact_mod_cast least
        have unit : (0 : ℚ) < 2 ^ greatestExponent := by positivity
        rw [rounded, magnitude, magnitude, Nat.cast_mul, Nat.cast_ofNat]
        nlinarith [show (0 : ℚ) ≤ hiddenBit from Nat.cast_nonneg _]

end Ratio

/-! ### Products below a bound -/

section Bound

variable {bound : Nat} {exponent : Int} (low : hiddenBit < bound) (high : bound ≤ 2 * hiddenBit)
  (even : bound % 2 = 0) (least : leastExponent ≤ exponent) (most : exponent ≤ greatestExponent)
include low high even least most

/-- A ratio more than half a unit below a bound is rounded to a double below it. -/
theorem ofRatio_lt (negative : Bool) (num : Nat) {den : Nat} (positive : 0 < den)
    (below : (num : ℚ) / den < (bound - 1 / 2) * 2 ^ exponent) :
    ∃ size, Shows (ofRatio negative num den) (signed negative size) ∧ 0 ≤ size ∧
      size < magnitude bound exponent := by
  have top : (0 : ℚ) < bound := by exact_mod_cast (Nat.zero_le _).trans_lt low
  rcases Nat.eq_zero_or_pos num with rfl | some
  · refine ⟨0, ?_, le_rfl, mul_pos top (by positivity)⟩
    rw [signed_zero]
    exact shows_zeroOf negative
  have less := (rounded_lt_iff some positive low high even least).2 below
  rcases ofRatio_cases some positive negative with shows | ⟨-, large⟩
  · exact ⟨_, shows, magnitude_nonneg _ _, less⟩
  · have reach : magnitude bound exponent ≤ magnitude (2 * hiddenBit) greatestExponent := by
      have unit : (2 : ℚ) ^ exponent ≤ 2 ^ greatestExponent := zpow_le_zpow_right₀ (by norm_num) most
      have digits : (bound : ℚ) ≤ (2 * hiddenBit : Nat) := by exact_mod_cast high
      exact mul_le_mul digits unit (zpow_pos two_pos _).le (Nat.cast_nonneg _)
    exact absurd (less.trans_le (reach.trans large)) (lt_irrefl _)

theorem ofScaled_lt (negative : Bool) {mantissa : Nat} {scale : Int}
    (below : magnitude mantissa scale < (bound - 1 / 2) * 2 ^ exponent) :
    ∃ size, Shows (ofScaled negative mantissa scale) (signed negative size) ∧ 0 ≤ size ∧
      size < magnitude bound exponent := by
  have parts := ratio_eq_magnitude mantissa scale
  unfold ratio at parts
  unfold ofScaled
  split_ifs at parts ⊢ with up
  all_goals
    rw [← parts] at below
    refine ofRatio_lt low high even least most negative _ ?_ below
  · exact Nat.one_pos
  · exact Nat.pow_pos (by decide)

theorem shows_mul_lt {left right : Binary64} {one other : ℚ} (shows : Shows left one)
    (times : Shows right other) (below : |one * other| < (bound - 1 / 2) * 2 ^ exponent) :
    ∃ value, Shows (left * right) value ∧ |value| < magnitude bound exponent ∧
      (one * other < 0 → value ≤ 0) := by
  obtain ⟨negative₁, mantissa₁, exponent₁, rfl, -, rfl⟩ := shows
  obtain ⟨negative₂, mantissa₂, exponent₂, rfl, -, rfl⟩ := times
  rw [signed_mul, ← magnitude_mul] at below ⊢
  rw [abs_signed _ (magnitude_nonneg _ _)] at below
  obtain ⟨size, shown, nonneg, less⟩ :=
    ofScaled_lt low high even least most (negative₁ != negative₂) below
  refine ⟨_, shown, by rwa [abs_signed _ nonneg], fun negative => ?_⟩
  have product := magnitude_nonneg (mantissa₁ * mantissa₂) (exponent₁ + exponent₂)
  cases sign : (negative₁ != negative₂) with
  | true => exact neg_nonpos.2 nonneg
  | false =>
    rw [sign, signed, if_neg Bool.false_ne_true] at negative
    exact absurd negative (not_lt.2 product)

end Bound

end LogCensus.Binary64
