import LogCensus.Proofs.Decimal.Nearest
import Mathlib.Data.Nat.Cast.Order.Field

/-!
Numbers below a power of two. What rounding adds to a ratio, a product or a quotient is less than
a power of two more, which is all that a size in a text needs.
-/

namespace LogCensus.Binary64

/-- The number is finite, and its size is less than a power of two. -/
def Under (number : Binary64) (power : Int) : Prop :=
  ∃ value, Shows number value ∧ |value| < 2 ^ power

theorem magnitude_top (power : Int) : magnitude (2 * hiddenBit) (power - 53) = 2 ^ power := by
  have top : ((2 * hiddenBit : Nat) : ℚ) = 2 ^ (53 : Int) := by norm_num [hiddenBit]
  rw [magnitude, top, ← zpow_add₀ two_ne_zero]
  congr 1
  ring

/-- Half a unit below twice a power of two there is still room for the power. -/
theorem lt_top_of_lt {size : ℚ} {power : Int} (below : size < 2 ^ power) :
    size < (((2 * hiddenBit : Nat) : ℚ) - 1 / 2) * 2 ^ (power + 1 - 53) := by
  refine below.trans_le ?_
  have step : (2 : ℚ) ^ power = 2 ^ (52 : Int) * 2 ^ (power + 1 - 53) := by
    rw [← zpow_add₀ two_ne_zero]
    congr 1
    ring
  rw [step]
  gcongr
  norm_num [hiddenBit]

theorem under_zeroOf (negative : Bool) (power : Int) : (zeroOf negative).Under power :=
  ⟨0, shows_zeroOf negative, by rw [abs_zero]; positivity⟩

section Rounding

variable {power : Int} (least : -1000 ≤ power) (most : power ≤ 1000)
include least most

theorem under_ofRatio (negative : Bool) {num den : Nat} (positive : 0 < den)
    (below : (num : ℚ) / den < 2 ^ power) : (ofRatio negative num den).Under (power + 1) := by
  obtain ⟨size, shows, nonneg, less⟩ := ofRatio_lt (by decide) le_rfl (by decide)
    (by rw [leastExponent]; omega) (by rw [greatestExponent]; omega) negative num positive
    (lt_top_of_lt below)
  rw [magnitude_top] at less
  exact ⟨_, shows, by rwa [abs_signed _ nonneg]⟩

theorem under_ofNat {size : Nat} (below : (size : ℚ) < 2 ^ power) :
    (ofNat size).Under (power + 1) := by
  apply under_ofRatio least most false Nat.one_pos
  rwa [Nat.cast_one, div_one]

/-- A whole number is not rounded below a power of two that it reaches. -/
theorem exists_shows_ofNat {size : Nat} {reach : Int} (below : (size : ℚ) < 2 ^ power)
    (near : -1000 ≤ reach) (reached : (2 : ℚ) ^ reach ≤ size) :
    ∃ value, Shows (ofNat size) value ∧ 2 ^ reach ≤ value := by
  have some : 0 < size := by
    have positive : (0 : ℚ) < size := lt_of_lt_of_le (by positivity) reached
    exact_mod_cast positive
  obtain ⟨_, ⟨_, _, _, finite, -⟩, -⟩ := under_ofNat least most below
  rcases ofRatio_cases some Nat.one_pos false with shows | ⟨infinite, -⟩
  · refine ⟨_, shows, ?_⟩
    by_contra less
    rw [signed, if_neg Bool.false_ne_true, not_le, ← magnitude_top, rounded_lt_iff some Nat.one_pos
      (by decide) le_rfl (by decide) (by rw [leastExponent]; omega), Nat.cast_one, div_one] at less
    have unit : (0 : ℚ) < 2 ^ (reach - 53) := by positivity
    have top := magnitude_top reach
    rw [magnitude] at top
    linarith
  · rw [ofNat, infinite] at finite
    cases finite

theorem under_mul {left right : Binary64} {one other : ℚ} (shows : Shows left one)
    (times : Shows right other) (below : |one * other| < 2 ^ power) :
    (left * right).Under (power + 1) := by
  obtain ⟨value, shown, less, -⟩ := shows_mul_lt (by decide) le_rfl (by decide)
    (by rw [leastExponent]; omega) (by rw [greatestExponent]; omega) shows times
    (lt_top_of_lt below)
  rw [magnitude_top] at less
  exact ⟨value, shown, less⟩

theorem under_div {left right : Binary64} {one other : ℚ} (shows : Shows left one)
    (parts : Shows right other) (some : other ≠ 0) (below : |one / other| < 2 ^ power) :
    (left / right).Under (power + 1) := by
  obtain ⟨negative, num, den, divided, positive, ratio⟩ := exists_div shows parts some
  have size : (0 : ℚ) ≤ num / den := by positivity
  rw [ratio, abs_signed _ size] at below
  rw [divided]
  exact under_ofRatio least most negative positive below

end Rounding

theorem Under.roundHalfAway {number : Binary64} {power : Int} (under : number.Under power)
    (whole : 0 ≤ power) (most : power < 1000) : number.roundHalfAway.Under (power + 2) := by
  obtain ⟨value, ⟨negative, mantissa, exponent, rfl, -, rfl⟩, below⟩ := under
  rw [abs_signed _ (magnitude_nonneg _ _), ← ratio_eq_magnitude] at below
  have positive := ratio_den_pos mantissa exponent
  change (ofRatio negative ((2 * (ratio mantissa exponent).1 + (ratio mantissa exponent).2)
    / (2 * (ratio mantissa exponent).2)) 1).Under _
  generalize (ratio mantissa exponent).1 = num at below ⊢
  generalize (ratio mantissa exponent).2 = den at below positive ⊢
  have cast : (0 : ℚ) < den := by exact_mod_cast positive
  have one : (1 : ℚ) ≤ 2 ^ power := one_le_zpow₀ (by norm_num) whole
  rw [show power + 2 = power + 1 + 1 by ring]
  apply under_ofRatio (by omega) (by omega) negative Nat.one_pos
  calc (((2 * num + den) / (2 * den) : Nat) : ℚ) / (1 : Nat)
      ≤ ((2 * num + den : Nat) : ℚ) / (2 * den : Nat) := by
        rw [Nat.cast_one, div_one]
        exact Nat.cast_div_le
    _ = num / den + 1 / 2 := by
        push_cast
        field_simp
    _ < 2 ^ (power + 1) := by
        rw [zpow_add_one₀ two_ne_zero]
        linarith

theorem Under.saturated_le {number : Binary64} {power : Nat} (under : number.Under power)
    (high : Int) : number.saturated 0 high ≤ 2 ^ power := by
  obtain ⟨value, shows, below⟩ := under
  have whole : wholePart value ≤ 2 ^ power := by
    rw [wholePart_le_iff (by positivity)]
    push_cast
    rw [zpow_natCast] at below
    linarith [le_abs_self value]
  rw [saturated_eq shows]
  exact max_le (by positivity) ((min_le_right _ _).trans whole)

end LogCensus.Binary64
