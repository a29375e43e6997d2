import LogCensus.Proofs.Decimal.Shortest
import Mathlib.Data.Rat.Floor

/-!
Doubles as the rationals they are. Rounding a size that a double can have changes nothing, and so
differences, products and quotients that a double can show are exact. The whole part on the side of
zero and what is left over it are always of this kind.
-/

namespace LogCensus.Binary64

/-! ### Numbers and their values -/

def signed (negative : Bool) (size : ℚ) : ℚ := if negative then -size else size

/-- The number is finite and has this value. -/
def Shows (number : Binary64) (value : ℚ) : Prop :=
  ∃ negative mantissa exponent, number = .finite negative mantissa exponent ∧
    number.IsFinite ∧ value = signed negative (magnitude mantissa exponent)

def Representable (size : ℚ) : Prop :=
  ∃ mantissa exponent, IsFinite (.finite false mantissa exponent) ∧
    size = magnitude mantissa exponent

theorem magnitude_nonneg (mantissa : Nat) (exponent : Int) : 0 ≤ magnitude mantissa exponent := by
  rw [magnitude]
  positivity

theorem magnitude_zero (exponent : Int) : magnitude 0 exponent = 0 := by
  rw [magnitude, Nat.cast_zero, zero_mul]

theorem magnitude_shift (mantissa shift : Nat) (exponent : Int) :
    magnitude mantissa (shift + exponent) = magnitude (mantissa * 2 ^ shift) exponent := by
  rw [magnitude, magnitude, zpow_add₀ two_ne_zero, zpow_natCast, ← mul_assoc, Nat.cast_mul,
    Nat.cast_pow, Nat.cast_ofNat]

theorem abs_signed (negative : Bool) {size : ℚ} (positive : 0 ≤ size) :
    |signed negative size| = size := by
  cases negative with
  | false => exact abs_of_nonneg positive
  | true => exact (abs_neg size).trans (abs_of_nonneg positive)

theorem signed_zero (negative : Bool) : signed negative 0 = 0 := by
  cases negative <;> simp [signed]

theorem signed_mul (one other : Bool) (left right : ℚ) :
    signed one left * signed other right = signed (one != other) (left * right) := by
  cases one <;> cases other <;> simp [signed]

theorem representable_zero : Representable 0 :=
  ⟨0, 0, by decide, (magnitude_zero 0).symm⟩

/-- Whole numbers of at most 53 binary digits. -/
theorem representable_natCast {size : Nat} (small : size < 2 * hiddenBit) : Representable size := by
  refine ⟨size, 0, ⟨small, by decide, by decide⟩, ?_⟩
  rw [magnitude, zpow_zero, mul_one]

theorem Shows.representable {number : Binary64} {value : ℚ} (shows : Shows number value) :
    Representable |value| := by
  obtain ⟨negative, mantissa, exponent, rfl, finite, rfl⟩ := shows
  exact ⟨mantissa, exponent, finite, abs_signed negative (magnitude_nonneg _ _)⟩

theorem shows_zeroOf (negative : Bool) : Shows (zeroOf negative) 0 := by
  refine ⟨negative, 0, leastExponent, rfl, by cases negative <;> decide, ?_⟩
  rw [magnitude_zero, signed_zero]

/-! ### Rounding what needs none -/

theorem roundHalfEven_of_dvd {num den : Nat} (positive : 0 < den) (whole : den ∣ num) :
    roundHalfEven num den = num / den := by
  have rest : num % den = 0 := Nat.mod_eq_zero_of_dvd whole
  unfold roundHalfEven
  simp only [rest]
  exact if_neg (by omega)

theorem exponentOf_ge (num den : Nat) : leastExponent ≤ exponentOf num den := by
  unfold exponentOf
  simp only
  exact le_max_right _ _

/-- A ratio that a double can show has no more binary digits at its exponent than it has there. -/
theorem exponentOf_le_of_eq {num den mantissa : Nat} {exponent : Int} (some : 0 < num)
    (positive : 0 < den) (small : mantissa < 2 * hiddenBit) (least : leastExponent ≤ exponent)
    (same : (num : ℚ) / den = magnitude mantissa exponent) : exponentOf num den ≤ exponent := by
  obtain ⟨-, full⟩ := exponentOf_spec some positive
  by_contra beyond
  rw [not_le] at beyond
  have large := full (lt_of_le_of_lt least beyond)
  rw [same, magnitude, le_div_iff₀ (by positivity)] at large
  have step : (2 : ℚ) ^ (exponent + 1) ≤ 2 ^ exponentOf num den :=
    zpow_le_zpow_right₀ (by norm_num) beyond
  rw [zpow_add_one₀ two_ne_zero] at step
  have digits : (mantissa : ℚ) < 2 ^ 53 := by
    exact_mod_cast (show mantissa < 2 ^ 53 by rw [hiddenBit] at small; omega)
  have unit : (0 : ℚ) < 2 ^ exponent := by positivity
  norm_num at large
  nlinarith

theorem ofRatio_of_fits (negative : Bool) {num den : Nat} (some : 0 < num)
    (fits : mantissaOf num den < 2 * hiddenBit) (most : exponentOf num den ≤ greatestExponent) :
    ofRatio negative num den = .finite negative (mantissaOf num den) (exponentOf num den) := by
  have carry := fits.ne
  rw [mantissaOf] at carry ⊢
  simp only [ofRatio, if_neg some.ne', if_neg carry, if_neg (not_lt.2 most)]

theorem ofRatio_exact (negative : Bool) {num den : Nat} (positive : 0 < den)
    (exact : Representable (num / den)) :
    Shows (ofRatio negative num den) (signed negative (num / den)) := by
  rcases Nat.eq_zero_or_pos num with rfl | some
  · rw [Nat.cast_zero, zero_div, signed_zero]
    exact shows_zeroOf negative
  obtain ⟨mantissa, exponent, ⟨small, least, most⟩, same⟩ := exact
  have below := exponentOf_le_of_eq some positive small least same
  obtain ⟨shift, shift_eq⟩ : ∃ shift : Nat, exponent - exponentOf num den = shift :=
    Int.eq_ofNat_of_zero_le (sub_nonneg.2 below)
  have den_pos := scaled_den_pos num positive (exponentOf num den)
  have den_cast : ((scaled num den (exponentOf num den)).2 : ℚ) ≠ 0 := by
    exact_mod_cast den_pos.ne'
  -- at its exponent the ratio is a whole number
  have quotient : (scaled num den (exponentOf num den)).1 =
      mantissa * 2 ^ shift * (scaled num den (exponentOf num den)).2 := by
    have ratio := scaled_ratio num den (exponentOf num den)
    rw [same, magnitude, mul_div_assoc, ← zpow_sub₀ two_ne_zero, shift_eq, zpow_natCast,
      div_eq_iff den_cast] at ratio
    exact_mod_cast ratio
  have rounded : mantissaOf num den = mantissa * 2 ^ shift := by
    rw [mantissaOf, roundHalfEven_of_dvd den_pos ⟨_, quotient.trans (Nat.mul_comm _ _)⟩, quotient,
      Nat.mul_div_cancel _ den_pos]
  have value : magnitude (mantissaOf num den) (exponentOf num den) = num / den := by
    rw [same, rounded, show exponent = shift + exponentOf num den by omega, magnitude_shift]
  have fits : mantissaOf num den < 2 * hiddenBit := by
    obtain ⟨high, -⟩ := exponentOf_spec some positive
    rw [← value, magnitude, mul_div_cancel_right₀ _ (by positivity)] at high
    norm_num at high
    exact_mod_cast high
  have finite := ofRatio_of_fits negative some fits (below.trans most)
  refine ⟨negative, _, _, finite, ?_, by rw [value]⟩
  rw [finite]
  exact ⟨fits, exponentOf_ge num den, below.trans most⟩

theorem ofScaled_exact (negative : Bool) {mantissa : Nat} {exponent : Int}
    (exact : Representable (magnitude mantissa exponent)) :
    Shows (ofScaled negative mantissa exponent) (signed negative (magnitude mantissa exponent)) := by
  have parts := ratio_eq_magnitude mantissa exponent
  unfold ratio at parts
  unfold ofScaled
  split_ifs at parts ⊢ with up
  all_goals
    rw [← parts] at exact ⊢
    refine ofRatio_exact negative ?_ exact
  · exact Nat.one_pos
  · exact Nat.pow_pos (by decide)

theorem shows_ofNat {size : Nat} (exact : Representable size) : Shows (ofNat size) size := by
  have same : ((size : ℚ) / (1 : Nat)) = size := by rw [Nat.cast_one, div_one]
  have shows := ofRatio_exact false Nat.one_pos (same.symm ▸ exact)
  rwa [same] at shows

/-! ### Exact differences, products and quotients -/

theorem shows_neg {number : Binary64} {value : ℚ} (shows : Shows number value) :
    Shows number.neg (-value) := by
  obtain ⟨negative, mantissa, exponent, rfl, finite, rfl⟩ := shows
  refine ⟨!negative, mantissa, exponent, rfl, finite, ?_⟩
  cases negative <;> simp [signed]

theorem inUnits_eq (negative : Bool) (mantissa : Nat) {exponent unit : Int} (least : unit ≤ exponent) :
    (inUnits negative mantissa exponent unit : ℚ) * 2 ^ unit =
      signed negative (magnitude mantissa exponent) := by
  obtain ⟨shift, shift_eq⟩ : ∃ shift : Nat, exponent - unit = shift :=
    Int.eq_ofNat_of_zero_le (sub_nonneg.2 least)
  rw [inUnits, shift_eq, Int.toNat_natCast, Nat.pow_eq, show exponent = shift + unit by omega,
    magnitude_shift]
  cases negative <;> simp [signed, magnitude]

theorem shows_add {left right : Binary64} {one other : ℚ} (shows : Shows left one)
    (more : Shows right other) (exact : Representable |one + other|) :
    Shows (left + right) (one + other) := by
  obtain ⟨negative₁, mantissa₁, exponent₁, rfl, -, rfl⟩ := shows
  obtain ⟨negative₂, mantissa₂, exponent₂, rfl, -, rfl⟩ := more
  obtain ⟨unit, unit_eq⟩ : ∃ unit, unit = min exponent₁ exponent₂ := ⟨_, rfl⟩
  obtain ⟨sum, sum_eq⟩ : ∃ sum, sum = inUnits negative₁ mantissa₁ exponent₁ unit
      + inUnits negative₂ mantissa₂ exponent₂ unit := ⟨_, rfl⟩
  have value : signed negative₁ (magnitude mantissa₁ exponent₁)
      + signed negative₂ (magnitude mantissa₂ exponent₂) = sum * 2 ^ unit := by
    rw [sum_eq, Int.cast_add, add_mul, inUnits_eq _ _ (unit_eq.le.trans (min_le_left _ _)),
      inUnits_eq _ _ (unit_eq.le.trans (min_le_right _ _))]
  have added : Binary64.finite negative₁ mantissa₁ exponent₁
      + .finite negative₂ mantissa₂ exponent₂ =
        if sum = 0 then zeroOf (negative₁ && negative₂)
        else ofScaled (sum < 0) sum.natAbs unit := by
    rw [sum_eq, unit_eq]
    rfl
  rw [added, value]
  rw [value, abs_mul, abs_of_pos (show (0 : ℚ) < 2 ^ unit by positivity)] at exact
  by_cases none : sum = 0
  · rw [if_pos none, none, Int.cast_zero, zero_mul]
    exact shows_zeroOf _
  · have size : |(sum : ℚ)| * 2 ^ unit = magnitude sum.natAbs unit := by
      rw [magnitude, Nat.cast_natAbs, Int.cast_abs]
    rw [size] at exact
    rw [if_neg none]
    have shown := ofScaled_exact (decide (sum < 0)) exact
    rw [← size] at shown
    convert shown using 1
    by_cases below : sum < 0
    · rw [decide_eq_true below, signed, if_pos rfl, abs_of_neg (by exact_mod_cast below)]
      ring
    · rw [decide_eq_false below, signed, if_neg Bool.false_ne_true,
        abs_of_nonneg (by exact_mod_cast not_lt.1 below)]

theorem shows_sub {left right : Binary64} {one other : ℚ} (shows : Shows left one)
    (less : Shows right other) (exact : Representable |one - other|) :
    Shows (left - right) (one - other) := by
  rw [sub_eq_add_neg] at exact ⊢
  exact shows_add shows (shows_neg less) exact

theorem magnitude_mul (mantissa₁ mantissa₂ : Nat) (exponent₁ exponent₂ : Int) :
    magnitude (mantissa₁ * mantissa₂) (exponent₁ + exponent₂) =
      magnitude mantissa₁ exponent₁ * magnitude mantissa₂ exponent₂ := by
  rw [magnitude, magnitude, magnitude, zpow_add₀ two_ne_zero, Nat.cast_mul]
  ring

theorem shows_mul {left right : Binary64} {one other : ℚ} (shows : Shows left one)
    (times : Shows right other) (exact : Representable |one * other|) :
    Shows (left * right) (one * other) := by
  obtain ⟨negative₁, mantissa₁, exponent₁, rfl, -, rfl⟩ := shows
  obtain ⟨negative₂, mantissa₂, exponent₂, rfl, -, rfl⟩ := times
  rw [signed_mul, ← magnitude_mul] at exact ⊢
  rw [abs_signed _ (magnitude_nonneg _ _)] at exact
  exact ofScaled_exact (negative₁ != negative₂) exact

theorem magnitude_div (mantissa₁ mantissa₂ : Nat) (exponent : Int) :
    magnitude mantissa₁ exponent / magnitude mantissa₂ exponent = mantissa₁ / mantissa₂ :=
  mul_div_mul_right _ _ (by positivity)

theorem signed_div (one other : Bool) (left right : ℚ) :
    signed one left / signed other right = signed (one != other) (left / right) := by
  cases one <;> cases other <;> simp [signed, neg_div, div_neg]

/-- A quotient is the double of the exact one. -/
theorem exists_div {left right : Binary64} {one other : ℚ} (shows : Shows left one)
    (parts : Shows right other) (some : other ≠ 0) :
    ∃ negative num den, left / right = ofRatio negative num den ∧ 0 < den ∧
      one / other = signed negative ((num : ℚ) / den) := by
  obtain ⟨negative₁, mantissa₁, exponent₁, rfl, -, rfl⟩ := shows
  obtain ⟨negative₂, mantissa₂, exponent₂, rfl, -, rfl⟩ := parts
  have positive : mantissa₂ ≠ 0 := by
    rintro rfl
    exact some (by rw [magnitude_zero, signed_zero])
  have divided : Binary64.finite negative₁ mantissa₁ exponent₁
      / .finite negative₂ mantissa₂ exponent₂ =
        if exponent₁ < exponent₂ then
          ofRatio (negative₁ != negative₂) mantissa₁
            (mantissa₂ * Nat.pow 2 (exponent₂ - exponent₁).toNat)
        else ofRatio (negative₁ != negative₂) (mantissa₁ * Nat.pow 2 (exponent₁ - exponent₂).toNat)
          mantissa₂ := if_neg positive
  rw [divided, signed_div]
  split_ifs with less
  · obtain ⟨shift, shift_eq⟩ : ∃ shift : Nat, exponent₂ - exponent₁ = shift :=
      Int.eq_ofNat_of_zero_le (by omega)
    have ratio : magnitude mantissa₁ exponent₁ / magnitude mantissa₂ exponent₂ =
        mantissa₁ / (mantissa₂ * Nat.pow 2 shift : Nat) := by
      rw [show exponent₂ = shift + exponent₁ by omega, magnitude_shift, magnitude_div, Nat.pow_eq]
    rw [shift_eq, Int.toNat_natCast, ratio]
    exact ⟨_, _, _, rfl, Nat.mul_pos (Nat.pos_of_ne_zero positive) (Nat.pow_pos (by decide)), rfl⟩
  · obtain ⟨shift, shift_eq⟩ : ∃ shift : Nat, exponent₁ - exponent₂ = shift :=
      Int.eq_ofNat_of_zero_le (by omega)
    have ratio : magnitude mantissa₁ exponent₁ / magnitude mantissa₂ exponent₂ =
        (mantissa₁ * Nat.pow 2 shift : Nat) / mantissa₂ := by
      rw [show exponent₁ = shift + exponent₂ by omega, magnitude_shift, magnitude_div, Nat.pow_eq]
    rw [shift_eq, Int.toNat_natCast, ratio]
    exact ⟨_, _, _, rfl, Nat.pos_of_ne_zero positive, rfl⟩

theorem shows_div {left right : Binary64} {one other : ℚ} (shows : Shows left one)
    (parts : Shows right other) (some : other ≠ 0) (exact : Representable |one / other|) :
    Shows (left / right) (one / other) := by
  obtain ⟨negative, num, den, divided, positive, ratio⟩ := exists_div shows parts some
  have size : (0 : ℚ) ≤ num / den := by positivity
  rw [ratio, abs_signed _ size] at exact
  rw [divided, ratio]
  exact ofRatio_exact negative positive exact

/-- The powers of ten up to the last one with no more than 53 binary digits but for zeros. -/
theorem shows_powerOfTen {power : Nat} (small : power ≤ 22) :
    Shows (powerOfTen power) (10 ^ power) := by
  have fives : 5 ^ power < 2 * hiddenBit :=
    (Nat.pow_le_pow_right (by decide) small).trans_lt (by decide)
  have exact : Representable ((10 ^ power : Nat) : ℚ) := by
    refine ⟨5 ^ power, power, ⟨fives, ?_, ?_⟩, ?_⟩
    · rw [leastExponent]
      omega
    · rw [greatestExponent]
      omega
    · rw [magnitude, zpow_natCast]
      push_cast
      rw [← mul_pow]
      norm_num
  have shows := shows_ofNat exact
  rwa [← powerOfTen_eq (by omega), Nat.cast_pow, Nat.cast_ofNat] at shows

/-! ### Whole parts -/

def wholePart (value : ℚ) : Int := if 0 ≤ value then ⌊value⌋ else ⌈value⌉

theorem wholePart_intCast (whole : Int) : wholePart whole = whole := by
  rw [wholePart, Int.floor_intCast, Int.ceil_intCast, ite_self]

theorem le_wholePart_iff {value : ℚ} {bound : Int} (below : bound ≤ 0) :
    bound ≤ wholePart value ↔ (bound : ℚ) - 1 < value := by
  have cast : (bound : ℚ) ≤ 0 := by exact_mod_cast below
  rw [wholePart]
  split_ifs with sign
  · exact iff_of_true (below.trans (Int.floor_nonneg.2 sign)) (by linarith)
  · exact Int.le_ceil_iff

theorem wholePart_le_iff {value : ℚ} {bound : Int} (above : 0 ≤ bound) :
    wholePart value ≤ bound ↔ value < bound + 1 := by
  have cast : (0 : ℚ) ≤ bound := by exact_mod_cast above
  rw [wholePart]
  split_ifs with sign
  · exact Int.floor_le_iff
  · rw [not_le] at sign
    refine iff_of_true (le_trans (Int.ceil_le.2 ?_) above) (by linarith)
    exact_mod_cast sign.le

theorem abs_sub_wholePart_lt (value : ℚ) : |value - wholePart value| < 1 := by
  rw [wholePart, abs_lt]
  split_ifs
  · constructor <;> linarith [Int.floor_le value, Int.lt_floor_add_one value]
  · constructor <;> linarith [Int.le_ceil value, Int.ceil_lt_add_one value]

theorem sub_wholePart_nonpos {value : ℚ} (below : value ≤ 0) : value - wholePart value ≤ 0 := by
  rw [wholePart]
  split_ifs with zero
  · rw [le_antisymm below zero, Int.floor_zero, Int.cast_zero, sub_zero]
  · exact sub_nonpos.2 (Int.le_ceil value)

/-- What is less than one is less by at least a unit of the 53rd binary digit. -/
theorem Representable.le_of_lt_one {size : ℚ} (exact : Representable size) (below : size < 1) :
    size ≤ 1 - 1 / 2 ^ 53 := by
  obtain ⟨mantissa, exponent, ⟨small, -, -⟩, rfl⟩ := exact
  have unit : (0 : ℚ) < 2 ^ exponent := by positivity
  have mantissa_le : (mantissa : ℚ) ≤ 2 ^ 53 - 1 := by
    rw [le_sub_iff_add_le]
    exact_mod_cast (show mantissa + 1 ≤ 2 ^ 53 by rw [hiddenBit] at small; omega)
  rw [magnitude] at below ⊢
  by_cases tiny : exponent ≤ -53
  · have step : (2 : ℚ) ^ exponent ≤ 2 ^ (-53 : Int) := zpow_le_zpow_right₀ (by norm_num) tiny
    calc (mantissa : ℚ) * 2 ^ exponent ≤ (2 ^ 53 - 1) * 2 ^ (-53 : Int) := by gcongr
      _ = 1 - 1 / 2 ^ 53 := by norm_num
  · have step : (2 : ℚ) ^ (-53 : Int) ≤ 2 ^ exponent :=
      zpow_le_zpow_right₀ (by norm_num) (by omega)
    have large : 1 / (2 : ℚ) ^ 53 ≤ 2 ^ exponent := by
      refine le_trans (le_of_eq ?_) step
      norm_num
    rcases le_or_gt 0 exponent with up | down
    · -- a whole number below one
      have one : (1 : ℚ) ≤ 2 ^ exponent := one_le_zpow₀ (by norm_num) up
      have none : mantissa = 0 := by
        by_contra some
        have least : (1 : ℚ) ≤ mantissa := by exact_mod_cast Nat.pos_of_ne_zero some
        nlinarith
      rw [none, Nat.cast_zero, zero_mul]
      norm_num
    · obtain ⟨places, rfl⟩ := Int.exists_eq_neg_ofNat down.le
      rw [zpow_neg, zpow_natCast] at below large unit ⊢
      have power : (0 : ℚ) < 2 ^ places := by positivity
      have less : mantissa + 1 ≤ 2 ^ places := by
        rw [← div_eq_mul_inv, div_lt_one power] at below
        exact_mod_cast below
      have cast : (mantissa : ℚ) + 1 ≤ 2 ^ places := by exact_mod_cast less
      have whole : ((mantissa : ℚ) + 1) * (2 ^ places)⁻¹ ≤ 1 := by
        rw [← div_eq_mul_inv]
        exact (div_le_one power).2 cast
      linarith

theorem ratio_den_pos (mantissa : Nat) (exponent : Int) : 0 < (ratio mantissa exponent).2 := by
  unfold ratio
  split_ifs
  · exact Nat.one_pos
  · exact Nat.pow_pos (by decide)

/-- The quotient of the parts of a size is its whole part. -/
theorem wholePart_signed (negative : Bool) (mantissa : Nat) (exponent : Int) :
    wholePart (signed negative (magnitude mantissa exponent)) =
      if negative then -(((ratio mantissa exponent).1 / (ratio mantissa exponent).2 : Nat) : Int)
      else ((ratio mantissa exponent).1 / (ratio mantissa exponent).2 : Nat) := by
  have floor : ⌊magnitude mantissa exponent⌋ =
      ((ratio mantissa exponent).1 / (ratio mantissa exponent).2 : Nat) := by
    rw [← ratio_eq_magnitude, Rat.floor_natCast_div_natCast]
    rfl
  have size := magnitude_nonneg mantissa exponent
  cases negative with
  | false => exact (if_pos size).trans floor
  | true =>
    simp only [signed, if_true, wholePart]
    split_ifs with zero
    · have none : magnitude mantissa exponent = 0 := by linarith
      rw [← floor, none, neg_zero, Int.floor_zero, neg_zero]
    · rw [Int.ceil_neg, floor]

theorem representable_wholePart {number : Binary64} {value : ℚ} (shows : Shows number value) :
    Representable |(wholePart value : ℚ)| := by
  obtain ⟨negative, mantissa, exponent, rfl, finite, rfl⟩ := shows
  have size : |((wholePart (signed negative (magnitude mantissa exponent)) : Int) : ℚ)| =
      ((ratio mantissa exponent).1 / (ratio mantissa exponent).2 : Nat) := by
    rw [wholePart_signed]
    generalize (ratio mantissa exponent).1 / (ratio mantissa exponent).2 = quotient
    cases negative <;> simp
  rw [size]
  by_cases up : 0 ≤ exponent
  · -- nothing stands behind the point
    have whole := ratio_eq_magnitude mantissa exponent
    have one : (ratio mantissa exponent).2 = 1 := by rw [ratio, if_pos up]
    rw [one, Nat.cast_one, div_one] at whole
    rw [one, Nat.div_one, whole]
    exact ⟨mantissa, exponent, finite, rfl⟩
  · have num : (ratio mantissa exponent).1 = mantissa := by rw [ratio, if_neg up]
    apply representable_natCast
    rw [num]
    exact (Nat.div_le_self _ _).trans_lt finite.1

theorem shows_truncate {number : Binary64} {value : ℚ} (shows : Shows number value) :
    Shows number.truncate (wholePart value) := by
  have exact := representable_wholePart shows
  obtain ⟨negative, mantissa, exponent, rfl, -, rfl⟩ := shows
  rw [wholePart_signed] at exact ⊢
  change Shows (ofRatio negative ((ratio mantissa exponent).1 / (ratio mantissa exponent).2) 1) _
  generalize (ratio mantissa exponent).1 / (ratio mantissa exponent).2 = quotient at exact ⊢
  have same : (quotient : ℚ) / (1 : Nat) = quotient := by rw [Nat.cast_one, div_one]
  have size : |(((if negative then -(quotient : Int) else quotient) : Int) : ℚ)| =
      (quotient : ℚ) / (1 : Nat) := by
    rw [same]
    cases negative <;> simp
  rw [size] at exact
  have shown := ofRatio_exact negative Nat.one_pos exact
  convert shown using 1
  rw [same]
  cases negative <;> simp [signed]

theorem saturated_eq {number : Binary64} {value : ℚ} (shows : Shows number value) (low high : Int) :
    number.saturated low high = max low (min high (wholePart value)) := by
  obtain ⟨negative, mantissa, exponent, rfl, -, rfl⟩ := shows
  rw [wholePart_signed]
  rfl

theorem representable_sub_wholePart {number : Binary64} {value : ℚ} (shows : Shows number value) :
    Representable |value - wholePart value| := by
  obtain ⟨negative, mantissa, exponent, rfl, finite, rfl⟩ := shows
  have den_pos := ratio_den_pos mantissa exponent
  have den_cast : ((ratio mantissa exponent).2 : ℚ) ≠ 0 := by exact_mod_cast den_pos.ne'
  -- the remainder of the parts of the size, in units of the denominator
  have rest : |signed negative (magnitude mantissa exponent)
      - wholePart (signed negative (magnitude mantissa exponent))| =
        ((ratio mantissa exponent).1 % (ratio mantissa exponent).2 : Nat)
          / (ratio mantissa exponent).2 := by
    have split : ((ratio mantissa exponent).1 : ℚ) =
        (ratio mantissa exponent).2 * ((ratio mantissa exponent).1 / (ratio mantissa exponent).2 : Nat)
          + ((ratio mantissa exponent).1 % (ratio mantissa exponent).2 : Nat) := by
      exact_mod_cast (Nat.div_add_mod _ _).symm
    have size : magnitude mantissa exponent -
        ((ratio mantissa exponent).1 / (ratio mantissa exponent).2 : Nat) =
          ((ratio mantissa exponent).1 % (ratio mantissa exponent).2 : Nat)
            / (ratio mantissa exponent).2 := by
      rw [← ratio_eq_magnitude, eq_div_iff den_cast, sub_mul, div_mul_cancel₀ _ den_cast, split]
      ring
    have positive : 0 ≤ magnitude mantissa exponent -
        ((ratio mantissa exponent).1 / (ratio mantissa exponent).2 : Nat) := by
      rw [size]
      positivity
    rw [wholePart_signed, ← size]
    refine (congrArg abs ?_).trans (abs_signed negative positive)
    generalize (ratio mantissa exponent).1 / (ratio mantissa exponent).2 = quotient
    cases negative with
    | false => simp [signed]
    | true =>
      simp only [signed, if_true, Int.cast_neg, Int.cast_natCast]
      ring
  rw [rest]
  by_cases up : 0 ≤ exponent
  · have one : (ratio mantissa exponent).2 = 1 := by rw [ratio, if_pos up]
    rw [one, Nat.mod_one, Nat.cast_zero, zero_div]
    exact representable_zero
  · obtain ⟨small, least, most⟩ := finite
    have parts : ratio mantissa exponent = (mantissa, 2 ^ (-exponent).toNat) := by
      rw [ratio, if_neg up, Nat.pow_eq]
    refine ⟨mantissa % 2 ^ (-exponent).toNat, exponent,
      ⟨(Nat.mod_le _ _).trans_lt small, least, most⟩, ?_⟩
    have unit : (2 : ℚ) ^ exponent = ((2 ^ (-exponent).toNat : Nat) : ℚ)⁻¹ := by
      rw [Nat.cast_pow, Nat.cast_ofNat, ← zpow_natCast, ← zpow_neg]
      congr 1
      omega
    rw [parts, magnitude, unit, div_eq_mul_inv]

end LogCensus.Binary64
