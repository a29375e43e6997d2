import LogCensus.Proofs.Decimal.Numeral

/-!
Decimals in the neighbourhood of a double are read as that very double, and so is the shortest one.
This is so provided that the number is written with all the binary digits there are at its
exponent; and rounding gives no others.
-/

namespace LogCensus.Binary64

def IsCanonical : Binary64 → Prop
  | finite _ mantissa exponent => leastExponent < exponent → hiddenBit ≤ mantissa
  | _ => True

theorem isCanonical_zeroOf (negative : Bool) : (zeroOf negative).IsCanonical :=
  fun beyond => absurd beyond (lt_irrefl leastExponent)

theorem isCanonical_neg {number : Binary64} (canonical : number.IsCanonical) :
    number.neg.IsCanonical := by
  cases number <;> exact canonical

theorem isCanonical_ofRatio (negative : Bool) (num : Nat) {den : Nat} (positive : 0 < den) :
    (ofRatio negative num den).IsCanonical := by
  rcases Nat.eq_zero_or_pos num with rfl | some
  · exact isCanonical_zeroOf negative
  by_cases carry : mantissaOf num den = 2 * hiddenBit
  · rw [mantissaOf] at carry
    simp only [ofRatio, if_neg some.ne', if_pos carry]
    split_ifs
    · trivial
    · exact fun _ => le_rfl
  · have least := le_mantissaOf some positive
    rw [mantissaOf] at carry least
    simp only [ofRatio, if_neg some.ne', if_neg carry]
    split_ifs
    · trivial
    · exact least

theorem isCanonical_ofScaled (negative : Bool) (mantissa : Nat) (exponent : Int) :
    (ofScaled negative mantissa exponent).IsCanonical := by
  unfold ofScaled
  split_ifs
  · exact isCanonical_ofRatio negative _ Nat.one_pos
  · exact isCanonical_ofRatio negative _ (Nat.pow_pos (by decide))

theorem isCanonical_mul (left right : Binary64) : (left * right).IsCanonical := by
  change (mul left right).IsCanonical
  unfold mul
  split
  any_goals split_ifs
  any_goals trivial
  exact isCanonical_ofScaled _ _ _

theorem isCanonical_div (left right : Binary64) : (left / right).IsCanonical := by
  change (div left right).IsCanonical
  unfold div
  split
  any_goals trivial
  · exact isCanonical_zeroOf _
  · simp only
    split_ifs with zero
    · trivial
    · trivial
    · exact isCanonical_ofRatio _ _
        (Nat.mul_pos (Nat.pos_of_ne_zero zero) (Nat.pow_pos (by decide)))
    · exact isCanonical_ofRatio _ _ (Nat.pos_of_ne_zero zero)

/-! ### Rounding inside the neighbourhood -/

/-- A whole number is the nearest one to all that is less than a half away, and an even one to what
is a half away. -/
theorem roundHalfEven_eq {num den whole : Nat} (positive : 0 < den)
    (low : 2 * (whole * den) ≤ 2 * num + den) (high : 2 * num ≤ 2 * (whole * den) + den)
    (odd : whole % 2 = 1 → 2 * (whole * den) < 2 * num + den ∧ 2 * num < 2 * (whole * den) + den) :
    roundHalfEven num den = whole := by
  have split : den * (num / den) + num % den = num := Nat.div_add_mod num den
  have less := Nat.mod_lt num positive
  rw [Nat.mul_comm] at split
  rcases Nat.lt_trichotomy (num / den) whole with below | same | above
  · have next : num / den + 1 = whole := by
      by_contra differ
      have room : (num / den + 2) * den ≤ whole * den := Nat.mul_le_mul_right den (by omega)
      rw [Nat.add_mul] at room
      omega
    rw [← next, Nat.add_mul (num / den) 1 den, Nat.one_mul] at low high odd
    have up : den < 2 * (num % den) ∨ 2 * (num % den) = den ∧ num / den % 2 = 1 := by omega
    unfold roundHalfEven
    simp only [if_pos up]
    exact next
  · rw [← same] at low high odd ⊢
    have down : ¬ (den < 2 * (num % den) ∨ 2 * (num % den) = den ∧ num / den % 2 = 1) := by omega
    unfold roundHalfEven
    simp only [if_neg down]
  · have room : (whole + 1) * den ≤ num / den * den := Nat.mul_le_mul_right den above
    rw [Nat.add_mul] at room
    omega

/-- The same for a ratio at an exponent. -/
theorem mantissaOf_eq {num den whole : Nat} {exponent : Int} (positive : 0 < den)
    (own : exponentOf num den = exponent)
    (low : ((whole : ℚ) - 1 / 2) * 2 ^ exponent ≤ num / den)
    (high : (num : ℚ) / den ≤ (whole + 1 / 2) * 2 ^ exponent)
    (odd : whole % 2 = 1 → ((whole : ℚ) - 1 / 2) * 2 ^ exponent < num / den ∧
      (num : ℚ) / den < (whole + 1 / 2) * 2 ^ exponent) :
    mantissaOf num den = whole := by
  have den_pos := scaled_den_pos num positive exponent
  have den_cast : (0 : ℚ) < (scaled num den exponent).2 := by exact_mod_cast den_pos
  have unit : (0 : ℚ) < 2 ^ exponent := by positivity
  rw [← le_div_iff₀ unit, ← scaled_ratio, le_div_iff₀ den_cast] at low
  rw [← div_le_iff₀ unit, ← scaled_ratio, div_le_iff₀ den_cast] at high
  rw [← lt_div_iff₀ unit, ← div_lt_iff₀ unit, ← scaled_ratio, lt_div_iff₀ den_cast,
    div_lt_iff₀ den_cast] at odd
  rw [mantissaOf, own]
  generalize (scaled num den exponent).1 = top at *
  generalize (scaled num den exponent).2 = bottom at *
  refine roundHalfEven_eq den_pos ?_ ?_ fun parity => ?_
  · have cast : (2 : ℚ) * (whole * bottom) ≤ 2 * top + bottom := by linarith
    exact_mod_cast cast
  · have cast : (2 : ℚ) * top ≤ 2 * (whole * bottom) + bottom := by linarith
    exact_mod_cast cast
  · obtain ⟨below, above⟩ := odd parity
    have cast : (2 : ℚ) * (whole * bottom) < 2 * top + bottom ∧
        (2 : ℚ) * top < 2 * (whole * bottom) + bottom := by
      constructor <;> linarith
    exact_mod_cast cast

/-- The exponent of a ratio is the one at which it has 53 binary digits. -/
theorem exponentOf_eq {num den : Nat} {exponent : Int} (some : 0 < num) (positive : 0 < den)
    (least : leastExponent ≤ exponent) (high : (num : ℚ) / den < 2 ^ (53 : Int) * 2 ^ exponent)
    (low : leastExponent < exponent → (2 : ℚ) ^ (52 : Int) * 2 ^ exponent ≤ num / den) :
    exponentOf num den = exponent := by
  obtain ⟨most, full⟩ := exponentOf_spec some positive
  rw [div_lt_iff₀ (by positivity)] at most
  have scale : ∀ one other : Int, one < other →
      (2 : ℚ) ^ (53 : Int) * 2 ^ one ≤ 2 ^ (52 : Int) * 2 ^ other := by
    intro one other less
    rw [← zpow_add₀ two_ne_zero, ← zpow_add₀ two_ne_zero]
    exact zpow_le_zpow_right₀ (by norm_num) (by omega)
  rcases lt_trichotomy (exponentOf num den) exponent with below | same | above
  · have reach := low ((exponentOf_ge num den).trans_lt below)
    exact absurd (most.trans_le ((scale _ _ below).trans reach)) (lt_irrefl _)
  · exact same
  · have reach := full (least.trans_lt above)
    rw [le_div_iff₀ (by positivity)] at reach
    exact absurd (high.trans_le ((scale _ _ above).trans reach)) (lt_irrefl _)

/-- The reals that round to a number, half a unit to either side; below a power of two a quarter. -/
structure Rounds (mantissa : Nat) (exponent : Int) (real : ℚ) : Prop where
  low : ((mantissa : ℚ) - 1 / 2) * 2 ^ exponent ≤ real
  high : real ≤ (mantissa + 1 / 2) * 2 ^ exponent
  odd : mantissa % 2 = 1 → ((mantissa : ℚ) - 1 / 2) * 2 ^ exponent < real ∧
    real < (mantissa + 1 / 2) * 2 ^ exponent
  power : mantissa = hiddenBit → leastExponent < exponent →
    ((mantissa : ℚ) - 1 / 4) * 2 ^ exponent ≤ real

theorem rounds_of_holds {mantissa value den : Nat} {exponent : Int} (den_pos : 0 < den)
    (inside : (neighbourhood mantissa exponent).holds value den = true) :
    Rounds mantissa exponent (value / den * 2 ^ (exponent - 2)) := by
  have den_cast : (0 : ℚ) < den := by exact_mod_cast den_pos
  have unit : (0 : ℚ) < 2 ^ (exponent - 2) := by positivity
  have scale : ∀ part : ℚ, part * 2 ^ exponent = 4 * part * 2 ^ (exponent - 2) := by
    intro part
    have quarter : (2 : ℚ) ^ exponent = 2 ^ (exponent - 2) * 2 ^ (2 : Int) := by
      rw [← zpow_add₀ two_ne_zero, sub_add_cancel]
    rw [quarter]
    norm_num
    ring
  obtain ⟨least, most⟩ := holds_le inside
  have strict : mantissa % 2 = 1 → (neighbourhood mantissa exponent).low * den < value ∧
      value < (neighbourhood mantissa exponent).high * den := by
    intro parity
    have opened : (neighbourhood mantissa exponent).closed = false := by
      simp [neighbourhood, parity]
    simp only [Neighbourhood.holds, opened, Bool.false_eq_true, if_false, Bool.and_eq_true,
      decide_eq_true_eq] at inside
    exact inside
  have ends : 4 * mantissa ≤ (neighbourhood mantissa exponent).low + 2 := by
    simp only [neighbourhood]
    split_ifs <;> omega
  have low_cast : 4 * (mantissa : ℚ) - 2 ≤ (neighbourhood mantissa exponent).low := by
    rw [sub_le_iff_le_add]
    exact_mod_cast ends
  have high_cast : ((neighbourhood mantissa exponent).high : ℚ) = 4 * mantissa + 2 := by
    simp [neighbourhood]
  have least_cast : ((neighbourhood mantissa exponent).low : ℚ) ≤ value / den := by
    rw [le_div_iff₀ den_cast]
    exact_mod_cast least
  have most_cast : (value : ℚ) / den ≤ (neighbourhood mantissa exponent).high := by
    rw [div_le_iff₀ den_cast]
    exact_mod_cast most
  refine ⟨?_, ?_, fun parity => ?_, fun first beyond => ?_⟩
  · rw [scale]
    exact mul_le_mul_of_nonneg_right (by linarith) unit.le
  · rw [scale]
    exact mul_le_mul_of_nonneg_right (by linarith) unit.le
  · obtain ⟨below, above⟩ := strict parity
    have below_cast : ((neighbourhood mantissa exponent).low : ℚ) < value / den := by
      rw [lt_div_iff₀ den_cast]
      exact_mod_cast below
    have above_cast : (value : ℚ) / den < (neighbourhood mantissa exponent).high := by
      rw [div_lt_iff₀ den_cast]
      exact_mod_cast above
    rw [scale, scale]
    exact ⟨mul_lt_mul_of_pos_right (by linarith) unit, mul_lt_mul_of_pos_right (by linarith) unit⟩
  · have near : 4 * mantissa ≤ (neighbourhood mantissa exponent).low + 1 := by
      simp only [neighbourhood, if_pos (And.intro first beyond)]
      omega
    have near_cast : 4 * (mantissa : ℚ) - 1 ≤ (neighbourhood mantissa exponent).low := by
      rw [sub_le_iff_le_add]
      exact_mod_cast near
    rw [scale]
    exact mul_le_mul_of_nonneg_right (by linarith) unit.le

/-- Below a power of two the unit is half as wide, and what rounds to the power carries over. -/
theorem Rounds.carries {num den mantissa : Nat} {exponent : Int} (some : 0 < num) (positive : 0 < den)
    (rounds : Rounds mantissa exponent (num / den)) (beyond : leastExponent < exponent)
    (canonical : hiddenBit ≤ mantissa) (less : (num : ℚ) / den < 2 ^ (52 : Int) * 2 ^ exponent) :
    mantissa = hiddenBit ∧ exponentOf num den = exponent - 1 ∧ mantissaOf num den = 2 * hiddenBit := by
  have unit : (0 : ℚ) < 2 ^ exponent := by positivity
  have bit : (hiddenBit : ℚ) = 2 ^ 52 := by norm_num [hiddenBit]
  have first : mantissa = hiddenBit := by
    have low := rounds.low.trans_lt less
    rw [mul_lt_mul_iff_left₀ unit,
      show (2 : ℚ) ^ (52 : Int) = hiddenBit by norm_num [hiddenBit]] at low
    have cast : (mantissa : ℚ) < hiddenBit + 1 := by linarith
    have most_digits : mantissa < hiddenBit + 1 := by exact_mod_cast cast
    exact le_antisymm (Nat.le_of_lt_succ most_digits) canonical
  have near := rounds.power first beyond
  have half : (2 : ℚ) ^ exponent = 2 * 2 ^ (exponent - 1) := by
    rw [← zpow_one_add₀ two_ne_zero]
    congr 1
    omega
  have half_unit : (0 : ℚ) < 2 ^ (exponent - 1) := by positivity
  rw [first, bit, half] at near
  rw [half] at less
  norm_num at near less
  have own : exponentOf num den = exponent - 1 := by
    refine exponentOf_eq some positive (by omega) ?_ fun _ => ?_
    · norm_num
      linarith
    · norm_num
      linarith
  refine ⟨first, own, mantissaOf_eq positive own ?_ ?_ fun parity => absurd parity (by decide)⟩
  · rw [Nat.cast_mul, bit]
    norm_num
    linarith
  · rw [Nat.cast_mul, bit]
    norm_num
    linarith

theorem ofRatio_of_rounds (negative : Bool) {num den mantissa : Nat} {exponent : Int}
    (some : 0 < num) (positive : 0 < den) (rounds : Rounds mantissa exponent (num / den))
    (finite : (Binary64.finite negative mantissa exponent).IsFinite)
    (canonical : (Binary64.finite negative mantissa exponent).IsCanonical) :
    ofRatio negative num den = .finite negative mantissa exponent := by
  obtain ⟨small, least, most⟩ := finite
  have unit : (0 : ℚ) < 2 ^ exponent := by positivity
  have mantissa_le : (mantissa : ℚ) ≤ 2 ^ 53 - 1 := by
    rw [le_sub_iff_add_le]
    exact_mod_cast (show mantissa + 1 ≤ 2 ^ 53 by rw [hiddenBit] at small; omega)
  by_cases full : leastExponent < exponent → (2 : ℚ) ^ (52 : Int) * 2 ^ exponent ≤ num / den
  · have own : exponentOf num den = exponent := by
      refine exponentOf_eq some positive least (rounds.high.trans_lt ?_) full
      rw [mul_lt_mul_iff_left₀ unit]
      norm_num only [zpow_ofNat]
      linarith
    have whole := mantissaOf_eq positive own rounds.low rounds.high rounds.odd
    have fits := ofRatio_of_fits negative some (whole.trans_lt small) (own.trans_le most)
    rwa [whole, own] at fits
  · rw [Classical.not_imp, not_le] at full
    obtain ⟨beyond, less⟩ := full
    obtain ⟨first, own, carry⟩ := rounds.carries some positive beyond (canonical beyond) less
    rw [mantissaOf, own] at carry
    simp only [ofRatio, if_neg some.ne', own, if_pos carry, sub_add_cancel, if_neg (not_lt.2 most),
      first]

/-! ### Decimals that a double can show -/

theorem greatest_lt_pow : (2 : ℚ) ^ 53 * 2 ^ (971 : Int) < 10 ^ (311 : Int) := by
  have powers : 2 ^ 53 * 2 ^ 971 < 10 ^ 311 := by decide +kernel
  rw [show (971 : Int) = (971 : Nat) from rfl, show (311 : Int) = (311 : Nat) from rfl,
    zpow_natCast, zpow_natCast]
  exact_mod_cast powers

theorem pow_lt_least : (10 : ℚ) ^ (-330 : Int) < 1 / 2 * 2 ^ (-1074 : Int) := by
  have powers : 2 ^ 1075 < 10 ^ 330 := by decide +kernel
  have cast : (2 : ℚ) ^ 1075 < 10 ^ 330 := by exact_mod_cast powers
  rw [show (-1074 : Int) = 1 + -1075 from rfl, zpow_add₀ two_ne_zero, zpow_one, ← mul_assoc,
    one_div_mul_cancel two_ne_zero, one_mul, zpow_neg, zpow_neg,
    show (330 : Int) = (330 : Nat) from rfl, show (1075 : Int) = (1075 : Nat) from rfl,
    zpow_natCast, zpow_natCast]
  exact inv_strictAnti₀ (by positivity) cast

theorem Representable.lt_pow {size : ℚ} (exact : Representable size) : size < 10 ^ (311 : Int) := by
  obtain ⟨mantissa, exponent, ⟨small, -, most⟩, rfl⟩ := exact
  have unit : (2 : ℚ) ^ exponent ≤ 2 ^ (971 : Int) := zpow_le_zpow_right₀ (by norm_num) most
  have digits : (mantissa : ℚ) ≤ 2 ^ 53 := by
    exact_mod_cast (show mantissa ≤ 2 ^ 53 by rw [hiddenBit] at small; omega)
  refine lt_of_le_of_lt ?_ greatest_lt_pow
  rw [magnitude]
  gcongr

theorem Representable.pow_lt {size : ℚ} (exact : Representable size) (some : 0 < size) :
    10 ^ (-330 : Int) < size := by
  obtain ⟨mantissa, exponent, ⟨-, least, -⟩, rfl⟩ := exact
  have unit : (2 : ℚ) ^ (-1074 : Int) ≤ 2 ^ exponent := zpow_le_zpow_right₀ (by norm_num) least
  have digits : (1 : ℚ) ≤ mantissa := by
    rcases Nat.eq_zero_or_pos mantissa with rfl | positive
    · rw [magnitude_zero] at some
      exact absurd some (lt_irrefl 0)
    · exact_mod_cast positive
  refine pow_lt_least.trans_le ?_
  rw [magnitude]
  gcongr
  linarith

/-- A decimal that a double can show is read as a double of its value. -/
theorem ofDecimal_exact (negative : Bool) {count : Nat} {power : Int}
    (exact : Representable (count * 10 ^ power)) :
    Shows (ofDecimal negative count power) (signed negative (count * 10 ^ power)) := by
  rcases Nat.eq_zero_or_pos count with rfl | some
  · rw [ofDecimal_zero, Nat.cast_zero, zero_mul, signed_zero]
    exact shows_zeroOf negative
  have positive : (0 : ℚ) < count * 10 ^ power := by positivity
  rcases ofDecimal_cases some power negative with
    ⟨-, large⟩ | ⟨-, tiny⟩ | ⟨num, den, -, den_pos, ratio, read⟩
  · exact absurd exact.lt_pow (not_lt.2 large)
  · exact absurd (exact.pow_lt positive) (not_lt.2 tiny.le)
  · rw [read, ← ratio]
    exact ofRatio_exact negative den_pos (ratio.symm ▸ exact)

/-! ### Decimals inside the neighbourhood -/

theorem rounds_shortest {mantissa : Nat} (some : 0 < mantissa) (small : mantissa < 2 * hiddenBit)
    (exponent : Int) :
    Rounds mantissa exponent
      ((shortest mantissa exponent).digits * 10 ^ (shortest mantissa exponent).power) := by
  obtain ⟨-, value, den, den_pos, inside, same⟩ := shortest_inside some small exponent
  rw [same]
  exact rounds_of_holds den_pos inside

/-- A decimal that rounds to a number is read as that number. -/
theorem ofDecimal_of_rounds (negative : Bool) {count mantissa : Nat} {power exponent : Int}
    (some : 0 < mantissa) (rounds : Rounds mantissa exponent (count * 10 ^ power))
    (finite : (Binary64.finite negative mantissa exponent).IsFinite)
    (canonical : (Binary64.finite negative mantissa exponent).IsCanonical) :
    ofDecimal negative count power = .finite negative mantissa exponent := by
  obtain ⟨small, least, most⟩ := id finite
  have mantissa_le : (mantissa : ℚ) ≤ 2 ^ 53 - 1 := by
    rw [le_sub_iff_add_le]
    exact_mod_cast (show mantissa + 1 ≤ 2 ^ 53 by rw [hiddenBit] at small; omega)
  have mantissa_ge : (1 : ℚ) ≤ mantissa := by exact_mod_cast some
  have digits : 0 < count := by
    by_contra none
    have low := rounds.low
    rw [Nat.eq_zero_of_not_pos none, Nat.cast_zero, zero_mul] at low
    have positive : (0 : ℚ) < (mantissa - 1 / 2) * 2 ^ exponent :=
      mul_pos (by linarith) (by positivity)
    exact absurd low (not_le.2 positive)
  rcases ofDecimal_cases digits power negative with
    ⟨-, large⟩ | ⟨-, tiny⟩ | ⟨num, bottom, num_pos, bottom_pos, ratio, read⟩
  · -- no double is that great
    have unit : (2 : ℚ) ^ exponent ≤ 2 ^ (971 : Int) := zpow_le_zpow_right₀ (by norm_num) most
    have below : ((mantissa : ℚ) + 1 / 2) * 2 ^ exponent ≤ 2 ^ 53 * 2 ^ (971 : Int) := by
      gcongr
      linarith
    exact absurd (large.trans (rounds.high.trans below)) (not_le.2 greatest_lt_pow)
  · -- nor is one that small
    have unit : (2 : ℚ) ^ (-1074 : Int) ≤ 2 ^ exponent := zpow_le_zpow_right₀ (by norm_num) least
    have above : 1 / 2 * (2 : ℚ) ^ (-1074 : Int) ≤ ((mantissa : ℚ) - 1 / 2) * 2 ^ exponent :=
      mul_le_mul (by linarith) unit (by positivity) (by linarith)
    exact absurd ((above.trans rounds.low).trans_lt tiny) (not_lt.2 pow_lt_least.le)
  · rw [read]
    exact ofRatio_of_rounds negative num_pos bottom_pos (ratio ▸ rounds) finite canonical

end LogCensus.Binary64
