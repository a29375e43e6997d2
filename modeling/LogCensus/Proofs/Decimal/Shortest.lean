import LogCensus.Decimal.Shortest
import LogCensus.Proofs.Decimal.Rounding
import LogCensus.Proofs.Text.Numeral

/-!
The shortest decimal lies in the neighbourhood of its number. The search ends: on the seventeenth
grid below the first digit the steps are finer than the neighbourhood.
-/

namespace LogCensus.Binary64

/-! ### Grids -/

/-- A step of the grid `10 ^ power`, and the unit `2 ^ (exponent - 2)` of the neighbourhood, both
scaled to whole numbers. -/
def gridStep (exponent power : Int) : Nat := 10 ^ power.toNat * 2 ^ (2 - exponent).toNat

def gridUnit (exponent power : Int) : Nat := 10 ^ (-power).toNat * 2 ^ (exponent - 2).toNat

theorem gridStep_pos (exponent power : Int) : 0 < gridStep exponent power := by
  unfold gridStep
  positivity

theorem gridUnit_pos (exponent power : Int) : 0 < gridUnit exponent power := by
  unfold gridUnit
  positivity

theorem flip_exponent (exponent : Int) : -(exponent - 2) = 2 - exponent := by omega

theorem holds_of_onGrid? {area : Neighbourhood} {exponent power : Int} {digits : Nat}
    (found : onGrid? area exponent power = some digits) :
    area.holds (digits * gridStep exponent power) (gridUnit exponent power) = true := by
  unfold gridStep gridUnit
  simp only [onGrid?, flip_exponent, Nat.pow_eq] at found
  split_ifs at found with both near below above
  · cases found
    exact (Bool.and_eq_true _ _ ▸ both).1
  · cases found
    exact (Bool.and_eq_true _ _ ▸ both).2
  · cases found
    exact below
  · cases found
    exact above

/-- On a grid with steps no greater than the unit the search succeeds. -/
theorem onGrid?_isSome {area : Neighbourhood} {exponent power : Int}
    (below_middle : area.low < area.middle) (above_middle : area.middle < area.high)
    (fine : gridStep exponent power ≤ gridUnit exponent power) :
    ∃ digits, onGrid? area exponent power = some digits := by
  have positive := gridStep_pos exponent power
  unfold gridStep at fine positive
  unfold gridUnit at fine
  have within : area.holds
      (area.middle * (10 ^ (-power).toNat * 2 ^ (exponent - 2).toNat)
          / (10 ^ power.toNat * 2 ^ (2 - exponent).toNat)
        * (10 ^ power.toNat * 2 ^ (2 - exponent).toNat))
      (10 ^ (-power).toNat * 2 ^ (exponent - 2).toNat) = true := by
    generalize 10 ^ power.toNat * 2 ^ (2 - exponent).toNat = step at fine positive
    generalize 10 ^ (-power).toNat * 2 ^ (exponent - 2).toNat = unit at fine
    have most : area.middle * unit / step * step ≤ area.middle * unit := Nat.div_mul_le_self _ _
    have least : area.middle * unit < area.middle * unit / step * step + step :=
      Nat.lt_div_mul_add positive
    have low : area.low * unit + unit ≤ area.middle * unit := by
      rw [← Nat.succ_mul]
      exact Nat.mul_le_mul_right unit below_middle
    have high : area.middle * unit + unit ≤ area.high * unit := by
      rw [← Nat.succ_mul]
      exact Nat.mul_le_mul_right unit above_middle
    unfold Neighbourhood.holds
    split
    · simp only [Bool.and_eq_true, decide_eq_true_eq]
      omega
    · simp only [Bool.and_eq_true, decide_eq_true_eq]
      omega
  simp only [onGrid?, flip_exponent, Nat.pow_eq, within, Bool.true_and, if_true]
  split_ifs <;> exact ⟨_, rfl⟩

theorem zpow_eq_div {base : ℚ} (some : base ≠ 0) (exponent : Int) :
    base ^ exponent = base ^ exponent.toNat / base ^ (-exponent).toNat := by
  rw [eq_div_iff (pow_ne_zero _ some), ← zpow_natCast, ← zpow_natCast, ← zpow_add₀ some]
  congr 1
  omega

theorem gridStep_div_gridUnit (exponent power : Int) :
    (gridStep exponent power : ℚ) / gridUnit exponent power = 10 ^ power / 2 ^ (exponent - 2) := by
  rw [gridStep, gridUnit, zpow_eq_div (by norm_num : (10 : ℚ) ≠ 0),
    zpow_eq_div (two_ne_zero : (2 : ℚ) ≠ 0), flip_exponent]
  push_cast
  field_simp

/-! ### The first digit -/

theorem ratio_eq_magnitude (mantissa : Nat) (exponent : Int) :
    ((ratio mantissa exponent).1 : ℚ) / (ratio mantissa exponent).2 = magnitude mantissa exponent := by
  unfold ratio magnitude
  split_ifs with up
  · obtain ⟨size, rfl⟩ := Int.eq_ofNat_of_zero_le up
    rw [Int.toNat_natCast, zpow_natCast, Nat.pow_eq]
    push_cast
    rw [div_one]
  · obtain ⟨size, rfl⟩ := Int.exists_eq_neg_ofNat (not_le.1 up).le
    rw [neg_neg, Int.toNat_natCast, zpow_neg, zpow_natCast, Nat.pow_eq, ← div_eq_mul_inv]
    push_cast
    rfl

theorem pow_decimalMagnitude_le {num den : Nat} (positive : 0 < num) (den_pos : 0 < den) :
    (10 : ℚ) ^ decimalMagnitude num den ≤ num / den := by
  have den_cast : (0 : ℚ) < den := by exact_mod_cast den_pos
  rw [le_div_iff₀ den_cast]
  unfold decimalMagnitude
  split
  · next large =>
    have counted := Text.digitCount_pos (num / den)
    have low := Text.pow_digitCount_le (Nat.div_pos large den_pos)
    obtain ⟨less, less_eq⟩ := Nat.exists_eq_succ_of_ne_zero counted.ne'
    rw [less_eq] at low ⊢
    rw [Nat.succ_eq_add_one, Nat.cast_add_one, add_sub_cancel_right, zpow_natCast]
    rw [Nat.succ_sub_one, Nat.le_div_iff_mul_le den_pos] at low
    exact_mod_cast low
  · have negated : ∀ shift : Nat, den ≤ num * 10 ^ shift →
        (10 : ℚ) ^ (-(shift : Int)) * den ≤ num := by
      intro shift enough
      rw [zpow_neg, zpow_natCast, inv_mul_le_iff₀ (by positivity), mul_comm]
      exact_mod_cast enough
    generalize (den.log2 - num.log2) * 3 / 10 = guess
    simp only [Nat.pow_eq]
    split
    · next enough => exact negated _ enough
    · -- the digits of the quotient bound what the guess leaves
      apply negated
      have scaled_pos : 0 < num * 10 ^ guess := Nat.mul_pos positive (Nat.pow_pos (by decide))
      have counted := Text.digitCount_pos (den / (num * 10 ^ guess))
      have bound := Text.lt_pow_digitCount (den / (num * 10 ^ guess))
      rw [Nat.div_lt_iff_lt_mul scaled_pos] at bound
      generalize Text.digitCount (den / (num * 10 ^ guess)) = count at counted bound
      rw [show guess + count - 1 + 1 = count + guess by omega, pow_add, Nat.mul_left_comm]
      exact bound.le

/-! ### The search -/

theorem holds_shortestFrom {area : Neighbourhood} {exponent power : Int} {tries : Nat} (steps : Nat)
    (reach : steps < tries) (found : ∃ digits, onGrid? area exponent (power - steps) = some digits) :
    area.holds ((shortestFrom area exponent tries power).digits
        * gridStep exponent (shortestFrom area exponent tries power).power)
      (gridUnit exponent (shortestFrom area exponent tries power).power) = true := by
  induction tries generalizing power steps with
  | zero => cases reach
  | succ tries ih =>
    rw [shortestFrom]
    cases here : onGrid? area exponent power with
    | some digits => exact holds_of_onGrid? here
    | none =>
      cases steps with
      | zero =>
        obtain ⟨digits, found⟩ := found
        rw [Nat.cast_zero, sub_zero, here] at found
        cases found
      | succ steps =>
        apply ih steps (Nat.lt_of_succ_lt_succ reach)
        rwa [show power - 1 - (steps : Int) = power - (steps + 1 : Nat) by omega]

/-- Seventeen places behind the first digit a step is finer than a quarter of the last binary
digit. -/
theorem gridStep_le_gridUnit {mantissa : Nat} {exponent power : Int}
    (small : mantissa < 2 * hiddenBit)
    (first : (10 : ℚ) ^ power ≤ magnitude mantissa exponent) :
    gridStep exponent (power - 17) ≤ gridUnit exponent (power - 17) := by
  have unit_pos : (0 : ℚ) < gridUnit exponent (power - 17) := by
    exact_mod_cast gridUnit_pos exponent (power - 17)
  have cast_small : (mantissa : ℚ) ≤ 2 ^ 53 := by
    have bound : mantissa ≤ 2 ^ 53 := by rw [hiddenBit] at small; omega
    exact_mod_cast bound
  have two_pos : (0 : ℚ) < 2 ^ exponent := by positivity
  have fine : (gridStep exponent (power - 17) : ℚ) / gridUnit exponent (power - 17) ≤ 1 := by
    rw [gridStep_div_gridUnit, div_le_one (by positivity)]
    calc (10 : ℚ) ^ (power - 17) = 10 ^ power / 10 ^ 17 := by
          rw [zpow_sub₀ (by norm_num)]
          rfl
      _ ≤ 2 ^ 53 * 2 ^ exponent / 10 ^ 17 := by
          rw [magnitude] at first
          gcongr
          exact first.trans (by gcongr)
      _ ≤ 2 ^ exponent / 2 ^ 2 := by
          rw [div_le_div_iff₀ (by positivity) (by positivity)]
          linarith
      _ = 2 ^ (exponent - 2) := by
          rw [zpow_sub₀ two_ne_zero]
          rfl
  rw [div_le_one unit_pos] at fine
  exact_mod_cast fine

theorem holds_le {area : Neighbourhood} {value den : Nat} (inside : area.holds value den = true) :
    area.low * den ≤ value ∧ value ≤ area.high * den := by
  unfold Neighbourhood.holds at inside
  split at inside <;> simp only [Bool.and_eq_true, decide_eq_true_eq] at inside <;> omega

/-! ### Trailing zeros -/

theorem withoutTrailingZeros_spec (tries : Nat) (decimal : Decimal) (some : 0 < decimal.digits) :
    0 < (withoutTrailingZeros tries decimal).digits ∧
      ((withoutTrailingZeros tries decimal).digits : ℚ)
          * 10 ^ (withoutTrailingZeros tries decimal).power =
        decimal.digits * 10 ^ decimal.power := by
  induction tries generalizing decimal with
  | zero => exact ⟨some, rfl⟩
  | succ tries ih =>
    rw [withoutTrailingZeros]
    split_ifs with zero
    · have shorter : 0 < decimal.digits / 10 := by omega
      obtain ⟨positive, same⟩ := ih ⟨decimal.digits / 10, decimal.power + 1⟩ shorter
      refine ⟨positive, same.trans ?_⟩
      have whole : decimal.digits / 10 * 10 = decimal.digits := by omega
      rw [zpow_add_one₀ (by norm_num), mul_comm (10 ^ decimal.power), ← mul_assoc]
      exact_mod_cast congrArg (fun digits : Nat => (digits : ℚ) * 10 ^ decimal.power) whole
    · exact ⟨some, rfl⟩

theorem ratio_pos {mantissa : Nat} (positive : 0 < mantissa) (exponent : Int) :
    0 < (ratio mantissa exponent).1 ∧ 0 < (ratio mantissa exponent).2 := by
  unfold ratio
  split_ifs
  · exact ⟨Nat.mul_pos positive (Nat.pow_pos (by decide)), Nat.one_pos⟩
  · exact ⟨positive, Nat.pow_pos (by decide)⟩

theorem neighbourhood_bounds {mantissa : Nat} (positive : 0 < mantissa) (exponent : Int) :
    0 < (neighbourhood mantissa exponent).low ∧
      (neighbourhood mantissa exponent).low < (neighbourhood mantissa exponent).middle ∧
      (neighbourhood mantissa exponent).middle < (neighbourhood mantissa exponent).high := by
  simp only [neighbourhood]
  split_ifs <;> omega

/-- The shortest decimal lies in the neighbourhood, counted in parts of its unit. -/
theorem shortest_inside {mantissa : Nat} (positive : 0 < mantissa)
    (small : mantissa < 2 * hiddenBit) (exponent : Int) :
    0 < (shortest mantissa exponent).digits ∧ ∃ value den : Nat, 0 < den ∧
      (neighbourhood mantissa exponent).holds value den = true ∧
      ((shortest mantissa exponent).digits : ℚ) * 10 ^ (shortest mantissa exponent).power =
        value / den * 2 ^ (exponent - 2) := by
  obtain ⟨num_pos, den_pos⟩ := ratio_pos positive exponent
  obtain ⟨low_pos, below, above⟩ := neighbourhood_bounds positive exponent
  have first := pow_decimalMagnitude_le num_pos den_pos
  rw [ratio_eq_magnitude] at first
  have reached := onGrid?_isSome below above (gridStep_le_gridUnit small first)
  have inside := holds_shortestFrom 17 (by decide : 17 < 18) reached
  unfold shortest
  simp only
  generalize shortestFrom (neighbourhood mantissa exponent) exponent 18
    (decimalMagnitude (ratio mantissa exponent).1 (ratio mantissa exponent).2) = found at inside
  have unit_pos := gridUnit_pos exponent found.power
  have some : 0 < found.digits := by
    by_contra none
    rw [Nat.eq_zero_of_not_pos none, Nat.zero_mul] at inside
    exact absurd (holds_le inside).1 (Nat.not_le.2 (Nat.mul_pos low_pos unit_pos))
  obtain ⟨kept, same⟩ := withoutTrailingZeros_spec 20 found some
  refine ⟨kept, _, _, unit_pos, inside, same.trans ?_⟩
  have split := gridStep_div_gridUnit exponent found.power
  rw [eq_div_iff (by positivity)] at split
  rw [← split]
  push_cast
  ring

/-- The shortest decimal has digits, and it is at most half a unit above its number. -/
theorem shortest_spec {mantissa : Nat} (positive : 0 < mantissa)
    (small : mantissa < 2 * hiddenBit) (exponent : Int) :
    0 < (shortest mantissa exponent).digits ∧
      ((shortest mantissa exponent).digits : ℚ) * 10 ^ (shortest mantissa exponent).power ≤
        (4 * mantissa + 2) * 2 ^ (exponent - 2) := by
  obtain ⟨some, value, den, den_pos, inside, same⟩ := shortest_inside positive small exponent
  have den_cast : (0 : ℚ) < den := by exact_mod_cast den_pos
  have top : (value : ℚ) ≤ (4 * mantissa + 2) * den := by
    exact_mod_cast (holds_le inside).2
  refine ⟨some, same.trans_le ?_⟩
  gcongr
  rwa [div_le_iff₀ den_cast]

/-! ### The greatest numbers -/

theorem ratio_natCast (mantissa size : Nat) : ratio mantissa size = (mantissa * 2 ^ size, 1) := by
  rw [ratio, if_pos (Int.natCast_nonneg size), Int.toNat_natCast, Nat.pow_eq]

/-- The search for a number with 309 digits in front of the point. -/
theorem shortest_of_digits {mantissa : Nat} (low : 10 ^ 308 ≤ mantissa * 2 ^ 971)
    (high : mantissa * 2 ^ 971 < 10 ^ (308 + 1)) :
    shortest mantissa 971 =
      withoutTrailingZeros 20 (shortestFrom (neighbourhood mantissa 971) 971 18 308) := by
  have some : 1 ≤ mantissa * 2 ^ 971 := Nat.one_le_of_lt ((Nat.pow_pos (by decide)).trans_le low)
  have parts : ratio mantissa 971 = (mantissa * 2 ^ 971, 1) := ratio_natCast mantissa 971
  have first : decimalMagnitude (mantissa * 2 ^ 971) 1 = 308 := by
    rw [decimalMagnitude, if_pos some, Nat.div_one, Text.digitCount_eq low high]
    rfl
  simp only [shortest, parts, first]

theorem shortest_greatest : shortest (2 * hiddenBit - 1) 971 = ⟨17976931348623157, 292⟩ :=
  (shortest_of_digits (by decide +kernel) (by decide +kernel)).trans (by decide +kernel)

theorem shortest_below_greatest : shortest (2 * hiddenBit - 2) 971 = ⟨17976931348623155, 292⟩ :=
  (shortest_of_digits (by decide +kernel) (by decide +kernel)).trans (by decide +kernel)

end LogCensus.Binary64
