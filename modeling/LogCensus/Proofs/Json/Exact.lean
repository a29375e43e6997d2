import LogCensus.Proofs.Decimal.ReadBack
import LogCensus.Proofs.Json.Members

/-!
Numbers of JSON texts as the rationals they say. The text of a double reads as that very double, and
a numeral whose digits fit a word is read without rounding, provided that doubles can show its
digits and its value.
-/

namespace LogCensus.Json

open Binary64 (Representable Scale ofDecimal ofNumeral? scalePower shortest)
open Text (digitsValue isMinus signText)

/-! ### Numerals and what they say -/

namespace Numeral

def count (numeral : Numeral) : Nat := digitsValue (numeral.whole ++ numeral.places.getD [])

def scaleOf (part : Option (Bool × List Char)) : Int :=
  part.elim 0 fun part => if part.1 then -(digitsValue part.2 : Int) else digitsValue part.2

def power (numeral : Numeral) : Int :=
  scaleOf numeral.scale - ((numeral.places.getD []).length : Int)

def size (numeral : Numeral) : ℚ := numeral.count * 10 ^ numeral.power

theorem ofNumeral?_signed {numeral : Numeral} (formed : numeral.WellFormed) (minus : Bool) :
    ofNumeral? ((if minus then ['-'] else []) ++ numeral.text) =
      some (ofDecimal minus numeral.count numeral.power) := by
  obtain ⟨sign, sign_text, sign_minus⟩ : ∃ sign, signText sign = (if minus then ['-'] else []) ∧
      isMinus sign = minus := by
    cases minus
    · exact ⟨none, rfl, rfl⟩
    · exact ⟨some true, rfl, rfl⟩
  obtain ⟨scale, scale_text, scale_power⟩ : ∃ scale,
      Binary64.scaleText scale = scaleText numeral.scale ∧
        scalePower scale = scaleOf numeral.scale := by
    rcases shown : numeral.scale with _ | ⟨down, digits⟩
    · exact ⟨none, rfl, rfl⟩
    · refine ⟨some ⟨'e', some down, digits, .inl rfl, formed.scale _ shown⟩, ?_, ?_⟩
      · cases down <;> rfl
      · cases down <;> rfl
  obtain ⟨some, all⟩ := formed.whole.digits
  have read := Binary64.ofNumeral?_text ⟨sign, numeral.whole, numeral.places, scale, all,
    fun digits member => (formed.places digits member).2, by simp [some]⟩
  rw [Binary64.Numeral.text, Binary64.Numeral.body, Binary64.Numeral.power, sign_text, sign_minus,
    scale_text, scale_power, ← List.append_assoc numeral.whole] at read
  exact read

end Numeral

theorem digitsValue_replicate (count : Nat) : digitsValue (List.replicate count '0') = 0 := by
  induction count with
  | zero => rfl
  | succ count ih =>
    rw [List.replicate_succ, Text.digitsValue_cons, ih, show Text.digitValue '0' = 0 from rfl,
      Nat.zero_mul]

/-- All layouts of a decimal say the decimal. -/
theorem size_decimalNumeral {decimal : Binary64.Decimal} :
    (decimalNumeral decimal).size = decimal.digits * 10 ^ decimal.power := by
  have digits := Text.digitsValue_digits decimal.digits
  have some := List.length_pos_iff.2 (Text.digits_ne_nil decimal.digits)
  unfold decimalNumeral
  simp only
  split_ifs with trailing inside front
  · obtain ⟨zeros, zeros_eq⟩ := Int.eq_ofNat_of_zero_le trailing.1
    simp only [Numeral.size, Numeral.count, Numeral.power, Numeral.scaleOf, Option.getD_some,
      Option.elim_none, Text.digitsValue_append, digits, digitsValue_replicate, zeros_eq,
      Int.toNat_natCast, List.length_replicate, List.length_singleton]
    rw [show (0 : Int) - (1 : Nat) = -1 from rfl, zpow_neg_one, zpow_natCast,
      show digitsValue ['0'] = 0 from rfl]
    push_cast
    ring
  · have behind : ((List.drop ((Text.digits decimal.digits).length + decimal.power).toNat
        (Text.digits decimal.digits)).length : Int) = -decimal.power := by
      rw [List.length_drop]
      omega
    simp only [Numeral.size, Numeral.count, Numeral.power, Numeral.scaleOf, Option.getD_some,
      Option.elim_none, List.take_append_drop, digits, behind, zero_sub, neg_neg]
  · have behind : (0 : Int) - ((List.replicate
        (-((Text.digits decimal.digits).length + decimal.power)).toNat '0'
          ++ Text.digits decimal.digits).length : Nat) = decimal.power := by
      rw [List.length_append, List.length_replicate]
      omega
    simp only [Numeral.size, Numeral.count, Numeral.power, Numeral.scaleOf, Option.getD_some,
      Option.elim_none, behind, Text.digitsValue_append, digits, digitsValue_replicate,
      show digitsValue ['0'] = 0 from rfl, zero_mul, zero_add]
  · have scaled : Numeral.scaleOf (scientific (Text.digits decimal.digits)
        ((Text.digits decimal.digits).length + decimal.power - 1)).scale =
          (Text.digits decimal.digits).length + decimal.power - 1 := by
      simp only [scientific, Numeral.scaleOf, Option.elim_some, Text.digitsValue_digits,
        decide_eq_true_eq]
      omega
    have behind : ((Text.digits decimal.digits).length + decimal.power - 1 : Int)
        - ((List.drop 1 (Text.digits decimal.digits)).length : Nat) = decimal.power := by
      rw [List.length_drop]
      omega
    rw [Numeral.size, Numeral.count, Numeral.power, scaled, placesOf_scientific, behind]
    simp only [scientific, List.take_append_drop, digits]

/-! ### The text of a number -/

/-- The text of a double reads as that very double. -/
theorem ofNumeral?_real {number : Binary64} (finite : number.IsFinite)
    (canonical : number.IsCanonical) : ofNumeral? (Number.real number).text = some number := by
  cases number with
  | nan => exact finite.elim
  | infinity negative => exact finite.elim
  | finite negative mantissa exponent =>
    obtain ⟨small, least, most⟩ := id finite
    change ofNumeral? (realText negative mantissa exponent) = _
    rcases Nat.eq_zero_or_pos mantissa with rfl | some
    · have smallest : exponent = Binary64.leastExponent :=
        le_antisymm (not_lt.1 fun beyond => absurd (canonical beyond) (by decide)) least
      subst smallest
      cases negative <;> decide
    · have reads := readsFinite_shortest some small most
      have formed := (isReal_decimalNumeral reads).formed
      have rounds := Binary64.rounds_shortest some small exponent
      rw [← size_decimalNumeral] at rounds
      rw [realText_eq negative some.ne', Numeral.ofNumeral?_signed formed]
      exact congrArg Option.some (Binary64.ofDecimal_of_rounds negative some rounds finite canonical)

theorem ofNumeral?_whole (minus : Bool) (value : Nat) :
    ofNumeral? ((if minus then ['-'] else []) ++ Text.digits value) =
      some (ofDecimal minus value 0) := by
  have read := Numeral.ofNumeral?_signed (wellFormed_wholeNumeral value) minus
  rw [wholeNumeral_text] at read
  simpa [Numeral.count, Numeral.power, Numeral.scaleOf, wholeNumeral, Text.digitsValue_digits]
    using read

/-- The text of the number reads as a double of this value. -/
def Number.Tells (number : Number) (value : ℚ) : Prop :=
  ∃ double, ofNumeral? number.text = some double ∧ double.Shows value

theorem tells_real {number : Binary64} {value : ℚ} (shows : number.Shows value)
    (canonical : number.IsCanonical) : (Number.real number).Tells value := by
  refine ⟨number, ofNumeral?_real ?_ canonical, shows⟩
  obtain ⟨negative, mantissa, exponent, -, finite, -⟩ := shows
  exact finite

/-! ### Reading without rounding -/

theorem shows_withSign {number : Binary64} {size : ℚ} (shows : number.Shows size) (negative : Bool) :
    (withSign negative number).Shows (Binary64.signed negative size) := by
  cases negative with
  | false => exact shows
  | true => exact Binary64.shows_neg shows

theorem isCanonical_withSign {number : Binary64} (canonical : number.IsCanonical) (negative : Bool) :
    (withSign negative number).IsCanonical := by
  cases negative with
  | false => exact canonical
  | true => exact Binary64.isCanonical_neg canonical

theorem isZero_iff_of_shows {number : Binary64} {value : ℚ} (shows : number.Shows value) :
    number.isZero = true ↔ value = 0 := by
  obtain ⟨negative, mantissa, exponent, rfl, -, rfl⟩ := shows
  have unit : (2 : ℚ) ^ exponent ≠ 0 := by positivity
  cases negative <;> simp [Binary64.isZero, Binary64.signed, Binary64.magnitude, unit]

/-- Digits and a power of ten that doubles can show are multiplied or divided without rounding. -/
theorem realOfParts?_exact {value : Nat} {exponent : Int} (digits : Representable value)
    (near : value ≠ 0 → -22 ≤ exponent ∧ exponent ≤ 22)
    (exact : Representable (value * 10 ^ exponent)) :
    ∃ number, realOfParts? value exponent = some number ∧ number.Shows (value * 10 ^ exponent) ∧
      number.IsCanonical := by
  have shows := Binary64.shows_ofNat digits
  have zero := isZero_iff_of_shows shows
  have nonneg : (0 : ℚ) ≤ value * 10 ^ exponent := by positivity
  unfold realOfParts?
  simp only
  split_ifs with none down beyond infinite
  · have value_eq := zero.1 none
    refine ⟨_, rfl, ?_, Binary64.isCanonical_ofRatio false value Nat.one_pos⟩
    rw [value_eq, zero_mul]
    rwa [value_eq] at shows
  all_goals
    rw [zero, Nat.cast_eq_zero] at none
    obtain ⟨low, high⟩ := near none
  · obtain ⟨places, rfl⟩ := Int.exists_eq_neg_ofNat down.le
    have power := Binary64.shows_powerOfTen (show places ≤ 22 by omega)
    have quotient : (value : ℚ) * 10 ^ (-(places : Int)) = value / 10 ^ places := by
      rw [zpow_neg, zpow_natCast, div_eq_mul_inv]
    rw [quotient] at exact nonneg ⊢
    have divided := Binary64.shows_div shows power (by positivity)
      (by rwa [abs_of_nonneg nonneg])
    refine ⟨_, rfl, ?_⟩
    rw [scaleDown, if_pos (by omega), neg_neg, Int.toNat_natCast]
    exact ⟨divided, Binary64.isCanonical_div _ _⟩
  · omega
  · obtain ⟨zeros, rfl⟩ := Int.eq_ofNat_of_zero_le (not_lt.1 down)
    have power := Binary64.shows_powerOfTen (show zeros ≤ 22 by omega)
    rw [zpow_natCast] at exact nonneg
    obtain ⟨negative, mantissa, exponent, product, -⟩ :=
      Binary64.shows_mul shows power (by rwa [abs_of_nonneg nonneg])
    rw [Int.toNat_natCast, product] at infinite
    cases infinite
  · obtain ⟨zeros, rfl⟩ := Int.eq_ofNat_of_zero_le (not_lt.1 down)
    have power := Binary64.shows_powerOfTen (show zeros ≤ 22 by omega)
    rw [zpow_natCast] at exact nonneg ⊢
    refine ⟨_, rfl, ?_⟩
    rw [Int.toNat_natCast]
    exact ⟨Binary64.shows_mul shows power (by rwa [abs_of_nonneg nonneg]),
      Binary64.isCanonical_mul _ _⟩

theorem tells_wholeNumber (minus : Bool) {value : Nat} (fits : value ≤ greatestWord)
    (digits : Representable value) :
    (wholeNumber minus value).Tells (Binary64.signed minus value) := by
  have read : ∀ minus, ∃ double, ofNumeral? ((if minus then ['-'] else []) ++ Text.digits value) =
      some double ∧ double.Shows (Binary64.signed minus value) := by
    intro minus
    have exact : Representable (value * 10 ^ (0 : Int)) := by rwa [zpow_zero, mul_one]
    have shows := Binary64.ofDecimal_exact minus exact
    rw [zpow_zero, mul_one] at shows
    exact ⟨_, ofNumeral?_whole minus value, shows⟩
  cases minus with
  | false =>
    have word : value.toUInt64.toNat = value := by
      have below : value < 2 ^ 64 := Nat.lt_succ_of_le fits
      rw [Nat.toUInt64_eq, UInt64.toNat_ofNat', Nat.mod_eq_of_lt below]
    rw [wholeNumber, if_neg Bool.false_ne_true, Number.Tells, Number.text, word]
    exact read false
  | true =>
    rw [wholeNumber, if_pos rfl]
    split_ifs
    · exact tells_real (Binary64.shows_neg (Binary64.shows_ofNat digits))
        (Binary64.isCanonical_neg (Binary64.isCanonical_ofRatio false value Nat.one_pos))
    · rw [Number.Tells, Number.text, Int.natAbs_neg, Int.natAbs_natCast]
      exact read true

/-- A number is read without rounding if doubles can show its digits, without the point and in one
word, and its value. -/
theorem Lexeme.value_exact {lexeme : Lexeme} {numeral : Binary64.Numeral}
    (shows : lexeme.Shows numeral) (fits : numeral.count ≤ greatestWord)
    (digits : Representable numeral.count)
    (near : numeral.count ≠ 0 → -22 ≤ numeral.power ∧ numeral.power ≤ 22)
    (counted : ∀ scale ∈ numeral.scale, digitsValue scale.digits ≤ greatestScale)
    (exact : Representable (numeral.count * 10 ^ numeral.power)) :
    ∃ number, lexeme.value (isMinus numeral.sign) = .ok number ∧ number.Tells numeral.value := by
  obtain ⟨whole, places, scale⟩ := shows
  have split : digitsValue numeral.whole * 10 ^ (numeral.places.getD []).length
      + digitsValue (numeral.places.getD []) = numeral.count :=
    (Text.digitsValue_append _ _).symm
  have wholeFits : digitsValue numeral.whole ≤ greatestWord := by
    refine le_trans ?_ fits
    rw [← split]
    exact (Nat.le_mul_of_pos_right _ (by positivity)).trans (Nat.le_add_right _ _)
  have front := fitDigits_word wholeFits
  have behind := fitDigits_all (split.trans_le fits)
  rw [split] at behind
  unfold Lexeme.value
  rw [whole, places, scale]
  simp only [front, behind, List.isEmpty_nil, true_and, List.length_nil]
  split_ifs with plain
  · obtain ⟨noPlaces, noScale⟩ := plain
    rw [Option.isNone_iff_eq_none] at noPlaces noScale
    rw [scaleParts, Option.map_eq_none_iff] at noScale
    have count : digitsValue numeral.whole = numeral.count := by
      rw [Binary64.Numeral.count, noPlaces, Option.getD_none, List.append_nil]
    have value : numeral.value = Binary64.signed (isMinus numeral.sign) numeral.count := by
      rw [Binary64.Numeral.value, Binary64.Numeral.power, noPlaces, noScale]
      simp [scalePower]
    rw [count, value]
    exact ⟨_, rfl, tells_wholeNumber _ fits digits⟩
  · obtain ⟨number, read, shown, canonical⟩ := realOfParts?_exact digits near exact
    have said := tells_real (shows_withSign shown (isMinus numeral.sign))
      (isCanonical_withSign canonical _)
    refine ⟨_, ?_, said⟩
    rcases written : numeral.scale with _ | scale
    · rw [Binary64.Numeral.power, written, scalePower, Option.elim_none] at read
      simp only [scaleParts, Option.map_none, Nat.cast_zero, add_zero, read]
    · have room : overflowAt? 0 0 scale.digits = none := overflowAt?_none (by
        rw [Nat.zero_mul, Nat.zero_add]
        exact counted scale written)
      have power : ((0 : Nat) : Int) - ((numeral.places.getD []).length : Int)
          + (if isMinus scale.sign then -(digitsValue scale.digits : Int)
            else digitsValue scale.digits) = numeral.power := by
        rw [Binary64.Numeral.power, written, scalePower, Option.elim_some, Scale.power]
        ring
      simp only [scaleParts, Option.map_some, room, power, read]

/-- The numerals of JSON texts whose digits fit a word and are those of a double, and whose scale is
one that is counted. -/
structure IsExact (numeral : Binary64.Numeral) : Prop extends IsJson numeral where
  fits : numeral.count ≤ greatestWord
  digits : Representable numeral.count
  counted : ∀ scale ∈ numeral.scale, digitsValue scale.digits ≤ greatestScale

/-- Digits of a word count a power of ten near zero if the number is neither small nor large. -/
theorem power_near {count : Nat} {power : Int} (some : 0 < count) (fits : count ≤ greatestWord)
    (low : (1 : ℚ) / 2 ≤ count * 10 ^ power) (high : (count : ℚ) * 10 ^ power < 2 ^ 40) :
    -22 ≤ power ∧ power ≤ 22 := by
  have count_ge : (1 : ℚ) ≤ count := by exact_mod_cast some
  have count_le : (count : ℚ) ≤ 2 ^ 64 := by
    exact_mod_cast (show count ≤ 2 ^ 64 by rw [greatestWord] at fits; omega)
  constructor
  · by_contra below
    have tiny : (10 : ℚ) ^ power ≤ 10 ^ (-22 : Int) :=
      zpow_le_zpow_right₀ (by norm_num) (by omega)
    have size : (count : ℚ) * 10 ^ power ≤ 2 ^ 64 * 10 ^ (-22 : Int) := by gcongr
    norm_num at size
    linarith
  · by_contra above
    have large : (10 : ℚ) ^ (22 : Int) ≤ 10 ^ power := zpow_le_zpow_right₀ (by norm_num) (by omega)
    have size : (1 : ℚ) * 10 ^ (22 : Int) ≤ count * 10 ^ power := by gcongr
    norm_num at size
    linarith

/-- A numeral of JSON texts that is neither small nor large is read without rounding. -/
theorem ofText_exact {numeral : Binary64.Numeral} (plain : IsExact numeral)
    (exact : Representable |numeral.value|) (low : numeral.value ≠ 0 → 1 / 2 ≤ |numeral.value|)
    (high : |numeral.value| < 2 ^ 40) :
    ∃ number, ofText numeral.text = .ok (.number number) ∧ number.Tells numeral.value := by
  have nonneg : (0 : ℚ) ≤ numeral.count * 10 ^ numeral.power := by positivity
  rw [Binary64.Numeral.value, Binary64.abs_signed _ nonneg] at exact low high
  have near : numeral.count ≠ 0 → -22 ≤ numeral.power ∧ numeral.power ≤ 22 := by
    intro some
    refine power_near (Nat.pos_of_ne_zero some) plain.fits (low ?_) high
    have positive : (0 : ℚ) < numeral.count * 10 ^ numeral.power := by positivity
    rw [Binary64.signed]
    split_ifs
    · exact neg_ne_zero.2 positive.ne'
    · exact positive.ne'
  obtain ⟨lexeme, -, shows, -⟩ := takeNumber_numeral plain.toIsJson (endsNumeral_gap gap_nil)
    ⟨numeral.text ++ [], 0⟩ rfl
  obtain ⟨number, value, tells⟩ :=
    lexeme.value_exact shows plain.fits plain.digits near plain.counted exact
  exact ⟨number, ofText_eq_ok.2 (readsWithin_iff.2 ⟨[], numeral.text, [], gap_nil, gap_nil,
    (List.append_nil _).symm, spells_number depthLimit plain.toIsJson shows value⟩), tells⟩

end LogCensus.Json
