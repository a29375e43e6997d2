import LogCensus.Text.Numeral
import Mathlib.Data.List.Induction
import Mathlib.Data.List.TakeWhile
import Mathlib.Tactic.Positivity
import Mathlib.Tactic.Ring

/-!
The digits of a number read back as the number. A run of digits is told apart from what follows
it by the first character that is none.
-/

namespace LogCensus.Text

/-! ### Single digits -/

theorem toNat_ofNat_of_valid {code : Nat} (valid : code.isValidChar) :
    (Char.ofNat code).toNat = code := by
  rw [Char.ofNat, dif_pos valid]
  rfl

theorem toNat_digitChar (value : Nat) : (digitChar value).toNat = 48 + value % 10 := by
  have small : value % 10 < 10 := Nat.mod_lt _ (by decide)
  exact toNat_ofNat_of_valid (Or.inl (by change 48 + value % 10 < 0xd800; omega))

theorem isDigit_iff {c : Char} : isDigit c = true ↔ 48 ≤ c.toNat ∧ c.toNat ≤ 57 := by
  simp only [isDigit, Bool.and_eq_true, decide_eq_true_eq]
  rfl

theorem isDigit_digitChar (value : Nat) : isDigit (digitChar value) = true := by
  have small : value % 10 < 10 := Nat.mod_lt _ (by decide)
  rw [isDigit_iff, toNat_digitChar]
  omega

theorem digitValue_digitChar (value : Nat) : digitValue (digitChar value) = value % 10 := by
  rw [digitValue, toNat_digitChar]
  exact Nat.add_sub_cancel_left 48 (value % 10)

/-! ### Signs -/

def signText : Option Bool → List Char
  | none => []
  | some true => ['-']
  | some false => ['+']

def isMinus (sign : Option Bool) : Bool := sign == some true

theorem unsigned_of_isDigit {c : Char} (digit : isDigit c = true) : c ≠ '-' ∧ c ≠ '+' := by
  constructor <;> rintro rfl <;> cases digit

/-! ### Values of digits -/

theorem digitsValue_concat (front : List Char) (c : Char) :
    digitsValue (front ++ [c]) = digitsValue front * 10 + digitValue c := by
  rw [digitsValue, List.foldl_append]
  rfl

theorem digitsValue_append (front behind : List Char) :
    digitsValue (front ++ behind) = digitsValue front * 10 ^ behind.length + digitsValue behind := by
  induction behind using List.reverseRecOn with
  | nil => simp [digitsValue]
  | append_singleton behind c ih =>
    rw [← List.append_assoc, digitsValue_concat, digitsValue_concat, ih, List.length_append,
      List.length_singleton, pow_succ]
    ring

theorem digitsValue_cons (c : Char) (digits : List Char) :
    digitsValue (c :: digits) = digitValue c * 10 ^ digits.length + digitsValue digits := by
  rw [← List.singleton_append, digitsValue_append]
  congr 1
  simp [digitsValue]

/-- Digits appended to a number may be appended one by one. -/
theorem shifted_digitsValue_cons (value : Nat) (c : Char) (digits : List Char) :
    value * 10 ^ (c :: digits).length + digitsValue (c :: digits) =
      (value * 10 + digitValue c) * 10 ^ digits.length + digitsValue digits := by
  rw [digitsValue_cons, List.length_cons, pow_succ]
  ring

theorem digitsValue_paddedDigits (width value : Nat) :
    digitsValue (paddedDigits width value) = value % 10 ^ width := by
  induction width generalizing value with
  | zero => simp [paddedDigits, digitsValue, Nat.mod_one]
  | succ width ih =>
    rw [paddedDigits, digitsValue_concat, ih, digitValue_digitChar, pow_succ,
      Nat.mul_comm (10 ^ width), Nat.mod_mul]
    omega

/-- Digits are those of their value, with zeros in front. -/
theorem paddedDigits_digitsValue {digits : List Char} (all : ∀ c ∈ digits, isDigit c = true) :
    paddedDigits digits.length (digitsValue digits) = digits := by
  induction digits using List.reverseRecOn with
  | nil => rfl
  | append_singleton front c ih =>
    obtain ⟨low, high⟩ := isDigit_iff.1 (all c (by simp))
    have value : digitValue c < 10 ∧ 48 + digitValue c = c.toNat := by
      simp only [digitValue, show '0'.toNat = 48 from rfl]
      omega
    have last : digitChar (digitsValue front * 10 + digitValue c) = c := by
      have code : '0'.toNat + (digitsValue front * 10 + digitValue c) % 10 = c.toNat := by
        rw [show '0'.toNat = 48 from rfl]
        omega
      rw [digitChar, code, Char.ofNat_toNat]
    have rest : (digitsValue front * 10 + digitValue c) / 10 = digitsValue front := by omega
    rw [List.length_append, List.length_singleton, digitsValue_concat, paddedDigits, rest, last,
      ih fun d member => all d (List.mem_append_left _ member)]

theorem isDigit_of_mem_paddedDigits {width value : Nat} {c : Char}
    (member : c ∈ paddedDigits width value) : isDigit c = true := by
  induction width generalizing value with
  | zero => cases member
  | succ width ih =>
    rw [paddedDigits, List.mem_append, List.mem_singleton] at member
    rcases member with front | rfl
    · exact ih front
    · exact isDigit_digitChar value

/-! ### The number of digits -/

theorem digitCount_pos (value : Nat) : 0 < digitCount value := by
  unfold digitCount
  split <;> omega

theorem lt_pow_digitCount (value : Nat) : value < 10 ^ digitCount value := by
  fun_induction digitCount value with
  | case1 value small => simpa using small
  | case2 value large ih =>
    rw [pow_succ]
    omega

theorem pow_digitCount_le {value : Nat} (positive : 0 < value) :
    10 ^ (digitCount value - 1) ≤ value := by
  fun_induction digitCount value with
  | case1 value small => exact positive
  | case2 value large ih =>
    have shorter := ih (by omega)
    have counted := digitCount_pos (value / 10)
    have split : 10 ^ digitCount (value / 10) = 10 ^ (digitCount (value / 10) - 1) * 10 := by
      rw [← pow_succ, Nat.sub_add_cancel counted]
    rw [Nat.add_sub_cancel, split]
    omega

/-- The powers of ten around a number settle how many digits it has. -/
theorem digitCount_eq {value count : Nat} (low : 10 ^ count ≤ value)
    (high : value < 10 ^ (count + 1)) : digitCount value = count + 1 := by
  have positive : 0 < value := Nat.lt_of_lt_of_le (by positivity) low
  have counted := digitCount_pos value
  have below : count < digitCount value :=
    (Nat.pow_lt_pow_iff_right (by decide)).1 (low.trans_lt (lt_pow_digitCount value))
  have above : digitCount value - 1 < count + 1 :=
    (Nat.pow_lt_pow_iff_right (by decide)).1 ((pow_digitCount_le positive).trans_lt high)
  omega

/-! ### Digits without leading zeros -/

theorem length_digits (value : Nat) : (digits value).length = digitCount value :=
  length_paddedDigits _ _

theorem isDigit_of_mem_digits {value : Nat} {c : Char} (member : c ∈ digits value) :
    isDigit c = true :=
  isDigit_of_mem_paddedDigits member

theorem digitsValue_digits (value : Nat) : digitsValue (digits value) = value := by
  rw [digits, digitsValue_paddedDigits, Nat.mod_eq_of_lt (lt_pow_digitCount value)]

theorem digits_zero : digits 0 = ['0'] := by
  rw [digits, digitCount, if_pos (by decide)]
  rfl

theorem digits_ne_nil (value : Nat) : digits value ≠ [] := by
  rw [← List.length_pos_iff, length_digits]
  exact digitCount_pos value

theorem digitsValue_digitsAtLeast (width value : Nat) :
    digitsValue (digitsAtLeast width value) = value := by
  rw [digitsAtLeast, digitsValue_paddedDigits]
  apply Nat.mod_eq_of_lt
  exact (lt_pow_digitCount value).trans_le
    (Nat.pow_le_pow_right (by decide) (Nat.le_max_right _ _))

theorem digitsValue_lt (text : List Char) (all : ∀ c ∈ text, isDigit c = true) :
    digitsValue text < 10 ^ text.length := by
  induction text using List.reverseRecOn with
  | nil => decide
  | append_singleton front c ih =>
    have last := isDigit_iff.1 (all c (by simp))
    have shorter := ih fun other member => all other (List.mem_append_left [c] member)
    have single : digitValue c = c.toNat - 48 := rfl
    rw [digitsValue_concat, List.length_append, List.length_singleton, pow_succ]
    omega

theorem head_digits_ne_zero {value : Nat} (positive : 0 < value) {c : Char} {rest : List Char}
    (text : digits value = c :: rest) : c ≠ '0' := by
  rintro rfl
  have length := length_digits value
  have read := digitsValue_digits value
  have tail : digitsValue rest < 10 ^ rest.length :=
    digitsValue_lt rest fun other member =>
      isDigit_of_mem_digits (text ▸ List.mem_cons_of_mem '0' member)
  have whole := digitsValue_append ['0'] rest
  rw [text, List.length_cons] at length
  rw [text] at read
  rw [List.singleton_append, read] at whole
  have low := pow_digitCount_le positive
  rw [← length, Nat.add_sub_cancel] at low
  have zero : digitsValue ['0'] = 0 := rfl
  rw [zero] at whole
  omega

/-! ### Runs of digits in front -/

section Runs

variable {test : Char → Bool} {front rest : List Char}

theorem takeWhile_append_stop (all : ∀ c ∈ front, test c = true)
    (stop : ∀ c ∈ rest.head?, test c = false) : (front ++ rest).takeWhile test = front := by
  rw [List.takeWhile_append_of_pos all]
  cases rest with
  | nil => simp
  | cons c rest => simp [stop c rfl]

theorem dropWhile_append_stop (all : ∀ c ∈ front, test c = true)
    (stop : ∀ c ∈ rest.head?, test c = false) : (front ++ rest).dropWhile test = rest := by
  rw [List.dropWhile_append_of_pos all]
  cases rest with
  | nil => rfl
  | cons c rest => simp [stop c rfl]

end Runs

end LogCensus.Text
