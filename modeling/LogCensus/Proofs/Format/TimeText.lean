import LogCensus.Proofs.Format.JsonLines
import LogCensus.Proofs.Time.DateTime

/-!
The texts that JSON logs have for times. A time is a date-time or a numeral of seconds since 1970,
and which texts are taken as one is told here by the text alone. Seconds are rounded to a double and
cut towards zero, and what is left over becomes nanoseconds.
-/

namespace LogCensus.Format.JsonLines

open Binary64 (IsWord Numeral Representable ofNumeral? wholePart)
open Time (DateTime Instant greatestSeconds leastSeconds nanosPerSecond)

/-! ### Seconds and what is left over -/

def nanosOf (seconds : Binary64) : Nat :=
  (((seconds - seconds.truncate) * Binary64.ofNat 1000000000).saturated 0 0xFFFFFFFF).toNat

section Seconds

variable {number : Binary64} {value : ℚ} (shows : number.Shows value)
include shows

theorem instantOfSeconds?_eq :
    instantOfSeconds? number =
      Instant.ofParts? (max leastWord (min greatestWord (wholePart value))) (nanosOf number) := by
  have whole := Binary64.saturated_eq (Binary64.shows_truncate shows) leastWord greatestWord
  rw [Binary64.wholePart_intCast] at whole
  rw [instantOfSeconds?, whole]
  rfl

theorem shows_rest : (number - number.truncate).Shows (value - wholePart value) :=
  Binary64.shows_sub shows (Binary64.shows_truncate shows)
    (Binary64.representable_sub_wholePart shows)

/-- The product is rounded, but it stays below a whole second. -/
theorem exists_product :
    ∃ product, ((number - number.truncate) * Binary64.ofNat 1000000000).Shows product ∧
      product < 1000000000 ∧ (value < wholePart value → product ≤ 0) := by
  have rest := shows_rest shows
  have billion : (Binary64.ofNat 1000000000).Shows (1000000000 : Nat) :=
    Binary64.shows_ofNat (Binary64.representable_natCast (by decide))
  have less := rest.representable.le_of_lt_one (Binary64.abs_sub_wholePart_lt value)
  -- the bound is `10 ^ 9`, with 53 binary digits
  obtain ⟨product, shown, below, sign⟩ := Binary64.shows_mul_lt
    (show Binary64.hiddenBit < 8388608000000000 by decide) (by decide) (by decide)
    (show Binary64.leastExponent ≤ -23 by decide) (by decide) rest billion (by
      rw [abs_mul, Nat.abs_cast]
      norm_num at less ⊢
      linarith)
  refine ⟨product, shown, lt_of_le_of_lt (le_abs_self product) (below.trans_eq ?_), fun negative => ?_⟩
  · norm_num [Binary64.magnitude]
  · exact sign (mul_neg_of_neg_of_pos (sub_neg.2 negative) (by norm_num))

theorem nanosOf_lt : nanosOf number < nanosPerSecond := by
  obtain ⟨product, shown, below, -⟩ := exists_product shows
  have whole : wholePart product ≤ 999999999 :=
    (Binary64.wholePart_le_iff (by decide)).2 (by push_cast; linarith)
  rw [nanosOf, Binary64.saturated_eq shown, nanosPerSecond]
  omega

/-- Before 1970 nothing is left over. -/
theorem nanosOf_of_lt (below : value < wholePart value) : nanosOf number = 0 := by
  obtain ⟨product, shown, -, sign⟩ := exists_product shows
  have whole : wholePart product ≤ 0 :=
    (Binary64.wholePart_le_iff le_rfl).2 (by push_cast; linarith [sign below])
  rw [nanosOf, Binary64.saturated_eq shown]
  omega

theorem nanosOf_exact {nanos : Nat} (fits : nanos < nanosPerSecond)
    (exact : (value - wholePart value) * 1000000000 = nanos) : nanosOf number = nanos := by
  have billion : (Binary64.ofNat 1000000000).Shows (1000000000 : Nat) :=
    Binary64.shows_ofNat (Binary64.representable_natCast (by decide))
  rw [nanosPerSecond] at fits
  have small : Representable |(nanos : ℚ)| := by
    rw [Nat.abs_cast]
    exact Binary64.representable_natCast (fits.trans (by decide))
  have shown := Binary64.shows_mul (shows_rest shows) billion
    (by rw [Nat.cast_ofNat, exact]; exact small)
  rw [Nat.cast_ofNat, exact] at shown
  have whole := Binary64.wholePart_intCast nanos
  rw [Int.cast_natCast] at whole
  rw [nanosOf, Binary64.saturated_eq shown, whole]
  omega

/-- Seconds have an instant if their whole part is in the calendar. -/
theorem isSome_instantOfSeconds?_iff :
    (instantOfSeconds? number).isSome ↔
      -8334601228801 < value ∧ value < 8210266876800 := by
  have nanos := nanosOf_lt shows
  have least : leastSeconds ≤ wholePart value ↔ -8334601228801 < value := by
    rw [Binary64.le_wholePart_iff (by decide), leastSeconds]
    norm_num
  have most : wholePart value ≤ greatestSeconds ↔ value < 8210266876800 := by
    rw [Binary64.wholePart_le_iff (by decide), greatestSeconds]
    norm_num
  rw [instantOfSeconds?_eq shows, Instant.ofParts?, ← least, ← most]
  split_ifs with range full
  · simp only [leastSeconds, greatestSeconds, leastWord, greatestWord] at range ⊢
    simp only [Option.isSome_some, true_iff]
    omega
  · exact absurd (.inl nanos) full
  · simp only [leastSeconds, greatestSeconds, leastWord, greatestWord] at range ⊢
    simp only [Option.isSome_none, Bool.false_eq_true, false_iff]
    omega

end Seconds

theorem instantOfSeconds?_infinity (negative : Bool) :
    instantOfSeconds? (.infinity negative) = none := by
  cases negative <;> rfl

/-- What is not a number counts as zero seconds. -/
theorem instantOfSeconds?_nan : instantOfSeconds? .nan = some .epoch := rfl

/-! ### Numerals -/

/-- The seconds whose instant, rounded to a double and cut towards zero, is in the calendar. -/
def InCalendar (seconds : ℚ) : Prop :=
  -8334601228801 + 1 / 2048 < seconds ∧ seconds < 8210266876800 - 1 / 2048

theorem inCalendar_of_abs_lt {seconds : ℚ} (small : |seconds| < 8210266876799) :
    InCalendar seconds := by
  obtain ⟨low, high⟩ := abs_lt.1 small
  constructor <;> linarith

theorem not_inCalendar (negative : Bool) {size : ℚ} (large : 8334601228801 - 1 / 2048 ≤ size) :
    ¬ InCalendar (Binary64.signed negative size) := by
  rintro ⟨low, high⟩
  cases negative with
  | true =>
    rw [Binary64.signed, if_pos rfl] at low
    linarith
  | false =>
    rw [Binary64.signed, if_neg Bool.false_ne_true] at high
    linarith

/-! Both ends of the calendar are doubles with an even mantissa at the exponent `-10`. -/

theorem rounded_lt_first {num den : Nat} (some : 0 < num) (positive : 0 < den) :
    Binary64.rounded num den < 8334601228801 ↔ (num : ℚ) / den < 8334601228801 - 1 / 2048 := by
  have shown : (8534631658292224 : Nat) * (2 : ℚ) ^ (-10 : Int) = 8334601228801 := by norm_num
  have split := Binary64.rounded_lt_iff some positive
    (show Binary64.hiddenBit < 8534631658292224 by decide) (by decide) (by decide)
    (show Binary64.leastExponent ≤ -10 by decide)
  rw [Binary64.magnitude, sub_mul, shown] at split
  norm_num at split ⊢
  exact split

theorem rounded_lt_last {num den : Nat} (some : 0 < num) (positive : 0 < den) :
    Binary64.rounded num den < 8210266876800 ↔ (num : ℚ) / den < 8210266876800 - 1 / 2048 := by
  have shown : (8407313281843200 : Nat) * (2 : ℚ) ^ (-10 : Int) = 8210266876800 := by norm_num
  have split := Binary64.rounded_lt_iff some positive
    (show Binary64.hiddenBit < 8407313281843200 by decide) (by decide) (by decide)
    (show Binary64.leastExponent ≤ -10 by decide)
  rw [Binary64.magnitude, sub_mul, shown] at split
  norm_num at split ⊢
  exact split

theorem isSome_instantOfSeconds?_ofRatio (negative : Bool) {num den : Nat} (some : 0 < num)
    (positive : 0 < den) :
    (instantOfSeconds? (Binary64.ofRatio negative num den)).isSome ↔
      InCalendar (Binary64.signed negative (num / den)) := by
  have before := rounded_lt_first some positive
  have behind := rounded_lt_last some positive
  have size : (0 : ℚ) < num / den := div_pos (by exact_mod_cast some) (by exact_mod_cast positive)
  have rounded : 0 ≤ Binary64.rounded num den := Binary64.magnitude_nonneg _ _
  rcases Binary64.ofRatio_cases some positive negative with shows | ⟨infinite, large⟩
  · rw [isSome_instantOfSeconds?_iff shows, InCalendar]
    cases negative with
    | true =>
      simp only [Binary64.signed, if_true]
      constructor
      · rintro ⟨above, -⟩
        have inside := before.1 (by linarith)
        constructor <;> linarith
      · rintro ⟨above, -⟩
        have inside := before.2 (by linarith)
        constructor <;> linarith
    | false =>
      simp only [Binary64.signed, Bool.false_eq_true, if_false]
      constructor
      · rintro ⟨-, below⟩
        have inside := behind.1 below
        constructor <;> linarith
      · rintro ⟨-, below⟩
        have inside := behind.2 (by linarith)
        constructor <;> linarith
  · have one : (1 : ℚ) ≤ 2 ^ Binary64.greatestExponent := one_le_zpow₀ (by norm_num) (by decide)
    have beyond : (8334601228801 : ℚ) ≤ Binary64.rounded num den := by
      refine le_trans ?_ large
      rw [Binary64.magnitude, Binary64.hiddenBit]
      push_cast
      linarith
    have outside : (8334601228801 : ℚ) - 1 / 2048 ≤ num / den := by
      by_contra inside
      exact absurd (before.2 (by linarith)) (not_lt.2 beyond)
    rw [infinite, instantOfSeconds?_infinity]
    exact iff_of_false (by simp) (not_inCalendar negative outside)

theorem isSome_instantOfSeconds?_ofDecimal (negative : Bool) (count : Nat) (power : Int) :
    (instantOfSeconds? (Binary64.ofDecimal negative count power)).isSome ↔
      InCalendar (Binary64.signed negative (count * 10 ^ power)) := by
  have zero : ∀ size : ℚ, 0 ≤ size → size < 1 →
      ((instantOfSeconds? (Binary64.zeroOf negative)).isSome ↔
        InCalendar (Binary64.signed negative size)) := by
    intro size nonneg tiny
    have none : (instantOfSeconds? (Binary64.zeroOf negative)).isSome :=
      (isSome_instantOfSeconds?_iff (Binary64.shows_zeroOf negative)).2 (by norm_num)
    refine iff_of_true none (inCalendar_of_abs_lt ?_)
    rw [Binary64.abs_signed negative nonneg]
    linarith
  rcases Nat.eq_zero_or_pos count with rfl | some
  · rw [Binary64.ofDecimal_zero]
    exact zero _ (by simp) (by simp)
  rcases Binary64.ofDecimal_cases some power negative with
    ⟨infinite, large⟩ | ⟨none, tiny⟩ | ⟨num, den, num_pos, den_pos, ratio, read⟩
  · have outside : (8334601228801 : ℚ) - 1 / 2048 ≤ 10 ^ (311 : Int) := by
      have step : (10 : ℚ) ^ (13 : Int) ≤ 10 ^ (311 : Int) :=
        zpow_le_zpow_right₀ (by norm_num) (by decide)
      refine le_trans ?_ step
      norm_num
    rw [infinite, instantOfSeconds?_infinity]
    exact iff_of_false (by simp) (not_inCalendar negative (outside.trans large))
  · rw [none]
    refine zero _ (by positivity) (tiny.trans ?_)
    exact zpow_lt_one_of_neg₀ (by norm_num) (by decide)
  · rw [read, ← ratio]
    exact isSome_instantOfSeconds?_ofRatio negative num_pos den_pos

/-! ### Texts that are taken as a time -/

/-- The texts that are taken as a time: date-times, numerals of seconds in the calendar, and the word
for no number. -/
def IsTimeText (text : List Char) : Prop :=
  (∃ time : DateTime, text = time.text) ∨
    (∃ numeral : Numeral, text = numeral.text ∧ InCalendar numeral.value) ∨
      IsWord text "nan".toList

theorem isSome_ofNumeral?_iff {text : List Char} :
    ((ofNumeral? text).bind instantOfSeconds?).isSome ↔
      (∃ numeral : Numeral, text = numeral.text ∧ InCalendar numeral.value) ∨
        IsWord text "nan".toList := by
  constructor
  · intro found
    rw [Option.isSome_iff_exists] at found
    obtain ⟨instant, found⟩ := found
    obtain ⟨number, read, known⟩ := Option.bind_eq_some_iff.1 found
    rcases Binary64.exists_numeral read with ⟨numeral, rfl⟩ | ⟨negative, rfl⟩ | ⟨-, word⟩
    · rw [Binary64.ofNumeral?_text] at read
      cases read
      exact .inl ⟨numeral, rfl, (isSome_instantOfSeconds?_ofDecimal _ _ _).1 (known ▸ rfl)⟩
    · rw [instantOfSeconds?_infinity] at known
      cases known
    · exact .inr word
  · rintro (⟨numeral, rfl, inside⟩ | word)
    · rw [Binary64.ofNumeral?_text, Option.bind_some]
      exact (isSome_instantOfSeconds?_ofDecimal _ _ _).2 inside
    · rw [Binary64.ofNumeral?_nan word, Option.bind_some, instantOfSeconds?_nan]
      rfl

theorem isSome_instant?_iff {text : List Char} : (instant? text).isSome ↔ IsTimeText text := by
  rw [IsTimeText, ← isSome_ofNumeral?_iff, ← Time.Strict.isSome_readInstant?_iff]
  unfold instant?
  cases Time.Strict.readInstant? text <;> simp

/-! ### Lines with a time -/

theorem readInstant?_eq_none {text : List Char} (free : ':' ∉ text) :
    Time.Strict.readInstant? text = none := by
  cases read : Time.Strict.readInstant? text with
  | none => rfl
  | some instant =>
    obtain ⟨time, rfl, -⟩ := Time.Strict.readInstant?_eq_some.1 read
    exact absurd time.colon_mem free

theorem colon_notMem_signText (sign : Option Bool) : ':' ∉ Text.signText sign := by
  rcases sign with _ | _ | _ <;> decide

theorem colon_notMem_of_isWord {text : List Char} (word : IsWord text "nan".toList) :
    ':' ∉ text := by
  obtain ⟨sign, body, rfl, same⟩ := word
  have letters : Text.lowered body = "nan".toList := eq_of_beq same
  rw [List.mem_append, not_or]
  refine ⟨colon_notMem_signText sign, fun colon => ?_⟩
  have lower : ':'.toLower ∈ Text.lowered body := List.mem_map_of_mem colon
  rw [letters] at lower
  exact absurd lower (by decide)

theorem instant?_nan {text : List Char} (word : IsWord text "nan".toList) :
    instant? text = some .epoch := by
  rw [instant?, readInstant?_eq_none (colon_notMem_of_isWord word)]
  simp only [Binary64.ofNumeral?_nan word, Option.bind_some, instantOfSeconds?_nan]

/-- The scalar of the first member of a time decides whether a line is read. -/
theorem read_of_timestamp {line text : String} {entries : List (String × Json)}
    (object : members (Text.trim line.toList) = .ok entries)
    (picked : pick? timestampKeys entries = some text) :
    jsonLines.read line =
      match instant? text.toList with
      | some instant => .entry (made line entries (some instant))
      | none => .refused ⟨"json", "bad timestamp '" ++ text ++ "'"⟩ := by
  rw [read_eq object, timestamp, picked]
  cases known : instant? text.toList with
  | none =>
    simp only [known]
    rfl
  | some instant =>
    simp only [known]
    rfl

/-- A line whose first member of a time has a scalar is an entry exactly if the scalar is taken as a
time, and otherwise it is refused as a bad time. The word for no number is taken for 1970. -/
theorem read_iff_time_text {line text : String} {entries : List (String × Json)} {value : Json}
    (object : members (Text.trim line.toList) = .ok entries)
    (first : timestampKeys.findSome? (fun key => entries.lookup key) = some value)
    (scalar : scalarText? value = some text) :
    ((∃ entry, jsonLines.read line = .entry entry) ↔ IsTimeText text.toList) ∧
      (¬ IsTimeText text.toList →
        jsonLines.read line = .refused ⟨"json", "bad timestamp '" ++ text ++ "'"⟩) ∧
      (IsWord text.toList "nan".toList →
        ∃ entry, jsonLines.read line = .entry entry ∧ entry.timestamp = some .epoch) := by
  have picked : pick? timestampKeys entries = some text := by
    rw [pick?, first, Option.bind_some, scalar]
  have read := read_of_timestamp object picked
  rw [← isSome_instant?_iff]
  refine ⟨?_, fun refused => ?_, fun word => ?_⟩
  · cases known : instant? text.toList with
    | none =>
      rw [known] at read
      simp [read]
    | some instant =>
      rw [known] at read
      exact iff_of_true ⟨_, read⟩ rfl
  · rw [Option.not_isSome_iff_eq_none] at refused
    rwa [refused] at read
  · rw [instant?_nan word] at read
    exact ⟨_, read, rfl⟩

theorem read_iff_time_text_sample :
    members (Text.trim "\x7b\"ts\":\"-Nan\"\x7d".toList) = .ok [("ts", .string "-Nan")] ∧
      ∃ entry, jsonLines.read "\x7b\"ts\":\"-Nan\"\x7d" = .entry entry ∧
        entry.timestamp = some .epoch := by
  have object : members (Text.trim "\x7b\"ts\":\"-Nan\"\x7d".toList) =
      .ok [("ts", .string "-Nan")] := by decide +kernel
  have word : IsWord "-Nan".toList "nan".toList := ⟨some true, "Nan".toList, by decide, by decide⟩
  have first : timestampKeys.findSome? (fun key => List.lookup key [("ts", .string "-Nan")]) =
      some (Json.string "-Nan") := rfl
  exact ⟨object, (read_iff_time_text object first rfl).2.2 word⟩

/-- The text `nan` is neither a date-time nor a numeral, and it is taken as a time. -/
theorem nan_is_taken :
    (¬ ∃ time : DateTime, "nan".toList = time.text) ∧
    (¬ ∃ numeral : Numeral, "nan".toList = numeral.text) ∧
    (readLine "\x7b\"timestamp\":\"nan\"\x7d").toOption.map Entry.timestamp = some (some .epoch) := by
  refine ⟨?_, ?_, by decide +kernel⟩
  · rintro ⟨time, shown⟩
    have colon := time.colon_mem
    rw [← shown] at colon
    exact absurd colon (by decide)
  · rintro ⟨numeral, shown⟩
    obtain ⟨c, rest, body, front⟩ := numeral.exists_body_head
    rw [Numeral.text, body] at shown
    have head : (Text.signText numeral.sign ++ c :: rest).head? = some 'n' := by
      rw [← shown]
      rfl
    rcases sign : numeral.sign with _ | _ | _ <;> rw [sign] at head
    · obtain rfl : c = 'n' := Option.some.inj head
      exact absurd front (by decide)
    · exact absurd (Option.some.inj head) (by decide)
    · exact absurd (Option.some.inj head) (by decide)

end LogCensus.Format.JsonLines
