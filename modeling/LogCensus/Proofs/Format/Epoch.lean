import LogCensus.Proofs.Format.TimeText
import LogCensus.Proofs.Json.Exact

/-!
Seconds since 1970 on the grid of `1 / 512`, in quotes or as numbers. They are read without rounding,
so that a time is exact from 1970 on. Before 1970 the fraction of a second is lost.
-/

namespace LogCensus.Format.JsonLines

open Binary64 (Numeral Representable ofNumeral? wholePart)
open Json (IsExact)
open Text (isDigit)
open Time (Instant nanosPerSecond)

/-! ### Seconds on the grid -/

theorem representable_grid {value : ℚ} {count : Int} (grid : value = count / 512)
    (small : |value| < 2 ^ 40) : Representable |value| := by
  have size : |value| = count.natAbs / 512 := by
    rw [grid, abs_div, Nat.cast_natAbs, Int.cast_abs]
    norm_num
  have few : count.natAbs < 2 ^ 49 := by
    rw [size, div_lt_iff₀ (by norm_num)] at small
    have cast : (count.natAbs : ℚ) < 2 ^ 49 := by
      refine small.trans_eq ?_
      norm_num
    exact_mod_cast cast
  refine ⟨count.natAbs, -9, ⟨few.trans (by decide), by decide, by decide⟩, ?_⟩
  rw [size, Binary64.magnitude, div_eq_mul_inv]
  norm_num

/-- From 1970 on what is left of seconds on the grid is a whole number of nanoseconds. -/
theorem nanosOf_grid {number : Binary64} {value : ℚ} (shows : number.Shows value) {count : Int}
    (grid : value = count / 512) (since : 0 ≤ value) :
    (wholePart value : ℚ) + nanosOf number / 10 ^ 9 = value := by
  have whole : wholePart value = count / 512 := by
    rw [wholePart, if_pos since, grid]
    exact Rat.floor_intCast_div_natCast count 512
  have split : (count : ℚ) = 512 * (count / 512 : Int) + (count % 512 : Int) := by
    exact_mod_cast (Int.mul_ediv_add_emod count 512).symm
  obtain ⟨rest, rest_eq⟩ :=
    Int.eq_ofNat_of_zero_le (Int.emod_nonneg count (by decide : (512 : Int) ≠ 0))
  have less := Int.emod_lt_of_pos count (by decide : (0 : Int) < 512)
  have beyond : value - wholePart value = rest / 512 := by
    rw [whole, grid, split, rest_eq]
    push_cast
    ring
  have fits : rest * 1953125 < nanosPerSecond := by
    rw [nanosPerSecond]
    omega
  have exact := nanosOf_exact shows fits (by
    rw [beyond]
    push_cast
    ring)
  have tail : ((rest * 1953125 : Nat) : ℚ) / 10 ^ 9 = rest / 512 := by
    push_cast
    ring
  rw [exact, tail, ← beyond, add_sub_cancel]

/-- Before 1970 nothing is left of any seconds. -/
theorem nanosOf_neg {number : Binary64} {value : ℚ} (shows : number.Shows value)
    (before : value < 0) : nanosOf number = 0 := by
  rcases (Binary64.sub_wholePart_nonpos before.le).lt_or_eq with below | same
  · exact nanosOf_of_lt shows (sub_neg.1 below)
  · exact nanosOf_exact shows (by decide) (by rw [same]; norm_num)

/-- From 1970 on seconds on the grid are split without loss, and before 1970 what is left over is
dropped. -/
theorem instantOfSeconds?_grid {number : Binary64} {value : ℚ} (shows : number.Shows value)
    {count : Int} (grid : value = count / 512) (small : |value| < 2 ^ 40) :
    ∃ instant, instantOfSeconds? number = some instant ∧ instant.nanos < nanosPerSecond ∧
      (instant.seconds : ℚ) + instant.nanos / 10 ^ 9 = if 0 ≤ value then value else ⌈value⌉ := by
  obtain ⟨low, high⟩ := abs_lt.1 small
  have inside := (isSome_instantOfSeconds?_iff shows).2 (by constructor <;> linarith)
  obtain ⟨instant, known⟩ := Option.isSome_iff_exists.1 inside
  have parts : instant.seconds = wholePart value ∧ instant.nanos = nanosOf number := by
    have least : -2 ^ 40 ≤ wholePart value :=
      (Binary64.le_wholePart_iff (by decide)).2 (by push_cast; linarith)
    have most : wholePart value ≤ 2 ^ 40 :=
      (Binary64.wholePart_le_iff (by decide)).2 (by push_cast; linarith)
    rw [instantOfSeconds?_eq shows, Instant.ofParts?] at known
    split_ifs at known
    cases known
    refine ⟨?_, rfl⟩
    simp only [leastWord, greatestWord]
    omega
  obtain ⟨seconds, nanos⟩ := parts
  refine ⟨instant, known, nanos ▸ nanosOf_lt shows, ?_⟩
  rw [seconds, nanos]
  split_ifs with since
  · exact nanosOf_grid shows grid since
  · rw [nanosOf_neg shows (not_le.1 since), wholePart, if_neg since]
    norm_num

/-! ### Members that hold seconds -/

/-- The member holds a numeral of seconds: in quotes, or as a number of halves of a second with few
digits. -/
inductive HoldsSeconds (numeral : Numeral) : Json → Prop where
  | quoted : HoldsSeconds numeral (.string (String.ofList numeral.text))
  | plain {value : Json} (exact : IsExact numeral) (halves : ∃ half : Int, numeral.value = half / 2)
    (read : Json.ofText numeral.text = .ok value) : HoldsSeconds numeral value

theorem exists_double {numeral : Numeral} {value : Json} (holds : HoldsSeconds numeral value)
    (exact : Representable |numeral.value|) (small : |numeral.value| < 2 ^ 40) :
    ∃ text double, scalarText? value = some text ∧ ofNumeral? text.toList = some double ∧
      double.Shows numeral.value := by
  cases holds with
  | quoted =>
    have size : (0 : ℚ) ≤ numeral.count * 10 ^ numeral.power := by positivity
    rw [Numeral.value, Binary64.abs_signed _ size] at exact
    exact ⟨_, _, rfl, by rw [String.toList_ofList]; exact Binary64.ofNumeral?_text numeral,
      Binary64.ofDecimal_exact _ exact⟩
  | plain form halves read =>
    have low : numeral.value ≠ 0 → 1 / 2 ≤ |numeral.value| := by
      obtain ⟨half, value⟩ := halves
      intro some
      have count : half ≠ 0 := by
        rintro rfl
        exact some (by rw [value, Int.cast_zero, zero_div])
      have one : (1 : ℚ) ≤ |(half : ℚ)| := by exact_mod_cast Int.one_le_abs count
      rw [value, abs_div, abs_two]
      linarith
    obtain ⟨number, known, double, parsed, shows⟩ := Json.ofText_exact form exact low small
    rw [known] at read
    cases read
    exact ⟨_, double, rfl, by rw [String.toList_ofList]; exact parsed, shows⟩

theorem colon_notMem_text (numeral : Numeral) : ':' ∉ numeral.text := by
  have digits : ∀ digits : List Char, (∀ c ∈ digits, isDigit c = true) → ':' ∉ digits := by
    intro digits all colon
    exact absurd (all ':' colon) (by decide)
  have places : ':' ∉ Json.Numeral.placesText numeral.places := by
    cases shown : numeral.places with
    | none => exact List.not_mem_nil
    | some shownDigits =>
      rw [Json.Numeral.placesText, List.mem_cons, not_or]
      exact ⟨by decide, digits _ (numeral.places_all _ shown)⟩
  have scale : ':' ∉ Binary64.scaleText numeral.scale := by
    cases numeral.scale with
    | none => exact List.not_mem_nil
    | some scale =>
      rw [Binary64.scaleText, Option.elim_some, Binary64.Scale.text, List.mem_cons, List.mem_append,
        not_or, not_or]
      refine ⟨?_, colon_notMem_signText _, digits _ scale.formed.2⟩
      rcases scale.known with same | same <;> rw [same] <;> decide
  rw [Numeral.text, Numeral.body, List.mem_append, List.mem_append, List.mem_append]
  rintro (sign | whole | point | power)
  · exact colon_notMem_signText _ sign
  · exact digits _ numeral.whole_all whole
  · exact places point
  · exact scale power

theorem instant?_of_shows {text : List Char} {double : Binary64} {value : ℚ}
    (read : ofNumeral? text = some double) (shows : double.Shows value) :
    instant? text = instantOfSeconds? double := by
  have free : ':' ∉ text := by
    rcases Binary64.exists_numeral read with ⟨numeral, rfl⟩ | ⟨negative, rfl⟩ | ⟨rfl, -⟩
    · exact colon_notMem_text numeral
    · obtain ⟨_, _, _, other, -⟩ := shows
      cases other
    · obtain ⟨_, _, _, other, -⟩ := shows
      cases other
  rw [instant?, readInstant?_eq_none free]
  simp only [read, Option.bind_some]

/-- A line whose first member of a time holds seconds on the grid is an entry. Its time is exactly
these seconds from 1970 on, and the next whole second before. -/
theorem read_epoch_seconds {line : String} {entries : List (String × Json)} {value : Json}
    (object : members (Text.trim line.toList) = .ok entries)
    (first : timestampKeys.findSome? (fun key => entries.lookup key) = some value)
    {numeral : Numeral} (holds : HoldsSeconds numeral value) {count : Int}
    (grid : numeral.value = count / 512) (small : |numeral.value| < 2 ^ 40) :
    ∃ entry instant, jsonLines.read line = .entry entry ∧ entry.timestamp = some instant ∧
      instant.nanos < nanosPerSecond ∧ (instant.seconds : ℚ) + instant.nanos / 10 ^ 9 =
        if 0 ≤ numeral.value then numeral.value else ⌈numeral.value⌉ := by
  obtain ⟨text, double, scalar, parsed, shows⟩ :=
    exists_double holds (representable_grid grid small) small
  obtain ⟨instant, known, nanos, exact⟩ := instantOfSeconds?_grid shows grid small
  have picked : pick? timestampKeys entries = some text := by
    rw [pick?, first, Option.bind_some, scalar]
  have read := read_of_timestamp object picked
  rw [instant?_of_shows parsed shows, known] at read
  exact ⟨_, instant, read, rfl, nanos, exact⟩

/-- Three halves of a second, before or after 1970. -/
def threeHalves (sign : Option Bool) : Numeral where
  sign
  whole := ['1']
  places := some ['5']
  scale := none
  whole_all := by simp [isDigit]
  places_all := by simp [isDigit]
  formed := by simp

theorem threeHalves_value (sign : Option Bool) :
    (threeHalves sign).value = Binary64.signed (Text.isMinus sign) (3 / 2) := by
  have count : (threeHalves sign).count = 15 := by rfl
  have power : (threeHalves sign).power = -1 := by rfl
  rw [Numeral.value, count, power]
  norm_num
  rfl

theorem read_epoch_seconds_sample :
    members (Text.trim "\x7b\"ts\":\"1.5\"\x7d".toList) = .ok [("ts", .string "1.5")] ∧
      HoldsSeconds (threeHalves none) (.string "1.5") ∧
      ∃ entry instant, jsonLines.read "\x7b\"ts\":\"1.5\"\x7d" = .entry entry ∧
        entry.timestamp = some instant ∧ instant.nanos < nanosPerSecond ∧
          (instant.seconds : ℚ) + instant.nanos / 10 ^ 9 = 3 / 2 := by
  have object : members (Text.trim "\x7b\"ts\":\"1.5\"\x7d".toList) =
      .ok [("ts", .string "1.5")] := by decide +kernel
  have holds : HoldsSeconds (threeHalves none) (.string "1.5") := .quoted
  have value : (threeHalves none).value = 3 / 2 := threeHalves_value none
  refine ⟨object, holds, ?_⟩
  have first : timestampKeys.findSome? (fun key => List.lookup key [("ts", .string "1.5")]) =
      some (Json.string "1.5") := rfl
  have grid : (threeHalves none).value = (768 : Int) / 512 := by
    rw [value]
    norm_num
  have read := read_epoch_seconds object first holds grid (by rw [value]; norm_num)
  rw [value, if_pos (by norm_num)] at read
  exact read

/-- Half a second before the last second of 1969 is taken for that second. -/
theorem fraction_before_epoch_is_lost :
    (threeHalves (some true)).text = "-1.5".toList ∧ (threeHalves (some true)).value = -(3 / 2) ∧
    (readLine "\x7b\"timestamp\":\"-1.5\"\x7d").toOption.map
      (fun entry => entry.timestamp.map fun instant => (instant.seconds, instant.nanos)) =
        some (some (-1, 0)) :=
  ⟨by decide, threeHalves_value (some true), by decide +kernel⟩

end LogCensus.Format.JsonLines
