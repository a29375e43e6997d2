import LogCensus.Proofs.Time.Reading
import LogCensus.Time.Strict

/-!
The strict reader takes texts of fixed widths exactly if they are digits with a value in range, and
the fields of a time of UTC are those that its instant shows.
-/

namespace LogCensus.Time

/-! ### Fields of a time -/

/-- What a clock of UTC can show, a leap second included. -/
structure Fields.IsTime (fields : Fields) : Prop where
  date : isDate fields.year fields.month fields.day = true
  hour : fields.hour ≤ 23
  minute : fields.minute ≤ 59
  second : fields.second ≤ 60
  nanos : fields.nanos < nanosPerSecond
  utc : fields.offset = 0

theorem Fields.isDate_of_instant {fields : Fields} {instant : Instant}
    (read : fields.instant = .ok instant) :
    isDate fields.year fields.month fields.day = true := by
  by_contra none
  have missing : fields.date? = Option.none := dif_neg none
  rw [Fields.instant, missing] at read
  cases read

theorem fractionNanos_lt {digits : List Char} (all : ∀ c ∈ digits, Text.isDigit c = true) :
    fractionNanos digits < nanosPerSecond := by
  have few : (digits.take 9).length ≤ 9 := List.length_take_le 9 digits
  have small := Text.digitsValue_lt (digits.take 9) fun c member => all c (List.mem_of_mem_take member)
  calc fractionNanos digits
      < 10 ^ (digits.take 9).length * 10 ^ (9 - (digits.take 9).length) :=
        Nat.mul_lt_mul_of_pos_right small (Nat.pow_pos (by decide))
    _ = nanosPerSecond := by
        rw [← Nat.pow_add, Nat.add_sub_cancel' few]
        rfl

/-- The instant of fields that are a time of the calendar and do not leave it in UTC. -/
theorem Fields.exists_instant {fields : Fields}
    (date : isDate fields.year fields.month fields.day = true)
    (nanos : fields.nanos < nanosPerSecond)
    (zone : ∃ minutes : Int, fields.offset = 60 * minutes ∧ -1440 < minutes ∧ minutes < 1440)
    (inside : leastSeconds ≤ dayNumber fields.year fields.month fields.day * 86400
        + fields.secondOfDay - fields.offset ∧
      dayNumber fields.year fields.month fields.day * 86400 + fields.secondOfDay - fields.offset ≤
        greatestSeconds) :
    ∃ instant, fields.instant = .ok instant := by
  obtain ⟨minutes, offset, west, east⟩ := zone
  have known : fields.date? = some ⟨_, _, _, date⟩ := dif_pos date
  have within : -86400 < fields.offset ∧ fields.offset < 86400 := by omega
  have leap : fields.nanosOfSecond < nanosPerSecond ∨
      ((dayNumber fields.year fields.month fields.day * 86400 + fields.secondOfDay
        - fields.offset) % 60 = 59 ∧ fields.nanosOfSecond < 2 * nanosPerSecond) := by
    simp only [Fields.nanosOfSecond, Fields.secondOfDay, nanosPerSecond] at nanos ⊢
    split_ifs <;> omega
  refine ⟨⟨_, _, inside, leap⟩, ?_⟩
  simp only [Fields.instant, known, if_pos within, Date.dayNumber]
  rw [Instant.ofParts?, dif_pos inside, dif_pos leap]

namespace Fields.IsTime

variable {fields : Fields} {instant : Instant}

theorem instant_eq (time : fields.IsTime) :
    fields.instant =
      match Instant.ofParts? (dayNumber fields.year fields.month fields.day * 86400
          + fields.secondOfDay) fields.nanosOfSecond with
      | some instant => .ok instant
      | none => .error .impossible := by
  have date : fields.date? = some ⟨_, _, _, time.date⟩ := dif_pos time.date
  simp only [Fields.instant, date, time.utc, Int.sub_zero, Date.dayNumber]
  exact if_pos (by decide)

theorem shown_instant (time : fields.IsTime) (read : fields.instant = .ok instant) :
    instant.shown = fields := by
  have parts : instant.seconds = dayNumber fields.year fields.month fields.day * 86400
      + fields.secondOfDay ∧ instant.nanos = fields.nanosOfSecond := by
    rw [time.instant_eq, Instant.ofParts?] at read
    split_ifs at read
    cases read
    exact ⟨rfl, rfl⟩
  obtain ⟨seconds, nanos⟩ := parts
  rw [Fields.secondOfDay] at seconds
  rw [Fields.nanosOfSecond, nanosPerSecond] at nanos
  have civil := civilDate_dayNumber time.date
  obtain ⟨-, hour, minute, second, fraction, utc⟩ := time
  rw [nanosPerSecond] at fraction
  have day : instant.seconds / 86400 = dayNumber fields.year fields.month fields.day := by omega
  have ofDay : instant.secondOfDay =
      fields.hour * 3600 + fields.minute * 60 + min fields.second 59 := by
    rw [Instant.secondOfDay]
    omega
  rw [Instant.shown, ofDay, day, civil, nanosPerSecond]
  obtain ⟨year, month, dayOfMonth, hours, minutes, seconds, nanoseconds, offset⟩ := fields
  simp only [Fields.mk.injEq, true_and] at *
  split_ifs at nanos <;> omega

theorem exists_instant (time : fields.IsTime) : ∃ instant, fields.instant = .ok instant := by
  obtain ⟨low, high⟩ := dayNumber_bounds time.date
  refine Fields.exists_instant time.date time.nanos ⟨0, time.utc, by decide, by decide⟩ ?_
  obtain ⟨-, hour, minute, second, -, utc⟩ := time
  simp only [leastDay, greatestDay] at low high
  simp only [Fields.secondOfDay, leastSeconds, greatestSeconds, utc]
  omega

theorem instant_eq_ok (time : fields.IsTime) :
    fields.instant = .ok instant ↔ instant.shown = fields := by
  constructor
  · exact time.shown_instant
  · rintro rfl
    exact instant.instant_shown

end Fields.IsTime

namespace Strict

open Text (isDigit digitsValue)

variable {front rest left : List Char}

/-! ### Texts of fixed widths -/

theorem takeExactly?_append {width low high : Nat} (length : front.length = width) {value : Nat} :
    takeExactly? width low high (front ++ rest) = some (value, left) ↔
      ((∀ c ∈ front, isDigit c = true) ∧ low ≤ digitsValue front ∧ digitsValue front ≤ high) ∧
        value = digitsValue front ∧ left = rest := by
  subst length
  simp only [takeExactly?, List.take_left, List.drop_left, List.all_eq_true, true_and,
    Option.ite_none_right_eq_some, Option.some.injEq, Prod.mk.injEq, eq_comm (a := digitsValue front),
    eq_comm (a := rest)]

theorem takeLiteral?_cons (c : Char) : takeLiteral? c (c :: rest) = some left ↔ left = rest := by
  simp [takeLiteral?, eq_comm]

theorem takeSeparator_cons {separator : Char} (known : separator = ' ' ∨ separator = 'T') :
    (takeSeparator (separator :: rest)).toOption = some left ↔ left = rest := by
  rcases known with rfl | rfl <;> simp [takeSeparator, Except.toOption, eq_comm]

/-- A text that ends with a fraction is used up by it exactly if all of it are digits. -/
theorem takeFraction?_digits {digits : List Char} (some : digits ≠ []) {nanos : Nat} :
    takeFraction? ('.' :: digits) = Option.some (nanos, []) ↔
      (∀ c ∈ digits, isDigit c = true) ∧ nanos = fractionNanos digits := by
  simp only [takeFraction?, List.isEmpty_iff, Option.ite_none_left_eq_some, Option.some.injEq,
    Prod.mk.injEq, List.dropWhile_eq_nil_iff]
  constructor
  · rintro ⟨_, rfl, all⟩
    rw [List.takeWhile_eq_self_iff.2 all]
    exact ⟨all, rfl⟩
  · rintro ⟨all, rfl⟩
    rw [List.takeWhile_eq_self_iff.2 all]
    exact ⟨some, rfl, all⟩

end Strict

end LogCensus.Time
