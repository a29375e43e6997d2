import LogCensus.Proofs.Text.Numeral
import LogCensus.Proofs.Time.Calendar
import LogCensus.Time.Reading

/-!
The written form of an instant reads back as the instant. Each item of a pattern takes exactly the
digits written for it, since what follows them is no digit.
-/

namespace LogCensus.Time

open Text (isDigit digitsValue paddedDigits)

variable {front rest : List Char}

/-! ### Digits in front of a text -/

theorem isBlank_of_isDigit {c : Char} (digit : isDigit c = true) : Text.isBlank c = false := by
  have range := Text.isDigit_iff.1 digit
  simp only [Text.isBlank, Bool.or_eq_false_iff, Bool.and_eq_false_iff, decide_eq_false_iff_not,
    beq_eq_false_iff_ne]
  omega

theorem trimLeft_digits (some : front ≠ []) (all : ∀ c ∈ front, isDigit c = true) :
    Text.trimLeft (front ++ rest) = front ++ rest := by
  cases front with
  | nil => exact absurd rfl some
  | cons c front =>
    exact Text.trimLeft_cons_solid c _ (isBlank_of_isDigit (all c List.mem_cons_self))

/-- Digits are taken up to the most there may be, or up to what is none. -/
theorem takeNumber_digits {most : Nat} (some : front ≠ []) (all : ∀ c ∈ front, isDigit c = true)
    (stop : front.length = most ∨ (front.length ≤ most ∧ ∀ c ∈ rest.head?, isDigit c = false)) :
    takeNumber most (front ++ rest) = .ok (digitsValue front, rest) := by
  have taken : ((front ++ rest).take most).takeWhile isDigit = front := by
    rcases stop with exact | ⟨room, stop⟩
    · rw [← exact, List.take_left, List.takeWhile_eq_self_iff.2 all]
    · rw [List.take_append, List.take_of_length_le room]
      apply Text.takeWhile_append_stop all
      cases rest with
      | nil => simp
      | cons c rest =>
        cases h : most - front.length with
        | zero => simp
        | succ left => simpa using stop
  cases front with
  | nil => exact absurd rfl some
  | cons c front =>
    have digit := all c List.mem_cons_self
    simp only [List.cons_append] at taken ⊢
    simp only [takeNumber, digit, if_true, taken]
    rw [← List.cons_append, List.drop_left]

theorem takeField_paddedDigits {low high value : Nat} (least : low ≤ value) (most : value ≤ high)
    (short : high < 100) :
    takeField low high (paddedDigits 2 value ++ rest) = .ok (value, rest) := by
  have some : paddedDigits 2 value ≠ [] := by simp [paddedDigits]
  have all : ∀ c ∈ paddedDigits 2 value, isDigit c = true :=
    fun c => Text.isDigit_of_mem_paddedDigits
  have number : digitsValue (paddedDigits 2 value) = value := by
    rw [Text.digitsValue_paddedDigits]
    exact Nat.mod_eq_of_lt (by omega)
  rw [takeField, trimLeft_digits some all, takeNumber_digits some all (.inl
    (Text.length_paddedDigits 2 value)), number]
  exact if_pos ⟨least, most⟩

/-! ### Years -/

/-- A year without sign: digits start with none. -/
theorem takeYear_digits (some : front ≠ []) (all : ∀ c ∈ front, isDigit c = true)
    (length : front.length = 4) :
    takeYear (front ++ rest) = checkedYear (digitsValue front) rest := by
  have taken : takeNumber 4 (front ++ rest) = .ok (digitsValue front, rest) :=
    takeNumber_digits some all (.inl length)
  rw [takeYear, trimLeft_digits some all]
  cases front with
  | nil => exact absurd rfl some
  | cons c front =>
    have digit := all c List.mem_cons_self
    rw [List.cons_append] at taken ⊢
    split
    · next same =>
      cases same
      cases digit
    · next same =>
      cases same
      cases digit
    · rw [taken]
      rfl

theorem takeYear_signed (size : Nat) (negative : Bool)
    (stop : ∀ c ∈ rest.head?, isDigit c = false) :
    takeYear ((if negative then '-' else '+') :: Text.digitsAtLeast 4 size ++ rest) =
      checkedYear (if negative then -(size : Int) else size) rest := by
  have some : Text.digitsAtLeast 4 size ≠ [] := by
    rw [← List.length_pos_iff, Text.digitsAtLeast, Text.length_paddedDigits]
    exact Nat.lt_of_lt_of_le (by decide) (Nat.le_max_left 4 _)
  have all : ∀ c ∈ Text.digitsAtLeast 4 size, isDigit c = true :=
    fun c => Text.isDigit_of_mem_paddedDigits
  have room : (Text.digitsAtLeast 4 size).length ≤ (Text.digitsAtLeast 4 size ++ rest).length := by
    rw [List.length_append]
    exact Nat.le_add_right _ _
  have taken := takeNumber_digits some all (.inr ⟨room, stop⟩)
  rw [Text.digitsValue_digitsAtLeast] at taken
  cases negative with
  | true =>
    have sign : Text.isBlank '-' = false := by decide
    simp only [takeYear, if_true, List.cons_append, Text.trimLeft_cons_solid _ _ sign, taken]
    rfl
  | false =>
    have sign : Text.isBlank '+' = false := by decide
    simp only [takeYear, Bool.false_eq_true, if_false, List.cons_append,
      Text.trimLeft_cons_solid _ _ sign, taken]
    rfl

theorem takeYear_yearText {year : Int} (least : leastYear ≤ year) (most : year ≤ greatestYear)
    (stop : ∀ c ∈ rest.head?, isDigit c = false) :
    takeYear (Instant.yearText year ++ rest) = .ok (year, rest) := by
  have word : checkedYear year rest = .ok (year, rest) := by
    simp only [leastYear, greatestYear] at least most
    exact if_pos ⟨by omega, by omega⟩
  unfold Instant.yearText
  split
  · next short =>
    have number : (digitsValue (paddedDigits 4 year.toNat) : Int) = year := by
      rw [Text.digitsValue_paddedDigits, Nat.mod_eq_of_lt (by omega), Int.toNat_of_nonneg short.1]
    rw [takeYear_digits (by simp [paddedDigits]) (fun c => Text.isDigit_of_mem_paddedDigits)
      (Text.length_paddedDigits 4 _), number, word]
  · next long =>
    have number : (if decide (year < 0) = true then -(year.natAbs : Int) else year.natAbs) = year := by
      simp only [decide_eq_true_eq]
      split <;> omega
    have read := takeYear_signed year.natAbs (decide (year < 0)) stop
    rw [number, word] at read
    simpa only [decide_eq_true_eq] using read

/-! ### Fractions of a second -/

theorem takeFraction_digits (some : front ≠ []) (all : ∀ c ∈ front, isDigit c = true)
    (length : front.length ≤ 9) (stop : ∀ c ∈ rest.head?, isDigit c = false) :
    takeFraction ('.' :: front ++ rest) = .ok (fractionNanos front, rest) := by
  have taken := takeNumber_digits some all (.inr ⟨length, stop⟩)
  simp only [takeFraction, List.cons_append, taken, Text.takeWhile_append_stop all stop,
    Text.dropWhile_append_stop all stop]
  rfl

theorem takeFraction_none (stop : ∀ c ∈ rest.head?, c ≠ '.') :
    takeFraction rest = .ok (0, rest) := by
  unfold takeFraction
  split
  · exact absurd rfl (stop '.' rfl)
  · rfl

theorem fractionNanos_paddedDigits {width value : Nat} (room : width ≤ 9)
    (few : value < 10 ^ width) :
    fractionNanos (paddedDigits width value) = value * 10 ^ (9 - width) := by
  have length := Text.length_paddedDigits width value
  rw [fractionNanos, List.take_of_length_le (length.symm ▸ room), Text.digitsValue_paddedDigits,
    Nat.mod_eq_of_lt few, length, Nat.pow_eq]

/-- What is written for a fraction of a second: nothing, or a point and up to nine digits that
stand for it. -/
theorem exists_fraction {nanos : Nat} (small : nanos < nanosPerSecond) :
    ∃ fraction : Option (List Char),
      (∀ digits ∈ fraction, digits ≠ [] ∧ digits.length ≤ 9 ∧ ∀ c ∈ digits, isDigit c = true) ∧
      Instant.fractionText nanos = fraction.elim [] ('.' :: ·) ∧
      fraction.elim 0 fractionNanos = nanos := by
  have padded (width value : Nat) (some : 0 < width) (room : width ≤ 9) :
      ∀ digits ∈ Option.some (paddedDigits width value),
        digits ≠ [] ∧ digits.length ≤ 9 ∧ ∀ c ∈ digits, isDigit c = true := by
    rintro _ ⟨⟩
    rw [← List.length_pos_iff, Text.length_paddedDigits]
    exact ⟨some, room, fun c => Text.isDigit_of_mem_paddedDigits⟩
  rw [nanosPerSecond] at small
  unfold Instant.fractionText
  split_ifs with zero millis micros
  · refine ⟨none, ?_, rfl, zero.symm⟩
    rintro _ ⟨⟩
  · refine ⟨some (paddedDigits 3 (nanos / 1000000)), padded 3 _ (by decide) (by decide), rfl, ?_⟩
    rw [Option.elim_some, fractionNanos_paddedDigits (by decide) (by omega)]
    exact Nat.div_mul_cancel (Nat.dvd_of_mod_eq_zero millis)
  · refine ⟨some (paddedDigits 6 (nanos / 1000)), padded 6 _ (by decide) (by decide), rfl, ?_⟩
    rw [Option.elim_some, fractionNanos_paddedDigits (by decide) (by omega)]
    exact Nat.div_mul_cancel (Nat.dvd_of_mod_eq_zero micros)
  · refine ⟨some (paddedDigits 9 nanos), padded 9 _ (by decide) (by decide), rfl, ?_⟩
    rw [Option.elim_some, fractionNanos_paddedDigits (by decide) (by omega), Nat.sub_self, pow_zero,
      Nat.mul_one]

def EndsTime (rest : List Char) : Prop :=
  ∀ c ∈ rest.head?, isDigit c = false ∧ c ≠ '.'

theorem takeFraction_fractionText {nanos : Nat} (small : nanos < nanosPerSecond)
    (stop : EndsTime rest) :
    takeFraction (Instant.fractionText nanos ++ rest) = .ok (nanos, rest) := by
  obtain ⟨fraction, formed, text, value⟩ := exists_fraction small
  rw [text, ← value]
  cases fraction with
  | none => exact takeFraction_none fun c first => (stop c first).2
  | some digits =>
    obtain ⟨some, length, all⟩ := formed digits rfl
    exact takeFraction_digits some all length fun c first => (stop c first).1

/-! ### Patterns -/

theorem takeItems_cons {item : Item} {pattern : List Item} {fields next : Fields}
    {text rest : List Char} (taken : item.take fields text = .ok (next, rest)) :
    takeItems (item :: pattern) fields text = takeItems pattern next rest := by
  rw [takeItems, taken]
  rfl

theorem take_literal (c : Char) (fields : Fields) (rest : List Char) :
    (Item.literal c).take fields (c :: rest) = .ok (fields, rest) := by
  simp [Item.take, takeLiteral, Except.map]

theorem take_blanks {c : Char} (solid : Text.isBlank c = false) (fields : Fields)
    (rest : List Char) : Item.blanks.take fields (c :: rest) = .ok (fields, c :: rest) := by
  rw [Item.take, Text.trimLeft_cons_solid c rest solid]

theorem take_separator (fields : Fields) (rest : List Char) :
    Item.separator.take fields ('T' :: rest) = .ok (fields, rest) := rfl

structure InRange (fields : Fields) : Prop where
  year : leastYear ≤ fields.year ∧ fields.year ≤ greatestYear
  month : 1 ≤ fields.month ∧ fields.month ≤ 12
  day : 1 ≤ fields.day ∧ fields.day ≤ 31
  hour : fields.hour ≤ 23
  minute : fields.minute ≤ 59
  second : fields.second ≤ 60
  nanos : fields.nanos < nanosPerSecond

section Items

variable {shown : Fields} (range : InRange shown) (fields : Fields) (rest : List Char)
include range

theorem take_year : Item.year.take fields (Instant.yearText shown.year ++ '-' :: rest) =
    .ok ({ fields with year := shown.year }, '-' :: rest) := by
  rw [Item.take, takeYear_yearText range.year.1 range.year.2 (by simp [isDigit])]
  rfl

theorem take_month : Item.month.take fields (paddedDigits 2 shown.month ++ rest) =
    .ok ({ fields with month := shown.month }, rest) := by
  rw [Item.take, takeField_paddedDigits range.month.1 range.month.2 (by decide)]
  rfl

theorem take_day : Item.day.take fields (paddedDigits 2 shown.day ++ rest) =
    .ok ({ fields with day := shown.day }, rest) := by
  rw [Item.take, takeField_paddedDigits range.day.1 range.day.2 (by decide)]
  rfl

theorem take_hour : Item.hour.take fields (paddedDigits 2 shown.hour ++ rest) =
    .ok ({ fields with hour := shown.hour }, rest) := by
  rw [Item.take, takeField_paddedDigits (Nat.zero_le _) range.hour (by decide)]
  rfl

theorem take_minute : Item.minute.take fields (paddedDigits 2 shown.minute ++ rest) =
    .ok ({ fields with minute := shown.minute }, rest) := by
  rw [Item.take, takeField_paddedDigits (Nat.zero_le _) range.minute (by decide)]
  rfl

theorem take_second : Item.second.take fields (paddedDigits 2 shown.second ++ rest) =
    .ok ({ fields with second := shown.second }, rest) := by
  rw [Item.take, takeField_paddedDigits (Nat.zero_le _) range.second (by decide)]
  rfl

variable {rest}

theorem take_fraction (stop : EndsTime rest) :
    Item.fraction.take fields (Instant.fractionText shown.nanos ++ rest) =
      .ok ({ fields with nanos := shown.nanos }, rest) := by
  rw [Item.take, takeFraction_fractionText range.nanos stop]
  rfl

end Items

namespace Instant

def secondOfDay (instant : Instant) : Nat := (instant.seconds % 86400).toNat

def shown (instant : Instant) : Fields where
  year := (civilDate (instant.seconds / 86400)).1
  month := (civilDate (instant.seconds / 86400)).2.1
  day := (civilDate (instant.seconds / 86400)).2.2
  hour := instant.secondOfDay / 3600
  minute := instant.secondOfDay / 60 % 60
  second := instant.secondOfDay % 60 + instant.nanos / nanosPerSecond
  nanos := instant.nanos % nanosPerSecond

def secondOfDayAt (instant : Instant) (offset : Int) : Nat :=
  ((instant.seconds + offset) % 86400).toNat

def shownAt (instant : Instant) (offset : Int) : Fields where
  year := (civilDate ((instant.seconds + offset) / 86400)).1
  month := (civilDate ((instant.seconds + offset) / 86400)).2.1
  day := (civilDate ((instant.seconds + offset) / 86400)).2.2
  hour := instant.secondOfDayAt offset / 3600
  minute := instant.secondOfDayAt offset / 60 % 60
  second := instant.secondOfDayAt offset % 60 + instant.nanos / nanosPerSecond
  nanos := instant.nanos % nanosPerSecond
  offset := offset

variable (instant : Instant)

theorem dateTimeText_eq (separator : Char) :
    dateTimeText separator instant =
      yearText instant.shown.year ++ '-' :: paddedDigits 2 instant.shown.month
        ++ '-' :: paddedDigits 2 instant.shown.day
        ++ separator :: paddedDigits 2 instant.shown.hour
        ++ ':' :: paddedDigits 2 instant.shown.minute
        ++ ':' :: paddedDigits 2 instant.shown.second
        ++ fractionText instant.shown.nanos := rfl

theorem isDate_shown :
    isDate instant.shown.year instant.shown.month instant.shown.day = true := by
  obtain ⟨low, high⟩ := instant.seconds_range
  simp only [leastSeconds, greatestSeconds] at low high
  apply isDate_civilDate
  · simp only [leastDay]
    omega
  · simp only [greatestDay]
    omega

variable {offset : Int}

theorem shownAt_second (whole : offset % 60 = 0) :
    (instant.shownAt offset).second ≤ 60 ∧
      ((instant.shownAt offset).second = 60 ↔ nanosPerSecond ≤ instant.nanos) ∧
      min (instant.shownAt offset).second 59 = instant.secondOfDayAt offset % 60 := by
  have range := instant.nanos_range
  simp only [shownAt, secondOfDayAt]
  rw [nanosPerSecond] at range ⊢
  omega

variable {instant}

/-- What a clock shows reads back, if its date is one of the calendar. -/
theorem instant_shownAt (small : -86400 < offset ∧ offset < 86400) (whole : offset % 60 = 0)
    (valid : isDate (instant.shownAt offset).year (instant.shownAt offset).month
      (instant.shownAt offset).day = true) :
    (instant.shownAt offset).instant = .ok instant := by
  obtain ⟨-, leapSecond, second⟩ := instant.shownAt_second whole
  have day := dayNumber_civilDate ((instant.seconds + offset) / 86400)
  have ofDay : (instant.secondOfDayAt offset : Int) = (instant.seconds + offset) % 86400 :=
    Int.toNat_of_nonneg (Int.emod_nonneg _ (by decide))
  have date : (instant.shownAt offset).date? = some ⟨_, _, _, valid⟩ := dif_pos valid
  have hour : (instant.shownAt offset).hour = instant.secondOfDayAt offset / 3600 := rfl
  have minute : (instant.shownAt offset).minute = instant.secondOfDayAt offset / 60 % 60 := rfl
  have known : (instant.shownAt offset).offset = offset := rfl
  have seconds : dayNumber (instant.shownAt offset).year (instant.shownAt offset).month
      (instant.shownAt offset).day * 86400 + (instant.shownAt offset).secondOfDay
        - offset = instant.seconds := by
    change dayNumber (instant.shownAt offset).year (instant.shownAt offset).month
      (instant.shownAt offset).day = _ at day
    rw [day, Fields.secondOfDay, hour, minute]
    omega
  have nanos : (instant.shownAt offset).nanosOfSecond = instant.nanos := by
    have range := instant.nanos_range
    have fraction : (instant.shownAt offset).nanos = instant.nanos % nanosPerSecond := rfl
    simp only [Fields.nanosOfSecond, leapSecond, fraction]
    rw [nanosPerSecond] at range ⊢
    split_ifs <;> omega
  have inCalendar : Instant.ofParts? instant.seconds instant.nanos = some instant := by
    rw [ofParts?, dif_pos instant.seconds_range, dif_pos instant.nanos_range]
  simp only [Fields.instant, date, Date.dayNumber, seconds, nanos, inCalendar, known, if_pos small]

theorem inRange_shownAt (whole : offset % 60 = 0)
    (valid : isDate (instant.shownAt offset).year (instant.shownAt offset).month
      (instant.shownAt offset).day = true) : InRange (instant.shownAt offset) := by
  simp only [isDate, Bool.and_eq_true, decide_eq_true_eq] at valid
  obtain ⟨⟨⟨⟨year, month_low⟩, month_high⟩, day_low⟩, day_high⟩ := valid
  have time : instant.secondOfDayAt offset < 86400 := by
    simp only [secondOfDayAt]
    omega
  have hour_le : instant.secondOfDayAt offset / 3600 ≤ 23 := by omega
  have minute_le : instant.secondOfDayAt offset / 60 % 60 ≤ 59 := by omega
  exact ⟨year, ⟨month_low, month_high⟩, ⟨day_low, day_high.trans (daysInMonth_le _ _)⟩, hour_le,
    minute_le, (instant.shownAt_second whole).1, Nat.mod_lt _ (by decide)⟩

variable (instant)

theorem shownAt_zero : instant.shownAt 0 = instant.shown := by
  simp only [shownAt, secondOfDayAt, Int.add_zero]
  rfl

theorem instant_shown : instant.shown.instant = .ok instant := by
  have valid := instant.isDate_shown
  rw [← shownAt_zero] at valid ⊢
  exact instant_shownAt (by decide) (by decide) valid

theorem inRange_shown : InRange instant.shown := by
  have valid := instant.isDate_shown
  rw [← shownAt_zero] at valid ⊢
  exact inRange_shownAt (by decide) valid

/-- Date and time of day are taken one by one, up to what stands behind the fraction. -/
theorem takeItems_dateTime {rest : List Char} (stop : EndsTime rest) :
    takeItems freePattern {} (dateTimeText 'T' instant ++ rest) =
      takeItems [.blanks, .zone, .blanks] instant.shown rest := by
  have range := instant.inRange_shown
  have dash : Text.isBlank '-' = false := by decide
  have colon : Text.isBlank ':' = false := by decide
  rw [dateTimeText_eq]
  simp only [List.append_assoc, List.cons_append, freePattern]
  -- date
  rw [takeItems_cons (take_year range _ _), takeItems_cons (take_blanks dash _ _),
    takeItems_cons (take_literal '-' _ _), takeItems_cons (take_month range _ _),
    takeItems_cons (take_blanks dash _ _), takeItems_cons (take_literal '-' _ _),
    takeItems_cons (take_day range _ _), takeItems_cons (take_separator _ _)]
  -- time of day
  rw [takeItems_cons (take_hour range _ _), takeItems_cons (take_blanks colon _ _),
    takeItems_cons (take_literal ':' _ _), takeItems_cons (take_minute range _ _),
    takeItems_cons (take_blanks colon _ _), takeItems_cons (take_literal ':' _ _),
    takeItems_cons (take_second range _ _), takeItems_cons (take_fraction range _ stop)]
  rfl

theorem readInstant_zuluText : readInstant freePattern instant.zuluText.toList = .ok instant := by
  have stop : EndsTime ['Z'] := by
    intro c first
    cases first
    decide
  rw [readInstant, zuluText, String.toList_ofList, instant.takeItems_dateTime stop]
  have left : takeItems [.blanks, .zone, .blanks] instant.shown ['Z'] = .ok (instant.shown, []) :=
    rfl
  rw [left]
  exact instant.instant_shown

end Instant

end LogCensus.Time
