import LogCensus.Proofs.Time.Strict

/-!
The date-times of RFC 3339 as they are written. The strict reader takes exactly these texts, and
each of them has an instant: years of four digits are far from the ends of the calendar.
-/

namespace LogCensus.Time

open Text (isDigit digitsValue paddedDigits)

/-! ### The grammar -/

/-- The zone of a date-time: `Z` in either case, or a sign, hours and minutes. The minus sign of
Unicode is one too. -/
inductive ZoneForm where
  | utc (mark : Char) (known : mark = 'Z' ∨ mark = 'z')
  | apart (sign : Char) (hours minutes : Nat)
    (known : sign = '+' ∨ sign = '-' ∨ sign.toNat = 0x2212) (hours_le : hours ≤ 23)
    (minutes_le : minutes ≤ 59)

namespace ZoneForm

def text : ZoneForm → List Char
  | utc mark _ => [mark]
  | apart sign hours minutes _ _ _ => sign :: (paddedDigits 2 hours ++ ':' :: paddedDigits 2 minutes)

def offset : ZoneForm → Int
  | utc _ _ => 0
  | apart sign hours minutes _ _ _ => signedOffset (sign != '+') hours minutes

end ZoneForm

/-- A date-time of RFC 3339: a date of the calendar, a separator, a time of day that may be a leap
second, digits of a fraction if there is one, and a zone. -/
structure DateTime where
  year : Nat
  month : Nat
  day : Nat
  separator : Char
  hour : Nat
  minute : Nat
  second : Nat
  fraction : Option (List Char)
  zone : ZoneForm
  year_le : year ≤ 9999
  date : isDate year month day = true
  separated : separator = 'T' ∨ separator = 't' ∨ separator = ' '
  hour_le : hour ≤ 23
  minute_le : minute ≤ 59
  second_le : second ≤ 60
  digits : ∀ digits ∈ fraction, digits ≠ [] ∧ ∀ c ∈ digits, isDigit c = true

namespace DateTime

def fractionText (fraction : Option (List Char)) : List Char :=
  fraction.elim [] ('.' :: ·)

def text (time : DateTime) : List Char :=
  paddedDigits 4 time.year ++ '-' :: (paddedDigits 2 time.month ++ '-' ::
    (paddedDigits 2 time.day ++ time.separator :: (paddedDigits 2 time.hour ++ ':' ::
      (paddedDigits 2 time.minute ++ ':' :: (paddedDigits 2 time.second
        ++ (fractionText time.fraction ++ time.zone.text))))))

theorem colon_mem (time : DateTime) : ':' ∈ time.text := by simp [text]

def fields (time : DateTime) : Fields where
  year := time.year
  month := time.month
  day := time.day
  hour := time.hour
  minute := time.minute
  second := time.second
  nanos := time.fraction.elim 0 fractionNanos
  offset := time.zone.offset

end DateTime

/-! ### Taking the parts -/

section Takers

open Strict

variable {text rest : List Char}

theorem takeExactly?_eq_some {width low high value : Nat} (fits : high < 10 ^ width) :
    takeExactly? width low high text = some (value, rest) ↔
      low ≤ value ∧ value ≤ high ∧ text = paddedDigits width value ++ rest := by
  constructor
  · intro taken
    simp only [takeExactly?, Option.ite_none_right_eq_some, Option.some.injEq, Prod.mk.injEq,
      List.all_eq_true] at taken
    obtain ⟨⟨length, all, least, most⟩, rfl, rfl⟩ := taken
    refine ⟨least, most, ?_⟩
    have shown := Text.paddedDigits_digitsValue all
    rw [length] at shown
    rw [shown, List.take_append_drop]
  · rintro ⟨least, most, rfl⟩
    have value_eq : digitsValue (paddedDigits width value) = value := by
      rw [Text.digitsValue_paddedDigits, Nat.mod_eq_of_lt (most.trans_lt fits)]
    rw [takeExactly?_append (Text.length_paddedDigits width value), value_eq]
    exact ⟨⟨fun c => Text.isDigit_of_mem_paddedDigits, least, most⟩, rfl, rfl⟩

theorem takeLiteral?_eq_some {c : Char} :
    takeLiteral? c text = some rest ↔ text = c :: rest := by
  cases text with
  | nil => simp [takeLiteral?]
  | cons front text => simp [takeLiteral?]

theorem takeSeparator_eq_ok :
    (takeSeparator text).toOption = some rest ↔
      ∃ c, (c = 'T' ∨ c = 't' ∨ c = ' ') ∧ text = c :: rest := by
  cases text with
  | nil => simp [takeSeparator, Except.toOption]
  | cons front text =>
    simp only [takeSeparator, List.cons.injEq]
    split_ifs with known
    · simp [Except.toOption, known]
    · simp only [Except.toOption, reduceCtorEq, false_iff, not_exists, not_and]
      rintro c other rfl
      exact absurd other known

theorem takeFraction?_sound {nanos : Nat} (taken : takeFraction? text = some (nanos, rest)) :
    ∃ fraction : Option (List Char),
      (∀ digits ∈ fraction, digits ≠ [] ∧ ∀ c ∈ digits, isDigit c = true) ∧
      text = DateTime.fractionText fraction ++ rest ∧ nanos = fraction.elim 0 fractionNanos := by
  unfold takeFraction? at taken
  split at taken
  · next digits =>
    rw [Option.ite_none_left_eq_some, Option.some.injEq, Prod.mk.injEq, List.isEmpty_iff] at taken
    obtain ⟨several, rfl, rfl⟩ := taken
    refine ⟨some (digits.takeWhile isDigit), ?_, ?_, rfl⟩
    · rintro _ ⟨⟩
      exact ⟨several, fun c => List.mem_takeWhile_imp⟩
    · exact congrArg ('.' :: ·) List.takeWhile_append_dropWhile.symm
  · cases taken
    exact ⟨none, nofun, rfl, rfl⟩

theorem takeFraction?_fractionText {fraction : Option (List Char)}
    (digits : ∀ digits ∈ fraction, digits ≠ [] ∧ ∀ c ∈ digits, isDigit c = true)
    (stop : ∀ c ∈ rest.head?, isDigit c = false ∧ c ≠ '.') :
    takeFraction? (DateTime.fractionText fraction ++ rest) =
      some (fraction.elim 0 fractionNanos, rest) := by
  cases fraction with
  | none =>
    unfold takeFraction?
    split
    · next point =>
      exact absurd rfl (stop '.' (by rw [← List.nil_append rest]; exact congrArg List.head? point)).2
    · rfl
  | some digits =>
    obtain ⟨several, all⟩ := digits _ rfl
    have cut : ∀ c ∈ rest.head?, isDigit c = false := fun c first => (stop c first).1
    change takeFraction? ('.' :: (_ ++ rest)) = _
    simp only [takeFraction?, Text.takeWhile_append_stop all cut, Text.dropWhile_append_stop all cut,
      List.isEmpty_iff, if_neg several]
    rfl

theorem takeOffsetSign_eq_ok {west : Bool} :
    (takeOffsetSign text).toOption = some (west, rest) ↔
      ∃ sign, (sign = '+' ∨ sign = '-' ∨ sign.toNat = 0x2212) ∧ west = (sign != '+') ∧
        text = sign :: rest := by
  cases text with
  | nil => simp [takeOffsetSign, Except.toOption]
  | cons front text =>
    simp only [takeOffsetSign, List.cons.injEq]
    split_ifs with plus minus
    · subst plus
      simp only [Except.toOption, Option.some.injEq, Prod.mk.injEq]
      constructor
      · rintro ⟨rfl, rfl⟩
        exact ⟨'+', .inl rfl, rfl, rfl, rfl⟩
      · rintro ⟨sign, -, rfl, rfl, rfl⟩
        exact ⟨rfl, rfl⟩
    · simp only [Except.toOption, Option.some.injEq, Prod.mk.injEq]
      constructor
      · rintro ⟨rfl, rfl⟩
        exact ⟨front, .inr minus, (bne_iff_ne.2 plus).symm, rfl, rfl⟩
      · rintro ⟨sign, -, rfl, rfl, rfl⟩
        exact ⟨(bne_iff_ne.2 plus).symm, rfl⟩
    · simp only [Except.toOption, reduceCtorEq, false_iff, not_exists, not_and]
      rintro sign known - rfl
      rcases known with same | other
      · exact absurd same plus
      · exact absurd other minus

/-- A zone with a letter in front is that of UTC. -/
theorem ZoneForm.exists_utc_iff {mark : Char} {left : List Char} (known : mark = 'Z' ∨ mark = 'z')
    {offset : Int} :
    (∃ zone : ZoneForm, mark :: left = zone.text ++ rest ∧ offset = zone.offset) ↔
      left = rest ∧ offset = 0 := by
  constructor
  · rintro ⟨zone, shown, rfl⟩
    cases zone with
    | utc other letter =>
      cases shown
      exact ⟨rfl, rfl⟩
    | apart sign hours minutes sign_known =>
      cases shown
      rcases known with rfl | rfl <;> exact absurd sign_known (by decide)
  · rintro ⟨rfl, rfl⟩
    exact ⟨.utc mark known, rfl, rfl⟩

theorem takeOffset?_eq_some {offset : Int} :
    takeOffset? text = some (offset, rest) ↔
      ∃ zone : ZoneForm, text = zone.text ++ rest ∧ offset = zone.offset := by
  have hours : (23 : Nat) < 10 ^ 2 := by decide
  have minutes : (59 : Nat) < 10 ^ 2 := by decide
  unfold takeOffset?
  split
  · rw [ZoneForm.exists_utc_iff (.inl rfl), Option.some.injEq, Prod.mk.injEq, and_comm,
      eq_comm (b := offset)]
  · rw [ZoneForm.exists_utc_iff (.inr rfl), Option.some.injEq, Prod.mk.injEq, and_comm,
      eq_comm (b := offset)]
  · next noCapital noSmall =>
    simp only [Option.bind_eq_bind, Option.bind_eq_some_iff, Prod.exists, takeOffsetSign_eq_ok,
      takeExactly?_eq_some hours, takeExactly?_eq_some minutes, takeLiteral?_eq_some,
      Option.some.injEq, Prod.mk.injEq]
    constructor
    · rintro ⟨_, _, ⟨sign, known, rfl, rfl⟩, hours, _, ⟨-, hours_le, rfl⟩, _, rfl, minutes, _,
        ⟨-, minutes_le, rfl⟩, rfl, rfl⟩
      refine ⟨.apart sign hours minutes known hours_le minutes_le, ?_, rfl⟩
      simp only [ZoneForm.text, List.cons_append, List.append_assoc]
    · rintro ⟨zone, rfl, rfl⟩
      cases zone with
      | utc mark known =>
        rcases known with rfl | rfl
        · exact absurd rfl (noCapital rest)
        · exact absurd rfl (noSmall rest)
      | apart sign hours minutes known hours_le minutes_le =>
        exact ⟨_, _, ⟨sign, known, rfl, rfl⟩, hours, _,
          ⟨Nat.zero_le _, hours_le, List.append_assoc _ _ _⟩, _, rfl, minutes, _,
          ⟨Nat.zero_le _, minutes_le, rfl⟩, rfl, rfl⟩

theorem ZoneForm.text_stop (zone : ZoneForm) :
    ∀ c ∈ zone.text.head?, isDigit c = false ∧ c ≠ '.' := by
  intro c first
  cases zone with
  | utc mark known =>
    cases first
    rcases known with rfl | rfl <;> decide
  | apart sign hours minutes known =>
    cases first
    rcases known with rfl | rfl | true
    · decide
    · decide
    · refine ⟨?_, fun point => ?_⟩
      · rw [← Bool.not_eq_true, Text.isDigit_iff]
        omega
      · rw [point] at true
        cases true

end Takers

/-! ### What the strict reader takes -/

theorem DateTime.day_le (time : DateTime) :
    (1 ≤ time.month ∧ time.month ≤ 12) ∧ 1 ≤ time.day ∧ time.day ≤ 31 := by
  have date := time.date
  simp only [isDate, Bool.and_eq_true, decide_eq_true_eq] at date
  obtain ⟨⟨⟨⟨-, monthLow⟩, monthHigh⟩, dayLow⟩, dayHigh⟩ := date
  exact ⟨⟨monthLow, monthHigh⟩, dayLow, dayHigh.trans (daysInMonth_le _ _)⟩

namespace Strict

-- the greatest values of the parts, which fit their widths
theorem year_fits : (9999 : Nat) < 10 ^ 4 := by decide
theorem month_fits : (12 : Nat) < 10 ^ 2 := by decide
theorem day_fits : (31 : Nat) < 10 ^ 2 := by decide
theorem hour_fits : (23 : Nat) < 10 ^ 2 := by decide
theorem minute_fits : (59 : Nat) < 10 ^ 2 := by decide
theorem second_fits : (60 : Nat) < 10 ^ 2 := by decide

/-- With a day of the calendar in them, the fields of a whole text are those of a date-time. -/
theorem takeFields?_eq_some {text : List Char} {fields : Fields}
    (date : isDate fields.year fields.month fields.day = true) :
    takeFields? text = some (fields, []) ↔ ∃ time : DateTime, text = time.text ∧ fields = time.fields := by
  simp only [takeFields?, takeDateTime?, Option.bind_eq_bind, Option.bind_eq_some_iff, Prod.exists,
    takeExactly?_eq_some year_fits, takeExactly?_eq_some month_fits, takeExactly?_eq_some day_fits,
    takeExactly?_eq_some hour_fits, takeExactly?_eq_some minute_fits,
    takeExactly?_eq_some second_fits, takeLiteral?_eq_some, takeSeparator_eq_ok,
    takeOffset?_eq_some, Option.some.injEq, Prod.mk.injEq]
  constructor
  · rintro ⟨_, _, ⟨year, _, ⟨-, year_le, rfl⟩, _, rfl, month, _, ⟨-, -, rfl⟩, _, rfl, day, _,
      ⟨-, -, rfl⟩, _, ⟨separator, separated, rfl⟩, hour, _, ⟨-, hour_le, rfl⟩, _, rfl, minute, _,
      ⟨-, minute_le, rfl⟩, _, rfl, second, _, ⟨-, second_le, rfl⟩, nanos, rest, fraction, rfl, rfl⟩,
      offset, left, ⟨zone, shown, rfl⟩, rfl, rfl⟩
    obtain ⟨digits, all, rfl, rfl⟩ := takeFraction?_sound fraction
    rw [List.append_nil] at shown
    exact ⟨⟨year, month, day, separator, hour, minute, second, digits, zone, year_le, date,
      separated, hour_le, minute_le, second_le, all⟩, by rw [shown]; rfl, rfl⟩
  · rintro ⟨time, rfl, rfl⟩
    obtain ⟨⟨monthLow, monthHigh⟩, dayLow, dayHigh⟩ := time.day_le
    have fraction := takeFraction?_fractionText time.digits time.zone.text_stop
    exact ⟨_, _, ⟨_, _, ⟨Nat.zero_le _, time.year_le, rfl⟩, _, rfl, _, _,
      ⟨monthLow, monthHigh, rfl⟩, _, rfl, _, _, ⟨dayLow, dayHigh, rfl⟩, _, ⟨_, time.separated, rfl⟩,
      _, _, ⟨Nat.zero_le _, time.hour_le, rfl⟩, _, rfl, _, _, ⟨Nat.zero_le _, time.minute_le, rfl⟩,
      _, rfl, _, _, ⟨Nat.zero_le _, time.second_le, rfl⟩, _, _, fraction, rfl, rfl⟩,
      _, _, ⟨time.zone, (List.append_nil _).symm, rfl⟩, rfl, rfl⟩

/-- The strict reader takes the date-times and gives their instants. -/
theorem readInstant?_eq_some {text : List Char} {instant : Instant} :
    readInstant? text = some instant ↔
      ∃ time : DateTime, text = time.text ∧ time.fields.instant = .ok instant := by
  constructor
  · intro read
    unfold readInstant? at read
    split at read
    · next fields taken =>
      cases known : fields.instant with
      | error fault =>
        rw [known] at read
        cases read
      | ok found =>
        rw [known] at read
        cases read
        obtain ⟨time, shown, rfl⟩ := (takeFields?_eq_some (Fields.isDate_of_instant known)).1 taken
        exact ⟨time, shown, known⟩
    · cases read
  · rintro ⟨time, rfl, known⟩
    simp only [readInstant?, (takeFields?_eq_some time.date).2 ⟨time, rfl, rfl⟩, known]
    rfl

end Strict

/-- Zones are whole minutes, less than a day away from UTC. -/
theorem ZoneForm.offset_range (zone : ZoneForm) :
    ∃ minutes : Int, zone.offset = 60 * minutes ∧ -1440 < minutes ∧ minutes < 1440 := by
  cases zone with
  | utc mark known => exact ⟨0, rfl, by decide, by decide⟩
  | apart sign hours minutes known hours_le minutes_le =>
    simp only [ZoneForm.offset, signedOffset]
    split_ifs
    · exact ⟨-(hours * 60 + minutes), by ring, by omega, by omega⟩
    · exact ⟨hours * 60 + minutes, by ring, by omega, by omega⟩

namespace DateTime

theorem dayNumber_range (time : DateTime) :
    -1000000 < dayNumber time.year time.month time.day ∧
      dayNumber time.year time.month time.day < 4000000 := by
  obtain ⟨month, day⟩ := time.day_le
  have year := time.year_le
  simp only [dayNumber]
  split_ifs <;> omega

theorem exists_instant (time : DateTime) : ∃ instant, time.fields.instant = .ok instant := by
  obtain ⟨low, high⟩ := time.dayNumber_range
  have hour := time.hour_le
  have minute := time.minute_le
  have second := time.second_le
  have nanos : time.fields.nanos < nanosPerSecond := by
    change time.fraction.elim 0 fractionNanos < _
    cases given : time.fraction with
    | none => decide
    | some digits => exact fractionNanos_lt (time.digits digits given).2
  refine Fields.exists_instant time.date nanos time.zone.offset_range ?_
  obtain ⟨minutes, offset, west, east⟩ := time.zone.offset_range
  have ofDay : time.fields.secondOfDay =
      time.hour * 3600 + time.minute * 60 + (min time.second 59 : Nat) := rfl
  have zone : time.fields.offset = time.zone.offset := rfl
  have day : dayNumber time.fields.year time.fields.month time.fields.day =
      dayNumber time.year time.month time.day := rfl
  rw [ofDay, zone, offset, day]
  simp only [leastSeconds, greatestSeconds]
  omega

end DateTime

theorem Strict.isSome_readInstant?_iff {text : List Char} :
    (readInstant? text).isSome ↔ ∃ time : DateTime, text = time.text := by
  rw [Option.isSome_iff_exists]
  constructor
  · rintro ⟨instant, read⟩
    obtain ⟨time, shown, -⟩ := readInstant?_eq_some.1 read
    exact ⟨time, shown⟩
  · rintro ⟨time, shown⟩
    obtain ⟨instant, known⟩ := time.exists_instant
    exact ⟨instant, readInstant?_eq_some.2 ⟨time, shown, known⟩⟩

/-- An instant of the years 0 to 9999 is written in the form of RFC 3339, its leap second and its
fraction included, and the strict reader takes it back. -/
theorem Strict.readInstant?_zuluText {instant : Instant}
    (year : 0 ≤ instant.shown.year ∧ instant.shown.year ≤ 9999) :
    readInstant? instant.zuluText.toList = some instant := by
  have range := instant.inRange_shown
  have date := instant.isDate_shown
  obtain ⟨fraction, formed, fraction_text, fraction_nanos⟩ := exists_fraction range.nanos
  have digits : ∀ digits ∈ fraction, digits ≠ [] ∧ ∀ c ∈ digits, isDigit c = true :=
    fun digits given => ⟨(formed digits given).1, (formed digits given).2.2⟩
  have year_eq : (instant.shown.year.toNat : Int) = instant.shown.year := Int.toNat_of_nonneg year.1
  let time : DateTime := ⟨instant.shown.year.toNat, instant.shown.month, instant.shown.day, 'T',
    instant.shown.hour, instant.shown.minute, instant.shown.second, fraction, .utc 'Z' (.inl rfl),
    by omega, year_eq.symm ▸ date, .inl rfl, range.hour, range.minute, range.second, digits⟩
  refine readInstant?_eq_some.2 ⟨time, ?_, ?_⟩
  · rw [Instant.zuluText, String.toList_ofList, Instant.dateTimeText_eq, Instant.yearText, if_pos year,
      fraction_text]
    simp only [DateTime.text, DateTime.fractionText, ZoneForm.text, List.append_assoc,
      List.cons_append, time]
  · have fields : time.fields = instant.shown := by
      simp only [DateTime.fields, time, year_eq, fraction_nanos]
      rfl
    rw [fields]
    exact instant.instant_shown

end LogCensus.Time
