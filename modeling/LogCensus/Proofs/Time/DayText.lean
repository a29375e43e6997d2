import LogCensus.Proofs.Text.Blank
import LogCensus.Proofs.Time.DateTime
import LogCensus.Proofs.Time.Day

/-!
The texts that stand for a day. Next to four digits, two and two with hyphens between them the
reader of dates takes a year of fewer digits, or of any number of them behind a sign, and a month and
a day of one digit or with blanks in front. In UTC these texts and the date-times are the bounds
there are.
-/

namespace LogCensus.Time

open Text (isBlank isDigit isMinus digitsValue paddedDigits signText)

/-! ### Numbers in front of a text -/

structure Digits (most : Nat) (text : List Char) : Prop where
  some : text ≠ []
  few : text.length ≤ most
  all : ∀ c ∈ text, isDigit c = true

section Takers

variable {text rest : List Char}

theorem digits_paddedDigits (width value : Nat) (positive : 0 < width) :
    Digits width (paddedDigits width value) where
  some := by
    rw [← List.length_pos_iff, Text.length_paddedDigits]
    exact positive
  few := (Text.length_paddedDigits width value).le
  all := fun _ => Text.isDigit_of_mem_paddedDigits

theorem exists_digits_of_takeNumber {most value : Nat} (positive : 0 < most)
    (taken : takeNumber most text = .ok (value, rest)) :
    ∃ digits, Digits most digits ∧ text = digits ++ rest ∧ value = digitsValue digits := by
  unfold takeNumber at taken
  split at taken
  · cases taken
  · next c tail =>
    split_ifs at taken with digit
    rw [Except.ok.injEq, Prod.mk.injEq] at taken
    obtain ⟨rfl, rfl⟩ := taken
    have short : ((c :: tail).take most).takeWhile isDigit <+: (c :: tail).take most :=
      List.takeWhile_prefix _
    have front := List.prefix_iff_eq_append.1 (short.trans (List.take_prefix _ _))
    refine ⟨_, ⟨?_, short.length_le.trans (List.length_take_le _ _),
      fun _ => List.mem_takeWhile_imp⟩, front.symm, rfl⟩
    obtain ⟨less, rfl⟩ := Nat.exists_eq_succ_of_ne_zero positive.ne'
    simp [digit]

theorem exists_digits_of_takeField {low high value : Nat}
    (taken : takeField low high text = .ok (value, rest)) :
    ∃ gap digits, (∀ c ∈ gap, isBlank c = true) ∧ Digits 2 digits ∧
      text = gap ++ (digits ++ rest) ∧ value = digitsValue digits := by
  unfold takeField at taken
  cases number : takeNumber 2 (Text.trimLeft text) with
  | error fault =>
    rw [number] at taken
    cases taken
  | ok found =>
    rw [number] at taken
    change (if low ≤ found.1 ∧ found.1 ≤ high then Except.ok (found.1, found.2) else _) = _ at taken
    split_ifs at taken
    cases taken
    obtain ⟨digits, shape, shown, value⟩ := exists_digits_of_takeNumber (by decide) number
    refine ⟨text.takeWhile isBlank, digits, fun _ => List.mem_takeWhile_imp, shape, ?_, value⟩
    rw [← shown]
    exact List.takeWhile_append_dropWhile.symm

theorem takeField_digits {low high : Nat} {gap digits : List Char}
    (blank : ∀ c ∈ gap, isBlank c = true) (shape : Digits 2 digits)
    (range : low ≤ digitsValue digits ∧ digitsValue digits ≤ high)
    (stop : ∀ c ∈ rest.head?, isDigit c = false) :
    takeField low high (gap ++ (digits ++ rest)) = .ok (digitsValue digits, rest) := by
  have trimmed : Text.trimLeft (gap ++ (digits ++ rest)) = digits ++ rest := by
    rw [Text.trimLeft, List.dropWhile_append_of_pos blank]
    exact trimLeft_digits shape.some shape.all
  rw [takeField, trimmed, takeNumber_digits shape.some shape.all (.inr ⟨shape.few, stop⟩)]
  exact if_pos range

/-! ### Years -/

def signedValue (sign : Option Bool) (digits : List Char) : Int :=
  if isMinus sign then -(digitsValue digits : Int) else digitsValue digits

/-- The most digits of a year: four, unless there is a sign. -/
def yearMost (sign : Option Bool) (digits : List Char) : Nat :=
  if sign.isSome then digits.length else 4

theorem eq_of_checkedYear {year value : Int} {left : List Char}
    (checked : checkedYear value left = .ok (year, rest)) : year = value ∧ left = rest := by
  unfold checkedYear at checked
  split_ifs at checked
  cases checked
  exact ⟨rfl, rfl⟩

theorem exists_digits_of_signed {year : Int} (value : Nat → Int)
    (taken : (do
      let (size, rest) ← takeNumber text.length text
      checkedYear (value size) rest) = .ok (year, rest)) :
    ∃ digits, Digits digits.length digits ∧ text = digits ++ rest ∧
      year = value (digitsValue digits) := by
  cases number : takeNumber text.length text with
  | error fault =>
    rw [number] at taken
    cases taken
  | ok found =>
    rw [number] at taken
    have checked : checkedYear (value found.1) found.2 = .ok (year, rest) := taken
    obtain ⟨rfl, same⟩ := eq_of_checkedYear checked
    have positive : 0 < text.length := by
      rw [List.length_pos_iff]
      rintro rfl
      cases number
    obtain ⟨digits, shape, shown, size⟩ := exists_digits_of_takeNumber positive number
    exact ⟨digits, ⟨shape.some, le_rfl, shape.all⟩, same ▸ shown, congrArg value size⟩

theorem exists_digits_of_takeYear {year : Int} (solid : ∀ c ∈ text.head?, isBlank c = false)
    (taken : takeYear text = .ok (year, rest)) :
    ∃ sign digits, Digits (yearMost sign digits) digits ∧
      text = signText sign ++ (digits ++ rest) ∧ year = signedValue sign digits := by
  rw [takeYear, Text.trimLeft_solid solid] at taken
  split at taken
  · obtain ⟨digits, shape, rfl, value⟩ := exists_digits_of_signed (-·) taken
    exact ⟨some true, digits, shape, rfl, value⟩
  · obtain ⟨digits, shape, rfl, value⟩ := exists_digits_of_signed (·) taken
    exact ⟨some false, digits, shape, rfl, value⟩
  · cases number : takeNumber 4 text with
    | error fault =>
      rw [number] at taken
      cases taken
    | ok found =>
      rw [number] at taken
      have checked : checkedYear found.1 found.2 = .ok (year, rest) := taken
      obtain ⟨rfl, same⟩ := eq_of_checkedYear checked
      obtain ⟨digits, shape, shown, size⟩ := exists_digits_of_takeNumber (by decide) number
      exact ⟨none, digits, shape, same ▸ shown, congrArg Nat.cast size⟩

theorem takeYear_signedDigits {sign : Option Bool} {digits : List Char}
    (shape : Digits (yearMost sign digits) digits)
    (range : leastYear ≤ signedValue sign digits ∧ signedValue sign digits ≤ greatestYear)
    (stop : ∀ c ∈ rest.head?, isDigit c = false) :
    takeYear (signText sign ++ (digits ++ rest)) = .ok (signedValue sign digits, rest) := by
  have word : checkedYear (signedValue sign digits) rest = .ok (signedValue sign digits, rest) := by
    simp only [leastYear, greatestYear] at range
    exact if_pos ⟨by omega, by omega⟩
  have signed : takeNumber (digits ++ rest).length (digits ++ rest) =
      .ok (digitsValue digits, rest) :=
    takeNumber_digits shape.some shape.all (.inr ⟨by simp, stop⟩)
  cases sign with
  | none =>
    have short := takeNumber_digits shape.some shape.all (.inr ⟨shape.few, stop⟩)
    rw [takeYear, signText, List.nil_append, trimLeft_digits shape.some shape.all]
    obtain ⟨c, tail, rfl⟩ := List.exists_cons_of_ne_nil shape.some
    have unsigned := Text.unsigned_of_isDigit (shape.all c List.mem_cons_self)
    split
    · next same => exact absurd (List.cons.inj same).1 unsigned.1
    · next same => exact absurd (List.cons.inj same).1 unsigned.2
    · change takeNumber 4 _ = _ at short
      rw [short]
      exact word
  | some minus =>
    cases minus with
    | true =>
      have solid : isBlank '-' = false := by decide
      rw [takeYear, signText, List.singleton_append, Text.trimLeft_cons_solid _ _ solid]
      simp only [signed]
      exact word
    | false =>
      have solid : isBlank '+' = false := by decide
      rw [takeYear, signText, List.singleton_append, Text.trimLeft_cons_solid _ _ solid]
      simp only [signed]
      exact word

end Takers

/-! ### Days -/

/-- A day as the reader of dates takes it. -/
structure DayForm where
  sign : Option Bool
  year : List Char
  monthGap : List Char
  month : List Char
  dayGap : List Char
  day : List Char
  year_digits : Digits (yearMost sign year) year
  month_digits : Digits 2 month
  day_digits : Digits 2 day
  monthGap_blank : ∀ c ∈ monthGap, isBlank c = true
  dayGap_blank : ∀ c ∈ dayGap, isBlank c = true
  isDate : isDate (signedValue sign year) (digitsValue month) (digitsValue day) = true

namespace DayForm

def text (form : DayForm) : List Char :=
  signText form.sign ++ (form.year ++ '-' ::
    (form.monthGap ++ (form.month ++ '-' :: (form.dayGap ++ form.day))))

def date (form : DayForm) : Date :=
  ⟨signedValue form.sign form.year, digitsValue form.month, digitsValue form.day, form.isDate⟩

theorem colon_notMem (form : DayForm) : ':' ∉ form.text := by
  have digit {most : Nat} {digits : List Char} (shape : Digits most digits) : ':' ∉ digits :=
    fun member => absurd (shape.all _ member) (by decide)
  have blank {gap : List Char} (all : ∀ c ∈ gap, isBlank c = true) : ':' ∉ gap :=
    fun member => absurd (all _ member) (by decide)
  have sign : ':' ∉ signText form.sign := by
    match form.sign with
    | none | some true | some false => decide
  simp only [text, List.mem_append, List.mem_cons, not_or]
  exact ⟨sign, digit form.year_digits, by decide, blank form.monthGap_blank,
    digit form.month_digits, by decide, blank form.dayGap_blank, digit form.day_digits⟩

end DayForm

/-! ### Reading a day -/

section Reading

variable {fields final : Fields} {text rest : List Char}

theorem takeItems_cons_eq_ok {item : Item} {pattern : List Item} :
    takeItems (item :: pattern) fields text = .ok (final, rest) ↔
      ∃ next left, item.take fields text = .ok (next, left) ∧
        takeItems pattern next left = .ok (final, rest) := by
  rw [takeItems]
  cases item.take fields text with
  | error fault => simp [bind, Except.bind]
  | ok taken => simp [bind, Except.bind, Prod.ext_iff]

theorem take_literal_eq_ok {c : Char} :
    (Item.literal c).take fields text = .ok (final, rest) ↔ final = fields ∧ text = c :: rest := by
  cases text with
  | nil => simp [Item.take, takeLiteral, Except.map]
  | cons front text =>
    simp only [Item.take, takeLiteral, List.cons.injEq]
    split_ifs with same <;> simp [Except.map, same, eq_comm]

theorem exists_of_map_taker {α : Type} (taker : Except ReadFault (Taken α)) (set : α → Fields)
    (taken : taker.map (fun (value, rest) => (set value, rest)) = .ok (final, rest)) :
    ∃ value, taker = .ok (value, rest) ∧ final = set value := by
  cases taker with
  | error fault => cases taken
  | ok found =>
    cases taken
    exact ⟨found.1, rfl, rfl⟩

theorem exists_of_take_year (taken : Item.year.take fields text = .ok (final, rest)) :
    ∃ year, takeYear text = .ok (year, rest) ∧ final = { fields with year } :=
  exists_of_map_taker (takeYear text) (fun year => { fields with year }) taken

theorem exists_of_take_month (taken : Item.month.take fields text = .ok (final, rest)) :
    ∃ month, takeField 1 12 text = .ok (month, rest) ∧ final = { fields with month } :=
  exists_of_map_taker (takeField 1 12 text) (fun month => { fields with month }) taken

theorem exists_of_take_day (taken : Item.day.take fields text = .ok (final, rest)) :
    ∃ day, takeField 1 31 text = .ok (day, rest) ∧ final = { fields with day } :=
  exists_of_map_taker (takeField 1 31 text) (fun day => { fields with day }) taken

end Reading

namespace DayForm

def fields (form : DayForm) : Fields where
  year := form.date.year
  month := form.date.month
  day := form.date.day

theorem takeItems_text (form : DayForm) :
    takeItems datePattern {} form.text = .ok (form.fields, []) := by
  -- the digits of year and month stop at the hyphens, those of the day at the end
  have hyphen (left : List Char) : ∀ c ∈ ('-' :: left).head?, isDigit c = false := by simp [isDigit]
  have valid := form.isDate
  simp only [Time.isDate, Bool.and_eq_true, decide_eq_true_eq] at valid
  obtain ⟨⟨⟨⟨years, monthLow⟩, monthHigh⟩, dayLow⟩, -⟩ := valid
  have dayHigh := form.date.ranges.2.2
  have day : takeField 1 31 (form.dayGap ++ form.day) = .ok (form.date.day, []) := by
    have taken : takeField 1 31 (form.dayGap ++ (form.day ++ [])) = _ :=
      takeField_digits form.dayGap_blank form.day_digits ⟨dayLow, dayHigh⟩ (by simp)
    rwa [List.append_nil] at taken
  have year (left : List Char) := takeYear_signedDigits form.year_digits years (hyphen left)
  have month (left : List Char) := takeField_digits form.monthGap_blank form.month_digits
    ⟨monthLow, monthHigh⟩ (hyphen left)
  rw [datePattern, text, takeItems_cons (by rw [Item.take, year]; rfl),
    takeItems_cons (take_literal '-' _ _), takeItems_cons (by rw [Item.take, month]; rfl),
    takeItems_cons (take_literal '-' _ _), takeItems_cons (by rw [Item.take, day]; rfl)]
  rfl

end DayForm

/-- The reader of dates takes the texts of days. -/
theorem readDate?_eq_some {text : List Char} {date : Date}
    (solid : ∀ c ∈ text.head?, isBlank c = false) :
    readDate? text = some date ↔ ∃ form : DayForm, text = form.text ∧ date = form.date := by
  constructor
  · intro read
    unfold readDate? at read
    split at read
    · next fields taken =>
      simp only [datePattern, takeItems_cons_eq_ok, take_literal_eq_ok] at taken
      obtain ⟨_, _, year, _, _, ⟨rfl, rfl⟩, _, _, month, _, _, ⟨rfl, rfl⟩, _, _, day, last⟩ := taken
      cases last
      obtain ⟨_, yearTaken, rfl⟩ := exists_of_take_year year
      obtain ⟨_, monthTaken, rfl⟩ := exists_of_take_month month
      obtain ⟨_, dayTaken, rfl⟩ := exists_of_take_day day
      obtain ⟨sign, years, year_digits, rfl, rfl⟩ := exists_digits_of_takeYear solid yearTaken
      obtain ⟨monthGap, months, monthBlank, month_digits, rfl, rfl⟩ :=
        exists_digits_of_takeField monthTaken
      obtain ⟨dayGap, days, dayBlank, day_digits, rfl, rfl⟩ := exists_digits_of_takeField dayTaken
      unfold Fields.date? Date.ofParts? at read
      split_ifs at read with valid
      cases read
      refine ⟨⟨sign, years, monthGap, months, dayGap, days, year_digits, month_digits, day_digits,
        monthBlank, dayBlank, valid⟩, ?_, rfl⟩
      simp only [DayForm.text, List.append_nil]
    · cases read
  · rintro ⟨form, rfl, rfl⟩
    simp only [readDate?, form.takeItems_text]
    exact dif_pos form.isDate

/-! ### Written dates -/

/-- A date as it is documented: four digits of a year, two of a month and two of a day. -/
def Date.written (date : Date) : List Char :=
  paddedDigits 4 date.year.toNat ++ '-' ::
    (paddedDigits 2 date.month ++ '-' :: paddedDigits 2 date.day)

theorem Date.exists_form (date : Date) (years : 0 ≤ date.year ∧ date.year ≤ 9999) :
    ∃ form : DayForm, date.written = form.text ∧ date = form.date := by
  have value {width number : Nat} (small : number < 10 ^ width) :
      digitsValue (paddedDigits width number) = number := by
    rw [Text.digitsValue_paddedDigits, Nat.mod_eq_of_lt small]
  have ranges := date.ranges
  have year : signedValue none (paddedDigits 4 date.year.toNat) = date.year := by
    change ((digitsValue (paddedDigits 4 date.year.toNat) : Nat) : Int) = _
    rw [value (by omega), Int.toNat_of_nonneg years.1]
  have month : digitsValue (paddedDigits 2 date.month) = date.month := value (by omega)
  have day : digitsValue (paddedDigits 2 date.day) = date.day := value (by omega)
  have blank : ∀ c ∈ ([] : List Char), isBlank c = true := nofun
  refine ⟨⟨none, paddedDigits 4 date.year.toNat, [], paddedDigits 2 date.month, [],
    paddedDigits 2 date.day, digits_paddedDigits 4 _ (by decide),
    digits_paddedDigits 2 _ (by decide), digits_paddedDigits 2 _ (by decide), blank, blank, ?_⟩,
    rfl, ?_⟩
  · rw [year, month, day]
    exact date.isDate
  · rw [DayForm.date, Date.mk.injEq]
    exact ⟨year.symm, month.symm, day.symm⟩

theorem Date.solid_head_written (date : Date) : ∀ c ∈ date.written.head?, isBlank c = false := by
  intro c first
  have digits := digits_paddedDigits 4 date.year.toNat (by decide)
  rw [Date.written, List.head?_append_of_ne_nil _ digits.some] at first
  exact isBlank_of_isDigit (digits.all c (List.mem_of_mem_head? first))

theorem Date.trim_written (date : Date) : Text.trim date.written = date.written := by
  refine Text.trim_solid date.solid_head_written fun c last => ?_
  have digits := digits_paddedDigits 2 date.day (by decide)
  have behind : date.written = (paddedDigits 4 date.year.toNat ++ '-' ::
      (paddedDigits 2 date.month ++ ['-'])) ++ paddedDigits 2 date.day := by simp [Date.written]
  rw [behind, List.getLast?_append_of_ne_nil _ digits.some] at last
  exact isBlank_of_isDigit (digits.all c (List.mem_of_mem_getLast? last))

theorem readDate?_written (date : Date) (years : 0 ≤ date.year ∧ date.year ≤ 9999) :
    readDate? date.written = some date :=
  (readDate?_eq_some date.solid_head_written).2 (date.exists_form years)

/-! ### Bounds in UTC -/

namespace Bound

variable {zone : Zone} {bound : Bound} {date : Date} {offset : Int}

/-- A time on a day has an instant if the offset of the clocks keeps it within the calendar. -/
theorem exists_ofDate? (found : zone.offsetAt? date.year (bound.timeOf date) = some offset)
    (range : leastSeconds ≤ bound.timeOf date - offset ∧
      bound.timeOf date - offset ≤ greatestSeconds) :
    ∃ instant, ofDate? zone bound date = some instant ∧
      instant.seconds = bound.timeOf date - offset ∧ instant.nanos = bound.nanos := by
  have nanos : bound.nanos < nanosPerSecond := by cases bound <;> decide
  refine ⟨⟨_, _, range, .inl nanos⟩, ?_, rfl, rfl⟩
  unfold ofDate?
  change (zone.offsetAt? date.year (bound.timeOf date)).bind _ = _
  rw [found, Option.bind_some]
  change Instant.ofParts? (bound.timeOf date - offset) bound.nanos = _
  rw [Instant.ofParts?, dif_pos range, dif_pos (.inl nanos)]

theorem exists_ofDate?_utc (bound : Bound) (date : Date) :
    ∃ instant, ofDate? Zone.utc bound date = some instant ∧
      instant.seconds = bound.timeOf date ∧ instant.nanos = bound.nanos := by
  have days := dayNumber_bounds date.isDate
  have range : leastSeconds ≤ bound.timeOf date - 0 ∧ bound.timeOf date - 0 ≤ greatestSeconds := by
    rw [← Date.dayNumber] at days
    simp only [leastDay, greatestDay] at days
    simp only [leastSeconds, greatestSeconds]
    cases bound with
    | lower =>
      rw [timeOf_lower]
      omega
    | upper =>
      rw [timeOf_upper]
      omega
  have found : Zone.utc.offsetAt? date.year (bound.timeOf date) = some 0 := rfl
  have made := exists_ofDate? found range
  rwa [Int.sub_zero] at made

/-- A bound is a date-time or a day, and no text is both. -/
theorem readTrimmed?_eq_some {text : List Char} {instant : Instant}
    (solid : ∀ c ∈ text.head?, isBlank c = false) :
    readTrimmed? zone bound text = some instant ↔
      (∃ time : DateTime, text = time.text ∧ time.fields.instant = .ok instant) ∨
        ∃ form : DayForm, text = form.text ∧ ofDate? zone bound form.date = some instant := by
  have days : (∃ form : DayForm, text = form.text ∧ ofDate? zone bound form.date = some instant) ↔
      (readDate? text).bind (ofDate? zone bound) = some instant := by
    simp only [Option.bind_eq_some_iff, readDate?_eq_some solid]
    constructor
    · rintro ⟨form, shown, made⟩
      exact ⟨form.date, ⟨form, shown, rfl⟩, made⟩
    · rintro ⟨_, ⟨form, shown, rfl⟩, made⟩
      exact ⟨form, shown, made⟩
  unfold readTrimmed?
  cases strict : Strict.readInstant? text with
  | some found =>
    have noDay : ¬∃ form : DayForm, text = form.text ∧
        ofDate? zone bound form.date = some instant := by
      rintro ⟨form, shown, -⟩
      obtain ⟨time, same, -⟩ := Strict.readInstant?_eq_some.1 strict
      exact form.colon_notMem (shown ▸ same ▸ time.colon_mem)
    rw [← Strict.readInstant?_eq_some, strict, or_iff_left noDay]
  | none =>
    rw [← Strict.readInstant?_eq_some, strict, days]
    simp

theorem ofDate?_utc_eq_some {instant : Instant} :
    ofDate? Zone.utc bound date = some instant ↔
      instant.seconds = bound.timeOf date ∧ instant.nanos = bound.nanos := by
  obtain ⟨found, known, seconds, nanos⟩ := exists_ofDate?_utc bound date
  rw [known, Option.some.injEq, ← seconds, ← nanos]
  cases found
  cases instant
  simp only [Instant.mk.injEq, eq_comm]

/-- In UTC the bounds are the date-times and the days, with the instants that they tell; every other
text is refused, without the blanks around it. -/
theorem read_utc_classified (bound : Bound) (text : String) :
    (∀ instant, Bound.read Zone.utc bound text = .ok instant ↔
      (∃ time : DateTime, Text.trim text.toList = time.text ∧
        time.fields.instant = .ok instant) ∨
      ∃ form : DayForm, Text.trim text.toList = form.text ∧
        instant.seconds = bound.timeOf form.date ∧ instant.nanos = bound.nanos) ∧
    (∀ refused, Bound.read Zone.utc bound text = .error refused ↔
      refused = String.ofList (Text.trim text.toList) ∧
        (¬∃ time : DateTime, Text.trim text.toList = time.text) ∧
        ¬∃ form : DayForm, Text.trim text.toList = form.text) := by
  have solid := Text.solid_head_trim text.toList
  have taken (instant : Instant) :
      readTrimmed? Zone.utc bound (Text.trim text.toList) = some instant ↔ _ :=
    readTrimmed?_eq_some solid
  simp only [ofDate?_utc_eq_some] at taken
  unfold Bound.read
  dsimp only
  generalize Text.trim text.toList = trimmed at *
  cases read : readTrimmed? Zone.utc bound trimmed with
  | some found =>
    refine ⟨fun instant => ?_, fun refused => iff_of_false nofun fun neither => ?_⟩
    · rw [← taken instant, read, Except.ok.injEq, Option.some.injEq]
    · rcases (taken found).1 read with ⟨time, shown, -⟩ | ⟨form, shown, -⟩
      · exact neither.2.1 ⟨time, shown⟩
      · exact neither.2.2 ⟨form, shown⟩
  | none =>
    refine ⟨fun instant => ?_, fun refused => ?_⟩
    · rw [← taken instant, read]
      exact iff_of_false nofun nofun
    · rw [Except.error.injEq, eq_comm]
      refine (and_iff_left ⟨?_, ?_⟩).symm
      · rintro ⟨time, shown⟩
        obtain ⟨instant, known⟩ := time.exists_instant
        have held := (taken instant).2 (.inl ⟨time, shown, known⟩)
        rw [read] at held
        cases held
      · rintro ⟨form, shown⟩
        obtain ⟨instant, -, told⟩ := exists_ofDate?_utc bound form.date
        have held := (taken instant).2 (.inr ⟨form, shown, told⟩)
        rw [read] at held
        cases held

/-- Days are read that are not written as documented, such as one of the year -2024. -/
theorem days_not_only_written :
    ¬∀ (bound : Bound) (text : String) (instant : Instant),
      Bound.read Zone.utc bound text = .ok instant →
      (∃ time : DateTime, Text.trim text.toList = time.text) ∨
        ∃ date : Date, (0 ≤ date.year ∧ date.year ≤ 9999) ∧
          Text.trim text.toList = date.written := by
  intro documented
  have trimmed : Text.trim "-2024-01-02".toList = "-2024-01-02".toList := by decide
  have read : Bound.read Zone.utc .lower "-2024-01-02" =
      .ok ⟨-126038419200, 0, by decide, by decide⟩ := by decide
  rcases documented .lower "-2024-01-02" _ read with ⟨time, shown⟩ | ⟨date, -, shown⟩
  · have colon := time.colon_mem
    rw [← shown, trimmed] at colon
    exact absurd colon (by decide)
  · have digits := digits_paddedDigits 4 date.year.toNat (by decide)
    have first : '-' ∈ (paddedDigits 4 date.year.toNat).head? := by
      rw [← List.head?_append_of_ne_nil _ digits.some, ← Date.written, ← shown, trimmed]
      rfl
    exact absurd (digits.all _ (List.mem_of_mem_head? first)) (by decide)

end Bound

end LogCensus.Time
