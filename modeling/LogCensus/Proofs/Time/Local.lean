import LogCensus.Proofs.Time.Reading

/-!
The time of a clock with an offset as access logs write it, `01/May/2024:12:00:00 +0200`. Read back,
it is the instant at which the clock showed it.
-/

namespace LogCensus.Time

open Text (isDigit digitsValue paddedDigits)

def monthLetters : List (List Char) :=
  ["Jan", "Feb", "Mar", "Apr", "May", "Jun", "Jul", "Aug", "Sep", "Oct", "Nov", "Dec"].map
    String.toList

def monthText (month : Nat) : List Char := monthLetters.getD (month - 1) []

def offsetText (minutes : Int) : List Char :=
  (if minutes < 0 then '-' else '+') ::
    (paddedDigits 2 (minutes.natAbs / 60) ++ paddedDigits 2 (minutes.natAbs % 60))

/-- An instant at whole seconds and a clock that shows it with a year of at most four digits. -/
structure LocalTime where
  instant : Instant
  /-- The offset of the clock, in minutes east of UTC. -/
  minutes : Int
  whole : instant.nanos % nanosPerSecond = 0
  small : -1440 < minutes ∧ minutes < 1440
  year : 0 ≤ (instant.shownAt (minutes * 60)).year ∧ (instant.shownAt (minutes * 60)).year ≤ 9999

namespace LocalTime

def shown (time : LocalTime) : Fields := time.instant.shownAt (time.minutes * 60)

def text (time : LocalTime) : List Char :=
  paddedDigits 2 time.shown.day ++ '/' :: (monthText time.shown.month ++ '/' ::
    (paddedDigits 4 time.shown.year.toNat ++ ':' :: (paddedDigits 2 time.shown.hour ++ ':' ::
      (paddedDigits 2 time.shown.minute ++ ':' :: (paddedDigits 2 time.shown.second ++ ' ' ::
        offsetText time.minutes)))))

end LocalTime

/-! ### Months and offsets -/

theorem takeMonthName_monthText {month : Nat} (range : 1 ≤ month ∧ month ≤ 12) (rest : List Char) :
    takeMonthName (monthText month ++ rest) = .ok (month, rest) := by
  obtain ⟨low, high⟩ := range
  interval_cases month <;> rfl

theorem takePair_paddedDigits {tens : Char} {value : Nat} (few : value < 100)
    (fits : Text.digitChar (value / 10) ≤ tens) (rest : List Char) :
    takePair tens (paddedDigits 2 value ++ rest) = .ok (value, rest) := by
  have digits : paddedDigits 2 value = [Text.digitChar (value / 10), Text.digitChar value] := rfl
  have number : digitsValue [Text.digitChar (value / 10), Text.digitChar value] = value := by
    rw [← digits, Text.digitsValue_paddedDigits]
    exact Nat.mod_eq_of_lt few
  rw [digits]
  simp only [List.cons_append, List.nil_append, takePair, Text.isDigit_digitChar, Bool.and_self,
    if_true, if_pos fits, number]

theorem digitChar_le {value : Nat} {c : Char} (most : 48 + value % 10 ≤ c.toNat) :
    Text.digitChar value ≤ c := by
  rw [← Text.toNat_digitChar] at most
  exact most

theorem isOffsetGap_of_isDigit {c : Char} (digit : isDigit c = true) : isOffsetGap c = false := by
  rw [isOffsetGap, isBlank_of_isDigit digit, Bool.or_false, beq_eq_false_iff_ne]
  rintro rfl
  cases digit

theorem takeOffset_offsetText {minutes : Int} (small : -1440 < minutes ∧ minutes < 1440) :
    takeOffset (offsetText minutes) = .ok (minutes * 60, []) := by
  have hours : takePair '9' (paddedDigits 2 (minutes.natAbs / 60)
      ++ paddedDigits 2 (minutes.natAbs % 60)) =
        .ok (minutes.natAbs / 60, paddedDigits 2 (minutes.natAbs % 60)) :=
    takePair_paddedDigits (by omega) (digitChar_le (by simp; omega)) _
  have together : (paddedDigits 2 (minutes.natAbs % 60)).dropWhile isOffsetGap =
      paddedDigits 2 (minutes.natAbs % 60) :=
    List.dropWhile_cons_of_neg (by simp [isOffsetGap_of_isDigit (Text.isDigit_digitChar _)])
  have rest : takePair '5' (paddedDigits 2 (minutes.natAbs % 60)) =
      .ok (minutes.natAbs % 60, []) := by
    have taken : takePair '5' (paddedDigits 2 (minutes.natAbs % 60) ++ []) =
        .ok (minutes.natAbs % 60, []) :=
      takePair_paddedDigits (by omega) (digitChar_le (by simp; omega)) []
    rwa [List.append_nil] at taken
  have sign : takeOffsetSign (offsetText minutes) = .ok (decide (minutes < 0),
      paddedDigits 2 (minutes.natAbs / 60) ++ paddedDigits 2 (minutes.natAbs % 60)) := by
    unfold offsetText
    split
    next west => simp [takeOffsetSign, west]
    next east => simp [takeOffsetSign, east]
  have value : signedOffset (decide (minutes < 0)) (minutes.natAbs / 60) (minutes.natAbs % 60) =
      minutes * 60 := by
    simp only [signedOffset, decide_eq_true_eq]
    split_ifs <;> omega
  simp only [takeOffset, sign, hours, together, rest, value, bind, Except.bind]

/-! ### Reading -/

namespace LocalTime

variable (time : LocalTime)

theorem shown_year : ((time.shown.year.toNat : Nat) : Int) = time.shown.year :=
  Int.toNat_of_nonneg time.year.1

theorem isDate_shown : isDate time.shown.year time.shown.month time.shown.day = true := by
  obtain ⟨low, high⟩ := time.year
  refine isDate_of_year (le_trans ?_ low) (high.trans ?_)
  · decide
  · decide

theorem inRange_shown : InRange time.shown :=
  Instant.inRange_shownAt (Int.mul_emod_left _ _) time.isDate_shown

theorem take_monthName (fields : Fields) (rest : List Char) :
    Item.monthName.take fields (monthText time.shown.month ++ rest) =
      .ok ({ fields with month := time.shown.month }, rest) := by
  rw [Item.take, takeMonthName_monthText time.inRange_shown.month]
  rfl

theorem take_year (fields : Fields) (rest : List Char) :
    Item.year.take fields (paddedDigits 4 time.shown.year.toNat ++ rest) =
      .ok ({ fields with year := time.shown.year }, rest) := by
  obtain ⟨low, high⟩ := time.year
  have word : checkedYear time.shown.year rest = .ok (time.shown.year, rest) :=
    if_pos ⟨le_trans (by decide) low, high.trans (by decide)⟩
  have small : time.shown.year.toNat < 10 ^ 4 := by
    have year := time.shown_year
    change time.shown.year ≤ 9999 at high
    omega
  rw [Item.take, takeYear_digits (by simp [paddedDigits])
    (fun c => Text.isDigit_of_mem_paddedDigits) (Text.length_paddedDigits 4 _),
    Text.digitsValue_paddedDigits, Nat.mod_eq_of_lt small, time.shown_year, word]
  rfl

theorem take_offset (fields : Fields) :
    Item.offset.take fields (offsetText time.minutes) =
      .ok ({ fields with offset := time.minutes * 60 }, []) := by
  have trimmed : Text.trimLeft (offsetText time.minutes) = offsetText time.minutes := by
    unfold offsetText
    split
    next => exact Text.trimLeft_cons_solid '-' _ (by decide)
    next => exact Text.trimLeft_cons_solid '+' _ (by decide)
  rw [Item.take, trimmed, takeOffset_offsetText time.small]
  rfl

theorem take_gap (fields : Fields) :
    Item.blanks.take fields (' ' :: offsetText time.minutes) =
      .ok (fields, offsetText time.minutes) := by
  unfold offsetText
  split
  next =>
    rw [Item.take, Text.trimLeft_cons_blank ' ' _ (by decide)]
    exact take_blanks (by decide) fields _
  next =>
    rw [Item.take, Text.trimLeft_cons_blank ' ' _ (by decide)]
    exact take_blanks (by decide) fields _

theorem readInstant_text : readInstant accessLogPattern time.text = .ok time.instant := by
  have range := time.inRange_shown
  have taken : takeItems accessLogPattern {} time.text =
      .ok ({ time.shown with nanos := 0 }, []) := by
    rw [text, accessLogPattern]
    -- date
    rw [takeItems_cons (take_day range _ _), takeItems_cons (take_literal '/' _ _),
      takeItems_cons (time.take_monthName _ _), takeItems_cons (take_literal '/' _ _),
      takeItems_cons (time.take_year _ _), takeItems_cons (take_literal ':' _ _)]
    -- time of day
    rw [takeItems_cons (take_hour range _ _), takeItems_cons (take_literal ':' _ _),
      takeItems_cons (take_minute range _ _), takeItems_cons (take_literal ':' _ _),
      takeItems_cons (take_second range _ _), takeItems_cons (time.take_gap _),
      takeItems_cons (time.take_offset _)]
    rfl
  have seconds : time.shown.nanos = 0 := time.whole
  have small : -86400 < time.minutes * 60 ∧ time.minutes * 60 < 86400 := by
    have range := time.small
    omega
  rw [readInstant, taken, ← seconds]
  exact Instant.instant_shownAt small (Int.mul_emod_left _ _) time.isDate_shown

example : (⟨⟨1710538200, 0, by decide, by decide⟩, 120, by decide, by decide, by decide⟩ :
    LocalTime).text = "15/Mar/2024:23:30:00 +0200".toList := by decide

theorem closing_notMem_text : ']' ∉ time.text := by
  have digits (width value : Nat) : ']' ∉ paddedDigits width value := by
    intro member
    cases Text.isDigit_of_mem_paddedDigits member
  have month : ']' ∉ monthText time.shown.month := by
    obtain ⟨low, high⟩ := time.inRange_shown.month
    interval_cases time.shown.month <;> decide
  have offset : ']' ∉ offsetText time.minutes := by
    unfold offsetText
    split_ifs <;> simp [digits]
  simp [text, digits, month, offset]

end LocalTime

end LogCensus.Time
