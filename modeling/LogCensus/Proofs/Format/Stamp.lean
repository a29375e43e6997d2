import LogCensus.Proofs.Format.StartForm
import LogCensus.Proofs.Time.Strict

/-!
The instant of a stamp: there is one exactly if its digits are ASCII and name a date of the calendar
and a time of day, and a clock of UTC then shows what the stamp says.
-/

namespace LogCensus.Format.Application

open Text (isDigit isNumeral digitsValue)

/-! ### What a stamp says -/

def Numerals.value {count : Nat} (numerals : Numerals count) : Nat := digitsValue numerals.text

def Numerals.IsPlain {count : Nat} (numerals : Numerals count) : Prop :=
  ∀ c ∈ numerals.text, isDigit c = true

def Fraction.nanos (fraction : Fraction) : Nat :=
  digitsValue fraction.digits * 10 ^ (9 - fraction.digits.length)

def Fraction.IsPlain (fraction : Fraction) : Prop := ∀ c ∈ fraction.digits, isDigit c = true

structure DateTimeForm.IsPlain (form : DateTimeForm) : Prop where
  year : form.year.IsPlain
  month : form.month.IsPlain
  day : form.day.IsPlain
  hour : form.hour.IsPlain
  minute : form.minute.IsPlain
  second : form.second.IsPlain

namespace Stamp

def fields (stamp : Stamp) : Time.Fields where
  year := stamp.dateTime.year.value
  month := stamp.dateTime.month.value
  day := stamp.dateTime.day.value
  hour := stamp.dateTime.hour.value
  minute := stamp.dateTime.minute.value
  second := stamp.dateTime.second.value
  nanos := stamp.fraction.elim 0 Fraction.nanos

structure IsTime (stamp : Stamp) : Prop where
  plain : stamp.dateTime.IsPlain
  fraction : ∀ fraction ∈ stamp.fraction, fraction.IsPlain
  time : stamp.fields.IsTime

end Stamp

/-! ### Points in place of commas -/

theorem pointed_append (front rest : List Char) :
    pointed (front ++ rest) = pointed front ++ pointed rest := List.map_append

theorem pointed_cons {c : Char} (other : c ≠ ',') (rest : List Char) :
    pointed (c :: rest) = c :: pointed rest := by
  rw [pointed, List.map_cons, if_neg other, pointed]

theorem pointed_numerals {text : List Char} (all : ∀ c ∈ text, isNumeral c = true) :
    pointed text = text := by
  refine (List.map_congr_left fun c member => if_neg ?_).trans (List.map_id text)
  rintro rfl
  cases all ',' member

theorem pointed_fraction (fraction : Fraction) :
    pointed fraction.text = '.' :: fraction.digits := by
  have digits := pointed_numerals fraction.all
  rcases fraction.isMark with mark | mark
  · rw [Fraction.text, mark, pointed_cons (by decide), digits]
  · rw [Fraction.text, mark, pointed, List.map_cons, if_pos rfl]
    exact congrArg ('.' :: ·) digits

theorem pointed_dateTime (form : DateTimeForm) : pointed form.text = form.text := by
  have separator : form.separator ≠ ',' := by
    rintro comma
    rcases form.isSeparator with same | same
    · cases comma.symm.trans same
    · cases comma.symm.trans same
  simp only [DateTimeForm.text, pointed_append, pointed_cons (by decide : '-' ≠ ','),
    pointed_cons (by decide : ':' ≠ ','), pointed_cons separator, pointed_numerals form.year.all,
    pointed_numerals form.month.all, pointed_numerals form.day.all, pointed_numerals form.hour.all,
    pointed_numerals form.minute.all, pointed_numerals form.second.all]

/-! ### The instant of a stamp -/

/-- Plain digits whose values are in range; the days of the month are not counted here. -/
structure DateTimeForm.InRange (form : DateTimeForm) : Prop where
  plain : form.IsPlain
  month : 1 ≤ form.month.value ∧ form.month.value ≤ 12
  day : 1 ≤ form.day.value ∧ form.day.value ≤ 31
  hour : form.hour.value ≤ 23
  minute : form.minute.value ≤ 59
  second : form.second.value ≤ 60

theorem takeDateTime?_text {form : DateTimeForm} {rest left : List Char} {fields : Time.Fields} :
    Time.Strict.takeDateTime? (form.text ++ rest) = some (fields, left) ↔
      form.InRange ∧ ∃ nanos, Time.Strict.takeFraction? rest = some (nanos, left) ∧
        fields = { (⟨form, none⟩ : Stamp).fields with nanos } := by
  have separator (rest left : List Char) :
      (Time.takeSeparator (form.separator :: rest)).toOption = some left ↔ left = rest :=
    Time.Strict.takeSeparator_cons form.isSeparator
  simp only [Time.Strict.takeDateTime?, DateTimeForm.text, List.append_assoc, List.cons_append,
    Option.bind_eq_bind, Option.bind_eq_some_iff, Prod.exists, Time.Strict.takeLiteral?_cons,
    Time.Strict.takeExactly?_append form.year.length,
    Time.Strict.takeExactly?_append form.month.length,
    Time.Strict.takeExactly?_append form.day.length,
    Time.Strict.takeExactly?_append form.hour.length,
    Time.Strict.takeExactly?_append form.minute.length,
    Time.Strict.takeExactly?_append form.second.length, separator, and_assoc, exists_and_left,
    exists_eq_left, Option.some.injEq, Prod.mk.injEq]
  constructor
  · rintro ⟨year, -, -, month, monthLow, monthHigh, day, dayLow, dayHigh, hour, -, hourHigh, minute,
      -, minuteHigh, second, -, secondHigh, nanos, _, taken, rfl, rfl⟩
    exact ⟨⟨⟨year, month, day, hour, minute, second⟩, ⟨monthLow, monthHigh⟩, ⟨dayLow, dayHigh⟩,
      hourHigh, minuteHigh, secondHigh⟩, nanos, taken, rfl⟩
  · rintro ⟨⟨plain, month, day, hour, minute, second⟩, nanos, taken, rfl⟩
    have year : digitsValue form.year.text < 10000 := by
      have short := Text.digitsValue_lt form.year.text plain.year
      rw [form.year.length] at short
      exact short
    exact ⟨plain.year, Nat.zero_le _, Nat.le_of_lt_succ year, plain.month, month.1, month.2,
      plain.day, day.1, day.2, plain.hour, Nat.zero_le _, hour, plain.minute, Nat.zero_le _, minute,
      plain.second, Nat.zero_le _, second, nanos, left, taken, rfl, rfl⟩

theorem Fraction.nanos_eq (fraction : Fraction) :
    Time.fractionNanos fraction.digits = fraction.nanos := by
  rw [Time.fractionNanos, List.take_of_length_le fraction.few]
  rfl

theorem Fraction.nanos_lt {fraction : Fraction} (plain : fraction.IsPlain) :
    fraction.nanos < Time.nanosPerSecond :=
  fraction.nanos_eq ▸ Time.fractionNanos_lt plain

theorem takeFraction?_text {fraction : Option Fraction} {nanos : Nat} :
    Time.Strict.takeFraction? (pointed (fraction.elim [] Fraction.text)) = some (nanos, []) ↔
      (∀ given ∈ fraction, given.IsPlain) ∧ nanos = fraction.elim 0 Fraction.nanos := by
  cases fraction with
  | none =>
    rw [Option.elim_none, Option.elim_none]
    change some (0, []) = some (nanos, []) ↔ _
    simp [eq_comm]
  | some fraction =>
    rw [Option.elim_some, Option.elim_some, pointed_fraction,
      Time.Strict.takeFraction?_digits fraction.nonempty, fraction.nanos_eq]
    simp [Fraction.IsPlain]

theorem takeDateTime?_stamp {stamp : Stamp} {fields : Time.Fields} :
    Time.Strict.takeDateTime? (pointed stamp.text) = some (fields, []) ↔
      stamp.dateTime.InRange ∧ (∀ fraction ∈ stamp.fraction, fraction.IsPlain) ∧
        fields = stamp.fields := by
  rw [Stamp.text, pointed_append, pointed_dateTime, takeDateTime?_text]
  simp only [Stamp.fractionText, takeFraction?_text, and_assoc, exists_and_left, exists_eq_left]
  rfl

theorem Stamp.IsTime.inRange {stamp : Stamp} (time : stamp.IsTime) : stamp.dateTime.InRange := by
  have date := time.time.date
  simp only [Time.isDate, Bool.and_eq_true, decide_eq_true_eq] at date
  obtain ⟨⟨⟨⟨-, monthLow⟩, monthHigh⟩, dayLow⟩, dayHigh⟩ := date
  exact ⟨time.plain, ⟨monthLow, monthHigh⟩, ⟨dayLow, dayHigh.trans (Time.daysInMonth_le _ _)⟩,
    time.time.hour, time.time.minute, time.time.second⟩

theorem Stamp.isTime_of_inRange {stamp : Stamp} (range : stamp.dateTime.InRange)
    (plain : ∀ fraction ∈ stamp.fraction, fraction.IsPlain)
    (date : Time.isDate stamp.fields.year stamp.fields.month stamp.fields.day = true) :
    stamp.IsTime := by
  have nanos : stamp.fields.nanos < Time.nanosPerSecond := by
    change stamp.fraction.elim 0 Fraction.nanos < _
    cases given : stamp.fraction with
    | none => decide
    | some fraction => exact Fraction.nanos_lt (plain fraction given)
  exact ⟨range.plain, plain, ⟨date, range.hour, range.minute, range.second, nanos, rfl⟩⟩

/-- A stamp has an instant exactly if it names a time, and that instant shows it. -/
theorem instant?_text {stamp : Stamp} {instant : Time.Instant} :
    instant? stamp.text = some instant ↔ stamp.IsTime ∧ instant.shown = stamp.fields := by
  constructor
  · intro read
    unfold instant? at read
    split at read
    next fields taken =>
      obtain ⟨range, plain, rfl⟩ := takeDateTime?_stamp.1 taken
      cases known : stamp.fields.instant with
      | error fault =>
        rw [known] at read
        cases read
      | ok found =>
        rw [known] at read
        cases read
        have time := Stamp.isTime_of_inRange range plain (Time.Fields.isDate_of_instant known)
        exact ⟨time, time.time.shown_instant known⟩
    next => cases read
  · rintro ⟨time, shown⟩
    have taken := takeDateTime?_stamp.2 ⟨time.inRange, time.fraction, rfl⟩
    have known := time.time.instant_eq_ok.2 shown
    simp only [instant?, taken, known]
    rfl

theorem Stamp.IsTime.exists_instant {stamp : Stamp} (time : stamp.IsTime) :
    ∃ instant, instant? stamp.text = some instant := by
  obtain ⟨instant, known⟩ := time.time.exists_instant
  exact ⟨instant, instant?_text.2 ⟨time, time.time.shown_instant known⟩⟩

end LogCensus.Format.Application
