import LogCensus.Filter
import LogCensus.Proofs.Time.Clock
import LogCensus.Proofs.Time.Order
import LogCensus.Time.Bound

/-!
A day of the local calendar as a range of instants. The time that a bound stands for is looked up
among the times that clocks show. Where clocks show it twice, the later instant is taken, so a day
whose first second is shown twice loses its first pass as a lower bound.
-/

namespace LogCensus.Time

namespace Zone

variable {zone : Zone} {year time offset seconds : Int}

/-- The offset that is found is the first one of those the clocks may have. -/
theorem offsetsAt_of_offsetAt? (found : zone.offsetAt? year time = some offset) :
    zone.offsetsAt year time = .one offset ∨
      ∃ other, zone.offsetsAt year time = .two offset other := by
  unfold offsetAt? at found
  dsimp only at found
  split at found
  next => cases found
  next single =>
    split at found
    · exact .inl (Option.some.inj found ▸ single)
    · cases found
  next first second both =>
    split at found
    · exact .inr ⟨second, Option.some.inj found ▸ both⟩
    · cases found

/-- An offset that is found shows the time, and no smaller one does. Otherwise none shows it: the
time is that of the first change of the year, and the offset is the one before that change. -/
theorem found_of_offsetsAt {season : Season} {startFirst : Bool}
    (summer : zone.summer = some season)
    (orderly : season.Orderly zone.standard startFirst year)
    (looked : zone.offsetsAt year time = .one offset ∨
      ∃ second, zone.offsetsAt year time = .two offset second) :
    (offset = zone.standard ∨ offset = season.offset) ∧
      ((season.Shows zone.standard startFirst year offset time ∧
          (¬season.Shows zone.standard startFirst year zone.standard time ∨
            offset ≤ zone.standard) ∧
          (¬season.Shows zone.standard startFirst year season.offset time ∨
            offset ≤ season.offset)) ∨
        (¬season.Shows zone.standard startFirst year zone.standard time ∧
          ¬season.Shows zone.standard startFirst year season.offset time ∧
          offset ≤ zone.standard ∧ offset ≤ season.offset ∧
          time = min (season.start.localSeconds year) (season.finish.localSeconds year))) := by
  have apart := orderly.apart
  simp only [Season.forall_mem_startShown, Season.forall_mem_finishShown] at apart
  simp only [offsetsAt, summer, orderly.told] at looked
  unfold Season.Shows Season.During Season.starts Season.finishes
  unfold offsetsForward offsetsBackward at looked
  generalize season.start.localSeconds year = start at *
  generalize season.finish.localSeconds year = finish at *
  -- each branch of the search leaves linear facts on the two changes and the times
  cases startFirst with
  | true =>
    simp only [if_true] at *
    split_ifs at looked <;>
      simp only [Offsets.one.injEq, Offsets.two.injEq, exists_false, exists_and_left, exists_eq',
        and_true, or_false, false_or] at looked <;>
      omega
  | false =>
    simp only [Bool.false_eq_true, if_false] at *
    split_ifs at looked <;>
      simp only [Offsets.one.injEq, Offsets.two.injEq, exists_false, exists_and_left, exists_eq',
        and_true, or_false, false_or] at looked <;>
      omega

/-- An offset that is found shows the time last: any offset that shows that time or an earlier one
does so before, and one that shows it or a later one before does show it. -/
theorem last_of_offsetsAt {season : Season} {startFirst : Bool} {shown other : Int}
    (summer : zone.summer = some season) (orderly : season.Orderly zone.standard startFirst year)
    (looked : zone.offsetsAt year time = .one offset ∨
      ∃ second, zone.offsetsAt year time = .two offset second)
    (shows : season.Shows zone.standard startFirst year other shown) :
    (shown ≤ time → shown - other ≤ time - offset) ∧
      (time ≤ shown → shown - other < time - offset →
        season.Shows zone.standard startFirst year other time) := by
  have found := found_of_offsetsAt summer orderly looked
  have apart := orderly.apart
  simp only [Season.forall_mem_startShown, Season.forall_mem_finishShown] at apart
  unfold Season.Shows Season.During Season.starts Season.finishes at *
  cases startFirst with
  | true =>
    simp only [if_true, true_and] at *
    omega
  | false =>
    simp only [Bool.false_eq_true, if_false, true_and] at *
    omega

/-- A time is looked up as the last instant at which it is shown: no later instant shows that time or
an earlier one. Where an instant before it shows that time or a later one, the time is shown before
that instant too. -/
theorem offsetAt?_spec {seconds : Int} (steady : zone.Steady year) (inside : InYear year time)
    (found : zone.offsetAt? year time = some offset) (shown : InYear year (zone.clock seconds)) :
    (zone.clock seconds ≤ time → seconds ≤ time - offset) ∧
      (time ≤ zone.clock seconds → seconds < time - offset →
        zone.clock (time - zone.offsetOf seconds) = time) := by
  cases summer : zone.summer with
  | none =>
    have always (seconds : Int) : zone.offsetOf seconds = zone.standard := by
      simp only [offsetOf, summer]
    have single : zone.offsetsAt year time = .one zone.standard := by
      simp only [offsetsAt, summer]
    rcases offsetsAt_of_offsetAt? found with one | ⟨_, two⟩
    · rw [single, Offsets.one.injEq] at one
      unfold clock
      simp only [always]
      omega
    · rw [single] at two
      cases two
  | some season =>
    have changes := steady season summer
    obtain ⟨startFirst, orderly⟩ := changes.orderly
    have known := offsetOf_cases summer seconds
    have back : zone.clock seconds - zone.offsetOf seconds = seconds := Int.add_sub_cancel ..
    have shows :=
      (offsetOf_sub_iff summer (changes.small known) known shown orderly).1 (by rw [back])
    obtain ⟨last, again⟩ := last_of_offsetsAt summer (orderly year (by omega) (by omega))
      (offsetsAt_of_offsetAt? found) shows
    rw [back] at last again
    refine ⟨last, fun later earlier => ?_⟩
    have same :=
      (offsetOf_sub_iff summer (changes.small known) known inside orderly).2 (again later earlier)
    rw [clock, same, Int.sub_add_cancel]

end Zone

/-! ### Days -/

theorem Date.ranges (date : Date) : (1 ≤ date.month ∧ date.month ≤ 12) ∧
    (1 ≤ date.day ∧ date.day ≤ 31) := by
  have valid := date.isDate
  simp only [Time.isDate, Bool.and_eq_true, decide_eq_true_eq] at valid
  have short : daysInMonth date.year date.month ≤ 31 := by
    unfold daysInMonth
    split
    · split <;> decide
    all_goals decide
  omega

theorem Date.inYear (date : Date) {time : Int} (within : time / 86400 = date.dayNumber) :
    InYear date.year time := by
  have range := dayNumber_range date.year _ _ date.ranges.1 date.ranges.2
  rw [← Date.dayNumber, ← within] at range
  unfold InYear yearStart
  omega

/-- An instant is of a date if clocks show a second of that day. -/
theorem Zone.dateAt_eq_iff {zone : Zone} {date : Date} {instant : Instant} :
    zone.dateAt instant = (date.year, date.month, date.day) ↔
      zone.clock instant.seconds / 86400 = date.dayNumber := by
  rw [Zone.dateAt]
  constructor
  · intro shown
    have back := dayNumber_civilDate (zone.clock instant.seconds / 86400)
    rw [shown] at back
    exact back.symm
  · intro number
    rw [number]
    exact civilDate_dayNumber date.isDate

namespace Bound

variable {zone : Zone} {bound : Bound} {text : String} {date : Date} {instant : Instant}

/-- A text that stands for a day alone. -/
def IsDay (text : String) (date : Date) : Prop :=
  Strict.readInstant? (Text.trim text.toList) = none ∧
    readDate? (Text.trim text.toList) = some date

def timeOf (bound : Bound) (date : Date) : Int := date.dayNumber * 86400 + bound.secondOfDay

theorem timeOf_lower (date : Date) : Bound.lower.timeOf date = date.dayNumber * 86400 :=
  Int.add_zero _

theorem timeOf_upper (date : Date) : Bound.upper.timeOf date = date.dayNumber * 86400 + 86399 := rfl

theorem inYear_timeOf (bound : Bound) (date : Date) : InYear date.year (bound.timeOf date) := by
  apply date.inYear
  cases bound with
  | lower =>
    rw [timeOf_lower]
    omega
  | upper =>
    rw [timeOf_upper]
    omega

theorem parts_of_read (day : IsDay text date) (read : Bound.read zone bound text = .ok instant) :
    ∃ offset, zone.offsetAt? date.year (bound.timeOf date) = some offset ∧
      instant.seconds = bound.timeOf date - offset ∧ instant.nanos = bound.nanos := by
  unfold Bound.read readTrimmed? at read
  simp only [day.1, day.2, Option.bind_some] at read
  split at read
  next found made =>
    cases read
    unfold ofDate? at made
    obtain ⟨offset, known, parts⟩ := Option.bind_eq_some_iff.1 made
    refine ⟨offset, known, ?_⟩
    unfold Instant.ofParts? at parts
    split_ifs at parts
    cases parts
    exact ⟨rfl, rfl⟩
  next => cases read

/-- A day given as both bounds, in a zone that sets its clocks well within each year. Of the instants
of that day the filter misses those before its lower bound and no other ones, and if there are any
then clocks show the first second of the day at or before them, and once more at the bound. -/
theorem day_covered_from_last_midnight {lower upper : Instant} (steady : zone.Steady date.year)
    (day : IsDay text date) (first : Bound.read zone .lower text = .ok lower)
    (last : Bound.read zone .upper text = .ok upper) (ordinary : instant.nanos < nanosPerSecond)
    (shown : zone.dateAt instant = (date.year, date.month, date.day)) :
    (Filter.admits ⟨some lower, some upper⟩ (some instant) = true ↔
      lower.seconds ≤ instant.seconds) ∧
    (instant.seconds < lower.seconds → ∃ midnight, midnight ≤ instant.seconds ∧
      zone.clock midnight = date.dayNumber * 86400) := by
  obtain ⟨offset, found, seconds, nanos⟩ := parts_of_read day first
  obtain ⟨finalOffset, finalFound, finalSeconds, finalNanos⟩ := parts_of_read day last
  have number := Zone.dateAt_eq_iff.1 shown
  have inside : InYear date.year (zone.clock instant.seconds) := date.inYear number
  have within : Bound.lower.timeOf date ≤ zone.clock instant.seconds ∧
      zone.clock instant.seconds ≤ Bound.upper.timeOf date := by
    rw [timeOf_lower, timeOf_upper]
    omega
  have notAfter :=
    (Zone.offsetAt?_spec steady (inYear_timeOf .upper date) finalFound inside).1 within.2
  have repeated :=
    (Zone.offsetAt?_spec steady (inYear_timeOf .lower date) found inside).2 within.1
  rw [← finalSeconds] at notAfter
  rw [← seconds] at repeated
  have below : instant ≤ upper := by
    have most : upper.nanos + 1 = nanosPerSecond := by rw [finalNanos]; rfl
    rw [Instant.le_iff]
    omega
  have above : lower ≤ instant ↔ lower.seconds ≤ instant.seconds := by
    have none : lower.nanos = 0 := nanos
    rw [Instant.le_iff]
    omega
  refine ⟨?_, fun early => ⟨Bound.lower.timeOf date - zone.offsetOf instant.seconds, ?_, ?_⟩⟩
  · change (lower.atMost instant && instant.atMost upper) = true ↔ _
    rw [Bool.and_eq_true, Instant.atMost_iff, Instant.atMost_iff, above]
    exact and_iff_left below
  · have low := within.1
    unfold Zone.clock at low
    omega
  · rw [repeated early, timeOf_lower]

/-- A zone in which clocks are set forward at midnight and back to midnight. -/
def midnightRule : String := "CST5CDT,M3.2.0/0,M11.1.0/1"

/-- 2024-11-03, a day of which clocks show the first hour twice. -/
def longDay : Date := ⟨2024, 11, 3, by decide⟩

theorem isDay_longDay : IsDay "2024-11-03" longDay := ⟨by decide, by decide⟩

theorem steady_midnightRule : (Zone.ofRule midnightRule).Steady 2024 := by
  have read : Zone.ofRule midnightRule =
      ⟨-18000, some ⟨-14400, ⟨.weekday 3 2 0, 0⟩, ⟨.weekday 11 1 0, 3600⟩⟩⟩ := by
    decide +kernel
  rw [read]
  intro season summer
  cases summer
  refine ⟨by decide, by decide, true, fun near low high => ?_⟩
  interval_cases near
  all_goals exact ⟨by decide, by decide, by decide⟩

/-- Half past midnight in the first pass of an hour that is shown twice. -/
theorem day_covered_from_last_midnight_sample :
    let zone := Zone.ofRule midnightRule
    let lower : Instant := ⟨1730610000, 0, by decide, by decide⟩
    let upper : Instant := ⟨1730696399, 999999999, by decide, by decide⟩
    let instant : Instant := ⟨1730608200, 0, by decide, by decide⟩
    zone.Steady longDay.year ∧ IsDay "2024-11-03" longDay ∧
      Bound.read zone .lower "2024-11-03" = .ok lower ∧
      Bound.read zone .upper "2024-11-03" = .ok upper ∧ instant.nanos < nanosPerSecond ∧
      zone.dateAt instant = (longDay.year, longDay.month, longDay.day) ∧
      ¬Filter.admits ⟨some lower, some upper⟩ (some instant) = true ∧
      ∃ midnight, midnight ≤ instant.seconds ∧ zone.clock midnight = longDay.dayNumber * 86400 := by
  intro zone lower upper instant
  have first : Bound.read zone .lower "2024-11-03" = .ok lower := by decide
  have last : Bound.read zone .upper "2024-11-03" = .ok upper := by decide
  have shown : zone.dateAt instant = (longDay.year, longDay.month, longDay.day) := by decide
  obtain ⟨covered, earlier⟩ :=
    day_covered_from_last_midnight steady_midnightRule isDay_longDay first last (by decide) shown
  exact ⟨steady_midnightRule, isDay_longDay, first, last, by decide, shown, mt covered.1 (by decide),
    earlier (by decide)⟩

/-- The two bounds of a day do not cover all of it. -/
theorem day_bounds_miss_first_pass :
    ¬∀ (rule text : String) (date : Date) (lower upper instant : Instant),
      IsDay text date → Bound.read (Zone.ofRule rule) .lower text = .ok lower →
      Bound.read (Zone.ofRule rule) .upper text = .ok upper → instant.nanos < nanosPerSecond →
      (Zone.ofRule rule).dateAt instant = (date.year, date.month, date.day) →
      Filter.admits ⟨some lower, some upper⟩ (some instant) = true := by
  intro covered
  have missed := covered midnightRule "2024-11-03" longDay
    ⟨1730610000, 0, by decide, by decide⟩ ⟨1730696399, 999999999, by decide, by decide⟩
    ⟨1730608200, 0, by decide, by decide⟩ isDay_longDay (by decide) (by decide) (by decide)
    (by decide)
  exact absurd missed (by decide)

end Bound

end LogCensus.Time
