import LogCensus.Time.Instant
import Mathlib.Tactic.IntervalCases

/-!
The date of a day number is a date of the calendar, and its day number is the one it came from.
A cycle of 400 years is cut into centuries, groups of four years, years and days, each piece but
the last one of its kind being of equal length.
-/

namespace LogCensus.Time

/-- The place of a day in a cycle of 400 years that start in March. -/
structure CycleDay where
  century : Int
  group : Int
  year : Int
  day : Int
  century_range : 0 ≤ century ∧ century ≤ 3
  group_range : 0 ≤ group ∧ group ≤ 24
  year_range : 0 ≤ year ∧ year ≤ 3
  day_range : 0 ≤ day ∧ day ≤ 365
  /-- The leap day ends a group of four years, if the century is not cut short. -/
  leap : day = 365 → year = 3 ∧ (group < 24 ∨ century = 3)

namespace CycleDay

def number (place : CycleDay) : Int :=
  36524 * place.century + 1461 * place.group + 365 * place.year + place.day

def yearOfCycle (place : CycleDay) : Int :=
  100 * place.century + 4 * place.group + place.year

theorem exists_number {number : Int} (low : 0 ≤ number) (high : number < 146097) :
    ∃ place : CycleDay, place.number = number := by
  obtain ⟨century, century_eq⟩ : ∃ century, century = min 3 (number / 36524) := ⟨_, rfl⟩
  obtain ⟨group, group_eq⟩ : ∃ group, group = (number - 36524 * century) / 1461 := ⟨_, rfl⟩
  obtain ⟨year, year_eq⟩ :
      ∃ year, year = min 3 ((number - 36524 * century - 1461 * group) / 365) := ⟨_, rfl⟩
  refine ⟨⟨century, group, year, number - 36524 * century - 1461 * group - 365 * year,
    by omega, by omega, by omega, by omega, by omega⟩, ?_⟩
  simp only [CycleDay.number]
  omega

/-- The year of a day of a cycle as the calendar finds it. -/
theorem yearOfCycle_eq (place : CycleDay) :
    (place.number - place.number / 1460 + place.number / 36524 - place.number / 146096) / 365 =
      place.yearOfCycle := by
  obtain ⟨century, group, year, day, century_range, group_range, year_range, day_range, leap⟩ :=
    place
  simp only [number, yearOfCycle]
  have centuries : (36524 * century + 1461 * group + 365 * year + day) / 36524
      - (36524 * century + 1461 * group + 365 * year + day) / 146096 = century := by
    have within : 1461 * group + 365 * year + day ≤ 36524 ∧
        (century < 3 → 1461 * group + 365 * year + day < 36524) := by
      omega
    obtain ⟨low, high⟩ := century_range
    interval_cases century <;> omega
  -- a group of four years is a day longer than 1460 days, which shows in its last days only
  have groups : (36524 * century + 1461 * group + 365 * year + day) / 1460 =
      25 * century + group + (24 * century + group + 365 * year + day) / 1460 := by
    omega
  obtain ⟨extra, extra_eq⟩ : ∃ extra, extra = (24 * century + group + 365 * year + day) / 1460 :=
    ⟨_, rfl⟩
  rw [← extra_eq] at groups
  omega

theorem yearOfCycle_range (place : CycleDay) :
    0 ≤ place.yearOfCycle ∧ place.yearOfCycle < 400 := by
  obtain ⟨century, group, year, day, century_range, group_range, year_range, day_range, leap⟩ :=
    place
  simp only [yearOfCycle]
  omega

/-- The days of a cycle before the year of a day in it. -/
theorem number_eq (place : CycleDay) :
    place.number = 365 * place.yearOfCycle + place.yearOfCycle / 4 - place.yearOfCycle / 100
      + place.day := by
  obtain ⟨century, group, year, day, century_range, group_range, year_range, day_range, leap⟩ :=
    place
  simp only [number, yearOfCycle]
  omega

/-- The leap day lies in a year before a leap year, years counted from March. -/
theorem isLeapYear_of_day (place : CycleDay) (last : place.day = 365) (cycle : Int) :
    isLeapYear (place.yearOfCycle + cycle * 400 + 1) = true := by
  obtain ⟨century, group, year, day, century_range, group_range, year_range, day_range, leap⟩ :=
    place
  simp only [yearOfCycle, isLeapYear, Bool.and_eq_true, Bool.or_eq_true, beq_iff_eq, bne_iff_ne]
  have ends := leap last
  omega

end CycleDay

/-- Month, from March on, and day of a day of the year. -/
structure MonthDay (dayOfYear marchMonth day : Int) : Prop where
  number : dayOfYear = (153 * marchMonth + 2) / 5 + day - 1
  month_range : 0 ≤ marchMonth ∧ marchMonth ≤ 11
  day_range : 1 ≤ day ∧ day ≤ 31
  short : marchMonth = 1 ∨ marchMonth = 3 ∨ marchMonth = 6 ∨ marchMonth = 8 → day ≤ 30
  last : marchMonth = 11 → day ≤ 29
  leap : marchMonth = 11 → day = 29 → dayOfYear = 365

theorem monthDay {dayOfYear : Int} (range : 0 ≤ dayOfYear ∧ dayOfYear ≤ 365) :
    MonthDay dayOfYear ((5 * dayOfYear + 2) / 153)
      (dayOfYear - (153 * ((5 * dayOfYear + 2) / 153) + 2) / 5 + 1) := by
  constructor <;> omega

theorem MonthDay.day_le {dayOfYear marchMonth day : Int} (parts : MonthDay dayOfYear marchMonth day)
    {year : Int} (leap : dayOfYear = 365 → isLeapYear (year + 1) = true) :
    day.toNat ≤ daysInMonth (year + (if marchMonth < 10 then 0 else 1))
      (if marchMonth < 10 then marchMonth + 3 else marchMonth - 9).toNat := by
  obtain ⟨-, ⟨month_low, month_high⟩, ⟨day_low, day_high⟩, short, last, leapDay⟩ := parts
  have long : day.toNat ≤ 31 := by omega
  interval_cases marchMonth
  case «11» =>
    change day.toNat ≤ if isLeapYear (year + 1) = true then 29 else 28
    by_cases twentyNine : day = 29
    · rw [if_pos (leap (leapDay rfl twentyNine))]
      omega
    · split_ifs <;> omega
  case «1» | «3» | «6» | «8» =>
    have thirty : day.toNat ≤ 30 := by omega
    exact thirty
  all_goals exact long

structure CivilParts (dayNumber : Int) where
  cycle : Int
  place : CycleDay
  marchMonth : Int
  day : Int
  number : dayNumber + 719468 = cycle * 146097 + place.number
  monthDay : MonthDay place.day marchMonth day
  date : civilDate dayNumber =
    (place.yearOfCycle + cycle * 400 + (if marchMonth < 10 then 0 else 1),
      (if marchMonth < 10 then marchMonth + 3 else marchMonth - 9).toNat, day.toNat)

theorem exists_civilParts (dayNumber : Int) : Nonempty (CivilParts dayNumber) := by
  obtain ⟨place, number⟩ := CycleDay.exists_number
    (Int.emod_nonneg (dayNumber + 719468) (by decide : (146097 : Int) ≠ 0))
    (Int.emod_lt_of_pos (dayNumber + 719468) (by decide))
  refine ⟨(dayNumber + 719468) / 146097, place, _, _, ?_, monthDay place.day_range, ?_⟩
  · rw [number, Int.mul_comm, Int.mul_ediv_add_emod]
  · have dayOfYear : place.number - (365 * place.yearOfCycle + place.yearOfCycle / 4
        - place.yearOfCycle / 100) = place.day := by
      rw [place.number_eq]
      omega
    obtain ⟨month_low, month_high⟩ := (monthDay place.day_range).month_range
    simp only [civilDate, ← number, place.yearOfCycle_eq, dayOfYear]
    by_cases early : (5 * place.day + 2) / 153 < 10
    · simp only [if_pos early, if_neg (show
        ¬ ((5 * place.day + 2) / 153 + 3).toNat ≤ 2 by omega)]
    · simp only [if_neg early, if_pos (show
        ((5 * place.day + 2) / 153 - 9).toNat ≤ 2 by omega)]

theorem dayNumber_civilDate (n : Int) :
    dayNumber (civilDate n).1 (civilDate n).2.1 (civilDate n).2.2 = n := by
  obtain ⟨cycle, place, marchMonth, day, number, parts, date⟩ := exists_civilParts n
  obtain ⟨month_low, month_high⟩ := parts.month_range
  have year_range := place.yearOfCycle_range
  have day_range := parts.day_range
  have place_number := place.number_eq
  have dayOfYear := parts.number
  simp only [date]
  have marchYear : ∀ year : Int, (if (if marchMonth < 10 then marchMonth + 3
      else marchMonth - 9).toNat ≤ 2 then year + (if marchMonth < 10 then 0 else 1) - 1
      else year + (if marchMonth < 10 then 0 else 1)) = year := by
    intro year
    split_ifs <;> omega
  have month : ((((if marchMonth < 10 then marchMonth + 3 else marchMonth - 9).toNat + 9) % 12 : Nat)
      : Int) = marchMonth := by
    split_ifs <;> omega
  simp only [dayNumber, marchYear, month]
  omega

def leastDay : Int := -96465292
def greatestDay : Int := 95026236

theorem civilDate_year_range {n : Int} (low : leastDay ≤ n) (high : n ≤ greatestDay) :
    leastYear ≤ (civilDate n).1 ∧ (civilDate n).1 ≤ greatestYear := by
  obtain ⟨cycle, place, marchMonth, day, number, parts, date⟩ := exists_civilParts n
  rw [date]
  have year_range := place.yearOfCycle_range
  have place_number := place.number_eq
  have day_range := place.day_range
  have dayOfYear := parts.number
  have days := parts.day_range
  simp only [leastDay, greatestDay] at low high
  simp only [leastYear, greatestYear]
  constructor
  · split_ifs <;> omega
  · by_contra beyond
    have cycle_eq : cycle = 655 := by split_ifs at beyond <;> omega
    have years : 142 ≤ place.yearOfCycle := by split_ifs at beyond <;> omega
    rcases years.eq_or_lt with last | later
    · split_ifs at beyond <;> omega
    · omega

/-- Any day whose year is one of the calendar has a date. -/
theorem isDate_of_year {n : Int} (low : leastYear ≤ (civilDate n).1)
    (high : (civilDate n).1 ≤ greatestYear) :
    isDate (civilDate n).1 (civilDate n).2.1 (civilDate n).2.2 = true := by
  obtain ⟨cycle, place, marchMonth, day, number, monthDay, date⟩ := exists_civilParts n
  obtain ⟨month_low, month_high⟩ := monthDay.month_range
  obtain ⟨first, most⟩ := monthDay.day_range
  have leap : place.day = 365 → isLeapYear (place.yearOfCycle + cycle * 400 + 1) = true :=
    fun last => place.isLeapYear_of_day last cycle
  simp only [date] at low high
  simp only [date, isDate, Bool.and_eq_true, decide_eq_true_eq]
  refine ⟨⟨⟨⟨⟨low, high⟩, ?_⟩, ?_⟩, ?_⟩, ?_⟩
  · split_ifs <;> omega
  · split_ifs <;> omega
  · omega
  · exact monthDay.day_le leap

theorem isDate_civilDate {n : Int} (low : leastDay ≤ n) (high : n ≤ greatestDay) :
    isDate (civilDate n).1 (civilDate n).2.1 (civilDate n).2.2 = true := by
  obtain ⟨yearLow, yearHigh⟩ := civilDate_year_range low high
  exact isDate_of_year yearLow yearHigh

/-! ### Day numbers of dates -/

theorem CycleDay.number_range (place : CycleDay) : 0 ≤ place.number ∧ place.number < 146097 := by
  obtain ⟨century, group, year, day, century_range, group_range, year_range, day_range, leap⟩ :=
    place
  simp only [number]
  omega

/-- The day of a date in its year, years counted from March. -/
def dayOfMarchYear (month day : Nat) : Int :=
  (153 * ((month + 9) % 12 : Nat) + 2) / 5 + (day : Int) - 1

/-- The days of a year, counted from March, have a place in their cycle. -/
theorem exists_cycleDay {marchYear dayOfYear : Int} (range : 0 ≤ dayOfYear ∧ dayOfYear ≤ 365)
    (leap : dayOfYear = 365 → isLeapYear (marchYear + 1) = true) :
    ∃ place : CycleDay, place.yearOfCycle = marchYear % 400 ∧ place.day = dayOfYear := by
  simp only [isLeapYear, Bool.and_eq_true, Bool.or_eq_true, beq_iff_eq, bne_iff_ne] at leap
  refine ⟨⟨marchYear % 400 / 100, marchYear % 100 / 4, marchYear % 4, dayOfYear, by omega, by omega,
    by omega, range, by omega⟩, ?_, rfl⟩
  simp only [CycleDay.yearOfCycle]
  omega

/-- Month and leap day of a date can be told from its day in the year. -/
theorem month_of_dayOfMarchYear {year : Int} {month day : Nat}
    (valid : isDate year month day = true) :
    (0 ≤ dayOfMarchYear month day ∧ dayOfMarchYear month day ≤ 365) ∧
      (5 * dayOfMarchYear month day + 2) / 153 = ((month + 9) % 12 : Nat) ∧
      (dayOfMarchYear month day = 365 → month = 2 ∧ isLeapYear year = true) := by
  simp only [isDate, Bool.and_eq_true, decide_eq_true_eq] at valid
  obtain ⟨⟨⟨⟨-, month_low⟩, month_high⟩, day_low⟩, day_high⟩ := valid
  unfold dayOfMarchYear
  interval_cases month
  case «2» =>
    simp only [daysInMonth] at day_high
    cases leap : isLeapYear year with
    | true =>
      rw [leap, if_pos rfl] at day_high
      simp
      omega
    | false =>
      rw [leap, if_neg (by simp)] at day_high
      simp
      omega
  all_goals
    simp only [daysInMonth] at day_high
    simp
    omega

theorem civilDate_dayNumber {year : Int} {month day : Nat} (valid : isDate year month day = true) :
    civilDate (dayNumber year month day) = (year, month, day) := by
  obtain ⟨range, month_eq, leapDay⟩ := month_of_dayOfMarchYear valid
  simp only [isDate, Bool.and_eq_true, decide_eq_true_eq] at valid
  obtain ⟨⟨⟨⟨-, month_low⟩, month_high⟩, -⟩, -⟩ := valid
  obtain ⟨marchYear, march⟩ : ∃ marchYear, marchYear = if month ≤ 2 then year - 1 else year :=
    ⟨_, rfl⟩
  have leap (last : dayOfMarchYear month day = 365) : isLeapYear (marchYear + 1) = true := by
    obtain ⟨february, leap⟩ := leapDay last
    rw [march, if_pos february.le, Int.sub_add_cancel]
    exact leap
  obtain ⟨place, year_eq, day_eq⟩ := exists_cycleDay range leap
  have number : dayNumber year month day + 719468 = marchYear / 400 * 146097 + place.number := by
    rw [place.number_eq, year_eq, day_eq, dayOfMarchYear, dayNumber, ← march]
    omega
  obtain ⟨low, high⟩ := place.number_range
  have cycle : (dayNumber year month day + 719468) / 146097 = marchYear / 400 := by omega
  have dayOfCycle : (dayNumber year month day + 719468) % 146097 = place.number := by omega
  have dayOfYear : place.number - (365 * place.yearOfCycle + place.yearOfCycle / 4
      - place.yearOfCycle / 100) = dayOfMarchYear month day := by
    rw [place.number_eq, day_eq]
    omega
  have monthOfYear : (if (((month + 9) % 12 : Nat) : Int) < 10 then
      (((month + 9) % 12 : Nat) : Int) + 3 else (((month + 9) % 12 : Nat) : Int) - 9).toNat =
        month := by
    split_ifs <;> omega
  have dayOfMonth : (dayOfMarchYear month day - (153 * (((month + 9) % 12 : Nat) : Int) + 2) / 5
      + 1).toNat = day := by
    unfold dayOfMarchYear
    omega
  simp only [civilDate, cycle, dayOfCycle, place.yearOfCycle_eq, dayOfYear, month_eq, monthOfYear,
    dayOfMonth, Prod.mk.injEq, and_true]
  split_ifs at march ⊢ <;> omega

theorem dayNumber_range (year : Int) (month day : Nat) (months : 1 ≤ month ∧ month ≤ 12)
    (days : 1 ≤ day ∧ day ≤ 31) :
    dayNumber year 1 1 ≤ dayNumber year month day ∧
      dayNumber year month day < dayNumber (year + 1) 1 1 := by
  obtain ⟨low, high⟩ := months
  unfold dayNumber
  interval_cases month <;> simp <;> omega

theorem daysInMonth_le (year : Int) (month : Nat) : daysInMonth year month ≤ 31 := by
  unfold daysInMonth
  split <;> (try split) <;> decide

theorem dayNumber_bounds {year : Int} {month day : Nat} (valid : isDate year month day = true) :
    leastDay ≤ dayNumber year month day ∧ dayNumber year month day ≤ greatestDay := by
  simp only [isDate, Bool.and_eq_true, decide_eq_true_eq] at valid
  obtain ⟨⟨⟨⟨⟨year_low, year_high⟩, month_low⟩, month_high⟩, day_low⟩, day_high⟩ := valid
  simp only [leastYear, greatestYear] at year_low year_high
  obtain ⟨low, high⟩ := dayNumber_range year month day ⟨month_low, month_high⟩
    ⟨day_low, day_high.trans (daysInMonth_le year month)⟩
  have first : leastDay ≤ dayNumber year 1 1 := by
    rcases year_low.eq_or_lt with rfl | later
    · decide
    · simp [dayNumber, leastDay]
      omega
  have last : dayNumber (year + 1) 1 1 ≤ greatestDay + 1 := by
    rcases year_high.eq_or_lt with rfl | earlier
    · decide
    · simp [dayNumber, greatestDay]
      omega
  omega

end LogCensus.Time
