import LogCensus.Proofs.Time.Calendar
import LogCensus.Time.Zone
import Mathlib.Algebra.Order.Group.Int
import Mathlib.Data.Int.SuccPred
import Mathlib.Order.SuccPred.Archimedean

/-!
What clocks in a zone show. Summer time lasts from the start to the finish of a year or, where the
finish comes first, all the year but from the finish to the start. Where the changes of the clocks
lie well within their years, whether a time is shown with one of the offsets can be told from the
changes of the year of that time alone.
-/

namespace LogCensus.Time

/-! ### Years -/

/-- The time at which a year begins, in seconds from 1970 on. -/
def yearStart (year : Int) : Int := dayNumber year 1 1 * 86400

def yearOf (time : Int) : Int := (civilDate (time / 86400)).1

def InYear (year time : Int) : Prop := yearStart year ≤ time ∧ time < yearStart (year + 1)

theorem yearStart_lt_succ (year : Int) : yearStart year + 31536000 ≤ yearStart (year + 1) := by
  unfold yearStart dayNumber
  simp
  omega

theorem yearStart_lt_iff {year other : Int} : yearStart year < yearStart other ↔ year < other := by
  have mono : StrictMono yearStart := by
    apply strictMono_of_lt_add_one
    intro year _
    have longer := yearStart_lt_succ year
    omega
  exact mono.lt_iff_lt

theorem InYear.unique {year other time : Int} (one : InYear year time) (two : InYear other time) :
    year = other := by
  have below : year < other + 1 := yearStart_lt_iff.1 (one.1.trans_lt two.2)
  have above : other < year + 1 := yearStart_lt_iff.1 (two.1.trans_lt one.2)
  omega

theorem inYear_yearOf (time : Int) : InYear (yearOf time) time := by
  obtain ⟨parts⟩ := exists_civilParts (time / 86400)
  have number := dayNumber_civilDate (time / 86400)
  obtain ⟨low, high⟩ := parts.monthDay.month_range
  obtain ⟨first, last⟩ := parts.monthDay.day_range
  have bounds := dayNumber_range (civilDate (time / 86400)).1 (civilDate (time / 86400)).2.1
    (civilDate (time / 86400)).2.2
    (by rw [parts.date]; dsimp only; split_ifs <;> omega) (by rw [parts.date]; dsimp only; omega)
  rw [number] at bounds
  unfold InYear yearStart yearOf
  omega

/-- The year of an instant is that of the time shown there, or one next to it. -/
theorem yearOf_sub_near {year time offset : Int} (small : -86400 < offset ∧ offset < 86400)
    (inside : InYear year time) :
    yearOf (time - offset) = year - 1 ∨ yearOf (time - offset) = year ∨
      yearOf (time - offset) = year + 1 := by
  obtain ⟨low, high⟩ := inYear_yearOf (time - offset)
  obtain ⟨first, last⟩ := inside
  have before := yearStart_lt_succ (year - 1)
  have after := yearStart_lt_succ (year + 1)
  rw [Int.sub_add_cancel] at before
  have above : year - 1 < yearOf (time - offset) + 1 :=
    yearStart_lt_iff.1 (by omega)
  have below : yearOf (time - offset) < year + 1 + 1 :=
    yearStart_lt_iff.1 (by omega)
  omega

/-! ### Summer time -/

namespace Season

/-- The instant at which summer time starts in a year. -/
def starts (season : Season) (standard year : Int) : Int :=
  season.start.localSeconds year - standard

def finishes (season : Season) (year : Int) : Int :=
  season.finish.localSeconds year - season.offset

/-- Whether clocks are on summer time at an instant. The change before it or behind it may be one of
the last or of the next year. -/
def isOn (season : Season) (standard seconds : Int) : Bool :=
  let year := yearOf seconds
  let near := [year - 1, year, year + 1]
  if season.starts standard year ≤ season.finishes year then
    near.any fun year => season.starts standard year ≤ seconds && seconds < season.finishes year
  else
    near.all fun year => seconds < season.finishes year || season.starts standard year ≤ seconds

/-- What clocks show right before and right after summer time starts. -/
def startShown (season : Season) (standard year : Int) : List Int :=
  [season.start.localSeconds year, season.start.localSeconds year + (season.offset - standard)]

def finishShown (season : Season) (standard year : Int) : List Int :=
  [season.finish.localSeconds year, season.finish.localSeconds year - (season.offset - standard)]

theorem forall_mem_startShown {season : Season} {standard year : Int} {holds : Int → Prop} :
    (∀ time ∈ season.startShown standard year, holds time) ↔
      holds (season.start.localSeconds year) ∧
        holds (season.start.localSeconds year + (season.offset - standard)) := by
  rw [startShown, List.forall_mem_cons, List.forall_mem_singleton]

theorem forall_mem_finishShown {season : Season} {standard year : Int} {holds : Int → Prop} :
    (∀ time ∈ season.finishShown standard year, holds time) ↔
      holds (season.finish.localSeconds year) ∧
        holds (season.finish.localSeconds year - (season.offset - standard)) := by
  rw [finishShown, List.forall_mem_cons, List.forall_mem_singleton]

/-- The clocks are set within a year, and the months tell which of the changes comes first. -/
structure Orderly (season : Season) (standard : Int) (startFirst : Bool) (year : Int) : Prop where
  told : decide (season.start.month year < season.finish.month year) = startFirst
  within : ∀ time ∈ season.startShown standard year ++ season.finishShown standard year,
    yearStart year ≤ time ∧ time ≤ yearStart (year + 1)
  apart : ∀ one ∈ season.startShown standard year, ∀ other ∈ season.finishShown standard year,
    if startFirst then one < other else other < one

/-- The offsets are less than a day, and the years around a year are orderly in the same way. -/
structure Steady (season : Season) (standard year : Int) : Prop where
  standard_small : -86400 < standard ∧ standard < 86400
  summer_small : -86400 < season.offset ∧ season.offset < 86400
  orderly : ∃ startFirst, ∀ near, year - 2 ≤ near → near ≤ year + 2 →
    season.Orderly standard startFirst near

theorem Steady.small {season : Season} {standard year offset : Int}
    (changes : season.Steady standard year) (known : offset = standard ∨ offset = season.offset) :
    -86400 < offset ∧ offset < 86400 := by
  rcases known with rfl | rfl
  · exact changes.standard_small
  · exact changes.summer_small

/-- Where a condition on years only holds of the year of a time, so it does near the instant at
which that time is shown. -/
theorem any_near {holds : Int → Bool} {year time offset : Int}
    (small : -86400 < offset ∧ offset < 86400) (inside : InYear year time)
    (own : ∀ near, year - 2 ≤ near → near ≤ year + 2 → holds near = true → InYear near time) :
    [yearOf (time - offset) - 1, yearOf (time - offset), yearOf (time - offset) + 1].any holds =
      holds year := by
  have near := yearOf_sub_near small inside
  have alone (other : Int) (low : year - 2 ≤ other) (high : other ≤ year + 2)
      (held : holds other = true) : holds year = true :=
    (own other low high held).unique inside ▸ held
  apply Bool.eq_iff_iff.2
  simp only [List.any_cons, List.any_nil, Bool.or_false, Bool.or_eq_true]
  constructor
  · rintro (before | same | after)
    · exact alone _ (by omega) (by omega) before
    · exact alone _ (by omega) (by omega) same
    · exact alone _ (by omega) (by omega) after
  · intro held
    rcases near with before | same | after
    · exact .inr (.inr (by rwa [before, Int.sub_add_cancel]))
    · exact .inr (.inl (by rwa [same]))
    · exact .inl (by rwa [after, Int.add_sub_cancel])

variable {season : Season} {standard year time : Int} {startFirst : Bool}

theorem Orderly.starts_le_finishes (orderly : season.Orderly standard startFirst year) :
    season.starts standard year ≤ season.finishes year ↔ startFirst = true := by
  have apart := orderly.apart
  simp only [forall_mem_startShown, forall_mem_finishShown] at apart
  unfold starts finishes
  cases startFirst with
  | true =>
    simp only [if_true] at apart
    exact iff_of_true (by omega) rfl
  | false =>
    simp only [Bool.false_eq_true, if_false] at apart
    exact iff_of_false (by omega) Bool.false_ne_true

def During (season : Season) (standard : Int) (startFirst : Bool) (year seconds : Int) : Prop :=
  if startFirst then season.starts standard year ≤ seconds ∧ seconds < season.finishes year
  else seconds < season.finishes year ∨ season.starts standard year ≤ seconds

/-- Where a time is shown, the changes of its year tell whether summer time is on. -/
theorem isOn_sub {offset : Int} (small : -86400 < offset ∧ offset < 86400)
    (known : offset = standard ∨ offset = season.offset) (inside : InYear year time)
    (orderly : ∀ near, year - 2 ≤ near → near ≤ year + 2 →
      season.Orderly standard startFirst near) :
    season.isOn standard (time - offset) = true ↔
      season.During standard startFirst year (time - offset) := by
  have near := yearOf_sub_near small inside
  have direction := (orderly (yearOf (time - offset)) (by omega) (by omega)).starts_le_finishes
  unfold isOn During
  cases startFirst with
  | true =>
    rw [if_pos (direction.2 rfl), if_pos rfl, any_near small inside]
    · simp only [Bool.and_eq_true, decide_eq_true_eq]
    · intro near low high held
      have within := List.forall_mem_append.1 (orderly near low high).within
      rw [forall_mem_startShown, forall_mem_finishShown] at within
      simp only [Bool.and_eq_true, decide_eq_true_eq] at held
      unfold starts finishes at held
      unfold InYear
      omega
  | false =>
    rw [if_neg (mt direction.1 Bool.false_ne_true), if_neg Bool.false_ne_true,
      List.all_eq_not_any_not, any_near small inside, Bool.not_not]
    · simp only [Bool.or_eq_true, decide_eq_true_eq]
    · intro near low high held
      have within := List.forall_mem_append.1 (orderly near low high).within
      rw [forall_mem_startShown, forall_mem_finishShown] at within
      simp only [Bool.not_eq_true', Bool.or_eq_false_iff, decide_eq_false_iff_not] at held
      unfold starts finishes at held
      unfold InYear
      omega

def Shows (season : Season) (standard : Int) (startFirst : Bool) (year offset time : Int) : Prop :=
  offset = season.offset ∧ season.During standard startFirst year (time - offset) ∨
    offset = standard ∧ ¬season.During standard startFirst year (time - offset)

end Season

namespace Zone

def offsetOf (zone : Zone) (seconds : Int) : Int :=
  match zone.summer with
  | none => zone.standard
  | some season => if season.isOn zone.standard seconds then season.offset else zone.standard

def clock (zone : Zone) (seconds : Int) : Int := seconds + zone.offsetOf seconds

def dateAt (zone : Zone) (instant : Instant) : Int × Nat × Nat :=
  civilDate (zone.clock instant.seconds / 86400)

/-- The changes of the clocks are told right in a year and next to it. -/
def Steady (zone : Zone) (year : Int) : Prop :=
  ∀ season, zone.summer = some season → season.Steady zone.standard year

variable {zone : Zone} {season : Season} {year time offset : Int} {startFirst : Bool}

theorem offsetOf_cases (summer : zone.summer = some season) (seconds : Int) :
    zone.offsetOf seconds = zone.standard ∨ zone.offsetOf seconds = season.offset := by
  simp only [offsetOf, summer]
  split_ifs
  · exact .inr rfl
  · exact .inl rfl

/-- A time is shown with one of the offsets where the changes of its year say so. -/
theorem offsetOf_sub_iff (summer : zone.summer = some season)
    (small : -86400 < offset ∧ offset < 86400)
    (known : offset = zone.standard ∨ offset = season.offset) (inside : InYear year time)
    (orderly : ∀ near, year - 2 ≤ near → near ≤ year + 2 →
      season.Orderly zone.standard startFirst near) :
    zone.offsetOf (time - offset) = offset ↔
      season.Shows zone.standard startFirst year offset time := by
  have told := Season.isOn_sub small known inside orderly
  simp only [offsetOf, summer, Season.Shows]
  by_cases on : season.isOn zone.standard (time - offset) = true
  · rw [if_pos on]
    simp only [told.1 on, not_true_eq_false, and_true, and_false, or_false, eq_comm]
  · rw [if_neg on]
    simp only [mt told.2 on, not_false_eq_true, and_true, and_false, false_or, eq_comm]

end Zone

end LogCensus.Time
