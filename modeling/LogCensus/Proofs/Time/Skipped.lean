import LogCensus.Proofs.Time.DayText
import Mathlib.Order.Bounds.Basic

/-!
Days whose first or last second the clocks leave out. The search for the offset of a local time
fails where clocks set forward leave that time out, apart from the time of the first change of the
year, for which the instant of the change is found. A day is refused as a bound then, although it
has instants.
-/

namespace LogCensus.Time

namespace Zone

variable {zone : Zone} {season : Season} {year time offset : Int} {startFirst : Bool}

/-- The local time, as clocks are about to be set, of the change that comes first in a year. -/
def FirstChange (zone : Zone) (year time : Int) : Prop :=
  ∃ season, zone.summer = some season ∧
    time = min (season.start.localSeconds year) (season.finish.localSeconds year)

def Offsets.All (holds : Int → Prop) : Offsets → Prop
  | none => True
  | one offset => holds offset
  | two first second => holds first ∧ holds second

theorem offsetsAt_all {holds : Int → Prop} (summer : zone.summer = some season)
    (standard : holds zone.standard) (other : holds season.offset) :
    (zone.offsetsAt year time).All holds := by
  simp only [offsetsAt, summer]
  unfold offsetsForward offsetsBackward
  split_ifs <;> simp only [Offsets.All, standard, other, and_self]

/-- With offsets of less than a day nothing that is found is dropped. -/
theorem exists_offsetAt?_iff_ne_none
    (small : (zone.offsetsAt year time).All fun offset => -86400 < offset ∧ offset < 86400) :
    (∃ offset, zone.offsetAt? year time = some offset) ↔ zone.offsetsAt year time ≠ .none := by
  unfold offsetAt?
  cases found : zone.offsetsAt year time with
  | none => simp
  | one offset =>
    rw [found] at small
    simp [small.1, small.2]
  | two first second =>
    rw [found] at small
    simp [small.1.1, small.1.2, small.2.1, small.2.2]

/-- Nothing is found for a time that neither offset shows, apart from that of the first change. -/
theorem offsetsAt_eq_none_iff (summer : zone.summer = some season)
    (orderly : season.Orderly zone.standard startFirst year) :
    zone.offsetsAt year time = .none ↔
      (∀ offset, ¬season.Shows zone.standard startFirst year offset time) ∧
        time ≠ min (season.start.localSeconds year) (season.finish.localSeconds year) := by
  have apart := orderly.apart
  simp only [Season.forall_mem_startShown, Season.forall_mem_finishShown] at apart
  have pair : (∀ offset, ¬season.Shows zone.standard startFirst year offset time) ↔
      ¬season.Shows zone.standard startFirst year zone.standard time ∧
        ¬season.Shows zone.standard startFirst year season.offset time := by
    constructor
    · intro none
      exact ⟨none _, none _⟩
    · rintro ⟨standard, other⟩ offset shows
      rcases shows with ⟨rfl, on⟩ | ⟨rfl, off⟩
      · exact other (.inl ⟨rfl, on⟩)
      · exact standard (.inr ⟨rfl, off⟩)
  rw [pair]
  simp only [offsetsAt, summer, orderly.told]
  unfold Season.Shows Season.During Season.starts Season.finishes offsetsForward offsetsBackward
  -- what is left is linear in the two changes, in each branch of the search
  generalize season.start.localSeconds year = start at *
  generalize season.finish.localSeconds year = finish at *
  cases startFirst with
  | true =>
    simp only [if_true] at *
    split_ifs <;> simp <;> omega
  | false =>
    simp only [Bool.false_eq_true, if_false] at *
    split_ifs <;> simp <;> omega

/-- Where the offset that is found does not show the time, the clocks are set forward past it at the
instant that is found, and show no earlier time from then on. -/
theorem forward_of_offsetsAt {next shown other : Int} (summer : zone.summer = some season)
    (orderly : season.Orderly zone.standard startFirst year)
    (looked : zone.offsetsAt year time = .one offset ∨
      ∃ second, zone.offsetsAt year time = .two offset second)
    (unshown : ¬season.Shows zone.standard startFirst year offset time)
    (known : next = zone.standard ∨ next = season.offset) (differs : next ≠ offset)
    (shows : season.Shows zone.standard startFirst year other shown)
    (later : time - offset ≤ shown - other) :
    offset ≤ next ∧ time - offset + next ≤ shown := by
  -- an offset that does not show the time was found at the first change, and is the smaller one
  have found := found_of_offsetsAt summer orderly looked
  have apart := orderly.apart
  simp only [Season.forall_mem_startShown, Season.forall_mem_finishShown] at apart
  unfold Season.Shows Season.During Season.starts Season.finishes at *
  cases startFirst with
  | true =>
    simp only [if_true, true_and] at *
    omega
  | false =>
    simp only [Bool.false_eq_true, if_false, true_and] at *
    omega

theorem offsetOf_of_no_summer (summer : zone.summer = none) (seconds : Int) :
    zone.offsetOf seconds = zone.standard := by
  simp only [offsetOf, summer]

/-- A time is shown at some instant if the changes of its year let one of the offsets show it. -/
theorem exists_clock_iff (summer : zone.summer = some season)
    (changes : season.Steady zone.standard year) (inside : InYear year time)
    (orderly : ∀ near, year - 2 ≤ near → near ≤ year + 2 →
      season.Orderly zone.standard startFirst near) :
    (∃ seconds, zone.clock seconds = time) ↔
      ∃ offset, season.Shows zone.standard startFirst year offset time := by
  constructor
  · rintro ⟨seconds, rfl⟩
    have known := offsetOf_cases summer seconds
    have back : zone.clock seconds - zone.offsetOf seconds = seconds := Int.add_sub_cancel ..
    exact ⟨zone.offsetOf seconds,
      (offsetOf_sub_iff summer (changes.small known) known inside orderly).1 (by rw [back])⟩
  · rintro ⟨offset, shows⟩
    have known : offset = zone.standard ∨ offset = season.offset := by
      rcases shows with ⟨same, -⟩ | ⟨same, -⟩
      · exact .inr same
      · exact .inl same
    have same := (offsetOf_sub_iff summer (changes.small known) known inside orderly).2 shows
    exact ⟨time - offset, by rw [clock, same, Int.sub_add_cancel]⟩

/-- An offset is found for the times that clocks show and for that of the first change of a year. -/
theorem exists_offsetAt?_iff (steady : zone.Steady year) (inside : InYear year time) :
    (∃ offset, zone.offsetAt? year time = some offset) ↔
      (-86400 < zone.standard ∧ zone.standard < 86400) ∧
        ((∃ seconds, zone.clock seconds = time) ∨ zone.FirstChange year time) := by
  cases summer : zone.summer with
  | none =>
    have shown : zone.clock (time - zone.standard) = time := by
      rw [clock, offsetOf_of_no_summer summer, Int.sub_add_cancel]
    simp only [offsetAt?, offsetsAt, summer, Bool.and_eq_true, decide_eq_true_eq,
      Option.ite_none_right_eq_some, Option.some.injEq, exists_and_left, exists_eq', and_true]
    exact (and_iff_left (.inl ⟨_, shown⟩)).symm
  | some season =>
    have changes := steady season summer
    obtain ⟨startFirst, orderly⟩ := changes.orderly
    rw [exists_offsetAt?_iff_ne_none (offsetsAt_all summer changes.standard_small
      changes.summer_small), Ne, offsetsAt_eq_none_iff summer (orderly year (by omega) (by omega)),
      exists_clock_iff summer changes inside orderly, and_iff_right changes.standard_small,
      not_and_or, not_forall_not, not_not]
    refine or_congr_right ⟨fun first => ⟨season, summer, first⟩, ?_⟩
    rintro ⟨_, same, first⟩
    cases summer.symm.trans same
    exact first

/-- The instant that is found for a time shows it or a later one. Where it does not show the time
itself, no instant from there on shows an earlier time than it does. -/
theorem clock_found_le {seconds : Int} (steady : zone.Steady year) (inside : InYear year time)
    (found : zone.offsetAt? year time = some offset) (shown : InYear year (zone.clock seconds))
    (later : time - offset ≤ seconds) :
    time ≤ zone.clock (time - offset) ∧
      (zone.clock (time - offset) = time ∨ zone.clock (time - offset) ≤ zone.clock seconds) := by
  by_cases same : zone.offsetOf (time - offset) = offset
  · have shows : zone.clock (time - offset) = time := by rw [clock, same, Int.sub_add_cancel]
    exact ⟨shows.ge, .inl shows⟩
  cases summer : zone.summer with
  | none =>
    simp only [offsetAt?, offsetsAt, summer, Option.ite_none_right_eq_some,
      Option.some.injEq] at found
    exact absurd ((offsetOf_of_no_summer summer _).trans found.2) same
  | some season =>
    have changes := steady season summer
    obtain ⟨startFirst, orderly⟩ := changes.orderly
    have looked := offsetsAt_of_offsetAt? found
    have ordered := orderly year (by omega) (by omega)
    have known := (found_of_offsetsAt summer ordered looked).1
    have unshown := mt (offsetOf_sub_iff summer (changes.small known) known inside orderly).2 same
    have knownShown := offsetOf_cases summer seconds
    have back : zone.clock seconds - zone.offsetOf seconds = seconds := Int.add_sub_cancel ..
    have shows :=
      (offsetOf_sub_iff summer (changes.small knownShown) knownShown shown orderly).1 (by rw [back])
    have forward := forward_of_offsetsAt summer ordered looked unshown
      (offsetOf_cases summer (time - offset)) same shows (by omega)
    unfold clock at *
    exact ⟨by omega, .inr (by omega)⟩

theorem small_of_offsetAt? (found : zone.offsetAt? year time = some offset) :
    -86400 < offset ∧ offset < 86400 := by
  unfold offsetAt? at found
  split at found
  · cases found
  · simp only [Bool.and_eq_true, decide_eq_true_eq, Option.ite_none_right_eq_some,
      Option.some.injEq] at found
    exact found.2 ▸ found.1
  · simp only [Bool.and_eq_true, decide_eq_true_eq, Option.ite_none_right_eq_some,
      Option.some.injEq] at found
    exact found.2 ▸ found.1.1

theorem offsetOf_small (steady : zone.Steady year)
    (standard : -86400 < zone.standard ∧ zone.standard < 86400) (seconds : Int) :
    -86400 < zone.offsetOf seconds ∧ zone.offsetOf seconds < 86400 := by
  cases summer : zone.summer with
  | none => rwa [offsetOf_of_no_summer summer]
  | some season => exact (steady season summer).small (offsetOf_cases summer seconds)

end Zone

/-! ### Days as bounds -/

/-- The days of years of four digits are far from the ends of the calendar. -/
theorem Date.dayNumber_range (date : Date) (years : 0 ≤ date.year ∧ date.year ≤ 9999) :
    -1000000 < date.dayNumber ∧ date.dayNumber < 4000000 := by
  obtain ⟨month, day⟩ := date.ranges
  simp only [Date.dayNumber, Time.dayNumber]
  split_ifs <;> omega

namespace Bound

variable {zone : Zone} {date : Date} {bound : Bound}

theorem isDay_written (date : Date) (years : 0 ≤ date.year ∧ date.year ≤ 9999) :
    IsDay (String.ofList date.written) date := by
  obtain ⟨form, shown, same⟩ := date.exists_form years
  rw [IsDay, String.toList_ofList, date.trim_written]
  refine ⟨?_, readDate?_written date years⟩
  rw [← Option.not_isSome_iff_eq_none, Strict.isSome_readInstant?_iff]
  rintro ⟨time, text⟩
  exact form.colon_notMem (shown ▸ text ▸ time.colon_mem)

theorem exists_read_written_iff (bound : Bound) (years : 0 ≤ date.year ∧ date.year ≤ 9999) :
    (∃ instant, Bound.read zone bound (String.ofList date.written) = .ok instant) ↔
      ∃ offset, zone.offsetAt? date.year (bound.timeOf date) = some offset := by
  have day := isDay_written date years
  constructor
  · rintro ⟨instant, read⟩
    obtain ⟨offset, found, -⟩ := parts_of_read day read
    exact ⟨offset, found⟩
  · rintro ⟨offset, found⟩
    have small := Zone.small_of_offsetAt? found
    have days := date.dayNumber_range years
    have second : 0 ≤ bound.secondOfDay ∧ bound.secondOfDay ≤ 86399 := by cases bound <;> decide
    have range : leastSeconds ≤ bound.timeOf date - offset ∧
        bound.timeOf date - offset ≤ greatestSeconds := by
      simp only [leastSeconds, greatestSeconds, timeOf]
      omega
    obtain ⟨instant, made, -⟩ := exists_ofDate? found range
    refine ⟨instant, ?_⟩
    simp only [Bound.read, readTrimmed?, day.1, day.2, Option.bind_some, made]

/-- A lower bound is not after any instant of its day unless clocks show the first second of the day
before it. -/
theorem lower_le_of_dateAt {lower instant : Instant} (steady : zone.Steady date.year)
    (years : 0 ≤ date.year ∧ date.year ≤ 9999)
    (read : Bound.read zone .lower (String.ofList date.written) = .ok lower)
    (none : ∀ seconds < lower.seconds, zone.clock seconds ≠ Bound.lower.timeOf date)
    (shown : zone.dateAt instant = (date.year, date.month, date.day)) : lower ≤ instant := by
  obtain ⟨offset, found, seconds, nanos⟩ := parts_of_read (isDay_written date years) read
  have number := Zone.dateAt_eq_iff.1 shown
  have midnight : Bound.lower.timeOf date ≤ zone.clock instant.seconds := by
    rw [timeOf_lower]
    omega
  have notBefore : ¬instant.seconds < lower.seconds := by
    intro early
    have again := (Zone.offsetAt?_spec steady (inYear_timeOf .lower date) found
      (date.inYear number)).2 midnight (seconds ▸ early)
    refine none _ ?_ again
    unfold Zone.clock at midnight
    omega
  have least : lower.nanos = 0 := nanos
  rw [Instant.le_iff]
  omega

/-- A lower bound is an instant of its day if that day has instants from the bound on. -/
theorem dateAt_lower {lower instant : Instant} (steady : zone.Steady date.year)
    (years : 0 ≤ date.year ∧ date.year ≤ 9999)
    (read : Bound.read zone .lower (String.ofList date.written) = .ok lower)
    (shown : zone.dateAt instant = (date.year, date.month, date.day)) (after : lower ≤ instant) :
    zone.dateAt lower = (date.year, date.month, date.day) := by
  obtain ⟨offset, found, seconds, -⟩ := parts_of_read (isDay_written date years) read
  have number := Zone.dateAt_eq_iff.1 shown
  have later : lower.seconds ≤ instant.seconds := by
    rw [Instant.le_iff] at after
    omega
  have between := Zone.clock_found_le steady (inYear_timeOf .lower date) found
    (date.inYear number) (seconds ▸ later)
  rw [← seconds, timeOf_lower] at between
  rw [Zone.dateAt_eq_iff]
  omega

/-- An instant before a lower bound that shows the first second of the day is of that day. -/
theorem exists_dateAt_before {lower : Instant} {seconds : Int} (steady : zone.Steady date.year)
    (standard : -86400 < zone.standard ∧ zone.standard < 86400)
    (years : 0 ≤ date.year ∧ date.year ≤ 9999) (early : seconds < lower.seconds)
    (shows : zone.clock seconds = Bound.lower.timeOf date) :
    ∃ instant, zone.dateAt instant = (date.year, date.month, date.day) ∧ instant < lower := by
  have small := Zone.offsetOf_small steady standard seconds
  have days := date.dayNumber_range years
  have most := lower.seconds_range.2
  rw [timeOf_lower] at shows
  have range : leastSeconds ≤ seconds ∧ seconds ≤ greatestSeconds := by
    unfold Zone.clock at shows
    simp only [leastSeconds]
    omega
  refine ⟨⟨seconds, 0, range, .inl (by decide)⟩, Zone.dateAt_eq_iff.2 ?_, ?_⟩
  · change zone.clock seconds / 86400 = _
    omega
  · rw [← Instant.before_iff, Instant.before, Bool.or_eq_true]
    exact .inl (decide_eq_true early)

/-- A written day, in a zone that sets its clocks well within each year, is accepted as a bound
exactly if clocks show the second that it stands for or are set at it as the first change of that
year. As a lower bound it is then the earliest instant of the day, if the day has instants at all,
unless clocks show its first second before that instant too. -/
theorem day_accepted_iff_shown (steady : zone.Steady date.year)
    (years : 0 ≤ date.year ∧ date.year ≤ 9999) :
    (∀ bound, (∃ instant, Bound.read zone bound (String.ofList date.written) = .ok instant) ↔
      (-86400 < zone.standard ∧ zone.standard < 86400) ∧
        ((∃ seconds, zone.clock seconds = bound.timeOf date) ∨
          zone.FirstChange date.year (bound.timeOf date))) ∧
    ∀ lower, Bound.read zone .lower (String.ofList date.written) = .ok lower →
      (IsLeast {instant | zone.dateAt instant = (date.year, date.month, date.day)} lower ↔
        (∃ instant, zone.dateAt instant = (date.year, date.month, date.day)) ∧
          ∀ seconds < lower.seconds, zone.clock seconds ≠ Bound.lower.timeOf date) := by
  have accepted (bound : Bound) := (exists_read_written_iff bound years).trans
    (Zone.exists_offsetAt?_iff steady (inYear_timeOf bound date))
  refine ⟨accepted, fun lower read => ⟨?_, ?_⟩⟩
  · -- an earlier pass of the first second would be an instant of the day before the least one
    rintro ⟨own, least⟩
    refine ⟨⟨lower, own⟩, fun seconds early shows => ?_⟩
    have standard := ((accepted .lower).1 ⟨lower, read⟩).1
    obtain ⟨instant, shown, before⟩ := exists_dateAt_before steady standard years early shows
    exact absurd (least shown) (not_le_of_gt before)
  · rintro ⟨⟨instant, shown⟩, none⟩
    have least {other : Instant} (shown : zone.dateAt other = (date.year, date.month, date.day)) :=
      lower_le_of_dateAt steady years read none shown
    exact ⟨dateAt_lower steady years read shown (least shown), fun other => least⟩

/-- A zone of the south in which clocks are set forward at midnight in November. -/
def southernRule : String := "AAA3BBB,M11.1.0/0,M2.3.0/0"

/-- 2024-11-03, a day without its first hour. -/
def shortDay : Date := ⟨2024, 11, 3, rfl⟩

theorem steady_southernRule : (Zone.ofRule southernRule).Steady 2024 := by
  have read : Zone.ofRule southernRule =
      ⟨-10800, some ⟨-7200, ⟨.weekday 11 1 0, 0⟩, ⟨.weekday 2 3 0, 0⟩⟩⟩ := by
    decide +kernel
  rw [read]
  intro season summer
  cases summer
  refine ⟨by decide, by decide, false, fun near low high => ?_⟩
  interval_cases near
  all_goals exact ⟨by decide, by decide, by decide⟩

/-- The first second of the day without its first hour is never shown. -/
theorem day_accepted_iff_shown_sample :
    let zone := Zone.ofRule southernRule
    zone.Steady shortDay.year ∧ (0 ≤ shortDay.year ∧ shortDay.year ≤ 9999) ∧
      Bound.read zone .lower (String.ofList shortDay.written) = .error "2024-11-03" ∧
      ¬∃ seconds, zone.clock seconds = Bound.lower.timeOf shortDay := by
  intro zone
  have years : 0 ≤ shortDay.year ∧ shortDay.year ≤ 9999 := by decide
  have read : Bound.read zone .lower (String.ofList shortDay.written) = .error "2024-11-03" := by
    decide
  refine ⟨steady_southernRule, years, read, fun shown => ?_⟩
  obtain ⟨instant, accepted⟩ := ((day_accepted_iff_shown steady_southernRule years).1 .lower).2
    ⟨by decide, .inl shown⟩
  exact nomatch read.symm.trans accepted

/-- Not each day is accepted, nor is each lower bound the earliest instant of its day. -/
theorem day_refused_without_midnight :
    ¬∀ (rule : String) (date : Date) (bound : Bound), 1 ≤ date.year → date.year ≤ 9998 →
      ∃ instant, Bound.read (Zone.ofRule rule) bound (String.ofList date.written) = .ok instant ∧
        (bound = .lower → IsLeast {instant | (Zone.ofRule rule).dateAt instant =
          (date.year, date.month, date.day)} instant) := by
  intro accepted
  obtain ⟨instant, read, -⟩ := accepted southernRule shortDay .lower (by decide) (by decide)
  have refused : Bound.read (Zone.ofRule southernRule) .lower (String.ofList shortDay.written) =
      .error "2024-11-03" := by decide
  exact nomatch refused.symm.trans read

end Bound

end LogCensus.Time
