import LogCensus.Digest
import LogCensus.Proofs.Decimal.Power
import Mathlib.Data.List.Basic

/-!
The lines of the report for readers as they are seen, in columns that blanks fill up. A bar fits in
a text where no count is greater than the number of entries.
-/

namespace LogCensus

open Binary64

/-! ### Percentages -/

/-- A share of a whole is near 100 percent at most. -/
theorem under_percent {part whole : Nat} (some : 0 < whole) (small : whole < 2 ^ 64)
    (le : part ≤ whole) : (ofNat 100 * ofNat part / ofNat whole).Under 11 := by
  obtain ⟨power, least, width, reached, whole_lt⟩ : ∃ power : Int, 0 ≤ power ∧ power < 64 ∧
      (2 : ℚ) ^ power ≤ whole ∧ (whole : ℚ) < 2 ^ (power + 1) := by
    have width : whole.log2 < 64 := (Nat.log2_lt some.ne').2 small
    exact ⟨whole.log2, by omega, by omega, log2_bounds some⟩
  have cast : (part : ℚ) ≤ whole := by exact_mod_cast le
  have part_lt := cast.trans_lt whole_lt
  obtain ⟨total, shows_total, total_ge⟩ :=
    exists_shows_ofNat (by omega) (by omega) whole_lt (by omega) reached
  obtain ⟨counted, shows_counted, counted_lt⟩ := under_ofNat (by omega) (by omega) part_lt
  have hundred : Shows (ofNat 100) ((100 : Nat) : ℚ) :=
    shows_ofNat (representable_natCast (by decide))
  have unit : (0 : ℚ) < 2 ^ power := by positivity
  have product_lt : |((100 : Nat) : ℚ) * counted| < 2 ^ (power + 9) := by
    rw [show power + 1 + 1 = power + 2 by ring, zpow_add₀ two_ne_zero] at counted_lt
    rw [abs_mul, zpow_add₀ two_ne_zero]
    norm_num at counted_lt ⊢
    linarith
  obtain ⟨product, shows_product, product_lt⟩ :=
    under_mul (by omega) (by omega) hundred shows_counted product_lt
  have total_pos : 0 < total := unit.trans_le total_ge
  change (ofNat 100 * ofNat part / ofNat whole).Under (10 + 1)
  apply under_div (by decide) (by decide) shows_product shows_total total_pos.ne'
  rw [abs_div, abs_of_pos total_pos, div_lt_iff₀ total_pos]
  calc |product| < 2 ^ (power + 9 + 1) := product_lt
    _ = 2 ^ (10 : Int) * 2 ^ power := by
      rw [← zpow_add₀ two_ne_zero]
      congr 1
      ring
    _ ≤ 2 ^ (10 : Int) * total := by gcongr

theorem Summary.under_percentage {summary : Summary} {count : UInt64}
    (part : count ≤ summary.entries) : (summary.percentage count).Under 11 := by
  unfold percentage
  split_ifs with none
  · exact under_zeroOf false 11
  · have some : summary.entries.toNat ≠ 0 := fun zero => none (UInt64.toNat.inj zero)
    exact under_percent (Nat.pos_of_ne_zero some) summary.entries.toNat_lt
      (UInt64.le_iff_toNat_le.1 part)

namespace Digest

/-! ### Lines -/

def blanks (count : Nat) : String := String.ofList (List.replicate count ' ')

def cellsOf (count : Nat) (cell : Char) : String := String.ofList (List.replicate count cell)

/-- The full cells of a bar of 20, a half cell counted as one. -/
def filledCells (percentage : Binary64) : Nat :=
  ((percentage / ofNat 100 * ofNat 20).roundHalfAway.saturated 0 0xFFFFFFFFFFFFFFFF).toNat

def barText (percentage : Binary64) : String :=
  "[" ++ cellsOf (filledCells percentage) '█' ++ cellsOf (20 - filledCells percentage) '░' ++ "]"

def countLine (name : String) (count : UInt64) (percentage : Binary64) : String :=
  let number := Text.ofNat count.toNat
  let share := percentage.fixed 1
  "   " ++ name ++ blanks (10 - name.length)
    ++ " " ++ blanks (10 - number.length) ++ number
    ++ " " ++ blanks (6 - share.length) ++ share
    ++ "% " ++ barText percentage

def shownPath (path : Path) : String :=
  let text := path.display
  if text.toList.length ≤ 40 then text
  else "…" ++ String.ofList (text.toList.drop (text.toList.length.toUInt64 - 39).toNat)

def fileLine (tally : Tally) : String :=
  let path := shownPath tally.path
  let entries := Text.ofNat tally.entries.toNat
  let errors := Text.ofNat tally.errors.toNat
  let unreadable := Text.ofNat tally.unreadable.toNat
  let bytes := size tally.bytesRead
  "   " ++ path ++ blanks (40 - path.length)
    ++ " " ++ tally.format ++ blanks (6 - tally.format.length)
    ++ " " ++ blanks (8 - entries.length) ++ entries
    ++ " entries " ++ blanks (6 - errors.length) ++ errors
    ++ " errors " ++ blanks (6 - unreadable.length) ++ unreadable
    ++ " unparsed " ++ blanks (10 - bytes.length) ++ bytes

def spanLine? (range : DateRange) : Option String := do
  return " Time span: " ++ (← range.earliest).plainText ++ " .. " ++ (← range.latest).plainText

def filterLine? (range : DateRange) : Option String :=
  if range.lower = none ∧ range.upper = none then none
  else some (" Filter: " ++ range.lower.elim "*" Time.Instant.offsetText ++ " .. "
    ++ range.upper.elim "*" Time.Instant.offsetText)

def headLines (report : Report) : List String :=
  let summary := report.summary
  let line := cellsOf 70 '─'
  "" :: line :: " Log Analysis Report" :: line
    :: (" " ++ Text.ofNat summary.files.toNat ++ " files analyzed, "
      ++ Text.ofNat report.failures.length ++ " failed, " ++ size report.totalBytes ++ " read")
    :: (" " ++ Text.ofNat summary.entries.toNat ++ " entries, "
      ++ Text.ofNat summary.errors.toNat ++ " errors ("
      ++ (summary.percentage summary.errors).fixed 1 ++ "%), "
      ++ Text.ofNat summary.unreadable.toNat ++ " parse errors")
    :: (" Finished in " ++ report.elapsed.inSeconds.fixed 2 ++ "s ("
      ++ summary.throughput.fixed 0 ++ " entries/s)")
    :: ((spanLine? report.range).toList ++ (filterLine? report.range).toList ++ [line])

def titled (title : String) : List String → List String
  | [] => []
  | row :: rows => "" :: title :: row :: rows

/-- The lines with these counts and files, in the order given. -/
def linesOf (report : Report) (levels : List (Level × UInt64)) (kinds : List (String × UInt64))
    (files : List Tally) : List String :=
  let percentage := report.summary.percentage
  headLines report
    ++ titled " Levels:" (levels.map fun (level, count) =>
      countLine level.name count (percentage count))
    ++ titled " Types:" (kinds.map fun (kind, count) => countLine kind count (percentage count))
    ++ titled " Files:" (files.map fileLine)
    ++ titled " Failed files:" (report.failures.map fun failure => "   " ++ failure.display)
    ++ [""]

theorem titled_eq (title : String) (rows : List String) :
    block title rows = titled (" " ++ title ++ ":") rows := by
  cases rows <;> rfl

theorem spanLines_eq (range : DateRange) : spanLines range = (spanLine? range).toList := by
  unfold spanLines spanLine?
  cases range.earliest with
  | none => rfl
  | some earliest => cases range.latest <;> rfl

theorem filterLines_eq (range : DateRange) : filterLines range = (filterLine? range).toList := by
  unfold filterLines filterLine?
  cases range.lower <;> cases range.upper <;> rfl

theorem heading_eq (report : Report) : heading report = headLines report := by
  unfold heading
  rw [spanLines_eq, filterLines_eq]
  rfl

theorem keepTail_eq (path : Path) : Text.keepTail path.display 40 = shownPath path := by
  have front (tail : List Char) : String.ofList ('…' :: tail) = "…" ++ String.ofList tail :=
    @String.ofList_append ['…'] tail
  simp only [Text.keepTail, shownPath, front]
  rfl

theorem fileRow_eq (tally : Tally) : fileRow tally = fileLine tally := by
  unfold fileRow fileLine
  rw [keepTail_eq]
  simp only [Text.alignLeft, Text.alignRight, countText, blanks, String.append_assoc]

/-! ### Bars -/

/-- A text can hold the bar of a count: a cell has three octets, and a text less than `2 ^ 63`. -/
def HasBar (summary : Summary) (count : UInt64) : Prop :=
  3 * filledCells (summary.percentage count) < 2 ^ 63

theorem filledCells_le {percentage : Binary64} (under : percentage.Under 11) :
    filledCells percentage ≤ 2 ^ 20 := by
  obtain ⟨value, shows, value_lt⟩ := under
  have hundred : Shows (ofNat 100) ((100 : Nat) : ℚ) :=
    shows_ofNat (representable_natCast (by decide))
  have twenty : Shows (ofNat 20) ((20 : Nat) : ℚ) :=
    shows_ofNat (representable_natCast (by decide))
  have quotient_lt : |value / ((100 : Nat) : ℚ)| < 2 ^ (11 : Int) := by
    rw [abs_div]
    norm_num at value_lt ⊢
    linarith
  obtain ⟨share, shows_share, share_lt⟩ :=
    under_div (by decide) (by decide) shows hundred (by norm_num) quotient_lt
  have product_lt : |share * ((20 : Nat) : ℚ)| < 2 ^ (17 : Int) := by
    rw [abs_mul]
    norm_num at share_lt ⊢
    linarith
  have cells := (under_mul (by decide) (by decide) shows_share twenty product_lt).roundHalfAway
    (by decide) (by decide)
  have filled : (percentage / ofNat 100 * ofNat 20).roundHalfAway.saturated 0 0xFFFFFFFFFFFFFFFF ≤
      2 ^ 20 := cells.saturated_le _
  unfold filledCells
  omega

theorem hasBar_of_le {summary : Summary} {count : UInt64} (part : count ≤ summary.entries) :
    HasBar summary count := by
  have few := filledCells_le (Summary.under_percentage part)
  unfold HasBar
  omega

theorem bar?_eq_some_iff {percentage : Binary64} {bar : String} :
    bar? (percentage / ofNat 100) 20 = some bar ↔
      3 * filledCells percentage < 2 ^ 63 ∧ bar = barText percentage := by
  have rest : 20 - filledCells percentage ≤ mostCells :=
    (Nat.sub_le _ _).trans (by decide)
  have cells : filledCells percentage ≤ mostCells ↔ 3 * filledCells percentage < 2 ^ 63 := by
    unfold mostCells
    omega
  change (do
    return "[" ++ (← cells? (filledCells percentage) '█')
      ++ (← cells? (20 - filledCells percentage) '░') ++ "]") = some bar ↔ _
  unfold cells?
  rw [if_pos rest, ← cells]
  split_ifs with fits
  · rw [and_iff_right fits]
    exact Option.some_inj.trans eq_comm
  · exact iff_of_false nofun fun both => fits both.1

/-- There is a row for a count if and only if a text can hold the bar in it. -/
theorem shareRow?_eq_some_iff {name row : String} {summary : Summary} {count : UInt64} :
    shareRow? name count (summary.percentage count) = some row ↔
      HasBar summary count ∧ row = countLine name count (summary.percentage count) := by
  have line : countLine name count (summary.percentage count) =
      "   " ++ Text.alignLeft 10 name ++ " " ++ Text.alignRight 10 (countText count) ++ " "
        ++ Text.alignRight 6 ((summary.percentage count).fixed 1) ++ "% "
        ++ barText (summary.percentage count) := by
    unfold countLine
    simp only [Text.alignLeft, Text.alignRight, countText, blanks, String.append_assoc]
  rw [shareRow?, Option.map_eq_some_iff, line]
  constructor
  · rintro ⟨bar, shown, rfl⟩
    obtain ⟨fits, rfl⟩ := bar?_eq_some_iff.1 shown
    exact ⟨fits, rfl⟩
  · rintro ⟨fits, rfl⟩
    exact ⟨_, bar?_eq_some_iff.2 ⟨fits, rfl⟩, rfl⟩

end Digest

end LogCensus
