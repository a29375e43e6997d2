import LogCensus.Proofs.Failure.TextForm
import LogCensus.Proofs.Json.Records
import LogCensus.Report
import Mathlib.Data.Nat.Find

/-!
Which texts are those of failures. A mark is a stage between two separators; a text is that of a
failure exactly if a mark stands in it, and the first mark, wherever its text starts, parts the path
from the cause. The failure shows the text that it was read from, so the error lines of a report are
the same when it is written again.
-/

namespace LogCensus.Failure

variable {text path cause : List Char} {stage : Stage}

/-! ### The first mark -/

/-- A mark that starts in a path ends with the separator behind the path at the latest: the one
colon in it that does not start it starts its last separator. -/
theorem mark_infix_of_start {other : Stage} {front rest behind : List Char}
    (same : path ++ separator ++ rest = front ++ other.mark ++ behind)
    (inside : front.length < path.length) : other.mark <:+: path ++ separator := by
  have whole : front ++ other.mark <+: path ++ separator ++ rest := ⟨behind, same.symm⟩
  rcases Nat.lt_or_ge (path ++ separator).length (front ++ other.mark).length with longer | fits
  · exfalso
    have within : path ++ separator <+: front ++ other.mark :=
      List.prefix_of_prefix_length_le ⟨rest, rfl⟩ whole longer.le
    obtain ⟨tail, rfl⟩ : front <+: path :=
      List.prefix_of_prefix_length_le ⟨other.mark, rfl⟩
        ((List.prefix_append path separator).trans within) inside.le
    rw [List.append_assoc, List.prefix_append_right_inj] at within
    cases tail with
    | nil => simp at inside
    | cons c tail =>
      have marked : other.mark = ':' :: (' ' :: other.name.toList ++ separator) := rfl
      rw [marked, List.cons_append] at within
      obtain ⟨-, within⟩ := List.cons_prefix_cons.1 within
      -- the colon behind the path stands in front of the last separator of the mark
      have early : tail ++ [':'] <+: ' ' :: other.name.toList := by
        apply List.prefix_of_prefix_length_le _ (List.prefix_append _ separator)
        · simp only [marked, separator, List.length_append, List.length_cons, List.length_nil]
            at longer ⊢
          omega
        · exact List.IsPrefix.trans ⟨[' '], by simp [separator]⟩ within
      have colon : ':' ∈ ' ' :: other.name.toList := early.subset (by simp)
      exact (List.mem_cons.1 colon).elim (by decide) other.colon_notMem_name
  · obtain ⟨left, split⟩ := List.prefix_of_prefix_length_le whole ⟨rest, rfl⟩ fits
    exact ⟨front, left, split⟩

theorem length_mark (stage : Stage) : separator.length < stage.mark.length := by
  cases stage <;> decide

/-- No mark stands in a path and the separator behind it exactly if the mark behind the path is the
first one of the whole text. -/
theorem unmarked_iff_first (split : text = path ++ stage.mark ++ cause) :
    (∀ other : Stage, ¬ other.mark <:+: path ++ separator) ↔
      ∀ (other : Stage) (front behind : List Char), text = front ++ other.mark ++ behind →
        path.length ≤ front.length := by
  have started : text = path ++ separator ++ (stage.name.toList ++ separator ++ cause) := by
    simp [split, Stage.mark]
  constructor
  · intro unmarked other front behind shown
    by_contra inside
    exact unmarked other (mark_infix_of_start (started ▸ shown) (not_le.1 inside))
  · rintro first other ⟨front, left, within⟩
    have late := first other front (left ++ (stage.name.toList ++ separator ++ cause)) (by
      rw [started, ← within]
      simp)
    have longer := length_mark other
    have lengths := congrArg List.length within
    simp only [List.length_append] at lengths
    omega

theorem exists_first_mark (marked : ∃ stage : Stage, stage.mark <:+: text) :
    ∃ (path : List Char) (stage : Stage) (cause : List Char), text = path ++ stage.mark ++ cause ∧
      ∀ (other : Stage) (front behind : List Char), text = front ++ other.mark ++ behind →
        path.length ≤ front.length := by
  classical
  have some : ∃ length, ∃ (path : List Char) (stage : Stage) (cause : List Char),
      text = path ++ stage.mark ++ cause ∧ path.length = length := by
    obtain ⟨stage, path, cause, split⟩ := marked
    exact ⟨_, path, stage, cause, split.symm, rfl⟩
  obtain ⟨path, stage, cause, split, least⟩ := Nat.find_spec some
  refine ⟨path, stage, cause, split, fun other front behind shown => ?_⟩
  rw [least]
  exact Nat.find_min' some ⟨front, other, behind, shown, rfl⟩

/-! ### Reading -/

/-- A text is read as a failure exactly if its first mark parts it into path, stage and cause. -/
theorem ofText_eq_ok_iff {text : String} {failure : Failure} :
    ofText text = .ok failure ↔ ∃ path : List Char,
      failure.path = .ofString (String.ofList path) ∧
      text.toList = path ++ failure.stage.mark ++ failure.cause.toList ∧
      ∀ (other : Stage) (front behind : List Char), text.toList = front ++ other.mark ++ behind →
        path.length ≤ front.length := by
  constructor
  · intro read
    obtain ⟨path, located, split, unmarked⟩ := ofText_sound read
    exact ⟨path, located, split, (unmarked_iff_first split).1 unmarked⟩
  · rintro ⟨path, located, split, first⟩
    have unmarked := (unmarked_iff_first split).2 first
    rw [ofText, split, partsFrom?_mark [] unmarked]
    simp only [List.reverse_nil, List.nil_append, String.ofList_toList, ← located]

theorem display_of_ofText {text : String} {failure : Failure} (read : ofText text = .ok failure) :
    failure.display = text := by
  obtain ⟨path, located, split, -⟩ := ofText_sound read
  rw [← String.toList_inj, display_toList, located, Path.display_ofString, String.toList_ofList,
    split]

theorem readText_of_read {origin : Json.Origin} {node : Json.Node} {failure : Failure}
    (taken : read origin node = .ok failure) :
    Json.readText origin node = .ok failure.display := by
  unfold read Json.readTextThen at taken
  split at taken
  next => cases taken
  next text shown =>
    cases made : ofText text with
    | error message =>
      rw [made] at taken
      cases taken
    | ok other =>
      rw [made] at taken
      cases taken
      rw [shown, display_of_ofText made]

end Failure

/-! ### Error lines -/

namespace Report

open Json (Items Node Origin readItems readList readText)

def errorLines? (node : Node) : Option Node := node.memberAt? "errors" 5

theorem readItems_display {origin : Origin} {items : Items} {failures : List Failure}
    (read : readItems (Failure.read origin) items = .ok failures) :
    readItems (readText origin) items = .ok (failures.map Failure.display) := by
  fun_induction readItems (Failure.read origin) items generalizing failures with
  | case1 =>
    cases read
    rfl
  | case3 start value mark rest failure taken ih =>
    cases later : readItems (Failure.read origin) rest with
    | error issue =>
      rw [later] at read
      cases read
    | ok others =>
      rw [later] at read
      cases read
      simp only [readItems, Failure.readText_of_read taken, ih later]
      rfl
  | case2 => cases read
  | case4 => cases read

/-- The error lines of a report that is read are the texts which its failures show. -/
theorem readList_errorLines {origin : Origin} {node : Node} {report : Report}
    (read : Report.read origin node = .ok report) :
    ∃ lines, errorLines? node = some lines ∧
      readList readText origin lines = .ok report.failureTexts := by
  let errors := Json.member "errors" .required (readList Failure.read)
    fun (report : Report) value => { report with failures := value }
  have others : ∀ other ∈ record.members, other.name ≠ errors.name →
      Json.Record.Spares Report.failures other := by
    simp only [record, List.forall_mem_cons]
    refine ⟨fun _ => ?_, fun _ => ?_, fun _ => ?_, fun _ => ?_, fun _ => ?_, absurd rfl,
      fun _ => ?_, by simp⟩
    all_goals exact Json.Record.spares_member fun _ _ => rfl
  have listed : record.members = record.members.take 5 ++ errors :: record.members.drop 6 := rfl
  obtain ⟨record, lines, finished, found, before, after, stored, same⟩ :=
    Json.Record.stems_of_read listed rfl others (by decide) read
  cases finished
  refine ⟨lines, found, ?_⟩
  change (readList Failure.read origin lines).map _ = _ at stored
  unfold readList at stored ⊢
  split at stored
  next items =>
    cases taken : readItems (Failure.read origin) items <;> rw [taken] at stored <;> cases stored
    rw [failureTexts, same]
    exact readItems_display taken
  next => cases stored

end Report

namespace Failure

open Json (Origin readList readText readWhole)

/-- A text is that of a failure exactly if a stage stands in it between two separators, and any other
text is refused as it is. The first such mark parts the failure: its path is the text in front of the
mark, the stage is the one in the mark, the cause is all that follows, and the failure shows the text
that it was read from. So the lines of errors in the text of a report, be it an object or an array,
are what the failures of the report show, and what is written for them when the report is written
again. -/
theorem read_at_first_mark (text : String) :
    ((∃ failure, ofText text = .ok failure) ↔ ∃ stage : Stage, stage.mark <:+: text.toList) ∧
    ((∀ stage : Stage, ¬ stage.mark <:+: text.toList) →
      ofText text = .error (notAFailure text)) ∧
    (∀ failure, ofText text = .ok failure ↔ ∃ path : List Char,
      failure.path = .ofString (String.ofList path) ∧
      text.toList = path ++ failure.stage.mark ++ failure.cause.toList ∧
      ∀ (other : Stage) (front behind : List Char), text.toList = front ++ other.mark ++ behind →
        path.length ≤ front.length) ∧
    (∀ failure, ofText text = .ok failure → failure.display = text) ∧
    ∀ report, readWhole Report.read text = .ok report →
      ∃ lines members, Report.errorLines? (Json.Node.ofText text.toList).1 = some lines ∧
        readList readText .text lines = .ok report.failureTexts ∧
        report.toJson = .object members ∧
        members.lookup "errors" = some (.array (report.failureTexts.map .string)) := by
  have marked : (∃ failure, ofText text = .ok failure) ↔
      ∃ stage : Stage, stage.mark <:+: text.toList := by
    constructor
    · rintro ⟨failure, read⟩
      obtain ⟨path, -, split, -⟩ := ofText_sound read
      exact ⟨failure.stage, path, failure.cause.toList, split.symm⟩
    · intro some
      obtain ⟨path, stage, cause, split, first⟩ := exists_first_mark some
      refine ⟨⟨.ofString (String.ofList path), stage, String.ofList cause⟩, ?_⟩
      exact ofText_eq_ok_iff.2 ⟨path, rfl, by simpa using split, first⟩
  refine ⟨marked, fun none => ?_, fun failure => ofText_eq_ok_iff,
    fun failure => display_of_ofText, fun report read => ?_⟩
  · cases read : ofText text with
    | ok failure =>
      obtain ⟨stage, inside⟩ := marked.1 ⟨failure, read⟩
      exact absurd inside (none stage)
    | error message =>
      unfold ofText at read
      split at read <;> cases read
      rfl
  · have taken : Report.read .text (Json.Node.ofText text.toList).1 = .ok report := by
      unfold readWhole at read
      dsimp only at read
      split at read <;> cases read
      assumption
    obtain ⟨lines, found, shown⟩ := Report.readList_errorLines taken
    refine ⟨lines, _, found, shown, rfl, ?_⟩
    rw [Report.failureTexts, List.map_map]
    rfl

theorem read_at_first_mark_sample :
    (∃ failure, ofText "a: : open: read: b" = .ok failure ∧
      failure.display = "a: : open: read: b") ∧
      ofText "a: opened: b" = .error (notAFailure "a: opened: b") := by
  obtain ⟨marked, -, -, shows, -⟩ := read_at_first_mark "a: : open: read: b"
  obtain ⟨-, refused, -⟩ := read_at_first_mark "a: opened: b"
  obtain ⟨failure, read⟩ := marked.2 ⟨.open, by decide⟩
  exact ⟨⟨failure, read, shows failure read⟩, refused fun stage => by cases stage <;> decide⟩

end Failure

end LogCensus
