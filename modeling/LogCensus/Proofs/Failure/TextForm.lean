import LogCensus.Proofs.Failure
import LogCensus.Proofs.Json.Forms

/-!
Which failures read back from their text form. The reader takes the first stage that stands between
two separators, so a failure reads back if and only if none stands there before its path is over.
The JSON form of a failure is its text form, and reads back exactly where that does.
-/

namespace LogCensus

/-! ### Texts in JSON -/

namespace Json

/-- A value made of a text reads as what the text is converted to, and as nothing else. -/
theorem readWhole_textThen {α : Type} (convert : String → Except String α) (text : String)
    (value : α) :
    readWhole (readTextThen convert) (String.ofList (quotedText text)) = .ok value ↔
      convert text = .ok value := by
  obtain ⟨node, means, tree⟩ := (valueText_string text).ofText gap_nil
  rw [List.append_nil] at tree
  have read : readText .text node = .ok text := (readsAs_text text).read .text means
  simp only [readWhole, String.toList_ofList, tree, readTextThen, read]
  cases convert text <;> simp

theorem text?_string (style : Style) (text : String) :
    (Json.string text).text? style = some (String.ofList (quotedText text)) := by
  have writes : textOfPieces? (quotedPieces text) = some (quotedText text) :=
    writes_quotedPieces text
  rw [text?, pieces, writes, Option.map_some]

end Json

/-! ### Where a path ends -/

namespace Failure

theorem mark_not_infix_separator (stage : Stage) : ¬ stage.mark <:+: separator := by
  cases stage <;> decide

/-- What a text has in front of a stage is no path if a stage between separators stands in it. -/
theorem not_mark_prefix_of_later {text behind : List Char} (later : tailOf behind = .later)
    (passed : Text.dropPrefix? separator text = some behind) (stage : Stage) :
    ¬ stage.mark <+: text := by
  rintro ⟨rest, rfl⟩
  have found : Text.dropPrefix? separator (stage.mark ++ rest) =
      some (stage.name.toList ++ separator ++ rest) := by
    rw [Stage.mark, List.append_assoc, List.append_assoc, ← List.append_assoc _ separator rest]
    exact Text.dropPrefix?_append separator _
  rw [found, Option.some.injEq] at passed
  rw [← passed, tailOf_name] at later
  cases later

theorem not_mark_prefix_of_none {text : List Char}
    (passed : Text.dropPrefix? separator text = none) (stage : Stage) : ¬ stage.mark <+: text := by
  rintro ⟨rest, rfl⟩
  rw [Stage.mark, List.append_assoc, List.append_assoc, Text.dropPrefix?_append] at passed
  cases passed

/-- The parts found are those of the text, and the path found ends at the first stage that stands
between two separators. -/
theorem partsFrom?_sound {front text path : List Char} {stage : Stage} {cause : List Char}
    (found : partsFrom? front text = some (path, stage, cause)) :
    ∃ behind, path = front.reverse ++ behind ∧ text = behind ++ stage.mark ++ cause ∧
      ∀ other : Stage, ¬ other.mark <:+: behind ++ separator := by
  have goOn {front rest : List Char} {c : Char}
      (found : ∃ behind, path = (c :: front).reverse ++ behind ∧
        rest = behind ++ stage.mark ++ cause ∧
        ∀ other : Stage, ¬ other.mark <:+: behind ++ separator)
      (unmarked : ∀ other : Stage, ¬ other.mark <+: c :: rest) :
      ∃ behind, path = front.reverse ++ behind ∧ c :: rest = behind ++ stage.mark ++ cause ∧
        ∀ other : Stage, ¬ other.mark <:+: behind ++ separator := by
    obtain ⟨behind, rfl, rfl, none⟩ := found
    refine ⟨c :: behind, by simp, by simp, fun other inside => ?_⟩
    rcases List.infix_cons_iff.1 inside with here | later
    · have longer : c :: (behind ++ separator) <+: c :: (behind ++ stage.mark ++ cause) :=
        ⟨stage.name.toList ++ separator ++ cause, by simp [Stage.mark]⟩
      exact unmarked other (here.trans longer)
    · exact none other later
  fun_induction partsFrom? front text with
  | case1 front => cases found
  | case2 front c rest behind passed place remainder tail =>
    cases found
    refine ⟨[], (List.append_nil _).symm, ?_, fun other => mark_not_infix_separator other⟩
    rw [Text.eq_append_of_dropPrefix? passed]
    unfold tailOf at tail
    split at tail
    next name cause cut =>
      split at tail
      next known =>
        cases tail
        rw [Text.eq_append_of_cut? cut, Stage.mark, Stage.name_of_ofName? known]
        simp
      next => cases tail
    next => cases tail
  | case3 front c rest behind passed later ih =>
    exact goOn (ih found) (not_mark_prefix_of_later later passed)
  | case4 front c rest behind passed none => cases found
  | case5 front c rest passed ih => exact goOn (ih found) (not_mark_prefix_of_none passed)

/-- A text is that of the failure read from it, and no stage stands between two separators before
the path of that failure is over. -/
theorem ofText_sound {text : String} {failure : Failure} (read : ofText text = .ok failure) :
    ∃ path : List Char, failure.path = .ofString (String.ofList path) ∧
      text.toList = path ++ failure.stage.mark ++ failure.cause.toList ∧
      ∀ stage : Stage, ¬ stage.mark <:+: path ++ separator := by
  unfold ofText at read
  split at read
  next path stage cause found =>
    cases read
    obtain ⟨behind, located, same, unmarked⟩ := partsFrom?_sound found
    rw [List.reverse_nil, List.nil_append] at located
    subst located
    exact ⟨path, rfl, by simpa using same, unmarked⟩
  next => cases read

/-- Stage and cause settle where the path ends, so a failure that reads back with its stage and its
cause reads back with its path. -/
theorem eq_of_ofText_display {text : String} {stage : Stage} {cause : String} {back : Failure}
    (read : ofText (display ⟨.ofString text, stage, cause⟩) = .ok back)
    (stages : back.stage = stage) (causes : back.cause = cause) :
    back = ⟨.ofString text, stage, cause⟩ ∧
      ∀ other : Stage, ¬ other.mark <:+: text.toList ++ separator := by
  obtain ⟨path, located, same, unmarked⟩ := ofText_sound read
  rw [display_toList, Path.display_ofString, stages, causes, List.append_assoc,
    List.append_assoc] at same
  have paths : text.toList = path := List.append_cancel_right same
  refine ⟨?_, paths ▸ unmarked⟩
  cases back
  simp only at located stages causes
  rw [located, stages, causes, ← paths, String.ofList_toList]

/-- A failure whose path is text reads back from its text form, and from its JSON form, exactly if
no stage stands between two separators in the path and the separator behind it. Otherwise what is
read, if anything is, differs in the stage or the cause: no other spelling of the path makes up for
it. -/
theorem reads_back_iff_unmarked (text : String) (stage : Stage) (cause : String) :
    let failure : Failure := ⟨.ofString text, stage, cause⟩
    let unmarked : Prop := ∀ other : Stage, ¬ other.mark <:+: text.toList ++ separator
    (ofText failure.display = .ok failure ↔ unmarked) ∧
    ((∃ back, ofText failure.display = .ok back ∧ back.same failure = true) ↔ unmarked) ∧
    ∃ json, failure.toJson.text? .compact = some json ∧
      (Json.readWhole read json = .ok failure ↔ unmarked) ∧
      ((∃ back, Json.readWhole read json = .ok back ∧ back.same failure = true) ↔ unmarked) := by
  intro failure unmarked
  have exact : ofText failure.display = .ok failure ↔ unmarked :=
    ⟨fun back => (eq_of_ofText_display back rfl rfl).2, fun none => ofText_display none stage cause⟩
  have similar :
      (∃ back, ofText failure.display = .ok back ∧ back.same failure = true) ↔ unmarked := by
    constructor
    · rintro ⟨back, read, same⟩
      rw [Failure.same, Bool.and_eq_true, Bool.and_eq_true, beq_iff_eq, beq_iff_eq] at same
      exact (eq_of_ofText_display read same.1.2 same.2).2
    · intro none
      exact ⟨failure, exact.2 none, by simp [Failure.same, Path.same]⟩
  have json := Json.readWhole_textThen ofText failure.display
  refine ⟨exact, similar, _, Json.text?_string .compact failure.display, ?_, ?_⟩
  · rw [read, json, exact]
  · simp only [read, json]
    exact similar

end Failure

end LogCensus
