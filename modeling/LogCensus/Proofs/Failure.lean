import LogCensus.Failure
import LogCensus.Proofs.Text.Utf8
import Mathlib.Data.List.Infix

/-!
The text form of a failure reads back where no stage stands between two separators before the
path is over. The path may end in what looks like the start of a separator.
-/

namespace LogCensus

/-! ### First occurrences -/

namespace Text

/-- A pattern that stands somewhere is found there or earlier. -/
theorem cut?_append (pattern front behind : List Char) :
    ∃ before after, cut? pattern (front ++ pattern ++ behind) = some (before, after) ∧
      before ++ pattern <+: front ++ pattern := by
  induction front with
  | nil =>
    refine ⟨[], behind, ?_, List.prefix_rfl⟩
    have found := dropPrefix?_append pattern behind
    cases whole : pattern ++ behind with
    | nil => rw [whole] at found; simp [whole, cut?, found]
    | cons c rest => rw [whole] at found; simp [whole, cut?, found]
  | cons c front ih =>
    cases here : dropPrefix? pattern (c :: (front ++ pattern ++ behind)) with
    | some after =>
      refine ⟨[], after, by simp only [List.cons_append, cut?, here], ?_⟩
      have whole := eq_append_of_dropPrefix? here
      have early : [] ++ pattern <+: c :: (front ++ pattern ++ behind) := ⟨after, whole.symm⟩
      have late : c :: front ++ pattern <+: c :: (front ++ pattern ++ behind) :=
        ⟨behind, by simp⟩
      apply List.prefix_of_prefix_length_le early late
      simp only [List.nil_append, List.length_append, List.length_cons]
      omega
    | none =>
      obtain ⟨before, after, found, earlier⟩ := ih
      refine ⟨c :: before, after, ?_, List.cons_prefix_cons.2 ⟨rfl, earlier⟩⟩
      simp only [List.cons_append, cut?, here, found]
      rfl

/-- In front of a pattern whose first character does not come earlier stands all that does. -/
theorem cut?_of_notMem {first : Char} (pattern : List Char) {front : List Char}
    (absent : first ∉ front) (behind : List Char) :
    cut? (first :: pattern) (front ++ first :: pattern ++ behind) = some (front, behind) := by
  induction front with
  | nil =>
    have found := dropPrefix?_append (first :: pattern) behind
    rw [List.cons_append] at found
    rw [List.nil_append, List.cons_append, cut?, found]
  | cons c front ih =>
    have differ : first ≠ c := fun same => absent (same ▸ List.mem_cons_self)
    have later := ih fun member => absent (List.mem_cons_of_mem c member)
    simp only [List.cons_append, cut?, dropPrefix?, differ, if_false]
    rw [later]
    rfl

end Text

namespace Path

theorem display_ofString (text : String) : (Path.ofString text).display = text := by
  rw [display, ofString, Text.Utf8.encodeString, Text.Utf8.decodeLossy_encode, String.ofList_toList]

theorem text?_ofString (text : String) : (Path.ofString text).text? = some text := by
  rw [text?, ofString, Text.Utf8.encodeString, Text.Utf8.decode?_encode, Option.map_some,
    String.ofList_toList]

end Path

namespace Stage

theorem colon_notMem_name (stage : Stage) : ':' ∉ stage.name.toList := by
  cases stage <;> decide

theorem ofName?_name (stage : Stage) : ofName? (String.ofList stage.name.toList) = some stage := by
  cases stage <;> decide

theorem name_of_ofName? {text : List Char} {stage : Stage}
    (known : ofName? (String.ofList text) = some stage) : stage.name.toList = text := by
  obtain ⟨before, behind, split, -⟩ := List.lookup_eq_some_iff.1 known
  have member : (String.ofList text, stage) ∈ names := by rw [split]; simp
  obtain ⟨other, -, same⟩ := List.mem_map.1 member
  obtain ⟨name, rfl⟩ := Prod.mk.inj same
  rw [name, String.toList_ofList]

/-- A stage between two separators: where it stands first, a path ends. -/
def mark (stage : Stage) : List Char :=
  Failure.separator ++ stage.name.toList ++ Failure.separator

end Stage

namespace Failure

theorem tailOf_name (stage : Stage) (cause : List Char) :
    tailOf (stage.name.toList ++ separator ++ cause) = .found stage cause := by
  have found := Text.cut?_of_notMem [' '] stage.colon_notMem_name cause
  simp only [tailOf, separator, found, Stage.ofName?_name]

/-- In front of a separator stands a stage, or there are separators to come. -/
theorem tailOf_append (front behind : List Char) :
    tailOf (front ++ separator ++ behind) = .later ∨
      ∃ stage : Stage, stage.name.toList ++ separator <+: front ++ separator := by
  obtain ⟨before, after, found, earlier⟩ := Text.cut?_append separator front behind
  cases known : Stage.ofName? (String.ofList before) with
  | none => exact .inl (by simp only [tailOf, found, known])
  | some stage => exact .inr ⟨stage, by rwa [Stage.name_of_ofName? known]⟩

theorem partsFrom?_mark (front : List Char) {path : List Char}
    (unmarked : ∀ stage : Stage, ¬ stage.mark <:+: path ++ separator) (stage : Stage)
    (cause : List Char) :
    partsFrom? front (path ++ stage.mark ++ cause) = some (front.reverse ++ path, stage, cause) := by
  induction path generalizing front with
  | nil =>
    have found := Text.dropPrefix?_append separator (stage.name.toList ++ separator ++ cause)
    have text : stage.mark ++ cause = separator ++ (stage.name.toList ++ separator ++ cause) := by
      simp only [Stage.mark, List.append_assoc]
    rw [← text] at found
    rw [List.nil_append, List.append_nil]
    cases whole : stage.mark ++ cause with
    | nil => rw [text] at whole; cases whole
    | cons c rest =>
      rw [whole] at found
      simp only [partsFrom?, found, tailOf_name]
  | cons c path ih =>
    have later := ih (c :: front) fun other inside =>
      unmarked other (inside.trans (List.suffix_cons c (path ++ separator)).isInfix)
    rw [List.reverse_cons, List.append_assoc front.reverse, List.singleton_append] at later
    simp only [List.cons_append, partsFrom?]
    cases here : Text.dropPrefix? separator (c :: (path ++ stage.mark ++ cause)) with
    | none => exact later
    | some behind =>
      -- the separator found lies in the path and is not the one that ends it
      obtain ⟨colon, tailText⟩ : c = ':' ∧ path ++ stage.mark ++ cause = ' ' :: behind :=
        List.cons.inj (Text.eq_append_of_dropPrefix? here)
      obtain ⟨rest, rfl, behindText⟩ : ∃ rest, path = ' ' :: rest ∧
          rest ++ separator ++ (stage.name.toList ++ separator ++ cause) = behind := by
        cases path with
        | nil => cases tailText
        | cons second rest =>
          obtain ⟨rfl, same⟩ := List.cons.inj tailText
          exact ⟨rest, rfl, by simpa [Stage.mark] using same⟩
      rcases tailOf_append rest (stage.name.toList ++ separator ++ cause) with more | found
      · simp only [← behindText, more]
        exact later
      · obtain ⟨other, prior⟩ := found
        refine absurd ?_ (unmarked other)
        have prefixed : other.mark <+: c :: ' ' :: rest ++ separator := by
          rw [Stage.mark, colon, List.append_assoc]
          exact List.cons_prefix_cons.2 ⟨rfl, List.cons_prefix_cons.2 ⟨rfl, prior⟩⟩
        exact prefixed.isInfix

theorem display_toList (failure : Failure) :
    failure.display.toList =
      failure.path.display.toList ++ failure.stage.mark ++ failure.cause.toList := by
  simp [display, Stage.mark, separator, String.toList_append]

/-- The text form reads back unless a stage between separators comes before the path ends. -/
theorem ofText_display {text : String}
    (unmarked : ∀ stage : Stage, ¬ stage.mark <:+: text.toList ++ separator) (stage : Stage)
    (cause : String) :
    ofText (Failure.display ⟨.ofString text, stage, cause⟩) =
      .ok ⟨.ofString text, stage, cause⟩ := by
  rw [ofText, display_toList, Path.display_ofString, partsFrom?_mark [] unmarked]
  simp only [List.reverse_nil, List.nil_append, String.ofList_toList]

end Failure

end LogCensus
