import LogCensus.Proofs.Format.Takers

/-!
A line is read as a start line exactly if it has the form of one, and by the greedy form, which is
the only one of its kind.
-/

namespace LogCensus.Format.Application

open Text (isBlank)

variable {text rest behind : List Char}

/-! ### Reading a line -/

def Blanks.grown (blanks : Blanks) (rest : List Char) : Blanks where
  text := blanks.text ++ rest.takeWhile isBlank
  nonempty := List.append_ne_nil_of_left_ne_nil blanks.nonempty _
  all := by
    intro c member
    rcases List.mem_append.1 member with own | more
    · exact blanks.all c own
    · exact List.mem_takeWhile_imp more

theorem Blanks.grown_append (blanks : Blanks) (rest : List Char) :
    (blanks.grown rest).text ++ rest.dropWhile isBlank = blanks.text ++ rest := by
  rw [grown, List.append_assoc, List.takeWhile_append_dropWhile]

/-- Where a thread name stands in front, one is found. -/
theorem not_prefix_of_takeThread? (none : takeThread? text = none) (thread : Thread) :
    ¬ thread.text <+: text := by
  rintro ⟨rest, rfl⟩
  have longer : thread.text ++ rest =
      Thread.text { thread with gap := thread.gap.grown rest } ++ rest.dropWhile isBlank := by
    simp [Thread.text, Blanks.grown_append]
  have found : takeThread? (thread.text ++ rest) = some (thread.name, rest.dropWhile isBlank) :=
    takeThread?_eq_some.2 ⟨⟨{ thread with gap := thread.gap.grown rest }, rfl, longer⟩,
      solid_dropWhile rest⟩
  rw [none] at found
  cases found

theorem StartForm.text_eq (form : StartForm) :
    form.text = form.stamp.dateTime.text ++ (form.stamp.fractionText ++ (form.gap.text ++
      (optional '[' form.opened ++ (form.level.text ++ (optional ']' form.closed ++
        (form.space.text ++ (form.threadText ++ form.message))))))) := by
  rw [text, Stamp.text, List.append_assoc]

theorem solid_of_head? {c : Char} (first : text.head? = some c) (solid : isBlank c = false) :
    Solid text := by
  intro d head
  rw [first] at head
  cases head
  exact solid

theorem solid_of_isCapital (letters : ∀ c ∈ text.head?, isCapital c = true) : Solid text := by
  intro c first
  by_contra blank
  have capital := letters c first
  rw [not_isCapital_of_isBlank (by simpa using blank)] at capital
  cases capital

/-- What stands behind the blanks behind a stamp. -/
theorem solid_levelText (opened : Bool) (level : LevelWord) (rest : List Char) :
    Solid (optional '[' opened ++ (level.text ++ rest)) := by
  cases opened with
  | true => exact solid_of_head? rfl (by decide)
  | false => exact solid_of_isCapital (level.text_append_head rest)

theorem StartLine.ofText?_sound {start : StartLine} (read : StartLine.ofText? text = some start) :
    ∃ form : StartForm, form.text = text ∧ form.Greedy ∧ form.startLine = start := by
  simp only [StartLine.ofText?, Option.bind_eq_bind, Option.bind_eq_some_iff, Prod.exists] at read
  obtain ⟨_, _, shaped, _, _, fractioned, _, gapped, _, rest, levelled, finished⟩ := read
  obtain ⟨fits, rfl⟩ := (takeShape?_eq_some _).1 shaped
  obtain ⟨dateTime, rfl⟩ := fits_secondsShape.1 fits
  obtain ⟨fraction, rfl, rfl⟩ := takeFraction?_sound fractioned
  obtain ⟨⟨gap, rfl⟩, _⟩ := dropBlanks?_eq_some.1 gapped
  obtain ⟨⟨opened, closed, level, space, rfl, rfl⟩, solid⟩ := takeLevel?_eq_some.1 levelled
  cases threaded : takeThread? rest with
  | none =>
    rw [threaded] at finished
    dsimp only at finished
    split at finished
    next => cases finished
    next oneLine =>
      cases finished
      have free : '\n' ∉ rest := by simpa using oneLine
      refine ⟨⟨⟨dateTime, fraction⟩, gap, opened, level, closed, space, none, rest, free⟩, ?_,
        ⟨solid, fun _ => not_prefix_of_takeThread? threaded⟩, rfl⟩
      rw [StartForm.text_eq]
      rfl
  | some found =>
    obtain ⟨name, message⟩ := found
    rw [threaded] at finished
    dsimp only at finished
    split at finished
    next => cases finished
    next oneLine =>
      cases finished
      have free : '\n' ∉ message := by simpa using oneLine
      obtain ⟨⟨thread, rfl, rfl⟩, trimmed⟩ := takeThread?_eq_some.1 threaded
      refine ⟨⟨⟨dateTime, fraction⟩, gap, opened, level, closed, space, some thread, message, free⟩,
        ?_, ⟨trimmed, fun none => by cases none⟩, rfl⟩
      rw [StartForm.text_eq]
      rfl

theorem StartLine.ofText?_text {form : StartForm} (greedy : form.Greedy) :
    StartLine.ofText? form.text = some form.startLine := by
  obtain ⟨⟨dateTime, fraction⟩, gap, opened, level, closed, space, thread, message, oneLine⟩ := form
  have fits := fits_secondsShape.2 ⟨dateTime, rfl⟩
  have unbroken : message.contains '\n' = false := by simpa using oneLine
  have behind (rest : List Char) : Solid rest →
      takeLevel? (optional '[' opened ++ (level.text ++ (optional ']' closed ++
        (space.text ++ rest)))) = some (level.text, rest) := fun solid =>
    takeLevel?_eq_some.2 ⟨⟨opened, closed, level, space, rfl, rfl⟩, solid⟩
  have gapped (rest : List Char) :
      dropBlanks? (gap.text ++ (optional '[' opened ++ (level.text ++ rest))) =
        some (optional '[' opened ++ (level.text ++ rest)) :=
    dropBlanks?_eq_some.2 ⟨⟨gap, rfl⟩, solid_levelText opened level rest⟩
  rw [StartForm.text_eq, StartLine.ofText?, (takeShape?_eq_some _).2 ⟨fits, rfl⟩]
  simp only [Stamp.fractionText, Option.bind_eq_bind, Option.bind_some,
    takeFraction?_append fraction (gap.head _), gapped]
  cases thread with
  | none =>
    have solid : Solid message := greedy.solid
    have none : takeThread? message = none := by
      by_contra found
      obtain ⟨⟨name, rest⟩, taken⟩ := Option.ne_none_iff_exists'.1 found
      obtain ⟨⟨thread, _, rfl⟩, _⟩ := takeThread?_eq_some.1 taken
      exact greedy.threaded rfl thread ⟨rest, rfl⟩
    simp only [StartForm.threadText, Option.elim_none, List.nil_append, behind message solid,
      Option.bind_some, none, unbroken]
    rfl
  | some thread =>
    have solid : Solid (thread.text ++ message) := solid_of_head? rfl (by decide)
    have found : takeThread? (thread.text ++ message) = some (thread.name, message) :=
      takeThread?_eq_some.2 ⟨⟨thread, rfl, rfl⟩, greedy.solid⟩
    simp only [StartForm.threadText, Option.elim_some, behind _ solid, Option.bind_some, found,
      unbroken]
    rfl

/-! ### The greedy form -/

/-- A form without a thread name and with no more blanks to take has a greedy one. -/
theorem exists_greedy_threadless (form : StartForm) (threadless : form.thread = none)
    (solid : Solid form.message) :
    ∃ greedy : StartForm, greedy.Greedy ∧ greedy.text = form.text ∧ greedy.stamp = form.stamp ∧
      greedy.level = form.level := by
  cases threaded : takeThread? form.message with
  | none =>
    exact ⟨form, ⟨solid, fun _ => not_prefix_of_takeThread? threaded⟩, rfl, rfl, rfl⟩
  | some found =>
    obtain ⟨name, rest⟩ := found
    obtain ⟨⟨thread, _, split⟩, trimmed⟩ := takeThread?_eq_some.1 threaded
    have oneLine : '\n' ∉ rest := by
      intro member
      exact form.oneLine (split ▸ List.mem_append_right thread.text member)
    refine ⟨{ form with thread := some thread, message := rest, oneLine }, ⟨trimmed, fun none =>
      by cases none⟩, ?_, rfl, rfl⟩
    simp only [StartForm.text, StartForm.threadText, threadless, Option.elim_none,
      Option.elim_some, List.nil_append, split]

theorem exists_greedy (form : StartForm) :
    ∃ greedy : StartForm, greedy.Greedy ∧ greedy.text = form.text ∧ greedy.stamp = form.stamp ∧
      greedy.level = form.level := by
  have solid := solid_dropWhile form.message
  have oneLine : '\n' ∉ form.message.dropWhile isBlank := fun member =>
    form.oneLine ((List.dropWhile_suffix isBlank).subset member)
  cases threaded : form.thread with
  | none =>
    obtain ⟨greedy, isGreedy, same, stamp, level⟩ := exists_greedy_threadless
      { form with
        space := form.space.grown form.message
        message := form.message.dropWhile isBlank
        oneLine }
      threaded solid
    refine ⟨greedy, isGreedy, same.trans ?_, stamp, level⟩
    simp only [StartForm.text, StartForm.threadText, threaded, Option.elim_none, List.nil_append,
      Blanks.grown_append]
  | some thread =>
    refine ⟨{ form with
        thread := some { thread with gap := thread.gap.grown form.message }
        message := form.message.dropWhile isBlank
        oneLine }, ⟨solid, fun none => by cases none⟩, ?_, rfl, rfl⟩
    simp only [StartForm.text, StartForm.threadText, threaded, Option.elim_some, Thread.text,
      List.cons_append, List.append_assoc, Blanks.grown_append]

/-! ### Only one form is greedy -/

theorem Blanks.eq_of_append {one other : Blanks} (solid : Solid rest) (apart : Solid behind)
    (same : one.text ++ rest = other.text ++ behind) : one = other ∧ rest = behind := by
  have blanks := congrArg (List.takeWhile isBlank) same
  rw [Text.takeWhile_append_stop one.all solid, Text.takeWhile_append_stop other.all apart]
    at blanks
  rw [blanks] at same
  exact ⟨Blanks.ext blanks, List.append_cancel_left same⟩

theorem optional_eq_of_append {c : Char} {present given : Bool} (other : ∀ d ∈ rest.head?, d ≠ c)
    (apart : ∀ d ∈ behind.head?, d ≠ c)
    (same : optional c present ++ rest = optional c given ++ behind) :
    present = given ∧ rest = behind := by
  cases present <;> cases given
  case false.false => exact ⟨rfl, same⟩
  case true.true => exact ⟨rfl, List.append_cancel_left same⟩
  case true.false => exact absurd rfl (apart c (congrArg List.head? same).symm)
  case false.true => exact absurd rfl (other c (congrArg List.head? same))

theorem Numerals.eq_of_append {count : Nat} {one other : Numerals count}
    (same : one.text ++ rest = other.text ++ behind) : one = other ∧ rest = behind := by
  obtain ⟨texts, rests⟩ := List.append_inj same (one.length.trans other.length.symm)
  exact ⟨Numerals.ext texts, rests⟩

theorem DateTimeForm.eq_of_append {one other : DateTimeForm}
    (same : one.text ++ rest = other.text ++ behind) : one = other ∧ rest = behind := by
  simp only [text, List.append_assoc, List.cons_append] at same
  obtain ⟨year, same⟩ := Numerals.eq_of_append same
  obtain ⟨month, same⟩ := Numerals.eq_of_append (List.cons.inj same).2
  obtain ⟨day, same⟩ := Numerals.eq_of_append (List.cons.inj same).2
  obtain ⟨separator, same⟩ := List.cons.inj same
  obtain ⟨hour, same⟩ := Numerals.eq_of_append same
  obtain ⟨minute, same⟩ := Numerals.eq_of_append (List.cons.inj same).2
  obtain ⟨second, same⟩ := Numerals.eq_of_append (List.cons.inj same).2
  exact ⟨DateTimeForm.ext year month day separator hour minute second, same⟩

theorem Stamp.eq_of_text {one other : Stamp} (same : one.text = other.text) : one = other := by
  obtain ⟨dateTime, fractions⟩ := DateTimeForm.eq_of_append same
  refine Stamp.ext dateTime ?_
  unfold fractionText at fractions
  cases first : one.fraction <;> cases second : other.fraction <;>
    rw [first, second] at fractions
  case none.some fraction => cases fractions
  case some.none fraction => cases fractions
  case some.some fraction found =>
    obtain ⟨mark, digits⟩ := List.cons.inj fractions
    exact congrArg some (Fraction.ext mark digits)

theorem LevelWord.eq_of_text {one other : LevelWord} (same : one.text = other.text) :
    one = other := by
  have apart : ∀ one ∈ all, ∀ other ∈ all, one.text = other.text → one = other := by decide
  exact apart one one.mem_all other other.mem_all same

theorem Thread.eq_of_text {one other : Thread} (names : one.name = other.name)
    (same : one.text = other.text) : one = other := by
  have behind := (List.cons.inj same).2
  rw [names] at behind
  have gaps := (List.cons.inj (List.append_cancel_left behind)).2
  exact Thread.ext names (Blanks.ext gaps)

/-- Blanks and a thread name behind them, if there is one, can be told apart. -/
theorem Thread.eq_of_space {one other : Option Thread} {space gap : Blanks}
    (names : one.map Thread.name = other.map Thread.name)
    (same : space.text ++ one.elim [] Thread.text = gap.text ++ other.elim [] Thread.text) :
    space = gap ∧ one = other := by
  cases one <;> cases other
  case none.none =>
    rw [Option.elim_none, List.append_nil, List.append_nil] at same
    exact ⟨Blanks.ext same, rfl⟩
  case none.some => cases names
  case some.none => cases names
  case some.some first second =>
    have solid (thread : Thread) : Solid thread.text := solid_of_head? rfl (by decide)
    obtain ⟨gaps, texts⟩ := Blanks.eq_of_append (solid first) (solid second) same
    exact ⟨gaps, congrArg some (Thread.eq_of_text (Option.some.inj names) texts)⟩

theorem StartForm.eq_of_greedy {one other : StartForm} (greedy : one.Greedy)
    (alike : other.Greedy) (same : one.text = other.text) : one = other := by
  have read := StartLine.ofText?_text greedy
  rw [same, StartLine.ofText?_text alike, Option.some.injEq] at read
  -- what the reader finds settles all but the blanks and brackets around the level word
  obtain ⟨stamps, levels, names, messages⟩ := StartLine.mk.inj read.symm
  have stamp := Stamp.eq_of_text stamps
  have level := LevelWord.eq_of_text levels
  rw [text, text, stamps, level, messages] at same
  obtain ⟨gap, same⟩ := Blanks.eq_of_append (solid_levelText _ _ _) (solid_levelText _ _ _)
    (List.append_cancel_left same)
  have letter (rest : List Char) : ∀ c ∈ (other.level.text ++ rest).head?, c ≠ '[' := by
    rintro c first rfl
    cases other.level.text_append_head rest '[' first
  obtain ⟨opened, same⟩ := optional_eq_of_append (letter _) (letter _) same
  have blank (space : Blanks) (rest : List Char) :
      ∀ c ∈ (space.text ++ rest).head?, c ≠ ']' := by
    rintro c first rfl
    cases space.head rest ']' first
  obtain ⟨closed, same⟩ := optional_eq_of_append (blank _ _) (blank _ _)
    (List.append_cancel_left same)
  rw [← List.append_assoc, ← List.append_assoc] at same
  obtain ⟨space, thread⟩ := Thread.eq_of_space names (List.append_cancel_right same)
  exact StartForm.ext stamp gap opened level closed space thread messages

/-- Lines are read as start lines exactly by their greedy form. -/
theorem StartLine.ofText?_eq_some {start : StartLine} :
    StartLine.ofText? text = some start ↔
      ∃ form : StartForm, form.text = text ∧ form.Greedy ∧ form.startLine = start := by
  constructor
  · exact StartLine.ofText?_sound
  · rintro ⟨form, rfl, greedy, rfl⟩
    exact StartLine.ofText?_text greedy

end LogCensus.Format.Application
