import LogCensus.Proofs.Format.StartForm
import LogCensus.Proofs.Text.Numeral

/-!
What the steps of reading a start line take from the front of a text: exactly a part of its grammar,
and as much of it as there is.
-/

namespace LogCensus.Format.Application

open Text (isBlank isNumeral)

variable {text front rest behind : List Char}

/-! ### Characters -/

theorem isNumeral_of_isBlank {c : Char} (blank : isBlank c = true) : isNumeral c = false := by
  have codes : c.toNat ∈ [9, 10, 11, 12, 13, 0x20, 0x85, 0xA0, 0x1680, 0x2000, 0x2001, 0x2002,
      0x2003, 0x2004, 0x2005, 0x2006, 0x2007, 0x2008, 0x2009, 0x200A, 0x2028, 0x2029, 0x202F,
      0x205F, 0x3000] := by
    simp only [isBlank, Bool.or_eq_true, Bool.and_eq_true, decide_eq_true_eq, beq_iff_eq] at blank
    simp only [List.mem_cons, List.not_mem_nil, or_false]
    omega
  have none : ∀ code ∈ [9, 10, 11, 12, 13, 0x20, 0x85, 0xA0, 0x1680, 0x2000, 0x2001, 0x2002,
      0x2003, 0x2004, 0x2005, 0x2006, 0x2007, 0x2008, 0x2009, 0x200A, 0x2028, 0x2029, 0x202F,
      0x205F, 0x3000], (Text.numeralZeros.any fun first => first ≤ code && code < first + 10) =
        false := by decide
  exact none _ codes

def isCapital (c : Char) : Bool := 'A' ≤ c && c ≤ 'Z'

theorem not_isCapital_of_isBlank {c : Char} (blank : isBlank c = true) : isCapital c = false := by
  simp only [isBlank, Bool.or_eq_true, Bool.and_eq_true, decide_eq_true_eq, beq_iff_eq] at blank
  simp only [isCapital, Bool.and_eq_false_iff, decide_eq_false_iff_not]
  by_contra both
  push Not at both
  have low : 65 ≤ c.toNat := both.1
  have high : c.toNat ≤ 90 := both.2
  omega

theorem LevelWord.isCapital_text (word : LevelWord) : ∀ c ∈ word.text, isCapital c = true := by
  have letters : word.text.all isCapital = true := by cases word <;> decide
  exact List.all_eq_true.1 letters

/-! ### Fixed shapes -/

def ShapePart.Spells : ShapePart → List Char → Prop
  | numerals count, text => text.length = count ∧ ∀ c ∈ text, isNumeral c = true
  | oneOf allowed, text => ∃ c ∈ allowed, text = [c]

def Fits : List ShapePart → List Char → Prop
  | [], text => text = []
  | part :: parts, text => ∃ front rest, part.Spells front ∧ Fits parts rest ∧ text = front ++ rest

theorem takeNumerals?_eq_some {count : Nat} :
    takeNumerals? count text = some (front, rest) ↔
      (front.length = count ∧ ∀ c ∈ front, isNumeral c = true) ∧ text = front ++ rest := by
  simp only [takeNumerals?, List.all_eq_true]
  constructor
  · intro taken
    split at taken
    next fits =>
      cases taken
      exact ⟨fits, (List.take_append_drop count text).symm⟩
    next => cases taken
  · rintro ⟨⟨rfl, all⟩, rfl⟩
    rw [List.take_left, List.drop_left, if_pos ⟨rfl, all⟩]

theorem ShapePart.take?_eq_some (part : ShapePart) :
    part.take? text = some (front, rest) ↔ part.Spells front ∧ text = front ++ rest := by
  cases part with
  | numerals count => exact takeNumerals?_eq_some
  | oneOf allowed =>
    cases text with
    | nil =>
      simp only [take?, takeOneOf?, Spells, reduceCtorEq, false_iff]
      rintro ⟨⟨c, _, rfl⟩, absurdity⟩
      cases absurdity
    | cons c text =>
      simp only [take?, takeOneOf?, Spells, Option.ite_none_right_eq_some, Option.some.injEq,
        Prod.mk.injEq]
      constructor
      · rintro ⟨known, rfl, rfl⟩
        exact ⟨⟨c, known, rfl⟩, rfl⟩
      · rintro ⟨⟨other, known, rfl⟩, same⟩
        cases same
        exact ⟨known, rfl, rfl⟩

theorem takeShape?_eq_some (parts : List ShapePart) :
    takeShape? parts text = some (front, rest) ↔ Fits parts front ∧ text = front ++ rest := by
  induction parts generalizing text front rest with
  | nil =>
    simp only [takeShape?, Fits, Option.some.injEq, Prod.mk.injEq]
    constructor
    · rintro ⟨rfl, rfl⟩
      exact ⟨rfl, rfl⟩
    · rintro ⟨rfl, rfl⟩
      exact ⟨rfl, rfl⟩
  | cons part parts ih =>
    simp only [takeShape?, Fits, Option.bind_eq_bind, Option.bind_eq_some_iff, Prod.exists,
      part.take?_eq_some, ih, Option.some.injEq, Prod.mk.injEq]
    constructor
    · rintro ⟨one, _, ⟨spells, rfl⟩, more, _, ⟨fits, rfl⟩, rfl, rfl⟩
      exact ⟨⟨one, more, spells, fits, rfl⟩, (List.append_assoc one more _).symm⟩
    · rintro ⟨⟨one, more, spells, fits, rfl⟩, rfl⟩
      exact ⟨one, more ++ rest, ⟨spells, List.append_assoc one more rest⟩, more, rest,
        ⟨fits, rfl⟩, rfl, rfl⟩

theorem fits_secondsShape : Fits secondsShape text ↔ ∃ form : DateTimeForm, form.text = text := by
  simp only [secondsShape, Fits, ShapePart.Spells, List.mem_cons, List.not_mem_nil, or_false]
  constructor
  · rintro ⟨year, _, ⟨yearLength, years⟩, ⟨_, _, ⟨_, rfl, rfl⟩, ⟨month, _, ⟨monthLength, months⟩,
      ⟨_, _, ⟨_, rfl, rfl⟩, ⟨day, _, ⟨dayLength, days⟩, ⟨_, _, ⟨separator, known, rfl⟩,
      ⟨hour, _, ⟨hourLength, hours⟩, ⟨_, _, ⟨_, rfl, rfl⟩, ⟨minute, _, ⟨minuteLength, minutes⟩,
      ⟨_, _, ⟨_, rfl, rfl⟩, ⟨second, _, ⟨secondLength, seconds⟩, rfl, rfl⟩, rfl⟩, rfl⟩, rfl⟩, rfl⟩,
      rfl⟩, rfl⟩, rfl⟩, rfl⟩, rfl⟩, rfl⟩
    refine ⟨⟨⟨year, yearLength, years⟩, ⟨month, monthLength, months⟩, ⟨day, dayLength, days⟩,
      separator, known, ⟨hour, hourLength, hours⟩, ⟨minute, minuteLength, minutes⟩,
      ⟨second, secondLength, seconds⟩⟩, ?_⟩
    simp [DateTimeForm.text]
  · rintro ⟨form, rfl⟩
    exact ⟨_, _, ⟨form.year.length, form.year.all⟩, ⟨_, _, ⟨_, rfl, rfl⟩, ⟨_, _,
      ⟨form.month.length, form.month.all⟩, ⟨_, _, ⟨_, rfl, rfl⟩, ⟨_, _,
      ⟨form.day.length, form.day.all⟩, ⟨_, _, ⟨_, form.isSeparator, rfl⟩, ⟨_, _,
      ⟨form.hour.length, form.hour.all⟩, ⟨_, _, ⟨_, rfl, rfl⟩, ⟨_, _,
      ⟨form.minute.length, form.minute.all⟩, ⟨_, _, ⟨_, rfl, rfl⟩, ⟨_, _,
      ⟨form.second.length, form.second.all⟩, rfl, rfl⟩, rfl⟩, rfl⟩, rfl⟩, rfl⟩, rfl⟩, rfl⟩, rfl⟩,
      rfl⟩, rfl⟩, by simp [DateTimeForm.text]⟩

/-! ### Fraction -/

def Solid (text : List Char) : Prop := ∀ c ∈ text.head?, isBlank c = false

theorem takeFraction?_sound (taken : takeFraction? text = some (front, rest)) :
    ∃ fraction : Option Fraction, fraction.elim [] Fraction.text = front ∧ text = front ++ rest := by
  unfold takeFraction? at taken
  split at taken
  next c text =>
    split at taken
    next mark =>
      dsimp only at taken
      split at taken
      next few =>
        cases taken
        exact ⟨some ⟨c, _, mark, List.ne_nil_of_length_pos few.1, few.2,
          fun d member => List.mem_takeWhile_imp member⟩, rfl,
          congrArg (c :: ·) List.takeWhile_append_dropWhile.symm⟩
      next => cases taken
    next =>
      cases taken
      exact ⟨none, rfl, rfl⟩
  next =>
    cases taken
    exact ⟨none, rfl, rfl⟩

theorem takeFraction?_append (fraction : Option Fraction)
    (blank : ∀ c ∈ rest.head?, isBlank c = true) :
    takeFraction? (fraction.elim [] Fraction.text ++ rest) =
      some (fraction.elim [] Fraction.text, rest) := by
  cases fraction with
  | none =>
    cases rest with
    | nil => rfl
    | cons c rest =>
      have space := blank c rfl
      have unmarked : ¬(c = '.' ∨ c = ',') := by
        rintro (rfl | rfl)
        · cases space
        · cases space
      exact if_neg unmarked
  | some fraction =>
    have stop (c : Char) (first : c ∈ rest.head?) : isNumeral c = false :=
      isNumeral_of_isBlank (blank c first)
    have long := List.length_pos_iff.2 fraction.nonempty
    simp only [Option.elim_some, Fraction.text, List.cons_append, takeFraction?,
      if_pos fraction.isMark, Text.takeWhile_append_stop fraction.all stop,
      Text.dropWhile_append_stop fraction.all stop]
    exact if_pos ⟨long, fraction.few⟩

/-! ### Blanks and brackets -/

theorem solid_dropWhile (text : List Char) : Solid (text.dropWhile isBlank) := by
  intro c first
  have stop := List.head?_dropWhile_not isBlank text
  rw [first] at stop
  exact stop

theorem Blanks.head (blanks : Blanks) (rest : List Char) :
    ∀ c ∈ (blanks.text ++ rest).head?, isBlank c = true := by
  obtain ⟨text, some, all⟩ := blanks
  cases text with
  | nil => exact absurd rfl some
  | cons c text =>
    intro d first
    cases first
    exact all c List.mem_cons_self

theorem dropBlanks?_eq_some :
    dropBlanks? text = some rest ↔ (∃ blanks : Blanks, text = blanks.text ++ rest) ∧ Solid rest := by
  constructor
  · intro taken
    cases text with
    | nil => cases taken
    | cons c text =>
      simp only [dropBlanks?, Option.ite_none_right_eq_some, Option.some.injEq] at taken
      obtain ⟨blank, rfl⟩ := taken
      refine ⟨⟨⟨c :: text.takeWhile isBlank, List.cons_ne_nil _ _, ?_⟩,
        congrArg (c :: ·) List.takeWhile_append_dropWhile.symm⟩, solid_dropWhile text⟩
      intro d member
      rcases List.mem_cons.1 member with rfl | later
      · exact blank
      · exact List.mem_takeWhile_imp later
  · rintro ⟨⟨⟨text, some, all⟩, rfl⟩, solid⟩
    cases text with
    | nil => exact absurd rfl some
    | cons c text =>
      have first : isBlank c = true := all c List.mem_cons_self
      have inner : ∀ d ∈ text, isBlank d = true := fun d member =>
        all d (List.mem_cons_of_mem c member)
      rw [List.cons_append, dropBlanks?, if_pos first, Text.trimLeft,
        Text.dropWhile_append_stop inner solid]

theorem exists_optional (c : Char) (text : List Char) :
    ∃ present, text = optional c present ++ dropOptional c text := by
  cases text with
  | nil => exact ⟨false, rfl⟩
  | cons d text =>
    by_cases same : d = c
    · exact ⟨true, by simp [optional, dropOptional, same]⟩
    · exact ⟨false, by simp [optional, dropOptional, same]⟩

theorem dropOptional_append {c : Char} (present : Bool) (other : ∀ d ∈ rest.head?, d ≠ c) :
    dropOptional c (optional c present ++ rest) = rest := by
  cases present with
  | true => simp [optional, dropOptional]
  | false =>
    cases rest with
    | nil => rfl
    | cons d rest => simp [optional, dropOptional, other d rfl]

/-! ### Level words -/

theorem LevelWord.text_append_head (word : LevelWord) (rest : List Char) :
    ∀ c ∈ (word.text ++ rest).head?, isCapital c = true := by
  have letters := word.isCapital_text
  have some : word.text ≠ [] := by cases word <;> decide
  cases text : word.text with
  | nil => exact absurd text some
  | cons c more =>
    intro d first
    cases first
    exact letters c (text ▸ List.mem_cons_self)

/-- What stands behind a level word begins with no capital letter. -/
theorem behind_level_head (closed : Bool) (space : Blanks) (rest : List Char) :
    ∀ c ∈ (optional ']' closed ++ (space.text ++ rest)).head?, isCapital c = false := by
  intro c first
  cases closed with
  | true =>
    cases first
    decide
  | false => exact not_isCapital_of_isBlank (space.head rest c first)

/-- A level word is all the capital letters in front of what stands behind it. -/
theorem level_of_append {word other : LevelWord} {closed shut : Bool} {space gap : Blanks}
    (same : word.text ++ (optional ']' closed ++ (space.text ++ rest)) =
      other.text ++ (optional ']' shut ++ (gap.text ++ behind))) :
    word.text = other.text ∧
      optional ']' closed ++ (space.text ++ rest) = optional ']' shut ++ (gap.text ++ behind) := by
  have letters := congrArg (List.takeWhile isCapital) same
  rw [Text.takeWhile_append_stop word.isCapital_text (behind_level_head closed space rest),
    Text.takeWhile_append_stop other.isCapital_text (behind_level_head shut gap behind)] at letters
  rw [letters] at same
  exact ⟨letters, List.append_cancel_left same⟩

def tryWord? (text word : List Char) : Option (List Char × List Char) := do
  let rest ← Text.dropPrefix? word text
  let rest ← dropBlanks? (dropOptional ']' rest)
  some (word, rest)

theorem tryWord?_sound {word found : List Char} (tried : tryWord? text word = some (found, rest)) :
    found = word ∧ Solid rest ∧ ∃ closed, ∃ space : Blanks,
      text = word ++ (optional ']' closed ++ (space.text ++ rest)) := by
  simp only [tryWord?, Option.bind_eq_bind, Option.bind_eq_some_iff, Option.some.injEq,
    Prod.mk.injEq] at tried
  obtain ⟨behind, dropped, _, taken, rfl, rfl⟩ := tried
  obtain ⟨⟨space, spaced⟩, solid⟩ := dropBlanks?_eq_some.1 taken
  obtain ⟨closed, bracket⟩ := exists_optional ']' behind
  refine ⟨rfl, solid, closed, space, ?_⟩
  rw [Text.eq_append_of_dropPrefix? dropped, ← spaced, ← bracket]

theorem tryWord?_append (word : LevelWord) (closed : Bool) (space : Blanks) (solid : Solid rest) :
    tryWord? (word.text ++ (optional ']' closed ++ (space.text ++ rest))) word.text =
      some (word.text, rest) := by
  have unbracketed : ∀ c ∈ (space.text ++ rest).head?, c ≠ ']' := by
    rintro c first rfl
    cases space.head rest ']' first
  simp only [tryWord?, Text.dropPrefix?_append, dropOptional_append closed unbracketed,
    dropBlanks?_eq_some.2 ⟨⟨space, rfl⟩, solid⟩, Option.bind_eq_bind, Option.bind_some]

theorem takeLevel?_eq (text : List Char) :
    takeLevel? text =
      (LevelWord.all.map LevelWord.text).findSome? (tryWord? (dropOptional '[' text)) := rfl

theorem takeLevel?_append (opened : Bool) (level : LevelWord) (closed : Bool) (space : Blanks)
    (solid : Solid rest) :
    takeLevel? (optional '[' opened ++ (level.text ++ (optional ']' closed ++
      (space.text ++ rest)))) = some (level.text, rest) := by
  have unbracketed : ∀ c ∈ (level.text ++ (optional ']' closed ++ (space.text ++ rest))).head?,
      c ≠ '[' := by
    rintro c first rfl
    cases level.text_append_head _ '[' first
  have tried := tryWord?_append level closed space solid
  rw [takeLevel?_eq, dropOptional_append opened unbracketed]
  cases taken : (LevelWord.all.map LevelWord.text).findSome?
      (tryWord? (level.text ++ (optional ']' closed ++ (space.text ++ rest)))) with
  | none =>
    have failed := List.findSome?_eq_none_iff.1 taken level.text
      (List.mem_map_of_mem level.mem_all)
    rw [tried] at failed
    cases failed
  | some found =>
    -- another word that fits would be all the capital letters in front as well
    obtain ⟨found, behind⟩ := found
    obtain ⟨_, member, other⟩ := List.exists_of_findSome?_eq_some taken
    obtain ⟨word, _, rfl⟩ := List.mem_map.1 member
    obtain ⟨_, _, shut, gap, same⟩ := tryWord?_sound other
    obtain ⟨words, _⟩ := level_of_append same
    rw [← words, tried] at other
    exact other.symm

theorem takeLevel?_eq_some {word : List Char} :
    takeLevel? text = some (word, rest) ↔
      (∃ opened closed, ∃ level : LevelWord, ∃ space : Blanks, level.text = word ∧
        text = optional '[' opened ++
          (level.text ++ (optional ']' closed ++ (space.text ++ rest)))) ∧ Solid rest := by
  constructor
  · intro taken
    rw [takeLevel?_eq] at taken
    obtain ⟨_, member, tried⟩ := List.exists_of_findSome?_eq_some taken
    obtain ⟨level, _, rfl⟩ := List.mem_map.1 member
    obtain ⟨same, solid, closed, space, behind⟩ := tryWord?_sound tried
    obtain ⟨opened, bracket⟩ := exists_optional '[' text
    exact ⟨⟨opened, closed, level, space, same.symm, by rw [← behind, ← bracket]⟩, solid⟩
  · rintro ⟨⟨opened, closed, level, space, rfl, rfl⟩, solid⟩
    exact takeLevel?_append opened level closed space solid

/-! ### Thread names -/

/-- A text goes on behind the first closing bracket, if there is anything there. -/
theorem bracket_of_drop (some : text.drop ((text.takeWhile (· != ']')).length + 1) ≠ []) :
    text = text.takeWhile (· != ']') ++
      ']' :: text.drop ((text.takeWhile (· != ']')).length + 1) := by
  induction text with
  | nil => exact absurd List.drop_nil some
  | cons c text ih =>
    by_cases closing : c = ']'
    · subst closing
      simp
    · have inside : (c != ']') = true := bne_iff_ne.2 closing
      simp only [List.takeWhile_cons, inside, if_true, List.length_cons, List.drop_succ_cons]
        at some ⊢
      exact congrArg (c :: ·) (ih some)

theorem takeThread?_eq_some {name : List Char} :
    takeThread? text = some (name, rest) ↔
      (∃ thread : Thread, thread.name = name ∧ text = thread.text ++ rest) ∧ Solid rest := by
  constructor
  · intro taken
    unfold takeThread? at taken
    split at taken
    next text =>
      dsimp only at taken
      split at taken
      next => cases taken
      next some =>
        simp only [Option.map_eq_some_iff, Prod.mk.injEq] at taken
        obtain ⟨_, dropped, rfl, rfl⟩ := taken
        obtain ⟨⟨gap, spaced⟩, solid⟩ := dropBlanks?_eq_some.1 dropped
        have free : ']' ∉ text.takeWhile (· != ']') := fun member => by
          simpa using List.mem_takeWhile_imp member
        refine ⟨⟨⟨text.takeWhile (· != ']'), gap, by simpa using some, free⟩, rfl, ?_⟩, solid⟩
        have behind : text.drop ((text.takeWhile (· != ']')).length + 1) ≠ [] := by
          simp [spaced, gap.nonempty]
        have whole := bracket_of_drop behind
        rw [spaced] at whole
        simpa [Thread.text] using whole
    next => cases taken
  · rintro ⟨⟨⟨name, gap, some, free⟩, rfl, rfl⟩, solid⟩
    have inside : ∀ c ∈ name, (c != ']') = true := by
      intro c member
      simp only [bne_iff_ne, ne_eq]
      rintro rfl
      exact free member
    have front : (name ++ ']' :: (gap.text ++ rest)).takeWhile (· != ']') = name :=
      Text.takeWhile_append_stop inside (by simp)
    have behind : (name ++ ']' :: (gap.text ++ rest)).drop (name.length + 1) = gap.text ++ rest := by
      simp [← List.drop_drop]
    simp only [Thread.text, List.cons_append, List.append_assoc, takeThread?, front, behind,
      dropBlanks?_eq_some.2 ⟨⟨gap, rfl⟩, solid⟩, Option.map_some]
    exact if_neg (by simpa using some)

end LogCensus.Format.Application
