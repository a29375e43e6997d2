import LogCensus.Json.Scalar
import LogCensus.Proofs.Text.Numeral

/-!
Numerals of JSON texts. A numeral in front of a text that does not go on with it is taken as it
stands, and of its digits as many are read as fit a word.
-/

namespace LogCensus.Json

open Text (isDigit digitsValue isMinus signText)

/-- A numeral without its sign: the digits in front, those behind the point, and the scale, `true`
for one below zero. -/
structure Numeral where
  whole : List Char
  places : Option (List Char)
  scale : Option (Bool × List Char)

namespace Numeral

def placesText : Option (List Char) → List Char
  | none => []
  | some digits => '.' :: digits

def scaleText : Option (Bool × List Char) → List Char
  | none => []
  | some (down, digits) => 'e' :: (if down then '-' else '+') :: digits

def text (numeral : Numeral) : List Char :=
  numeral.whole ++ placesText numeral.places ++ scaleText numeral.scale

def Digits (digits : List Char) : Prop := digits ≠ [] ∧ ∀ c ∈ digits, isDigit c = true

def Whole (digits : List Char) : Prop :=
  digits = ['0'] ∨ (Digits digits ∧ digits.head? ≠ some '0')

structure WellFormed (numeral : Numeral) : Prop where
  whole : Whole numeral.whole
  places : ∀ digits ∈ numeral.places, Digits digits
  scale : ∀ part ∈ numeral.scale, Digits part.2

theorem Whole.digits {digits : List Char} (whole : Whole digits) : Digits digits := by
  rcases whole with rfl | ⟨digits, -⟩
  · exact ⟨by simp, by simp [isDigit]⟩
  · exact digits

theorem exists_head {numeral : Numeral} (formed : numeral.WellFormed) :
    ∃ c rest, numeral.text = c :: rest ∧ isDigit c = true := by
  obtain ⟨some, all⟩ := formed.whole.digits
  cases digits : numeral.whole with
  | nil => exact absurd digits some
  | cons c rest =>
    refine ⟨c, rest ++ placesText numeral.places ++ scaleText numeral.scale, ?_, ?_⟩
    · rw [text, digits, List.cons_append, List.cons_append]
    · exact all c (digits ▸ List.mem_cons_self)

end Numeral

def EndsNumeral (rest : List Char) : Prop :=
  ∀ c ∈ rest.head?, isDigit c = false ∧ c ≠ '.' ∧ isScaleMark c = false

/-! ### Taking a numeral -/

theorem next_ahead {cursor : Cursor} {c : Char} {rest : List Char}
    (ahead : cursor.ahead = c :: rest) : cursor.next.ahead = rest := by
  unfold Cursor.next
  rw [ahead]

theorem wholePart_digits {cursor : Cursor} {digits rest : List Char} (whole : Numeral.Whole digits)
    (stop : ∀ c ∈ rest.head?, isDigit c = false) (ahead : cursor.ahead = digits ++ rest) :
    ∃ behind, wholePart cursor = .ok (digits, behind) ∧ behind.ahead = rest := by
  rcases whole with rfl | ⟨⟨some, all⟩, noZero⟩
  · refine ⟨cursor.next, ?_, next_ahead ahead⟩
    rw [List.singleton_append] at ahead
    unfold wholePart
    rw [ahead]
    cases rest with
    | nil => rfl
    | cons c rest => simp [stop c rfl]
  · refine ⟨cursor.skipWhile isDigit, ?_, ?_⟩
    · cases digits with
      | nil => exact absurd rfl some
      | cons c digits =>
        have digit := all c List.mem_cons_self
        have taken := Text.takeWhile_append_stop all stop
        unfold wholePart
        rw [ahead] at *
        split
        · next nothing => cases nothing
        · next zero =>
          cases zero
          exact absurd rfl noZero
        · next front _ _ same =>
          cases same
          rw [if_pos digit, taken]
    · rw [Cursor.skipWhile, ahead]
      exact Text.dropWhile_append_stop all stop

theorem placesPart_digits {cursor : Cursor} {places : Option (List Char)} {rest : List Char}
    (formed : ∀ digits ∈ places, Numeral.Digits digits)
    (stop : ∀ c ∈ rest.head?, isDigit c = false ∧ c ≠ '.')
    (ahead : cursor.ahead = Numeral.placesText places ++ rest) :
    ∃ behind, placesPart cursor = .ok (places, behind) ∧ behind.ahead = rest := by
  cases places with
  | none =>
    refine ⟨cursor, ?_, ahead⟩
    rw [Numeral.placesText, List.nil_append] at ahead
    unfold placesPart
    rw [ahead]
    split
    · exact absurd rfl (stop '.' rfl).2
    · rfl
  | some digits =>
    obtain ⟨some, all⟩ := formed digits rfl
    have behind := next_ahead ahead
    refine ⟨cursor.next.skipWhile isDigit, ?_, ?_⟩
    · cases digits with
      | nil => exact absurd rfl some
      | cons c digits =>
        have taken := Text.takeWhile_append_stop all fun c first => (stop c first).1
        rw [Numeral.placesText, List.cons_append] at ahead
        unfold placesPart
        rw [ahead]
        simp only [behind, List.append_eq, List.cons_append, all c List.mem_cons_self, if_true] at taken ⊢
        rw [taken]
    · rw [Cursor.skipWhile, behind]
      exact Text.dropWhile_append_stop all fun c first => (stop c first).1

def scaleSign (signed : Cursor) : Bool × Cursor :=
  match signed.ahead with
  | '-' :: _ => (true, signed.next)
  | '+' :: _ => (false, signed.next)
  | _ => (false, signed)

theorem scaleSign_text {signed : Cursor} {sign : Option Bool} {text : List Char}
    (unsigned : ∀ c ∈ text.head?, c ≠ '-' ∧ c ≠ '+') (ahead : signed.ahead = signText sign ++ text) :
    ∃ start, scaleSign signed = (isMinus sign, start) ∧ start.ahead = text := by
  rcases sign with _ | _ | _
  · refine ⟨signed, ?_, ahead⟩
    rw [scaleSign, ahead, signText, List.nil_append]
    split
    · exact absurd rfl (unsigned '-' rfl).1
    · exact absurd rfl (unsigned '+' rfl).2
    · rfl
  all_goals
    refine ⟨signed.next, ?_, next_ahead ahead⟩
    rw [scaleSign, ahead]
    rfl

theorem scalePart_step {cursor : Cursor} {mark : Char} {rest : List Char}
    (ahead : cursor.ahead = mark :: rest) (known : isScaleMark mark = true) :
    scalePart cursor =
      match (scaleSign cursor.next).2.ahead with
      | [] => .error (.ended ((scaleSign cursor.next).2.faultHere .endInValue))
      | c :: _ =>
        if isDigit c then
          .ok (some ((scaleSign cursor.next).1,
            (scaleSign cursor.next).2.ahead.takeWhile isDigit), (scaleSign cursor.next).2,
              (scaleSign cursor.next).2.skipWhile isDigit)
        else .error (.other ⟨.invalidNumber, (scaleSign cursor.next).2.offset + 1⟩) := by
  unfold scalePart
  rw [ahead]
  simp only [known, if_true]
  rfl

theorem scalePart_written {cursor : Cursor} {mark : Char} (sign : Option Bool)
    {digits rest : List Char} (known : isScaleMark mark = true) (formed : Numeral.Digits digits)
    (stop : EndsNumeral rest) (ahead : cursor.ahead = mark :: (signText sign ++ (digits ++ rest))) :
    ∃ start behind, scalePart cursor = .ok (some (isMinus sign, digits), start, behind) ∧
      behind.ahead = rest := by
  obtain ⟨some, all⟩ := formed
  have taken := Text.takeWhile_append_stop all fun c first => (stop c first).1
  have left := Text.dropWhile_append_stop all fun c first => (stop c first).1
  obtain ⟨c, more, rfl⟩ := List.exists_cons_of_ne_nil some
  have digit := all c List.mem_cons_self
  have unsigned : ∀ front ∈ (c :: more ++ rest).head?, front ≠ '-' ∧ front ≠ '+' := by
    rintro front ⟨⟩
    exact Text.unsigned_of_isDigit digit
  obtain ⟨start, signed, start_ahead⟩ := scaleSign_text unsigned (next_ahead ahead)
  refine ⟨start, start.skipWhile isDigit, ?_, ?_⟩
  · rw [scalePart_step ahead known, signed]
    simp only [start_ahead, List.cons_append, digit, if_true] at taken ⊢
    rw [taken]
  · rw [Cursor.skipWhile, start_ahead]
    exact left

theorem scalePart_none {cursor : Cursor} (stop : EndsNumeral cursor.ahead) :
    scalePart cursor = .ok (none, cursor, cursor) := by
  unfold scalePart
  split
  · next c rest ahead => rw [if_neg (Bool.eq_false_iff.1 (stop c (by rw [ahead]; rfl)).2.2)]
  · rfl

theorem scalePart_digits {cursor : Cursor} {scale : Option (Bool × List Char)} {rest : List Char}
    (formed : ∀ part ∈ scale, Numeral.Digits part.2) (stop : EndsNumeral rest)
    (ahead : cursor.ahead = Numeral.scaleText scale ++ rest) :
    ∃ start behind, scalePart cursor = .ok (scale, start, behind) ∧ behind.ahead = rest := by
  cases scale with
  | none => exact ⟨cursor, cursor, scalePart_none (ahead ▸ stop), ahead⟩
  | some part =>
    obtain ⟨down, digits⟩ := part
    have digitsFormed := formed (down, digits) rfl
    have mark : isScaleMark 'e' = true := rfl
    cases down with
    | true => exact scalePart_written (some true) mark digitsFormed stop ahead
    | false => exact scalePart_written (some false) mark digitsFormed stop ahead

/-- A numeral is taken whole if its scale is, and the text behind it is left. -/
theorem takeLexeme_parts {cursor : Cursor} {whole scaled rest : List Char}
    {places : Option (List Char)} {scale : Option (Bool × List Char)}
    (wholeFormed : Numeral.Whole whole) (placesFormed : ∀ digits ∈ places, Numeral.Digits digits)
    (scaleStop : ∀ c ∈ (scaled ++ rest).head?, isDigit c = false ∧ c ≠ '.')
    (scaleTaken : ∀ start : Cursor, start.ahead = scaled ++ rest →
      ∃ digits behind, scalePart start = .ok (scale, digits, behind) ∧ behind.ahead = rest)
    (ahead : cursor.ahead = whole ++ (Numeral.placesText places ++ (scaled ++ rest))) :
    ∃ lexeme, takeLexeme cursor = .ok lexeme ∧ lexeme.whole = whole ∧ lexeme.places = places ∧
      lexeme.scale = scale ∧ lexeme.stop.ahead = rest := by
  have placesStop : ∀ c ∈ (Numeral.placesText places ++ (scaled ++ rest)).head?,
      isDigit c = false := by
    intro c first
    cases places with
    | none => exact (scaleStop c first).1
    | some digits =>
      cases first
      decide
  obtain ⟨behind, whole_eq, behind_ahead⟩ := wholePart_digits wholeFormed placesStop ahead
  obtain ⟨later, places_eq, later_ahead⟩ := placesPart_digits placesFormed scaleStop behind_ahead
  obtain ⟨start, last, scale_eq, last_ahead⟩ := scaleTaken later later_ahead
  refine ⟨⟨whole, places, scale, start, last⟩, ?_, rfl, rfl, rfl, last_ahead⟩
  rw [takeLexeme, whole_eq]
  simp only [bind, Except.bind, places_eq, scale_eq]

theorem takeLexeme_text {cursor : Cursor} {numeral : Numeral} {rest : List Char}
    (formed : numeral.WellFormed) (stop : EndsNumeral rest)
    (ahead : cursor.ahead = numeral.text ++ rest) :
    ∃ lexeme, takeLexeme cursor = .ok lexeme ∧ lexeme.whole = numeral.whole ∧
      lexeme.places = numeral.places ∧ lexeme.scale = numeral.scale ∧ lexeme.stop.ahead = rest := by
  rw [Numeral.text, List.append_assoc, List.append_assoc] at ahead
  refine takeLexeme_parts formed.whole formed.places (fun c first => ?_)
    (fun start => scalePart_digits formed.scale stop) ahead
  cases scale : numeral.scale with
  | none =>
    rw [scale] at first
    exact ⟨(stop c first).1, (stop c first).2.1⟩
  | some part =>
    rw [scale] at first
    cases first
    decide

/-! ### Digits that fit -/

/-- As many digits are read as are counted. -/
theorem fitDigits_spec (value : Nat) (digits : List Char) :
    (fitDigits value digits).2.1 ≤ digits.length ∧
      (fitDigits value digits).1 = value * 10 ^ (fitDigits value digits).2.1
        + digitsValue (digits.take (fitDigits value digits).2.1) := by
  induction digits generalizing value with
  | nil => simp [fitDigits, digitsValue]
  | cons c digits ih =>
    unfold fitDigits
    simp only
    split_ifs with full
    · simp [digitsValue]
    · obtain ⟨count, number⟩ := ih (value * 10 + Text.digitValue c)
      refine ⟨Nat.succ_le_succ count, ?_⟩
      rw [number, List.take_succ_cons, Text.digitsValue_cons, List.length_take, Nat.min_eq_left count,
        pow_succ]
      ring

theorem fitDigits_le {value : Nat} (fits : value ≤ greatestWord) (digits : List Char) :
    (fitDigits value digits).1 ≤ greatestWord := by
  induction digits generalizing value with
  | nil => exact fits
  | cons c digits ih =>
    rw [fitDigits]
    simp only
    split_ifs with full
    · exact fits
    · exact ih (not_lt.1 full)

/-- Digits of a number that fits a word are read to the last. -/
theorem fitDigits_all {value : Nat} {digits : List Char}
    (fits : value * 10 ^ digits.length + digitsValue digits ≤ greatestWord) :
    fitDigits value digits = (value * 10 ^ digits.length + digitsValue digits, digits.length, []) := by
  induction digits generalizing value with
  | nil => simp [fitDigits, digitsValue]
  | cons c digits ih =>
    rw [Text.shifted_digitsValue_cons] at fits ⊢
    have room : value * 10 + Text.digitValue c ≤ greatestWord := by
      refine le_trans ?_ fits
      exact (Nat.le_mul_of_pos_right _ (by positivity)).trans (Nat.le_add_right _ _)
    rw [fitDigits]
    simp only [if_neg (not_lt.2 room), ih fits, List.length_cons]

theorem fitDigits_word {digits : List Char} (fits : digitsValue digits ≤ greatestWord) :
    fitDigits 0 digits = (digitsValue digits, digits.length, []) := by
  have all := fitDigits_all (show 0 * 10 ^ digits.length + digitsValue digits ≤ greatestWord by
    rwa [Nat.zero_mul, Nat.zero_add])
  rwa [Nat.zero_mul, Nat.zero_add] at all

theorem overflowAt?_none {value count : Nat} {digits : List Char}
    (fits : value * 10 ^ digits.length + digitsValue digits ≤ greatestScale) :
    overflowAt? value count digits = none := by
  induction digits generalizing value count with
  | nil => rfl
  | cons c digits ih =>
    rw [Text.shifted_digitsValue_cons] at fits
    have room : value * 10 + Text.digitValue c ≤ greatestScale := by
      refine le_trans ?_ fits
      exact (Nat.le_mul_of_pos_right _ (by positivity)).trans (Nat.le_add_right _ _)
    rw [overflowAt?]
    simp only [if_neg (not_lt.2 room), ih fits]

end LogCensus.Json
