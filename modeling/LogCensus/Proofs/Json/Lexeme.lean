import LogCensus.Proofs.Decimal.Numeral
import LogCensus.Proofs.Json.Number

/-!
The numbers of JSON texts are numerals of a narrower form. A reader of numbers takes exactly these
from the front of a text, and which number it makes of one depends on its digits only.
-/

namespace LogCensus.Json

open Binary64 (Scale scaleText)
open Text (isDigit isMinus signText)

/-- The numerals that are numbers of JSON texts: no plus in front, no zero in front of other digits,
and digits on both sides of a point. -/
structure IsJson (numeral : Binary64.Numeral) : Prop where
  sign : numeral.sign ≠ some false
  whole : Numeral.Whole numeral.whole
  places : ∀ digits ∈ numeral.places, digits ≠ []

def scaleParts (scale : Option Scale) : Option (Bool × List Char) :=
  scale.map fun scale => (isMinus scale.sign, scale.digits)

structure Lexeme.Shows (lexeme : Lexeme) (numeral : Binary64.Numeral) : Prop where
  whole : lexeme.whole = numeral.whole
  places : lexeme.places = numeral.places
  scale : lexeme.scale = scaleParts numeral.scale

/-! ### Numerals are taken whole -/

theorem scalePart_scaleText {cursor : Cursor} {scale : Option Scale} {rest : List Char}
    (stop : EndsNumeral rest) (ahead : cursor.ahead = scaleText scale ++ rest) :
    ∃ start behind, scalePart cursor = .ok (scaleParts scale, start, behind) ∧
      behind.ahead = rest := by
  cases scale with
  | none => exact ⟨cursor, cursor, scalePart_none (ahead ▸ stop), ahead⟩
  | some scale =>
    have mark : isScaleMark scale.mark = true := by
      rcases scale.known with same | same <;> rw [same] <;> rfl
    refine scalePart_written scale.sign mark scale.formed stop (ahead.trans ?_)
    rw [← List.append_assoc]
    rfl

theorem takeLexeme_body {numeral : Binary64.Numeral} (formed : IsJson numeral)
    {rest : List Char} (stop : EndsNumeral rest) {start : Cursor}
    (ahead : start.ahead = numeral.body ++ rest) :
    ∃ lexeme, takeLexeme start = .ok lexeme ∧ lexeme.Shows numeral ∧ lexeme.stop.ahead = rest := by
  have scaleStop : ∀ c ∈ (scaleText numeral.scale ++ rest).head?, isDigit c = false ∧ c ≠ '.' := by
    intro c first
    cases scale : numeral.scale with
    | none =>
      rw [scale] at first
      exact ⟨(stop c first).1, (stop c first).2.1⟩
    | some written =>
      rw [scale] at first
      cases first
      rcases written.known with same | same <;> rw [same] <;> decide
  rw [Binary64.Numeral.body, List.append_assoc, List.append_assoc] at ahead
  obtain ⟨lexeme, found, whole, places, scale, left⟩ := takeLexeme_parts formed.whole
    (fun digits member => ⟨formed.places digits member, numeral.places_all digits member⟩)
    scaleStop (fun start => scalePart_scaleText stop) ahead
  exact ⟨lexeme, found, ⟨whole, places, scale⟩, left⟩

theorem takeNumber_numeral {numeral : Binary64.Numeral} (formed : IsJson numeral)
    {rest : List Char} (stop : EndsNumeral rest) (cursor : Cursor)
    (ahead : cursor.ahead = numeral.text ++ rest) :
    ∃ lexeme, takeNumber cursor = (isMinus numeral.sign, .ok lexeme) ∧ lexeme.Shows numeral ∧
      lexeme.stop.ahead = rest := by
  rw [Binary64.Numeral.text, List.append_assoc] at ahead
  cases sign : numeral.sign with
  | none =>
    rw [sign, signText, List.nil_append] at ahead
    obtain ⟨lexeme, found, shows⟩ := takeLexeme_body formed stop ahead
    refine ⟨lexeme, ?_, shows⟩
    have unsigned : ∀ tail, cursor.ahead ≠ '-' :: tail := by
      intro tail minus
      have front := numeral.body_unsigned
      obtain ⟨c, body, shown, -⟩ := numeral.exists_body_head
      rw [shown] at front ahead
      rw [minus] at ahead
      cases ahead
      exact (front '-' rfl).1 rfl
    unfold takeNumber
    split
    · next same => exact absurd same (unsigned _)
    · rw [found]
      rfl
  | some minus =>
    cases minus with
    | false => exact absurd sign formed.sign
    | true =>
      rw [sign] at ahead
      obtain ⟨lexeme, found, shows⟩ := takeLexeme_body formed stop (next_ahead ahead)
      refine ⟨lexeme, ?_, shows⟩
      unfold takeNumber
      rw [ahead]
      simp only [signText, List.cons_append, found]
      rfl

/-! ### What is taken is a numeral -/

theorem takeWhile_skipWhile (cursor : Cursor) (test : Char → Bool) :
    cursor.ahead = cursor.ahead.takeWhile test ++ (cursor.skipWhile test).ahead :=
  List.takeWhile_append_dropWhile.symm

theorem digits_takeWhile {c : Char} {rest : List Char} (digit : isDigit c = true) :
    Numeral.Digits ((c :: rest).takeWhile isDigit) := by
  refine ⟨?_, fun other => List.mem_takeWhile_imp⟩
  rw [List.takeWhile_cons, if_pos digit]
  nofun

theorem wholePart_ok {cursor behind : Cursor} {digits : List Char}
    (taken : wholePart cursor = .ok (digits, behind)) :
    Numeral.Whole digits ∧ cursor.ahead = digits ++ behind.ahead := by
  unfold wholePart at taken
  split at taken
  · cases taken
  · next rest ahead =>
    have behind_ahead := next_ahead ahead
    have single : digits = ['0'] ∧ behind = cursor.next := by
      split at taken
      · split at taken
        · cases taken
        · cases taken
          exact ⟨rfl, rfl⟩
      · cases taken
        exact ⟨rfl, rfl⟩
    obtain ⟨rfl, rfl⟩ := single
    exact ⟨.inl rfl, by rw [ahead, behind_ahead]; rfl⟩
  · next c rest noZero ahead =>
    split at taken
    · next digit =>
      cases taken
      refine ⟨.inr ⟨?_, ?_⟩, takeWhile_skipWhile cursor isDigit⟩
      · rw [ahead]
        exact digits_takeWhile digit
      · rw [ahead, List.takeWhile_cons, if_pos digit, List.head?_cons]
        intro zero
        cases zero
        exact noZero rfl
    · cases taken

theorem placesPart_ok {cursor behind : Cursor} {places : Option (List Char)}
    (taken : placesPart cursor = .ok (places, behind)) :
    (∀ digits ∈ places, Numeral.Digits digits) ∧
      cursor.ahead = Numeral.placesText places ++ behind.ahead := by
  unfold placesPart at taken
  split at taken
  · next rest ahead =>
    have start := next_ahead ahead
    simp only at taken
    split at taken
    · cases taken
    · next c more front =>
      split at taken
      · next digit =>
        cases taken
        refine ⟨?_, ?_⟩
        · rintro _ ⟨⟩
          rw [front]
          exact digits_takeWhile digit
        · rw [ahead, ← start]
          exact congrArg ('.' :: ·) (takeWhile_skipWhile cursor.next isDigit)
      · cases taken
  · cases taken
    exact ⟨nofun, rfl⟩

theorem exists_signText_scaleSign (signed : Cursor) :
    ∃ sign, (scaleSign signed).1 = isMinus sign ∧
      signed.ahead = signText sign ++ (scaleSign signed).2.ahead := by
  unfold scaleSign
  split
  · next ahead => exact ⟨some true, rfl, by rw [ahead, next_ahead ahead]; rfl⟩
  · next ahead => exact ⟨some false, rfl, by rw [ahead, next_ahead ahead]; rfl⟩
  · exact ⟨none, rfl, rfl⟩

theorem scalePart_ok {cursor start behind : Cursor} {scale : Option (Bool × List Char)}
    (taken : scalePart cursor = .ok (scale, start, behind)) :
    ∃ written, scale = scaleParts written ∧ cursor.ahead = scaleText written ++ behind.ahead := by
  by_cases marked : ∃ mark rest, cursor.ahead = mark :: rest ∧ isScaleMark mark = true
  · obtain ⟨mark, rest, ahead, known⟩ := marked
    rw [scalePart_step ahead known] at taken
    split at taken
    · cases taken
    · next c more front =>
      split at taken
      · next digit =>
        cases taken
        obtain ⟨sign, minus, signed⟩ := exists_signText_scaleSign cursor.next
        have mark_known : mark = 'e' ∨ mark = 'E' := by
          simpa only [isScaleMark, Bool.or_eq_true, beq_iff_eq] using known
        have digits : Numeral.Digits ((scaleSign cursor.next).2.ahead.takeWhile isDigit) := by
          rw [front]
          exact digits_takeWhile digit
        have shown := takeWhile_skipWhile (scaleSign cursor.next).2 isDigit
        refine ⟨some ⟨mark, sign, _, mark_known, digits⟩, by rw [minus]; rfl, ?_⟩
        refine (ahead.trans (congrArg (mark :: ·) ((next_ahead ahead).symm.trans
          (signed.trans (congrArg (signText sign ++ ·) shown))))).trans ?_
        rw [← List.append_assoc]
        rfl
      · cases taken
  · have stop : scalePart cursor = .ok (none, cursor, cursor) := by
      unfold scalePart
      split
      · next mark rest ahead =>
        rw [if_neg fun known => marked ⟨mark, rest, ahead, known⟩]
      · rfl
    rw [stop] at taken
    cases taken
    exact ⟨none, rfl, rfl⟩

/-- What is taken as a number is a numeral that stands in front. -/
theorem exists_numeral_of_takeNumber {cursor : Cursor} {negative : Bool} {lexeme : Lexeme}
    (taken : takeNumber cursor = (negative, .ok lexeme)) :
    ∃ numeral : Binary64.Numeral, IsJson numeral ∧ negative = isMinus numeral.sign ∧
      lexeme.Shows numeral ∧ cursor.ahead = numeral.text ++ lexeme.stop.ahead := by
  have parts : ∀ start : Cursor, takeLexeme start = .ok lexeme → ∀ sign, sign ≠ some false →
      ∃ numeral : Binary64.Numeral, IsJson numeral ∧ numeral.sign = sign ∧ lexeme.Shows numeral ∧
        start.ahead = numeral.body ++ lexeme.stop.ahead := by
    intro start found sign plus
    unfold takeLexeme at found
    simp only [bind, Except.bind] at found
    split at found
    · cases found
    · next whole wholeTaken =>
      obtain ⟨wholeFormed, wholeText⟩ := wholePart_ok wholeTaken
      split at found
      · cases found
      · next places placesTaken =>
        obtain ⟨placesFormed, placesText⟩ := placesPart_ok placesTaken
        split at found
        · cases found
        · next scale scaleTaken =>
          obtain ⟨written, scale_eq, scaleText⟩ := scalePart_ok scaleTaken
          cases found
          have digits := wholeFormed.digits
          refine ⟨⟨sign, whole.1, places.1, written, digits.2, fun part member =>
            (placesFormed part member).2, by simp [digits.1]⟩,
            ⟨plus, wholeFormed, fun part member => (placesFormed part member).1⟩, rfl,
            ⟨rfl, rfl, scale_eq⟩, ?_⟩
          rw [wholeText, placesText, scaleText, Binary64.Numeral.body, List.append_assoc,
            List.append_assoc]
  unfold takeNumber at taken
  split at taken
  · next rest ahead =>
    obtain ⟨rfl, found⟩ := Prod.mk.inj taken
    obtain ⟨numeral, formed, sign, shows, body⟩ := parts cursor.next found (some true) (by decide)
    refine ⟨numeral, formed, by rw [sign]; rfl, shows, ?_⟩
    rw [ahead, Binary64.Numeral.text, sign, ← next_ahead ahead, body]
    rfl
  · obtain ⟨rfl, found⟩ := Prod.mk.inj taken
    obtain ⟨numeral, formed, sign, shows, body⟩ := parts cursor found none (by decide)
    refine ⟨numeral, formed, by rw [sign]; rfl, shows, ?_⟩
    rw [body, Binary64.Numeral.text, sign]
    rfl

/-! ### The value of a numeral -/

/-- The value of a number depends on its parts only, not on where it stands. -/
theorem Lexeme.value_of_shows {lexeme other : Lexeme} {numeral : Binary64.Numeral}
    (shows : lexeme.Shows numeral) (same : other.Shows numeral) {negative : Bool} {number : Number}
    (value : lexeme.value negative = .ok number) : other.value negative = .ok number := by
  obtain ⟨whole, places, scale⟩ := shows
  obtain ⟨whole', places', scale'⟩ := same
  unfold Lexeme.value at value ⊢
  rw [whole, places, scale] at value
  rw [whole', places', scale']
  simp only at value ⊢
  split_ifs at value ⊢ with fits
  · exact value
  generalize scaleParts numeral.scale = parts at value ⊢
  cases parts with
  | none =>
    simp only at value ⊢
    split at value
    · exact value
    · cases value
  | some part =>
    simp only at value ⊢
    cases far : overflowAt? 0 0 part.2 with
    | none =>
      simp only [far] at value ⊢
      split at value
      · exact value
      · cases value
    | some count =>
      simp only [far] at value ⊢
      split_ifs at value ⊢
      exact value

end LogCensus.Json
