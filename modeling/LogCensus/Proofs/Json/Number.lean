import LogCensus.Json.Node
import LogCensus.Proofs.Json.Real

/-!
The text of a number reads back: a whole number as it is, and a finite double as some double.
-/

namespace LogCensus.Json

open Text (isDigit digitsValue)

namespace Number

/-- The numbers whose text reads back: words, what is no less than the least signed word, and
finite doubles. -/
def Readable : Number → Prop
  | natural _ => True
  | negative value => -0x8000000000000000 ≤ value ∧ value < 0
  | real value => value.IsFinite

/-- What the text of a number is read as: a double may come back as another one. -/
def ReadAs : Number → Number → Prop
  | real _, read => ∃ value, read = .real value
  | written, read => read = written

end Number

theorem takeNumber_text {numeral : Numeral} (formed : numeral.WellFormed) {rest : List Char}
    (stop : EndsNumeral rest) (minus : Bool) {cursor : Cursor}
    (ahead : cursor.ahead = (if minus then ['-'] else []) ++ numeral.text ++ rest) :
    ∃ lexeme, takeNumber cursor = (minus, .ok lexeme) ∧ lexeme.whole = numeral.whole ∧
      lexeme.places = numeral.places ∧ lexeme.scale = numeral.scale ∧ lexeme.stop.ahead = rest := by
  cases minus with
  | true =>
    obtain ⟨lexeme, taken, parts⟩ := takeLexeme_text formed stop (next_ahead ahead)
    refine ⟨lexeme, ?_, parts⟩
    simp only [if_true, List.cons_append] at ahead
    simp only [takeNumber, ahead, taken]
  | false =>
    simp only [Bool.false_eq_true, if_false, List.nil_append] at ahead
    obtain ⟨lexeme, taken, parts⟩ := takeLexeme_text formed stop ahead
    refine ⟨lexeme, ?_, parts⟩
    obtain ⟨c, text, shown, digit⟩ := Numeral.exists_head formed
    rw [shown, List.cons_append] at ahead
    unfold takeNumber
    rw [ahead]
    split
    · next same =>
      cases same
      cases digit
    · rw [taken]

def wholeNumeral (value : Nat) : Numeral := ⟨Text.digits value, none, none⟩

theorem wellFormed_wholeNumeral (value : Nat) : (wholeNumeral value).WellFormed := by
  refine ⟨?_, by simp [wholeNumeral], by simp [wholeNumeral]⟩
  rcases Nat.eq_zero_or_pos value with rfl | positive
  · exact .inl Text.digits_zero
  · have digits := whole_take_digits positive (Text.digitCount_pos value)
    rwa [← Text.length_digits, List.take_length] at digits

theorem Lexeme.value_whole {lexeme : Lexeme} {value : Nat} (fits : value ≤ greatestWord)
    (whole : lexeme.whole = Text.digits value) (places : lexeme.places = none)
    (scale : lexeme.scale = none) (minus : Bool) :
    lexeme.value minus = .ok (wholeNumber minus value) := by
  have all := fitDigits_word ((Text.digitsValue_digits value).trans_le fits)
  rw [Text.digitsValue_digits] at all
  simp [Lexeme.value, whole, places, scale, all]

structure IsNumeral (number : Number) (minus : Bool) (numeral : Numeral) : Prop where
  formed : numeral.WellFormed
  text : number.text = (if minus then ['-'] else []) ++ numeral.text
  value : ∀ lexeme : Lexeme, lexeme.whole = numeral.whole → lexeme.places = numeral.places →
    lexeme.scale = numeral.scale → ∃ read, number.ReadAs read ∧ lexeme.value minus = .ok read

theorem wholeNumeral_text (value : Nat) : (wholeNumeral value).text = Text.digits value := by
  simp [wholeNumeral, Numeral.text, Numeral.placesText, Numeral.scaleText]

theorem exists_isNumeral {number : Number} (readable : number.Readable) :
    ∃ minus numeral, IsNumeral number minus numeral := by
  cases number with
  | natural value =>
    refine ⟨false, _, wellFormed_wholeNumeral value.toNat, (wholeNumeral_text _).symm, ?_⟩
    intro lexeme whole places scale
    have fits : value.toNat ≤ greatestWord := Nat.le_of_lt_succ value.toNat_lt
    have word : value.toNat.toUInt64 = value := UInt64.ofNat_toNat
    refine ⟨_, rfl, ?_⟩
    rw [lexeme.value_whole fits whole places scale, wholeNumber, if_neg Bool.false_ne_true, word]
  | negative value =>
    obtain ⟨least, below⟩ := readable
    refine ⟨true, _, wellFormed_wholeNumeral value.natAbs, ?_, ?_⟩
    · rw [wholeNumeral_text]
      rfl
    · intro lexeme whole places scale
      have fits : value.natAbs ≤ greatestWord := by rw [greatestWord]; omega
      have size : -(value.natAbs : Int) = value := by omega
      refine ⟨_, rfl, ?_⟩
      rw [lexeme.value_whole fits whole places scale, wholeNumber, if_pos rfl, if_neg (by omega), size]
  | real value =>
    cases value with
    | nan => exact readable.elim
    | infinity minus => exact readable.elim
    | finite minus mantissa exponent =>
      obtain ⟨small, -, most⟩ := readable
      obtain ⟨numeral, real, text⟩ : ∃ numeral : Numeral, numeral.IsReal ∧
          realText minus mantissa exponent = (if minus then ['-'] else []) ++ numeral.text := by
        by_cases zero : mantissa = 0
        · refine ⟨⟨['0'], some ['0'], none⟩, isReal_positional (.inl rfl) (by decide)
            ⟨by simp, by simp [isDigit]⟩, ?_⟩
          rw [realText, if_pos zero]
          rfl
        · exact ⟨_, isReal_decimalNumeral
            (readsFinite_shortest (Nat.pos_of_ne_zero zero) small most), realText_eq minus zero _⟩
      refine ⟨minus, numeral, real.formed, text, fun lexeme whole places scale => ?_⟩
      obtain ⟨size, read⟩ := lexeme.value_real real whole places scale minus
      exact ⟨.real size, ⟨size, rfl⟩, read⟩

theorem numberNode_text {number : Number} (readable : number.Readable) {rest : List Char}
    (stop : EndsNumeral rest) (offset : Nat) :
    ∃ read behind, number.ReadAs read ∧ numberNode ⟨number.text ++ rest, offset⟩ =
      (.scalar (.ok (.number read)) behind, some ⟨rest, behind⟩) := by
  obtain ⟨minus, numeral, formed, text, value⟩ := exists_isNumeral readable
  obtain ⟨cursor, cursor_eq⟩ : ∃ cursor : Cursor, cursor = ⟨number.text ++ rest, offset⟩ :=
    ⟨_, rfl⟩
  have ahead : cursor.ahead = (if minus then ['-'] else []) ++ numeral.text ++ rest := by
    rw [cursor_eq, text]
  obtain ⟨lexeme, taken, whole, places, scale, left⟩ := takeNumber_text formed stop minus ahead
  obtain ⟨read, same, valued⟩ := value lexeme whole places scale
  refine ⟨read, lexeme.stop.offset, same, ?_⟩
  rw [← cursor_eq, numberNode, taken]
  simp only [valued, Except.map, ← left]

theorem Number.exists_head {number : Number} (readable : number.Readable) :
    ∃ c rest, number.text = c :: rest ∧ (c = '-' ∨ isDigit c = true) := by
  obtain ⟨minus, numeral, formed, text, -⟩ := exists_isNumeral readable
  cases minus with
  | true => exact ⟨'-', numeral.text, text, .inl rfl⟩
  | false =>
    obtain ⟨c, rest, shown, digit⟩ := Numeral.exists_head formed
    exact ⟨c, rest, text.trans shown, .inr digit⟩

end LogCensus.Json
