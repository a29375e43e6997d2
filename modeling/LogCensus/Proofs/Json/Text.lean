import LogCensus.Json.Print
import LogCensus.Json.Scalar
import LogCensus.Proofs.Text.Numeral

/-!
The text of a string reads back: escapes stand for the characters they were made of, and all other
characters stand for themselves.
-/

namespace LogCensus.Json

/-! ### Texts of pieces -/

/-- The pieces make the text, and none of them stops the writing. -/
def Writes (pieces : List Piece) (text : List Char) : Prop := textOfPieces? pieces = some text

theorem writes_nil : Writes [] [] := rfl

theorem Writes.cons {pieces : List Piece} {text : List Char} (writes : Writes pieces text)
    (front : List Char) : Writes (.text front :: pieces) (front ++ text) := by
  rw [Writes, textOfPieces?, writes]
  rfl

theorem Writes.append {pieces more : List Piece} {text behind : List Char}
    (writes : Writes pieces text) (later : Writes more behind) :
    Writes (pieces ++ more) (text ++ behind) := by
  induction pieces generalizing text with
  | nil =>
    cases writes
    exact later
  | cons piece pieces ih =>
    cases piece with
    | stop => cases writes
    | text front =>
      obtain ⟨rest, written, rfl⟩ := Option.map_eq_some_iff.1 writes
      rw [List.cons_append, List.append_assoc]
      exact (ih written).cons front

theorem writes_replicate (count : Nat) (front : List Char) :
    Writes (List.replicate count (.text front)) (List.replicate count front).flatten := by
  induction count with
  | zero => rfl
  | succ count ih => exact ih.cons front

/-! ### Strings -/

def escaped (c : Char) : List Char := (escape? c).getD [c]

theorem writes_runPiece (run : List Char) : Writes (runPiece run) run.reverse := by
  cases run with
  | nil => rfl
  | cons c run =>
    have piece := writes_nil.cons (c :: run).reverse
    rwa [List.append_nil] at piece

theorem writes_stringPieces (run text : List Char) :
    Writes (stringPieces run text) (run.reverse ++ text.flatMap escaped) := by
  induction text generalizing run with
  | nil =>
    rw [List.flatMap_nil, List.append_nil]
    exact writes_runPiece run
  | cons c text ih =>
    rw [stringPieces, List.flatMap_cons, escaped]
    cases found : escape? c with
    | some meant => exact (writes_runPiece run).append ((ih []).cons meant)
    | none => simpa using ih (c :: run)

def quotedText (text : String) : List Char := '"' :: text.toList.flatMap escaped ++ ['"']

theorem writes_quotedPieces (text : String) : Writes (quotedPieces text) (quotedText text) :=
  ((writes_stringPieces [] text.toList).cons ['"']).append (writes_nil.cons ['"'])

/-! ### Reading a string -/

theorem hexValue?_hexDigit : ∀ value < 16, hexValue? (hexDigit value) = some value := by
  decide

theorem hexQuad?_control {code : Nat} (control : code < 32) (rest : List Char) :
    hexQuad? ('0' :: '0' :: hexDigit (code / 16) :: hexDigit (code % 16) :: rest) = some code := by
  have zero : hexValue? '0' = some 0 := by decide
  have high := hexValue?_hexDigit (code / 16) (by omega)
  have low := hexValue?_hexDigit (code % 16) (by omega)
  simp only [hexQuad?, zero, high, low, Option.bind_eq_bind, Option.bind_some, Option.some.injEq]
  omega

theorem readString_plain {c : Char} (quote : c ≠ '"') (backslash : c ≠ '\\')
    (visible : ¬ c.toNat < 32) (rest : List Char) (offset : Nat) :
    readString (c :: rest) offset = consChar c (readString rest (offset + c.utf8Size)) := by
  rw [readString, if_neg visible]
  · exact fun same => quote same
  · exact fun same _ => backslash same
  · exact fun _ same _ => backslash same
  · exact fun _ _ same _ => backslash same

/-- An escape of four digits stands for a character outside the surrogates. -/
theorem readString_escape {a b c d : Char} {rest : List Char} {code : Nat}
    (quad : hexQuad? (a :: b :: c :: d :: rest) = some code) (trailing : isTrailing code = false)
    (leading : isLeading code = false) (offset : Nat) :
    readString ('\\' :: 'u' :: a :: b :: c :: d :: rest) offset =
      consChar (Char.ofNat code) (readString rest (offset + 6)) := by
  rw [readString.eq_def]
  simp only [quad, trailing, leading, Bool.false_eq_true, if_false]

theorem readString_escaped (c : Char) (rest : List Char) (offset : Nat) :
    ∃ behind, readString (escaped c ++ rest) offset = consChar c (readString rest behind) := by
  have ofCode : ∀ code, c.toNat = code → c = Char.ofNat code := by
    rintro code rfl
    exact (Char.ofNat_toNat c).symm
  unfold escaped escape?
  split_ifs with quote backslash backspace tab feed formFeed carriage control
  · exact ⟨offset + 2, by simp [readString, simpleEscape?, quote]⟩
  · exact ⟨offset + 2, by simp [readString, simpleEscape?, backslash]⟩
  · exact ⟨offset + 2, by rw [ofCode 8 backspace]; simp [readString, simpleEscape?]⟩
  · exact ⟨offset + 2, by rw [ofCode 9 tab]; simp [readString, simpleEscape?]⟩
  · exact ⟨offset + 2, by rw [ofCode 10 feed]; simp [readString, simpleEscape?]⟩
  · exact ⟨offset + 2, by rw [ofCode 12 formFeed]; simp [readString, simpleEscape?]⟩
  · exact ⟨offset + 2, by rw [ofCode 13 carriage]; simp [readString, simpleEscape?]⟩
  · have quad := hexQuad?_control control rest
    have trailing : isTrailing c.toNat = false := by
      simp only [isTrailing, Bool.and_eq_false_iff, decide_eq_false_iff_not]
      omega
    have leading : isLeading c.toNat = false := by
      simp only [isLeading, Bool.and_eq_false_iff, decide_eq_false_iff_not]
      omega
    refine ⟨offset + 6, (readString_escape quad trailing leading offset).trans ?_⟩
    rw [Char.ofNat_toNat]
  · exact ⟨offset + c.utf8Size, readString_plain quote backslash control rest offset⟩

theorem readString_quotedText (text : List Char) (rest : List Char) (offset : Nat) :
    ∃ behind, readString (text.flatMap escaped ++ '"' :: rest) offset =
      .ok (text, ⟨rest, behind⟩) := by
  induction text generalizing offset with
  | nil => exact ⟨offset + 1, by simp [readString]⟩
  | cons c text ih =>
    obtain ⟨behind, first⟩ := readString_escaped c (text.flatMap escaped ++ '"' :: rest) offset
    obtain ⟨last, later⟩ := ih behind
    refine ⟨last, ?_⟩
    rw [List.flatMap_cons, List.append_assoc, first, later]
    rfl

end LogCensus.Json
