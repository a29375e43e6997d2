import LogCensus.Proofs.Json.Text

/-!
A string of a JSON text is read the same wherever it stands. What the reader takes is a closing
quote behind pieces that each stand for one character: the character itself, a letter behind a
backslash, or one or two escapes of four digits.
-/

namespace LogCensus.Json

def StandsFor (front : List Char) (c : Char) : Prop :=
  ∀ rest offset, ∃ behind, readString (front ++ rest) offset = consChar c (readString rest behind)

/-- The text is the inside of a string with its closing quote, whatever stands behind it. -/
def QuotedBody (front text : List Char) : Prop :=
  ∀ rest offset, ∃ behind, readString (front ++ rest) offset = .ok (text, ⟨rest, behind⟩)

theorem quotedBody_nil : QuotedBody ['"'] [] := fun _ offset => ⟨offset + 1, rfl⟩

theorem QuotedBody.cons {front behind text : List Char} {c : Char} (stands : StandsFor front c)
    (body : QuotedBody behind text) : QuotedBody (front ++ behind) (c :: text) := by
  intro rest offset
  obtain ⟨later, first⟩ := stands (behind ++ rest) offset
  obtain ⟨last, read⟩ := body rest later
  refine ⟨last, ?_⟩
  rw [List.append_assoc, first, read]
  rfl

theorem quotedBody_escaped (text : List Char) :
    QuotedBody (text.flatMap escaped ++ ['"']) text := by
  intro rest offset
  rw [List.append_assoc]
  exact readString_quotedText text rest offset

/-! ### Pieces -/

theorem standsFor_plain {c : Char} (quote : c ≠ '"') (backslash : c ≠ '\\')
    (visible : ¬ c.toNat < 32) : StandsFor [c] c := fun rest offset =>
  ⟨_, readString_plain quote backslash visible rest offset⟩

theorem standsFor_simple {c meant : Char} (known : simpleEscape? c = some meant) :
    StandsFor ['\\', c] meant := by
  intro rest offset
  refine ⟨offset + 2, ?_⟩
  have other : c ≠ 'u' := by
    rintro rfl
    cases known
  rw [List.cons_append, List.cons_append, List.nil_append, readString, known]
  exact other

/-- Four digits say the same whatever stands behind them. -/
theorem hexQuad?_four (a b c d : Char) (rest more : List Char) :
    hexQuad? (a :: b :: c :: d :: rest) = hexQuad? (a :: b :: c :: d :: more) := rfl

theorem standsFor_escape {a b c d : Char} {rest : List Char} {unit : Nat}
    (quad : hexQuad? (a :: b :: c :: d :: rest) = some unit) (trailing : isTrailing unit = false)
    (leading : isLeading unit = false) :
    StandsFor ['\\', 'u', a, b, c, d] (Char.ofNat unit) := fun more offset =>
  ⟨_, readString_escape ((hexQuad?_four a b c d more rest).trans quad) trailing leading offset⟩

theorem standsFor_pair {a b c d e f g h : Char} {rest more : List Char} {unit other : Nat}
    (first : hexQuad? (a :: b :: c :: d :: rest) = some unit)
    (second : hexQuad? (e :: f :: g :: h :: more) = some other)
    (trailing : isTrailing unit = false) (leading : isLeading unit = true)
    (pair : isTrailing other = true) :
    StandsFor ['\\', 'u', a, b, c, d, '\\', 'u', e, f, g, h]
      (Char.ofNat (0x10000 + (unit - 0xD800) * 0x400 + (other - 0xDC00))) := by
  intro behind offset
  refine ⟨offset + 12, ?_⟩
  have front : ∀ tail, hexQuad? (a :: b :: c :: d :: tail) = some unit := fun _ => first
  have back : ∀ tail, hexQuad? (e :: f :: g :: h :: tail) = some other := fun _ => second
  simp only [List.cons_append, List.nil_append]
  rw [readString.eq_def]
  simp only [front, back, trailing, leading, pair, Bool.false_eq_true, if_false, if_true]

/-! ### What the reader takes -/

/-- A string ends at once, or it goes on with a piece that stands for its first character. -/
theorem readString_cases {ahead : List Char} {offset : Nat} {text : List Char} {behind : Cursor}
    (read : readString ahead offset = .ok (text, behind)) :
    (ahead = '"' :: behind.ahead ∧ text = []) ∨
      ∃ front rest c more later, ahead = front ++ rest ∧ front ≠ [] ∧ text = c :: more ∧
        StandsFor front c ∧ readString rest later = .ok (more, behind) := by
  have taken : ∀ {c : Char} {result : Except Fault (List Char × Cursor)},
      consChar c result = .ok (text, behind) →
        ∃ more, text = c :: more ∧ result = .ok (more, behind) := by
    intro c result found
    cases result with
    | error fault => cases found
    | ok pair =>
      cases found
      exact ⟨pair.1, rfl, rfl⟩
  rw [readString.eq_def] at read
  split at read
  · cases read
  · cases read
    exact .inl ⟨rfl, rfl⟩
  · cases read
  · split at read
    · next a b c d rest unit quad =>
      split_ifs at read with trailing leading
      · split at read
        · split at read
          · next e f g h rest' other second =>
            split_ifs at read with pair
            obtain ⟨more, rfl, left⟩ := taken read
            exact .inr ⟨['\\', 'u', a, b, c, d, '\\', 'u', e, f, g, h], _, _, more, _, rfl, by simp,
              rfl, standsFor_pair quad second (eq_false_of_ne_true trailing) leading pair, left⟩
          · cases read
        · cases read
        · cases read
      · obtain ⟨more, rfl, left⟩ := taken read
        exact .inr ⟨['\\', 'u', a, b, c, d], _, _, more, _, rfl, by simp, rfl,
          standsFor_escape quad (eq_false_of_ne_true trailing) (eq_false_of_ne_true leading), left⟩
    · cases read
  · next c rest _ =>
    split at read
    · next meant known =>
      obtain ⟨more, rfl, left⟩ := taken read
      exact .inr ⟨['\\', c], _, _, more, _, rfl, by simp, rfl, standsFor_simple known, left⟩
    · cases read
  · next c rest quote last _ piece =>
    split_ifs at read with control
    obtain ⟨more, rfl, left⟩ := taken read
    have backslash : c ≠ '\\' := by
      rintro rfl
      cases rest with
      | nil => exact last rfl rfl
      | cons next rest => exact piece next rest rfl rfl
    exact .inr ⟨[c], rest, c, more, _, rfl, by simp, rfl,
      standsFor_plain quote backslash control, left⟩

theorem exists_quotedBody {ahead : List Char} {offset : Nat} {text : List Char} {behind : Cursor}
    (read : readString ahead offset = .ok (text, behind)) :
    ∃ front, ahead = front ++ behind.ahead ∧ QuotedBody front text := by
  induction size : ahead.length using Nat.strong_induction_on generalizing ahead offset text with
  | _ length ih =>
    rcases readString_cases read with
      ⟨shown, rfl⟩ | ⟨front, rest, c, more, later, rfl, some, rfl, stands, read⟩
    · exact ⟨['"'], shown, quotedBody_nil⟩
    · have shorter : rest.length < length := by
        have positive := List.length_pos_iff.2 some
        rw [← size, List.length_append]
        omega
      obtain ⟨body, rfl, quoted⟩ := ih _ shorter read rfl
      exact ⟨front ++ body, (List.append_assoc ..).symm, quoted.cons stands⟩

end LogCensus.Json
