import LogCensus.Glob.Match

/-!
The matcher finds what patterns stand for: a place is reached by pieces exactly if they span the text
in front of it.
-/

namespace LogCensus.Glob

open LogCensus.Path (slash)

variable {text rest : List UInt8}

theorem mem_beyondMany :
    rest ∈ beyondMany text ↔ ∃ front, slash ∉ front ∧ text = front ++ rest := by
  induction text with
  | nil =>
    simp only [beyondMany, List.mem_singleton, List.nil_eq, List.append_eq_nil_iff]
    constructor
    · rintro rfl
      exact ⟨[], List.not_mem_nil, rfl, rfl⟩
    · rintro ⟨_, -, -, same⟩
      exact same
  | cons octet more ih =>
    by_cases separator : octet = slash
    · simp only [beyondMany, if_pos separator, List.mem_singleton]
      constructor
      · rintro rfl
        exact ⟨[], List.not_mem_nil, rfl⟩
      · rintro ⟨front, inside, split⟩
        cases front with
        | nil => exact split.symm
        | cons first front =>
          obtain ⟨rfl, -⟩ := List.cons.inj split
          exact absurd (separator ▸ List.mem_cons_self) inside
    · simp only [beyondMany, if_neg separator, List.mem_cons, ih]
      constructor
      · rintro (rfl | ⟨front, inside, rfl⟩)
        · exact ⟨[], List.not_mem_nil, rfl⟩
        · exact ⟨octet :: front, List.not_mem_cons_of_ne_of_not_mem (Ne.symm separator) inside, rfl⟩
      · rintro ⟨front, inside, split⟩
        cases front with
        | nil => exact .inl split.symm
        | cons first front =>
          exact .inr ⟨front, fun member => inside (List.mem_cons_of_mem _ member),
            (List.cons.inj split).2⟩

theorem mem_behindSlashes : rest ∈ behindSlashes text ↔ ∃ front, text = front ++ slash :: rest := by
  induction text with
  | nil => simp [behindSlashes]
  | cons octet more ih =>
    have later : (∃ front, octet :: more = front ++ slash :: rest) ↔
        (octet = slash ∧ rest = more) ∨ ∃ front, more = front ++ slash :: rest := by
      constructor
      · rintro ⟨front, split⟩
        cases front with
        | nil =>
          obtain ⟨first, same⟩ := List.cons.inj split
          exact .inl ⟨first, same.symm⟩
        | cons first front => exact .inr ⟨front, (List.cons.inj split).2⟩
      · rintro (⟨rfl, rfl⟩ | ⟨front, rfl⟩)
        · exact ⟨[], rfl⟩
        · exact ⟨octet :: front, rfl⟩
    rw [later, ← ih]
    by_cases separator : octet = slash
    · rw [behindSlashes, if_pos separator, List.mem_cons]
      simp only [separator, true_and]
    · rw [behindSlashes, if_neg separator]
      simp only [separator, false_and, false_or]

theorem mem_places : rest ∈ places text ↔ ∃ front, text = front ++ rest := by
  induction text with
  | nil => simp [places]
  | cons octet more ih =>
    rw [places, List.mem_cons, ih]
    constructor
    · rintro (rfl | ⟨front, rfl⟩)
      · exact ⟨[], rfl⟩
      · exact ⟨octet :: front, rfl⟩
    · rintro ⟨front, split⟩
      cases front with
      | nil => exact .inl split.symm
      | cons first front => exact .inr ⟨front, (List.cons.inj split).2⟩

theorem mem_behindOctet {wanted : UInt8 → Bool} :
    rest ∈ behindOctet wanted text ↔ ∃ octet, wanted octet = true ∧ text = octet :: rest := by
  cases text with
  | nil => simp [behindOctet]
  | cons octet more =>
    by_cases holds : wanted octet = true
    · simp only [behindOctet, if_pos holds, List.mem_singleton, List.cons.injEq]
      constructor
      · rintro rfl
        exact ⟨octet, holds, rfl, rfl⟩
      · rintro ⟨_, -, -, rfl⟩
        rfl
    · simp only [behindOctet, if_neg holds, List.not_mem_nil, List.cons.injEq, false_iff]
      rintro ⟨_, other, rfl, -⟩
      exact holds other

theorem mem_behindText {wanted : List UInt8} :
    rest ∈ behindText wanted text ↔ text = wanted ++ rest := by
  induction wanted generalizing text with
  | nil => simp [behindText, eq_comm]
  | cons first wanted ih =>
    cases text with
    | nil => simp [behindText]
    | cons octet more =>
      by_cases same : octet = first
      · rw [behindText, if_pos same, ih]
        simp only [same, List.cons_append, List.cons.injEq, true_and]
      · rw [behindText, if_neg same]
        simp only [List.not_mem_nil, List.cons_append, List.cons.injEq, same, false_and]

/-! ### What pieces span -/

namespace Piece

theorem spans_literal {c : Char} : (literal c).Spans text ↔ text = Text.Utf8.encodeChar c := by
  constructor
  · rintro ⟨⟩
    rfl
  · rintro rfl
    exact .literal c

theorem spans_one : one.Spans text ↔ ∃ octet, octet ≠ slash ∧ text = [octet] := by
  constructor
  · rintro ⟨⟩
    exact ⟨_, ‹_›, rfl⟩
  · rintro ⟨octet, inside, rfl⟩
    exact .one octet inside

theorem spans_many : many.Spans text ↔ slash ∉ text := by
  constructor
  · rintro ⟨⟩
    assumption
  · exact .many text

theorem spans_leading : leading.Spans text ↔ text = [] ∨ ∃ front, text = front ++ [slash] := by
  constructor
  · rintro (_ | _)
    · exact .inl rfl
    · exact .inr ⟨_, rfl⟩
  · rintro (rfl | ⟨front, rfl⟩)
    · exact .leadingNone
    · exact .leading front

theorem spans_inner :
    inner.Spans text ↔ text = [slash] ∨ ∃ front, text = slash :: front ++ [slash] := by
  constructor
  · rintro (_ | _)
    · exact .inl rfl
    · exact .inr ⟨_, rfl⟩
  · rintro (rfl | ⟨front, rfl⟩)
    · exact .innerNone
    · exact .inner front

theorem spans_trailing : trailing.Spans text ↔ ∃ front, text = slash :: front := by
  constructor
  · rintro ⟨⟩
    exact ⟨_, rfl⟩
  · rintro ⟨front, rfl⟩
    exact .trailing front

theorem spans_oneOf {negated : Bool} {ranges : List (Char × Char)} :
    (oneOf negated ranges).Spans text ↔
      ∃ octet, inClass negated ranges octet = true ∧ text = [octet] := by
  constructor
  · rintro ⟨⟩
    exact ⟨_, ‹_›, rfl⟩
  · rintro ⟨octet, member, rfl⟩
    exact .oneOf negated ranges octet member

theorem spans_choice {branches : List (List Piece)} :
    (choice branches).Spans text ↔
      branches = [] ∧ text = [] ∨ ∃ branch ∈ branches, SpansInTurn branch text := by
  constructor
  · rintro (_ | _)
    · exact .inl ⟨rfl, rfl⟩
    · exact .inr ⟨_, ‹_›, ‹_›⟩
  · rintro (⟨rfl, rfl⟩ | ⟨branch, member, spanned⟩)
    · exact .choiceNone
    · exact .choice branches branch member text spanned

end Piece

theorem spansInTurn_nil : SpansInTurn [] text ↔ text = [] := by
  constructor
  · rintro ⟨⟩
    rfl
  · rintro rfl
    exact .none

theorem spansInTurn_cons {piece : Piece} {pieces : List Piece} :
    SpansInTurn (piece :: pieces) text ↔
      ∃ front rest, piece.Spans front ∧ SpansInTurn pieces rest ∧ text = front ++ rest := by
  constructor
  · rintro ⟨⟩
    exact ⟨_, _, ‹_›, ‹_›, rfl⟩
  · rintro ⟨front, rest, spanned, later, rfl⟩
    exact .more piece pieces front rest spanned later

theorem spansInTurn_append {front behind : List Piece} :
    SpansInTurn (front ++ behind) text ↔
      ∃ one other, SpansInTurn front one ∧ SpansInTurn behind other ∧ text = one ++ other := by
  induction front generalizing text with
  | nil => simp [spansInTurn_nil]
  | cons piece front ih =>
    simp only [List.cons_append, spansInTurn_cons, ih]
    constructor
    · rintro ⟨first, _, spanned, ⟨one, other, more, later, rfl⟩, rfl⟩
      exact ⟨first ++ one, other, ⟨first, one, spanned, more, rfl⟩, later, by simp⟩
    · rintro ⟨_, other, ⟨first, one, spanned, more, rfl⟩, later, rfl⟩
      exact ⟨first, one ++ other, spanned, ⟨one, other, more, later, rfl⟩, by simp⟩

theorem spansInTurn_singleton {piece : Piece} : SpansInTurn [piece] text ↔ piece.Spans text := by
  simp [spansInTurn_cons, spansInTurn_nil]

theorem spansInTurn_literals {chars : List Char} {pieces : List Piece} :
    SpansInTurn (chars.map .literal ++ pieces) text ↔
      ∃ rest, SpansInTurn pieces rest ∧ text = Text.Utf8.encode chars ++ rest := by
  induction chars generalizing text with
  | nil => simp [Text.Utf8.encode]
  | cons c chars ih =>
    simp only [List.map_cons, List.cons_append, spansInTurn_cons, Piece.spans_literal, ih,
      Text.Utf8.encode, List.flatMap_cons]
    constructor
    · rintro ⟨_, _, rfl, ⟨rest, later, rfl⟩, rfl⟩
      exact ⟨rest, later, (List.append_assoc ..).symm⟩
    · rintro ⟨rest, later, rfl⟩
      exact ⟨_, _, rfl, ⟨rest, later, rfl⟩, List.append_assoc ..⟩

/-! ### What is reached -/

mutual

theorem Piece.mem_reach : ∀ (piece : Piece) (text rest : List UInt8),
    rest ∈ piece.reach text ↔ ∃ front, piece.Spans front ∧ text = front ++ rest
  | .literal c, text, rest => by
    simp only [Piece.reach, mem_behindText, Piece.spans_literal, exists_eq_left]
  | .one, text, rest => by
    simp only [Piece.reach, mem_behindOctet, Piece.spans_one, bne_iff_ne]
    constructor
    · rintro ⟨octet, inside, rfl⟩
      exact ⟨[octet], ⟨octet, inside, rfl⟩, rfl⟩
    · rintro ⟨_, ⟨octet, inside, rfl⟩, split⟩
      exact ⟨octet, inside, split⟩
  | .many, text, rest => by
    simp only [Piece.reach, mem_beyondMany, Piece.spans_many]
  | .leading, text, rest => by
    simp only [Piece.reach, List.mem_cons, mem_behindSlashes, Piece.spans_leading]
    constructor
    · rintro (rfl | ⟨front, rfl⟩)
      · exact ⟨[], .inl rfl, rfl⟩
      · exact ⟨front ++ [slash], .inr ⟨front, rfl⟩, by simp⟩
    · rintro ⟨_, rfl | ⟨front, rfl⟩, split⟩
      · exact .inl split.symm
      · exact .inr ⟨front, split.trans (List.append_assoc ..)⟩
  | .inner, text, rest => by
    rw [Piece.reach]
    simp only [Piece.spans_inner]
    cases text with
    | nil => simp
    | cons octet more =>
      by_cases separator : octet = slash
      · rw [List.head?_cons, if_pos (congrArg some separator), mem_behindSlashes, separator]
        constructor
        · rintro ⟨front, split⟩
          cases front with
          | nil => exact ⟨[slash], .inl rfl, split⟩
          | cons first front =>
            obtain ⟨rfl, rfl⟩ := List.cons.inj split
            exact ⟨slash :: front ++ [slash], .inr ⟨front, rfl⟩, by simp⟩
        · rintro ⟨_, rfl | ⟨front, rfl⟩, split⟩
          · exact ⟨[], split⟩
          · exact ⟨slash :: front, by simpa using split⟩
      · rw [List.head?_cons, if_neg (mt Option.some.inj separator)]
        simp only [List.not_mem_nil, false_iff]
        rintro ⟨_, rfl | ⟨front, rfl⟩, split⟩
        · exact separator (List.cons.inj split).1
        · exact separator (List.cons.inj split).1
  | .trailing, text, rest => by
    simp only [Piece.reach, List.mem_flatMap, mem_behindOctet, mem_places, Piece.spans_trailing,
      beq_iff_eq]
    constructor
    · rintro ⟨_, ⟨octet, rfl, rfl⟩, front, rfl⟩
      exact ⟨slash :: front, ⟨front, rfl⟩, rfl⟩
    · rintro ⟨_, ⟨front, rfl⟩, rfl⟩
      exact ⟨front ++ rest, ⟨slash, rfl, rfl⟩, front, rfl⟩
  | .oneOf negated ranges, text, rest => by
    simp only [Piece.reach, mem_behindOctet, Piece.spans_oneOf]
    constructor
    · rintro ⟨octet, member, rfl⟩
      exact ⟨[octet], ⟨octet, member, rfl⟩, rfl⟩
    · rintro ⟨_, ⟨octet, member, rfl⟩, split⟩
      exact ⟨octet, member, split⟩
  | .choice [], text, rest => by
    simp [Piece.reach, Piece.spans_choice, eq_comm]
  | .choice (branch :: branches), text, rest => by
    rw [Piece.reach, List.isEmpty_cons, if_neg Bool.false_ne_true,
      mem_reachAny (branch :: branches) text rest]
    simp only [Piece.spans_choice, reduceCtorEq, false_and, false_or]
    constructor
    · rintro ⟨chosen, member, front, spanned, split⟩
      exact ⟨front, ⟨chosen, member, spanned⟩, split⟩
    · rintro ⟨front, ⟨chosen, member, spanned⟩, split⟩
      exact ⟨chosen, member, front, spanned, split⟩

theorem mem_reachInTurn : ∀ (pieces : List Piece) (texts : List (List UInt8)) (rest : List UInt8),
    rest ∈ reachInTurn pieces texts ↔
      ∃ text ∈ texts, ∃ front, SpansInTurn pieces front ∧ text = front ++ rest
  | [], texts, rest => by
    simp [reachInTurn, spansInTurn_nil]
  | piece :: pieces, texts, rest => by
    rw [reachInTurn, mem_reachInTurn pieces _ rest]
    simp only [List.mem_eraseDups, List.mem_flatMap, Piece.mem_reach piece, spansInTurn_cons]
    constructor
    · rintro ⟨_, ⟨text, member, front, spanned, rfl⟩, later, more, rfl⟩
      exact ⟨_, member, front ++ later, ⟨front, later, spanned, more, rfl⟩, by simp⟩
    · rintro ⟨_, member, _, ⟨front, later, spanned, more, rfl⟩, rfl⟩
      exact ⟨later ++ rest, ⟨_, member, front, spanned, by simp⟩, later, more, rfl⟩

theorem mem_reachAny : ∀ (branches : List (List Piece)) (text rest : List UInt8),
    rest ∈ reachAny branches text ↔
      ∃ branch ∈ branches, ∃ front, SpansInTurn branch front ∧ text = front ++ rest
  | [], text, rest => by
    simp [reachAny]
  | branch :: branches, text, rest => by
    rw [reachAny, List.mem_append, mem_reachInTurn branch [text] rest,
      mem_reachAny branches text rest]
    simp only [List.mem_cons, List.not_mem_nil, or_false, exists_eq_or_imp, exists_eq_left]

end

/-- The matcher takes a text exactly if the pattern stands for it. -/
theorem covers_iff (glob : Glob) (text : List UInt8) : glob.covers text = true ↔ glob.Spans text := by
  rw [covers, List.contains_iff_mem, mem_reachInTurn]
  simp only [List.mem_singleton, exists_eq_left, List.append_nil]
  constructor
  · rintro ⟨_, spanned, rfl⟩
    exact spanned
  · intro spanned
    exact ⟨text, spanned, rfl⟩

end LogCensus.Glob
