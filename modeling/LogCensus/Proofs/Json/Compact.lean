import LogCensus.Proofs.Json.Tree

/-!
Compact text stands on one line: no character in it is a control character, be it in a number, in a
string, where such characters are escaped, or between values.
-/

namespace LogCensus.Json

def Visible (text : List Char) : Prop := ∀ c ∈ text, 32 ≤ c.toNat

instance : DecidablePred Visible := fun text => List.decidableBAll _ text

/-! ### Texts -/

theorem visible_nil : Visible [] := by decide

theorem visible_cons {c : Char} {text : List Char} :
    Visible (c :: text) ↔ 32 ≤ c.toNat ∧ Visible text :=
  List.forall_mem_cons

theorem visible_append {text more : List Char} :
    Visible (text ++ more) ↔ Visible text ∧ Visible more :=
  List.forall_mem_append

theorem Visible.append {text more : List Char} (first : Visible text) (second : Visible more) :
    Visible (text ++ more) :=
  visible_append.2 ⟨first, second⟩

theorem Numeral.Digits.visible {digits : List Char} (formed : Digits digits) : Visible digits := by
  intro c member
  have digit := Text.isDigit_iff.1 (formed.2 c member)
  omega

theorem Numeral.WellFormed.visible {numeral : Numeral} (formed : numeral.WellFormed) :
    Visible numeral.text := by
  refine (formed.whole.digits.visible.append ?_).append ?_
  · cases places : numeral.places with
    | none => exact visible_nil
    | some digits => exact visible_cons.2 ⟨by decide, (formed.places digits places).visible⟩
  · cases scale : numeral.scale with
    | none => exact visible_nil
    | some part =>
      have digits := (formed.scale part scale).visible
      obtain ⟨down, shown⟩ := part
      cases down <;> exact visible_cons.2 ⟨by decide, visible_cons.2 ⟨by decide, digits⟩⟩

theorem Number.Readable.visible {number : Number} (readable : number.Readable) :
    Visible number.text := by
  obtain ⟨minus, numeral, formed, text, -⟩ := exists_isNumeral readable
  rw [text]
  refine Visible.append ?_ formed.visible
  cases minus <;> decide

theorem visible_hexDigit : ∀ value < 16, 32 ≤ (hexDigit value).toNat := by
  decide

/-- A control character stands in a string only as an escape. -/
theorem visible_escaped (c : Char) : Visible (escaped c) := by
  unfold escaped escape?
  split_ifs with _ _ _ _ _ _ _ control <;> simp only [Option.getD_some, Option.getD_none]
  -- escapes of one letter
  any_goals decide
  · have high := visible_hexDigit (c.toNat / 16) (by omega)
    have low := visible_hexDigit (c.toNat % 16) (by omega)
    have lead : Visible ['\\', 'u', '0', '0'] := by decide
    exact lead.append (visible_cons.2 ⟨high, visible_cons.2 ⟨low, visible_nil⟩⟩)
  · exact visible_cons.2 ⟨by omega, visible_nil⟩

theorem visible_quotedText (text : String) : Visible (quotedText text) := by
  have quote : Visible ['"'] := by decide
  have inner : Visible (text.toList.flatMap escaped) := by
    intro c member
    obtain ⟨meant, -, inside⟩ := List.mem_flatMap.1 member
    exact visible_escaped meant c inside
  exact (quote.append inner).append quote

/-! ### All values -/

theorem writes_compactSeparator (level : Nat) (first : Bool) :
    ∃ text, Writes (separator .compact level first) text ∧ Visible text := by
  cases first with
  | true => exact ⟨[], rfl, visible_nil⟩
  | false => exact ⟨[','], rfl, by decide⟩

theorem writes_compactClosing (level : Nat) (empty : Bool) :
    Writes (closing .compact level empty) [] :=
  rfl

mutual

theorem exists_visible (level : Nat) : ∀ json : Json, json.Readable →
    ∃ text, Writes (pieces .compact level json) text ∧ Visible text
  | .null, _ => ⟨"null".toList, rfl, by decide⟩
  | .bool true, _ => ⟨"true".toList, rfl, by decide⟩
  | .bool false, _ => ⟨"false".toList, rfl, by decide⟩
  | .number value, readable => by
    have writes := writes_nil.cons value.text
    rw [List.append_nil] at writes
    exact ⟨value.text, writes, Number.Readable.visible readable⟩
  | .string text, _ => ⟨_, writes_quotedPieces text, visible_quotedText text⟩
  | .array elements, readable => by
    obtain ⟨text, writes, visible⟩ := exists_visibleElements (level + 1) true elements readable
    have inner := (writes.cons ['[']).append (writes_compactClosing level elements.isEmpty)
    refine ⟨_, inner.append (writes_nil.cons [']']), ?_⟩
    exact ((Visible.append (by decide) visible).append visible_nil).append (by decide)
  | .object members, readable => by
    obtain ⟨text, writes, visible⟩ := exists_visibleMembers (level + 1) true members readable
    have inner := (writes.cons ['{']).append (writes_compactClosing level members.isEmpty)
    refine ⟨_, inner.append (writes_nil.cons ['}']), ?_⟩
    exact ((Visible.append (by decide) visible).append visible_nil).append (by decide)
  | .unwritable, readable => readable.elim

theorem exists_visibleElements (level : Nat) (first : Bool) :
    ∀ elements : List Json, ElementsReadable elements →
      ∃ text, Writes (elementPieces .compact level first elements) text ∧ Visible text
  | [], _ => ⟨[], rfl, visible_nil⟩
  | element :: elements, ⟨readable, later⟩ => by
    obtain ⟨comma, separated, clear⟩ := writes_compactSeparator level first
    obtain ⟨text, writes, visible⟩ := exists_visible level element readable
    obtain ⟨behind, laterWrites, rest⟩ := exists_visibleElements level false elements later
    exact ⟨_, (separated.append writes).append laterWrites, (clear.append visible).append rest⟩

theorem exists_visibleMembers (level : Nat) (first : Bool) :
    ∀ members : List (String × Json), MembersReadable members →
      ∃ text, Writes (memberPieces .compact level first members) text ∧ Visible text
  | [], _ => ⟨[], rfl, visible_nil⟩
  | (key, json) :: members, ⟨readable, later⟩ => by
    obtain ⟨comma, separated, clear⟩ := writes_compactSeparator level first
    obtain ⟨text, writes, visible⟩ := exists_visible level json readable
    obtain ⟨behind, laterWrites, rest⟩ := exists_visibleMembers level false members later
    have keyed := (separated.append (writes_quotedPieces key)).append
      (writes.cons (colon .compact))
    have shown := (clear.append (visible_quotedText key)).append
      (Visible.append (by decide : Visible (colon .compact)) visible)
    refine ⟨_, ?_, shown.append rest⟩
    rw [memberPieces]
    simpa only [List.append_assoc] using keyed.append laterWrites

end

/-- The compact text of a value stands on one line. -/
theorem visible_of_writes {level : Nat} {json : Json} (readable : json.Readable) {text : List Char}
    (writes : Writes (pieces .compact level json) text) : Visible text := by
  obtain ⟨shown, same, visible⟩ := exists_visible level json readable
  cases Option.some.inj (same.symm.trans writes)
  exact visible

end LogCensus.Json
