import LogCensus.Proofs.Json.Lexeme
import LogCensus.Proofs.Json.Parses

/-!
A text that is read as a value in one place is read as that value in every place. What is told
here of a piece of text, its reader takes it from the front of whatever follows; the pieces that a
reader has taken are of this kind, and of such pieces larger ones are made.
-/

namespace LogCensus.Json

open Text (isDigit)

theorem exists_gap (cursor : Cursor) :
    ∃ gap, Gap gap ∧ cursor.ahead = gap ++ cursor.skipSpace.ahead :=
  ⟨_, fun _ => List.mem_takeWhile_imp, List.takeWhile_append_dropWhile.symm⟩

/-! ### What a piece of text is read as -/

/-- The members as an object holds them: of two with one key the later counts. -/
def gathered (known members : List (String × Json)) : List (String × Json) :=
  members.foldl (fun known entry => SortedMap.placed entry.1 (fun _ => entry.2) known) known

/-- The text is read as the value in front of all that does not go on with a number. -/
def Spells (depth : Nat) (json : Json) (text : List Char) : Prop :=
  Parses (fun node => node.value depth = .ok json) (3 * text.length) text

def SpellsElements (depth : Nat) (first : Bool) (elements : List Json) (text : List Char) : Prop :=
  ParsesItems (fun items => items.values depth = .ok elements) (3 * text.length) first text

def SpellsMembers (depth : Nat) (first : Bool) (members : List (String × Json))
    (text : List Char) : Prop :=
  ParsesMembers (fun tree => ∀ known, tree.values depth known = .ok (gathered known members))
    (3 * text.length) first text

/-! ### Scalars -/

theorem Spells.of_parses {depth : Nat} {json : Json} {text : List Char}
    (parsed : Parses (fun node => node.value depth = .ok json) 1 text) : Spells depth json text :=
  parsed.mono (by have := parsed.length_pos; omega)

theorem spells_word (letter : Char) (letters : List Char) {scalar : Scalar} {json : Json}
    (depth : Nat) (solid : Cursor.isSpace letter = false) (inside : letter ≠ ']')
    (value : ∀ stop, (Node.scalar (.ok scalar) stop).value depth = .ok json)
    (step : ∀ fuel rest offset, parseNode (fuel + 1) ⟨letter :: rest, offset⟩ =
      takeWord letters scalar (Cursor.next ⟨letter :: rest, offset⟩)) :
    Spells depth json (letter :: letters) :=
  .of_parses (parses_word letter letters solid inside value step)

theorem takeWord_ok {letters : List Char} {scalar : Scalar} {cursor behind : Cursor} {node : Node}
    (taken : takeWord letters scalar cursor = (node, some behind)) :
    cursor.ahead = letters ++ behind.ahead ∧ node = .scalar (.ok scalar) behind.offset := by
  induction letters generalizing cursor with
  | nil =>
    cases taken
    exact ⟨rfl, rfl⟩
  | cons letter letters ih =>
    unfold takeWord at taken
    split at taken
    · cases taken
    · next c rest ahead =>
      split_ifs at taken with same
      · subst same
        obtain ⟨later, value⟩ := ih taken
        rw [next_ahead ahead] at later
        exact ⟨by rw [ahead, later, List.cons_append], value⟩
      · cases taken

theorem spells_string (depth : Nat) {text : String} {front : List Char}
    (body : QuotedBody front text.toList) : Spells depth (.string text) ('"' :: front) :=
  .of_parses (parses_string body fun _ => rfl)

theorem takeString_ok {cursor behind : Cursor} {key : String} {rest : List Char}
    (ahead : cursor.ahead = '"' :: rest) (taken : takeString cursor = .ok (.ok key, behind)) :
    ∃ front, QuotedBody front key.toList ∧ cursor.ahead = '"' :: front ++ behind.ahead := by
  unfold takeString at taken
  simp only at taken
  split at taken
  · next text left read =>
    cases taken
    obtain ⟨front, shown, body⟩ := exists_quotedBody read
    refine ⟨front, by rwa [String.toList_ofList], ?_⟩
    rw [ahead, ← next_ahead ahead, shown, List.cons_append]
  · split at taken <;> cases taken

theorem IsJson.exists_head {numeral : Binary64.Numeral} (formed : IsJson numeral) :
    ∃ c rest, numeral.text = c :: rest ∧ (c = '-' ∨ isDigit c = true) := by
  rw [Binary64.Numeral.text]
  cases sign : numeral.sign with
  | some minus =>
    cases minus with
    | true => exact ⟨'-', _, rfl, .inl rfl⟩
    | false => exact absurd sign formed.sign
  | none =>
    obtain ⟨some, all⟩ := formed.whole.digits
    obtain ⟨c, digits, whole⟩ := List.exists_cons_of_ne_nil some
    have front := all c (whole ▸ List.mem_cons_self)
    refine ⟨c, digits ++ (Numeral.placesText numeral.places ++ Binary64.scaleText numeral.scale), ?_,
      .inr front⟩
    rw [Binary64.Numeral.body, whole]
    rfl

theorem spells_number (depth : Nat) {numeral : Binary64.Numeral} (formed : IsJson numeral)
    {lexeme : Lexeme} (shows : lexeme.Shows numeral) {number : Number}
    (value : lexeme.value (Text.isMinus numeral.sign) = .ok number) :
    Spells depth (.number number) numeral.text := by
  refine .of_parses (parses_number formed.exists_head fun rest stop offset => ?_)
  obtain ⟨other, taken, same, left⟩ :=
    takeNumber_numeral formed stop ⟨numeral.text ++ rest, offset⟩ rfl
  refine ⟨.scalar (.ok (.number number)) other.stop.offset, other.stop.offset, rfl, ?_⟩
  rw [numberNode, taken]
  simp only [Lexeme.value_of_shows shows same value, Except.map, ← left]

/-! ### Arrays -/

theorem spellsElements_close (depth : Nat) (first : Bool) :
    SpellsElements depth first [] [']'] :=
  (parsesItems_close first fun _ => rfl).mono (by decide)

theorem SpellsElements.gap {depth : Nat} {first : Bool} {elements : List Json} {text : List Char}
    (spells : SpellsElements depth first elements text) {gap : List Char} (blank : Gap gap) :
    SpellsElements depth first elements (gap ++ text) :=
  (ParsesItems.gap spells blank).mono (by
    rw [List.length_append]
    omega)

theorem SpellsElements.cons {depth : Nat} {first : Bool} {element : Json} {elements : List Json}
    {gap text behind : List Char} (blank : Gap gap) (value : Spells depth element text)
    (later : SpellsElements depth false elements behind) :
    SpellsElements depth first (element :: elements)
      ((if first then [] else [',']) ++ gap ++ (text ++ behind)) := by
  have some := value.length_pos
  have others := later.need_pos
  refine ParsesItems.cons blank value later ?_ (by simp only [List.length_append]; omega)
  intro node items valued values start mark
  simp only [Items.values, valued, values, Except.map]

theorem spells_array {depth : Nat} (deep : 1 < depth) {elements : List Json} {text : List Char}
    (inner : SpellsElements (depth - 1) true elements text) :
    Spells depth (.array elements) ('[' :: text) := by
  refine (parses_array inner ?_).mono (by rw [List.length_cons]; omega)
  intro items values start
  rw [Node.value, if_neg (not_le.2 deep), values]
  rfl

/-! ### Objects -/

theorem spellsMembers_close (depth : Nat) (first : Bool) :
    SpellsMembers depth first [] ['}'] :=
  (parsesMembers_close first fun _ _ => rfl).mono (by decide)

theorem SpellsMembers.gap {depth : Nat} {first : Bool} {members : List (String × Json)}
    {text : List Char} (spells : SpellsMembers depth first members text) {gap : List Char}
    (blank : Gap gap) : SpellsMembers depth first members (gap ++ text) :=
  (ParsesMembers.gap spells blank).mono (by
    rw [List.length_append]
    omega)

theorem SpellsMembers.cons {depth : Nat} {first : Bool} {key : String} {json : Json}
    {members : List (String × Json)} {gap body middle lead text behind : List Char}
    (blank : Gap gap) (quoted : QuotedBody body key.toList) (between : Gap middle)
    (leading : Gap lead) (value : Spells depth json text)
    (later : SpellsMembers depth false members behind) :
    SpellsMembers depth first ((key, json) :: members)
      ((if first then [] else [',']) ++ gap
        ++ '"' :: (body ++ (middle ++ ':' :: (lead ++ (text ++ behind))))) := by
  have some := value.length_pos
  have others := later.need_pos
  refine ParsesMembers.cons blank quoted between leading value later ?_ (by
    simp only [List.length_append, List.length_cons]
    omega)
  intro node tree valued values keyStop mark known
  simp only [Members.values, valued, values]
  rfl

theorem spells_object {depth : Nat} (deep : 1 < depth) {members : List (String × Json)}
    {text : List Char} (inner : SpellsMembers (depth - 1) true members text) :
    Spells depth (.object (gathered [] members)) ('{' :: text) := by
  refine (parses_object inner ?_).mono (by rw [List.length_cons]; omega)
  intro tree values start
  rw [Node.value, if_neg (not_le.2 deep), values]
  rfl

end LogCensus.Json
