import LogCensus.Proofs.Json.Number
import LogCensus.Proofs.Json.Parses

/-!
The text of a value reads back to a tree that means the value. The text is followed by something
that cannot go on with a number, blanks may stand in front of it, and three units of fuel for each
of its characters suffice.
-/

namespace LogCensus.Json

open Text (isDigit)

/-! ### Values that can be written and read -/

mutual

def Readable : Json → Prop
  | .number value => value.Readable
  | .array elements => ElementsReadable elements
  | .object members => MembersReadable members
  | .unwritable => False
  | _ => True

def ElementsReadable : List Json → Prop
  | [] => True
  | element :: rest => element.Readable ∧ ElementsReadable rest

def MembersReadable : List (String × Json) → Prop
  | [] => True
  | (_, value) :: rest => value.Readable ∧ MembersReadable rest

end

mutual

/-- The tree of a text that means a value, wherever its parts stand. -/
inductive Node.Means : Node → Json → Prop where
  | null (stop : Nat) : Node.Means (.scalar (.ok .null) stop) .null
  | bool (value : Bool) (stop : Nat) : Node.Means (.scalar (.ok (.bool value)) stop) (.bool value)
  | number {written read : Number} (same : written.ReadAs read) (stop : Nat) :
      Node.Means (.scalar (.ok (.number read)) stop) (.number written)
  | string (text : String) (stop : Nat) : Node.Means (.scalar (.ok (.string text)) stop) (.string text)
  | array {items : Items} {elements : List Json} (inner : Items.Means items elements) (start : Nat) :
      Node.Means (.array start items) (.array elements)
  | object {tree : Members} {members : List (String × Json)} (inner : Members.Means tree members)
      (start : Nat) : Node.Means (.object start tree) (.object members)

inductive Items.Means : Items → List Json → Prop where
  | close (stop : Nat) : Items.Means (.close stop) []
  | item {value : Node} {element : Json} {items : Items} {elements : List Json}
      (inner : Node.Means value element) (later : Items.Means items elements) (start mark : Nat) :
      Items.Means (.item start value mark items) (element :: elements)

inductive Members.Means : Members → List (String × Json) → Prop where
  | close (stop : Nat) : Members.Means (.close stop) []
  | member {value : Node} {json : Json} {tree : Members} {members : List (String × Json)}
      (key : String) (inner : Node.Means value json) (later : Members.Means tree members)
      (keyStop mark : Nat) :
      Members.Means (.member (.ok key) keyStop mark value tree) ((key, json) :: members)

end

/-! ### Blanks that are written -/

theorem writes_lineBreak (opening : List Char) (level : Nat) :
    ∃ gap, Gap gap ∧ Writes (lineBreak opening level) (opening ++ gap) := by
  refine ⟨'\n' :: (List.replicate level [' ', ' ']).flatten, ?_, ?_⟩
  · intro c member
    rcases List.mem_cons.1 member with rfl | blank
    · decide
    · simp only [List.mem_flatten, List.mem_replicate] at blank
      obtain ⟨step, ⟨-, rfl⟩, blank⟩ := blank
      rw [show c = ' ' by simpa using blank]
      decide
  · have writes := (writes_replicate level [' ', ' ']).cons (opening ++ ['\n'])
    rwa [List.append_assoc] at writes

theorem writes_separator (style : Style) (level : Nat) (first : Bool) :
    ∃ gap, Gap gap ∧ Writes (separator style level first) ((if first then [] else [',']) ++ gap) := by
  cases style with
  | compact =>
    refine ⟨[], gap_nil, ?_⟩
    cases first <;> rfl
  | indented => exact writes_lineBreak _ level

theorem writes_closing (style : Style) (level : Nat) (empty : Bool) :
    ∃ gap, Gap gap ∧ Writes (closing style level empty) gap := by
  cases style with
  | compact => exact ⟨[], gap_nil, rfl⟩
  | indented =>
    cases empty with
    | true => exact ⟨[], gap_nil, rfl⟩
    | false => exact writes_lineBreak [] level

/-! ### What each kind of text parses to -/

/-- The text of a value: it starts with no blank and closes nothing, and it is parsed whole. -/
structure ValueText (json : Json) (text : List Char) : Prop where
  head : ∃ c tail, text = c :: tail ∧ Cursor.isSpace c = false ∧ c ≠ ']'
  parses : ∀ {rest : List Char}, EndsNumeral rest → ∀ (offset : Nat) {fuel : Nat},
    3 * text.length ≤ fuel → ∃ node behind, node.Means json ∧
      parseNode fuel ⟨text ++ rest, offset⟩ = (node, some ⟨rest, behind⟩)

structure ElementsText (first : Bool) (elements : List Json) (text : List Char) : Prop where
  head : first = false → text = [] ∨ ∃ tail, text = ',' :: tail
  parses : ∀ {gap : List Char}, Gap gap → ∀ (rest : List Char) (offset : Nat) {fuel : Nat},
    3 * (text.length + 1) ≤ fuel → ∃ items behind, items.Means elements ∧
      parseItems fuel first ⟨text ++ gap ++ ']' :: rest, offset⟩ = (items, some ⟨rest, behind⟩)

structure MembersText (first : Bool) (members : List (String × Json)) (text : List Char) :
    Prop where
  head : first = false → text = [] ∨ ∃ tail, text = ',' :: tail
  parses : ∀ {gap : List Char}, Gap gap → ∀ (rest : List Char) (offset : Nat) {fuel : Nat},
    3 * (text.length + 1) ≤ fuel → ∃ tree behind, tree.Means members ∧
      parseMembers fuel first ⟨text ++ gap ++ '}' :: rest, offset⟩ = (tree, some ⟨rest, behind⟩)

theorem endsNumeral_behind {text gap : List Char} (head : text = [] ∨ ∃ tail, text = ',' :: tail)
    (blank : Gap gap) {bracket : Char} (close : bracket = ']' ∨ bracket = '}') (rest : List Char) :
    EndsNumeral (text ++ gap ++ bracket :: rest) := by
  rcases head with rfl | ⟨tail, rfl⟩
  · exact endsNumeral_append blank (endsNumeral_cons (by rcases close with rfl | rfl <;> simp) rest)
  · exact endsNumeral_cons List.mem_cons_self _

theorem ValueText.of_parses {json : Json} {text : List Char} {need : Nat}
    (parsed : Parses (Node.Means · json) need text) (enough : need ≤ 3 * text.length) :
    ValueText json text :=
  ⟨parsed.head, fun stop offset _ less => parsed.parses stop offset (enough.trans less)⟩

theorem ValueText.toParses {json : Json} {text : List Char} (value : ValueText json text) :
    Parses (Node.Means · json) (3 * text.length) text :=
  ⟨value.head, value.parses⟩

theorem valueText_null : ValueText .null "null".toList :=
  .of_parses (parses_word 'n' "ull".toList (by decide) (by decide) .null parseNode_null) (by decide)

theorem valueText_true : ValueText (.bool true) "true".toList :=
  .of_parses (parses_word 't' "rue".toList (by decide) (by decide) (.bool true) parseNode_true)
    (by decide)

theorem valueText_false : ValueText (.bool false) "false".toList :=
  .of_parses (parses_word 'f' "alse".toList (by decide) (by decide) (.bool false) parseNode_false)
    (by decide)

theorem valueText_string (text : String) : ValueText (.string text) (quotedText text) := by
  have parsed : Parses (Node.Means · (.string text)) 1 (quotedText text) :=
    parses_string (quotedBody_escaped text.toList) (.string text)
  exact .of_parses parsed (by have := parsed.length_pos; omega)

theorem valueText_number {number : Number} (readable : number.Readable) :
    ValueText (.number number) number.text := by
  have parsed : Parses (Node.Means · (.number number)) 1 number.text := by
    refine parses_number (Number.exists_head readable) fun rest stop offset => ?_
    obtain ⟨read, behind, same, node⟩ := numberNode_text readable stop offset
    exact ⟨_, behind, .number same behind, node⟩
  exact .of_parses parsed (by have := parsed.length_pos; omega)

/-! ### Arrays -/

theorem ElementsText.toParses {first : Bool} {elements : List Json} {text gap : List Char}
    (inner : ElementsText first elements text) (blank : Gap gap) :
    ParsesItems (Items.Means · elements) (3 * (text.length + 1)) first (text ++ gap ++ [']']) where
  stop := fun later rest => by
    rw [List.append_assoc]
    exact endsNumeral_behind (inner.head later) blank (.inl rfl) rest
  parses := by
    intro rest offset fuel enough
    rw [List.append_assoc]
    exact inner.parses blank rest offset enough

theorem ElementsText.of_parses {first : Bool} {elements : List Json} {text : List Char}
    (head : first = false → text = [] ∨ ∃ tail, text = ',' :: tail)
    (parsed : ∀ {gap : List Char}, Gap gap →
      ParsesItems (Items.Means · elements) (3 * (text.length + 1)) first (text ++ gap ++ [']'])) :
    ElementsText first elements text where
  head := head
  parses := by
    intro gap blank rest offset fuel enough
    have taken := (parsed blank).parses rest offset enough
    rwa [List.append_assoc] at taken

theorem elementsText_nil (first : Bool) : ElementsText first [] [] :=
  .of_parses (fun _ => .inl rfl) fun blank =>
    ((parsesItems_close first .close).gap blank).mono (by decide)

theorem elementsText_cons {first : Bool} {element : Json} {elements : List Json}
    {gap text behind : List Char} (blank : Gap gap) (value : ValueText element text)
    (later : ElementsText false elements behind) :
    ElementsText first (element :: elements)
      ((if first then [] else [',']) ++ gap ++ text ++ behind) := by
  refine .of_parses ?_ fun {last} lastBlank => ?_
  · rintro rfl
    exact .inr ⟨_, rfl⟩
  · have some := value.toParses.length_pos
    have parsed : ParsesItems (Items.Means · (element :: elements))
        (3 * (((if first then [] else [',']) ++ gap ++ text ++ behind).length + 1)) first _ :=
      .cons blank value.toParses (later.toParses lastBlank) .item (by
        simp only [List.length_append]
        omega)
    simpa only [List.append_assoc] using parsed

theorem valueText_array {elements : List Json} {text gap : List Char}
    (inner : ElementsText true elements text) (blank : Gap gap) :
    ValueText (.array elements) ('[' :: text ++ gap ++ [']']) :=
  .of_parses (parses_array (inner.toParses blank) .array) (by
    simp only [List.length_append, List.length_cons]
    omega)

/-! ### Objects -/

theorem MembersText.toParses {first : Bool} {members : List (String × Json)} {text gap : List Char}
    (inner : MembersText first members text) (blank : Gap gap) :
    ParsesMembers (Members.Means · members) (3 * (text.length + 1)) first
      (text ++ gap ++ ['}']) where
  stop := fun later rest => by
    rw [List.append_assoc]
    exact endsNumeral_behind (inner.head later) blank (.inr rfl) rest
  parses := by
    intro rest offset fuel enough
    rw [List.append_assoc]
    exact inner.parses blank rest offset enough

theorem MembersText.of_parses {first : Bool} {members : List (String × Json)} {text : List Char}
    (head : first = false → text = [] ∨ ∃ tail, text = ',' :: tail)
    (parsed : ∀ {gap : List Char}, Gap gap → ParsesMembers (Members.Means · members)
      (3 * (text.length + 1)) first (text ++ gap ++ ['}'])) :
    MembersText first members text where
  head := head
  parses := by
    intro gap blank rest offset fuel enough
    have taken := (parsed blank).parses rest offset enough
    rwa [List.append_assoc] at taken

theorem membersText_nil (first : Bool) : MembersText first [] [] :=
  .of_parses (fun _ => .inl rfl) fun blank =>
    ((parsesMembers_close first .close).gap blank).mono (by decide)

/-- A colon is followed by a blank or by nothing. -/
theorem colon_eq (style : Style) : ∃ gap, Gap gap ∧ colon style = ':' :: gap := by
  cases style with
  | compact => exact ⟨[], gap_nil, rfl⟩
  | indented => exact ⟨[' '], by simp [Gap, Cursor.isSpace], rfl⟩

theorem membersText_cons {first : Bool} (style : Style) (key : String) {json : Json}
    {members : List (String × Json)} {gap text behind : List Char} (blank : Gap gap)
    (value : ValueText json text) (later : MembersText false members behind) :
    MembersText first ((key, json) :: members)
      ((if first then [] else [',']) ++ gap ++ quotedText key ++ colon style ++ text ++ behind) := by
  refine .of_parses ?_ fun {last} lastBlank => ?_
  · rintro rfl
    exact .inr ⟨_, rfl⟩
  · obtain ⟨space, spaceBlank, colonText⟩ := colon_eq style
    have some := value.toParses.length_pos
    have parsed : ParsesMembers (Members.Means · ((key, json) :: members))
        (3 * (((if first then [] else [',']) ++ gap ++ quotedText key ++ colon style ++ text
          ++ behind).length + 1)) first _ :=
      .cons blank (quotedBody_escaped key.toList) gap_nil spaceBlank value.toParses
        (later.toParses lastBlank) (.member key) (by
          simp only [List.length_append]
          omega)
    simpa only [quotedText, colonText, List.append_assoc, List.cons_append, List.nil_append]
      using parsed

theorem valueText_object {members : List (String × Json)} {text gap : List Char}
    (inner : MembersText true members text) (blank : Gap gap) :
    ValueText (.object members) ('{' :: text ++ gap ++ ['}']) :=
  .of_parses (parses_object (inner.toParses blank) .object) (by
    simp only [List.length_append, List.length_cons]
    omega)

/-! ### All values -/

mutual

theorem exists_valueText (style : Style) (level : Nat) :
    ∀ json : Json, json.Readable → ∃ text, Writes (pieces style level json) text ∧ ValueText json text
  | .null, _ => ⟨_, rfl, valueText_null⟩
  | .bool true, _ => ⟨_, rfl, valueText_true⟩
  | .bool false, _ => ⟨_, rfl, valueText_false⟩
  | .number value, readable => by
    refine ⟨value.text, ?_, valueText_number readable⟩
    have writes := writes_nil.cons value.text
    rwa [List.append_nil] at writes
  | .string text, _ => ⟨_, writes_quotedPieces text, valueText_string text⟩
  | .array elements, readable => by
    obtain ⟨text, writes, inner⟩ := exists_elementsText style (level + 1) true elements readable
    obtain ⟨gap, blank, close⟩ := writes_closing style level elements.isEmpty
    exact ⟨_, ((writes.cons ['[']).append close).append (writes_nil.cons [']']),
      valueText_array inner blank⟩
  | .object members, readable => by
    obtain ⟨text, writes, inner⟩ := exists_membersText style (level + 1) true members readable
    obtain ⟨gap, blank, close⟩ := writes_closing style level members.isEmpty
    exact ⟨_, ((writes.cons ['{']).append close).append (writes_nil.cons ['}']),
      valueText_object inner blank⟩
  | .unwritable, readable => readable.elim

theorem exists_elementsText (style : Style) (level : Nat) (first : Bool) :
    ∀ elements : List Json, ElementsReadable elements →
      ∃ text, Writes (elementPieces style level first elements) text ∧
        ElementsText first elements text
  | [], _ => ⟨[], rfl, elementsText_nil first⟩
  | element :: elements, ⟨readable, later⟩ => by
    obtain ⟨gap, blank, separated⟩ := writes_separator style level first
    obtain ⟨text, writes, value⟩ := exists_valueText style level element readable
    obtain ⟨behind, laterWrites, rest⟩ := exists_elementsText style level false elements later
    exact ⟨_, (separated.append writes).append laterWrites, elementsText_cons blank value rest⟩

theorem exists_membersText (style : Style) (level : Nat) (first : Bool) :
    ∀ members : List (String × Json), MembersReadable members →
      ∃ text, Writes (memberPieces style level first members) text ∧
        MembersText first members text
  | [], _ => ⟨[], rfl, membersText_nil first⟩
  | (key, json) :: members, ⟨readable, later⟩ => by
    obtain ⟨gap, blank, separated⟩ := writes_separator style level first
    obtain ⟨text, writes, value⟩ := exists_valueText style level json readable
    obtain ⟨behind, laterWrites, rest⟩ := exists_membersText style level false members later
    refine ⟨_, ?_, membersText_cons style key blank value rest⟩
    have whole := ((separated.append (writes_quotedPieces key)).append
      (writes.cons (colon style))).append laterWrites
    rw [memberPieces]
    simpa only [List.append_assoc] using whole

end

theorem ValueText.ofText {json : Json} {text trail : List Char} (value : ValueText json text)
    (blank : Gap trail) : ∃ node, node.Means json ∧ Node.ofText (text ++ trail) = (node, none) := by
  have fuel : 3 * text.length ≤ fuelFor (text ++ trail) := by
    rw [fuelFor, List.length_append]
    omega
  obtain ⟨node, behind, means, parsed⟩ := value.parses (endsNumeral_gap blank) 0 fuel
  have left : (Cursor.skipSpace ⟨trail, behind⟩).ahead = [] := by
    rw [Cursor.skipSpace, Cursor.skipWhile]
    exact List.dropWhile_eq_nil_iff.2 blank
  refine ⟨node, means, ?_⟩
  rw [Node.ofText, Cursor.ofText, parsed]
  simp only [left, List.isEmpty_nil, if_true]

end LogCensus.Json
