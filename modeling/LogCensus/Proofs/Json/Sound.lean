import LogCensus.Proofs.Json.Spelling

/-!
The reader of JSON texts step by step. What it has read as a value it reads as that value
everywhere, and a tree that it has left before its end has no value.
-/

namespace LogCensus.Json

open Text (isDigit)

/-! ### One step of the reader -/

def IsPlain : Json → Prop
  | .null | .bool _ | .number _ => True
  | _ => False

/-- How a value starts: what the text is if the value has no parts, and otherwise the parse of its
parts, with this much fuel left. -/
inductive NodeForm (depth fuel : Nat) (start behind : Cursor) : Json → Prop where
  | scalar {json : Json} (core : List Char) (shown : start.ahead = core ++ behind.ahead)
      (spells : Spells depth json core) (plain : IsPlain json) :
      NodeForm depth fuel start behind json
  | string {text : String} {body : List Char} (quoted : QuotedBody body text.toList)
      (shown : start.ahead = '"' :: body ++ behind.ahead) :
      NodeForm depth fuel start behind (.string text)
  | array {inside : Cursor} {items : Items} {elements : List Json} (deep : 1 < depth)
      (shown : start.ahead = '[' :: inside.ahead)
      (parsed : parseItems fuel true inside = (items, some behind))
      (valued : items.values (depth - 1) = .ok elements) :
      NodeForm depth fuel start behind (.array elements)
  | object {inside : Cursor} {tree : Members} {members : List (String × Json)} (deep : 1 < depth)
      (shown : start.ahead = '{' :: inside.ahead)
      (parsed : parseMembers fuel true inside = (tree, some behind))
      (valued : tree.values (depth - 1) [] = .ok members) :
      NodeForm depth fuel start behind (.object members)

section Steps

variable {depth fuel : Nat} {cursor behind : Cursor} {json : Json}

theorem NodeForm.word {start : Cursor} {letter : Char} {letters rest : List Char} {scalar : Scalar}
    {node : Node} (ahead : start.ahead = letter :: rest)
    (taken : takeWord letters scalar start.next = (node, some behind))
    (valued : node.value depth = .ok json) (solid : Cursor.isSpace letter = false)
    (inside : letter ≠ ']')
    (step : ∀ fuel rest offset, parseNode (fuel + 1) ⟨letter :: rest, offset⟩ =
      takeWord letters scalar (Cursor.next ⟨letter :: rest, offset⟩))
    (plain : ∀ json stop, (Node.scalar (.ok scalar) stop).value depth = .ok json → IsPlain json) :
    NodeForm depth fuel start behind json := by
  obtain ⟨later, rfl⟩ := takeWord_ok taken
  rw [next_ahead ahead] at later
  exact .scalar (letter :: letters) (by rw [ahead, later]; rfl)
    (spells_word letter letters depth solid inside (fun stop => valued) step) (plain json _ valued)

theorem NodeForm.number {start : Cursor} {node : Node}
    (taken : numberNode start = (node, some behind)) (valued : node.value depth = .ok json) :
    NodeForm depth fuel start behind json := by
  unfold numberNode at taken
  split at taken
  · next negative lexeme number =>
    cases taken
    obtain ⟨numeral, formed, rfl, shows, shown⟩ := exists_numeral_of_takeNumber number
    cases value : lexeme.value (Text.isMinus numeral.sign) with
    | error fault =>
      rw [value] at valued
      cases valued
    | ok number =>
      rw [value] at valued
      cases valued
      exact .scalar _ shown (spells_number depth formed shows value) trivial
  · cases taken

theorem parseNode_ok {node : Node} (parsed : parseNode fuel cursor = (node, some behind))
    (valued : node.value depth = .ok json) :
    ∃ less, fuel = less + 1 ∧ NodeForm depth less cursor.skipSpace behind json := by
  cases fuel with
  | zero => cases parsed
  | succ fuel =>
    refine ⟨fuel, rfl, ?_⟩
    rw [parseNode] at parsed
    simp only at parsed
    split at parsed
    · cases parsed
    · next ahead =>
      refine .word ahead parsed valued (by decide) (by decide) parseNode_null ?_
      rintro _ _ ⟨⟩
      trivial
    · next ahead =>
      refine .word ahead parsed valued (by decide) (by decide) parseNode_true ?_
      rintro _ _ ⟨⟩
      trivial
    · next ahead =>
      refine .word ahead parsed valued (by decide) (by decide) parseNode_false ?_
      rintro _ _ ⟨⟩
      trivial
    · next rest ahead =>
      unfold stringNode at parsed
      split at parsed
      · next text left taken =>
        cases parsed
        cases text with
        | error fault => cases valued
        | ok text =>
          cases valued
          obtain ⟨body, quoted, shown⟩ := takeString_ok ahead taken
          exact .string quoted shown
      · cases parsed
    · next rest ahead =>
      cases inner : parseItems fuel true cursor.skipSpace.next with
      | mk items left =>
        rw [inner] at parsed
        cases parsed
        rw [Node.value] at valued
        split_ifs at valued with shallow
        cases elements : items.values (depth - 1) with
        | error fault =>
          rw [elements] at valued
          cases valued
        | ok elements =>
          rw [elements] at valued
          cases valued
          exact .array (not_le.1 shallow) (by rw [ahead, next_ahead ahead]) inner elements
    · next rest ahead =>
      cases inner : parseMembers fuel true cursor.skipSpace.next with
      | mk tree left =>
        rw [inner] at parsed
        cases parsed
        rw [Node.value] at valued
        split_ifs at valued with shallow
        cases members : tree.values (depth - 1) [] with
        | error fault =>
          rw [members] at valued
          cases valued
        | ok members =>
          rw [members] at valued
          cases valued
          exact .object (not_le.1 shallow) (by rw [ahead, next_ahead ahead]) inner members
    · split_ifs at parsed
      · exact .number parsed valued
      · cases parsed

inductive ItemsForm (fuel : Nat) (first : Bool) (start last : Cursor) : Items → Prop where
  | close (stop : Nat) (shown : start.ahead = ']' :: last.ahead) :
      ItemsForm fuel first start last (.close stop)
  | item {gap : List Char} {inside behind : Cursor} {value : Node} {rest : Items} (blank : Gap gap)
      (shown : start.ahead = (if first then [] else [',']) ++ gap ++ inside.ahead)
      (parsed : parseNode fuel inside = (value, some behind))
      (later : parseItems fuel false behind = (rest, some last)) (offset mark : Nat) :
      ItemsForm fuel first start last (.item offset value mark rest)

theorem ItemsForm.of_item (first : Bool) (start : Cursor) {inside last : Cursor} {gap : List Char}
    {items : Items} (blank : Gap gap)
    (shown : start.ahead = (if first then [] else [',']) ++ gap ++ inside.ahead)
    (parsed : parseItem fuel inside = (items, some last)) :
    ∃ less < fuel, ItemsForm less first start last items := by
  cases fuel with
  | zero => cases parsed
  | succ fuel =>
    refine ⟨fuel, Nat.lt_succ_self fuel, ?_⟩
    rw [parseItem] at parsed
    split at parsed
    · next value behind node =>
      cases later : parseItems fuel false behind with
      | mk rest left =>
        rw [later] at parsed
        cases parsed
        exact .item blank shown node later _ _
    · cases parsed

theorem parseItems_ok {first : Bool} {items : Items}
    (parsed : parseItems fuel first cursor = (items, some behind)) :
    ∃ less < fuel, ItemsForm less first cursor.skipSpace behind items := by
  cases fuel with
  | zero => cases parsed
  | succ fuel =>
    rw [parseItems] at parsed
    simp only at parsed
    split at parsed
    · cases parsed
    · next rest ahead =>
      cases parsed
      exact ⟨fuel, Nat.lt_succ_self fuel, .close _ (by rw [ahead, next_ahead ahead])⟩
    · next c rest inside ahead =>
      split_ifs at parsed with start comma
      · obtain ⟨less, below, form⟩ := ItemsForm.of_item first cursor.skipSpace gap_nil
          (by rw [if_pos start]; rfl) parsed
        exact ⟨less, below.trans (Nat.lt_succ_self fuel), form⟩
      · subst comma
        obtain ⟨gap, blank, shown⟩ := exists_gap cursor.skipSpace.next
        split at parsed
        · cases parsed
        · cases parsed
        · obtain ⟨less, below, form⟩ := ItemsForm.of_item first cursor.skipSpace blank (by
              rw [if_neg start, ahead, ← next_ahead ahead, shown]
              rfl) parsed
          exact ⟨less, below.trans (Nat.lt_succ_self fuel), form⟩
      · cases parsed

inductive MembersForm (fuel : Nat) (first : Bool) (start last : Cursor) : Members → Prop where
  | close (stop : Nat) (shown : start.ahead = '}' :: last.ahead) :
      MembersForm fuel first start last (.close stop)
  | member {gap quoted : List Char} {inside behindKey inner behind : Cursor}
      {key : Except Fault String} {value : Node} {rest : Members} (blank : Gap gap)
      (shown : start.ahead = (if first then [] else [',']) ++ gap ++ inside.ahead)
      (quote : inside.ahead = '"' :: quoted) (taken : takeString inside = .ok (key, behindKey))
      (colon : behindKey.skipSpace.ahead = ':' :: inner.ahead)
      (parsed : parseNode fuel inner = (value, some behind))
      (later : parseMembers fuel false behind = (rest, some last)) (keyStop mark : Nat) :
      MembersForm fuel first start last (.member key keyStop mark value rest)

theorem MembersForm.of_member (first : Bool) (start : Cursor) {inside last : Cursor}
    {gap quoted : List Char} {tree : Members} (blank : Gap gap)
    (shown : start.ahead = (if first then [] else [',']) ++ gap ++ inside.ahead)
    (quote : inside.ahead = '"' :: quoted)
    (parsed : parseMember fuel inside = (tree, some last)) :
    ∃ less < fuel, MembersForm less first start last tree := by
  cases fuel with
  | zero => cases parsed
  | succ fuel =>
    refine ⟨fuel, Nat.lt_succ_self fuel, ?_⟩
    rw [parseMember] at parsed
    split at parsed
    · cases parsed
    · next key behindKey taken =>
      simp only at parsed
      split at parsed
      · next rest colon =>
        split at parsed
        · next value behind node =>
          cases later : parseMembers fuel false behind with
          | mk rest left =>
            rw [later] at parsed
            cases parsed
            exact .member blank shown quote taken (by rw [colon, next_ahead colon]) node later _ _
        · cases parsed
      · cases parsed
      · cases parsed

theorem parseMembers_ok {first : Bool} {tree : Members}
    (parsed : parseMembers fuel first cursor = (tree, some behind)) :
    ∃ less < fuel, MembersForm less first cursor.skipSpace behind tree := by
  cases fuel with
  | zero => cases parsed
  | succ fuel =>
    rw [parseMembers] at parsed
    simp only at parsed
    split at parsed
    · cases parsed
    · next rest ahead =>
      cases parsed
      exact ⟨fuel, Nat.lt_succ_self fuel, .close _ (by rw [ahead, next_ahead ahead])⟩
    · next c rest inside ahead =>
      split_ifs at parsed with start quote comma
      · subst quote
        obtain ⟨less, below, form⟩ := MembersForm.of_member first cursor.skipSpace gap_nil
          (by rw [if_pos start]; rfl) ahead parsed
        exact ⟨less, below.trans (Nat.lt_succ_self fuel), form⟩
      · cases parsed
      · subst comma
        obtain ⟨gap, blank, shown⟩ := exists_gap cursor.skipSpace.next
        split at parsed
        · cases parsed
        · next front =>
          obtain ⟨less, below, form⟩ := MembersForm.of_member first cursor.skipSpace blank (by
              rw [if_neg start, ahead, ← next_ahead ahead, shown]
              rfl) front parsed
          exact ⟨less, below.trans (Nat.lt_succ_self fuel), form⟩
        · cases parsed
        · cases parsed
      · cases parsed

end Steps

/-! ### What has been read is read everywhere -/

/-- The text is members of an object and its brace, from the first of them on or behind one of
them, and the pieces of each are read everywhere as the member says. -/
inductive ListsMembers (depth : Nat) : Bool → List (String × Json) → List Char → Prop where
  | close {first : Bool} {lead : List Char} (leading : Gap lead) :
      ListsMembers depth first [] (lead ++ ['}'])
  | member {first : Bool} {key : String} {json : Json} {members : List (String × Json)}
      {lead gap body middle front text behind : List Char} (leading : Gap lead) (blank : Gap gap)
      (quoted : QuotedBody body key.toList) (between : Gap middle) (ahead : Gap front)
      (value : Spells depth json text) (later : ListsMembers depth false members behind) :
      ListsMembers depth first ((key, json) :: members)
        (lead ++ ((if first then [] else [',']) ++ gap
          ++ '"' :: (body ++ (middle ++ ':' :: (front ++ (text ++ behind))))))

theorem ListsMembers.spells {depth : Nat} {first : Bool} {members : List (String × Json)}
    {text : List Char} (lists : ListsMembers depth first members text) :
    SpellsMembers depth first members text := by
  induction lists with
  | close leading => exact (spellsMembers_close depth _).gap leading
  | member leading blank quoted between ahead value _ ih =>
    exact (SpellsMembers.cons blank quoted between ahead value ih).gap leading

/-- What is in front of the cursor is gone when the reader has taken the value, the elements or the
members in it, and it is read everywhere as these. -/
structure Sound (fuel : Nat) : Prop where
  node : ∀ {depth : Nat} {cursor behind : Cursor} {node : Node} {json : Json},
    parseNode fuel cursor = (node, some behind) → node.value depth = .ok json →
      ∃ gap text, Gap gap ∧ cursor.ahead = gap ++ (text ++ behind.ahead) ∧ Spells depth json text
  items : ∀ {depth : Nat} {first : Bool} {cursor behind : Cursor} {items : Items}
    {elements : List Json}, parseItems fuel first cursor = (items, some behind) →
      items.values depth = .ok elements →
        ∃ text, cursor.ahead = text ++ behind.ahead ∧ SpellsElements depth first elements text
  members : ∀ {depth : Nat} {first : Bool} {cursor behind : Cursor} {tree : Members}
    {known result : List (String × Json)}, parseMembers fuel first cursor = (tree, some behind) →
      tree.values depth known = .ok result →
        ∃ text members, cursor.ahead = text ++ behind.ahead ∧
          ListsMembers depth first members text ∧ result = gathered known members

theorem sound_node {fuel : Nat} (below : ∀ less < fuel, Sound less) {depth : Nat}
    {cursor behind : Cursor} {node : Node} {json : Json}
    (parsed : parseNode fuel cursor = (node, some behind)) (valued : node.value depth = .ok json) :
    ∃ gap text, Gap gap ∧ cursor.ahead = gap ++ (text ++ behind.ahead) ∧ Spells depth json text := by
  obtain ⟨less, rfl, form⟩ := parseNode_ok parsed valued
  obtain ⟨gap, blank, start⟩ := exists_gap cursor
  have inner := below less (Nat.lt_succ_self less)
  cases form with
  | scalar core shown spells _ => exact ⟨gap, core, blank, by rw [start, shown], spells⟩
  | string quoted shown =>
    exact ⟨gap, _, blank, by rw [start, shown], spells_string depth quoted⟩
  | array deep shown taken held =>
    obtain ⟨text, ahead, elements⟩ := inner.items taken held
    refine ⟨gap, '[' :: text, blank, ?_, spells_array deep elements⟩
    rw [start, shown, ahead, List.cons_append]
  | object deep shown taken held =>
    obtain ⟨text, members, ahead, lists, rfl⟩ := inner.members taken held
    refine ⟨gap, '{' :: text, blank, ?_, spells_object deep lists.spells⟩
    rw [start, shown, ahead, List.cons_append]

theorem sound_items {fuel : Nat} (below : ∀ less < fuel, Sound less) {depth : Nat} {first : Bool}
    {cursor behind : Cursor} {items : Items} {elements : List Json}
    (parsed : parseItems fuel first cursor = (items, some behind))
    (valued : items.values depth = .ok elements) :
    ∃ text, cursor.ahead = text ++ behind.ahead ∧ SpellsElements depth first elements text := by
  obtain ⟨less, smaller, form⟩ := parseItems_ok parsed
  obtain ⟨lead, leading, start⟩ := exists_gap cursor
  have inner := below less smaller
  cases form with
  | close stop shown =>
    cases valued
    refine ⟨lead ++ [']'], by simp [start, shown], (spellsElements_close depth first).gap leading⟩
  | @item gap inside middle value rest blank shown taken later offset mark =>
    rw [Items.values] at valued
    cases element : value.value depth with
    | error fault =>
      rw [element] at valued
      cases valued
    | ok json =>
      cases others : rest.values depth with
      | error fault =>
        rw [element, others] at valued
        cases valued
      | ok more =>
        rw [element, others] at valued
        cases valued
        obtain ⟨front, text, fronted, ahead, spells⟩ := inner.node taken element
        obtain ⟨behindText, left, elements⟩ := inner.items later others
        refine ⟨lead ++ ((if first then [] else [',']) ++ (gap ++ front) ++ (text ++ behindText)), ?_,
          (SpellsElements.cons (blank.append fronted) spells elements).gap leading⟩
        rw [start, shown, ahead, left]
        simp only [List.append_assoc]

theorem sound_members {fuel : Nat} (below : ∀ less < fuel, Sound less) {depth : Nat} {first : Bool}
    {cursor behind : Cursor} {tree : Members} {known result : List (String × Json)}
    (parsed : parseMembers fuel first cursor = (tree, some behind))
    (valued : tree.values depth known = .ok result) :
    ∃ text members, cursor.ahead = text ++ behind.ahead ∧
      ListsMembers depth first members text ∧ result = gathered known members := by
  obtain ⟨less, smaller, form⟩ := parseMembers_ok parsed
  obtain ⟨lead, leading, start⟩ := exists_gap cursor
  have inner := below less smaller
  cases form with
  | close stop shown =>
    cases valued
    exact ⟨lead ++ ['}'], [], by simp [start, shown], .close leading, rfl⟩
  | @member gap _ inside behindKey next middle key value rest blank shown quote taken colon held later
      keyStop mark =>
    cases key with
    | error fault => cases valued
    | ok key =>
      simp only [Members.values] at valued
      cases json : value.value depth with
      | error fault =>
        rw [json] at valued
        cases valued
      | ok json' =>
        simp only [json] at valued
        obtain ⟨body, quoted, inside_ahead⟩ := takeString_ok quote taken
        obtain ⟨between, betweenBlank, key_ahead⟩ := exists_gap behindKey
        obtain ⟨front, text, fronted, ahead, spells⟩ := inner.node held json
        obtain ⟨behindText, members, left, lists, rfl⟩ := inner.members later valued
        refine ⟨_, _, ?_, .member leading blank quoted betweenBlank fronted spells lists, rfl⟩
        rw [start, shown, inside_ahead, key_ahead, colon, ahead, left]
        simp only [List.append_assoc, List.cons_append]

theorem sound (fuel : Nat) : Sound fuel := by
  induction fuel using Nat.strong_induction_on with
  | _ fuel ih => exact ⟨sound_node ih, sound_items ih, sound_members ih⟩

/-! ### What has not been read has no value -/

/-- A tree that the reader has left before its end has no value. -/
structure Broken (fuel : Nat) : Prop where
  node : ∀ {cursor : Cursor} {node : Node}, parseNode fuel cursor = (node, none) →
    ∀ depth json, node.value depth ≠ .ok json
  items : ∀ {first : Bool} {cursor : Cursor} {items : Items},
    parseItems fuel first cursor = (items, none) → ∀ depth elements, items.values depth ≠ .ok elements
  item : ∀ {cursor : Cursor} {items : Items},
    parseItem fuel cursor = (items, none) → ∀ depth elements, items.values depth ≠ .ok elements
  members : ∀ {first : Bool} {cursor : Cursor} {tree : Members},
    parseMembers fuel first cursor = (tree, none) →
      ∀ depth known result, tree.values depth known ≠ .ok result
  member : ∀ {cursor : Cursor} {tree : Members}, parseMember fuel cursor = (tree, none) →
    ∀ depth known result, tree.values depth known ≠ .ok result

theorem broken_zero : Broken 0 where
  node := by rintro _ _ ⟨⟩ _ _ ⟨⟩
  items := by rintro _ _ _ ⟨⟩ _ _ ⟨⟩
  item := by rintro _ _ ⟨⟩ _ _ ⟨⟩
  members := by rintro _ _ _ ⟨⟩ _ _ _ ⟨⟩
  member := by rintro _ _ ⟨⟩ _ _ _ ⟨⟩

theorem takeWord_none {letters : List Char} {scalar : Scalar} {cursor : Cursor} {node : Node}
    (taken : takeWord letters scalar cursor = (node, none)) : ∃ faults, node = .broken faults := by
  induction letters generalizing cursor with
  | nil => cases taken
  | cons letter letters ih =>
    unfold takeWord at taken
    split at taken
    · cases taken
      exact ⟨_, rfl⟩
    · split_ifs at taken
      · exact ih taken
      · cases taken
        exact ⟨_, rfl⟩

theorem broken_item {fuel : Nat} (inner : Broken fuel) {cursor : Cursor} {items : Items}
    (parsed : parseItem (fuel + 1) cursor = (items, none)) (depth : Nat) (elements : List Json) :
    items.values depth ≠ .ok elements := by
  rw [parseItem] at parsed
  intro valued
  split at parsed
  · next value behind node =>
    cases later : parseItems fuel false behind with
    | mk rest left =>
      rw [later] at parsed
      cases parsed
      rw [Items.values] at valued
      cases others : rest.values depth with
      | error fault =>
        rw [others] at valued
        split at valued <;> cases valued
      | ok more => exact inner.items later depth more others
  · next value node =>
    cases parsed
    rw [Items.values] at valued
    split at valued
    · cases valued
    · next json element => exact inner.node node depth json element

theorem broken_member {fuel : Nat} (inner : Broken fuel) {cursor : Cursor} {tree : Members}
    (parsed : parseMember (fuel + 1) cursor = (tree, none)) (depth : Nat)
    (known result : List (String × Json)) : tree.values depth known ≠ .ok result := by
  -- whatever the key is, the value or the members behind it are broken
  have unread : ∀ {key : Except Fault String} {keyStop mark : Nat} {value : Node} {rest : Members},
      ((∀ json, value.value depth ≠ .ok json) ∨ ∀ known, rest.values depth known ≠ .ok result) →
        (Members.member key keyStop mark value rest).values depth known ≠ .ok result := by
    intro key keyStop mark value rest parts valued
    cases key with
    | error fault => cases valued
    | ok key =>
      rw [Members.values] at valued
      split at valued
      · cases valued
      · next json held =>
        rcases parts with none | none
        · exact none json held
        · exact none _ valued
  rw [parseMember] at parsed
  split at parsed
  · cases parsed
    rintro ⟨⟩
  · next key behindKey taken =>
    simp only at parsed
    split at parsed
    · split at parsed
      · next value behind node =>
        cases later : parseMembers fuel false behind with
        | mk rest left =>
          rw [later] at parsed
          cases parsed
          exact unread (.inr fun known => inner.members later depth known result)
      · next value node =>
        cases parsed
        exact unread (.inl (inner.node node depth))
    · cases parsed
      exact unread (.inl (by rintro _ ⟨⟩))
    · cases parsed
      exact unread (.inl (by rintro _ ⟨⟩))

theorem broken_items {fuel : Nat} (inner : Broken fuel) {first : Bool} {cursor : Cursor}
    {items : Items} (parsed : parseItems (fuel + 1) first cursor = (items, none)) (depth : Nat)
    (elements : List Json) : items.values depth ≠ .ok elements := by
  rw [parseItems] at parsed
  simp only at parsed
  split at parsed
  · cases parsed
    rintro ⟨⟩
  · cases parsed
  · split_ifs at parsed
    · exact inner.item parsed depth elements
    · split at parsed
      · cases parsed
        rintro ⟨⟩
      · cases parsed
        rintro ⟨⟩
      · exact inner.item parsed depth elements
    · cases parsed
      rintro ⟨⟩

theorem broken_members {fuel : Nat} (inner : Broken fuel) {first : Bool} {cursor : Cursor}
    {tree : Members} (parsed : parseMembers (fuel + 1) first cursor = (tree, none)) (depth : Nat)
    (known result : List (String × Json)) : tree.values depth known ≠ .ok result := by
  rw [parseMembers] at parsed
  simp only at parsed
  split at parsed
  · cases parsed
    rintro ⟨⟩
  · cases parsed
  · split_ifs at parsed
    · exact inner.member parsed depth known result
    · cases parsed
      rintro ⟨⟩
    · split at parsed
      · cases parsed
        rintro ⟨⟩
      · exact inner.member parsed depth known result
      · cases parsed
        rintro ⟨⟩
      · cases parsed
        rintro ⟨⟩
    · cases parsed
      rintro ⟨⟩

theorem broken_node {fuel : Nat} (inner : Broken fuel) {cursor : Cursor} {node : Node}
    (parsed : parseNode (fuel + 1) cursor = (node, none)) (depth : Nat) (json : Json) :
    node.value depth ≠ .ok json := by
  have word : ∀ {letters : List Char} {scalar : Scalar} {start : Cursor},
      takeWord letters scalar start = (node, none) → node.value depth ≠ .ok json := by
    intro letters scalar start taken
    obtain ⟨faults, rfl⟩ := takeWord_none taken
    rintro ⟨⟩
  rw [parseNode] at parsed
  simp only at parsed
  split at parsed
  · cases parsed
    rintro ⟨⟩
  · exact word parsed
  · exact word parsed
  · exact word parsed
  · unfold stringNode at parsed
    split at parsed <;> cases parsed
    rintro ⟨⟩
  · cases items : parseItems fuel true cursor.skipSpace.next with
    | mk tree left =>
      rw [items] at parsed
      cases parsed
      rw [Node.value]
      split_ifs
      · rintro ⟨⟩
      · intro valued
        cases elements : tree.values (depth - 1) with
        | error fault =>
          rw [elements] at valued
          cases valued
        | ok values => exact inner.items items _ values elements
  · cases members : parseMembers fuel true cursor.skipSpace.next with
    | mk tree left =>
      rw [members] at parsed
      cases parsed
      rw [Node.value]
      split_ifs
      · rintro ⟨⟩
      · intro valued
        cases entries : tree.values (depth - 1) [] with
        | error fault =>
          rw [entries] at valued
          cases valued
        | ok values => exact inner.members members _ _ values entries
  · split_ifs at parsed
    · unfold numberNode at parsed
      split at parsed <;> cases parsed
      rintro ⟨⟩
    · cases parsed
      rintro ⟨⟩

theorem broken (fuel : Nat) : Broken fuel := by
  induction fuel with
  | zero => exact broken_zero
  | succ fuel ih =>
    exact ⟨broken_node ih, broken_items ih, broken_item ih, broken_members ih, broken_member ih⟩

end LogCensus.Json
