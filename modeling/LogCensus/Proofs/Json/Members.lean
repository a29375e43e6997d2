import LogCensus.Proofs.Json.Sound
import LogCensus.Proofs.SortedMap

/-!
Which texts are objects. A text is read as an object exactly if it is braces around members with
commas between them, each of them a text of a string, a colon and a text of a value; what the object
holds are these members in the order of their keys, of two with one key the later.
-/

namespace LogCensus.Json

/-! ### Whole texts -/

/-- The whole text is read as the value, where `depth` arrays and objects may be open, less one. -/
def ReadsWithin (depth : Nat) (text : List Char) (json : Json) : Prop :=
  ∃ node, Node.ofText text = (node, none) ∧ node.value depth = .ok json

instance (depth : Nat) (text : List Char) (json : Json) : Decidable (ReadsWithin depth text json) :=
  decidable_of_iff
    ((Node.ofText text).2 = none ∧ (Node.ofText text).1.value depth = .ok json) (by
      constructor
      · rintro ⟨whole, valued⟩
        exact ⟨_, Prod.ext rfl whole, valued⟩
      · rintro ⟨node, whole, valued⟩
        rw [whole]
        exact ⟨rfl, valued⟩)

theorem ofText_eq_ok {text : List Char} {json : Json} :
    ofText text = .ok json ↔ ReadsWithin depthLimit text json := by
  unfold ofText ReadsWithin
  cases parsed : Node.ofText text with
  | mk node trailing =>
    simp only [Prod.mk.injEq]
    constructor
    · intro read
      split at read
      · cases read
      · cases read
      · next value held =>
        cases read
        exact ⟨node, ⟨rfl, rfl⟩, held⟩
    · rintro ⟨_, ⟨rfl, rfl⟩, value⟩
      rw [value]

theorem nodeOfText_eq {text : List Char} {node : Node} {depth : Nat} {json : Json}
    (valued : node.value depth = .ok json) :
    Node.ofText text = (node, none) ↔
      ∃ trail behind, Gap trail ∧
        parseNode (fuelFor text) (.ofText text) = (node, some ⟨trail, behind⟩) := by
  unfold Node.ofText
  cases parsed : parseNode (fuelFor text) (.ofText text) with
  | mk other left =>
    cases left with
    | none =>
      simp only [Prod.mk.injEq, reduceCtorEq, and_false, exists_false, iff_false, and_true]
      rintro rfl
      exact (broken (fuelFor text)).node parsed depth json valued
    | some left =>
      obtain ⟨gap, blank, ahead⟩ := exists_gap left
      simp only [Prod.mk.injEq, Option.some.injEq]
      constructor
      · rintro ⟨rfl, ended⟩
        split_ifs at ended with none
        rw [List.isEmpty_iff.1 none, List.append_nil] at ahead
        exact ⟨left.ahead, left.offset, ahead ▸ blank, rfl, rfl⟩
      · rintro ⟨trail, behind, blank, rfl, rfl⟩
        refine ⟨rfl, if_pos ?_⟩
        exact List.isEmpty_iff.2 (List.dropWhile_eq_nil_iff.2 blank)

/-- A text is a value between blanks. -/
theorem readsWithin_iff {depth : Nat} {text : List Char} {json : Json} :
    ReadsWithin depth text json ↔ ∃ lead core trail, Gap lead ∧ Gap trail ∧
      text = lead ++ (core ++ trail) ∧ Spells depth json core := by
  constructor
  · rintro ⟨node, whole, valued⟩
    obtain ⟨trail, behind, blank, parsed⟩ := (nodeOfText_eq valued).1 whole
    obtain ⟨lead, core, leading, shown, spells⟩ := (sound _).node parsed valued
    exact ⟨lead, core, trail, leading, blank, shown, spells⟩
  · rintro ⟨lead, core, trail, leading, blank, rfl, spells⟩
    obtain ⟨node, behind, valued, parsed⟩ := spells.parses_gap leading (endsNumeral_gap blank) 0
      (show 3 * core.length ≤ fuelFor (lead ++ (core ++ trail)) by
        simp only [fuelFor, List.length_append]
        omega)
    exact ⟨node, (nodeOfText_eq valued).2 ⟨trail, behind, blank, parsed⟩, valued⟩

theorem exists_form {text : List Char} {json : Json} (read : ofText text = .ok json) :
    ∃ lead start fuel behind, Gap lead ∧ text = lead ++ Cursor.ahead start ∧
      Gap (Cursor.ahead behind) ∧ NodeForm depthLimit fuel start behind json := by
  obtain ⟨node, whole, valued⟩ := ofText_eq_ok.1 read
  obtain ⟨trail, behind, blank, parsed⟩ := (nodeOfText_eq valued).1 whole
  obtain ⟨fuel, -, form⟩ := parseNode_ok parsed valued
  obtain ⟨lead, leading, shown⟩ := exists_gap (.ofText text)
  exact ⟨lead, _, fuel, _, leading, shown, blank, form⟩

theorem ofText_string_iff {text : List Char} {key : String} :
    ofText text = .ok (.string key) ↔ ∃ lead body trail, Gap lead ∧ Gap trail ∧
      text = lead ++ '"' :: (body ++ trail) ∧ QuotedBody body key.toList := by
  constructor
  · intro read
    obtain ⟨lead, start, fuel, behind, leading, shown, blank, form⟩ := exists_form read
    cases form with
    | scalar _ _ _ plain => exact plain.elim
    | string quoted ahead =>
      exact ⟨lead, _, behind.ahead, leading, blank, shown.trans (congrArg (lead ++ ·) ahead), quoted⟩
  · rintro ⟨lead, body, trail, leading, blank, rfl, quoted⟩
    exact ofText_eq_ok.2 (readsWithin_iff.2
      ⟨lead, '"' :: body, trail, leading, blank, rfl, spells_string depthLimit quoted⟩)

theorem ofText_object_iff {text : List Char} {entries : List (String × Json)} :
    ofText text = .ok (.object entries) ↔ ∃ lead inner trail members, Gap lead ∧ Gap trail ∧
      text = lead ++ '{' :: (inner ++ trail) ∧
        ListsMembers (depthLimit - 1) true members inner ∧ entries = gathered [] members := by
  constructor
  · intro read
    obtain ⟨lead, start, fuel, behind, leading, shown, blank, form⟩ := exists_form read
    cases form with
    | scalar _ _ _ plain => exact plain.elim
    | object deep ahead parsed valued =>
      obtain ⟨inner, members, inside, lists, rfl⟩ := (sound fuel).members parsed valued
      refine ⟨lead, inner, behind.ahead, members, leading, blank, ?_, lists, rfl⟩
      rw [shown, ahead, inside]
  · rintro ⟨lead, inner, trail, members, leading, blank, rfl, lists, rfl⟩
    exact ofText_eq_ok.2 (readsWithin_iff.2 ⟨lead, '{' :: inner, trail, leading, blank, rfl,
      spells_object (by decide) lists.spells⟩)

/-! ### Texts of members -/

/-- The text of a member: one of its key and one of its value, each with the blanks around it. A
value inside an object is one that leaves room for the object. -/
structure MemberText where
  keyText : List Char
  key : String
  valueText : List Char
  value : Json
  key_read : ofText keyText = .ok (.string key)
  value_read : ReadsWithin (depthLimit - 1) valueText value

namespace MemberText

def text (member : MemberText) : List Char := member.keyText ++ ':' :: member.valueText

def entry (member : MemberText) : String × Json := (member.key, member.value)

end MemberText

/-- The members in their braces with commas between them. Blanks stand in the texts of the members
but for an object without members. -/
def objectText (gap : List Char) (written : List MemberText) : List Char :=
  '{' :: (gap ++ ([','].intercalate (written.map MemberText.text) ++ ['}']))

def listed (first : Bool) (texts : List (List Char)) : List Char :=
  if first then [','].intercalate texts else texts.flatMap (',' :: ·)

theorem intercalate_cons (text : List Char) (texts : List (List Char)) :
    [','].intercalate (text :: texts) = text ++ texts.flatMap (',' :: ·) := by
  induction texts generalizing text with
  | nil => simp [List.intercalate]
  | cons next texts ih =>
    rw [List.flatMap_cons, List.cons_append, ← ih next]
    simp [List.intercalate, List.intersperse_cons_cons]

theorem listed_cons (first : Bool) (text : List Char) (texts : List (List Char)) :
    listed first (text :: texts) = (if first then [] else [',']) ++ (text ++ listed false texts) := by
  cases first with
  | true => exact intercalate_cons text texts
  | false => simp [listed]

/-- The members of an accepted object can be told apart in its text. -/
theorem ListsMembers.exists_written {first : Bool} {members : List (String × Json)}
    {text : List Char} (lists : ListsMembers (depthLimit - 1) first members text) :
    ∃ (gap : List Char) (written : List MemberText), Gap gap ∧
      written.map MemberText.entry = members ∧
        text = gap ++ (listed first (written.map MemberText.text) ++ ['}']) := by
  generalize depth_eq : depthLimit - 1 = depth at lists
  induction lists with
  | @close first lead leading =>
    refine ⟨lead, [], leading, rfl, ?_⟩
    cases first <;> rfl
  | @member first key json members lead gap body middle front text behind leading blank quoted between
      ahead value later ih =>
    subst depth_eq
    obtain ⟨trail, written, trailing, entries, rfl⟩ := ih
    -- blanks in front of a key belong to it, those in front of a comma do not
    obtain ⟨outer, own, outerBlank, ownBlank, split⟩ : ∃ outer own, Gap outer ∧ Gap own ∧
        lead ++ (if first then [] else [',']) ++ gap =
          outer ++ (if first then [] else [',']) ++ own := by
      cases first with
      | true => exact ⟨[], lead ++ gap, gap_nil, leading.append blank, by simp⟩
      | false => exact ⟨lead, gap, leading, blank, rfl⟩
    have keyRead : ofText (own ++ '"' :: (body ++ middle)) = .ok (.string key) :=
      ofText_string_iff.2 ⟨own, body, middle, ownBlank, between, rfl, quoted⟩
    have valueRead : ReadsWithin (depthLimit - 1) (front ++ (text ++ trail)) json :=
      readsWithin_iff.2 ⟨front, text, trail, ahead, trailing, rfl, value⟩
    refine ⟨outer, ⟨_, key, _, json, keyRead, valueRead⟩ :: written, outerBlank, ?_, ?_⟩
    · rw [List.map_cons, entries]
      rfl
    · rw [List.map_cons, listed_cons, MemberText.text]
      have joined := congrArg (· ++ '"' :: (body ++ (middle ++ ':' :: (front ++ (text ++ (trail ++
        (listed false (written.map MemberText.text) ++ ['}']))))))) split
      simp only [List.append_assoc, List.cons_append] at joined ⊢
      exact joined

/-- Texts of members make up an object. -/
theorem listsMembers_of_written (first : Bool) {gap : List Char} (blank : Gap gap)
    (written : List MemberText) :
    ListsMembers (depthLimit - 1) first (written.map MemberText.entry)
      (gap ++ (listed first (written.map MemberText.text) ++ ['}'])) := by
  induction written generalizing first gap with
  | nil =>
    have none : listed first [] = [] := by cases first <;> rfl
    rw [List.map_nil, List.map_nil, none, List.nil_append]
    exact .close blank
  | cons member written ih =>
    obtain ⟨keyText, key, valueText, json, keyRead, valueRead⟩ := member
    obtain ⟨lead, body, middle, leading, between, rfl, quoted⟩ := ofText_string_iff.1 keyRead
    obtain ⟨front, core, trail, ahead, trailing, rfl, spells⟩ := readsWithin_iff.1 valueRead
    have lists : ListsMembers _ first _ _ :=
      .member blank leading quoted between ahead spells (ih false trailing)
    rw [List.map_cons, List.map_cons, listed_cons, MemberText.text]
    simp only [List.append_assoc, List.cons_append] at lists ⊢
    exact lists

theorem ofText_objectText_iff {text : List Char} {entries : List (String × Json)} :
    ofText text = .ok (.object entries) ↔ ∃ lead gap written trail, Gap lead ∧ Gap gap ∧ Gap trail ∧
      text = lead ++ (objectText gap written ++ trail) ∧
        entries = gathered [] (written.map MemberText.entry) := by
  rw [ofText_object_iff]
  constructor
  · rintro ⟨lead, inner, trail, members, leading, trailing, rfl, lists, rfl⟩
    obtain ⟨gap, written, blank, rfl, rfl⟩ := lists.exists_written
    exact ⟨lead, gap, written, trail, leading, blank, trailing, rfl, rfl⟩
  · rintro ⟨lead, gap, written, trail, leading, blank, trailing, rfl, rfl⟩
    exact ⟨lead, _, trail, _, leading, trailing, rfl, listsMembers_of_written true blank written, rfl⟩

/-! ### What an object holds -/

open SortedMap (Sorted find? placed)

theorem sorted_gathered {known : List (String × Json)} (sorted : Sorted known)
    (members : List (String × Json)) : Sorted (gathered known members) := by
  induction members generalizing known with
  | nil => exact sorted
  | cons entry members ih => exact ih (SortedMap.sorted_placed entry.1 _ sorted)

theorem gathered_append (known front behind : List (String × Json)) :
    gathered known (front ++ behind) = gathered (gathered known front) behind :=
  List.foldl_append

/-- What is found among gathered members depends on what was found in front of them. -/
theorem find?_gathered_congr {key : String} {one other : List (String × Json)} (sorted : Sorted one)
    (otherSorted : Sorted other) (same : find? key one = find? key other)
    (members : List (String × Json)) :
    find? key (gathered one members) = find? key (gathered other members) := by
  induction members generalizing one other with
  | nil => exact same
  | cons entry members ih =>
    refine ih (SortedMap.sorted_placed entry.1 _ sorted)
      (SortedMap.sorted_placed entry.1 _ otherSorted) ?_
    by_cases own : key = entry.1
    · rw [own, SortedMap.find?_placed_self entry.1 _ sorted,
        SortedMap.find?_placed_self entry.1 _ otherSorted]
    · rw [SortedMap.find?_placed_of_ne own, SortedMap.find?_placed_of_ne own, same]

theorem find?_gathered_of_absent {key : String} {members : List (String × Json)}
    (absent : ∀ entry ∈ members, entry.1 ≠ key) (known : List (String × Json)) :
    find? key (gathered known members) = find? key known := by
  induction members generalizing known with
  | nil => rfl
  | cons entry members ih =>
    obtain ⟨differs, others⟩ := List.forall_mem_cons.1 absent
    exact (ih others _).trans (SortedMap.find?_placed_of_ne differs.symm _ known)

theorem isSome_find?_gathered (key : String) (members : List (String × Json)) :
    (find? key (gathered [] members)).isSome = (members.map Prod.fst).contains key := by
  induction members using List.reverseRecOn with
  | nil => rfl
  | append_singleton front entry ih =>
    have sorted : Sorted (gathered [] front) := sorted_gathered .nil front
    rw [gathered_append, List.map_append, List.contains_append, ← ih]
    change (find? key (placed entry.1 _ (gathered [] front))).isSome = _
    by_cases own : key = entry.1
    · rw [own, SortedMap.find?_placed_self entry.1 _ sorted]
      simp
    · rw [SortedMap.find?_placed_of_ne own]
      simp [own]

theorem mem_of_mem_gathered {entry : String × Json} {members : List (String × Json)}
    (held : entry ∈ gathered [] members) : ∃ written ∈ members, written.1 = entry.1 := by
  have found := SortedMap.find?_of_mem (sorted_gathered .nil members) held
  have there := isSome_find?_gathered entry.1 members
  rw [found, Option.isSome_some, eq_comm, List.contains_iff_mem, List.mem_map] at there
  exact there

/-- It does not matter where a member with a key of its own stands. -/
theorem gathered_insert {key : String} {before after : List (String × Json)}
    (fresh : ∀ entry ∈ before ++ after, entry.1 ≠ key) (json : Json) :
    gathered [] (before ++ (key, json) :: after) =
      placed key (fun _ => json) (gathered [] (before ++ after)) := by
  have front : Sorted (gathered [] before) := sorted_gathered .nil before
  have sorted : Sorted (gathered [] (before ++ after)) := sorted_gathered .nil _
  refine SortedMap.entries_eq_of_find? (sorted_gathered .nil _)
    (SortedMap.sorted_placed key _ sorted) fun other => ?_
  rw [gathered_append]
  change find? other (gathered (placed key (fun _ => json) (gathered [] before)) after) = _
  by_cases own : other = key
  · subst own
    have behind : ∀ entry ∈ after, entry.1 ≠ other := fun entry member =>
      fresh entry (List.mem_append_right before member)
    rw [find?_gathered_of_absent behind, SortedMap.find?_placed_self other _ front,
      SortedMap.find?_placed_self other _ sorted]
  · rw [SortedMap.find?_placed_of_ne own, gathered_append]
    exact find?_gathered_congr (SortedMap.sorted_placed key _ front) front
      (SortedMap.find?_placed_of_ne own _ _) after

end LogCensus.Json
