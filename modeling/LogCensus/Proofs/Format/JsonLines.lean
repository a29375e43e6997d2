import LogCensus.Format.JsonLines
import LogCensus.Proofs.Json.Members
import LogCensus.Proofs.Text.Blank

/-!
The lines of JSON logs. A line is accepted exactly if it is the text of an object between blanks,
and of its members each attribute of the entry looks at the first of its keys that is there. A
member without a scalar therefore takes part in an attribute if its key is that first one, and in
nothing else.
-/

namespace LogCensus.Format.JsonLines

open Json (Gap MemberText gathered objectText)
open SortedMap (find? placed)

/-! ### Accepted lines -/

theorem exists_object_of_value {node : Json.Node} {depth : Nat} {entries : List (String × Json)}
    (value : node.value depth = .ok (.object entries)) : ∃ start inner, node = .object start inner := by
  cases node with
  | object start inner => exact ⟨start, inner, rfl⟩
  | broken faults => cases value
  | array start items =>
    rw [Json.Node.value] at value
    split_ifs at value
    cases values : items.values (depth - 1) <;> rw [values] at value <;> cases value
  | scalar content stop =>
    rw [Json.Node.value] at value
    rcases content with fault | content
    · cases value
    · cases content <;> cases value

theorem exists_entries_of_value {start depth : Nat} {inner : Json.Members} {json : Json}
    (value : (Json.Node.object start inner).value depth = .ok json) :
    ∃ entries, json = .object entries := by
  rw [Json.Node.value] at value
  split_ifs at value
  cases values : inner.values (depth - 1) [] <;> rw [values] at value <;> cases value
  exact ⟨_, rfl⟩

theorem members_eq_ok {text : List Char} {entries : List (String × Json)} :
    members text = .ok entries ↔ Json.ofText text = .ok (.object entries) := by
  rw [Json.ofText_eq_ok, Json.ReadsWithin]
  unfold members
  cases parsed : Json.Node.ofText text with
  | mk node trailing =>
    simp only [Prod.mk.injEq]
    constructor
    · intro read
      split at read
      · next start inner rest same =>
        cases same
        split at read
        · cases read
        · cases read
        · next held value =>
          cases read
          exact ⟨_, ⟨rfl, rfl⟩, value⟩
        · next other value =>
          obtain ⟨held, rfl⟩ := exists_entries_of_value value
          exact absurd rfl (other held)
      · cases read
    · rintro ⟨_, ⟨rfl, rfl⟩, value⟩
      obtain ⟨start, inner, rfl⟩ := exists_object_of_value value
      simp only [value]

theorem isBlank_of_isSpace {c : Char} (space : Json.Cursor.isSpace c = true) :
    Text.isBlank c = true := by
  simp only [Json.Cursor.isSpace, Bool.or_eq_true, beq_iff_eq] at space
  rcases space with ((rfl | rfl) | rfl) | rfl <;> decide

/-- A line is an object exactly if without the blanks around it it is the text of one. -/
theorem members_trim_iff {text : List Char} {entries : List (String × Json)} :
    members (Text.trim text) = .ok entries ↔ ∃ gap written, Gap gap ∧
      Text.trim text = objectText gap written ∧
        entries = gathered [] (written.map MemberText.entry) := by
  rw [members_eq_ok, Json.ofText_objectText_iff]
  constructor
  · rintro ⟨lead, gap, written, trail, leading, blank, trailing, shown, rfl⟩
    have noLead : lead = [] := by
      cases lead with
      | nil => rfl
      | cons c lead =>
        have solid := Text.solid_head_trim text c (by rw [shown]; rfl)
        rw [isBlank_of_isSpace (leading c List.mem_cons_self)] at solid
        cases solid
    have noTrail : trail = [] := by
      rcases List.eq_nil_or_concat trail with none | ⟨front, c, rfl⟩
      · exact none
      · have solid := Text.solid_last_trim text c (by rw [shown, ← List.append_assoc]; simp)
        rw [isBlank_of_isSpace (trailing c (by simp))] at solid
        cases solid
    subst noLead noTrail
    rw [List.nil_append, List.append_nil] at shown
    exact ⟨gap, written, blank, shown, rfl⟩
  · rintro ⟨gap, written, blank, shown, rfl⟩
    refine ⟨[], gap, written, [], Json.gap_nil, blank, Json.gap_nil, ?_, rfl⟩
    rw [shown, List.nil_append, List.append_nil]

/-! ### Keys that are there -/

theorem lookup_eq_find? (key : String) (members : List (String × Json)) :
    members.lookup key = find? key members := by
  induction members with
  | nil => rfl
  | cons entry members ih =>
    obtain ⟨name, json⟩ := entry
    rw [List.lookup_cons, ih]
    by_cases same : key = name
    · rw [same, SortedMap.find?_head (name, json), beq_self_eq_true]
    · have apart : key ≠ (name, json).1 := same
      rw [SortedMap.find?_cons_of_ne apart, beq_false_of_ne same]

/-- Of the keys, the added one is the first that is there. -/
def Leads (key : String) (keys : List String) (members : List (String × Json)) : Prop :=
  keys.find? (fun other => other == key || (members.map Prod.fst).contains other) = some key

instance (key : String) (keys : List String) (members : List (String × Json)) :
    Decidable (Leads key keys members) :=
  inferInstanceAs (Decidable (_ = _))

theorem pick?_cons (key : String) (keys : List String) (members : List (String × Json)) :
    pick? (key :: keys) members =
      match members.lookup key with
      | some value => scalarText? value
      | none => pick? keys members := by
  rw [pick?, List.findSome?_cons]
  cases members.lookup key <;> rfl

/-- The first of the keys that is there decides, and the added one decides where it is the first. -/
theorem pick?_placed {key : String} {value : Json} (without : scalarText? value = none)
    (keys : List String) (written : List (String × Json)) :
    pick? keys (placed key (fun _ => value) (gathered [] written)) =
      if Leads key keys written then none else pick? keys (gathered [] written) := by
  have sorted : SortedMap.Sorted (gathered [] written) := Json.sorted_gathered .nil written
  induction keys with
  | nil => rfl
  | cons other keys ih =>
    rw [pick?_cons, pick?_cons, lookup_eq_find?, lookup_eq_find?]
    by_cases same : other = key
    · subst same
      have leads : Leads other (other :: keys) written := by simp [Leads]
      rw [SortedMap.find?_placed_self other _ sorted, if_pos leads]
      exact without
    · rw [SortedMap.find?_placed_of_ne same]
      have there := Json.isSome_find?_gathered other written
      cases found : find? other (gathered [] written) with
      | none =>
        have leads : Leads key (other :: keys) written ↔ Leads key keys written := by
          simp only [Leads, List.find?_cons, ← there, found, beq_false_of_ne same, Option.isSome_none,
            Bool.or_self]
        rw [if_congr leads rfl rfl]
        exact ih
      | some json =>
        have hidden : ¬ Leads key (other :: keys) written := by
          simp only [Leads, List.find?_cons, ← there, found, Option.isSome_some, Bool.or_true,
            Option.some.injEq, same, not_false_eq_true]
        rw [if_neg hidden]

/-! ### Fields -/

theorem filterMap_placed {β : Type} {key : String} {value : Json} {entries : List (String × Json)}
    {make : String × Json → Option β} (fresh : ∀ entry ∈ entries, entry.1 ≠ key)
    (left : make (key, value) = none) :
    (placed key (fun _ => value) entries).filterMap make = entries.filterMap make := by
  induction entries with
  | nil => simp [placed, left]
  | cons entry entries ih =>
    obtain ⟨differs, others⟩ := List.forall_mem_cons.1 fresh
    rw [placed]
    split
    · rw [List.filterMap_cons, left]
    · next same => exact absurd (SortedMap.compare_eq_iff.1 same).symm differs
    · rw [List.filterMap_cons, List.filterMap_cons, ih others]

theorem fields_placed {key : String} {value : Json} (without : scalarText? value = none)
    {entries : List (String × Json)} (fresh : ∀ entry ∈ entries, entry.1 ≠ key) :
    fields (placed key (fun _ => value) entries) = fields entries := by
  rw [fields, fields, filterMap_placed fresh]
  simp [without]

/-! ### Entries -/

def made (line : String) (members : List (String × Json)) (timestamp : Option Time.Instant) :
    Entry where
  timestamp
  level := ((pick? levelKeys members).map fun text => Level.ofSpelling text.toList).getD .unknown
  kind := (pick? kindKeys members).getD kind
  message := (pick? messageKeys members).getD ""
  fields := fields members
  labels :=
    match (fields members).get? "service" with
    | some service => SortedMap.empty.insert "service" service
    | none => .empty
  raw := line

theorem entryOf_eq (line : String) (members : List (String × Json)) :
    entryOf line members = (timestamp members).map (made line members) := by
  unfold entryOf
  cases timestamp members <;> rfl

theorem read_eq {line : String} {entries : List (String × Json)}
    (object : members (Text.trim line.toList) = .ok entries) :
    jsonLines.read line = .ofExcept ((timestamp entries).map (made line entries)) := by
  change Outcome.ofExcept (readLine line) = _
  rw [readLine, object, ← entryOf_eq]

theorem read_eq_entry {line : String} {entry : Entry} :
    jsonLines.read line = .entry entry ↔
      ∃ entries instant, members (Text.trim line.toList) = .ok entries ∧
        timestamp entries = .ok instant ∧ entry = made line entries instant := by
  constructor
  · intro read
    cases object : members (Text.trim line.toList) with
    | error reason =>
      change Outcome.ofExcept (readLine line) = _ at read
      rw [readLine, object] at read
      cases read
    | ok entries =>
      rw [read_eq object] at read
      cases time : timestamp entries with
      | error refusal =>
        rw [time] at read
        cases read
      | ok instant =>
        rw [time] at read
        cases read
        exact ⟨entries, instant, rfl, time, rfl⟩
  · rintro ⟨entries, instant, object, time, rfl⟩
    rw [read_eq object, time]
    rfl

/-! ### Added members -/

/-- What becomes of an entry when a member without a scalar is added to the object of its line: an
attribute is lost if the added key is the first of its keys that is there. -/
structure Shadowed (key : String) (written : List (String × Json)) (entry found : Entry) :
    Prop where
  timestamp : found.timestamp = if Leads key timestampKeys written then none else entry.timestamp
  level : found.level = if Leads key levelKeys written then .unknown else entry.level
  kind : found.kind = if Leads key kindKeys written then kind else entry.kind
  message : found.message = if Leads key messageKeys written then "" else entry.message
  fields : found.fields = entry.fields
  labels : found.labels = entry.labels

theorem timestamp_placed {key : String} {value : Json} (without : scalarText? value = none)
    {written : List (String × Json)} {instant : Option Time.Instant}
    (time : timestamp (gathered [] written) = .ok instant) :
    timestamp (placed key (fun _ => value) (gathered [] written)) =
      .ok (if Leads key timestampKeys written then none else instant) := by
  rw [timestamp, pick?_placed without]
  split_ifs
  · rfl
  · exact time

theorem shadowed_made {line wider key : String} {value : Json}
    (without : scalarText? value = none) {written : List (String × Json)}
    (fresh : ∀ member ∈ written, member.1 ≠ key) (instant : Option Time.Instant) :
    Shadowed key written (made line (gathered [] written) instant)
      (made wider (placed key (fun _ => value) (gathered [] written))
        (if Leads key timestampKeys written then none else instant)) := by
  have inner : ∀ member ∈ gathered [] written, member.1 ≠ key := by
    intro member held
    obtain ⟨other, known, same⟩ := Json.mem_of_mem_gathered held
    exact same ▸ fresh other known
  have kept := fields_placed without inner
  constructor
  · rfl
  · simp only [made, pick?_placed without]
    split_ifs <;> rfl
  · simp only [made, pick?_placed without]
    split_ifs <;> rfl
  · simp only [made, pick?_placed without]
    split_ifs <;> rfl
  · exact kept
  · simp only [made, kept]

/-- A line that is read is the text of an object. A member without a scalar, under a key of its own
and anywhere in the object, leaves the line to be read, and it leaves fields, labels and all
attributes as they are but those whose keys it leads. -/
theorem read_with_added_member {line : String} {entry : Entry}
    (read : jsonLines.read line = .entry entry) :
    (∃ gap written, Gap gap ∧ Text.trim line.toList = objectText gap written) ∧
    ∀ {gap gap' : List Char} {written written' : List MemberText} (_ : Gap gap) (_ : Gap gap')
      {before after : List (String × Json)} {wider key : String} {value : Json},
      Text.trim line.toList = objectText gap written →
      written.map MemberText.entry = before ++ after →
      Text.trim wider.toList = objectText gap' written' →
      written'.map MemberText.entry = before ++ (key, value) :: after →
      (∀ member ∈ before ++ after, member.1 ≠ key) → scalarText? value = none →
        ∃ found, jsonLines.read wider = .entry found ∧
          Shadowed key (before ++ after) entry found := by
  obtain ⟨entries, instant, object, time, rfl⟩ := read_eq_entry.1 read
  constructor
  · obtain ⟨gap, written, blank, shown, -⟩ := members_trim_iff.1 object
    exact ⟨gap, written, blank, shown⟩
  · intro gap gap' written written' blank blank' before after wider key value shown held shown' held'
      fresh without
    have same := members_trim_iff.2 ⟨gap, written, blank, shown, rfl⟩
    have more := members_trim_iff.2 ⟨gap', written', blank', shown', rfl⟩
    rw [object, held] at same
    rw [held', Json.gathered_insert fresh] at more
    cases same
    refine ⟨_, read_eq_entry.2 ⟨_, _, more, timestamp_placed without time, rfl⟩, ?_⟩
    exact shadowed_made without fresh instant

theorem read_with_added_member_sample :
    ∃ entry, jsonLines.read "\x7b\"msg\":\"up\"\x7d" = .entry entry ∧
      ∃ found, jsonLines.read " \x7b\"msg\": \"up\", \"a\": []\x7d" = .entry found ∧
        Shadowed "a" [("msg", .string "up")] entry found := by
  let message : MemberText := ⟨"\"msg\"".toList, "msg", "\"up\"".toList, .string "up",
    by decide +kernel, by decide +kernel⟩
  let spaced : MemberText := ⟨"\"msg\"".toList, "msg", " \"up\"".toList, .string "up",
    by decide +kernel, by decide +kernel⟩
  let added : MemberText := ⟨" \"a\"".toList, "a", " []".toList, .array [],
    by decide +kernel, by decide +kernel⟩
  have object : members (Text.trim "\x7b\"msg\":\"up\"\x7d".toList) =
      .ok [("msg", .string "up")] := by decide +kernel
  have read : ∃ entry, jsonLines.read "\x7b\"msg\":\"up\"\x7d" = .entry entry :=
    ⟨_, read_eq_entry.2 ⟨_, none, object, by decide +kernel, rfl⟩⟩
  obtain ⟨entry, read⟩ := read
  refine ⟨entry, read, ?_⟩
  have shown : Text.trim "\x7b\"msg\":\"up\"\x7d".toList = objectText [] [message] := by
    decide +kernel
  have shown' : Text.trim " \x7b\"msg\": \"up\", \"a\": []\x7d".toList =
      objectText [] [spaced, added] := by
    decide +kernel
  have held : [message].map MemberText.entry = [("msg", .string "up")] ++ [] := rfl
  have held' : [spaced, added].map MemberText.entry =
      [("msg", .string "up")] ++ [("a", .array [])] := rfl
  exact (read_with_added_member read).2 Json.gap_nil Json.gap_nil shown held shown' held'
    (by decide) rfl

/-- A `null` under the first key of the time hides the time under the last. -/
theorem null_hides_later_key :
    members "\x7b\"ts\":1704067200\x7d".toList = .ok [("ts", .number (.natural 1704067200))] ∧
    members "\x7b\"timestamp\":null,\"ts\":1704067200\x7d".toList =
      .ok [("timestamp", .null), ("ts", .number (.natural 1704067200))] ∧
    (readLine "\x7b\"ts\":1704067200\x7d").toOption.map
      (fun entry => entry.timestamp.map Time.Instant.seconds) = some (some 1704067200) ∧
    (readLine "\x7b\"timestamp\":null,\"ts\":1704067200\x7d").toOption.map
      (fun entry => entry.timestamp.map Time.Instant.seconds) = some none :=
  ⟨by decide +kernel, by decide +kernel, by decide +kernel, by decide +kernel⟩

end LogCensus.Format.JsonLines
