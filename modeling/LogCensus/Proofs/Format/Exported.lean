import LogCensus.Proofs.Export.Entries
import LogCensus.Proofs.Format.JsonLines
import LogCensus.Proofs.Json.Settled
import LogCensus.Proofs.Time.DateTime

/-!
Exported entries are a log in the JSON format again. Each entry has a text of its own, from which
its attributes are read as they were; its maps are lost, and what the format does not know becomes
a field.
-/

namespace LogCensus.Format.JsonLines

open Json (gathered settledMembers)
open SortedMap (Sorted find?)

/-! ### Fields -/

def asField? (entry : String × Json) : Option (String × String) :=
  if knownKeys.contains entry.1 then none
  else (scalarText? entry.2).map fun text => (entry.1, text)

theorem fields_eq (members : List (String × Json)) :
    fields members = .ofList (members.filterMap asField?) := rfl

theorem asField?_eq_some {entry : String × Json} {field : String × String} :
    asField? entry = some field ↔
      entry.1 ∉ knownKeys ∧ entry.1 = field.1 ∧ scalarText? entry.2 = some field.2 := by
  unfold asField?
  split_ifs with known
  · simp [List.contains_iff_mem.1 known]
  · rw [List.contains_iff_mem] at known
    simp only [Option.map_eq_some_iff, known, not_false_eq_true, true_and, Prod.ext_iff]
    constructor
    · rintro ⟨text, scalar, same, rfl⟩
      exact ⟨same, scalar⟩
    · rintro ⟨same, scalar⟩
      exact ⟨_, scalar, same, rfl⟩

theorem get?_fields {members : List (String × Json)} (sorted : Sorted members) {key text : String} :
    (fields members).get? key = some text ↔ key ∉ knownKeys ∧
      ∃ json, find? key members = some json ∧ scalarText? json = some text := by
  have distinct : ((members.filterMap asField?).map Prod.fst).Nodup := by
    refine List.pairwise_map.2 (sorted.filterMap asField? fun one other before => ?_)
    intro field made field' made' same
    rw [← (asField?_eq_some.1 made).2.1, ← (asField?_eq_some.1 made').2.1] at same
    rw [SortedMap.compare_eq_iff.2 same] at before
    cases before
  rw [fields_eq, SortedMap.get?_ofList distinct, List.mem_filterMap]
  constructor
  · rintro ⟨⟨name, json⟩, member, made⟩
    obtain ⟨unknown, rfl, scalar⟩ := asField?_eq_some.1 made
    exact ⟨unknown, json, SortedMap.find?_of_mem sorted member, scalar⟩
  · rintro ⟨unknown, json, found, scalar⟩
    exact ⟨(key, json), SortedMap.mem_of_find? found, asField?_eq_some.2 ⟨unknown, rfl, scalar⟩⟩

end LogCensus.Format.JsonLines

namespace LogCensus

open Json (gathered settledMembers)
open SortedMap (Sorted find?)

namespace Entry

/-! ### Members of an entry -/

def members (entry : Entry) : List (String × Json) :=
  [("timestamp", Json.ofOption Json.ofInstant entry.timestamp),
    ("level", .string entry.level.name), ("type", .string entry.kind),
    ("message", .string entry.message)]
  ++ (if entry.fields.isEmpty then [] else [("fields", Json.ofTexts entry.fields)])
  ++ (if entry.labels.isEmpty then [] else [("labels", Json.ofTexts entry.labels)])
  ++ [("raw", .string entry.raw)]
  ++ (match entry.source with
    | some source => [("source", Json.ofPath source)]
    | none => [])
  ++ [("line", .natural entry.line)]

theorem toJson_eq (entry : Entry) : entry.toJson = .object entry.members := rfl

theorem distinct_members (entry : Entry) : (entry.members.map Prod.fst).Nodup := by
  unfold members
  split_ifs <;> cases entry.source <;> simp

theorem shallow_ofTexts (map : SortedMap String String) (depth : Nat) (room : 1 < depth) :
    (Json.ofTexts map).Shallow depth := by
  refine ⟨room, Json.membersShallow_iff.2 fun entry member => ?_⟩
  obtain ⟨text, -, rfl⟩ := List.mem_map.1 member
  trivial

theorem mem_members {entry : Entry} {key : String} {value : Json} :
    (key, value) ∈ entry.members ↔
      key = "timestamp" ∧ value = Json.ofOption Json.ofInstant entry.timestamp ∨
      key = "level" ∧ value = .string entry.level.name ∨
      key = "type" ∧ value = .string entry.kind ∨
      key = "message" ∧ value = .string entry.message ∨
      entry.fields.isEmpty = false ∧ key = "fields" ∧ value = Json.ofTexts entry.fields ∨
      entry.labels.isEmpty = false ∧ key = "labels" ∧ value = Json.ofTexts entry.labels ∨
      key = "raw" ∧ value = .string entry.raw ∨
      (∃ path ∈ entry.source, key = "source" ∧ value = Json.ofPath path) ∨
      key = "line" ∧ value = .natural entry.line := by
  unfold members
  cases entry.fields.isEmpty <;> cases entry.labels.isEmpty <;> cases entry.source <;>
    simp

theorem shallow_members (entry : Entry) :
    Json.MembersShallow (Json.depthLimit - 1) entry.members := by
  rw [Json.membersShallow_iff]
  rintro ⟨key, value⟩ member
  rcases mem_members.1 member with ⟨-, rfl⟩ | ⟨-, rfl⟩ | ⟨-, rfl⟩ | ⟨-, rfl⟩ | ⟨-, -, rfl⟩ |
    ⟨-, -, rfl⟩ | ⟨-, rfl⟩ | ⟨path, -, -, rfl⟩ | ⟨-, rfl⟩
  · cases entry.timestamp <;> trivial
  · trivial
  · trivial
  · trivial
  · exact shallow_ofTexts _ _ (by decide)
  · exact shallow_ofTexts _ _ (by decide)
  · trivial
  · unfold Json.ofPath
    split <;> trivial
  · trivial

def held (entry : Entry) : List (String × Json) := gathered [] (settledMembers entry.members)

theorem find?_held {entry : Entry} {key : String} {json : Json} :
    find? key entry.held = some json ↔
      ∃ value, (key, value) ∈ entry.members ∧ value.settled = json := by
  have distinct : ((settledMembers entry.members).map Prod.fst).Nodup := by
    rw [Json.settledMembers_eq, List.map_map]
    exact entry.distinct_members
  rw [held, Json.find?_gathered distinct, Json.settledMembers_eq, List.mem_map]
  constructor
  · rintro ⟨⟨name, value⟩, member, same⟩
    cases same
    exact ⟨value, member, rfl⟩
  · rintro ⟨value, member, rfl⟩
    exact ⟨(key, value), member, rfl⟩

end Entry

namespace Format.JsonLines

open Export (stream listing textOfLines arrayLines)
open Text.Utf8 (encode encodeString)

theorem ofSpelling_name (level : Level) : Level.ofSpelling level.name.toList = level := by
  cases level <;> decide

section Held

variable {entry : Entry}

theorem pick?_held {key : String} {value : Json} (member : (key, value) ∈ entry.members)
    (keys : List String) : pick? (key :: keys) entry.held = scalarText? value.settled := by
  rw [pick?_cons, lookup_eq_find?, Entry.find?_held.2 ⟨value, member, rfl⟩]

theorem timestamp_held
    (years : ∀ instant ∈ entry.timestamp, 0 ≤ instant.shown.year ∧ instant.shown.year ≤ 9999) :
    timestamp entry.held = .ok entry.timestamp := by
  have first : pick? timestampKeys entry.held =
      scalarText? (Json.ofOption Json.ofInstant entry.timestamp).settled :=
    pick?_held (Entry.mem_members.2 (.inl ⟨rfl, rfl⟩)) _
  cases known : entry.timestamp with
  | none =>
    rw [known] at first
    rw [timestamp, first]
    rfl
  | some instant =>
    rw [known] at first
    have text : pick? timestampKeys entry.held = some instant.zuluText := first
    have read := Time.Strict.readInstant?_zuluText (years instant known)
    simp only [timestamp, text, instant?, read]

theorem made_held (line : String) (instant : Option Time.Instant) :
    (made line entry.held instant).level = entry.level ∧
      (made line entry.held instant).kind = entry.kind ∧
      (made line entry.held instant).message = entry.message := by
  have level : pick? levelKeys entry.held = some entry.level.name :=
    pick?_held (Entry.mem_members.2 (.inr (.inl ⟨rfl, rfl⟩))) _
  have kind : pick? kindKeys entry.held = some entry.kind :=
    pick?_held (Entry.mem_members.2 (.inr (.inr (.inl ⟨rfl, rfl⟩)))) _
  have message : pick? messageKeys entry.held = some entry.message :=
    pick?_held (Entry.mem_members.2 (.inr (.inr (.inr (.inl ⟨rfl, rfl⟩))))) _
  simp only [made, level, kind, message, Option.map_some, Option.getD_some, ofSpelling_name,
    and_self]

/-- What becomes a field of an exported entry: its raw text, its line, and its source if it has
one. -/
def keptFields (entry : Entry) : List (String × String) :=
  [("raw", entry.raw), ("line", Text.ofNat entry.line.toNat)]
    ++ (entry.source.map fun path => ("source", path.display)).toList

theorem mem_keptFields {key text : String} :
    (key, text) ∈ keptFields entry ↔ key = "raw" ∧ text = entry.raw ∨
      key = "line" ∧ text = Text.ofNat entry.line.toNat ∨
      ∃ path ∈ entry.source, key = "source" ∧ text = path.display := by
  unfold keptFields
  cases entry.source <;> simp

theorem scalarText?_ofPath {path : Path} (isText : ∃ text, path = Path.ofString text) :
    scalarText? (Json.ofPath path).settled = some path.display := by
  obtain ⟨text, rfl⟩ := isText
  rw [Json.ofPath, Path.text?_ofString, Path.display_ofString]
  rfl

theorem fields_held (source : ∀ path ∈ entry.source, ∃ text, path = Path.ofString text) :
    fields entry.held = .ofList (keptFields entry) := by
  have distinct : ((keptFields entry).map Prod.fst).Nodup := by
    unfold keptFields
    cases entry.source <;> simp
  have sorted : Sorted entry.held := Json.sorted_gathered .nil _
  apply SortedMap.ext_get?
  intro key
  apply Option.ext
  intro text
  rw [SortedMap.get?_ofList distinct, get?_fields sorted, mem_keptFields]
  simp only [Entry.find?_held]
  constructor
  · rintro ⟨unknown, _, ⟨value, member, rfl⟩, scalar⟩
    rcases Entry.mem_members.1 member with ⟨rfl, rfl⟩ | ⟨rfl, rfl⟩ | ⟨rfl, rfl⟩ | ⟨rfl, rfl⟩ |
      ⟨-, -, rfl⟩ | ⟨-, -, rfl⟩ | ⟨rfl, rfl⟩ | ⟨path, known, rfl, rfl⟩ | ⟨rfl, rfl⟩
    · exact absurd (by decide) unknown
    · exact absurd (by decide) unknown
    · exact absurd (by decide) unknown
    · exact absurd (by decide) unknown
    -- maps have no scalar
    · cases scalar
    · cases scalar
    · cases scalar
      exact .inl ⟨rfl, rfl⟩
    · rw [scalarText?_ofPath (source path known)] at scalar
      cases scalar
      exact .inr (.inr ⟨path, known, rfl, rfl⟩)
    · cases scalar
      exact .inr (.inl ⟨rfl, rfl⟩)
  · rintro (⟨rfl, rfl⟩ | ⟨rfl, rfl⟩ | ⟨path, known, rfl, rfl⟩)
    · have member : ("raw", Json.string entry.raw) ∈ entry.members :=
        Entry.mem_members.2 (by simp)
      exact ⟨by decide, _, ⟨_, member, rfl⟩, rfl⟩
    · have member : ("line", Json.natural entry.line) ∈ entry.members :=
        Entry.mem_members.2 (by simp)
      exact ⟨by decide, _, ⟨_, member, rfl⟩, rfl⟩
    · have member : ("source", Json.ofPath path) ∈ entry.members :=
        Entry.mem_members.2 (by simp [Option.mem_def.1 known])
      exact ⟨by decide, _, ⟨_, member, rfl⟩, scalarText?_ofPath (source path known)⟩

end Held

/-- The line is the compact text of the entry, and a line of a log in the JSON format from which
the entry is read again, its raw text, its line and its source among the fields. -/
structure ReadAgain (entry : Entry) (line : String) : Prop where
  text : Json.text? .compact entry.toJson = some line
  recognised : jsonLines.probe line = true
  read : ∃ found, jsonLines.read line = .entry found ∧ found.timestamp = entry.timestamp ∧
    found.level = entry.level ∧ found.kind = entry.kind ∧ found.message = entry.message ∧
    found.fields = .ofList (keptFields entry)

theorem exists_readAgain {entry : Entry}
    (source : ∀ path ∈ entry.source, ∃ text, path = Path.ofString text)
    (years : ∀ instant ∈ entry.timestamp, 0 ≤ instant.shown.year ∧ instant.shown.year ≤ 9999) :
    ∃ line, ReadAgain entry line := by
  have readable : (Json.object entry.members).Readable := by
    rw [← entry.toJson_eq]
    exact (Entry.readsAs_toJson source).readable
  obtain ⟨inner, writes, read⟩ := Json.exists_objectText readable entry.shallow_members
  have trimmed : Text.trim (String.ofList ('{' :: inner ++ ['}'])).toList =
      '{' :: inner ++ ['}'] := by
    rw [String.toList_ofList]
    apply Text.trim_solid
    · rintro _ ⟨⟩
      decide
    · rw [List.getLast?_concat]
      rintro _ ⟨⟩
      decide
  have object : members (Text.trim (String.ofList ('{' :: inner ++ ['}'])).toList) =
      .ok entry.held := by
    rw [trimmed]
    exact members_eq_ok.2 read
  have shown : Json.text? .compact entry.toJson = some (String.ofList ('{' :: inner ++ ['}'])) :=
    congrArg (Option.map String.ofList) writes
  have recognised : recognises (String.ofList ('{' :: inner ++ ['}'])) = true := by
    simp only [recognises, object]
    rw [trimmed, List.getLast?_concat]
    rfl
  obtain ⟨level, kind, message⟩ := made_held (String.ofList ('{' :: inner ++ ['}'])) entry.timestamp
  have found := read_eq_entry.2 ⟨_, _, object, timestamp_held years, rfl⟩
  exact ⟨_, shown, recognised, _, found, rfl, level, kind, message, fields_held source⟩

theorem readAgain_of_shows {entries : List Entry} {texts : List (List Char)}
    (shows : List.Forall₂ Export.Shows entries texts)
    (sources : ∀ entry ∈ entries, ∀ path ∈ entry.source, ∃ text, path = Path.ofString text)
    (years : ∀ entry ∈ entries, ∀ instant ∈ entry.timestamp,
      0 ≤ instant.shown.year ∧ instant.shown.year ≤ 9999) :
    List.Forall₂ ReadAgain entries (texts.map String.ofList) := by
  induction shows with
  | nil => exact .nil
  | cons shown _ ih =>
    obtain ⟨source, laterSources⟩ := List.forall_mem_cons.1 sources
    obtain ⟨year, laterYears⟩ := List.forall_mem_cons.1 years
    obtain ⟨line, again⟩ := exists_readAgain source year
    have same : some (String.ofList _) = some line :=
      (congrArg (Option.map String.ofList) shown.writes).symm.trans again.text
    cases same
    exact .cons again (ih laterSources laterYears)

/-- What is written for a stream of entries has a line for each of them, between two blanks and a
comma, that is a line of a log in the JSON format and gives the entry again. -/
theorem exported_entries_read_again {entries : List Entry}
    (sources : ∀ entry ∈ entries, ∀ path ∈ entry.source, ∃ text, path = Path.ofString text)
    (years : ∀ entry ∈ entries, ∀ instant ∈ entry.timestamp,
      0 ≤ instant.shown.year ∧ instant.shown.year ≤ 9999) :
    ∃ streamed lines,
      stream .unlimited .json entries =
        (encodeString streamed, .ok (UInt64.ofNat entries.length)) ∧
      streamed.toList = textOfLines (arrayLines lines) ∧
      List.Forall₂ ReadAgain entries lines := by
  obtain ⟨texts, shows⟩ := Export.exists_shows fun entry member =>
    (Entry.readsAs_toJson (sources entry member)).readable
  have hands := (hands_plainText "[").append (Export.hands_streamedJson shows true)
  have octets : encodeString "[" ++ encode (listing true texts ++ ['\n', ']', '\n']) =
      encodeString (String.ofList ('[' :: listing true texts ++ ['\n', ']', '\n'])) := by
    simp [encodeString, ← Text.Utf8.encode_append]
  rw [octets] at hands
  refine ⟨_, _, Export.stream_of_hands .json hands, ?_, readAgain_of_shows shows sources years⟩
  rw [String.toList_ofList, Export.textOfLines_arrayLines]

/-- A leap second with a fraction, escapes in the message, and a source. -/
def sampleEntry : Entry :=
  { timestamp := some ⟨1483228799, 1500000000, by decide, by decide⟩, level := .warning
    kind := "app", message := "a \"b\"\n", fields := SortedMap.empty.insert "code" "7"
    raw := "a \"b\"", source := some (.ofString "log 1.txt"), line := 3 }

theorem exported_entries_read_again_sample :
    ∃ line, Json.text? .compact sampleEntry.toJson = some line ∧ jsonLines.probe line = true ∧
      ∃ found, jsonLines.read line = .entry found ∧
        found.timestamp = sampleEntry.timestamp ∧ found.level = .warning ∧ found.kind = "app" ∧
        found.fields.toList = [("line", "3"), ("raw", "a \"b\""), ("source", "log 1.txt")] := by
  have sources : ∀ entry ∈ [sampleEntry], ∀ path ∈ entry.source,
      ∃ text, path = Path.ofString text := by
    intro entry member path known
    rw [List.mem_singleton.1 member] at known
    cases known
    exact ⟨"log 1.txt", rfl⟩
  have years : ∀ entry ∈ [sampleEntry], ∀ instant ∈ entry.timestamp,
      0 ≤ instant.shown.year ∧ instant.shown.year ≤ 9999 := by
    intro entry member instant known
    rw [List.mem_singleton.1 member] at known
    cases known
    decide
  obtain ⟨_, lines, -, -, again⟩ := exported_entries_read_again sources years
  cases again with
  | cons again _ =>
    obtain ⟨found, read, timestamp, level, kind, -, fields⟩ := again.read
    refine ⟨_, again.text, again.recognised, found, read, timestamp, level, kind, ?_⟩
    rw [fields]
    decide +kernel

end Format.JsonLines

end LogCensus
