import LogCensus.Entry
import LogCensus.Proofs.Json.Tree
import LogCensus.Proofs.SortedMap

/-!
Readers undo the making of JSON values. A reader accepts a value if it succeeds on every tree that
means it, and what it gives is then known; this goes through lists, maps and records.
-/

namespace LogCensus.Json

/-- The value can be written and read, and on every tree that means it the reader gives one of the
results. -/
structure Reads {α : Type} (reader : Reader α) (json : Json) (results : α → Prop) : Prop where
  readable : json.Readable
  reads : ∀ (origin : Origin) (node : Node), node.Means json →
    ∃ result, results result ∧ reader origin node = .ok result

abbrev ReadsAs {α : Type} (reader : Reader α) (json : Json) (result : α) : Prop :=
  Reads reader json (· = result)

theorem ReadsAs.read {α : Type} {reader : Reader α} {json : Json} {result : α}
    (back : ReadsAs reader json result) (origin : Origin) {node : Node} (means : node.Means json) :
    reader origin node = .ok result := by
  obtain ⟨_, rfl, read⟩ := back.reads origin node means
  exact read

theorem Reads.exists_result {α : Type} {reader : Reader α} {json : Json} {results : α → Prop}
    (back : Reads reader json results) : ∃ result, results result := by
  obtain ⟨text, -, value⟩ := exists_valueText .compact 0 json back.readable
  obtain ⟨node, means, -⟩ := value.ofText gap_nil
  obtain ⟨result, right, -⟩ := back.reads .text node means
  exact ⟨result, right⟩

theorem Reads.readWhole {α : Type} {reader : Reader α} {json : Json} {results : α → Prop}
    (back : Reads reader json results) {text trail : List Char} (value : ValueText json text)
    (blank : Gap trail) :
    ∃ result, results result ∧
      readWhole reader (String.ofList (text ++ trail)) = .ok result := by
  obtain ⟨node, means, tree⟩ := value.ofText blank
  obtain ⟨result, right, read⟩ := back.reads .text node means
  refine ⟨result, right, ?_⟩
  simp only [Json.readWhole, String.toList_ofList, tree, read]

section Scalars

theorem readsAs_word (name : String) {limit : Nat} {value : UInt64} (fits : value.toNat ≤ limit) :
    ReadsAs (readWord name limit) (.natural value) value where
  readable := trivial
  reads := by
    rintro origin node (_ | _ | @⟨_, read, same, stop⟩)
    cases same
    exact ⟨value, rfl, if_pos fits⟩

theorem readsAs_count (value : UInt64) : ReadsAs readCount (.natural value) value :=
  readsAs_word "u64" (Nat.le_of_lt_succ value.toNat_lt)

theorem reads_real {value : Binary64} (finite : value.IsFinite) :
    Reads readReal (.number (.real value)) fun _ => True where
  readable := finite
  reads := by
    rintro origin node (_ | _ | @⟨_, read, same, stop⟩)
    obtain ⟨size, rfl⟩ := same
    exact ⟨size, trivial, rfl⟩

theorem readsAs_textAs {α : Type} (expected : String) {convert : String → Except String α}
    {text : String} {value : α} (converted : convert text = .ok value) :
    ReadsAs (readTextAs expected convert) (.string text) value where
  readable := trivial
  reads := by
    rintro origin node (_ | _ | _ | ⟨_, stop⟩)
    refine ⟨value, rfl, ?_⟩
    simp only [readTextAs, converted]

theorem readsAs_text (text : String) : ReadsAs readText (.string text) text :=
  readsAs_textAs "a string" rfl

theorem readsAs_textThen {α : Type} {convert : String → Except String α} {text : String}
    {value : α} (converted : convert text = .ok value) :
    ReadsAs (readTextThen convert) (.string text) value where
  readable := trivial
  reads := by
    intro origin node means
    refine ⟨value, rfl, ?_⟩
    simp only [readTextThen, (readsAs_text text).read origin means, converted]

end Scalars

section Containers

variable {α : Type}

theorem eq_null_of_means {json : Json} {stop : Nat}
    (means : Node.Means (.scalar (.ok .null) stop) json) : json = .null := by
  cases means
  rfl

/-- A value that is not written as `null` is one of the values there may be. -/
theorem readsAs_optional {reader : Reader α} {convert : α → Json} {value : Option α}
    (written : ∀ inner ∈ value, convert inner ≠ .null)
    (back : ∀ inner ∈ value, ReadsAs reader (convert inner) inner) :
    ReadsAs (readOptional reader) (ofOption convert value) value := by
  cases value with
  | none =>
    refine ⟨trivial, fun origin node means => ⟨none, rfl, ?_⟩⟩
    cases means
    rfl
  | some inner =>
    refine ⟨(back inner rfl).readable, fun origin node means => ⟨some inner, rfl, ?_⟩⟩
    have read := (back inner rfl).read origin means
    unfold readOptional
    split
    · exact absurd (eq_null_of_means means) (written inner rfl)
    · rw [read]
      rfl

theorem elementsReadable_map {convert : α → Json} {values : List α}
    (readable : ∀ value ∈ values, (convert value).Readable) :
    ElementsReadable (values.map convert) := by
  induction values with
  | nil => trivial
  | cons value values ih =>
    exact ⟨readable value List.mem_cons_self,
      ih fun other member => readable other (List.mem_cons_of_mem value member)⟩

theorem readItems_map {reader : Node → Except Issue α} {convert : α → Json} {values : List α}
    (reads : ∀ value ∈ values, ∀ node : Node, node.Means (convert value) → reader node = .ok value) :
    ∀ {items : Items}, items.Means (values.map convert) → readItems reader items = .ok values := by
  induction values with
  | nil =>
    rintro items ⟨stop⟩
    rfl
  | cons value values ih =>
    rintro items (_ | ⟨means, later, start, mark⟩)
    have first := reads value List.mem_cons_self _ means
    have rest := ih (fun other member => reads other (List.mem_cons_of_mem value member)) later
    simp only [readItems, first, rest, Except.map]

theorem readsAs_list {reader : Reader α} {convert : α → Json} {values : List α}
    (back : ∀ value ∈ values, ReadsAs reader (convert value) value) :
    ReadsAs (readList reader) (.array (values.map convert)) values where
  readable := elementsReadable_map fun value member => (back value member).readable
  reads := by
    rintro origin node (_ | _ | _ | _ | ⟨means, start⟩)
    refine ⟨values, rfl, readItems_map (fun value member node => ?_) means⟩
    exact (back value member).read origin

/-! ### Maps -/

theorem membersReadable_map {κ ν : Type} {name : κ → String} {convert : ν → Json}
    (readable : ∀ value, (convert value).Readable) (entries : List (κ × ν)) :
    MembersReadable (entries.map fun entry => (name entry.1, convert entry.2)) := by
  induction entries with
  | nil => trivial
  | cons entry entries ih => exact ⟨readable entry.2, ih⟩

section Maps

variable {κ ν : Type} [Key κ]

open SortedMap in
/-- An entry behind all others is placed at the end. -/
theorem placed_last {key : κ} {change : Option ν → ν} {entries : List (κ × ν)}
    (last : ∀ entry ∈ entries, compare entry.1 key = .lt) :
    placed key change entries = entries ++ [(key, change none)] := by
  induction entries with
  | nil => rfl
  | cons head rest ih =>
    have later : compare key head.1 = .gt :=
      Std.OrientedCmp.gt_of_lt (last head List.mem_cons_self)
    simp only [placed, later, List.cons_append]
    rw [ih fun entry member => last entry (List.mem_cons_of_mem head member)]

/-- Members in the order of their keys are put behind the entries that come earlier. -/
theorem readEntries_map {key : String → Except String κ} {reader : Node → Except Issue ν}
    {name : κ → String} {convert : ν → Json} (named : ∀ entry, key (name entry) = .ok entry)
    (reads : ∀ value node, Node.Means node (convert value) → reader node = .ok value)
    {entries : List (κ × ν)} :
    ∀ {known whole : SortedMap κ ν} {tree : Members}, whole.entries = known.entries ++ entries →
      tree.Means (entries.map fun entry => (name entry.1, convert entry.2)) →
      readEntries key reader known tree = .ok whole := by
  induction entries with
  | nil =>
    rintro known whole tree split ⟨stop⟩
    rw [List.append_nil] at split
    rw [readEntries, SortedMap.ext_entries split]
  | cons entry entries ih =>
    rintro known whole tree split (_ | ⟨_, means, later, keyStop, mark⟩)
    have read := reads entry.2 _ means
    simp only [readEntries, named, read]
    apply ih _ later
    have sorted := whole.sorted
    rw [split, List.pairwise_append] at sorted
    have last : (known.insert entry.1 entry.2).entries = known.entries ++ [entry] :=
      placed_last fun earlier member => sorted.2.2 earlier member entry List.mem_cons_self
    rw [last, split, List.append_assoc]
    rfl

theorem readsAs_map {key : String → Except String κ} {reader : Reader ν} {name : κ → String}
    {convert : ν → Json} (named : ∀ entry, key (name entry) = .ok entry)
    (back : ∀ value, ReadsAs reader (convert value) value) (map : SortedMap κ ν) :
    ReadsAs (readMap key reader)
      (.object (map.toList.map fun entry => (name entry.1, convert entry.2))) map where
  readable := membersReadable_map (fun value => (back value).readable) map.toList
  reads := by
    rintro origin node (_ | _ | _ | _ | _ | ⟨means, start⟩)
    exact ⟨map, rfl, readEntries_map named (fun value node => (back value).read origin) rfl means⟩

end Maps

end Containers

/-! ### Records -/

section Records

variable {ρ α : Type}

/-- The members of a record under construction read the fields one after the other, and make of it
one of the results. A member that is not required may have no field. -/
inductive Fills : List (Member ρ) → List (String × Json) → ρ → (ρ → Prop) → Prop where
  | done {record : ρ} {results : ρ → Prop} (right : results record) : Fills [] [] record results
  | member {β : Type} {name : String} {presence : Presence} {reader : Reader β}
      {store : ρ → β → ρ} {json : Json} {values : β → Prop} {members : List (Member ρ)}
      {fields : List (String × Json)} {record : ρ} {results : ρ → Prop}
      (back : Reads reader json values)
      (later : ∀ value, values value → Fills members fields (store record value) results) :
      Fills (Json.member name presence reader store :: members) ((name, json) :: fields) record
        results
  | omitted {member : Member ρ} {members : List (Member ρ)} {fields : List (String × Json)}
      {record : ρ} {results : ρ → Prop} (free : member.presence ≠ .required)
      (later : Fills members fields record results) : Fills (member :: members) fields record results

theorem Fills.as {β : Type} {name : String} {presence : Presence} {reader : Reader β}
    {store : ρ → β → ρ} {json : Json} {value : β} {members : List (Member ρ)}
    {fields : List (String × Json)} {record : ρ} {results : ρ → Prop}
    (back : ReadsAs reader json value)
    (later : Fills members fields (store record value) results) :
    Fills (Json.member name presence reader store :: members) ((name, json) :: fields) record
      results :=
  .member back fun _ same => same ▸ later

abbrev Distinct (members : List (Member ρ)) : Prop := (members.map Member.name).Nodup

theorem find?_name {members : List (Member ρ)} (distinct : Distinct members) {member : Member ρ}
    (known : member ∈ members) :
    (members.find? fun other => other.name == member.name) = some member := by
  induction members with
  | nil => cases known
  | cons head rest ih =>
    obtain ⟨fresh, distinct⟩ := List.nodup_cons.1 distinct
    rcases List.mem_cons.1 known with rfl | later
    · rw [List.find?_cons_of_pos (by simp)]
    · have differ : head.name ≠ member.name := fun same =>
        fresh (same ▸ List.mem_map_of_mem later)
      rw [List.find?_cons_of_neg (by simpa using differ), ih distinct later]

/-- The members still to come read the rest of an object; then the names of all of them that are
required have been seen. -/
theorem readMembers_fills {spec : Record ρ α} (distinct : Distinct spec.members) (origin : Origin)
    {members : List (Member ρ)} {fields : List (String × Json)} {record : ρ} {results : ρ → Prop}
    (fills : Fills members fields record results) :
    ∀ {seen : List String} {tree : Members}, tree.Means fields → Distinct members →
      (∀ member ∈ members, member ∈ spec.members ∧ member.name ∉ seen) →
      ∃ names made stop, results made ∧
        spec.readMembers origin seen record tree = .ok (names, made, stop) ∧ seen ⊆ names ∧
        ∀ member ∈ members, member.presence = .required → member.name ∈ names := by
  induction fills with
  | @done record results right =>
    rintro seen tree ⟨stop⟩ - -
    exact ⟨seen, record, stop, right, rfl, List.Subset.refl seen, by simp⟩
  | @member β name presence reader store json values members fields record results back _ ih =>
    rintro seen tree (_ | ⟨_, means, later, keyStop, mark⟩) apart fresh
    obtain ⟨known, unseen⟩ := fresh _ List.mem_cons_self
    obtain ⟨other, apart⟩ := List.nodup_cons.1 apart
    obtain ⟨value, right, read⟩ := back.reads origin _ means
    have found := find?_name distinct known
    have first : seen.contains name = false := by
      simpa [Json.member] using unseen
    have rest : ∀ member ∈ members, member ∈ spec.members ∧ member.name ∉ name :: seen := by
      intro member among
      refine ⟨(fresh member (List.mem_cons_of_mem _ among)).1, ?_⟩
      rw [List.mem_cons, not_or]
      refine ⟨fun same => other ?_, (fresh member (List.mem_cons_of_mem _ among)).2⟩
      exact List.mem_map.2 ⟨member, among, same⟩
    obtain ⟨names, made, stop, holds, readRest, kept, all⟩ := ih value right later apart rest
    obtain ⟨mine, kept⟩ := List.cons_subset.1 kept
    refine ⟨names, made, stop, holds, ?_, kept, List.forall_mem_cons.2 ⟨fun _ => mine, all⟩⟩
    simp only [Json.member] at found
    simp only [Record.readMembers, found, first, read, Except.map, readRest]
    rfl
  | omitted free _ ih =>
    intro seen tree means apart fresh
    have rest := (List.forall_mem_cons.1 fresh).2
    obtain ⟨names, made, stop, holds, read, kept, all⟩ := ih means (List.nodup_cons.1 apart).2 rest
    refine ⟨names, made, stop, holds, read, kept, List.forall_mem_cons.2 ⟨?_, all⟩⟩
    exact fun required => absurd required free

theorem missing?_eq_none {spec : Record ρ α} {seen : List String}
    (all : ∀ member ∈ spec.members, member.presence = .required → member.name ∈ seen) :
    spec.missing? seen = none := by
  rw [Record.missing?, List.find?_eq_none.2, Option.map_none]
  intro member known
  simpa using all member known

theorem Fills.readable {members : List (Member ρ)} {fields : List (String × Json)} {record : ρ}
    {results : ρ → Prop} (fills : Fills members fields record results) :
    MembersReadable fields := by
  induction fills with
  | done right => trivial
  | member back _ ih =>
    obtain ⟨value, right⟩ := back.exists_result
    exact ⟨back.readable, ih value right⟩
  | omitted free _ ih => exact ih

/-- A record reads an object that has a field for each of its members, in their order, and may lack
those of members that are not required. -/
theorem reads_record {spec : Record ρ α} {fields : List (String × Json)} {results : α → Prop}
    (distinct : Distinct spec.members)
    (fills : Fills spec.members fields spec.blank fun record =>
      ∃ value, results value ∧ spec.finish record = .ok value) :
    Reads spec.read (.object fields) results where
  readable := fills.readable
  reads := by
    rintro origin node (_ | _ | _ | _ | _ | ⟨means, start⟩)
    obtain ⟨names, record, stop, ⟨value, right, finished⟩, read, -, all⟩ :=
      readMembers_fills distinct origin fills means distinct fun member known =>
        ⟨known, List.not_mem_nil⟩
    refine ⟨value, right, ?_⟩
    simp only [Record.read, read, missing?_eq_none all, finished]
    rfl

end Records

end LogCensus.Json
