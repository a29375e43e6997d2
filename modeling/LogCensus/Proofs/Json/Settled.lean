import LogCensus.Proofs.Json.Compact
import LogCensus.Proofs.Json.Members

/-!
What the text of a value is read as where no particular record is wanted: the value itself, but for
the members of objects, which come back in the order of their keys.
-/

namespace LogCensus.Json

mutual

/-- The value that is read for a written one: of two members with one key the later counts, and
members stand in the order of their keys. -/
def settled : Json → Json
  | .array elements => .array (settledElements elements)
  | .object members => .object (gathered [] (settledMembers members))
  | json => json

def settledElements : List Json → List Json
  | [] => []
  | element :: rest => element.settled :: settledElements rest

def settledMembers : List (String × Json) → List (String × Json)
  | [] => []
  | (key, json) :: rest => (key, json.settled) :: settledMembers rest

end

mutual

/-- Whether no double stands in a value and fewer than `depth` arrays and objects are open at
once. -/
def Shallow : (depth : Nat) → Json → Prop
  | _, .number (.real _) => False
  | depth, .array elements => 1 < depth ∧ ElementsShallow (depth - 1) elements
  | depth, .object members => 1 < depth ∧ MembersShallow (depth - 1) members
  | _, _ => True

def ElementsShallow : (depth : Nat) → List Json → Prop
  | _, [] => True
  | depth, element :: rest => element.Shallow depth ∧ ElementsShallow depth rest

def MembersShallow : (depth : Nat) → List (String × Json) → Prop
  | _, [] => True
  | depth, (_, json) :: rest => json.Shallow depth ∧ MembersShallow depth rest

end

mutual

/-- The tree of a text that means a value has the settled value. -/
theorem value_of_means (depth : Nat) : ∀ (json : Json), json.Shallow depth → ∀ {node : Node},
    node.Means json → node.value depth = .ok json.settled
  | .null, _, _, .null stop => rfl
  | .bool value, _, _, .bool _ stop => rfl
  | .string text, _, _, .string _ stop => rfl
  | .number (.natural value), _, _, .number same stop => by
    cases same
    rfl
  | .number (.negative value), _, _, .number same stop => by
    cases same
    rfl
  | .array elements, ⟨room, shallow⟩, _, .array inner start => by
    rw [Node.value, if_neg (Nat.not_le.2 room), values_of_means (depth - 1) elements shallow inner]
    rfl
  | .object members, ⟨room, shallow⟩, _, .object inner start => by
    rw [Node.value, if_neg (Nat.not_le.2 room),
      memberValues_of_means (depth - 1) members shallow inner]
    rfl

theorem values_of_means (depth : Nat) : ∀ (elements : List Json), ElementsShallow depth elements →
    ∀ {items : Items}, items.Means elements → items.values depth = .ok (settledElements elements)
  | [], _, _, .close stop => rfl
  | element :: rest, ⟨shallow, later⟩, _, .item inner means start mark => by
    rw [Items.values, value_of_means depth element shallow inner]
    simp only [values_of_means depth rest later means]
    rfl

theorem memberValues_of_means (depth : Nat) : ∀ (members : List (String × Json)),
    MembersShallow depth members → ∀ {tree : Members} {known : List (String × Json)},
      tree.Means members → tree.values depth known = .ok (gathered known (settledMembers members))
  | [], _, _, _, .close stop => rfl
  | (key, json) :: rest, ⟨shallow, later⟩, _, known, .member _ inner means keyStop mark => by
    rw [Members.values]
    simp only [value_of_means depth json shallow inner]
    rw [memberValues_of_means depth rest later means]
    rfl

end

theorem settledMembers_eq (members : List (String × Json)) :
    settledMembers members = members.map fun entry => (entry.1, entry.2.settled) := by
  induction members with
  | nil => rfl
  | cons entry members ih => rw [settledMembers, ih, List.map_cons]

theorem membersShallow_iff {depth : Nat} {members : List (String × Json)} :
    MembersShallow depth members ↔ ∀ entry ∈ members, entry.2.Shallow depth := by
  induction members with
  | nil => simp [MembersShallow]
  | cons entry members ih => rw [MembersShallow, ih, List.forall_mem_cons]

/-! ### Objects -/

/-- The compact text of an object starts and ends with its braces, and it is read as the object. -/
theorem exists_objectText {members : List (String × Json)} (readable : MembersReadable members)
    (shallow : MembersShallow (depthLimit - 1) members) :
    ∃ inner, Writes (pieces .compact 0 (.object members)) ('{' :: inner ++ ['}']) ∧
      ofText ('{' :: inner ++ ['}']) = .ok (.object (gathered [] (settledMembers members))) := by
  obtain ⟨inner, writes, text⟩ := exists_membersText .compact 1 true members readable
  have braced := (writes.cons ['{']).append (writes_compactClosing 0 members.isEmpty)
  obtain ⟨node, means, whole⟩ := (valueText_object text gap_nil).ofText gap_nil
  have valued := value_of_means depthLimit (.object members) ⟨by decide, shallow⟩ means
  have read := ofText_eq_ok.2 ⟨node, whole, valued⟩
  rw [List.append_nil] at braced
  rw [List.append_nil, List.append_nil] at read
  exact ⟨inner, braced.append (writes_nil.cons ['}']), read⟩

theorem entries_foldl_insert (known : SortedMap String Json) (members : List (String × Json)) :
    (members.foldl (fun map entry => map.insert entry.1 entry.2) known).entries =
      gathered known.entries members := by
  induction members generalizing known with
  | nil => rfl
  | cons entry members ih => exact ih (known.insert entry.1 entry.2)

/-- An object whose keys are distinct holds its members. -/
theorem find?_gathered {members : List (String × Json)} (distinct : (members.map Prod.fst).Nodup)
    {key : String} {json : Json} :
    SortedMap.find? key (gathered [] members) = some json ↔ (key, json) ∈ members := by
  rw [← SortedMap.get?_ofList distinct, SortedMap.get?, SortedMap.ofList, entries_foldl_insert]
  rfl

end LogCensus.Json
