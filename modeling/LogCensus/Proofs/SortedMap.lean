import LogCensus.SortedMap

/-!
Maps with the same look-ups are the same map, and what is in a map is what its look-ups find.
-/

namespace LogCensus.SortedMap

variable {κ ν : Type} [Key κ]

abbrev Sorted (entries : List (κ × ν)) : Prop :=
  entries.Pairwise fun one other => compare one.1 other.1 = .lt

theorem find?_eq_none_of_head {key : κ} {head : κ × ν} {rest : List (κ × ν)}
    (sorted : Sorted (head :: rest)) (before : compare key head.1 = .lt) :
    find? key (head :: rest) = none := by
  apply find?_eq_none_of_before
  intro entry member
  rcases List.mem_cons.1 member with rfl | later
  · exact before
  · exact Std.TransCmp.lt_trans before ((List.pairwise_cons.1 sorted).1 entry later)

theorem find?_rest_self {head : κ × ν} {rest : List (κ × ν)} (sorted : Sorted (head :: rest)) :
    find? head.1 rest = none :=
  find?_eq_none_of_before (List.pairwise_cons.1 sorted).1

theorem find?_head (head : κ × ν) (rest : List (κ × ν)) :
    find? head.1 (head :: rest) = some head.2 := by
  simp [find?]

theorem find?_cons_of_ne {key : κ} {head : κ × ν} (differ : key ≠ head.1) (rest : List (κ × ν)) :
    find? key (head :: rest) = find? key rest := by
  have apart : compare key head.1 ≠ .eq := fun same => differ (compare_eq_iff.1 same)
  simp [find?, apart]

theorem mem_of_find? {key : κ} {value : ν} {entries : List (κ × ν)}
    (found : find? key entries = some value) : (key, value) ∈ entries := by
  induction entries with
  | nil => cases found
  | cons head rest ih =>
    by_cases same : key = head.1
    · subst same
      rw [find?_head, Option.some.injEq] at found
      subst found
      exact List.mem_cons_self
    · rw [find?_cons_of_ne same] at found
      exact List.mem_cons_of_mem head (ih found)

theorem find?_of_mem {key : κ} {value : ν} {entries : List (κ × ν)} (sorted : Sorted entries)
    (member : (key, value) ∈ entries) : find? key entries = some value := by
  induction entries with
  | nil => cases member
  | cons head rest ih =>
    rcases List.mem_cons.1 member with rfl | later
    · exact find?_head (key, value) rest
    · have found := ih (List.pairwise_cons.1 sorted).2 later
      have differ : key ≠ head.1 := by
        intro same
        rw [same, find?_rest_self sorted] at found
        cases found
      rw [find?_cons_of_ne differ, found]

theorem entries_eq_of_find? {one other : List (κ × ν)} (sorted : Sorted one)
    (otherSorted : Sorted other) (same : ∀ key, find? key one = find? key other) : one = other := by
  induction one generalizing other with
  | nil =>
    cases other with
    | nil => rfl
    | cons head rest =>
      have found := same head.1
      rw [find?_head] at found
      cases found
  | cons head rest ih =>
    cases other with
    | nil =>
      have found := same head.1
      rw [find?_head] at found
      cases found
    | cons otherHead otherRest =>
      have keys : head.1 = otherHead.1 := by
        cases order : compare head.1 otherHead.1 with
        | eq => exact compare_eq_iff.1 order
        | lt =>
          have found := same head.1
          rw [find?_head, find?_eq_none_of_head otherSorted order] at found
          cases found
        | gt =>
          have found := same otherHead.1
          rw [find?_head, find?_eq_none_of_head sorted (Std.OrientedCmp.lt_of_gt order)] at found
          cases found
      have values : head.2 = otherHead.2 := by
        have found := same head.1
        rw [find?_head, keys, find?_head] at found
        exact Option.some.inj found
      have heads : head = otherHead := Prod.ext keys values
      subst heads
      congr 1
      apply ih (List.pairwise_cons.1 sorted).2 (List.pairwise_cons.1 otherSorted).2
      intro key
      by_cases own : key = head.1
      · rw [own, find?_rest_self sorted, find?_rest_self otherSorted]
      · have found := same key
        rwa [find?_cons_of_ne own, find?_cons_of_ne own] at found

theorem ext_get? {one other : SortedMap κ ν} (same : ∀ key, one.get? key = other.get? key) :
    one = other :=
  ext_entries (entries_eq_of_find? one.sorted other.sorted same)

theorem eq_empty_of_isEmpty {map : SortedMap κ ν} (empty : map.isEmpty = true) : map = ∅ :=
  ext_entries (List.isEmpty_iff.1 empty)

theorem mem_toList {map : SortedMap κ ν} {key : κ} {value : ν} :
    (key, value) ∈ map.toList ↔ map.get? key = some value :=
  ⟨find?_of_mem map.sorted, mem_of_find?⟩

@[simp] theorem get?_empty (key : κ) : (∅ : SortedMap κ ν).get? key = none := rfl

theorem get?_alter [DecidableEq κ] (map : SortedMap κ ν) (key other : κ) (change : Option ν → ν) :
    (map.alter key change).get? other =
      if other = key then some (change (map.get? key)) else map.get? other := by
  by_cases same : other = key
  · rw [if_pos same, same, get?_alter_self]
  · rw [if_neg same, get?_alter_of_ne map same]

/-! ### Keys -/

theorem mem_keys {map : SortedMap κ ν} {key : κ} :
    key ∈ map.keys ↔ ∃ value, map.get? key = some value := by
  simp only [keys, List.mem_map, Prod.exists, exists_and_right, exists_eq_right, ← mem_toList]
  rfl

theorem pairwise_keys (map : SortedMap κ ν) :
    map.keys.Pairwise fun one other => compare one other = .lt :=
  List.pairwise_map.2 map.sorted

theorem mem_keys_insert {map : SortedMap κ ν} {key other : κ} {value : ν} :
    other ∈ (map.insert key value).keys ↔ other = key ∨ other ∈ map.keys := by
  rw [mem_keys, mem_keys]
  by_cases same : other = key
  · subst same
    exact iff_of_true ⟨value, get?_insert_self ..⟩ (.inl rfl)
  · rw [get?_insert_of_ne _ same, or_iff_right same]

theorem ext_keys {one other : SortedMap κ Unit} (same : ∀ key, key ∈ one.keys ↔ key ∈ other.keys) :
    one = other := by
  apply ext_get?
  intro key
  have members := same key
  rw [mem_keys, mem_keys, ← Option.isSome_iff_exists, ← Option.isSome_iff_exists] at members
  cases found : one.get? key <;> cases known : other.get? key <;> simp_all

theorem mem_keys_foldl_insert {set : SortedMap κ Unit} {values : List κ} {key : κ} :
    key ∈ (values.foldl (fun set value => set.insert value ()) set).keys ↔
      key ∈ set.keys ∨ key ∈ values := by
  induction values generalizing set with
  | nil => simp
  | cons value values ih =>
    rw [List.foldl_cons, ih, mem_keys_insert, List.mem_cons, or_comm (a := key = value), or_assoc]

/-! ### Maps of lists -/

theorem get?_foldl_insert {map : SortedMap κ ν} {entries : List (κ × ν)}
    (distinct : (entries.map Prod.fst).Nodup) {key : κ} {value : ν} :
    (entries.foldl (fun map entry => map.insert entry.1 entry.2) map).get? key = some value ↔
      (key, value) ∈ entries ∨ key ∉ entries.map Prod.fst ∧ map.get? key = some value := by
  induction entries generalizing map with
  | nil => simp
  | cons entry entries ih =>
    obtain ⟨fresh, later⟩ := List.nodup_cons.1 distinct
    rw [List.foldl_cons, ih later, List.map_cons, List.mem_cons, List.mem_cons, not_or]
    by_cases same : key = entry.1
    · have absent : (key, value) ∉ entries :=
        fun member => fresh (same ▸ List.mem_map.2 ⟨_, member, rfl⟩)
      subst same
      rw [get?_insert_self, Option.some.injEq]
      simp [absent, fresh, Prod.ext_iff, eq_comm]
    · rw [get?_insert_of_ne map same]
      simp [same, Prod.ext_iff]

theorem get?_ofList {entries : List (κ × ν)} (distinct : (entries.map Prod.fst).Nodup) {key : κ}
    {value : ν} : (ofList entries).get? key = some value ↔ (key, value) ∈ entries := by
  rw [ofList, get?_foldl_insert distinct]
  exact or_iff_left fun none => Option.some_ne_none value none.2.symm

end LogCensus.SortedMap
