/-!
Finite maps as lists in strictly increasing key order. Two maps with the same look-ups are the
same map, so equality of maps says all there is to say about their content.
-/

namespace LogCensus

class Key (κ : Type) extends Ord κ, Std.TransOrd κ, Std.LawfulEqOrd κ

instance : Key String where

structure SortedMap (κ ν : Type) [Key κ] where
  entries : List (κ × ν)
  sorted : entries.Pairwise fun one other => compare one.1 other.1 = .lt

namespace SortedMap

variable {κ ν : Type} [Key κ]

def empty : SortedMap κ ν := ⟨[], .nil⟩

instance : Inhabited (SortedMap κ ν) := ⟨empty⟩
instance : EmptyCollection (SortedMap κ ν) := ⟨empty⟩

def isEmpty (map : SortedMap κ ν) : Bool := map.entries.isEmpty

def keys (map : SortedMap κ ν) : List κ := map.entries.map Prod.fst

def find? (key : κ) : List (κ × ν) → Option ν
  | [] => none
  | entry :: rest => if compare key entry.1 = .eq then some entry.2 else find? key rest

def get? (map : SortedMap κ ν) (key : κ) : Option ν :=
  find? key map.entries

/-- The entries with the value of `key` replaced by `change` of what it was. -/
def placed (key : κ) (change : Option ν → ν) : List (κ × ν) → List (κ × ν)
  | [] => [(key, change none)]
  | entry :: rest =>
    match compare key entry.1 with
    | .lt => (key, change none) :: entry :: rest
    | .eq => (entry.1, change (some entry.2)) :: rest
    | .gt => entry :: placed key change rest

theorem mem_placed {key : κ} {change : Option ν → ν} {entries : List (κ × ν)} {entry : κ × ν}
    (found : entry ∈ placed key change entries) :
    entry.1 = key ∨ ∃ old ∈ entries, old.1 = entry.1 := by
  induction entries with
  | nil =>
    simp only [placed, List.mem_singleton] at found
    exact .inl (by rw [found])
  | cons head rest ih =>
    simp only [placed] at found
    split at found
    · rcases List.mem_cons.1 found with rfl | later
      · exact .inl rfl
      · exact .inr ⟨entry, later, rfl⟩
    · rcases List.mem_cons.1 found with rfl | later
      · exact .inr ⟨head, List.mem_cons_self, rfl⟩
      · exact .inr ⟨entry, List.mem_cons_of_mem _ later, rfl⟩
    · rcases List.mem_cons.1 found with rfl | later
      · exact .inr ⟨entry, List.mem_cons_self, rfl⟩
      · rcases ih later with same | ⟨old, member, same⟩
        · exact .inl same
        · exact .inr ⟨old, List.mem_cons_of_mem _ member, same⟩

theorem sorted_placed (key : κ) (change : Option ν → ν) {entries : List (κ × ν)}
    (sorted : entries.Pairwise fun one other => compare one.1 other.1 = .lt) :
    (placed key change entries).Pairwise fun one other => compare one.1 other.1 = .lt := by
  induction entries with
  | nil => simp [placed]
  | cons head rest ih =>
    rw [List.pairwise_cons] at sorted
    simp only [placed]
    split
    · next before =>
      refine List.pairwise_cons.2 ⟨fun entry member => ?_, List.pairwise_cons.2 sorted⟩
      rcases List.mem_cons.1 member with rfl | later
      · exact before
      · exact Std.TransCmp.lt_trans before (sorted.1 entry later)
    · exact List.pairwise_cons.2 sorted
    · next after =>
      refine List.pairwise_cons.2 ⟨fun entry member => ?_, ih sorted.2⟩
      rcases mem_placed member with same | ⟨old, known, same⟩
      · rw [same]
        exact Std.OrientedCmp.lt_of_gt after
      · rw [← same]
        exact sorted.1 old known

def alter (map : SortedMap κ ν) (key : κ) (change : Option ν → ν) : SortedMap κ ν :=
  ⟨placed key change map.entries, sorted_placed key change map.sorted⟩

def insert (map : SortedMap κ ν) (key : κ) (value : ν) : SortedMap κ ν :=
  map.alter key fun _ => value

/-- The map of a list of entries; of two with one key the later counts. -/
def ofList (entries : List (κ × ν)) : SortedMap κ ν :=
  entries.foldl (fun map entry => map.insert entry.1 entry.2) empty

def toList (map : SortedMap κ ν) : List (κ × ν) := map.entries

theorem compare_eq_iff {one other : κ} : compare one other = .eq ↔ one = other :=
  Std.LawfulEqOrd.compare_eq_iff_eq

theorem find?_eq_none_of_before {key : κ} {entries : List (κ × ν)}
    (before : ∀ entry ∈ entries, compare key entry.1 = .lt) : find? key entries = none := by
  induction entries with
  | nil => rfl
  | cons head rest ih =>
    have first := before head List.mem_cons_self
    simp only [find?, first, reduceCtorEq, if_false]
    exact ih fun entry member => before entry (List.mem_cons_of_mem _ member)

theorem find?_placed_self (key : κ) (change : Option ν → ν) {entries : List (κ × ν)}
    (sorted : entries.Pairwise fun one other => compare one.1 other.1 = .lt) :
    find? key (placed key change entries) = some (change (find? key entries)) := by
  induction entries with
  | nil => simp [placed, find?]
  | cons head rest ih =>
    have later := List.pairwise_cons.1 sorted
    simp only [placed]
    split
    · next before =>
      have absent : find? key (head :: rest) = none :=
        find?_eq_none_of_before fun entry member => by
          rcases List.mem_cons.1 member with rfl | inner
          · exact before
          · exact Std.TransCmp.lt_trans before (later.1 entry inner)
      rw [absent]
      simp [find?]
    · next same => simp [find?, same]
    · next after => simp [find?, after, ih later.2]

theorem find?_placed_of_ne {key other : κ} (differ : other ≠ key) (change : Option ν → ν)
    (entries : List (κ × ν)) : find? other (placed key change entries) = find? other entries := by
  have apart : compare other key ≠ .eq := fun same => differ (compare_eq_iff.1 same)
  induction entries with
  | nil => simp [placed, find?, apart]
  | cons head rest ih =>
    simp only [placed]
    split
    · simp [find?, apart]
    · next same =>
      rw [compare_eq_iff.1 same] at apart
      simp [find?, apart]
    · simp only [find?, ih]

theorem get?_alter_self (map : SortedMap κ ν) (key : κ) (change : Option ν → ν) :
    (map.alter key change).get? key = some (change (map.get? key)) :=
  find?_placed_self key change map.sorted

theorem get?_alter_of_ne (map : SortedMap κ ν) {key other : κ} (differ : other ≠ key)
    (change : Option ν → ν) : (map.alter key change).get? other = map.get? other :=
  find?_placed_of_ne differ change map.entries

theorem get?_insert_self (map : SortedMap κ ν) (key : κ) (value : ν) :
    (map.insert key value).get? key = some value :=
  map.get?_alter_self key fun _ => value

theorem get?_insert_of_ne (map : SortedMap κ ν) {key other : κ} (differ : other ≠ key)
    (value : ν) : (map.insert key value).get? other = map.get? other :=
  map.get?_alter_of_ne differ fun _ => value

theorem ext_entries {one other : SortedMap κ ν} (same : one.entries = other.entries) :
    one = other := by
  cases one
  cases other
  cases same
  rfl

end SortedMap

end LogCensus
