import LogCensus.Proofs.SortedMap
import LogCensus.Tally
import Mathlib.Algebra.Order.Ring.Nat
import Mathlib.Data.List.Induction

/-!
Counts by key under their key-wise sum. The sum does not depend on the order of its parts, and
counting keys one after the other gives the number of times that each of them occurs.
-/

namespace LogCensus.Counts

variable {κ : Type} [Key κ]

theorem count_of_mem {counts : Counts κ} {key : κ} {number : UInt64}
    (listed : (key, number) ∈ counts.toList) : counts.count key = number := by
  rw [count, SortedMap.mem_toList.1 listed, Option.getD_some]

variable [DecidableEq κ]

theorem get?_add (counts : Counts κ) (key other : κ) (amount : UInt64) :
    (counts.add key amount).get? other =
      (counts.get? other).merge (· + ·) (if other = key then some amount else none) := by
  rw [add, SortedMap.get?_alter]
  by_cases same : other = key
  · subst same
    cases counts.get? other <;> simp
  · simp [same]

theorem get?_foldl_add (counts : Counts κ) {entries : List (κ × UInt64)}
    (sorted : SortedMap.Sorted entries) (key : κ) :
    (entries.foldl (fun sum entry => sum.add entry.1 entry.2) counts).get? key =
      (counts.get? key).merge (· + ·) (SortedMap.find? key entries) := by
  induction entries generalizing counts with
  | nil => simp [SortedMap.find?]
  | cons head rest ih =>
    rw [List.foldl_cons, ih (counts.add head.1 head.2) (List.pairwise_cons.1 sorted).2, get?_add]
    by_cases same : key = head.1
    · subst same
      rw [SortedMap.find?_rest_self sorted, SortedMap.find?_head, if_pos rfl,
        Option.merge_none_right]
    · rw [SortedMap.find?_cons_of_ne same, if_neg same, Option.merge_none_right]

theorem get?_union (counts other : Counts κ) (key : κ) :
    (counts.union other).get? key = (counts.get? key).merge (· + ·) (other.get? key) :=
  get?_foldl_add counts other.sorted key

theorem union_comm (counts other : Counts κ) : counts.union other = other.union counts := by
  apply SortedMap.ext_get?
  intro key
  rw [get?_union, get?_union]
  exact Std.Commutative.comm _ _

theorem union_assoc (first second third : Counts κ) :
    (first.union second).union third = first.union (second.union third) := by
  apply SortedMap.ext_get?
  intro key
  simp only [get?_union]
  exact Std.Associative.assoc _ _ _

theorem union_right_comm (first second third : Counts κ) :
    (first.union second).union third = (first.union third).union second := by
  rw [union_assoc, union_comm second, ← union_assoc]

theorem union_add (counts other : Counts κ) (key : κ) (amount : UInt64) :
    counts.union (other.add key amount) = (counts.union other).add key amount := by
  apply SortedMap.ext_get?
  intro found
  simp only [get?_union, get?_add]
  exact (Std.Associative.assoc _ _ _).symm

def ofKeys (keys : List κ) : Counts κ := keys.foldl (fun counts key => counts.add key 1) ∅

omit [DecidableEq κ] in
theorem ofKeys_concat (keys : List κ) (key : κ) :
    ofKeys (keys ++ [key]) = (ofKeys keys).add key 1 := by
  simp [ofKeys]

theorem ofKeys_append (keys more : List κ) :
    ofKeys (keys ++ more) = (ofKeys keys).union (ofKeys more) := by
  induction more using List.reverseRecOn with
  | nil =>
    rw [List.append_nil]
    rfl
  | append_singleton more key ih =>
    rw [← List.append_assoc, ofKeys_concat, ofKeys_concat, union_add, ih]

theorem get?_ofKeys (keys : List κ) (key : κ) :
    (ofKeys keys).get? key =
      if keys.count key = 0 then none else some (UInt64.ofNat (keys.count key)) := by
  induction keys using List.reverseRecOn with
  | nil => rfl
  | append_singleton keys last ih =>
    rw [ofKeys_concat, get?_add, ih, List.count_append, List.count_singleton]
    by_cases same : key = last
    · subst same
      by_cases absent : keys.count key = 0
      · simp [absent]
      · simp [absent, UInt64.ofNat_add]
    · have apart : (last == key) = false := by simpa using fun equal => same equal.symm
      simp [same, apart]

theorem ofKeys_perm {keys other : List κ} (same : keys.Perm other) : ofKeys keys = ofKeys other := by
  apply SortedMap.ext_get?
  intro key
  rw [get?_ofKeys, get?_ofKeys, same.count_eq key]

/-! ### Sums of all counts -/

def total (counts : Counts κ) : Nat := (counts.toList.map fun entry => entry.2.toNat).sum

omit [DecidableEq κ] in
/-- The sum of the values in entries where one of them changes. -/
theorem sum_placed (key : κ) (change : Option UInt64 → UInt64) {entries : List (κ × UInt64)}
    (sorted : SortedMap.Sorted entries) :
    ((SortedMap.placed key change entries).map fun entry => entry.2.toNat).sum +
        ((SortedMap.find? key entries).getD 0).toNat =
      (entries.map fun entry => entry.2.toNat).sum +
        (change (SortedMap.find? key entries)).toNat := by
  induction entries with
  | nil => simp [SortedMap.placed, SortedMap.find?]
  | cons head rest ih =>
    simp only [SortedMap.placed]
    split
    next before =>
      rw [SortedMap.find?_eq_none_of_head sorted before]
      simp only [List.map_cons, List.sum_cons, Option.getD_none, UInt64.toNat_zero]
      omega
    next equal =>
      rw [SortedMap.compare_eq_iff.1 equal, SortedMap.find?_head]
      simp only [List.map_cons, List.sum_cons, Option.getD_some]
      omega
    next after =>
      have differ : key ≠ head.1 := by
        intro same
        rw [same, SortedMap.compare_eq_iff.2 rfl] at after
        cases after
      have inner := ih (List.pairwise_cons.1 sorted).2
      rw [SortedMap.find?_cons_of_ne differ]
      simp only [List.map_cons, List.sum_cons]
      omega

omit [DecidableEq κ] in
theorem total_add (counts : Counts κ) (key : κ) (small : (counts.count key).toNat + 1 < 2 ^ 64) :
    (counts.add key 1).total = counts.total + 1 := by
  have moved := sum_placed key (fun old => old.getD 0 + 1) counts.sorted
  have grown : (counts.count key + 1).toNat = (counts.count key).toNat + 1 := by
    rw [UInt64.toNat_add, UInt64.toNat_one]
    exact Nat.mod_eq_of_lt small
  simp only [count, SortedMap.get?] at grown moved
  simp only [total, add, SortedMap.alter, SortedMap.toList]
  omega

theorem toNat_count_ofKeys {keys : List κ} (small : keys.length < 2 ^ 64) (key : κ) :
    ((ofKeys keys).count key).toNat = keys.count key := by
  have bound := keys.count_le_length (a := key)
  rw [count, get?_ofKeys]
  by_cases absent : keys.count key = 0
  · simp [absent]
  · rw [if_neg absent, Option.getD_some, UInt64.toNat_ofNat']
    exact Nat.mod_eq_of_lt (by omega)

theorem total_ofKeys {keys : List κ} (small : keys.length < 2 ^ 64) :
    (ofKeys keys).total = keys.length := by
  induction keys using List.reverseRecOn with
  | nil => rfl
  | append_singleton keys key ih =>
    rw [List.length_append, List.length_singleton] at small ⊢
    have bound := keys.count_le_length (a := key)
    rw [ofKeys_concat, total_add, ih (by omega)]
    rw [toNat_count_ofKeys (by omega)]
    omega

theorem pos_of_mem_ofKeys {keys : List κ} (small : keys.length < 2 ^ 64) {entry : κ × UInt64}
    (member : entry ∈ (ofKeys keys).toList) : entry.2 ≠ 0 := by
  obtain ⟨key, value⟩ := entry
  have found := SortedMap.mem_toList.1 member
  rw [get?_ofKeys] at found
  by_cases absent : keys.count key = 0
  · simp [absent] at found
  · rw [if_neg absent, Option.some.injEq] at found
    intro zero
    have bound := keys.count_le_length (a := key)
    have number := congrArg UInt64.toNat (found.trans zero)
    rw [UInt64.toNat_ofNat', Nat.mod_eq_of_lt (by omega)] at number
    exact absent number

end LogCensus.Counts
