import LogCensus.Proofs.Path

/-!
The order of paths. Paths are compared by their components, one after the other, and two paths
neither of which comes first are the same path.
-/

namespace LogCensus.Path

instance : Ord Component := ⟨Component.compare⟩

theorem compare_component : Component.compare =
    compareLex (compareOn Component.rank) (compareOn Component.octets) := by
  funext one other
  rw [Component.compare, Location.compareOctets_eq]
  rfl

instance : Std.TransOrd Component := by
  change Std.TransCmp Component.compare
  rw [compare_component]
  infer_instance

theorem eq_of_compare_component {one other : Component} (same : one.compare other = .eq) :
    one = other := by
  rw [compare_component, compareLex, Ordering.then_eq_eq, compareOn, compareOn,
    Nat.compare_eq_eq, Std.LawfulEqCmp.compare_eq_iff_eq] at same
  obtain ⟨ranks, names⟩ := same
  cases one <;> cases other <;> simp_all [Component.rank, Component.octets]

instance : Std.LawfulEqOrd Component where
  eq_of_compare := eq_of_compare_component

theorem compareComponents_eq (one other : List Component) :
    compareComponents one other = compare one other := by
  induction one generalizing other with
  | nil => cases other <;> rfl
  | cons first one ih =>
    cases other with
    | nil => rfl
    | cons second other =>
      rw [compareComponents, ih, List.compare_cons_cons]
      rfl

theorem order_eq : order = compareOn components := by
  funext one other
  exact compareComponents_eq one.components other.components

instance : Std.TransCmp order := by
  rw [order_eq]
  infer_instance

/-- Paths are the same exactly if neither comes first. -/
theorem order_eq_eq_iff {one other : Path} : one.order other = .eq ↔ one.same other = true := by
  rw [order_eq, compareOn, Std.LawfulEqCmp.compare_eq_iff_eq, same, beq_iff_eq]

theorem same_comm (one other : Path) : one.same other = other.same one := Bool.beq_comm

theorem atMost_eq (one other : Path) : one.atMost other = (one.order other).isLE := by
  rw [atMost]
  cases one.order other <;> rfl

theorem atMost_trans {one two three : Path} (first : one.atMost two = true)
    (second : two.atMost three = true) : one.atMost three = true := by
  rw [atMost_eq] at *
  exact Std.TransCmp.isLE_trans first second

theorem atMost_total (one other : Path) : (one.atMost other || other.atMost one) = true := by
  have swapped : other.order one = (one.order other).swap := Std.OrientedCmp.eq_swap
  rw [atMost_eq, atMost_eq, swapped]
  cases one.order other <;> rfl

/-- Of two paths that are not the same, the one that may stand first comes first. -/
theorem order_eq_lt {one other : Path} (first : one.atMost other = true)
    (apart : one.same other = false) : one.order other = .lt := by
  rw [atMost_eq] at first
  cases order : one.order other with
  | lt => rfl
  | eq =>
    rw [order_eq_eq_iff.1 order] at apart
    cases apart
  | gt =>
    rw [order] at first
    cases first

end LogCensus.Path
