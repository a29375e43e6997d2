import LogCensus.Time.Instant
import Mathlib.Data.Prod.Lex
import Mathlib.Order.MinMax

/-!
Instants are ordered by their seconds, and by their nanoseconds within a second, so the earlier and
the later of two are a minimum and a maximum.
-/

namespace LogCensus.Time.Instant

def position (instant : Instant) : Int ×ₗ Nat := toLex (instant.seconds, instant.nanos)

theorem position_injective : Function.Injective position := by
  intro one other same
  have parts : (one.seconds, one.nanos) = (other.seconds, other.nanos) := toLex.injective same
  rw [Prod.mk.injEq] at parts
  cases one
  cases other
  simpa using parts

instance : LinearOrder Instant := LinearOrder.lift' position position_injective

theorem le_iff {one other : Instant} :
    one ≤ other ↔
      one.seconds < other.seconds ∨ one.seconds = other.seconds ∧ one.nanos ≤ other.nanos :=
  Prod.Lex.le_iff

theorem atMost_iff {one other : Instant} : one.atMost other = true ↔ one ≤ other := by
  simp [atMost, le_iff]

theorem before_iff {one other : Instant} : one.before other = true ↔ one < other := by
  rw [lt_iff_not_ge, le_iff]
  simp only [before, Bool.or_eq_true, decide_eq_true_eq, Bool.and_eq_true, beq_iff_eq]
  omega

theorem earlier_eq_min (one other : Instant) : one.earlier other = min one other := by
  rw [earlier, min_comm, min_def_lt]
  simp only [before_iff]

theorem later_eq_max (one other : Instant) : one.later other = max one other := by
  rw [later, max_def_lt]
  simp only [before_iff]

end LogCensus.Time.Instant
