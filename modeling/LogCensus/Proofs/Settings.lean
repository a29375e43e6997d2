import LogCensus.Analysis
import Mathlib.Algebra.Order.Ring.Nat
import Mathlib.Tactic.Common

/-!
The length of the queues of an analysis. Settings that are accepted may name any number of workers,
and twice that number is taken in words of 64 bits. So a queue is as long as it is asked to be only
for fewer than `2 ^ 63` workers; beyond, it is shorter by `2 ^ 64`, and at `2 ^ 63` workers there is
no queue at all.
-/

namespace LogCensus.Settings

variable {settings : Settings}

def queueAskedFor (settings : Settings) : Nat :=
  if settings.bufferSize = 0 then 2 * settings.workers.toNat else settings.bufferSize.toNat

def queueLength (settings : Settings) : Nat :=
  (resolveBufferSize settings.bufferSize settings.workers).toNat

theorem queueLength_eq (staffed : settings.workers ≠ 0) :
    settings.queueLength = settings.queueAskedFor % 2 ^ 64 := by
  rw [queueLength, resolveBufferSize, queueAskedFor, if_neg staffed]
  split
  · rw [UInt64.toNat_mul, Nat.mul_comm]
    rfl
  · exact (Nat.mod_eq_of_lt settings.bufferSize.toNat_lt).symm

theorem queueAskedFor_lt_iff :
    settings.queueAskedFor < 2 ^ 64 ↔ settings.bufferSize ≠ 0 ∨ settings.workers.toNat < 2 ^ 63 := by
  have small := settings.bufferSize.toNat_lt
  rw [queueAskedFor]
  split
  next double =>
    simp only [double, ne_eq, not_true_eq_false, false_or]
    omega
  next own => simp [own, small]

theorem one_le_queueAskedFor (staffed : settings.workers ≠ 0) : 1 ≤ settings.queueAskedFor := by
  rw [queueAskedFor]
  split
  · have positive : settings.workers.toNat ≠ 0 := fun zero => staffed (UInt64.toNat_inj.1 zero)
    omega
  next own =>
    have positive : settings.bufferSize.toNat ≠ 0 := fun zero => own (UInt64.toNat_inj.1 zero)
    omega

/-- Beyond the words a queue is shorter by their number than it is asked to be. -/
theorem queueLength_of_overflow (double : settings.bufferSize = 0)
    (many : 2 ^ 63 ≤ settings.workers.toNat) :
    settings.queueLength + 2 ^ 64 = settings.queueAskedFor := by
  have staffed : settings.workers ≠ 0 := by
    intro zero
    rw [zero] at many
    exact absurd many (by decide)
  have small := settings.workers.toNat_lt
  rw [queueLength_eq staffed, queueAskedFor, if_pos double]
  omega

theorem queueLength_of_fits (staffed : settings.workers ≠ 0)
    (fits : settings.bufferSize ≠ 0 ∨ settings.workers.toNat < 2 ^ 63) :
    settings.queueLength = settings.queueAskedFor := by
  rw [queueLength_eq staffed]
  exact Nat.mod_eq_of_lt (queueAskedFor_lt_iff.2 fits)

theorem queueLength_eq_zero_iff (staffed : settings.workers ≠ 0) :
    settings.queueLength = 0 ↔ settings.bufferSize = 0 ∧ settings.workers.toNat = 2 ^ 63 := by
  have asked := one_le_queueAskedFor staffed
  have fewWorkers := settings.workers.toNat_lt
  have small := settings.bufferSize.toNat_lt
  rw [queueLength_eq staffed]
  unfold queueAskedFor at asked ⊢
  by_cases double : settings.bufferSize = 0
  · rw [if_pos double] at asked ⊢
    simp only [double, true_and]
    omega
  · rw [if_neg double] at asked ⊢
    simp only [double, false_and, iff_false]
    omega

theorem pool?_eq (settings : Settings) :
    Analysis.pool? settings =
      if 0 < settings.queueLength ∧ settings.queueLength ≤ Pool.mostItems then
        some (Pool.create settings.workers.toNat settings.queueLength)
      else none := rfl

/-- Settings that are accepted only fail for want of queues of their length. -/
theorem ofPaths_eq_noQueues_iff (accepted : settings.fault? = none) (registry : Registry)
    (cancellation : Cancellation) (files : FileSystem) (path : Path) (more : List Path) :
    Analysis.ofPaths registry settings cancellation files (path :: more) = .error .noQueues ↔
      settings.queueLength = 0 ∨ Pool.mostItems < settings.queueLength := by
  rw [Analysis.ofPaths, accepted, pool?_eq]
  simp only [List.isEmpty_cons, Bool.false_eq_true, if_false]
  by_cases fits : 0 < settings.queueLength ∧ settings.queueLength ≤ Pool.mostItems
  · rw [if_pos fits]
    simp
    omega
  · rw [if_neg fits]
    simp
    omega

/-- The queues of an analysis whose settings are accepted hold as many jobs as they are asked to if
that is below `2 ^ 64`, and less by `2 ^ 64` if not. The analysis has its pool, with such queues,
unless nothing is left or it is more than a queue can be made for. -/
theorem queue_of_accepted (accepted : settings.fault? = none) (staffed : settings.workers ≠ 0) :
    (settings.bufferSize ≠ 0 ∨ settings.workers.toNat < 2 ^ 63 →
        settings.queueLength = settings.queueAskedFor ∧ 1 ≤ settings.queueLength) ∧
      (settings.bufferSize = 0 → 2 ^ 63 ≤ settings.workers.toNat →
        settings.queueLength + 2 ^ 64 = settings.queueAskedFor) ∧
      (settings.queueLength = 0 ↔
        settings.bufferSize = 0 ∧ settings.workers.toNat = 2 ^ 63) ∧
      (∀ pool, Analysis.pool? settings = some pool ↔
        pool = Pool.create settings.workers.toNat settings.queueLength ∧
          1 ≤ settings.queueLength ∧ settings.queueLength ≤ Pool.mostItems) ∧
      ∀ registry cancellation files path more,
        Analysis.ofPaths registry settings cancellation files (path :: more) = .error .noQueues ↔
          settings.queueLength = 0 ∨ Pool.mostItems < settings.queueLength := by
  refine ⟨fun fits => ?_, queueLength_of_overflow, queueLength_eq_zero_iff staffed,
    fun pool => ?_, ofPaths_eq_noQueues_iff accepted⟩
  · have same := queueLength_of_fits staffed fits
    exact ⟨same, same ▸ one_le_queueAskedFor staffed⟩
  · rw [pool?_eq, Option.ite_none_right_eq_some, Option.some.injEq]
    exact ⟨fun ⟨possible, same⟩ => ⟨same.symm, possible⟩,
      fun ⟨same, possible⟩ => ⟨possible, same.symm⟩⟩

/-- Settings that name as many workers as half of the words. -/
def crowded : Settings :=
  { workers := 0x8000000000000000, format := some "json", limit := some 10 }

theorem queue_of_accepted_sample :
    crowded.fault? = none ∧ crowded.workers ≠ 0 ∧ crowded.queueLength = 0 ∧
      crowded.queueAskedFor = 2 ^ 64 ∧ crowded.queueLength + 2 ^ 64 = crowded.queueAskedFor ∧
      Analysis.ofPaths .standard crowded {} ⟨.bare, []⟩ [⟨[97]⟩] = .error .noQueues := by
  have accepted : crowded.fault? = none := by decide
  have staffed : crowded.workers ≠ 0 := by decide
  obtain ⟨-, shorter, empty, -, refused⟩ := queue_of_accepted accepted staffed
  have nothing : crowded.queueLength = 0 := empty.2 ⟨rfl, rfl⟩
  exact ⟨accepted, staffed, nothing, rfl, shorter rfl (by decide),
    (refused _ _ _ _ _).2 (.inl nothing)⟩

/-- A queue need not be as long as it is asked to be, nor have any place. -/
theorem not_all_queues_as_asked :
    ¬∀ settings : Settings, settings.fault? = none → settings.workers ≠ 0 →
      settings.queueLength = settings.queueAskedFor ∧ 1 ≤ settings.queueLength := by
  intro always
  have room := (always { workers := 0x8000000000000000 } rfl (by decide)).2
  exact absurd room (by decide)

end LogCensus.Settings
