import Mathlib.Algebra.BigOperators.Group.List.Basic
import Mathlib.Algebra.Order.Group.Defs

/-!
Accumulators that are clamped at zero after every step. The accumulator holds
the greatest sum of a final stretch of its steps, the empty stretch included,
so a bound on it is a bound on every stretch and a value it reaches is the sum
of one.
-/

/-- The accumulator after its steps, the last step at the head of the list. -/
def clampedSum {α : Type*} [AddCommGroup α] [LinearOrder α] : List α → α
  | [] => 0
  | x :: xs => max 0 (x + clampedSum xs)

section

variable {α : Type*} [AddCommGroup α] [LinearOrder α]

theorem clampedSum_nonneg (xs : List α) : 0 ≤ clampedSum xs := by
  cases xs with
  | nil => exact le_refl 0
  | cons x xs => exact le_max_left _ _

/-- Some final stretch of the steps adds up to the accumulator. -/
theorem exists_clampedSum_eq (xs : List α) :
    ∃ m ≤ xs.length, clampedSum xs = (xs.take m).sum := by
  induction xs with
  | nil => exact ⟨0, le_refl 0, rfl⟩
  | cons x xs ih =>
      obtain ⟨m, hm, hsum⟩ := ih
      rcases le_total 0 (x + clampedSum xs) with h | h
      · refine ⟨m + 1, Nat.succ_le_succ hm, ?_⟩
        rw [clampedSum, max_eq_right h, hsum, List.take_succ_cons, List.sum_cons]
      · refine ⟨0, Nat.zero_le _, ?_⟩
        rw [clampedSum, max_eq_left h, List.take_zero, List.sum_nil]

/-- No final stretch of the steps adds up to more than the accumulator. -/
theorem sum_take_le_clampedSum [IsOrderedAddMonoid α] (xs : List α) (m : ℕ) :
    (xs.take m).sum ≤ clampedSum xs := by
  induction xs generalizing m with
  | nil => rw [List.take_nil, List.sum_nil, clampedSum]
  | cons x xs ih =>
      cases m with
      | zero =>
          rw [List.take_zero, List.sum_nil]
          exact clampedSum_nonneg _
      | succ m =>
          rw [List.take_succ_cons, List.sum_cons]
          exact (add_le_add_right (ih m) x).trans (le_max_right _ _)

end
