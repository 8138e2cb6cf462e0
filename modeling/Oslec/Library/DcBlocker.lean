import Mathlib.Tactic.Linarith
import Mathlib.Tactic.Positivity
import Mathlib.Tactic.Ring

/-!
The first order high pass `y' = y - y / 2 ^ b + x' - x` over the integers. Its
state can be twice as large as its inputs, and so can the difference of two
inputs; what bounds it is that the state less the last input never leaves the
range of the inputs by more than the rounding of one division.
-/

namespace DcBlocker

def step (b : ℕ) (y x x' : ℤ) : ℤ := y - y / 2 ^ b + x' - x

/-- The state after its inputs, the last one at the head of the list. -/
def run (b : ℕ) : List ℤ → ℤ
  | [] => 0
  | x' :: older => step b (run b older) (older.headD 0) x'

variable {b : ℕ}

theorem headD_bounds {m : ℤ} (hm : 0 ≤ m) {xs : List ℤ} (h : ∀ x ∈ xs, -m ≤ x ∧ x ≤ m) :
    -m ≤ xs.headD 0 ∧ xs.headD 0 ≤ m := by
  cases xs with
  | nil => exact ⟨by simpa using hm, hm⟩
  | cons x older => exact h x List.mem_cons_self

/-- The state less the last input stays in the range of the inputs, up to the
rounding of the feedback. -/
theorem sub_ediv_bounds {m z x : ℤ} (hz : -m ≤ z ∧ z ≤ m + (2 ^ b - 1)) (hx : -m ≤ x ∧ x ≤ m) :
    -m ≤ z - (z + x) / 2 ^ b ∧ z - (z + x) / 2 ^ b ≤ m + (2 ^ b - 1) := by
  have hpow : (0 : ℤ) < 2 ^ b := by positivity
  have hlo := Int.mul_ediv_self_le (x := z + x) hpow.ne'
  have hhi := Int.lt_mul_ediv_self_add (x := z + x) hpow
  constructor
  · -- a quotient that takes `z` below `-m` has `z + x` negative
    by_contra hneg
    have hq : z + m + 1 ≤ (z + x) / 2 ^ b := by omega
    nlinarith
  · by_contra hneg
    have hq : (z + x) / 2 ^ b ≤ z - m - 2 ^ b := by omega
    nlinarith

theorem run_sub_head_bounds {m : ℤ} (hm : 0 ≤ m) {xs : List ℤ}
    (h : ∀ x ∈ xs, -m ≤ x ∧ x ≤ m) :
    -m ≤ run b xs - xs.headD 0 ∧ run b xs - xs.headD 0 ≤ m + (2 ^ b - 1) := by
  have hpow : (1 : ℤ) ≤ 2 ^ b := one_le_pow₀ (by norm_num)
  induction xs with
  | nil =>
      simp only [run, List.headD_nil, sub_self]
      omega
  | cons x' older ih =>
      have holder : ∀ x ∈ older, -m ≤ x ∧ x ≤ m := fun x hx => h x (List.mem_cons_of_mem x' hx)
      have hstep := sub_ediv_bounds (ih holder) (headD_bounds hm holder)
      have hrun : run b (x' :: older) - x' =
          run b older - older.headD 0 - (run b older - older.headD 0 + older.headD 0) / 2 ^ b := by
        rw [run, step, sub_add_cancel]
        omega
      rw [List.headD_cons, hrun]
      exact hstep

theorem run_bounds {m : ℤ} (hm : 0 ≤ m) {xs : List ℤ} (h : ∀ x ∈ xs, -m ≤ x ∧ x ≤ m) :
    -(2 * m) ≤ run b xs ∧ run b xs ≤ 2 * m + (2 ^ b - 1) := by
  have hhead := headD_bounds hm h
  have hsub := run_sub_head_bounds (b := b) hm h
  omega

/-! ### A constant input -/

/-- What a step leaves of the state when the input does not change. -/
def leak (b : ℕ) (y : ℤ) : ℤ := y - y / 2 ^ b

theorem run_replicate (n : ℕ) (x : ℤ) (xs : List ℤ) :
    run b (List.replicate n x ++ x :: xs) = (leak b)^[n] (run b (x :: xs)) := by
  induction n with
  | zero => rfl
  | succ n ih =>
      have hhead : (List.replicate n x ++ x :: xs).headD 0 = x := by
        cases n with
        | zero => rfl
        | succ n => rfl
      rw [List.replicate_succ, List.cons_append, run, hhead, ih, Function.iterate_succ_apply', step,
        leak]
      omega

/-- From above the state shrinks by a `2 ^ b`-th part, but for the rounding. -/
theorem two_pow_mul_leak_le (y : ℤ) :
    2 ^ b * (leak b y - (2 ^ b - 1)) ≤ (2 ^ b - 1) * (y - (2 ^ b - 1)) := by
  have hpow : (0 : ℤ) < 2 ^ b := by positivity
  have hhi := Int.lt_mul_ediv_self_add (x := y) hpow
  rw [leak]
  nlinarith

/-- From below it is the same part, and the rounding helps. -/
theorem le_two_pow_mul_leak (y : ℤ) : (2 ^ b - 1) * y ≤ 2 ^ b * leak b y := by
  have hpow : (0 : ℤ) < 2 ^ b := by positivity
  have hlo := Int.mul_ediv_self_le (x := y) hpow.ne'
  rw [leak]
  linarith

theorem two_pow_mul_iterate_leak_le (n : ℕ) (y : ℤ) :
    (2 ^ b) ^ n * ((leak b)^[n] y - (2 ^ b - 1)) ≤ (2 ^ b - 1) ^ n * (y - (2 ^ b - 1)) := by
  have hpow : (1 : ℤ) ≤ 2 ^ b := one_le_pow₀ (by norm_num)
  induction n with
  | zero => simp
  | succ n ih =>
      rw [Function.iterate_succ_apply']
      have hstep := two_pow_mul_leak_le (b := b) ((leak b)^[n] y)
      calc (2 ^ b) ^ (n + 1) * (leak b ((leak b)^[n] y) - (2 ^ b - 1))
          = (2 ^ b) ^ n * (2 ^ b * (leak b ((leak b)^[n] y) - (2 ^ b - 1))) := by ring
        _ ≤ (2 ^ b) ^ n * ((2 ^ b - 1) * ((leak b)^[n] y - (2 ^ b - 1))) :=
          mul_le_mul_of_nonneg_left hstep (by positivity)
        _ = (2 ^ b - 1) * ((2 ^ b) ^ n * ((leak b)^[n] y - (2 ^ b - 1))) := by ring
        _ ≤ (2 ^ b - 1) * ((2 ^ b - 1) ^ n * (y - (2 ^ b - 1))) :=
          mul_le_mul_of_nonneg_left ih (by omega)
        _ = (2 ^ b - 1) ^ (n + 1) * (y - (2 ^ b - 1)) := by ring

theorem le_two_pow_mul_iterate_leak (n : ℕ) (y : ℤ) :
    (2 ^ b - 1) ^ n * y ≤ (2 ^ b) ^ n * (leak b)^[n] y := by
  have hpow : (1 : ℤ) ≤ 2 ^ b := one_le_pow₀ (by norm_num)
  induction n with
  | zero => simp
  | succ n ih =>
      rw [Function.iterate_succ_apply']
      have hstep := le_two_pow_mul_leak (b := b) ((leak b)^[n] y)
      calc (2 ^ b - 1) ^ (n + 1) * y = (2 ^ b - 1) * ((2 ^ b - 1) ^ n * y) := by ring
        _ ≤ (2 ^ b - 1) * ((2 ^ b) ^ n * (leak b)^[n] y) :=
          mul_le_mul_of_nonneg_left ih (by omega)
        _ = (2 ^ b) ^ n * ((2 ^ b - 1) * (leak b)^[n] y) := by ring
        _ ≤ (2 ^ b) ^ n * (2 ^ b * leak b ((leak b)^[n] y)) :=
          mul_le_mul_of_nonneg_left hstep (by positivity)
        _ = (2 ^ b) ^ (n + 1) * leak b ((leak b)^[n] y) := by ring

/-- The state is down to the rounding, and not below zero, once less than one
unit of it is left. -/
theorem iterate_leak_settles {n : ℕ} {y : ℤ} (hup : (2 ^ b - 1) ^ n * y < (2 ^ b) ^ n)
    (hdown : -(2 ^ b) ^ n < (2 ^ b - 1) ^ n * y) :
    0 ≤ (leak b)^[n] y ∧ (leak b)^[n] y ≤ 2 ^ b - 1 := by
  have hpow : (0 : ℤ) < (2 ^ b) ^ n := by positivity
  have hone : (1 : ℤ) ≤ 2 ^ b := one_le_pow₀ (by norm_num)
  have hrest : 0 ≤ (2 ^ b - 1 : ℤ) ^ n := pow_nonneg (by omega) n
  have hle := two_pow_mul_iterate_leak_le (b := b) n y
  have hge := hdown.trans_le (le_two_pow_mul_iterate_leak n y)
  constructor
  · by_contra hneg
    nlinarith
  · by_contra hlarge
    nlinarith [mul_nonneg hrest (by omega : (0 : ℤ) ≤ 2 ^ b - 1)]

end DcBlocker
