import Mathlib.Analysis.InnerProductSpace.PiL2

/-!
One step of the normalised LMS rule in a real inner product space. The step
takes a multiple of the regressor off the misalignment, and what it adds to the
norm is decided by how the multiple compares with the error that the regressor
sees. Rounding the coordinates costs at most half a unit in each.
-/

namespace Nlms

section

variable {E : Type*} [NormedAddCommGroup E] [InnerProductSpace ℝ E]

/-- What a step of size `c` along `x` takes off the squared norm of `v`. -/
def gain (v x : E) (c : ℝ) : ℝ := ‖v‖ ^ 2 - ‖v - c • x‖ ^ 2

theorem gain_eq (v x : E) (c : ℝ) : gain v x c = c * (2 * inner ℝ v x - c * ‖x‖ ^ 2) := by
  rw [gain, norm_sub_sq_real, norm_smul, inner_smul_right, mul_pow, Real.norm_eq_abs, sq_abs]
  ring

@[simp] theorem gain_neg (v x : E) (c : ℝ) : gain (-v) x (-c) = gain v x c := by
  rw [gain_eq, inner_neg_left, gain_eq]
  ring

/-- A step no longer than twice the error that the regressor sees, and `m`,
misses no more than its share of `m`. -/
theorem neg_mul_le_gain {v x : E} {c m : ℝ} (hc : 0 ≤ c)
    (h : c * ‖x‖ ^ 2 ≤ 2 * inner ℝ v x + m) : -(c * m) ≤ gain v x c := by
  rw [gain_eq, ← mul_neg]
  exact mul_le_mul_of_nonneg_left (by linarith) hc

/-- A step that takes off less than nothing adds no more than the root of what
it misses. -/
theorem norm_sub_smul_le {v x : E} {c s : ℝ} (hs : 0 ≤ s) (h : -s ^ 2 ≤ gain v x c) :
    ‖v - c • x‖ ≤ ‖v‖ + s := by
  have hv := norm_nonneg v
  apply le_of_sq_le_sq ?_ (add_nonneg hv hs)
  rw [gain] at h
  nlinarith

/-- The step with the rounding error `r`. -/
theorem norm_sub_smul_sub_le {v x r : E} {c s : ℝ} (hs : 0 ≤ s) (h : -s ^ 2 ≤ gain v x c) :
    ‖v - c • x - r‖ ≤ ‖v‖ + s + ‖r‖ :=
  (norm_sub_le _ _).trans (add_le_add_left (norm_sub_smul_le hs h) _)

end

/-! ### Vectors of integers -/

variable {n : ℕ}

/-- The first `n` entries of a list. -/
def ofList (n : ℕ) (l : List ℤ) : EuclideanSpace ℝ (Fin n) :=
  WithLp.toLp _ fun i : Fin n => (l.getD i 0 : ℝ)

@[simp] theorem ofList_apply (l : List ℤ) (i : Fin n) : ofList n l i = l.getD i 0 := rfl

theorem inner_ofList (l m : List ℤ) :
    inner ℝ (ofList n l) (ofList n m) =
      ((∑ i ∈ Finset.range n, l.getD i 0 * m.getD i 0 : ℤ) : ℝ) := by
  rw [PiLp.inner_apply, Finset.sum_range]
  push_cast
  exact Finset.sum_congr rfl fun i _ => mul_comm _ _

theorem norm_ofList_sq (l : List ℤ) :
    ‖ofList n l‖ ^ 2 = ((∑ i ∈ Finset.range n, l.getD i 0 ^ 2 : ℤ) : ℝ) := by
  rw [← real_inner_self_eq_norm_sq, inner_ofList]
  congr 1
  exact Finset.sum_congr rfl fun i _ => (sq _).symm

/-- A vector is no longer than a root of its dimension allows its entries to be. -/
theorem norm_le_of_abs_le {r : EuclideanSpace ℝ (Fin n)} {b : ℝ} (hb : 0 ≤ b)
    (h : ∀ i, |r i| ≤ b) : ‖r‖ ≤ √n * b := by
  have hsq : ‖r‖ ^ 2 ≤ n * b ^ 2 := by
    rw [EuclideanSpace.norm_sq_eq]
    calc ∑ i, ‖r i‖ ^ 2 ≤ ∑ _i : Fin n, b ^ 2 :=
          Finset.sum_le_sum fun i _ => pow_le_pow_left₀ (norm_nonneg _) (h i) 2
      _ = n * b ^ 2 := by
          rw [Finset.sum_const, Finset.card_univ, Fintype.card_fin, nsmul_eq_mul]
  apply le_of_sq_le_sq
  · rw [mul_pow, Real.sq_sqrt n.cast_nonneg]
    exact hsq
  · exact mul_nonneg (Real.sqrt_nonneg _) hb

end Nlms
