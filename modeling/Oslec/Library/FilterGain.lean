import Oslec.Library.PackedLanes
import Mathlib.Algebra.Order.Group.Int

/-!
How far a finite filter can go. The sum of the magnitudes of its coefficients is
the gain: inputs of amplitude `m` give outputs up to `gain * m`, and the inputs
with the signs of the coefficients reach it.
-/

namespace FilterGain

open PackedLanes

def gain (coeffs : List ℤ) : ℕ := (coeffs.map Int.natAbs).sum

theorem mac_cons (c x : ℤ) (cs xs : List ℤ) : mac (c :: cs) (x :: xs) = c * x + mac cs xs := by
  simp [mac]

/-- What has not come in yet counts as zero. -/
theorem mac_append_zeros (coeffs xs : List ℤ) (k : ℕ) :
    mac coeffs (xs ++ List.replicate k 0) = mac coeffs xs := by
  induction coeffs generalizing xs k with
  | nil => rfl
  | cons c cs ih =>
      cases xs with
      | cons x xs => rw [List.cons_append, mac_cons, mac_cons, ih]
      | nil =>
          cases k with
          | zero => rfl
          | succ k =>
              have hrest := ih [] k
              rw [List.nil_append] at hrest
              rw [List.nil_append, List.replicate_succ, mac_cons, hrest, Int.mul_zero,
                Int.zero_add]
              simp [mac]

theorem mac_take (coeffs xs : List ℤ) : mac coeffs (xs.take coeffs.length) = mac coeffs xs := by
  induction coeffs generalizing xs with
  | nil => rfl
  | cons c cs ih =>
      cases xs with
      | nil => rfl
      | cons x xs => rw [List.length_cons, List.take_succ_cons, mac_cons, mac_cons, ih]

theorem natAbs_mac_le {m : ℕ} (coeffs : List ℤ) {xs : List ℤ} (h : ∀ x ∈ xs, x.natAbs ≤ m) :
    (mac coeffs xs).natAbs ≤ gain coeffs * m := by
  induction coeffs generalizing xs with
  | nil => simp [mac]
  | cons c cs ih =>
      cases xs with
      | nil => simp [mac]
      | cons x xs =>
          obtain ⟨hx, hxs⟩ := List.forall_mem_cons.mp h
          have hgain : gain (c :: cs) = c.natAbs + gain cs := rfl
          have hterm : (c * x).natAbs ≤ c.natAbs * m := by
            rw [Int.natAbs_mul]
            exact Nat.mul_le_mul_left _ hx
          calc (mac (c :: cs) (x :: xs)).natAbs
              ≤ (c * x).natAbs + (mac cs xs).natAbs := by
                rw [mac_cons]
                exact Int.natAbs_add_le _ _
            _ ≤ c.natAbs * m + gain cs * m := Nat.add_le_add hterm (ih hxs)
            _ = gain (c :: cs) * m := by rw [hgain, Nat.add_mul]

/-- The inputs that reach the gain. -/
def worstInputs (m : ℕ) (coeffs : List ℤ) : List ℤ := coeffs.map fun c => c.sign * m

theorem natAbs_worstInputs_le (m : ℕ) (coeffs : List ℤ) :
    ∀ x ∈ worstInputs m coeffs, x.natAbs ≤ m := by
  intro x hx
  obtain ⟨c, -, rfl⟩ := List.mem_map.mp hx
  rcases lt_trichotomy c 0 with hneg | rfl | hpos
  · rw [Int.sign_eq_neg_one_of_neg hneg]
    omega
  · simp
  · rw [Int.sign_eq_one_of_pos hpos]
    omega

theorem mac_worstInputs (m : ℕ) (coeffs : List ℤ) :
    mac coeffs (worstInputs m coeffs) = gain coeffs * m := by
  induction coeffs with
  | nil => simp [mac, gain]
  | cons c cs ih =>
      have hgain : gain (c :: cs) = c.natAbs + gain cs := rfl
      have hworst : worstInputs m (c :: cs) = c.sign * m :: worstInputs m cs := rfl
      rw [hworst, mac_cons, ih, ← Int.mul_assoc, Int.mul_sign_self, hgain, Nat.cast_add,
        Int.add_mul]

end FilterGain
