import Mathlib.Algebra.BigOperators.Intervals
import Mathlib.Tactic.Common

/-!
Words as rows of fields. A mask that keeps every other field of `k` bits, applied to
a word and to the word shifted by `k`, adds neighbouring fields into fields twice as
wide: after a few such sums every field holds what its bits added up to. Combined
with exclusive or instead, a word and its shift have the parity of both halves.
-/

namespace BitFields

/-- Field `i` of `k` bits. -/
def field (k i y : ℕ) : ℕ := y / 2 ^ (k * i) % 2 ^ k

theorem field_lt (k i y : ℕ) : field k i y < 2 ^ k := Nat.mod_lt _ (Nat.two_pow_pos k)

theorem field_and (k i a b : ℕ) : field k i (a &&& b) = field k i a &&& field k i b := by
  rw [field, Nat.and_div_two_pow, Nat.and_mod_two_pow]
  rfl

theorem field_shiftRight (k i y : ℕ) : field k i (y >>> k) = field k (i + 1) y := by
  rw [field, field, Nat.shiftRight_eq_div_pow, Nat.div_div_eq_div_mul, ← pow_add, Nat.mul_succ,
    Nat.add_comm k]

/-- A field is made of two of half its width. -/
theorem field_two_mul (k i y : ℕ) :
    field (2 * k) i y = field k (2 * i) y + 2 ^ k * field k (2 * i + 1) y := by
  have hlow : 2 * k * i = k * (2 * i) := by rw [Nat.mul_comm 2 k, Nat.mul_assoc]
  have hhigh : k * (2 * i + 1) = k * (2 * i) + k := Nat.mul_succ k (2 * i)
  rw [field, field, field, hlow, hhigh, Nat.two_mul k, pow_add, Nat.mod_mul,
    Nat.div_div_eq_div_mul, ← pow_add]

/-- Below field `i` nothing is carried. -/
theorem add_div_of_no_carry {k : ℕ} {a b : ℕ} (i : ℕ)
    (h : ∀ j < i, field k j a + field k j b < 2 ^ k) :
    (a + b) / 2 ^ (k * i) = a / 2 ^ (k * i) + b / 2 ^ (k * i) := by
  induction i with
  | zero => simp
  | succ i ih =>
      have hprev := ih fun j hj => h j (Nat.lt_succ_of_lt hj)
      have hlast : a / 2 ^ (k * i) % 2 ^ k + b / 2 ^ (k * i) % 2 ^ k < 2 ^ k :=
        h i (Nat.lt_succ_self i)
      rw [Nat.mul_succ, pow_add, ← Nat.div_div_eq_div_mul, ← Nat.div_div_eq_div_mul,
        ← Nat.div_div_eq_div_mul, hprev, Nat.add_div (Nat.two_pow_pos k),
        if_neg (Nat.not_le.mpr hlast), Nat.add_zero]

theorem field_add {k : ℕ} {a b i : ℕ} (h : ∀ j ≤ i, field k j a + field k j b < 2 ^ k) :
    field k i (a + b) = field k i a + field k i b := by
  have hlast : a / 2 ^ (k * i) % 2 ^ k + b / 2 ^ (k * i) % 2 ^ k < 2 ^ k := h i (Nat.le_refl i)
  rw [field, add_div_of_no_carry i fun j hj => h j (Nat.le_of_lt hj), Nat.add_mod,
    Nat.mod_eq_of_lt hlast]
  rfl

/-- A mask of the lower halves of the first `n` fields of `2 * k` bits. -/
def LowerHalves (k n m : ℕ) : Prop := ∀ i < n, field (2 * k) i m = 2 ^ k - 1

theorem field_and_lowerHalves {k n m : ℕ} (hm : LowerHalves k n m) {i : ℕ} (hi : i < n) (y : ℕ) :
    field (2 * k) i (y &&& m) = field k (2 * i) y := by
  rw [field_and, hm i hi, Nat.and_two_pow_sub_one_eq_mod, field_two_mul, Nat.add_mul_mod_self_left]
  exact Nat.mod_eq_of_lt (field_lt k _ y)

theorem two_pow_two_mul (k : ℕ) : 2 ^ (2 * k) = 2 ^ k * 2 ^ k := by rw [Nat.two_mul, pow_add]

theorem two_mul_two_pow_le {k : ℕ} (hk : 0 < k) : 2 * 2 ^ k ≤ 2 ^ (2 * k) := by
  rw [two_pow_two_mul]
  exact Nat.mul_le_mul_right _ (Nat.le_self_pow (Nat.pos_iff_ne_zero.mp hk) 2)

/-- Neighbouring fields are added. -/
theorem field_pairSum {k n m : ℕ} (hk : 0 < k) (hm : LowerHalves k n m) {i : ℕ} (hi : i < n)
    (y : ℕ) :
    field (2 * k) i ((y &&& m) + ((y >>> k) &&& m)) =
      field k (2 * i) y + field k (2 * i + 1) y := by
  have hfield : ∀ j ≤ i, field (2 * k) j (y &&& m) + field (2 * k) j ((y >>> k) &&& m) =
      field k (2 * j) y + field k (2 * j + 1) y := by
    intro j hj
    rw [field_and_lowerHalves hm (by omega), field_and_lowerHalves hm (by omega),
      field_shiftRight]
  rw [field_add, hfield i (Nat.le_refl i)]
  intro j hj
  have hroom := two_mul_two_pow_le hk
  have hlow := field_lt k (2 * j) y
  have hhigh := field_lt k (2 * j + 1) y
  rw [hfield j hj]
  omega

/-- Where no sum of neighbours outgrows a field, one mask after the sum will do. -/
theorem field_sum_and {k n m y : ℕ} (hm : LowerHalves k n m) {i : ℕ} (hi : i < n)
    (hroom : ∀ j ≤ 2 * i, field k j y + field k (j + 1) y < 2 ^ k) :
    field (2 * k) i ((y + (y >>> k)) &&& m) = field k (2 * i) y + field k (2 * i + 1) y := by
  rw [field_and_lowerHalves hm hi, field_add, field_shiftRight]
  intro j hj
  rw [field_shiftRight]
  exact hroom j hj

/-! ### Counting bits -/

variable {w : ℕ}

/-- How many of the lowest `n` bits are set. -/
def ones (x : BitVec w) (n : ℕ) : ℕ := ∑ i ∈ Finset.range n, (x.getLsbD i).toNat

theorem ones_succ (x : BitVec w) (n : ℕ) : ones x (n + 1) = ones x n + (x.getLsbD n).toNat :=
  Finset.sum_range_succ _ n

theorem field_one (x : BitVec w) (i : ℕ) : field 1 i x.toNat = (x.getLsbD i).toNat := by
  rw [field, Nat.one_mul, pow_one, ← Nat.toNat_testBit, BitVec.testBit_toNat]

theorem ones_le (x : BitVec w) (n : ℕ) : ones x n ≤ n := by
  induction n with
  | zero => exact Nat.le_refl 0
  | succ n ih =>
      have hbit := Bool.toNat_le (x.getLsbD n)
      rw [ones_succ]
      omega

/-- Above its width a word has no bits. -/
theorem ones_of_le (x : BitVec w) {n : ℕ} (h : w ≤ n) : ones x n = ones x w := by
  induction n, h using Nat.le_induction with
  | base => rfl
  | succ n hn ih => rw [ones_succ, ih, BitVec.getLsbD_of_ge x n hn, Bool.toNat_false, Nat.add_zero]

theorem ones_setWidth {v : ℕ} (x : BitVec w) (h : w ≤ v) : ones (x.setWidth v) v = ones x w := by
  rw [← ones_of_le x h]
  refine Finset.sum_congr rfl fun i hi => ?_
  rw [BitVec.getLsbD_setWidth, decide_eq_true (Finset.mem_range.mp hi), Bool.true_and]

theorem ones_shiftRight_add (x : BitVec w) (h n : ℕ) :
    ones x (h + n) = ones x h + ones (x >>> h) n := by
  rw [ones, Finset.sum_range_add]
  simp only [ones, BitVec.getLsbD_ushiftRight]

theorem ones_xor (x y : BitVec w) (n : ℕ) : ones (x ^^^ y) n % 2 = (ones x n + ones y n) % 2 := by
  induction n with
  | zero => rfl
  | succ n ih =>
      have hbit : ∀ a b : Bool, (a ^^ b).toNat % 2 = (a.toNat + b.toNat) % 2 := by decide
      have hxor := hbit (x.getLsbD n) (y.getLsbD n)
      rw [ones_succ, ones_succ, ones_succ, BitVec.getLsbD_xor]
      omega

/-- Both halves have the parity of their exclusive or. -/
theorem ones_fold (x : BitVec w) (h : ℕ) :
    ones (x ^^^ (x >>> h)) h % 2 = ones x (h + h) % 2 := by
  rw [ones_xor, ones_shiftRight_add]

end BitFields
