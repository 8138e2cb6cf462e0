import Mathlib.Algebra.BigOperators.Group.List.Basic
import Mathlib.Data.Int.ModEq
import Mathlib.Data.Rat.Floor
import Mathlib.Tactic.LinearCombination
import Mathlib.Tactic.Ring

/-!
Two's complement storage of integers. `wrap w x` is what a `w`-bit signed
register holds after `x` is stored in it. Additions and multiplications may be
carried out over the integers and wrapped once at the end; right shifts and
comparisons may not, and the lemmas below say when they may after all.
-/

namespace TwosComplement

/-- The value of a `w`-bit two's complement register after storing `x`. -/
def wrap (w : ℕ) (x : ℤ) : ℤ := x.bmod (2 ^ w)

/-- The integers a `w`-bit two's complement register can hold. -/
def Fits (w : ℕ) (x : ℤ) : Prop := -2 ^ (w - 1) ≤ x ∧ x < 2 ^ (w - 1)

instance (w : ℕ) (x : ℤ) : Decidable (Fits w x) :=
  inferInstanceAs (Decidable (_ ∧ _))

theorem two_pow_pred {w : ℕ} (hw : 0 < w) : (2 : ℤ) ^ w = 2 * 2 ^ (w - 1) := by
  obtain ⟨v, rfl⟩ := Nat.exists_eq_succ_of_ne_zero hw.ne'
  simp [pow_succ, mul_comm]

@[simp] theorem wrap_zero (w : ℕ) : wrap w 0 = 0 := by simp [wrap]

@[simp] theorem wrap_wrap (w : ℕ) (x : ℤ) : wrap w (wrap w x) = wrap w x := by
  simp [wrap]

theorem wrap_fits {w : ℕ} (hw : 0 < w) (x : ℤ) : Fits w (wrap w x) := by
  have hpow := two_pow_pred hw
  have hpos : 0 < 2 ^ w := Nat.two_pow_pos w
  have hcast : ((2 ^ w : ℕ) : ℤ) = 2 ^ w := by push_cast; rfl
  have hlo := Int.le_bmod (x := x) hpos
  have hhi := Int.bmod_lt (x := x) hpos
  rw [hcast] at hlo hhi
  unfold Fits wrap
  omega

/-- Storing a value that fits loses nothing. -/
theorem wrap_of_fits {w : ℕ} (hw : 0 < w) {x : ℤ} (hx : Fits w x) : wrap w x = x := by
  have hpow := two_pow_pred hw
  have hcast : ((2 ^ w : ℕ) : ℤ) = 2 ^ w := by push_cast; rfl
  obtain ⟨hlo, hhi⟩ := hx
  refine Int.bmod_eq_of_le_mul_two ?_ ?_
  · rw [hcast]; omega
  · rw [hcast]; omega

/-- Storing a value loses nothing exactly when the value fits. -/
theorem wrap_eq_self_iff {w : ℕ} (hw : 0 < w) {x : ℤ} : wrap w x = x ↔ Fits w x := by
  constructor
  · intro h
    rw [← h]
    exact wrap_fits hw x
  · exact wrap_of_fits hw

/-- Two values are stored alike exactly when they differ by a multiple of `2 ^ w`. -/
theorem wrap_eq_wrap_iff {w : ℕ} {x y : ℤ} : wrap w x = wrap w y ↔ (2 : ℤ) ^ w ∣ x - y := by
  have hcast : ((2 ^ w : ℕ) : ℤ) = 2 ^ w := by push_cast; rfl
  unfold wrap
  rw [Int.bmod_eq_bmod_iff_bmod_sub_eq_zero, ← Int.dvd_iff_bmod_eq_zero, hcast]

theorem dvd_sub_wrap (w : ℕ) (x : ℤ) : (2 : ℤ) ^ w ∣ x - wrap w x :=
  wrap_eq_wrap_iff.mp (wrap_wrap w x).symm

/-! ### Wrapping commutes with ring operations -/

@[simp] theorem wrap_add_wrap_right (w : ℕ) (x y : ℤ) :
    wrap w (x + wrap w y) = wrap w (x + y) := by
  simp [wrap]

@[simp] theorem wrap_add_wrap_left (w : ℕ) (x y : ℤ) :
    wrap w (wrap w x + y) = wrap w (x + y) := by
  simp [wrap, Int.bmod_add_bmod]

@[simp] theorem wrap_mul_wrap_right (w : ℕ) (x y : ℤ) :
    wrap w (x * wrap w y) = wrap w (x * y) := by
  simp [wrap]

/-- A running sum that is wrapped after every addition holds the wrapped sum
of its terms. -/
theorem foldl_wrap_add {α : Type*} (w : ℕ) (f : α → ℤ) (l : List α) (y : ℤ) :
    l.foldl (fun y a => wrap w (y + f a)) (wrap w y) = wrap w (y + (l.map f).sum) := by
  induction l generalizing y with
  | nil => simp
  | cons a l ih =>
      simp only [List.foldl_cons, wrap_add_wrap_left]
      rw [ih, List.map_cons, List.sum_cons, add_assoc]

theorem foldl_wrap_add_zero {α : Type*} (w : ℕ) (f : α → ℤ) (l : List α) :
    l.foldl (fun y a => wrap w (y + f a)) 0 = wrap w (l.map f).sum := by
  have h := foldl_wrap_add w f l 0
  rwa [wrap_zero, zero_add] at h

/-! ### Narrowing through a right shift -/

/-- The low `v` bits of `x >> s` do not see a wrap of `x` at `v + s` bits or
above: a shifted accumulator may be narrowed as if it had never overflowed. -/
theorem wrap_shiftRight_wrap {v s w : ℕ} (h : v + s ≤ w) (x : ℤ) :
    wrap v (wrap w x >>> s) = wrap v (x >>> s) := by
  obtain ⟨k, hk⟩ := dvd_sub_wrap w x
  have hpow : (2 : ℤ) ^ w = 2 ^ s * (2 ^ v * 2 ^ (w - (v + s))) := by
    rw [← pow_add, ← pow_add]
    congr 1
    omega
  have hx : x = wrap w x + 2 ^ s * (2 ^ v * 2 ^ (w - (v + s)) * k) := by
    rw [hpow] at hk
    linear_combination hk
  have hs : (2 : ℤ) ^ s ≠ 0 := pow_ne_zero _ two_ne_zero
  have hshift : x >>> s = wrap w x >>> s + 2 ^ v * (2 ^ (w - (v + s)) * k) := by
    conv_lhs => rw [hx]
    rw [Int.shiftRight_eq_div_pow, Int.shiftRight_eq_div_pow]
    push_cast
    rw [Int.add_mul_ediv_left _ _ hs, mul_assoc]
  rw [wrap_eq_wrap_iff, hshift]
  exact ⟨-(2 ^ (w - (v + s)) * k), by ring⟩

/-! ### Rounding shifts -/

/-- Adding half a unit before a right shift rounds to the nearest integer,
halves upwards. -/
theorem add_half_shiftRight (s : ℕ) (x : ℤ) :
    (x + 2 ^ s) >>> (s + 1) = round ((x : ℚ) / 2 ^ (s + 1)) := by
  have hhalf : (x : ℚ) / 2 ^ (s + 1) + 1 / 2 = ((x + 2 ^ s : ℤ) : ℚ) / ((2 ^ (s + 1) : ℕ) : ℚ) := by
    push_cast
    rw [pow_succ]
    field_simp
  rw [round_eq, hhalf, Rat.floor_intCast_div_natCast, Int.shiftRight_eq_div_pow]

end TwosComplement
