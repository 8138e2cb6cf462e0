import Mathlib.Data.List.Forall2
import Mathlib.Tactic.Linarith
import Mathlib.Tactic.Positivity
import Mathlib.Tactic.Ring

/-!
Averages that leak. An accumulator takes in every input and gives back its own
rounded `2 ^ k`-th part, so that the part follows the inputs. The feedback uses
the rounded part, and yet the step is monotone in the accumulator: the bounds
of a run come from comparing it with a run at a fixed point.
-/

namespace LeakyAverage

/-- The `2 ^ k`-th part of the accumulator, rounded to the nearest integer,
halves upwards. -/
def part (k : ℕ) (acc : ℤ) : ℤ := (acc + 2 ^ (k - 1)) / 2 ^ k

def step (k : ℕ) (acc a : ℤ) : ℤ := acc + (a - part k acc)

/-- The accumulator after its inputs, the last one at the head of the list. -/
def run (k : ℕ) : List ℤ → ℤ
  | [] => 0
  | a :: older => step k (run k older) a

variable {k : ℕ}

theorem part_mono {acc acc' : ℤ} (h : acc ≤ acc') : part k acc ≤ part k acc' :=
  Int.ediv_le_ediv (by positivity) (by omega)

theorem part_add_mul (acc m : ℤ) : part k (acc + 2 ^ k * m) = part k acc + m := by
  have hpow : (2 : ℤ) ^ k ≠ 0 := by positivity
  rw [part, add_right_comm, Int.add_mul_ediv_left _ _ hpow]
  rfl

/-- The feedback never overtakes what the accumulator has taken in. -/
theorem step_mono {acc acc' a a' : ℤ} (hacc : acc ≤ acc') (ha : a ≤ a') :
    step k acc a ≤ step k acc' a' := by
  have hpow : (1 : ℤ) ≤ 2 ^ k := one_le_pow₀ (by norm_num)
  have hpart : part k acc' ≤ part k acc + (acc' - acc) := by
    rw [← part_add_mul]
    exact part_mono (by nlinarith)
  simp only [step]
  omega

theorem run_mono {as bs : List ℤ} (h : List.Forall₂ (· ≤ ·) as bs) : run k as ≤ run k bs := by
  induction h with
  | nil => exact le_refl 0
  | cons hab _ ih => exact step_mono ih hab

section

variable (hk : 1 ≤ k)

include hk

theorem two_pow_eq : (2 : ℤ) ^ k = 2 * 2 ^ (k - 1) := by
  rw [← pow_succ', Nat.sub_add_cancel hk]

theorem part_eq_iff (acc a : ℤ) :
    part k acc = a ↔ -2 ^ (k - 1) ≤ acc - 2 ^ k * a ∧ acc - 2 ^ k * a < 2 ^ (k - 1) := by
  have hpow : (0 : ℤ) < 2 ^ k := by positivity
  have htwo := two_pow_eq hk
  rw [part, Int.ediv_eq_iff_of_pos hpow]
  constructor
  · rintro ⟨hlo, hhi⟩
    constructor <;> nlinarith
  · rintro ⟨hlo, hhi⟩
    constructor <;> nlinarith

theorem part_zero : part k 0 = 0 := by
  have hpos : (0 : ℤ) < 2 ^ (k - 1) := by positivity
  refine (part_eq_iff hk 0 0).mpr ⟨?_, ?_⟩ <;> omega

/-- The greatest accumulator whose part is `m` is a fixed point of the input `m`. -/
theorem step_top (m : ℤ) :
    step k (2 ^ k * m + (2 ^ (k - 1) - 1)) m = 2 ^ k * m + (2 ^ (k - 1) - 1) := by
  have hpos : (0 : ℤ) < 2 ^ (k - 1) := by positivity
  have hpart : part k (2 ^ k * m + (2 ^ (k - 1) - 1)) = m :=
    (part_eq_iff hk _ _).mpr ⟨by linarith, by linarith⟩
  rw [step, hpart]
  ring

theorem step_nonneg {acc a : ℤ} (hacc : 0 ≤ acc) (ha : 0 ≤ a) : 0 ≤ step k acc a := by
  have hstep : step k 0 0 = 0 := by
    rw [step, part_zero hk]
    rfl
  rw [← hstep]
  exact step_mono hacc ha

theorem step_le {acc a m : ℤ} (hacc : acc ≤ 2 ^ k * m + (2 ^ (k - 1) - 1)) (ha : a ≤ m) :
    step k acc a ≤ 2 ^ k * m + (2 ^ (k - 1) - 1) := by
  calc step k acc a ≤ step k (2 ^ k * m + (2 ^ (k - 1) - 1)) m := step_mono hacc ha
    _ = 2 ^ k * m + (2 ^ (k - 1) - 1) := step_top hk m

theorem run_nonneg {as : List ℤ} (h : ∀ a ∈ as, 0 ≤ a) : 0 ≤ run k as := by
  induction as with
  | nil => exact le_refl 0
  | cons a as ih =>
      exact step_nonneg hk (ih fun b hb => h b (List.mem_cons_of_mem a hb)) (h a List.mem_cons_self)

theorem run_le {as : List ℤ} {m : ℤ} (hm : 0 ≤ m) (h : ∀ a ∈ as, a ≤ m) :
    run k as ≤ 2 ^ k * m + (2 ^ (k - 1) - 1) := by
  induction as with
  | nil =>
      have hpos : (0 : ℤ) < 2 ^ (k - 1) := by positivity
      have hmul : 0 ≤ 2 ^ k * m := mul_nonneg (by positivity) hm
      change (0 : ℤ) ≤ _
      omega
  | cons a as ih =>
      exact step_le hk (ih fun b hb => h b (List.mem_cons_of_mem a hb)) (h a List.mem_cons_self)

theorem part_nonneg {acc : ℤ} (h : 0 ≤ acc) : 0 ≤ part k acc := by
  rw [← part_zero hk]
  exact part_mono h

theorem part_le {acc m : ℤ} (h : acc ≤ 2 ^ k * m + (2 ^ (k - 1) - 1)) : part k acc ≤ m := by
  have hpart : part k (2 ^ k * m + (2 ^ (k - 1) - 1)) = m := by
    have hpos : (0 : ℤ) < 2 ^ (k - 1) := by positivity
    exact (part_eq_iff hk _ _).mpr ⟨by linarith, by linarith⟩
  exact (part_mono h).trans_eq hpart

/-! ### Equal inputs -/

/-- The distance to the upper end of the accumulators that read `a` shrinks by
a `2 ^ k`-th part. -/
theorem step_sub_top_le (acc a : ℤ) :
    2 ^ k * (step k acc a - 2 ^ k * a - (2 ^ (k - 1) - 1)) ≤
      (2 ^ k - 1) * (acc - 2 ^ k * a - (2 ^ (k - 1) - 1)) := by
  have hpow : (0 : ℤ) < 2 ^ k := by positivity
  have hpart := Int.lt_mul_ediv_self_add (x := acc + 2 ^ (k - 1)) hpow
  have htwo := two_pow_eq hk
  simp only [step, part]
  nlinarith

omit hk in
/-- So does the distance to their lower end. -/
theorem le_step_add_bottom (acc a : ℤ) :
    (2 ^ k - 1) * (acc - 2 ^ k * a + 2 ^ (k - 1)) ≤
      2 ^ k * (step k acc a - 2 ^ k * a + 2 ^ (k - 1)) := by
  have hpow : (0 : ℤ) < 2 ^ k := by positivity
  have hpart := Int.mul_ediv_self_le (x := acc + 2 ^ (k - 1)) hpow.ne'
  simp only [step, part]
  nlinarith

theorem run_replicate_sub_top_le (n : ℕ) (a : ℤ) (as : List ℤ) :
    (2 ^ k) ^ n * (run k (List.replicate n a ++ as) - 2 ^ k * a - (2 ^ (k - 1) - 1)) ≤
      (2 ^ k - 1) ^ n * (run k as - 2 ^ k * a - (2 ^ (k - 1) - 1)) := by
  have hpow : (1 : ℤ) ≤ 2 ^ k := one_le_pow₀ (by norm_num)
  induction n with
  | zero => simp
  | succ n ih =>
      have hstep := step_sub_top_le hk (run k (List.replicate n a ++ as)) a
      calc (2 ^ k) ^ (n + 1) *
            (run k (List.replicate (n + 1) a ++ as) - 2 ^ k * a - (2 ^ (k - 1) - 1))
          = (2 ^ k) ^ n * (2 ^ k * (step k (run k (List.replicate n a ++ as)) a - 2 ^ k * a -
              (2 ^ (k - 1) - 1))) := by rw [List.replicate_succ, List.cons_append, run]; ring
        _ ≤ (2 ^ k) ^ n * ((2 ^ k - 1) * (run k (List.replicate n a ++ as) - 2 ^ k * a -
              (2 ^ (k - 1) - 1))) := mul_le_mul_of_nonneg_left hstep (by positivity)
        _ = (2 ^ k - 1) * ((2 ^ k) ^ n * (run k (List.replicate n a ++ as) - 2 ^ k * a -
              (2 ^ (k - 1) - 1))) := by ring
        _ ≤ (2 ^ k - 1) * ((2 ^ k - 1) ^ n * (run k as - 2 ^ k * a - (2 ^ (k - 1) - 1))) :=
          mul_le_mul_of_nonneg_left ih (by omega)
        _ = (2 ^ k - 1) ^ (n + 1) * (run k as - 2 ^ k * a - (2 ^ (k - 1) - 1)) := by ring

omit hk in
theorem le_run_replicate_add_bottom (n : ℕ) (a : ℤ) (as : List ℤ) :
    (2 ^ k - 1) ^ n * (run k as - 2 ^ k * a + 2 ^ (k - 1)) ≤
      (2 ^ k) ^ n * (run k (List.replicate n a ++ as) - 2 ^ k * a + 2 ^ (k - 1)) := by
  have hpow : (1 : ℤ) ≤ 2 ^ k := one_le_pow₀ (by norm_num)
  induction n with
  | zero => simp
  | succ n ih =>
      have hstep := le_step_add_bottom (k := k) (run k (List.replicate n a ++ as)) a
      calc (2 ^ k - 1) ^ (n + 1) * (run k as - 2 ^ k * a + 2 ^ (k - 1))
          = (2 ^ k - 1) * ((2 ^ k - 1) ^ n * (run k as - 2 ^ k * a + 2 ^ (k - 1))) := by ring
        _ ≤ (2 ^ k - 1) * ((2 ^ k) ^ n *
              (run k (List.replicate n a ++ as) - 2 ^ k * a + 2 ^ (k - 1))) :=
          mul_le_mul_of_nonneg_left ih (by omega)
        _ = (2 ^ k) ^ n * ((2 ^ k - 1) *
              (run k (List.replicate n a ++ as) - 2 ^ k * a + 2 ^ (k - 1))) := by ring
        _ ≤ (2 ^ k) ^ n * (2 ^ k * (step k (run k (List.replicate n a ++ as)) a - 2 ^ k * a +
              2 ^ (k - 1))) := mul_le_mul_of_nonneg_left hstep (by positivity)
        _ = (2 ^ k) ^ (n + 1) *
              (run k (List.replicate (n + 1) a ++ as) - 2 ^ k * a + 2 ^ (k - 1)) := by
          rw [List.replicate_succ, List.cons_append, run]; ring

omit hk in
/-- Once less than one unit of a distance is left, no more is ever left. -/
theorem rest_lt_of_base {p q : ℤ} (hp : 0 < p) (hpq : p ≤ q) {m n : ℕ} (hn : m ≤ n) {x y : ℤ}
    (hx : x ≤ y) (hbase : p ^ m * y < q ^ m) : p ^ n * x < q ^ n := by
  obtain ⟨r, rfl⟩ := Nat.exists_eq_add_of_le hn
  have hpow : p ^ r ≤ q ^ r := pow_le_pow_left₀ hp.le hpq r
  have hpos : 0 < p ^ r := by positivity
  have hq : 0 < q := hp.trans_le hpq
  calc p ^ (m + r) * x ≤ p ^ (m + r) * y := mul_le_mul_of_nonneg_left hx (by positivity)
    _ = p ^ r * (p ^ m * y) := by rw [pow_add, mul_comm (p ^ m), mul_assoc]
    _ < p ^ r * q ^ m := mul_lt_mul_of_pos_left hbase hpos
    _ ≤ q ^ r * q ^ m := mul_le_mul_of_nonneg_right hpow (by positivity)
    _ = q ^ (m + r) := by rw [mul_comm, ← pow_add]

/-- The part reads `a` once the inputs have been `a` for so long that less than
one unit of the initial distance is left. -/
theorem part_run_replicate {n : ℕ} {a : ℤ} {as : List ℤ}
    (hup : (2 ^ k - 1) ^ n * (run k as - 2 ^ k * a - (2 ^ (k - 1) - 1)) < (2 ^ k) ^ n)
    (hdown : -(2 ^ k) ^ n < (2 ^ k - 1) ^ n * (run k as - 2 ^ k * a + 2 ^ (k - 1))) :
    part k (run k (List.replicate n a ++ as)) = a := by
  have hpow : (0 : ℤ) < (2 ^ k) ^ n := by positivity
  have htop := (run_replicate_sub_top_le hk n a as).trans_lt hup
  have hbottom := hdown.trans_le (le_run_replicate_add_bottom n a as)
  have htop' : run k (List.replicate n a ++ as) - 2 ^ k * a - (2 ^ (k - 1) - 1) < 1 := by
    nlinarith
  have hbottom' : -1 < run k (List.replicate n a ++ as) - 2 ^ k * a + 2 ^ (k - 1) := by
    nlinarith
  exact (part_eq_iff hk _ _).mpr ⟨by omega, by omega⟩

end

end LeakyAverage
