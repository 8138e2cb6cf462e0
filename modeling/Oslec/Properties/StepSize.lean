import Oslec.Canceller.TopBit
import Oslec.Properties.LmsArithmetic

/-!
The size of one NLMS step. The adaption divides by the power of the filter
states with a bit scan, so its step size is only known within a factor of two;
the factor two below one half that is left over absorbs the rounding of every
tap increment, and the estimate never moves past the received sample.
-/

namespace Oslec

/-- The total power of a regressor. -/
def regressorPower (H : List ℤ) : ℤ := (H.map (· ^ 2)).sum

/-- The step size: what share of the error one adaption would take off without
rounding. -/
def stepSize (H : List ℤ) (shift : ℤ) : ℚ := regressorPower H * 2 ^ shift / 2 ^ 30

/-- The increment of a tap over the integers. -/
def tapIncrement (factor h : ℤ) : ℤ := (h * factor + 2 ^ 14) >>> (15 : ℕ)

/-- How far the rounded increments move the estimate of the regressor, in units
of `2 ^ -15`. -/
def estimateMove (factor : ℤ) (H : List ℤ) : ℤ :=
  (H.map fun h => h * tapIncrement factor h).sum

theorem exactIncrement_eq_tapIncrement (factor h : ℤ) :
    exactIncrement factor h = tapIncrement factor h := exactIncrement_eq factor h

/-! ### Rounding -/

/-- Rounding at most doubles a product, and keeps its sign. -/
theorem mul_tapIncrement_bounds (h factor : ℤ) :
    (0 ≤ factor → 0 ≤ h * tapIncrement factor h ∧
        2 ^ 15 * (h * tapIncrement factor h) ≤ 2 * h ^ 2 * factor) ∧
      (factor ≤ 0 → h * tapIncrement factor h ≤ 0 ∧
        2 * h ^ 2 * factor ≤ 2 ^ 15 * (h * tapIncrement factor h)) := by
  have hinc : tapIncrement factor h = (h * factor + 16384) / 32768 :=
    Int.shiftRight_eq_div_pow _ _
  have hup : 0 ≤ h * factor → 0 ≤ tapIncrement factor h ∧
      32768 * tapIncrement factor h ≤ 2 * (h * factor) := by omega
  have hdown : h * factor ≤ 0 → tapIncrement factor h ≤ 0 ∧
      2 * (h * factor) ≤ 32768 * tapIncrement factor h := by omega
  constructor
  · intro hf
    rcases le_total 0 h with hh | hh
    · obtain ⟨hlo, hhi⟩ := hup (mul_nonneg hh hf)
      exact ⟨mul_nonneg hh hlo, by nlinarith⟩
    · obtain ⟨hhi, hlo⟩ := hdown (mul_nonpos_of_nonpos_of_nonneg hh hf)
      exact ⟨mul_nonneg_of_nonpos_of_nonpos hh hhi, by nlinarith⟩
  · intro hf
    rcases le_total 0 h with hh | hh
    · obtain ⟨hhi, hlo⟩ := hdown (mul_nonpos_of_nonneg_of_nonpos hh hf)
      exact ⟨mul_nonpos_of_nonneg_of_nonpos hh hhi, by nlinarith⟩
    · obtain ⟨hlo, hhi⟩ := hup (mul_nonneg_of_nonpos_of_nonpos hh hf)
      exact ⟨mul_nonpos_of_nonpos_of_nonneg hh hlo, by nlinarith⟩

theorem estimateMove_of_nonneg {factor : ℤ} (hf : 0 ≤ factor) (H : List ℤ) :
    0 ≤ estimateMove factor H ∧
      2 ^ 15 * estimateMove factor H ≤ 2 * regressorPower H * factor := by
  induction H with
  | nil => simp [estimateMove, regressorPower]
  | cons h H ih =>
      obtain ⟨hlo, hhi⟩ := (mul_tapIncrement_bounds h factor).1 hf
      simp only [estimateMove, regressorPower, List.map_cons, List.sum_cons] at ih ⊢
      exact ⟨by linarith [ih.1], by linarith [ih.2]⟩

theorem estimateMove_of_nonpos {factor : ℤ} (hf : factor ≤ 0) (H : List ℤ) :
    estimateMove factor H ≤ 0 ∧
      2 * regressorPower H * factor ≤ 2 ^ 15 * estimateMove factor H := by
  induction H with
  | nil => simp [estimateMove, regressorPower]
  | cons h H ih =>
      obtain ⟨hhi, hlo⟩ := (mul_tapIncrement_bounds h factor).2 hf
      simp only [estimateMove, regressorPower, List.map_cons, List.sum_cons] at ih ⊢
      exact ⟨by linarith [ih.1], by linarith [ih.2]⟩

@[simp] theorem regressorPower_replicate (m : ℕ) (h : ℤ) :
    regressorPower (List.replicate m h) = m * h ^ 2 := by
  simp [regressorPower]

@[simp] theorem estimateMove_replicate (factor : ℤ) (m : ℕ) (h : ℤ) :
    estimateMove factor (List.replicate m h) = m * (h * tapIncrement factor h) := by
  simp [estimateMove]

theorem regressorPower_nonneg (H : List ℤ) : 0 ≤ regressorPower H :=
  List.sum_nonneg fun x hx => by
    obtain ⟨h, -, rfl⟩ := List.mem_map.mp hx
    exact sq_nonneg h

/-! ### The factor -/

/-- The factor is the scaled error, and no larger where the scaling floors. -/
theorem abs_exactFactor_le {e shift : ℤ} (h : 0 ≤ e ∨ 0 ≤ shift) :
    |(exactFactor e shift : ℚ)| ≤ |(e : ℚ)| * 2 ^ shift := by
  unfold exactFactor
  split
  case isTrue hpos =>
    have hcast : (2 : ℚ) ^ shift = 2 ^ shift.toNat := by
      rw [← zpow_natCast, Int.toNat_of_nonneg hpos.le]
    rw [hcast]
    push_cast
    rw [abs_mul, abs_of_pos (by positivity : (0 : ℚ) < 2 ^ shift.toNat)]
  case isFalse hneg =>
    have hnat : (2 : ℚ) ^ shift = 1 / 2 ^ (-shift).toNat := by
      have hshift : shift = -((-shift).toNat : ℤ) := by omega
      conv_lhs => rw [hshift]
      rw [zpow_neg, zpow_natCast, one_div]
    have hpow : (0 : ℤ) < 2 ^ (-shift).toNat := by positivity
    rcases h with he | hs
    · have hdiv : 0 ≤ e / 2 ^ (-shift).toNat := Int.ediv_nonneg he hpow.le
      have hmul : e / 2 ^ (-shift).toNat * 2 ^ (-shift).toNat ≤ e := Int.ediv_mul_le e hpow.ne'
      rw [abs_of_nonneg (by exact_mod_cast hdiv), abs_of_nonneg (by exact_mod_cast he), hnat,
        mul_one_div, le_div_iff₀ (by positivity)]
      exact_mod_cast hmul
    · -- only the shift zero is left, and it is no shift at all
      have hzero : shift = 0 := by omega
      subst hzero
      simp

/-- With a smaller shift the factor is smaller. -/
theorem exactFactor_mono {e : ℤ} (he : 0 ≤ e) {shift shift' : ℤ} (h : shift ≤ shift') :
    exactFactor e shift ≤ exactFactor e shift' := by
  unfold exactFactor
  split
  case isTrue hpos =>
    rw [if_pos (by omega)]
    exact mul_le_mul_of_nonneg_left (pow_le_pow_right₀ (by norm_num) (by omega)) he
  case isFalse hneg =>
    have hself : e / 2 ^ (-shift).toNat ≤ e := Int.ediv_le_self _ he
    split
    case isTrue hpos =>
      have hpow : (1 : ℤ) ≤ 2 ^ shift'.toNat := one_le_pow₀ (by norm_num)
      nlinarith
    case isFalse hneg' =>
      have hpow : (2 : ℤ) ^ (-shift').toNat ≤ 2 ^ (-shift).toNat :=
        pow_le_pow_right₀ (by norm_num) (by omega)
      have hpos : (0 : ℤ) < 2 ^ (-shift').toNat := by positivity
      have hmul := Int.ediv_mul_le e (hpos.trans_le hpow).ne'
      have hquot : 0 ≤ e / 2 ^ (-shift).toNat := Int.ediv_nonneg he (by positivity)
      exact (Int.le_ediv_iff_mul_le hpos).mpr (by nlinarith)

/-- A smaller factor moves the tap less. -/
theorem mul_tapIncrement_mono {factor factor' : ℤ} (h : factor ≤ factor') (x : ℤ) :
    x * tapIncrement factor x ≤ x * tapIncrement factor' x := by
  simp only [tapIncrement, Int.shiftRight_eq_div_pow]
  rcases le_total 0 x with hx | hx
  · refine mul_le_mul_of_nonneg_left (Int.ediv_le_ediv (by positivity) ?_) hx
    have := mul_le_mul_of_nonneg_left h hx
    omega
  · refine mul_le_mul_of_nonpos_left (Int.ediv_le_ediv (by positivity) ?_) hx
    have := mul_le_mul_of_nonpos_left h hx
    omega

/-! ### The step -/

/-- With the power rounded to a power of two, the step size is below one half
and, for a regressor of the estimated power, above one eighth. -/
theorem stepSize_bounds {c : EchoCanCore} (hpstates : 0 ≤ c.pstates)
    (hp : minTxPowerForAdaption + c.pstates < 2 ^ 31) {H : List ℤ}
    (hpower : (regressorPower H : ℚ) ≤
      2 ^ c.log2taps * (minTxPowerForAdaption + c.pstates : ℤ)) :
    0 ≤ stepSize H c.adaptShift ∧ stepSize H c.adaptShift < 1 / 2 ∧
      (2 ^ c.log2taps * (minTxPowerForAdaption + c.pstates : ℤ) / 2 ≤ (regressorPower H : ℚ) →
        1 / 8 ≤ stepSize H c.adaptShift) := by
  have hmin : minTxPowerForAdaption = 64 := rfl
  obtain ⟨t, htop, hlo, hhi⟩ := topBit_ofInt_bounds
    (by omega : 0 < minTxPowerForAdaption + c.pstates) hp
  have hshift : c.adaptShift = 28 - (t + c.log2taps) := by
    rw [EchoCanCore.adaptShift, i32_of_bounds (by omega) (by omega), htop]
    norm_num
  have hscale : (2 : ℚ) ^ c.log2taps * 2 ^ t * 2 ^ c.adaptShift = 2 ^ 28 := by
    rw [← zpow_natCast 2 t, ← zpow_add₀ (by norm_num), ← zpow_add₀ (by norm_num), hshift,
      ← zpow_natCast 2 28]
    congr 1
    push_cast
    ring
  have hpos : (0 : ℚ) < 2 ^ c.adaptShift := zpow_pos (by norm_num) _
  have htaps : (0 : ℚ) < 2 ^ c.log2taps := zpow_pos (by norm_num) _
  have hlo' : (2 : ℚ) ^ t ≤ (minTxPowerForAdaption + c.pstates : ℤ) := by exact_mod_cast hlo
  have hhi' : ((minTxPowerForAdaption + c.pstates : ℤ) : ℚ) < 2 * 2 ^ t := by
    rw [← pow_succ']
    exact_mod_cast hhi
  have hnonneg : (0 : ℚ) ≤ regressorPower H := by exact_mod_cast regressorPower_nonneg H
  refine ⟨?_, ?_, ?_⟩
  · exact div_nonneg (mul_nonneg hnonneg hpos.le) (by norm_num)
  · rw [stepSize, div_lt_iff₀ (by norm_num)]
    calc (regressorPower H : ℚ) * 2 ^ c.adaptShift
        ≤ 2 ^ c.log2taps * (minTxPowerForAdaption + c.pstates : ℤ) * 2 ^ c.adaptShift :=
          mul_le_mul_of_nonneg_right hpower hpos.le
      _ < 2 ^ c.log2taps * (2 * 2 ^ t) * 2 ^ c.adaptShift :=
          mul_lt_mul_of_pos_right (mul_lt_mul_of_pos_left hhi' htaps) hpos
      _ = 2 * (2 ^ c.log2taps * 2 ^ t * 2 ^ c.adaptShift) := by ring
      _ = 1 / 2 * 2 ^ 30 := by rw [hscale]; norm_num
  · intro hhalf
    rw [stepSize, le_div_iff₀ (by norm_num)]
    calc (1 / 8 : ℚ) * 2 ^ 30 = 2 ^ c.log2taps * 2 ^ t * 2 ^ c.adaptShift / 2 := by
          rw [hscale]; norm_num
      _ = 2 ^ c.log2taps * 2 ^ t / 2 * 2 ^ c.adaptShift := by ring
      _ ≤ 2 ^ c.log2taps * (minTxPowerForAdaption + c.pstates : ℤ) / 2 * 2 ^ c.adaptShift := by
          gcongr
      _ ≤ regressorPower H * 2 ^ c.adaptShift := mul_le_mul_of_nonneg_right hhalf hpos.le

/-- The move has the sign of the error, and is at most twice the unrounded one. -/
theorem estimateMove_exactFactor {e shift : ℤ} (h : 0 ≤ e ∨ 0 ≤ shift) (H : List ℤ) :
    (0 ≤ e → 0 ≤ estimateMove (exactFactor e shift) H) ∧
      (e ≤ 0 → estimateMove (exactFactor e shift) H ≤ 0) ∧
      |(estimateMove (exactFactor e shift) H : ℚ)| ≤ 2 * stepSize H shift * |(e : ℚ)| * 2 ^ 15 := by
  obtain ⟨hup, hdown⟩ := exactFactor_sign e shift
  have hmove : (2 : ℚ) ^ 15 * |(estimateMove (exactFactor e shift) H : ℚ)| ≤
      2 * regressorPower H * |(exactFactor e shift : ℚ)| := by
    rcases le_total 0 (exactFactor e shift) with hf | hf
    · obtain ⟨hlo, hhi⟩ := estimateMove_of_nonneg hf H
      rw [abs_of_nonneg (by exact_mod_cast hlo), abs_of_nonneg (by exact_mod_cast hf)]
      exact_mod_cast hhi
    · obtain ⟨hhi, hlo⟩ := estimateMove_of_nonpos hf H
      rw [abs_of_nonpos (by exact_mod_cast hhi), abs_of_nonpos (by exact_mod_cast hf), mul_neg,
        mul_neg, neg_le_neg_iff]
      exact_mod_cast hlo
  have hnonneg : (0 : ℚ) ≤ regressorPower H := by exact_mod_cast regressorPower_nonneg H
  refine ⟨fun he => (estimateMove_of_nonneg (hup he) H).1,
    fun he => (estimateMove_of_nonpos (hdown he) H).1, ?_⟩
  refine le_of_mul_le_mul_left ?_ (by norm_num : (0 : ℚ) < 2 ^ 15)
  calc (2 : ℚ) ^ 15 * |(estimateMove (exactFactor e shift) H : ℚ)|
      ≤ 2 * regressorPower H * |(exactFactor e shift : ℚ)| := hmove
    _ ≤ 2 * regressorPower H * (|(e : ℚ)| * 2 ^ shift) :=
        mul_le_mul_of_nonneg_left (abs_exactFactor_le h) (by positivity)
    _ = 2 ^ 15 * (2 * stepSize H shift * |(e : ℚ)| * 2 ^ 15) := by
        rw [stepSize]
        ring

theorem abs_estimateMove_lt {e shift : ℤ} (h : 0 ≤ e ∨ 0 ≤ shift) {H : List ℤ}
    (hhalf : stepSize H shift < 1 / 2) (hne : e ≠ 0) :
    |estimateMove (exactFactor e shift) H| < |e| * 2 ^ 15 := by
  have hpos : (0 : ℚ) < |(e : ℚ)| := abs_pos.mpr (by exact_mod_cast hne)
  have hlt : |(estimateMove (exactFactor e shift) H : ℚ)| < |(e : ℚ)| * 2 ^ 15 := by
    refine (estimateMove_exactFactor h H).2.2.trans_lt ?_
    have hgain : 2 * stepSize H shift < 1 := by linarith
    nlinarith
  exact_mod_cast hlt

/-- One adaption moves the estimate towards the received sample and never past it. -/
theorem nlms_never_overshoots (c : EchoCanCore) (hpstates : 0 ≤ c.pstates)
    (hp : minTxPowerForAdaption + c.pstates < 2 ^ 31) (H : List ℤ)
    (hpower : (regressorPower H : ℚ) ≤
      2 ^ c.log2taps * (minTxPowerForAdaption + c.pstates : ℤ)) :
    0 ≤ stepSize H c.adaptShift ∧ stepSize H c.adaptShift < 1 / 2 ∧
      (2 ^ c.log2taps * (minTxPowerForAdaption + c.pstates : ℤ) / 2 ≤ (regressorPower H : ℚ) →
        1 / 8 ≤ stepSize H c.adaptShift) ∧
      ∀ e : ℤ, 0 ≤ e ∨ 0 ≤ c.adaptShift →
        (0 ≤ e → 0 ≤ estimateMove (exactFactor e c.adaptShift) H) ∧
          (e ≤ 0 → estimateMove (exactFactor e c.adaptShift) H ≤ 0) ∧
          |(estimateMove (exactFactor e c.adaptShift) H : ℚ)| ≤
            2 * stepSize H c.adaptShift * |(e : ℚ)| * 2 ^ 15 ∧
          (e ≠ 0 → |estimateMove (exactFactor e c.adaptShift) H| < |e| * 2 ^ 15) := by
  obtain ⟨hnonneg, hhalf, heighth⟩ := stepSize_bounds hpstates hp hpower
  refine ⟨hnonneg, hhalf, heighth, ?_⟩
  intro e he
  obtain ⟨hup, hdown, hle⟩ := estimateMove_exactFactor he H
  exact ⟨hup, hdown, hle, abs_estimateMove_lt he hhalf⟩

theorem nlms_never_overshoots_two_taps :
    |estimateMove (exactFactor 1000 (echoCanCreate 2 0#32).adaptShift) [8, -8]| <
      1000 * 2 ^ 15 := by
  have h := nlms_never_overshoots (echoCanCreate 2 0#32).toEchoCanCore (by decide) (by decide)
    [8, -8] (by
      have htaps : (echoCanCreate 2 0#32).log2taps = 1 := by decide
      rw [htaps]
      norm_num [regressorPower, minTxPowerForAdaption, echoCanCreate, EchoCanCore.create])
  exact (h.2.2.2 1000 (Or.inl (by norm_num))).2.2.2 (by norm_num)

end Oslec
