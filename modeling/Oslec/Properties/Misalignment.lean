import Oslec.Library.Nlms
import Oslec.Properties.EstimateRange
import Oslec.Properties.PowerEstimate
import Oslec.Properties.StepSize

/-!
How far the taps can get from the echo path that they model. The step size is
below one half, so an adaption on a pure echo takes the taps nearer to the path
wherever the error is two or more; an error of one may be all rounding, and the
step then adds no more than the root of half its size. The rounding of the taps
adds half a unit in each. A negative error that is shifted to the right is
rounded away from zero before that, which adds another half.
-/

namespace Oslec

open TwosComplement Nlms

/-- What an adaption on the echo of the path `h` alone meets: no value wraps,
and the power estimate covers the register. -/
structure EchoOnly (len : ℕ) (h H : List ℤ) (ec : EchoCan) (tx rx : Int16) : Prop where
  echo : ec.rxIn rx = dot len h H >>> (15 : ℕ)
  estimate : EstimateExact len ec.firTaps16Bg H (ec.echoBg tx)
  taps : LmsExact len H ec tx rx
  power : (blockPower len H : ℚ) ≤
    2 ^ ec.log2taps * (minTxPowerForAdaption + ec.pstatesNext tx : ℤ)
  powerFits : minTxPowerForAdaption + ec.pstatesNext tx < 2 ^ 31

/-- The distance of a tap array from the path `h`. -/
noncomputable def misalignment (len : ℕ) (h firTaps : List ℤ) : ℝ :=
  ‖ofList len h - ofList len firTaps‖

/-- What an unrounded step may add to the misalignment: only an error of one
can be less than the register sees of it. -/
noncomputable def stepSlack (e shift : ℤ) : ℝ := if |e| = 1 then √(2 ^ shift / 2) else 0

/-- What the rounding may add in each tap. -/
noncomputable def tapRounding (e shift : ℤ) : ℝ := if 0 ≤ e ∨ 0 ≤ shift then 1 / 2 else 1

/-- What an update may add to the misalignment. -/
noncomputable def adaptionDrift (len : ℕ) (ec : EchoCan) (tx rx : Int16) : ℝ :=
  if ec.nonupdateDwell = 0 ∧ ec.errorBg tx rx ≠ 0 then
    stepSlack (ec.errorBg tx rx) (ec.shiftNext tx) +
      √len * tapRounding (ec.errorBg tx rx) (ec.shiftNext tx)
  else 0

/-! ### One adaption -/

theorem stepSlack_nonneg (e shift : ℤ) : 0 ≤ stepSlack e shift := by
  rw [stepSlack]
  split
  · exact Real.sqrt_nonneg _
  · exact le_refl 0

theorem stepSlack_sq (e shift : ℤ) :
    stepSlack e shift ^ 2 = if |e| = 1 then 2 ^ shift / 2 else 0 := by
  rw [stepSlack]
  split
  · exact Real.sq_sqrt (by positivity)
  · exact zero_pow two_ne_zero

theorem tapRounding_nonneg (e shift : ℤ) : 0 ≤ tapRounding e shift := by
  rw [tapRounding]
  split <;> norm_num

theorem adaptionDrift_nonneg (len : ℕ) (ec : EchoCan) (tx rx : Int16) :
    0 ≤ adaptionDrift len ec tx rx := by
  rw [adaptionDrift]
  split
  · exact add_nonneg (stepSlack_nonneg _ _)
      (mul_nonneg (Real.sqrt_nonneg _) (tapRounding_nonneg _ _))
  · exact le_refl 0

theorem dot_eq_inner (len : ℕ) (firTaps H : List ℤ) :
    inner ℝ (ofList len firTaps) (ofList len H) = (dot len firTaps H : ℝ) :=
  inner_ofList firTaps H

theorem blockPower_eq_norm (len : ℕ) (H : List ℤ) :
    ‖ofList len H‖ ^ 2 = (blockPower len H : ℝ) :=
  norm_ofList_sq H

/-- The first `n` entries of a register have its block power. -/
theorem regressorPower_range (n : ℕ) (H : List ℤ) :
    regressorPower ((List.range n).map fun i => H.getD i 0) = blockPower n H := by
  rw [regressorPower, List.map_map]
  rfl

theorem EchoCan.pstatesNext_nonneg (ec : EchoCan) (tx : Int16) : 0 ≤ ec.pstatesNext tx := by
  simp only [EchoCan.pstatesNext, EchoCanCore.averagePower]
  split <;> omega

/-- With the power covered, the step of size one is below one half. -/
theorem EchoOnly.power_lt {len : ℕ} {h H : List ℤ} {ec : EchoCan} {tx rx : Int16}
    (hecho : EchoOnly len h H ec tx rx) :
    (blockPower len H : ℝ) * 2 ^ ec.shiftNext tx ≤ 2 ^ 29 := by
  have hpower := hecho.power
  rw [← regressorPower_range] at hpower
  have hhalf := (stepSize_bounds (c := { ec.toEchoCanCore with pstates := ec.pstatesNext tx })
    (ec.pstatesNext_nonneg tx) hecho.powerFits hpower).2.1
  rw [stepSize, regressorPower_range, div_lt_iff₀ (by norm_num)] at hhalf
  have hcast : (((blockPower len H : ℚ) * 2 ^ ec.shiftNext tx : ℚ) : ℝ) ≤ (2 ^ 29 : ℚ) := by
    refine Rat.cast_le.mpr (hhalf.le.trans ?_)
    norm_num
  push_cast at hcast
  exact hcast

/-- A step along a positive error: what the register sees of the misalignment
is more than the error less one. -/
theorem neg_slack_le_gain {E : Type*} [NormedAddCommGroup E] [InnerProductSpace ℝ E] {v x : E}
    {c : ℝ} {e shift : ℤ} (he : 1 ≤ e) (hc : 0 ≤ c) (hle : 2 ^ 15 * c ≤ e * 2 ^ shift)
    (hpower : ‖x‖ ^ 2 * 2 ^ shift ≤ 2 ^ 29) (hinner : (e - 1) * 2 ^ 15 ≤ inner ℝ v x) :
    -(if e = 1 then 2 ^ shift / 2 else 0) ≤ gain v x c := by
  have he' : (1 : ℝ) ≤ e := by exact_mod_cast he
  have hstep : c * ‖x‖ ^ 2 ≤ e * 2 ^ 14 := by
    have hmul := mul_le_mul_of_nonneg_right hle (sq_nonneg ‖x‖)
    have hmul' := mul_le_mul_of_nonneg_left hpower (by linarith : (0 : ℝ) ≤ e)
    nlinarith
  split
  case isTrue h1 =>
    subst h1
    have hgain := neg_mul_le_gain (m := 2 ^ 14) hc (v := v) (x := x) (by
      push_cast at hstep hinner
      linarith)
    refine le_trans ?_ hgain
    push_cast at hle
    linarith
  case isFalse h1 =>
    have h2 : (2 : ℝ) ≤ e := by exact_mod_cast (by omega : (2 : ℤ) ≤ e)
    have hgain := neg_mul_le_gain (m := 0) hc (v := v) (x := x) (by linarith)
    rwa [mul_zero] at hgain

/-- The difference of two sums shifted down is off by less than one unit. -/
theorem sub_shiftRight_bounds (a b : ℤ) :
    (a >>> (15 : ℕ) - b >>> (15 : ℕ) - 1) * 2 ^ 15 ≤ a - b ∧
      a - b ≤ (a >>> (15 : ℕ) - b >>> (15 : ℕ) + 1) * 2 ^ 15 := by
  rw [Int.shiftRight_eq_div_pow, Int.shiftRight_eq_div_pow]
  norm_num
  omega

theorem exactIncrement_sub_bounds (factor x : ℤ) :
    |(exactIncrement factor x : ℝ) - (factor : ℝ) / 2 ^ 15 * x| ≤ 1 / 2 := by
  have hround := abs_sub_round ((x * factor : ℚ) / 2 ^ 15)
  rw [abs_sub_comm] at hround
  have hcast : (((|(exactIncrement factor x : ℚ) - x * factor / 2 ^ 15| : ℚ)) : ℝ) ≤
      ((1 / 2 : ℚ) : ℝ) := Rat.cast_le.mpr hround
  push_cast at hcast
  have heq : (factor : ℝ) / 2 ^ 15 * x = x * factor / 2 ^ 15 := by ring
  rw [heq]
  exact hcast

/-- The step that the factor stands for. Only a negative error shifted to the
right leaves a factor greater than the scaled error. -/
noncomputable def stepFactor (e shift : ℤ) : ℝ :=
  if 0 ≤ e ∨ 0 ≤ shift then exactFactor e shift else e * 2 ^ shift

theorem abs_stepFactor_le (e shift : ℤ) : |stepFactor e shift| ≤ |(e : ℝ)| * 2 ^ shift := by
  rw [stepFactor]
  split
  case isTrue h =>
    have hcast : ((|(exactFactor e shift : ℚ)| : ℚ) : ℝ) ≤ ((|(e : ℚ)| * 2 ^ shift : ℚ) : ℝ) :=
      Rat.cast_le.mpr (abs_exactFactor_le h)
    push_cast at hcast
    exact hcast
  case isFalse h => rw [abs_mul, abs_of_pos (zpow_pos (by norm_num : (0 : ℝ) < 2) shift)]

theorem stepFactor_nonneg {e : ℤ} (shift : ℤ) (he : 0 ≤ e) : 0 ≤ stepFactor e shift := by
  rw [stepFactor, if_pos (Or.inl he)]
  exact_mod_cast (exactFactor_sign e shift).1 he

theorem stepFactor_nonpos {e : ℤ} (shift : ℤ) (he : e ≤ 0) : stepFactor e shift ≤ 0 := by
  have he' : (e : ℝ) ≤ 0 := by exact_mod_cast he
  rw [stepFactor]
  split
  · exact_mod_cast (exactFactor_sign e shift).2 he
  · exact mul_nonpos_of_nonpos_of_nonneg he' (by positivity)

/-- Rounding a factor down takes less than one off it. -/
theorem abs_exactFactor_sub_le (e : ℤ) {shift : ℤ} (hshift : shift < 0) :
    |(exactFactor e shift : ℝ) - e * 2 ^ shift| ≤ 1 := by
  have hpow : (0 : ℝ) < 2 ^ (-shift).toNat := by positivity
  have hscale : (2 : ℝ) ^ shift = (2 ^ (-shift).toNat)⁻¹ := by
    rw [← zpow_natCast, Int.toNat_of_nonneg (by omega), zpow_neg, inv_inv]
  have hle := Int.ediv_mul_le e (by positivity : (2 : ℤ) ^ (-shift).toNat ≠ 0)
  have hlt := Int.lt_ediv_add_one_mul_self e (by positivity : (0 : ℤ) < 2 ^ (-shift).toNat)
  rw [exactFactor, if_neg (by omega), hscale, ← div_eq_mul_inv, abs_sub_le_iff]
  generalize e / 2 ^ (-shift).toNat = q at *
  constructor
  · rw [sub_le_iff_le_add, ← sub_le_iff_le_add', le_div_iff₀ hpow]
    have hq : ((q * 2 ^ (-shift).toNat : ℤ) : ℝ) ≤ e := by exact_mod_cast hle
    push_cast at hq
    linarith
  · rw [sub_le_iff_le_add, div_le_iff₀ hpow, add_comm]
    exact_mod_cast hlt.le

/-- The increment of a tap is its share of the step, rounded. -/
theorem exactIncrement_sub_step (e shift : ℤ) {x : ℤ} (hx : |x| ≤ 2 ^ 14) :
    |(exactIncrement (exactFactor e shift) x : ℝ) - stepFactor e shift / 2 ^ 15 * x| ≤
      tapRounding e shift := by
  have hround := exactIncrement_sub_bounds (exactFactor e shift) x
  rw [tapRounding, stepFactor]
  split
  case isTrue h => exact hround
  case isFalse h =>
    have hfloor := abs_exactFactor_sub_le e (by omega : shift < 0)
    have hx' : |(x : ℝ)| ≤ 2 ^ 14 := by exact_mod_cast hx
    have hshare : |((exactFactor e shift : ℝ) - e * 2 ^ shift) * x| ≤ 1 * 2 ^ 14 := by
      rw [abs_mul]
      exact mul_le_mul hfloor hx' (abs_nonneg _) zero_le_one
    have hsum := abs_add_le
      ((exactIncrement (exactFactor e shift) x : ℝ) - (exactFactor e shift : ℝ) / 2 ^ 15 * x)
      (((exactFactor e shift : ℝ) - e * 2 ^ shift) * x / 2 ^ 15)
    rw [abs_div, abs_of_pos (by norm_num : (0 : ℝ) < 2 ^ 15)] at hsum
    calc |(exactIncrement (exactFactor e shift) x : ℝ) - e * 2 ^ shift / 2 ^ 15 * x|
        = |((exactIncrement (exactFactor e shift) x : ℝ) -
              (exactFactor e shift : ℝ) / 2 ^ 15 * x) +
            ((exactFactor e shift : ℝ) - e * 2 ^ shift) * x / 2 ^ 15| := by
          congr 1
          ring
      _ ≤ 1 / 2 + 1 * 2 ^ 14 / 2 ^ 15 := by
          refine hsum.trans (add_le_add hround ?_)
          gcongr
      _ = 1 := by norm_num

/-- What the register sees of the misalignment, against the error. -/
theorem EchoOnly.inner_bounds {len : ℕ} {h H : List ℤ} {ec : EchoCan} {tx rx : Int16}
    (hecho : EchoOnly len h H ec tx rx) :
    (ec.errorBg tx rx - 1) * 2 ^ 15 ≤
        inner ℝ (ofList len h - ofList len ec.firTaps16Bg) (ofList len H) ∧
      inner ℝ (ofList len h - ofList len ec.firTaps16Bg) (ofList len H) ≤
        ((ec.errorBg tx rx + 1) * 2 ^ 15 : ℝ) := by
  obtain ⟨hlo, hhi⟩ := sub_shiftRight_bounds (dot len h H) (dot len ec.firTaps16Bg H)
  rw [← hecho.echo, ← hecho.estimate.echo] at hlo hhi
  rw [inner_sub_left, dot_eq_inner, dot_eq_inner]
  constructor
  · exact_mod_cast hlo
  · exact_mod_cast hhi

/-- The unrounded step misses no more than half its size, and only where the
error is one. -/
theorem EchoOnly.neg_slack_le_gain {len : ℕ} {h H : List ℤ} {ec : EchoCan} {tx rx : Int16}
    (hecho : EchoOnly len h H ec tx rx) (hne : ec.errorBg tx rx ≠ 0) :
    -(if |ec.errorBg tx rx| = 1 then 2 ^ ec.shiftNext tx / 2 else 0) ≤
      gain (ofList len h - ofList len ec.firTaps16Bg) (ofList len H)
        (stepFactor (ec.errorBg tx rx) (ec.shiftNext tx) / 2 ^ 15) := by
  obtain ⟨hlo, hhi⟩ := hecho.inner_bounds
  have hpower := hecho.power_lt
  rw [← blockPower_eq_norm] at hpower
  have hfactor := abs_stepFactor_le (ec.errorBg tx rx) (ec.shiftNext tx)
  have hup := stepFactor_nonneg (e := ec.errorBg tx rx) (ec.shiftNext tx)
  have hdown := stepFactor_nonpos (e := ec.errorBg tx rx) (ec.shiftNext tx)
  generalize ec.errorBg tx rx = e at *
  generalize stepFactor e (ec.shiftNext tx) = f at *
  rcases lt_or_gt_of_ne hne with hneg | hpos
  · -- the mirrored step
    have hf : f ≤ 0 := hdown hneg.le
    have he : (e : ℝ) < 0 := by exact_mod_cast hneg
    rw [abs_of_neg he, abs_of_nonpos hf] at hfactor
    have hinner : ((-e : ℤ) - 1) * 2 ^ 15 ≤
        inner ℝ (-(ofList len h - ofList len ec.firTaps16Bg)) (ofList len H) := by
      rw [inner_neg_left]
      push_cast
      linarith
    have hgain := Oslec.neg_slack_le_gain (e := -e) (c := -(f / 2 ^ 15)) (by omega)
      (by linarith) (by push_cast; linarith) hpower hinner
    rw [gain_neg] at hgain
    rwa [abs_of_neg hneg]
  · have hf : 0 ≤ f := hup hpos.le
    have he : (0 : ℝ) < e := by exact_mod_cast hpos
    rw [abs_of_pos he, abs_of_nonneg hf] at hfactor
    rw [abs_of_pos hpos]
    exact Oslec.neg_slack_le_gain (by omega) (by positivity) (by linarith) hpower hlo

/-- The adaption is the unrounded step up to the rounding of each tap. -/
theorem EchoOnly.exists_rounding {len : ℕ} {h H : List ℤ} {ec : EchoCan} {tx rx : Int16}
    (hecho : EchoOnly len h H ec tx rx) (hH : ∀ i, |H.getD i 0| ≤ 2 ^ 14) :
    ∃ r : EuclideanSpace ℝ (Fin len),
      ‖r‖ ≤ √len * tapRounding (ec.errorBg tx rx) (ec.shiftNext tx) ∧
      ofList len h - ofList len (echoCanUpdate ec tx rx).1.firTaps16Bg =
        ofList len h - ofList len ec.firTaps16Bg -
          (stepFactor (ec.errorBg tx rx) (ec.shiftNext tx) / 2 ^ 15) • ofList len H - r := by
  refine ⟨_, ?_, (sub_sub_self _ _).symm⟩
  apply norm_le_of_abs_le (tapRounding_nonneg _ _)
  intro i
  have hround := exactIncrement_sub_step (ec.errorBg tx rx) (ec.shiftNext tx) (hH i)
  have htap := hecho.taps.tap i i.isLt
  simp only [PiLp.sub_apply, PiLp.smul_apply, ofList_apply, smul_eq_mul, htap]
  push_cast
  refine le_of_eq_of_le (congrArg _ ?_) hround
  ring

/-- An adaption on the echo adds no more than its drift. -/
theorem EchoOnly.misalignment_le {len : ℕ} {h H : List ℤ} {ec : EchoCan} {tx rx : Int16}
    (hecho : EchoOnly len h H ec tx rx) (hH : ∀ i, |H.getD i 0| ≤ 2 ^ 14)
    (hdwell : ec.nonupdateDwell = 0) :
    misalignment len h (echoCanUpdate ec tx rx).1.firTaps16Bg ≤
      misalignment len h ec.firTaps16Bg + adaptionDrift len ec tx rx := by
  by_cases hne : ec.errorBg tx rx = 0
  · have htaps : ofList len (echoCanUpdate ec tx rx).1.firTaps16Bg =
        ofList len ec.firTaps16Bg := by
      ext i
      have hzero : exactFactor (0 : ℤ) (ec.shiftNext tx) = 0 := by simp [exactFactor]
      have hinc : exactIncrement 0 (H.getD i 0) = 0 := by simp [exactIncrement]
      rw [ofList_apply, ofList_apply, hecho.taps.tap i i.isLt, hne, hzero, hinc, add_zero]
    rw [misalignment, misalignment, htaps, adaptionDrift, if_neg fun hboth => hboth.2 hne,
      add_zero]
  · obtain ⟨r, hr, hstep⟩ := hecho.exists_rounding hH
    have hgain := hecho.neg_slack_le_gain hne
    rw [← stepSlack_sq] at hgain
    have hnorm := norm_sub_smul_sub_le (r := r) (stepSlack_nonneg _ _) hgain
    rw [misalignment, misalignment, adaptionDrift, if_pos ⟨hdwell, hne⟩, hstep]
    linarith

/-! ### Runs -/

noncomputable def callDrift (len : ℕ) (ec : EchoCan) : Call → ℝ
  | .update tx rx => adaptionDrift len ec tx rx
  | _ => 0

/-- The drift of all the updates of a run. -/
noncomputable def runDrift (len : ℕ) (ec : EchoCan) (calls : List Call) : ℝ :=
  ((echoCan.trace ec calls).map fun t => callDrift len t.before t.input).sum

theorem runDrift_concat (len : ℕ) (ec : EchoCan) (calls : List Call) (c : Call) :
    runDrift len ec (calls ++ [c]) = runDrift len ec calls +
      callDrift len (echoCan.run ec calls) c := by
  simp [runDrift]

theorem callDrift_nonneg (len : ℕ) (ec : EchoCan) (c : Call) : 0 ≤ callDrift len ec c := by
  cases c with
  | update tx rx => exact adaptionDrift_nonneg len ec tx rx
  | hpfTx tx => exact le_refl 0
  | flush => exact le_refl 0
  | adaptionMode mode => exact le_refl 0
  | snapshot => exact le_refl 0

theorem Call.Quiet.drift_eq {c : Call} (hc : c.Quiet) (len : ℕ) (ec : EchoCan) :
    callDrift len ec c = 0 := by
  cases c <;> first | rfl | exact hc.elim

theorem runDrift_nonneg (len : ℕ) (ec : EchoCan) (calls : List Call) :
    0 ≤ runDrift len ec calls :=
  List.sum_nonneg fun x hx => by
    obtain ⟨t, -, rfl⟩ := List.mem_map.mp hx
    exact callDrift_nonneg len t.before t.input

/-- Every adaption of the run is one on the echo of `h`. -/
def EchoOnlyRun (len : ℕ) (h : List ℤ) (mode : BitVec 32) (calls : List Call) : Prop :=
  ∀ pre tx rx, UpdateAt calls pre tx rx →
    (echoCan.run (echoCanCreate len mode) pre).nonupdateDwell = 0 →
    EchoOnly len h (txIn tx :: txHistory pre) (echoCan.run (echoCanCreate len mode) pre) tx rx

theorem EchoOnlyRun.of_prefix {len : ℕ} {h : List ℤ} {mode : BitVec 32} {pre calls : List Call}
    (hrun : EchoOnlyRun len h mode calls) (hpre : pre <+: calls) : EchoOnlyRun len h mode pre :=
  fun pre' tx rx hat => hrun pre' tx rx (hat.trans hpre)

theorem ofList_replicate_zero (len n : ℕ) : ofList len (List.replicate n 0) = 0 := by
  ext i
  rw [ofList_apply, getD_replicate_zero]
  exact Int.cast_zero

theorem misalignment_replicate_zero (len n : ℕ) (h : List ℤ) :
    misalignment len h (List.replicate n 0) = ‖ofList len h‖ := by
  rw [misalignment, ofList_replicate_zero, sub_zero]

/-- Both tap arrays stay as near to the path as the drift of the run allows. -/
theorem misalignment_of_run {len : ℕ} {h : List ℤ} {mode : BitVec 32} {calls : List Call}
    (hrun : EchoOnlyRun len h mode calls) :
    misalignment len h (echoCan.run (echoCanCreate len mode) calls).firTaps16Bg ≤
        ‖ofList len h‖ + runDrift len (echoCanCreate len mode) calls ∧
      misalignment len h (echoCan.run (echoCanCreate len mode) calls).firTaps16Fg ≤
        ‖ofList len h‖ + runDrift len (echoCanCreate len mode) calls := by
  revert hrun
  refine echoCan_run_induction (P := fun calls ec => EchoOnlyRun len h mode calls →
    misalignment len h ec.firTaps16Bg ≤
        ‖ofList len h‖ + runDrift len (echoCanCreate len mode) calls ∧
      misalignment len h ec.firTaps16Fg ≤
        ‖ofList len h‖ + runDrift len (echoCanCreate len mode) calls) ?_ ?_ ?_ ?_ calls
  · intro _
    have hzero := (misalignment_replicate_zero len len h).le
    have hdrift := le_add_of_nonneg_right (a := ‖ofList len h‖)
      (runDrift_nonneg len (echoCanCreate len mode) [])
    exact ⟨hzero.trans hdrift, hzero.trans hdrift⟩
  · intro calls tx rx ih hrun
    obtain ⟨hbg, hfg⟩ := ih (hrun.of_prefix (List.prefix_append _ _))
    have hspec := echoCanUpdate_spec (echoCan.run (echoCanCreate len mode) calls) tx rx
    have hdrift := adaptionDrift_nonneg len (echoCan.run (echoCanCreate len mode) calls) tx rx
    rw [runDrift_concat, callDrift]
    have hbg' : misalignment len h
        (echoCanUpdate (echoCan.run (echoCanCreate len mode) calls) tx rx).1.firTaps16Bg ≤
        ‖ofList len h‖ + (runDrift len (echoCanCreate len mode) calls +
          adaptionDrift len (echoCan.run (echoCanCreate len mode) calls) tx rx) := by
      by_cases hdwell : (echoCan.run (echoCanCreate len mode) calls).nonupdateDwell = 0
      · have hstep := (hrun calls tx rx (List.prefix_refl _) hdwell).misalignment_le
          (abs_register_le calls tx) hdwell
        linarith
      · rw [hspec.firTaps16Bg, EchoCan.tapsBgNext, if_neg hdwell]
        linarith
    refine ⟨hbg', ?_⟩
    rw [hspec.firTaps16Fg]
    split
    · exact hbg'
    · linarith
  · intro calls _ _
    have hdrift := runDrift_nonneg len (echoCanCreate len mode) (calls ++ [.flush])
    rw [echoCanFlush_eq]
    simp only [EchoCanCore.flush, misalignment_replicate_zero]
    constructor <;> linarith
  · intro calls c txDc mode' snapshot hc ih hrun
    rw [runDrift_concat, hc.drift_eq, add_zero]
    exact ih (hrun.of_prefix (List.prefix_append _ _))

/-- The error that an adaption on the echo meets is the misalignment seen by
the register, give or take one. -/
theorem EchoOnly.errorBg_le {len : ℕ} {h H : List ℤ} {ec : EchoCan} {tx rx : Int16}
    (hecho : EchoOnly len h H ec tx rx) :
    (|ec.errorBg tx rx| : ℝ) ≤
      1 + misalignment len h ec.firTaps16Bg * √(blockPower len H) / 2 ^ 15 := by
  obtain ⟨hlo, hhi⟩ := hecho.inner_bounds
  have hcauchy := abs_real_inner_le_norm (ofList len h - ofList len ec.firTaps16Bg)
    (ofList len H)
  have hnorm : ‖ofList len H‖ = √(blockPower len H) := by
    rw [← blockPower_eq_norm, Real.sqrt_sq (norm_nonneg _)]
  rw [hnorm, ← misalignment] at hcauchy
  obtain ⟨hcauchy, hcauchy'⟩ := abs_le.mp hcauchy
  rw [← sub_le_iff_le_add', le_div_iff₀ (by norm_num), sub_mul]
  rcases le_total 0 (ec.errorBg tx rx : ℝ) with hsign | hsign
  · rw [abs_of_nonneg hsign]
    linarith
  · rw [abs_of_nonpos hsign]
    linarith

/-- On the echo of one path alone, the misalignment never exceeds that of empty
taps by more than the drift of the run, and the error never more than the
register can see of it. -/
theorem misalignment_bounded (len : ℕ) (h : List ℤ) (mode : BitVec 32) (calls : List Call)
    (hrun : EchoOnlyRun len h mode calls) :
    misalignment len h (echoCan.run (echoCanCreate len mode) calls).firTaps16Bg ≤
        ‖ofList len h‖ + runDrift len (echoCanCreate len mode) calls ∧
      misalignment len h (echoCan.run (echoCanCreate len mode) calls).firTaps16Fg ≤
        ‖ofList len h‖ + runDrift len (echoCanCreate len mode) calls ∧
      ∀ pre tx rx, UpdateAt calls pre tx rx →
        (echoCan.run (echoCanCreate len mode) pre).nonupdateDwell = 0 →
        (|(echoCan.run (echoCanCreate len mode) pre).errorBg tx rx| : ℝ) ≤
          1 + (‖ofList len h‖ + runDrift len (echoCanCreate len mode) pre) *
            √(blockPower len (txIn tx :: txHistory pre)) / 2 ^ 15 := by
  obtain ⟨hbg, hfg⟩ := misalignment_of_run hrun
  refine ⟨hbg, hfg, ?_⟩
  intro pre tx rx hat hdwell
  have hpre := (misalignment_of_run
    (hrun.of_prefix ((List.prefix_append pre _).trans hat))).1
  refine ((hrun pre tx rx hat hdwell).errorBg_le).trans ?_
  gcongr

/-- The loudest far end, and the fourth of its samples comes back as one unit:
an error of minus one is shifted to the right, and every tap moves. -/
def lateUnit : List Call := List.replicate 3 (.update (-32768) 0) ++ [.update (-32768) (-2)]

theorem lateUnit_echoOnly : EchoOnlyRun 4 [0, 0, 0, 1] echoCanUseAdaption lateUnit := by
  have hchecked : ∀ pre tx rx, UpdateAt lateUnit pre tx rx →
      ((echoCan.run (echoCanCreate 4 echoCanUseAdaption) pre).rxIn rx =
          dot 4 [0, 0, 0, 1] (txIn tx :: txHistory pre) >>> (15 : ℕ) ∧
        EstimateExact 4 (echoCan.run (echoCanCreate 4 echoCanUseAdaption) pre).firTaps16Bg
          (txIn tx :: txHistory pre)
          ((echoCan.run (echoCanCreate 4 echoCanUseAdaption) pre).echoBg tx) ∧
        LmsInRange 4 (txIn tx :: txHistory pre)
          (echoCan.run (echoCanCreate 4 echoCanUseAdaption) pre) tx rx) ∧
      blockPower 4 (txIn tx :: txHistory pre) ≤ 4 * (minTxPowerForAdaption +
        (echoCan.run (echoCanCreate 4 echoCanUseAdaption) pre).pstatesNext tx) ∧
      minTxPowerForAdaption +
        (echoCan.run (echoCanCreate 4 echoCanUseAdaption) pre).pstatesNext tx < 2 ^ 31 := by
    decide +kernel
  intro pre tx rx hat hdwell
  obtain ⟨⟨hecho, hestimate, hrange⟩, hpower, hfits⟩ := hchecked pre tx rx hat
  refine ⟨hecho, hestimate, (lmsExact_iff (by decide) _ pre tx rx rfl hdwell).mpr hrange, ?_, hfits⟩
  have hlog : (echoCan.run (echoCanCreate 4 echoCanUseAdaption) pre).log2taps = 2 :=
    echoCan_run_log2taps 4 echoCanUseAdaption pre
  have hcast : (blockPower 4 (txIn tx :: txHistory pre) : ℚ) ≤ ((4 * (minTxPowerForAdaption +
      (echoCan.run (echoCanCreate 4 echoCanUseAdaption) pre).pstatesNext tx) : ℤ) : ℚ) :=
    Int.cast_le.mpr hpower
  rw [hlog]
  push_cast at hcast ⊢
  exact hcast

theorem misalignment_bounded_late_unit :
    (echoCan.run (echoCanCreate 4 echoCanUseAdaption)
        (List.replicate 3 (.update (-32768) 0))).shiftNext (-32768) = -2 ∧
      (echoCan.run (echoCanCreate 4 echoCanUseAdaption) lateUnit).firTaps16Bg = [1, 1, 1, 1] ∧
      misalignment 4 [0, 0, 0, 1] [1, 1, 1, 1] ≤
        ‖ofList 4 [0, 0, 0, 1]‖ + runDrift 4 (echoCanCreate 4 echoCanUseAdaption) lateUnit := by
  have htaps : (echoCan.run (echoCanCreate 4 echoCanUseAdaption) lateUnit).firTaps16Bg =
      [1, 1, 1, 1] := by decide +kernel
  have hbound := (misalignment_bounded 4 [0, 0, 0, 1] echoCanUseAdaption lateUnit
    lateUnit_echoOnly).1
  rw [htaps] at hbound
  exact ⟨by decide +kernel, htaps, hbound⟩

end Oslec
