import Oslec.Canceller.Levels
import Oslec.Canceller.NonLinear

/-!
The non-linear processor and its background noise level. A residual is counted
as noise only while its short term level is below 40, and a single sample moves
that level by a 32nd part, so no counted residual exceeds 1263; the level that
the comfort noise is scaled with and that the clipper clips to stays below that.
-/

namespace Oslec

open TwosComplement

/-- The noise level and the noise filter are in range. -/
structure NoiseBounded (ec : EchoCan) : Prop where
  levels : ec.LevelsBounded
  lbgn : ec.lbgn.Within 12 1263
  cngFilter : -10923 ≤ ec.cngFilter ∧ ec.cngFilter ≤ 10922

/-- A counted residual is small, however loud the samples before it were. -/
theorem EchoCan.LevelsBounded.clean_le_of_estimatesNoise {ec : EchoCan} (h : ec.LevelsBounded)
    {tx rx : Int16} (hcount : (echoCanUpdate ec tx rx).1.estimatesNoise = true) :
    ((echoCanUpdate ec tx rx).1.clean.natAbs : ℤ) ≤ 1263 := by
  have hspec := echoCanUpdate_spec ec tx rx
  obtain ⟨hlo, hhi⟩ := i16_bounds (ec.rxIn rx - ec.echoFg tx)
  have hlow : (echoCanUpdate ec tx rx).1.lclean.level < 40 := by
    rw [EchoCanCore.estimatesNoise, Bool.and_eq_true] at hcount
    exact of_decide_eq_true hcount.2
  rw [hspec.lclean] at hlow
  rw [hspec.clean]
  exact h.lclean.le_of_average_lt (le_refl _) (by omega) (by omega) hlow

theorem nextFilter_bounds {c : EchoCanCore} (h : -10923 ≤ c.cngFilter ∧ c.cngFilter ≤ 10922) :
    -10923 ≤ c.nextFilter ∧ c.nextFilter ≤ 10922 := by
  have hlo := Int.emod_nonneg (i32 (1664525 * c.cngRndnum + 1013904223)) (by norm_num :
    (65536 : ℤ) ≠ 0)
  have hhi := Int.emod_lt_of_pos (i32 (1664525 * c.cngRndnum + 1013904223)) (by norm_num :
    (0 : ℤ) < 65536)
  rw [EchoCanCore.nextFilter, i32_of_bounds (by omega) (by omega), Int.shiftRight_eq_div_pow]
  norm_num
  omega

theorem NoiseBounded.update {ec : EchoCan} (h : NoiseBounded ec) (tx rx : Int16) :
    NoiseBounded (echoCanUpdate ec tx rx).1 := by
  have hspec := echoCanUpdate_nonLinear ec tx rx
  refine ⟨h.levels.update tx rx, ?_, ?_⟩
  · rw [hspec.lbgn]
    split
    case isTrue hcount =>
      exact h.lbgn.average (by norm_num) (by norm_num) (by omega)
        (h.levels.clean_le_of_estimatesNoise hcount)
    case isFalse => exact h.lbgn
  · rcases hspec.cngFilter with hsame | hnext
    · rw [hsame]
      exact h.cngFilter
    · rw [hnext]
      exact nextFilter_bounds h.cngFilter

theorem noiseBounded_of_run (len : ℕ) (mode : BitVec 32) (calls : List Call) :
    NoiseBounded (echoCan.run (echoCanCreate len mode) calls) := by
  have hzero : Level.Within 12 1263 ⟨0, 0⟩ := Level.within_zero (by norm_num) (by norm_num)
  refine echoCan_run_induction (P := fun _ ec => NoiseBounded ec) ?_ ?_ ?_ ?_ calls
  · have hfilter : (-10923 : ℤ) ≤ 0 ∧ (0 : ℤ) ≤ 10922 := by norm_num
    exact ⟨levelsBounded_of_run len mode [], hzero, hfilter⟩
  · intro calls tx rx h
    exact h.update tx rx
  · intro calls h
    refine ⟨EchoCan.LevelsBounded.flush _, ?_, ?_⟩
    · rw [echoCanFlush_eq]
      exact hzero
    · rw [echoCanFlush_eq]
      exact h.cngFilter
  · intro calls c txDc mode snapshot _ h
    exact ⟨⟨h.levels.ltx, h.levels.lrx, h.levels.lclean, h.levels.lcleanBg⟩, h.lbgn, h.cngFilter⟩

/-- Every value on the way from the random number to the noise sample fits its type. -/
structure NoiseExact (ec ec' : EchoCan) : Prop where
  uniform : Fits 32 (ec'.cngRndnum % 65536 - 32768)
  feedback : Fits 32 (5 * ec.cngFilter)
  sum : Fits 32 (ec'.cngRndnum % 65536 - 32768 + 5 * ec.cngFilter)
  scaled : Fits 32 (ec'.cngFilter * ec'.cngLevel)
  product : Fits 32 (ec'.cngFilter * ec'.cngLevel * 8)
  sample : Fits 16 (ec'.cngFilter * ec'.cngLevel * 8 / 2 ^ 14)

theorem fits_of_abs_le {w : ℕ} {x m : ℤ} (h : |x| ≤ m) (hm : m < 2 ^ (w - 1)) : Fits w x := by
  obtain ⟨hlo, hhi⟩ := abs_le.mp h
  exact ⟨by omega, by omega⟩

theorem noise_product_le {f l : ℤ} (hf : -10923 ≤ f ∧ f ≤ 10922) (hl : 0 ≤ l ∧ l ≤ 1263) :
    |f * l| ≤ 10923 * 1263 := by
  rw [abs_mul]
  exact mul_le_mul (abs_le.mpr ⟨hf.1, by omega⟩) (abs_le.mpr ⟨by omega, hl.2⟩) (abs_nonneg l)
    (by norm_num)

theorem noise_sample_eq {p : ℤ} (h : |p| ≤ 10923 * 1263) :
    i16 (i32 (p * 8) >>> (14 : ℕ)) = p / 2048 := by
  obtain ⟨hlo, hhi⟩ := abs_le.mp h
  have hshift : i32 (p * 8) >>> (14 : ℕ) = p / 2048 := by
    rw [i32_of_bounds (by omega) (by omega), Int.shiftRight_eq_div_pow]
    norm_num
    omega
  rw [hshift]
  exact i16_of_bounds (by omega) (by omega)

theorem toInt_double {x : ℤ} (hlo : -16384 ≤ x) (hhi : x ≤ 16383) :
    (Int16.ofInt (x <<< (1 : ℕ))).toInt = 2 * x := by
  have hdouble : x <<< (1 : ℕ) = 2 * x := by
    rw [Int.shiftLeft_eq]
    ring
  rw [hdouble, Int16.toInt_ofInt]
  exact i16_of_bounds (by omega) (by omega)

/-- The comfort noise of an update is exact, and far from the ends of its type. -/
theorem NoiseBounded.noise {ec : EchoCan} (h : NoiseBounded ec) {tx rx : Int16}
    (hs : (echoCanUpdate ec tx rx).1.suppresses = true)
    (hcng : hasFlag ec.adaptionMode echoCanUseCng = true)
    (hdis : hasFlag ec.adaptionMode echoCanDisable = false) :
    NoiseExact ec (echoCanUpdate ec tx rx).1 ∧
      (echoCanUpdate ec tx rx).2.toInt =
        2 * ((echoCanUpdate ec tx rx).1.cngFilter * (echoCanUpdate ec tx rx).1.lbgn.level / 2048) ∧
      |(echoCanUpdate ec tx rx).2.toInt| ≤ 13474 := by
  obtain ⟨hlevel, hrnd, -, hout⟩ := (echoCanUpdate_nonLinear ec tx rx).cng hs hcng hdis
  have hnext := h.update tx rx
  have hl := hnext.lbgn.level_bounds (by norm_num)
  rw [← hlevel] at hl
  have hproduct := noise_product_le hnext.cngFilter hl
  obtain ⟨hplo, hphi⟩ := abs_le.mp hproduct
  have hmod := Int.emod_nonneg (echoCanUpdate ec tx rx).1.cngRndnum (by norm_num : (65536 : ℤ) ≠ 0)
  have hmod' := Int.emod_lt_of_pos (echoCanUpdate ec tx rx).1.cngRndnum
    (by norm_num : (0 : ℤ) < 65536)
  obtain ⟨hflo, hfhi⟩ := h.cngFilter
  have hvalue : (echoCanUpdate ec tx rx).2.toInt =
      2 * ((echoCanUpdate ec tx rx).1.cngFilter * (echoCanUpdate ec tx rx).1.cngLevel / 2048) := by
    rw [hout, noise_sample_eq hproduct]
    exact toInt_double (by omega) (by omega)
  refine ⟨?_, ?_, ?_⟩
  · exact {
      uniform := fits_of_abs_le (m := 32768) (abs_le.mpr ⟨by omega, by omega⟩) (by norm_num)
      feedback := fits_of_abs_le (m := 54615) (abs_le.mpr ⟨by omega, by omega⟩) (by norm_num)
      sum := fits_of_abs_le (m := 87383) (abs_le.mpr ⟨by omega, by omega⟩) (by norm_num)
      scaled := fits_of_abs_le hproduct (by norm_num)
      product := fits_of_abs_le (m := 8 * (10923 * 1263)) (abs_le.mpr ⟨by omega, by omega⟩)
        (by norm_num)
      sample := fits_of_abs_le (m := 6737) (abs_le.mpr ⟨by omega, by omega⟩) (by norm_num)
    }
  · rw [hvalue, hlevel]
  · rw [hvalue]
    exact abs_le.mpr ⟨by omega, by omega⟩

theorem clip_output_le {c : EchoCanCore} (hlo : 0 ≤ c.lbgn.level) (hhi : c.lbgn.level ≤ 1263) :
    |c.clip.output.toInt| ≤ 2 * c.lbgn.level := by
  obtain ⟨hcleanlo, hcleanhi⟩ := c.clip_bounds hlo (by omega)
  rw [EchoCanCore.output, toInt_double (by omega) (by omega)]
  exact abs_le.mpr ⟨by omega, by omega⟩

theorem NoiseBounded.clip {ec : EchoCan} (h : NoiseBounded ec) {tx rx : Int16}
    (hs : (echoCanUpdate ec tx rx).1.suppresses = true)
    (hcng : hasFlag ec.adaptionMode echoCanUseCng = false)
    (hclip : hasFlag ec.adaptionMode echoCanUseClip = true)
    (hdis : hasFlag ec.adaptionMode echoCanDisable = false) :
    |(echoCanUpdate ec tx rx).2.toInt| ≤ 2 * (echoCanUpdate ec tx rx).1.lbgn.level := by
  have hout := (echoCanUpdate_nonLinear ec tx rx).clip hs hcng hclip hdis
  obtain ⟨hlo, hhi⟩ := (h.update tx rx).lbgn.level_bounds (by norm_num)
  rw [hout]
  exact clip_output_le hlo hhi

/-- In every run the noise level and the noise filter are bounded, and neither
the comfort noise nor the clipper overflows. -/
theorem non_linear_processor_safe (len : ℕ) (mode : BitVec 32) (calls : List Call) :
    let ec := echoCan.run (echoCanCreate len mode) calls
    (0 ≤ ec.lbgn.level ∧ ec.lbgn.level ≤ 1263) ∧
      (-10923 ≤ ec.cngFilter ∧ ec.cngFilter ≤ 10922) ∧
      ∀ tx rx, (echoCanUpdate ec tx rx).1.suppresses = true →
        hasFlag ec.adaptionMode echoCanDisable = false →
        (hasFlag ec.adaptionMode echoCanUseCng = true →
            NoiseExact ec (echoCanUpdate ec tx rx).1 ∧
              (echoCanUpdate ec tx rx).2.toInt =
                2 * ((echoCanUpdate ec tx rx).1.cngFilter *
                  (echoCanUpdate ec tx rx).1.lbgn.level / 2048) ∧
              |(echoCanUpdate ec tx rx).2.toInt| ≤ 13474) ∧
          (hasFlag ec.adaptionMode echoCanUseCng = false →
            hasFlag ec.adaptionMode echoCanUseClip = true →
              |(echoCanUpdate ec tx rx).2.toInt| ≤
                2 * (echoCanUpdate ec tx rx).1.lbgn.level) := by
  have h := noiseBounded_of_run len mode calls
  refine ⟨h.lbgn.level_bounds (by norm_num), h.cngFilter, ?_⟩
  intro tx rx hs hdis
  exact ⟨fun hcng => h.noise hs hcng hdis, fun hcng hclip => h.clip hs hcng hclip hdis⟩

/-- A room whose noise has been measured, and a far end that then gets loud. -/
def noisyRoom : List Call :=
  .update 0 2556 :: List.replicate 75 (.update 0 78) ++ List.replicate 3 (.update 32766 0)

/-- With a background level of one, the residual of 1000 is replaced by noise or
clipped. -/
theorem non_linear_processor_safe_noisy_room :
    (NoiseExact (echoCan.run (echoCanCreate 2 (echoCanUseNlp ||| echoCanUseCng)) noisyRoom)
        (echoCanUpdate (echoCan.run (echoCanCreate 2 (echoCanUseNlp ||| echoCanUseCng))
          noisyRoom) 32766 2000).1 ∧
      (echoCanUpdate (echoCan.run (echoCanCreate 2 (echoCanUseNlp ||| echoCanUseCng))
          noisyRoom) 32766 2000).2.toInt =
        2 * ((echoCanUpdate (echoCan.run (echoCanCreate 2 (echoCanUseNlp ||| echoCanUseCng))
          noisyRoom) 32766 2000).1.cngFilter * 1 / 2048)) ∧
      |(echoCanUpdate (echoCan.run (echoCanCreate 2 (echoCanUseNlp ||| echoCanUseClip))
          noisyRoom) 32766 2000).2.toInt| ≤ 2 := by
  have hnoise := (non_linear_processor_safe 2 (echoCanUseNlp ||| echoCanUseCng) noisyRoom).2.2
    32766 2000 (by decide +kernel) (by decide +kernel)
  have hclip := (non_linear_processor_safe 2 (echoCanUseNlp ||| echoCanUseClip) noisyRoom).2.2
    32766 2000 (by decide +kernel) (by decide +kernel)
  obtain ⟨hexact, hvalue, -⟩ := hnoise.1 (by decide +kernel)
  have hbound := hclip.2 (by decide +kernel) (by decide +kernel)
  have hlevel : (echoCanUpdate (echoCan.run (echoCanCreate 2 (echoCanUseNlp ||| echoCanUseCng))
      noisyRoom) 32766 2000).1.lbgn.level = 1 := by decide +kernel
  have hlevel' : (echoCanUpdate (echoCan.run (echoCanCreate 2 (echoCanUseNlp ||| echoCanUseClip))
      noisyRoom) 32766 2000).1.lbgn.level = 1 := by decide +kernel
  rw [hlevel] at hvalue
  rw [hlevel'] at hbound
  exact ⟨⟨hexact, hvalue⟩, hbound⟩

end Oslec
