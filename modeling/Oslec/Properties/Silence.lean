import Mathlib.Data.List.GetD
import Oslec.Canceller.NonLinear
import Oslec.Properties.DcRemoval
import Oslec.Properties.LevelTrackers
import Oslec.Properties.ShiftRegister

/-!
Silence on both sides. Whatever a run has left in the filter, the register, the
taps and the noise estimate, it is out of the way after the length of the
register or 500 samples: the received sample and the echo estimate are zero, and
the transmit level has come down to zero exactly, so that the residual is never
replaced by comfort noise.
-/

namespace Oslec

open TwosComplement

/-- Silence for `n` samples. -/
def silence (n : ℕ) : List Call := List.replicate n (.update 0 0)

theorem silence_succ (n : ℕ) : silence (n + 1) = silence n ++ [.update 0 0] :=
  List.replicate_succ'

section

variable (len : ℕ) (mode : BitVec 32) (calls : List Call)

theorem txHistory_silence (n : ℕ) :
    txHistory (calls ++ silence n) = List.replicate n 0 ++ txHistory calls := by
  induction n with
  | zero => simp [silence]
  | succ n ih =>
      rw [silence_succ, ← List.append_assoc, txHistory_update, ih, List.replicate_succ,
        List.cons_append]
      rfl

theorem ltx_inputs_silence (n : ℕ) :
    Tracker.ltx.inputs (echoCan.trace (echoCanCreate len mode) (calls ++ silence n)) =
      List.replicate n 0 ++ Tracker.ltx.inputs (echoCan.trace (echoCanCreate len mode) calls) := by
  induction n with
  | zero => simp [silence]
  | succ n ih =>
      rw [silence_succ, ← List.append_assoc, Mealy.trace_concat, Tracker.inputs,
        updatesSinceFlush_update, List.filterMap_cons, List.replicate_succ, List.cons_append, ← ih]
      rfl

theorem adaptionMode_silence (ec : EchoCan) (n : ℕ) :
    (echoCan.run ec (silence n)).adaptionMode = ec.adaptionMode := by
  induction n with
  | zero => rfl
  | succ n ih =>
      rw [silence_succ, Mealy.run_concat]
      exact (echoCanUpdate_spec _ 0 0).adaptionMode.trans ih

/-! ### What is left of the past -/

theorem rxIn_silence {n : ℕ} (hn : 199 ≤ n) :
    (echoCan.run (echoCanCreate len mode) (calls ++ silence n)).rxIn 0 = 0 := by
  rw [Mealy.run_append]
  by_cases hflag : hasFlag (echoCan.run (echoCanCreate len mode) calls).adaptionMode
      echoCanUseRxHpf = true
  · have hsettles := rxIn_settles hflag 0 (List.replicate n 0) (by rwa [List.length_replicate])
    rwa [List.map_replicate] at hsettles
  · simp only [EchoCan.rxIn, EchoCanCore.highPassRx, adaptionMode_silence, hflag]
    rfl

/-- The register holds nothing but zeros, so the taps do not matter. -/
theorem echoFg_silence (hlen : 0 < len) {n : ℕ} (hn : len ≤ n) :
    (echoCan.run (echoCanCreate len mode) (calls ++ silence n)).echoFg 0 = 0 := by
  obtain ⟨r, hr, hwindow⟩ := exists_ring_of_run hlen mode (calls ++ silence n)
  apply (hr.usesRegister hwindow 0 0).echoFg_of_zeros
  intro i hi
  have hzeros : txIn 0 :: txHistory (calls ++ silence n) =
      List.replicate (n + 1) 0 ++ txHistory calls := by
    rw [txHistory_silence, List.replicate_succ, List.cons_append]
    rfl
  rw [hzeros, List.getD_append _ _ _ _ (by rw [List.length_replicate]; omega),
    getD_replicate_zero]

/-- What is left of the largest transmit level after 500 samples is less than one. -/
theorem leak_of_500 {n : ℕ} (hn : 500 ≤ n) {x : ℤ} (hx : x ≤ 725 ^ 2) : 31 ^ n * x < 32 ^ n := by
  have hblock : (31 : ℤ) ^ 250 * 725 < 32 ^ 250 := by norm_num
  have hbase : (31 : ℤ) ^ 500 * 725 ^ 2 < 32 ^ 500 := by
    calc (31 : ℤ) ^ 500 * 725 ^ 2 = (31 ^ 250 * 725) ^ 2 := by rw [mul_pow, ← pow_mul]
      _ < (32 ^ 250) ^ 2 := pow_lt_pow_left₀ hblock (by positivity) (by norm_num)
      _ = 32 ^ 500 := by rw [← pow_mul]
  exact LeakyAverage.rest_lt_of_base (by norm_num) (by norm_num) hn hx hbase

theorem ltx_silence {n : ℕ} (hn : 500 ≤ n) :
    (echoCan.run (echoCanCreate len mode) (calls ++ silence n)).ltx.level = 0 := by
  have hpast := tracked_of_run .ltx len mode calls
  have htracked := tracked_of_run .ltx len mode (calls ++ silence n)
  have hlo := LeakyAverage.run_nonneg (k := 5) (by norm_num) fun a ha => (hpast.inputs a ha).1
  have hhi := LeakyAverage.run_le (k := 5) (m := 16384) (by norm_num) (by norm_num)
    fun a ha => (hpast.inputs a ha).2
  have hup := leak_of_500 hn (x := LeakyAverage.run 5
    (Tracker.ltx.inputs (echoCan.trace (echoCanCreate len mode) calls)) - 15) (by omega)
  have hlevel : (echoCan.run (echoCanCreate len mode) (calls ++ silence n)).ltx =
      Level.track 5 (Tracker.ltx.inputs
        (echoCan.trace (echoCanCreate len mode) (calls ++ silence n))) := htracked.level
  rw [hlevel, track_eq_of_inputs htracked.levelInputs, ltx_inputs_silence]
  refine LeakyAverage.part_run_replicate (by norm_num) ?_ ?_
  · norm_num at hup ⊢
    exact hup
  · have hdown : 0 ≤ 31 ^ n * (LeakyAverage.run 5
        (Tracker.ltx.inputs (echoCan.trace (echoCanCreate len mode) calls)) + 16) :=
      mul_nonneg (by positivity) (by omega)
    have hpow : (0 : ℤ) < 32 ^ n := by positivity
    norm_num only
    rw [sub_zero]
    linarith

end

/-! ### The returned sample -/

theorem EchoCanCore.nonLinear_cleanNlp_of_not_suppresses {c : EchoCanCore}
    (h : c.suppresses = false) : c.nonLinear.cleanNlp = c.clean := by
  by_cases hnlp : hasFlag c.adaptionMode echoCanUseNlp = true
  · have hlevel : ¬ i32 (16 * c.lclean.level) < c.ltx.level := by
      simpa [suppresses, hnlp] using h
    simp only [nonLinear, hnlp, hlevel, if_true, if_false]
    split <;> rfl
  · exact nonLinear_cleanNlp_of_not_nlp (by simpa using hnlp)

/-- The residual goes out as it is where the transmit level is zero. -/
theorem echoCanUpdate_output_of_quiet_tx {ec : EchoCan} {tx rx : Int16} (hrx : ec.rxIn rx = 0)
    (hfg : ec.echoFg tx = 0) (hsuppresses : (echoCanUpdate ec tx rx).1.suppresses = false) :
    (echoCanUpdate ec tx rx).2 = 0 := by
  rw [echoCanUpdate_eq] at hsuppresses ⊢
  have hclean := ec.transfer_clean tx rx
  rw [hrx, hfg, sub_zero, i16, wrap_zero] at hclean
  generalize (ec.atTransfer tx rx).transfer = c at hclean hsuppresses ⊢
  have hreads := (c.nonLinear_bypass_reads (ec.rxIn rx)).1
  have hnlp : c.nonLinear.cleanNlp = 0 := by
    rw [EchoCanCore.nonLinear_cleanNlp_of_not_suppresses (hreads.symm.trans hsuppresses), hclean]
  have hbypass : (c.nonLinear.bypass (ec.rxIn rx)).cleanNlp = 0 := by
    simp only [EchoCanCore.bypass, hnlp, hrx, ite_self]
  simp only [EchoCanCore.output, hbypass]
  rfl

/-- From every reachable state, silence comes out once the register and 500
samples have gone by. -/
theorem silence_in_silence_out (len : ℕ) (hlen : 2 ≤ len) (mode : BitVec 32) (calls : List Call)
    (n : ℕ) (hn : max len 500 ≤ n) :
    (echoCanUpdate (echoCan.run (echoCan.run (echoCanCreate len mode) calls)
      (List.replicate n (.update 0 0))) 0 0).2 = 0 := by
  obtain ⟨hregister, hlevels⟩ := max_le_iff.mp hn
  have hltx := ltx_silence len mode calls (n := n + 1) (by omega)
  have hproducts := (productsExact_of_run len mode (calls ++ silence (n + 1))).nonLinear
  obtain ⟨hlclean, -⟩ :=
    (levelsBounded_of_run len mode (calls ++ silence (n + 1))).lclean.level_bounds
  have hrun : echoCan.run (echoCanCreate len mode) (calls ++ silence (n + 1)) =
      (echoCanUpdate (echoCan.run (echoCanCreate len mode) (calls ++ silence n)) 0 0).1 := by
    rw [silence_succ, ← List.append_assoc, Mealy.run_concat]
    rfl
  rw [← Mealy.run_append, ← silence]
  apply echoCanUpdate_output_of_quiet_tx
  · exact rxIn_silence len mode calls (by omega)
  · exact echoFg_silence len mode calls (by omega) hregister
  · -- the transmit level is zero, which no level of the residual is below
    rw [← hrun, EchoCanCore.suppresses, hproducts, hltx, decide_eq_false (by omega), Bool.and_false]

/-- Comfort noise after a loud far end. -/
theorem silence_in_silence_out_after_noise :
    (echoCanUpdate (echoCan.run (echoCan.run (echoCanCreate 2 0x27#32)
        [.update 32767 (-32768), .update (-32768) 32767])
      (List.replicate 500 (.update 0 0))) 0 0).2 = 0 :=
  silence_in_silence_out 2 (le_refl 2) 0x27#32 [.update 32767 (-32768), .update (-32768) 32767] 500
    (by decide)

end Oslec
