import Oslec.Properties.ShiftRegister

/-!
The output path of the update. `clean` is stored in 16 bits and the returned
sample is twice that, again in 16 bits, without saturation: the path is exact
as long as the difference between the received sample and the foreground echo
estimate stays in range, and wraps as soon as it leaves it.
-/

namespace Oslec

open TwosComplement

/-- Saturation to the range of an `int16_t`. -/
def saturate16 (x : ℤ) : ℤ := max (-32768) (min x 32767)

/-- Neither the non-linear processor nor the bypass touches the residual. -/
def PlainOutput (mode : BitVec 32) : Prop :=
  hasFlag mode echoCanUseNlp = false ∧ hasFlag mode echoCanDisable = false

/-- Nothing wraps between the foreground filter and the returned sample: `clean`
is the difference of the received sample and the estimate `e`, and the plain
output is twice that, or its saturation. -/
structure ExactOutput (ec : EchoCan) (tx rx : Int16) (e : ℤ) : Prop where
  clean : (echoCanUpdate ec tx rx).1.clean = ec.rxIn rx - e
  output : PlainOutput ec.adaptionMode →
    (echoCanUpdate ec tx rx).2.toInt = 2 * (ec.rxIn rx - e) ∨
      (echoCanUpdate ec tx rx).2.toInt = saturate16 (2 * (ec.rxIn rx - e))

/-- The received sample and the echo estimate of the foreground taps on the
register `H` are no further apart than the output path can carry. -/
structure OutputFits (len : ℕ) (H : List ℤ) (ec : EchoCan) (rx : Int16) : Prop where
  clean : Fits 16 (ec.rxIn rx - estimate len ec.firTaps16Fg H)
  output : PlainOutput ec.adaptionMode → Fits 15 (ec.rxIn rx - estimate len ec.firTaps16Fg H)

instance (mode : BitVec 32) : Decidable (PlainOutput mode) :=
  inferInstanceAs (Decidable (_ ∧ _))

instance (len : ℕ) (H : List ℤ) (ec : EchoCan) (rx : Int16) : Decidable (OutputFits len H ec rx) :=
  decidable_of_iff (_ ∧ (PlainOutput ec.adaptionMode → _))
    ⟨fun h => ⟨h.1, h.2⟩, fun h => ⟨h.clean, h.output⟩⟩

/-- Doubling a 16 bit value in 16 bits gives the double or its saturation
exactly when the value fits 15 bits. -/
theorem i16_double_iff {d : ℤ} (hd : Fits 16 d) :
    (i16 (2 * d) = 2 * d ∨ i16 (2 * d) = saturate16 (2 * d)) ↔ Fits 15 d := by
  obtain ⟨k, hk⟩ := i16_eq_add_mul (2 * d)
  obtain ⟨hlo, hhi⟩ := i16_bounds (2 * d)
  obtain ⟨hdlo, hdhi⟩ := hd
  norm_num at hdlo hdhi
  constructor
  · intro h
    unfold Fits
    norm_num
    rcases h with h | h
    · omega
    · -- the stored double is even, the positive saturation value odd
      unfold saturate16 at h
      omega
  · rintro ⟨hlo', hhi'⟩
    norm_num at hlo' hhi'
    left
    exact i16_of_bounds (by omega) (by omega)

theorem exactOutput_iff {len : ℕ} (hlen : 0 < len) (mode : BitVec 32) (calls : List Call)
    (tx rx : Int16) {ec : EchoCan} (hec : ec = echoCan.run (echoCanCreate len mode) calls) :
    ExactOutput ec tx rx (fir16 ec.firState ec.firTaps16Fg (txIn tx)).2 ↔
      OutputFits len (txIn tx :: txHistory calls) ec rx := by
  obtain ⟨r, hr, hwindow⟩ := exists_ring_of_run hlen mode calls
  rw [← hec] at hr
  have he : (fir16 ec.firState ec.firTaps16Fg (txIn tx)).2 =
      estimate len ec.firTaps16Fg (txIn tx :: txHistory calls) :=
    (hr.usesRegister hwindow tx rx).foreground
  have hclean : (echoCanUpdate ec tx rx).1.clean =
      i16 (ec.rxIn rx - estimate len ec.firTaps16Fg (txIn tx :: txHistory calls)) := by
    rw [(echoCanUpdate_spec ec tx rx).clean, EchoCan.echoFg, he]
  have hout : PlainOutput ec.adaptionMode → (echoCanUpdate ec tx rx).2.toInt =
      i16 (2 * i16 (ec.rxIn rx - estimate len ec.firTaps16Fg (txIn tx :: txHistory calls))) := by
    rintro ⟨hnlp, hdis⟩
    rw [echoCanUpdate_output_of_plain hnlp hdis, EchoCan.echoFg, he, Int16.toInt_ofInt,
      Int.shiftLeft_eq, mul_comm]
    rfl
  rw [he]
  constructor
  · rintro ⟨h, houtput⟩
    have hfits : Fits 16 (ec.rxIn rx - estimate len ec.firTaps16Fg (txIn tx :: txHistory calls)) :=
      i16_eq_self_iff.mp (hclean.symm.trans h)
    refine ⟨hfits, fun hplain => ?_⟩
    have hdouble := houtput hplain
    rw [hout hplain, ← hclean, h] at hdouble
    exact (i16_double_iff hfits).mp hdouble
  · rintro ⟨hfits, houtput⟩
    have h := hclean.trans (i16_eq_self_iff.mpr hfits)
    refine ⟨h, fun hplain => ?_⟩
    rw [hout hplain, ← hclean, h]
    exact (i16_double_iff hfits).mpr (houtput hplain)

/-- The output path is exact at every update of a run exactly when, at every
update of the run, the received sample and the estimate fit it. -/
theorem output_exact_iff (len : ℕ) (hlen : 2 ≤ len) (mode : BitVec 32) (calls : List Call) :
    (∀ pre tx rx, UpdateAt calls pre tx rx →
        ExactOutput (echoCan.run (echoCanCreate len mode) pre) tx rx
          (fir16 (echoCan.run (echoCanCreate len mode) pre).firState
            (echoCan.run (echoCanCreate len mode) pre).firTaps16Fg (txIn tx)).2) ↔
      ∀ pre tx rx, UpdateAt calls pre tx rx →
        OutputFits len (txIn tx :: txHistory pre)
          (echoCan.run (echoCanCreate len mode) pre) rx := by
  have hn : 0 < len := by omega
  apply forall_congr'
  intro pre
  apply forall_congr'
  intro tx
  apply forall_congr'
  intro rx
  exact imp_congr_right fun _ => exactOutput_iff hn mode pre tx rx rfl

/-- A loud far end whose echo is being learned, then a near end as loud as the
path can carry. -/
theorem output_exact_iff_loud_echo :
    (echoCan.run (echoCanCreate 2 echoCanUseAdaption)
        (List.replicate 11 (.update 32766 10000))).firTaps16Fg = [7498, 2498] ∧
      ∀ pre tx rx,
        UpdateAt (List.replicate 11 (.update 32766 10000) ++ [.update 32766 (-22000)]) pre tx rx →
          ExactOutput (echoCan.run (echoCanCreate 2 echoCanUseAdaption) pre) tx rx
            (fir16 (echoCan.run (echoCanCreate 2 echoCanUseAdaption) pre).firState
              (echoCan.run (echoCanCreate 2 echoCanUseAdaption) pre).firTaps16Fg (txIn tx)).2 :=
  ⟨by decide +kernel, (output_exact_iff 2 (by decide) echoCanUseAdaption
    (List.replicate 11 (.update 32766 10000) ++ [.update 32766 (-22000)])).mpr
      (by decide +kernel)⟩

/-- Eleven samples of a half scale echo install foreground taps that make the
next full scale sample of opposite sign come out positive. -/
theorem output_wraps_after_convergence :
    ¬ ExactOutput
        (echoCan.run (echoCanCreate 2 echoCanUseAdaption)
          (List.replicate 11 (.update 32766 10000))) 32766 (-32768)
        (fir16
          (echoCan.run (echoCanCreate 2 echoCanUseAdaption)
            (List.replicate 11 (.update 32766 10000))).firState
          (echoCan.run (echoCanCreate 2 echoCanUseAdaption)
            (List.replicate 11 (.update 32766 10000))).firTaps16Fg (txIn 32766)).2 := by
  have hrun :
      let ec := echoCan.run (echoCanCreate 2 echoCanUseAdaption)
        (List.replicate 11 (.update 32766 10000))
      ec.rxIn (-32768) = -16384 ∧ (fir16 ec.firState ec.firTaps16Fg (txIn 32766)).2 = 4997 ∧
        (echoCanUpdate ec 32766 (-32768)).2.toInt = 22774 ∧
        hasFlag ec.adaptionMode echoCanUseNlp = false ∧
        hasFlag ec.adaptionMode echoCanDisable = false := by decide +kernel
  obtain ⟨hrx, he, hout, hnlp, hdis⟩ := hrun
  rintro ⟨-, houtput⟩
  have h := houtput ⟨hnlp, hdis⟩
  rw [hout, hrx, he] at h
  revert h
  decide

end Oslec
