import Oslec.Properties.ComfortNoise
import Oslec.Properties.Hangover
import Oslec.Properties.Leakage
import Oslec.Properties.Silence

/-!
A canceller whose taps are the echo path. As long as only the far end speaks
the error is zero, every increment is zero, and a transfer copies the path onto
itself: the canceller stays where it is and sends silence. When the near end
breaks in, the hangover keeps the foreground taps for 604 updates, and what the
canceller sends is the near end alone.
-/

namespace Oslec

open TwosComplement

structure Converged (h : List ℤ) (ec : EchoCan) : Prop where
  background : ec.firTaps16Bg = h
  foreground : ec.firTaps16Fg = h

/-- The echo of the next transmit sample over the path `h`, as the line returns
it and as the filter computes it. -/
def echoOf (len : ℕ) (h : List ℤ) (calls : List Call) (tx : Int16) : ℤ :=
  estimate len h (txIn tx :: txHistory calls)

/-! ### Only the far end speaks -/

theorem lmsIncrement_of_error_zero (shift x : ℤ) : lmsIncrement (lmsFactor 0 shift) x = 0 := by
  have hfactor : lmsFactor 0 shift = 0 := by
    rw [lmsFactor]
    split
    · rw [Int.shiftLeft_eq, zero_mul, i32, wrap_zero]
    · exact Int.zero_shiftRight _
  rw [hfactor, lmsIncrement, mul_zero]
  decide

theorem UsesRegister.tapsBg_of_error_zero {len : ℕ} {H : List ℤ} {ec : EchoCan} {tx rx : Int16}
    (huse : UsesRegister len H ec tx rx) (htaps : Taps16 ec.firTaps16Bg)
    (herror : ec.errorBg tx rx = 0) :
    (echoCanUpdate ec tx rx).1.firTaps16Bg = ec.firTaps16Bg := by
  rw [huse.adapt]
  split
  · ext i : 1
    rw [List.getElem?_mapIdx, herror]
    cases hget : ec.firTaps16Bg[i]? with
    | none => rfl
    | some tap =>
        rw [Option.map_some, lmsIncrement_of_error_zero, add_zero,
          htaps tap (List.mem_of_getElem? hget)]
  · rfl

theorem EchoCanCore.nonLinear_of_clean_zero {c : EchoCanCore} (hclean : c.clean = 0)
    (hlbgn : 0 ≤ c.lbgn.level) (hcng : hasFlag c.adaptionMode echoCanUseCng = false) :
    c.nonLinear.cleanNlp = 0 := by
  by_cases hs : c.suppresses = true
  · by_cases hclip : hasFlag c.adaptionMode echoCanUseClip = true
    · rw [c.nonLinear_of_clip hs hcng hclip]
      simp only [clip, hclean]
      rw [if_neg (by omega), if_neg (by omega)]
    · obtain ⟨hnlp, hlevel⟩ : hasFlag c.adaptionMode echoCanUseNlp = true ∧
          i32 (16 * c.lclean.level) < c.ltx.level := by simpa [suppresses] using hs
      simp only [nonLinear, hnlp, hlevel, hcng, hclip, if_true]
      rfl
  · rw [nonLinear_cleanNlp_of_not_suppresses (by simpa using hs), hclean]

structure Cancels (h : List ℤ) (ec : EchoCan) (tx rx : Int16) : Prop where
  next : Converged h (echoCanUpdate ec tx rx).1
  error : ec.errorBg tx rx = 0
  clean : (echoCanUpdate ec tx rx).1.clean = 0
  output : hasFlag ec.adaptionMode echoCanUseCng = false →
    hasFlag ec.adaptionMode echoCanDisable = false → (echoCanUpdate ec tx rx).2 = 0

theorem Converged.cancels {len : ℕ} {h H : List ℤ} {ec : EchoCan} {tx rx : Int16}
    (hconv : Converged h ec) (huse : UsesRegister len H ec tx rx)
    (htaps : Taps16 ec.firTaps16Bg) (hlbgn : 0 ≤ ec.lbgn.level)
    (hrx : ec.rxIn rx = estimate len h H) : Cancels h ec tx rx := by
  have hspec := echoCanUpdate_spec ec tx rx
  have hbg : ec.echoBg tx = estimate len h H := by
    rw [← hconv.background]
    exact huse.background
  have hfg : ec.echoFg tx = estimate len h H := by
    rw [← hconv.foreground]
    exact huse.foreground
  have herror : ec.errorBg tx rx = 0 := by rw [EchoCan.errorBg, hrx, hbg, sub_self]
  have hclean : i16 (ec.rxIn rx - ec.echoFg tx) = 0 := by rw [hrx, hfg, sub_self, i16, wrap_zero]
  have htapsBg := (huse.tapsBg_of_error_zero htaps herror).trans hconv.background
  refine ⟨⟨htapsBg, ?_⟩, herror, hspec.clean.trans hclean, ?_⟩
  · rw [hspec.firTaps16Fg]
    split
    · exact htapsBg
    · exact hconv.foreground
  · intro hcng hdis
    have hmode := ec.transfer_adaptionMode tx rx
    have hzero := EchoCanCore.nonLinear_of_clean_zero
      ((ec.transfer_clean tx rx).trans hclean)
      (by rw [(ec.transfer_frame tx rx).1]; exact hlbgn) (by rw [hmode, hcng])
    rw [echoCanUpdate_eq]
    dsimp only
    rw [EchoCanCore.nonLinear_bypass_output _ (by rw [hmode, hdis]), EchoCanCore.output, hzero]
    rfl

/-- From every reachable state in which both tap arrays are the path of the
line, a far end that speaks alone keeps them so for good, and nothing of it
comes back. -/
theorem convergence_lasts (len : ℕ) (hlen : 2 ≤ len) (mode : BitVec 32) (h : List ℤ)
    (calls more : List Call) (hconv : Converged h (echoCan.run (echoCanCreate len mode) calls))
    (hflush : .flush ∉ more)
    (hline : ∀ pre tx rx, UpdateAt more pre tx rx →
      (echoCan.run (echoCanCreate len mode) (calls ++ pre)).rxIn rx =
        echoOf len h (calls ++ pre) tx) :
    Converged h (echoCan.run (echoCanCreate len mode) (calls ++ more)) ∧
      ∀ pre tx rx, UpdateAt more pre tx rx →
        Cancels h (echoCan.run (echoCanCreate len mode) (calls ++ pre)) tx rx := by
  have hn : 0 < len := by omega
  have hupdate : ∀ pre tx rx, UpdateAt more pre tx rx →
      Converged h (echoCan.run (echoCanCreate len mode) (calls ++ pre)) →
      Cancels h (echoCan.run (echoCanCreate len mode) (calls ++ pre)) tx rx := by
    intro pre tx rx hat hpre
    obtain ⟨r, hr, hwindow⟩ := exists_ring_of_run hn mode (calls ++ pre)
    have hlbgn := (noiseBounded_of_run len mode (calls ++ pre)).lbgn.level_bounds (by norm_num)
    exact hpre.cancels (hr.usesRegister hwindow tx rx) (taps16_of_run hn mode (calls ++ pre))
      hlbgn.1 (hline pre tx rx hat)
  have hrun : ∀ pre, pre <+: more →
      Converged h (echoCan.run (echoCanCreate len mode) (calls ++ pre)) := by
    intro pre
    simp only [Mealy.run_append]
    refine echoCan_run_induction (P := fun pre ec => pre <+: more → Converged h ec) ?_ ?_ ?_ ?_ pre
    · intro _
      exact hconv
    · intro pre tx rx ih hat
      have hpre := ih ((List.prefix_append _ _).trans hat)
      rw [← Mealy.run_append] at hpre ⊢
      exact (hupdate pre tx rx hat hpre).next
    · intro pre _ hpre
      exact absurd (hpre.subset (List.mem_append_right _ List.mem_cons_self)) hflush
    · intro pre c txDc mode' snapshot _ ih hpre
      have hconv' := ih ((List.prefix_append _ _).trans hpre)
      exact ⟨hconv'.background, hconv'.foreground⟩
  refine ⟨hrun more (List.prefix_refl _), ?_⟩
  intro pre tx rx hat
  exact hupdate pre tx rx hat (hrun pre ((List.prefix_append _ _).trans hat))

theorem convergence_lasts_two_taps :
    Cancels [6049, 2143]
      (echoCan.run (echoCanCreate 2 echoCanUseAdaption)
        (List.replicate 14 (.update 16000 4000))) 16000 4000 := by
  have hconv : Converged [6049, 2143] (echoCan.run (echoCanCreate 2 echoCanUseAdaption)
      (List.replicate 14 (.update 16000 4000))) := ⟨by decide +kernel, by decide +kernel⟩
  have hline : ∀ pre tx rx, UpdateAt [.update 16000 4000] pre tx rx →
      (echoCan.run (echoCanCreate 2 echoCanUseAdaption)
          (List.replicate 14 (.update 16000 4000) ++ pre)).rxIn rx =
        echoOf 2 [6049, 2143] (List.replicate 14 (.update 16000 4000) ++ pre) tx := by
    rintro pre tx rx ⟨rest, hrest⟩
    cases pre with
    | cons c pre => simp at hrest
    | nil =>
        simp only [List.nil_append, List.cons_append, List.cons.injEq, Call.update.injEq] at hrest
        obtain ⟨⟨rfl, rfl⟩, -⟩ := hrest
        decide +kernel
  exact (convergence_lasts 2 (by decide) echoCanUseAdaption [6049, 2143]
    (List.replicate 14 (.update 16000 4000)) [.update 16000 4000] hconv (by decide) hline).2 []
    16000 4000 (List.prefix_refl _)

/-! ### The near end breaks in -/

theorem InHangover.firTaps16Fg_run {ec : EchoCan} (h : InHangover 0 ec) {more : List Call}
    (hflush : .flush ∉ more) (hcount : updateCount more ≤ 604) :
    (echoCan.run ec more).firTaps16Fg = ec.firTaps16Fg := by
  revert hflush hcount
  refine echoCan_run_induction (P := fun more ec' => .flush ∉ more → updateCount more ≤ 604 →
    ec'.firTaps16Fg = ec.firTaps16Fg) ?_ ?_ ?_ ?_ more
  · intro _ _
    rfl
  · intro more tx rx ih hflush hcount
    have hpre : .flush ∉ more := fun hmem => hflush (List.mem_append_left _ hmem)
    have hsucc : updateCount (more ++ [.update tx rx]) = updateCount more + 1 := by
      simp [updateCount, Call.tx?]
    have hmet := (h.run hpre).condMet
    rw [firTaps16Fg_of_condMet (by omega)]
    exact ih hpre (by omega)
  · intro more _ hflush _
    exact absurd (List.mem_append_right _ List.mem_cons_self) hflush
  · intro more c txDc mode snapshot hc ih hflush hcount
    have hsame : updateCount (more ++ [c]) = updateCount more := by
      simp [updateCount, hc.tx?_eq]
    exact ih (fun hmem => hflush (List.mem_append_left _ hmem)) (by omega)

theorem echoCanUpdate_output_of_not_suppresses {ec : EchoCan} {tx rx : Int16}
    (hs : (echoCanUpdate ec tx rx).1.suppresses = false)
    (hdis : hasFlag ec.adaptionMode echoCanDisable = false) :
    (echoCanUpdate ec tx rx).2 =
      Int16.ofInt ((echoCanUpdate ec tx rx).1.clean <<< (1 : ℕ)) := by
  have hmode := ec.transfer_adaptionMode tx rx
  rw [echoCanUpdate_eq] at hs ⊢
  generalize (ec.atTransfer tx rx).transfer = c at hs hmode ⊢
  obtain ⟨hsuppresses, -, hclean⟩ := c.nonLinear_bypass_reads (ec.rxIn rx)
  dsimp only at hs ⊢
  rw [EchoCanCore.nonLinear_bypass_output _ (by rw [hmode, hdis]), EchoCanCore.output,
    EchoCanCore.nonLinear_cleanNlp_of_not_suppresses (hsuppresses.symm.trans hs), hclean]

/-- Once the detector has noticed the near end, and for the 604 updates of its
hangover, the residual is the near end alone, whatever it says and whatever the
taps are: what the foreground filter took for the echo when the near end broke
in, it still takes off. -/
theorem double_talk_passes (len : ℕ) (hlen : 2 ≤ len) (mode : BitVec 32)
    (calls more : List Call) (tx rx : Int16)
    (hdetect : doubleTalk (echoCan.run (echoCanCreate len mode) (calls ++ [.update tx rx])))
    (hflush : .flush ∉ more) (hcount : updateCount more < 604) (tx' rx' : Int16) :
    let ec := echoCan.run (echoCanCreate len mode) (calls ++ [.update tx rx] ++ more)
    (echoCanUpdate ec tx' rx').1.firTaps16Fg =
        (echoCan.run (echoCanCreate len mode) calls).firTaps16Fg ∧
      ∀ near, Fits 15 near →
        ec.rxIn rx' = echoOf len (echoCan.run (echoCanCreate len mode) calls).firTaps16Fg
          (calls ++ [.update tx rx] ++ more) tx' + near →
        (echoCanUpdate ec tx' rx').1.clean = near ∧
          ((echoCanUpdate ec tx' rx').1.suppresses = false →
            hasFlag ec.adaptionMode echoCanDisable = false →
            (echoCanUpdate ec tx' rx').2.toInt = 2 * near) := by
  intro ec
  have hn : 0 < len := by omega
  have hcounters := countersBounded_of_run len mode calls
  rw [Mealy.run_concat] at hdetect
  obtain ⟨hwindow, hrest⟩ := hcounters.inHangover hdetect
  have hrun : ec = echoCan.run
      (echoCanUpdate (echoCan.run (echoCanCreate len mode) calls) tx rx).1 more := by
    simp only [ec, Mealy.run_append]
    rfl
  have hmet : ec.condMet < 6 := by
    rw [hrun]
    have hstreak := (hwindow.run hflush).condMet
    omega
  have hfg : ec.firTaps16Fg = (echoCan.run (echoCanCreate len mode) calls).firTaps16Fg := by
    rw [hrun, hwindow.firTaps16Fg_run hflush hcount.le, hrest]
  obtain ⟨r, hr, hwindow'⟩ := exists_ring_of_run hn mode (calls ++ [.update tx rx] ++ more)
  have hecho : ec.echoFg tx' = echoOf len ec.firTaps16Fg (calls ++ [.update tx rx] ++ more) tx' :=
    (hr.usesRegister hwindow' tx' rx').foreground
  refine ⟨(firTaps16Fg_of_condMet hmet tx' rx').trans hfg, fun near hnear hrx => ?_⟩
  obtain ⟨hlo, hhi⟩ := hnear
  norm_num at hlo hhi
  have hclean : (echoCanUpdate ec tx' rx').1.clean = near := by
    rw [(echoCanUpdate_spec ec tx' rx').clean, hrx, hecho, hfg, add_sub_cancel_left]
    exact i16_of_bounds (by omega) (by omega)
  refine ⟨hclean, ?_⟩
  intro hs hdis
  rw [echoCanUpdate_output_of_not_suppresses hs hdis, hclean, toInt_double hlo (by omega)]

/-- A loud near end over a silent far end, and after it over a loud one: the
taps are still empty, and the near end comes through with its lowest bit off. -/
theorem double_talk_passes_first_sample :
    (echoCanUpdate (echoCan.run (echoCanCreate 2 0#32) [.update 0 32766, .adaptionMode 1#32])
      1000 (-7)).1.clean = -4 := by
  have hdetect : doubleTalk (echoCan.run (echoCanCreate 2 0#32) [.update 0 32766]) := by
    decide +kernel
  exact ((double_talk_passes 2 (by decide) 0#32 [] [.adaptionMode 1#32] 0 32766 hdetect (by decide)
    (by decide) 1000 (-7)).2 (-4) (by decide) (by decide +kernel)).1

end Oslec
