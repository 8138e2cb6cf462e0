import Oslec.Canceller.Calls

/-!
What can influence what. The background path learns from the samples alone:
of all mode bits only the rx high pass filter reaches it. The foreground path
adds the adaption bit. Nothing of what the non-linear processor, the noise
generator or the bypass make of the residual flows back into either.
-/

namespace Oslec

/-- The two cancellers agree on the background path. -/
structure BackgroundAgrees (s t : EchoCan) : Prop where
  taps : s.taps = t.taps
  log2taps : s.log2taps = t.log2taps
  firTaps16Bg : s.firTaps16Bg = t.firTaps16Bg
  firState : s.firState = t.firState
  firStateBg : s.firStateBg = t.firStateBg
  currPos : s.currPos = t.currPos
  pstates : s.pstates = t.pstates
  ltx : s.ltx = t.ltx
  lrx : s.lrx = t.lrx
  lcleanBg : s.lcleanBg = t.lcleanBg
  nonupdateDwell : s.nonupdateDwell = t.nonupdateDwell
  rxDc : s.rxDc = t.rxDc

/-- The two cancellers agree on the background and on the foreground path. -/
structure ForegroundAgrees (s t : EchoCan) : Prop extends BackgroundAgrees s t where
  firTaps16Fg : s.firTaps16Fg = t.firTaps16Fg
  clean : s.clean = t.clean
  lclean : s.lclean = t.lclean
  condMet : s.condMet = t.condMet
  adapt : s.adapt = t.adapt

/-- A call as an observer of some mode bits sees it. -/
inductive Sighting
  | update (tx rx : Int16) (mode : BitVec 32)
  | flush
deriving DecidableEq

/-- The updates with the mode bits in `mask`, and the flushes. -/
def sighting (mask : BitVec 32) (ec : EchoCan) : Call → Option Sighting
  | .update tx rx => some (.update tx rx (ec.adaptionMode &&& mask))
  | .flush => some .flush
  | _ => none

theorem quiet_of_sighting_eq_none {mask : BitVec 32} {ec : EchoCan} {c : Call}
    (h : sighting mask ec c = none) : c.Quiet := by
  cases c with
  | update tx rx => cases h
  | flush => cases h
  | hpfTx tx => trivial
  | adaptionMode mode => trivial
  | snapshot => trivial

/-- Calls seen alike are two updates with the same samples or two flushes. -/
theorem same_sighting {mask : BitVec 32} {s t : EchoCan} {c d : Call} {o : Sighting}
    (hc : sighting mask s c = some o) (hd : sighting mask t d = some o) :
    (∃ tx rx, c = .update tx rx ∧ d = .update tx rx ∧
        s.adaptionMode &&& mask = t.adaptionMode &&& mask) ∨
      (c = .flush ∧ d = .flush) := by
  cases c with
  | update tx rx =>
      cases hc
      cases d with
      | update tx' rx' =>
          obtain ⟨rfl, rfl, hmode⟩ := Sighting.update.inj (Option.some.inj hd)
          exact .inl ⟨tx', rx', rfl, rfl, hmode.symm⟩
      | _ => cases hd
  | flush =>
      cases hc
      cases d with
      | flush => exact .inr ⟨rfl, rfl⟩
      | _ => cases hd
  | _ => cases hc

/-- Modes that agree on a mask agree on every flag in it. -/
theorem hasFlag_congr {m m' mask flag : BitVec 32} (hmask : mask &&& flag = flag)
    (h : m &&& mask = m' &&& mask) : hasFlag m flag = hasFlag m' flag := by
  have hflag : m &&& flag = m' &&& flag := by
    rw [← hmask, ← BitVec.and_assoc, h, BitVec.and_assoc]
  rw [hasFlag, hasFlag, hflag]

/-! ### One update -/

section

variable {s t : EchoCan}

theorem BackgroundAgrees.rx (h : BackgroundAgrees s t)
    (hmode : hasFlag s.adaptionMode echoCanUseRxHpf = hasFlag t.adaptionMode echoCanUseRxHpf)
    (rx : Int16) : s.rxIn rx = t.rxIn rx ∧ s.rxDcNext rx = t.rxDcNext rx := by
  simp only [EchoCan.rxIn, EchoCan.rxDcNext, EchoCanCore.highPassRx, hmode, h.rxDc, and_self]

theorem BackgroundAgrees.pstatesNext (h : BackgroundAgrees s t) (tx : Int16) :
    s.pstatesNext tx = t.pstatesNext tx := by
  have hold : s.oldest = t.oldest := by rw [EchoCan.oldest, EchoCan.oldest, h.firState]
  unfold EchoCan.pstatesNext EchoCanCore.averagePower
  rw [hold, h.pstates, h.log2taps]

theorem BackgroundAgrees.errorBg (h : BackgroundAgrees s t) {rx : Int16}
    (hrx : s.rxIn rx = t.rxIn rx) (tx : Int16) : s.errorBg tx rx = t.errorBg tx rx := by
  simp only [EchoCan.errorBg, EchoCan.echoBg, hrx, h.firStateBg, h.firTaps16Bg]

theorem BackgroundAgrees.tapsBgNext (h : BackgroundAgrees s t) {rx : Int16}
    (hrx : s.rxIn rx = t.rxIn rx) (tx : Int16) : s.tapsBgNext tx rx = t.tapsBgNext tx rx := by
  have hshift : s.shiftNext tx = t.shiftNext tx := by
    simp only [EchoCan.shiftNext, EchoCanCore.adaptShift, h.pstatesNext, h.log2taps]
  simp only [EchoCan.tapsBgNext, h.errorBg hrx, hshift, h.nonupdateDwell, h.taps, h.currPos,
    h.firStateBg, h.firTaps16Bg]

theorem BackgroundAgrees.update (h : BackgroundAgrees s t)
    (hmode : hasFlag s.adaptionMode echoCanUseRxHpf = hasFlag t.adaptionMode echoCanUseRxHpf)
    (tx rx : Int16) : BackgroundAgrees (echoCanUpdate s tx rx).1 (echoCanUpdate t tx rx).1 := by
  have hs := echoCanUpdate_spec s tx rx
  have ht := echoCanUpdate_spec t tx rx
  obtain ⟨hrx, hdc⟩ := h.rx hmode rx
  have hltx : (echoCanUpdate s tx rx).1.ltx = (echoCanUpdate t tx rx).1.ltx := by
    rw [hs.ltx, ht.ltx, h.ltx]
  have hlrx : (echoCanUpdate s tx rx).1.lrx = (echoCanUpdate t tx rx).1.lrx := by
    rw [hs.lrx, ht.lrx, h.lrx, hrx]
  exact {
    taps := by rw [hs.taps, ht.taps, h.taps]
    log2taps := by rw [hs.log2taps, ht.log2taps, h.log2taps]
    firTaps16Bg := by rw [hs.firTaps16Bg, ht.firTaps16Bg, h.tapsBgNext hrx]
    firState := by
      -- the filter state takes in the sample, whatever the coefficients
      rw [hs.firState, ht.firState, h.firState]
      rfl
    firStateBg := by
      rw [hs.firStateBg, ht.firStateBg, h.firStateBg]
      rfl
    currPos := by rw [hs.currPos, ht.currPos, h.currPos, h.taps]
    pstates := by rw [hs.pstates, ht.pstates, h.pstatesNext]
    ltx := hltx
    lrx := hlrx
    lcleanBg := by rw [hs.lcleanBg, ht.lcleanBg, h.lcleanBg, h.errorBg hrx]
    nonupdateDwell := by
      rw [hs.nonupdateDwell, ht.nonupdateDwell]
      simp only [EchoCan.atTransfer, EchoCanCore.detectDoubleTalk, h.ltx, h.lrx, hrx,
        h.nonupdateDwell]
    rxDc := by rw [hs.rxDc, ht.rxDc, hdc]
  }

theorem ForegroundAgrees.update (h : ForegroundAgrees s t)
    (hhpf : hasFlag s.adaptionMode echoCanUseRxHpf = hasFlag t.adaptionMode echoCanUseRxHpf)
    (hadapt : hasFlag s.adaptionMode echoCanUseAdaption =
      hasFlag t.adaptionMode echoCanUseAdaption) (tx rx : Int16) :
    ForegroundAgrees (echoCanUpdate s tx rx).1 (echoCanUpdate t tx rx).1 := by
  have hs := echoCanUpdate_spec s tx rx
  have ht := echoCanUpdate_spec t tx rx
  have hbg := h.toBackgroundAgrees.update hhpf tx rx
  obtain ⟨hrx, -⟩ := h.toBackgroundAgrees.rx hhpf rx
  have hecho : s.echoFg tx = t.echoFg tx := by
    simp only [EchoCan.echoFg, h.firState, h.firTaps16Fg]
  have hlclean : (echoCanUpdate s tx rx).1.lclean = (echoCanUpdate t tx rx).1.lclean := by
    rw [hs.lclean, ht.lclean, h.lclean, hrx, hecho]
  have hqualifies : s.qualifies tx rx = t.qualifies tx rx := by
    rw [← hs.qualifies, ← ht.qualifies]
    simp only [EchoCanCore.transferQualifies, hs.adaptionMode, ht.adaptionMode, hadapt,
      hbg.nonupdateDwell, hbg.lcleanBg, hbg.ltx, hlclean]
  refine ⟨hbg, ?_, ?_, hlclean, ?_, ?_⟩
  · rw [hs.firTaps16Fg, ht.firTaps16Fg, hqualifies, h.condMet, h.firTaps16Fg, hbg.firTaps16Bg]
  · rw [hs.clean, ht.clean, hrx, hecho]
  · rw [hs.condMet, ht.condMet, hqualifies, h.condMet]
  · rw [hs.adapt, ht.adapt, hqualifies, h.condMet]

theorem BackgroundAgrees.flush (h : BackgroundAgrees s t) :
    BackgroundAgrees (echoCanFlush s) (echoCanFlush t) := by
  rw [echoCanFlush_eq, echoCanFlush_eq]
  constructor <;>
    simp only [EchoCanCore.flush, h.taps, h.log2taps, h.firState, h.firStateBg]

theorem ForegroundAgrees.flush (h : ForegroundAgrees s t) :
    ForegroundAgrees (echoCanFlush s) (echoCanFlush t) := by
  refine ⟨h.toBackgroundAgrees.flush, ?_, ?_, ?_, ?_, ?_⟩ <;>
    rw [echoCanFlush_eq, echoCanFlush_eq]
  · exact congrArg (List.replicate · 0) h.taps
  · exact h.clean
  · rfl
  · exact h.condMet
  · exact h.adapt

end

/-! ### Whole runs -/

theorem backgroundAgrees_unwinds :
    echoCan.Unwinds (sighting echoCanUseRxHpf) BackgroundAgrees := by
  constructor
  · intro s t c h hc
    obtain ⟨txDc, mode, snapshot, hstep⟩ := echoCan_step_quiet s (quiet_of_sighting_eq_none hc)
    rw [hstep]
    exact { h with }
  · intro s t c h hc
    obtain ⟨txDc, mode, snapshot, hstep⟩ := echoCan_step_quiet t (quiet_of_sighting_eq_none hc)
    rw [hstep]
    exact { h with }
  · intro s t c d o h hc hd
    obtain ⟨tx, rx, rfl, rfl, hmode⟩ | ⟨rfl, rfl⟩ := same_sighting hc hd
    · exact h.update (hasFlag_congr (by decide) hmode) tx rx
    · exact h.flush

theorem foregroundAgrees_unwinds :
    echoCan.Unwinds (sighting (echoCanUseRxHpf ||| echoCanUseAdaption)) ForegroundAgrees := by
  constructor
  · intro s t c h hc
    obtain ⟨txDc, mode, snapshot, hstep⟩ := echoCan_step_quiet s (quiet_of_sighting_eq_none hc)
    rw [hstep]
    exact { h with }
  · intro s t c h hc
    obtain ⟨txDc, mode, snapshot, hstep⟩ := echoCan_step_quiet t (quiet_of_sighting_eq_none hc)
    rw [hstep]
    exact { h with }
  · intro s t c d o h hc hd
    obtain ⟨tx, rx, rfl, rfl, hmode⟩ | ⟨rfl, rfl⟩ := same_sighting hc hd
    · exact h.update (hasFlag_congr (by decide) hmode) (hasFlag_congr (by decide) hmode) tx rx
    · exact h.flush

/-- Two runs from creation that see the same samples and flushes, whatever else
they are given, agree on the background path as soon as the rx filter bit
agrees at every update, and on the foreground path as soon as the adaption bit
does too. -/
theorem modes_do_not_reach_learning (len : ℕ) (mode mode' : BitVec 32) (calls calls' : List Call) :
    (echoCan.observed (sighting echoCanUseRxHpf) (echoCanCreate len mode) calls =
        echoCan.observed (sighting echoCanUseRxHpf) (echoCanCreate len mode') calls' →
      BackgroundAgrees (echoCan.run (echoCanCreate len mode) calls)
        (echoCan.run (echoCanCreate len mode') calls')) ∧
      (echoCan.observed (sighting (echoCanUseRxHpf ||| echoCanUseAdaption))
          (echoCanCreate len mode) calls =
        echoCan.observed (sighting (echoCanUseRxHpf ||| echoCanUseAdaption))
          (echoCanCreate len mode') calls' →
      ForegroundAgrees (echoCan.run (echoCanCreate len mode) calls)
        (echoCan.run (echoCanCreate len mode') calls')) := by
  have hbg : BackgroundAgrees (echoCanCreate len mode) (echoCanCreate len mode') := by
    constructor <;> rfl
  exact ⟨fun h => backgroundAgrees_unwinds.run hbg h,
    fun h => foregroundAgrees_unwinds.run ⟨hbg, rfl, rfl, rfl, rfl, rfl⟩ h⟩

/-- One run with every bit but the filter's on and the other with the adaption
bit alone, a high pass and a snapshot call in between. -/
theorem modes_do_not_reach_learning_nlp_on :
    BackgroundAgrees
        (echoCan.run (echoCanCreate 2 0x5F#32)
          [.update 300 20, .hpfTx 9, .snapshot, .update 7 (-5)])
        (echoCan.run (echoCanCreate 2 0x01#32) [.update 300 20, .update 7 (-5)]) ∧
      ForegroundAgrees
        (echoCan.run (echoCanCreate 2 0x5F#32)
          [.update 300 20, .hpfTx 9, .snapshot, .update 7 (-5)])
        (echoCan.run (echoCanCreate 2 0x01#32) [.update 300 20, .update 7 (-5)]) :=
  (modes_do_not_reach_learning 2 0x5F#32 0x01#32
    [.update 300 20, .hpfTx 9, .snapshot, .update 7 (-5)]
    [.update 300 20, .update 7 (-5)]).imp (· (by decide +kernel)) (· (by decide +kernel))

end Oslec
