import Oslec.Canceller.Calls

/-!
The hangover of the double talk detector. A detection sets the dwell counter
after the background filter has adapted and before the counter is decremented,
and the transfer logic then needs six updates at dwell zero before the seventh
can copy: 599 updates without adaption, 604 without a transfer.
-/

namespace Oslec

/-- The far end is beaten by a near end of some power. -/
def doubleTalk (ec : EchoCan) : Prop :=
  minRxPowerForAdaption < ec.lrx.level ∧ ec.ltx.level < ec.lrx.level

instance (ec : EchoCan) : Decidable (doubleTalk ec) := inferInstanceAs (Decidable (_ ∧ _))

theorem nonupdateDwell_update (ec : EchoCan) (tx rx : Int16) :
    (echoCanUpdate ec tx rx).1.nonupdateDwell =
      if doubleTalk (echoCanUpdate ec tx rx).1 then 599
      else if ec.nonupdateDwell ≠ 0 then ec.nonupdateDwell - 1 else 0 := by
  have hspec := echoCanUpdate_spec ec tx rx
  have hdetect : doubleTalk (echoCanUpdate ec tx rx).1 ↔
      minRxPowerForAdaption < (ec.lrx.average 5 (ec.rxIn rx).natAbs).level ∧
        (ec.ltx.average 5 (txIn tx).natAbs).level <
          (ec.lrx.average 5 (ec.rxIn rx).natAbs).level := by
    unfold doubleTalk
    rw [hspec.lrx, hspec.ltx]
  rw [hspec.nonupdateDwell]
  simp only [EchoCan.atTransfer, EchoCanCore.detectDoubleTalk, gt_iff_lt, hdetect]
  split
  · rfl
  · split
    · rfl
    · exact not_not.mp ‹_›

/-- Only an update that ends with the dwell at zero can qualify. -/
theorem nonupdateDwell_of_qualifies {ec : EchoCan} {tx rx : Int16}
    (h : ec.qualifies tx rx = true) : (echoCanUpdate ec tx rx).1.nonupdateDwell = 0 := by
  have hcond : (ec.atTransfer tx rx).transferQualifies = true := h
  simp only [EchoCanCore.transferQualifies, Bool.and_eq_true, decide_eq_true_eq] at hcond
  rw [(echoCanUpdate_spec ec tx rx).nonupdateDwell]
  exact hcond.1.1.2

theorem firTaps16Bg_of_dwell {ec : EchoCan} (h : 0 < ec.nonupdateDwell) (tx rx : Int16) :
    (echoCanUpdate ec tx rx).1.firTaps16Bg = ec.firTaps16Bg := by
  rw [(echoCanUpdate_spec ec tx rx).firTaps16Bg, EchoCan.tapsBgNext, if_neg (by omega)]

theorem firTaps16Fg_of_condMet {ec : EchoCan} (h : ec.condMet < 6) (tx rx : Int16) :
    (echoCanUpdate ec tx rx).1.firTaps16Fg = ec.firTaps16Fg := by
  rw [(echoCanUpdate_spec ec tx rx).firTaps16Fg, if_neg]
  rintro ⟨-, h6⟩
  omega

/-- The two counters of the update stay in range. -/
structure CountersBounded (ec : EchoCan) : Prop where
  dwell : 0 ≤ ec.nonupdateDwell ∧ ec.nonupdateDwell ≤ 599
  condMet : 0 ≤ ec.condMet ∧ ec.condMet ≤ 6

theorem CountersBounded.update {ec : EchoCan} (h : CountersBounded ec) (tx rx : Int16) :
    CountersBounded (echoCanUpdate ec tx rx).1 := by
  obtain ⟨⟨hdwell, hdwell'⟩, ⟨hmet, hmet'⟩⟩ := h
  constructor
  · rw [nonupdateDwell_update]
    split
    · omega
    · split <;> omega
  · rw [(echoCanUpdate_spec ec tx rx).condMet]
    split
    · split <;> omega
    · omega

/-! ### The window -/

def updateCount (calls : List Call) : ℕ := calls.countP (·.tx?.isSome)

/-- The counters `j` updates after a detection. -/
structure InHangover (j : ℕ) (ec : EchoCan) : Prop where
  counters : CountersBounded ec
  dwell : 599 ≤ ec.nonupdateDwell + j
  condMet : ec.condMet = 0 ∨ ec.condMet + 598 ≤ j

theorem InHangover.update {j : ℕ} {ec : EchoCan} (h : InHangover j ec) (tx rx : Int16) :
    InHangover (j + 1) (echoCanUpdate ec tx rx).1 := by
  have hcounters := h.counters.update tx rx
  have hdwell : 599 ≤ (echoCanUpdate ec tx rx).1.nonupdateDwell + (j + 1 : ℕ) := by
    have hold := h.dwell
    rw [nonupdateDwell_update]
    split
    · omega
    · split <;> omega
  refine ⟨hcounters, hdwell, ?_⟩
  rw [(echoCanUpdate_spec ec tx rx).condMet]
  split
  case isTrue hq =>
    -- a qualifying update has found the dwell at zero, so the window is over
    have hzero := nonupdateDwell_of_qualifies hq
    have hold := h.condMet
    right
    split <;> omega
  case isFalse => exact Or.inl rfl

/-- A detection opens the window; it also resets the streak of the transfer logic. -/
theorem CountersBounded.inHangover {ec : EchoCan} (h : CountersBounded ec) {tx rx : Int16}
    (hdetect : doubleTalk (echoCanUpdate ec tx rx).1) :
    InHangover 0 (echoCanUpdate ec tx rx).1 ∧
      (echoCanUpdate ec tx rx).1.firTaps16Fg = ec.firTaps16Fg := by
  have hdwell : (echoCanUpdate ec tx rx).1.nonupdateDwell = 599 := by
    rw [nonupdateDwell_update, if_pos hdetect]
  have hq : ¬ ec.qualifies tx rx = true := by
    intro hq
    have := nonupdateDwell_of_qualifies hq
    omega
  have hspec := echoCanUpdate_spec ec tx rx
  refine ⟨⟨h.update tx rx, by omega, Or.inl ?_⟩, ?_⟩
  · rw [hspec.condMet, if_neg hq]
  · rw [hspec.firTaps16Fg, if_neg]
    exact fun hboth => hq hboth.1

/-- The window counts updates only; every other call but a flush leaves it alone. -/
theorem InHangover.run {ec : EchoCan} (h : InHangover 0 ec) {more : List Call}
    (hmore : .flush ∉ more) : InHangover (updateCount more) (echoCan.run ec more) := by
  revert hmore
  refine echoCan_run_induction (P := fun more ec => .flush ∉ more →
    InHangover (updateCount more) ec) ?_ ?_ ?_ ?_ more
  · intro _
    exact h
  · intro more tx rx ih hmore
    have hcount : updateCount (more ++ [.update tx rx]) = updateCount more + 1 := by
      simp [updateCount, Call.tx?]
    rw [hcount]
    exact (ih fun hmem => hmore (List.mem_append_left _ hmem)).update tx rx
  · intro more _ hmore
    exact absurd (List.mem_append_right _ List.mem_cons_self) hmore
  · intro more c txDc mode snapshot hc ih hmore
    have hcount : updateCount (more ++ [c]) = updateCount more := by
      simp [updateCount, hc.tx?_eq]
    obtain ⟨hcounters, hdwell, hmet⟩ := ih fun hmem => hmore (List.mem_append_left _ hmem)
    rw [hcount]
    exact ⟨⟨hcounters.dwell, hcounters.condMet⟩, hdwell, hmet⟩

theorem countersBounded_of_run (len : ℕ) (mode : BitVec 32) (calls : List Call) :
    CountersBounded (echoCan.run (echoCanCreate len mode) calls) := by
  have hzero : (0 : ℤ) ≤ 0 ∧ (0 : ℤ) ≤ 599 := by norm_num
  refine echoCan_run_induction (P := fun _ ec => CountersBounded ec) ?_ ?_ ?_ ?_ calls
  · exact ⟨hzero, (by norm_num : (0 : ℤ) ≤ 0 ∧ (0 : ℤ) ≤ 6)⟩
  · intro calls tx rx h
    exact h.update tx rx
  · intro calls h
    rw [echoCanFlush_eq]
    exact ⟨hzero, h.condMet⟩
  · intro calls c txDc mode snapshot _ h
    exact ⟨h.dwell, h.condMet⟩

/-- After a detection the background taps rest for 599 updates and the
foreground taps for 604, the one that detects included. -/
theorem double_talk_hangover (len : ℕ) (mode : BitVec 32) (calls : List Call) :
    CountersBounded (echoCan.run (echoCanCreate len mode) calls) ∧
      (∀ tx rx, 0 < (echoCan.run (echoCanCreate len mode) calls).nonupdateDwell →
        (echoCanUpdate (echoCan.run (echoCanCreate len mode) calls) tx rx).1.firTaps16Bg =
          (echoCan.run (echoCanCreate len mode) calls).firTaps16Bg) ∧
      ∀ tx rx, doubleTalk (echoCan.run (echoCanCreate len mode) (calls ++ [.update tx rx])) →
        (echoCan.run (echoCanCreate len mode) (calls ++ [.update tx rx])).firTaps16Fg =
            (echoCan.run (echoCanCreate len mode) calls).firTaps16Fg ∧
          ∀ more, .flush ∉ more → ∀ tx' rx',
            let ec := echoCan.run (echoCanCreate len mode) (calls ++ [.update tx rx] ++ more)
            (updateCount more + 1 ≤ 599 →
                (echoCanUpdate ec tx' rx').1.firTaps16Bg = ec.firTaps16Bg) ∧
              (updateCount more + 1 ≤ 604 →
                (echoCanUpdate ec tx' rx').1.firTaps16Fg = ec.firTaps16Fg) := by
  have hcounters := countersBounded_of_run len mode calls
  refine ⟨hcounters, fun tx rx hdwell => firTaps16Bg_of_dwell hdwell tx rx, ?_⟩
  intro tx rx hdetect
  rw [Mealy.run_concat] at hdetect ⊢
  obtain ⟨hwindow, hfg⟩ := hcounters.inHangover hdetect
  refine ⟨hfg, ?_⟩
  intro more hmore tx' rx'
  rw [Mealy.run_append, Mealy.run_concat]
  have hrest : InHangover (updateCount more) (echoCan.run (echoCan.step
      (echoCan.run (echoCanCreate len mode) calls) (.update tx rx)).1 more) := hwindow.run hmore
  constructor
  · intro hcount
    exact firTaps16Bg_of_dwell (by have := hrest.dwell; omega) tx' rx'
  · intro hcount
    exact firTaps16Fg_of_condMet (by have := hrest.condMet; omega) tx' rx'

/-- A loud near end over a silent far end is detected at once. -/
theorem double_talk_hangover_first_sample :
    doubleTalk (echoCan.run (echoCanCreate 2 0#32) [.update 0 32766]) ∧
      (echoCanUpdate (echoCan.run (echoCanCreate 2 0#32)
          [.update 0 32766, .adaptionMode 1#32]) 1000 (-7)).1.firTaps16Bg =
        (echoCan.run (echoCanCreate 2 0#32) [.update 0 32766, .adaptionMode 1#32]).firTaps16Bg := by
  have hdetect : doubleTalk (echoCan.run (echoCanCreate 2 0#32) [.update 0 32766]) := by
    decide +kernel
  have h := (double_talk_hangover 2 0#32 []).2.2 0 32766 hdetect
  exact ⟨hdetect, (h.2 [.adaptionMode 1#32] (by decide) 1000 (-7)).1 (by decide)⟩

end Oslec
