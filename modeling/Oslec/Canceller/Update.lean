import Oslec.Canceller.EchoCan

/-!
What one call of `echo_can_update` does, field by field. The values that the
update computes on the way are functions of the state it starts from; every
later module reasons from `echoCanUpdate_spec` and never opens the update again.
-/

namespace Oslec

open TwosComplement

/-! ### The sections that end in a branch, with the branch inside the fields -/

namespace EchoCanCore

theorem adaptBackground_eq (c : EchoCanCore) (lms : ℤ → List ℤ) :
    c.adaptBackground lms =
      { c with
        factor := 0
        shift := if c.nonupdateDwell = 0 then i16 c.adaptShift else 0
        firTaps16Bg := if c.nonupdateDwell = 0 then lms c.adaptShift else c.firTaps16Bg } := by
  by_cases h : c.nonupdateDwell = 0
  · simp only [adaptBackground, h, if_true]
    rfl
  · simp only [adaptBackground, h, if_false]

theorem transfer_eq (c : EchoCanCore) :
    c.transfer =
      { c with
        adapt := if c.transferQualifies ∧ c.condMet = 6 then 1 else c.adapt
        condMet := if c.transferQualifies then
          (if c.condMet = 6 then c.condMet else c.condMet + 1) else 0
        firTaps16Fg := if c.transferQualifies ∧ c.condMet = 6 then c.firTaps16Bg
          else c.firTaps16Fg } := by
  by_cases hq : c.transferQualifies
  · by_cases h6 : c.condMet = 6
    · simp only [transfer, hq, h6, if_true, and_self]
    · simp only [transfer, hq, h6, if_true, if_false, and_false]
  · simp only [transfer, hq]
    rfl

/-- The non-linear processor leaves everything but its own fields alone. -/
theorem nonLinear_frame (c : EchoCanCore) :
    c.nonLinear =
      { c with
        cleanNlp := c.nonLinear.cleanNlp
        lbgn := c.nonLinear.lbgn
        cngLevel := c.nonLinear.cngLevel
        cngRndnum := c.nonLinear.cngRndnum
        cngFilter := c.nonLinear.cngFilter } := by
  simp only [nonLinear]
  split
  · split
    · split
      · rfl
      · split <;> rfl
    · split <;> rfl
  · rfl

theorem nonLinear_cleanNlp_of_not_nlp {c : EchoCanCore}
    (h : hasFlag c.adaptionMode echoCanUseNlp = false) : c.nonLinear.cleanNlp = c.clean := by
  simp [nonLinear, h]

end EchoCanCore

/-! ### Values computed on the way -/

/-- The halved transmit sample. -/
def txIn (tx : Int16) : ℤ := tx.toInt >>> (1 : ℕ)

namespace EchoCan

/-- The halved and, where selected, high passed receive sample. -/
def rxIn (ec : EchoCan) (rx : Int16) : ℤ := (ec.highPassRx (rx.toInt >>> (1 : ℕ))).2

def rxDcNext (ec : EchoCan) (rx : Int16) : DcFilter :=
  (ec.highPassRx (rx.toInt >>> (1 : ℕ))).1.rxDc

/-- The sample that the next one will overwrite. -/
def oldest (ec : EchoCan) : ℤ := ec.firState.history.getD ec.firState.currPos.toNat 0

def pstatesNext (ec : EchoCan) (tx : Int16) : ℤ :=
  (ec.averagePower (txIn tx) ec.oldest).pstates

def echoFg (ec : EchoCan) (tx : Int16) : ℤ := (fir16 ec.firState ec.firTaps16Fg (txIn tx)).2

def echoBg (ec : EchoCan) (tx : Int16) : ℤ := (fir16 ec.firStateBg ec.firTaps16Bg (txIn tx)).2

/-- `clean_bg`, the error that drives the adaption. -/
def errorBg (ec : EchoCan) (tx rx : Int16) : ℤ := ec.rxIn rx - ec.echoBg tx

def shiftNext (ec : EchoCan) (tx : Int16) : ℤ :=
  EchoCanCore.adaptShift { ec.toEchoCanCore with pstates := ec.pstatesNext tx }

def tapsBgNext (ec : EchoCan) (tx rx : Int16) : List ℤ :=
  if ec.nonupdateDwell = 0 then
    lmsAdaptBg ec.taps ec.currPos (fir16 ec.firStateBg ec.firTaps16Bg (txIn tx)).1.history
      ec.firTaps16Bg (ec.errorBg tx rx) (ec.shiftNext tx)
  else ec.firTaps16Bg

/-- The core as the transfer logic finds it. -/
def atTransfer (ec : EchoCan) (tx rx : Int16) : EchoCanCore :=
  EchoCanCore.detectDoubleTalk
    { ec.toEchoCanCore with
      tx := tx.toInt
      rx := rx.toInt
      rxDc := ec.rxDcNext rx
      pstates := ec.pstatesNext tx
      ltx := ec.ltx.average 5 (txIn tx).natAbs
      lrx := ec.lrx.average 5 (ec.rxIn rx).natAbs
      clean := i16 (ec.rxIn rx - ec.echoFg tx)
      lclean := ec.lclean.average 5 (i16 (ec.rxIn rx - ec.echoFg tx)).natAbs
      lcleanBg := ec.lcleanBg.average 5 (ec.errorBg tx rx).natAbs
      factor := 0
      shift := if ec.nonupdateDwell = 0 then i16 (ec.shiftNext tx) else 0
      firTaps16Bg := ec.tapsBgNext tx rx }

/-- The transfer condition of this update. -/
def qualifies (ec : EchoCan) (tx rx : Int16) : Bool := (ec.atTransfer tx rx).transferQualifies

end EchoCan

/-- The update as a pipeline whose first part is a plain record. -/
theorem echoCanUpdate_eq (ec : EchoCan) (tx rx : Int16) :
    echoCanUpdate ec tx rx =
      let c := ((ec.atTransfer tx rx).transfer.nonLinear).bypass (ec.rxIn rx)
      ({ toEchoCanCore := c
         firState := (fir16 ec.firState ec.firTaps16Fg (txIn tx)).1
         firStateBg := (fir16 ec.firStateBg ec.firTaps16Bg (txIn tx)).1
         currPos := rollPos ec.taps ec.currPos }, c.output) := by
  simp only [echoCanUpdate, EchoCanCore.adaptBackground_eq]
  rfl

/-! ### The specification -/

/-- How the state after an update depends on the state before it. -/
structure UpdateSpec (ec : EchoCan) (tx rx : Int16) (ec' : EchoCan) : Prop where
  taps : ec'.taps = ec.taps
  log2taps : ec'.log2taps = ec.log2taps
  adaptionMode : ec'.adaptionMode = ec.adaptionMode
  txDc : ec'.txDc = ec.txDc
  rxDc : ec'.rxDc = ec.rxDcNext rx
  snapshot : ec'.snapshot = ec.snapshot
  lbgnUpper : ec'.lbgnUpper = ec.lbgnUpper
  pstates : ec'.pstates = ec.pstatesNext tx
  ltx : ec'.ltx = ec.ltx.average 5 (txIn tx).natAbs
  lrx : ec'.lrx = ec.lrx.average 5 (ec.rxIn rx).natAbs
  clean : ec'.clean = i16 (ec.rxIn rx - ec.echoFg tx)
  lclean : ec'.lclean = ec.lclean.average 5 (i16 (ec.rxIn rx - ec.echoFg tx)).natAbs
  lcleanBg : ec'.lcleanBg = ec.lcleanBg.average 5 (ec.errorBg tx rx).natAbs
  firState : ec'.firState = (fir16 ec.firState ec.firTaps16Fg (txIn tx)).1
  firStateBg : ec'.firStateBg = (fir16 ec.firStateBg ec.firTaps16Bg (txIn tx)).1
  currPos : ec'.currPos = rollPos ec.taps ec.currPos
  firTaps16Bg : ec'.firTaps16Bg = ec.tapsBgNext tx rx
  nonupdateDwell : ec'.nonupdateDwell = (ec.atTransfer tx rx).nonupdateDwell
  adapt : ec'.adapt = if ec.qualifies tx rx ∧ ec.condMet = 6 then 1 else 0
  condMet : ec'.condMet =
    if ec.qualifies tx rx then (if ec.condMet = 6 then ec.condMet else ec.condMet + 1) else 0
  firTaps16Fg : ec'.firTaps16Fg =
    if ec.qualifies tx rx ∧ ec.condMet = 6 then ec'.firTaps16Bg else ec.firTaps16Fg
  /-- The condition can be read off the state the update leaves. -/
  qualifies : ec'.transferQualifies = ec.qualifies tx rx

theorem EchoCan.transfer_adaptionMode (ec : EchoCan) (tx rx : Int16) :
    (ec.atTransfer tx rx).transfer.adaptionMode = ec.adaptionMode := by
  rw [EchoCanCore.transfer_eq]
  rfl

theorem EchoCan.transfer_clean (ec : EchoCan) (tx rx : Int16) :
    (ec.atTransfer tx rx).transfer.clean = i16 (ec.rxIn rx - ec.echoFg tx) := by
  rw [EchoCanCore.transfer_eq]
  rfl

theorem echoCanUpdate_spec (ec : EchoCan) (tx rx : Int16) :
    UpdateSpec ec tx rx (echoCanUpdate ec tx rx).1 := by
  rw [echoCanUpdate_eq, EchoCanCore.nonLinear_frame, EchoCanCore.transfer_eq]
  constructor <;> rfl

/-- The returned sample when neither the non-linear processor nor the bypass
is selected. -/
theorem echoCanUpdate_output_of_plain {ec : EchoCan} {tx rx : Int16}
    (hnlp : hasFlag ec.adaptionMode echoCanUseNlp = false)
    (hdis : hasFlag ec.adaptionMode echoCanDisable = false) :
    (echoCanUpdate ec tx rx).2 =
      Int16.ofInt (i16 (ec.rxIn rx - ec.echoFg tx) <<< (1 : ℕ)) := by
  have hmode : (ec.atTransfer tx rx).transfer.nonLinear.adaptionMode = ec.adaptionMode := by
    rw [EchoCanCore.nonLinear_frame]
    exact ec.transfer_adaptionMode tx rx
  have hnlp' : hasFlag (ec.atTransfer tx rx).transfer.adaptionMode echoCanUseNlp = false := by
    rw [ec.transfer_adaptionMode, hnlp]
  rw [echoCanUpdate_eq]
  simp only [EchoCanCore.output, EchoCanCore.bypass, hmode, hdis]
  rw [if_neg (by simp), EchoCanCore.nonLinear_cleanNlp_of_not_nlp hnlp', ec.transfer_clean]

end Oslec
