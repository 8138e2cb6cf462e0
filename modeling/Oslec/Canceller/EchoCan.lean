import Oslec.Canceller.Fir16

/-!
The dual path echo canceller of `echo.c`: its state, and the functions of its
interface. `EchoCanCore` holds every field of `echo_can_state_t` that is not
part of the ring of filter states; the sections of `echo_can_update` that do not
touch the ring are functions on it, and they appear below in source order.
Fields that nothing reads (`xvtx`, `yvtx`, `xvrx`, `yvrx`) are left out.
-/

namespace Oslec

open TwosComplement

/-! ### Mode bits and constants -/

def echoCanUseAdaption : BitVec 32 := 0x01#32
def echoCanUseNlp : BitVec 32 := 0x02#32
def echoCanUseCng : BitVec 32 := 0x04#32
def echoCanUseClip : BitVec 32 := 0x08#32
def echoCanUseTxHpf : BitVec 32 := 0x10#32
def echoCanUseRxHpf : BitVec 32 := 0x20#32
def echoCanDisable : BitVec 32 := 0x40#32

/-- `mode & flag` as a C condition. -/
def hasFlag (mode flag : BitVec 32) : Bool := mode &&& flag != 0#32

def minTxPowerForAdaption : ℤ := 64
def minRxPowerForAdaption : ℤ := 64
def dtdHangover : ℤ := 600
def dcLog2Beta : ℕ := 3

/-! ### Level trackers and DC blocking filters -/

/-- An average level with its accumulator, as in `Ltx` and `Ltxacc`. -/
structure Level where
  acc : ℤ
  level : ℤ
deriving DecidableEq

/-- `acc += a - level; level = (acc + (1 << (k - 1))) >> k`. -/
def Level.average (k : ℕ) (l : Level) (a : ℤ) : Level :=
  let acc := i32 (l.acc + (a - l.level))
  { acc := acc, level := i32 (acc + (1 : ℤ) <<< (k - 1)) >>> k }

/-- The state of a DC blocking filter: `tx_1`, `tx_2` or `rx_1`, `rx_2`. -/
structure DcFilter where
  z1 : ℤ
  z2 : ℤ
deriving DecidableEq

/-- One step of the high pass filter shared by the rx and the tx side, hard
limited to `±limit`. -/
def DcFilter.filter (limit : ℤ) (f : DcFilter) (x : ℤ) : DcFilter × ℤ :=
  let tmp := i32 (x <<< (15 : ℕ))
  let tmp := i32 (tmp - tmp >>> (4 : ℕ))
  let z1 := i32 (f.z1 + (-(f.z1 >>> dcLog2Beta) + tmp - f.z2))
  let tmp1 := z1 >>> (15 : ℕ)
  let tmp1 := if tmp1 > limit then limit else tmp1
  let tmp1 := if tmp1 < -limit then -limit else tmp1
  ({ z1 := z1, z2 := tmp }, i16 tmp1)

/-! ### State -/

structure EchoCanCore where
  tx : ℤ
  rx : ℤ
  clean : ℤ
  cleanNlp : ℤ
  nonupdateDwell : ℤ
  taps : ℕ
  log2taps : ℤ
  adaptionMode : BitVec 32
  condMet : ℤ
  pstates : ℤ
  adapt : ℤ
  factor : ℤ
  shift : ℤ
  ltx : Level
  lrx : Level
  lclean : Level
  lcleanBg : Level
  lbgn : Level
  lbgnUpper : Level
  firTaps16Fg : List ℤ
  firTaps16Bg : List ℤ
  txDc : DcFilter
  rxDc : DcFilter
  cngLevel : ℤ
  cngRndnum : ℤ
  cngFilter : ℤ
  snapshot : List ℤ
deriving DecidableEq

/-- `echo_can_state_t`: the core together with the two filter states and the
position that `lms_adapt_bg` reads. -/
structure EchoCan extends EchoCanCore where
  firState : Fir16State
  firStateBg : Fir16State
  currPos : ℤ
deriving DecidableEq

/-- The core as `echo_can_create` leaves it when every allocation succeeds. -/
def EchoCanCore.create (len : ℕ) (adaptionMode : BitVec 32) : EchoCanCore where
  tx := 0
  rx := 0
  clean := 0
  cleanNlp := 0
  nonupdateDwell := 0
  taps := len
  log2taps := topBit (BitVec.ofNat 32 len)
  adaptionMode := adaptionMode
  condMet := 0
  pstates := 0
  adapt := 0
  factor := 0
  shift := 0
  ltx := ⟨0, 0⟩
  lrx := ⟨0, 0⟩
  lclean := ⟨0, 0⟩
  lcleanBg := ⟨0, 0⟩
  lbgn := ⟨0, 0⟩
  lbgnUpper := ⟨(200 : ℤ) <<< (13 : ℕ), 200⟩
  firTaps16Fg := List.replicate len 0
  firTaps16Bg := List.replicate len 0
  txDc := ⟨0, 0⟩
  rxDc := ⟨0, 0⟩
  cngLevel := 1000
  cngRndnum := 0
  cngFilter := 0
  snapshot := List.replicate len 0

def echoCanCreate (len : ℕ) (adaptionMode : BitVec 32) : EchoCan where
  toEchoCanCore := EchoCanCore.create len adaptionMode
  firState := fir16Create len
  firStateBg := fir16Create len
  currPos := len - 1

def echoCanAdaptionMode (ec : EchoCan) (adaptionMode : BitVec 32) : EchoCan :=
  { ec with adaptionMode := adaptionMode }

def echoCanSnapshot (ec : EchoCan) : EchoCan :=
  { ec with snapshot := ec.firTaps16Fg }

/-! ### Flush -/

/-- The statements of `echo_can_flush`, the loop over the tap arrays unrolled. -/
inductive FlushStmt
  | levelAccs | levels | dcFilters | lbgn | lbgnUpper | lbgnUpperAcc | nonupdateDwell
  | firFlush | firFlushBg | firPos | firPosBg | firTaps | firTapsBg | currPos | pstates
deriving DecidableEq

def FlushStmt.exec (ec : EchoCan) : FlushStmt → EchoCan
  | .levelAccs =>
      { ec with
        ltx := { ec.ltx with acc := 0 }
        lrx := { ec.lrx with acc := 0 }
        lclean := { ec.lclean with acc := 0 }
        lcleanBg := { ec.lcleanBg with acc := 0 } }
  | .levels =>
      { ec with
        ltx := { ec.ltx with level := 0 }
        lrx := { ec.lrx with level := 0 }
        lclean := { ec.lclean with level := 0 }
        lcleanBg := { ec.lcleanBg with level := 0 } }
  | .dcFilters => { ec with txDc := ⟨0, 0⟩, rxDc := ⟨0, 0⟩ }
  | .lbgn => { ec with lbgn := ⟨0, 0⟩ }
  | .lbgnUpper => { ec with lbgnUpper := { ec.lbgnUpper with level := 200 } }
  | .lbgnUpperAcc =>
      { ec with lbgnUpper := { ec.lbgnUpper with acc := ec.lbgnUpper.level <<< (13 : ℕ) } }
  | .nonupdateDwell => { ec with nonupdateDwell := 0 }
  | .firFlush => { ec with firState := fir16Flush ec.firState }
  | .firFlushBg => { ec with firStateBg := fir16Flush ec.firStateBg }
  | .firPos => { ec with firState := { ec.firState with currPos := ec.taps - 1 } }
  | .firPosBg => { ec with firStateBg := { ec.firStateBg with currPos := ec.taps - 1 } }
  | .firTaps => { ec with firTaps16Fg := List.replicate ec.taps 0 }
  | .firTapsBg => { ec with firTaps16Bg := List.replicate ec.taps 0 }
  | .currPos => { ec with currPos := ec.taps - 1 }
  | .pstates => { ec with pstates := 0 }

/-- The body of `echo_can_flush`, in source order. -/
def flushBody : List FlushStmt :=
  [.levelAccs, .levels, .dcFilters, .lbgn, .lbgnUpper, .lbgnUpperAcc, .nonupdateDwell,
    .firFlush, .firFlushBg, .firPos, .firPosBg, .firTaps, .firTapsBg, .currPos, .pstates]

def echoCanFlush (ec : EchoCan) : EchoCan := flushBody.foldl FlushStmt.exec ec

/-! ### Sections of `echo_can_update` -/

namespace EchoCanCore

/-- Filter DC out of the received sample. -/
def highPassRx (c : EchoCanCore) (rx : ℤ) : EchoCanCore × ℤ :=
  let f := if hasFlag c.adaptionMode echoCanUseRxHpf then c.rxDc.filter 16383 rx else (c.rxDc, rx)
  ({ c with rxDc := f.1 }, f.2)

/-- Block average of power in the filter states. -/
def averagePower (c : EchoCanCore) (tx old : ℤ) : EchoCanCore :=
  let new := tx * tx
  let old := old * old
  let pstates :=
    i32 (c.pstates + (new - old + (1 : ℤ) <<< (c.log2taps - 1).toNat) >>> c.log2taps.toNat)
  { c with pstates := if pstates < 0 then 0 else pstates }

/-- Short term average levels of the two inputs. -/
def averageLevels (c : EchoCanCore) (tx rx : ℤ) : EchoCanCore :=
  { c with ltx := c.ltx.average 5 tx.natAbs, lrx := c.lrx.average 5 rx.natAbs }

/-- Foreground filter: `clean` and its level. -/
def foreground (c : EchoCanCore) (rx echoValue : ℤ) : EchoCanCore :=
  let clean := i16 (rx - echoValue)
  { c with clean := clean, lclean := c.lclean.average 5 clean.natAbs }

/-- Background filter: the level of `clean_bg`. -/
def background (c : EchoCanCore) (cleanBg : ℤ) : EchoCanCore :=
  { c with lcleanBg := c.lcleanBg.average 5 cleanBg.natAbs }

/-- `shift = 30 - 2 - (top_bit(P) + log2taps)`. -/
def adaptShift (c : EchoCanCore) : ℤ :=
  let p := i32 (minTxPowerForAdaption + c.pstates)
  let logP := topBit (BitVec.ofInt 32 p) + c.log2taps
  30 - 2 - logP

/-- Background filter adaption. The caller passes `lms_adapt_bg` applied to all
its arguments but the shift. -/
def adaptBackground (c : EchoCanCore) (lms : ℤ → List ℤ) : EchoCanCore :=
  let c := { c with factor := 0, shift := 0 }
  if c.nonupdateDwell = 0 then
    { c with shift := i16 c.adaptShift, firTaps16Bg := lms c.adaptShift }
  else c

/-- The double talk detector. -/
def detectDoubleTalk (c : EchoCanCore) : EchoCanCore :=
  let dwell :=
    if c.lrx.level > minRxPowerForAdaption ∧ c.lrx.level > c.ltx.level then dtdHangover
    else c.nonupdateDwell
  { c with adapt := 0, nonupdateDwell := if dwell ≠ 0 then dwell - 1 else dwell }

/-- The condition of the transfer logic. -/
def transferQualifies (c : EchoCanCore) : Bool :=
  hasFlag c.adaptionMode echoCanUseAdaption && decide (c.nonupdateDwell = 0) &&
    decide (i32 (8 * c.lcleanBg.level) < i32 (7 * c.lclean.level)) &&
    decide (i32 (8 * c.lcleanBg.level) < c.ltx.level)

/-- Transfer logic: copy the background taps once the condition has been met
for long enough. -/
def transfer (c : EchoCanCore) : EchoCanCore :=
  if c.transferQualifies then
    if c.condMet = 6 then { c with adapt := 1, firTaps16Fg := c.firTaps16Bg }
    else { c with condMet := c.condMet + 1 }
  else { c with condMet := 0 }

/-- Comfort noise in place of the residual. -/
def comfortNoise (c : EchoCanCore) : EchoCanCore :=
  let rndnum := i32 (1664525 * c.cngRndnum + 1013904223)
  let filter := i32 (rndnum % 65536 - 32768 + 5 * c.cngFilter) >>> (3 : ℕ)
  { c with
    cngLevel := c.lbgn.level
    cngRndnum := rndnum
    cngFilter := filter
    cleanNlp := i16 (i32 (filter * c.lbgn.level * 8) >>> (14 : ℕ)) }

/-- Clip the residual to the background noise level. -/
def clip (c : EchoCanCore) : EchoCanCore :=
  let nlp := if c.cleanNlp > c.lbgn.level then i16 c.lbgn.level else c.cleanNlp
  { c with cleanNlp := if nlp < -c.lbgn.level then i16 (-c.lbgn.level) else nlp }

/-- Non-linear processing. -/
def nonLinear (c : EchoCanCore) : EchoCanCore :=
  let c := { c with cleanNlp := c.clean }
  if hasFlag c.adaptionMode echoCanUseNlp then
    if i32 (16 * c.lclean.level) < c.ltx.level then
      if hasFlag c.adaptionMode echoCanUseCng then c.comfortNoise
      else if hasFlag c.adaptionMode echoCanUseClip then c.clip
      else { c with cleanNlp := 0 }
    else if c.lclean.level < 40 then { c with lbgn := c.lbgn.average 12 c.clean.natAbs }
    else c
  else c

/-- `ECHO_CAN_DISABLE` passes the received sample through. -/
def bypass (c : EchoCanCore) (rx : ℤ) : EchoCanCore :=
  { c with cleanNlp := if hasFlag c.adaptionMode echoCanDisable then rx else c.cleanNlp }

/-- `return (int16_t) ec->clean_nlp << 1;` -/
def output (c : EchoCanCore) : Int16 := Int16.ofInt (c.cleanNlp <<< (1 : ℕ))

end EchoCanCore

/-! ### Processing a sample -/

def echoCanUpdate (ec : EchoCan) (tx rx : Int16) : EchoCan × Int16 :=
  let c := { ec.toEchoCanCore with tx := tx.toInt, rx := rx.toInt }
  -- input scaling
  let tx := tx.toInt >>> (1 : ℕ)
  let rx := rx.toInt >>> (1 : ℕ)
  let hpf := c.highPassRx rx
  let rx := hpf.2
  -- `fir_state.curr_pos` still names the oldest sample here
  let old := ec.firState.history.getD ec.firState.currPos.toNat 0
  let c := (hpf.1.averagePower tx old).averageLevels tx rx
  let fg := fir16 ec.firState ec.firTaps16Fg tx
  let c := c.foreground rx fg.2
  let bg := fir16 ec.firStateBg ec.firTaps16Bg tx
  let cleanBg := rx - bg.2
  let c := c.background cleanBg
  -- both filters have moved their positions on, `curr_pos` has not
  let c := c.adaptBackground fun shift =>
    lmsAdaptBg ec.taps ec.currPos bg.1.history ec.firTaps16Bg cleanBg shift
  let c := (c.detectDoubleTalk.transfer.nonLinear).bypass rx
  ({ toEchoCanCore := c, firState := fg.1, firStateBg := bg.1,
     currPos := rollPos ec.taps ec.currPos }, c.output)

def echoCanHpfTx (ec : EchoCan) (tx : Int16) : EchoCan × Int16 :=
  if hasFlag ec.adaptionMode echoCanUseTxHpf then
    let f := ec.txDc.filter 32767 tx.toInt
    ({ ec with txDc := f.1 }, Int16.ofInt f.2)
  else (ec, tx)

end Oslec
