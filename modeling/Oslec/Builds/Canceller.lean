import Oslec.Builds.Blackfin
import Oslec.Canceller.Calls
import Oslec.Properties.BitScan

/-!
The whole canceller in each of its builds. The preprocessor selects the filter,
with it the layout of the histories, the adaption loop and the bit scan; the copy
in the kernel differs from the library by its bit scan only. The rest of the code
is shared, and all builds are one machine: what a user of the interface sees does
not depend on the build.
-/

namespace Oslec

open TwosComplement PackedLanes

/-! ### What is selected -/

/-- The instructions of the bit scans, and the kernel's `fls`. -/
structure Asm where
  bsrl : BitVec 32 → ℤ → ℤ
  bsfl : BitVec 32 → ℤ → ℤ
  fls : BitVec 32 → ℤ

def Asm.Documented (asm : Asm) : Prop := ScansDocumented asm.bsrl asm.bsfl asm.fls

inductive FirBuild
  | plain
  | simd (b : SimdBuild)
  | blackfin

inductive ScanBuild
  | portable | x86 | kernel

structure Build where
  fir : FirBuild
  scan : ScanBuild

def ScanBuild.topBit (asm : Asm) : ScanBuild → BitVec 32 → ℤ
  | .portable => Oslec.topBit
  | .x86 => topBitX86 asm.bsrl
  | .kernel => topBitFls asm.fls

namespace FirBuild

def fir16Create : FirBuild → ℕ → Fir16State
  | .plain => Oslec.fir16Create
  | _ => fir16CreateDouble

def fir16Flush : FirBuild → Fir16State → Fir16State
  | .plain => Oslec.fir16Flush
  | _ => fir16FlushDouble

def fir16 : FirBuild → Fir16State → List ℤ → ℤ → Option (Fir16State × ℤ)
  | .plain, fir, coeffs, sample => some (Oslec.fir16 fir coeffs sample)
  | .simd b, fir, coeffs, sample => fir16Simd b fir coeffs sample
  | .blackfin, fir, coeffs, sample => fir16Blackfin fir coeffs sample

def lmsAdaptBg : FirBuild → ℕ → ℤ → List ℤ → List ℤ → ℤ → ℤ → List ℤ
  | .blackfin => lmsAdaptBgLinear
  | _ => Oslec.lmsAdaptBg

/-- The loops of the SIMD builds take whole blocks. -/
def Divides : FirBuild → ℕ → Prop
  | .simd b, taps => b.block ∣ taps
  | _, _ => True

end FirBuild

/-! ### The canceller of a build -/

namespace Build

variable (asm : Asm) (b : Build)

def echoCanCreate (len : ℕ) (adaptionMode : BitVec 32) : EchoCan where
  toEchoCanCore := { EchoCanCore.create len adaptionMode with
    log2taps := b.scan.topBit asm (BitVec.ofNat 32 len) }
  firState := b.fir.fir16Create len
  firStateBg := b.fir.fir16Create len
  currPos := len - 1

def execFlush (ec : EchoCan) : FlushStmt → EchoCan
  | .firFlush => { ec with firState := b.fir.fir16Flush ec.firState }
  | .firFlushBg => { ec with firStateBg := b.fir.fir16Flush ec.firStateBg }
  | s => s.exec ec

def echoCanFlush (ec : EchoCan) : EchoCan := flushBody.foldl b.execFlush ec

def adaptShift (c : EchoCanCore) : ℤ :=
  let p := i32 (minTxPowerForAdaption + c.pstates)
  let logP := b.scan.topBit asm (BitVec.ofInt 32 p) + c.log2taps
  30 - 2 - logP

def adaptBackground (c : EchoCanCore) (lms : ℤ → List ℤ) : EchoCanCore :=
  let c := { c with factor := 0, shift := 0 }
  if c.nonupdateDwell = 0 then
    { c with shift := i16 (b.adaptShift asm c), firTaps16Bg := lms (b.adaptShift asm c) }
  else c

/-- `echo_can_update`, or `oslec_update` of the kernel. -/
def echoCanUpdate (ec : EchoCan) (tx rx : Int16) : Option (EchoCan × Int16) :=
  let c := { ec.toEchoCanCore with tx := tx.toInt, rx := rx.toInt }
  let tx := tx.toInt >>> (1 : ℕ)
  let rx := rx.toInt >>> (1 : ℕ)
  let hpf := c.highPassRx rx
  let rx := hpf.2
  let old := ec.firState.history.getD ec.firState.currPos.toNat 0
  let c := (hpf.1.averagePower tx old).averageLevels tx rx
  (b.fir.fir16 ec.firState ec.firTaps16Fg tx).bind fun fg =>
    let c := c.foreground rx fg.2
    (b.fir.fir16 ec.firStateBg ec.firTaps16Bg tx).bind fun bg =>
      let cleanBg := rx - bg.2
      let c := c.background cleanBg
      let c := b.adaptBackground asm c fun shift =>
        b.fir.lmsAdaptBg ec.taps ec.currPos bg.1.history ec.firTaps16Bg cleanBg shift
      let c := (c.detectDoubleTalk.transfer.nonLinear).bypass rx
      some ({ toEchoCanCore := c, firState := fg.1, firStateBg := bg.1,
              currPos := rollPos ec.taps ec.currPos }, c.output)

/-- The canceller of a build as a machine, which stops for good at an access out
of bounds. -/
def echoCan : Mealy (Option EchoCan) Call (Option Int16) where
  step
    | none, _ => (none, none)
    | some ec, .update tx rx =>
        ((b.echoCanUpdate asm ec tx rx).map Prod.fst, (b.echoCanUpdate asm ec tx rx).map Prod.snd)
    | some ec, .hpfTx tx => (some (echoCanHpfTx ec tx).1, some (echoCanHpfTx ec tx).2)
    | some ec, .flush => (some (b.echoCanFlush ec), none)
    | some ec, .adaptionMode mode => (some (echoCanAdaptionMode ec mode), none)
    | some ec, .snapshot => (some (echoCanSnapshot ec), none)

end Build

/-! ### The filter of a build -/

/-- What a filter state of the build holds of a ring. -/
def FirBuild.Holds {n : ℕ} : FirBuild → Fir16State → RingBuffer ℤ n → Prop
  | .plain, fir, r => fir.Holds r
  | _, fir, r => fir.HoldsTwice r

/-- Every build pushes the sample and returns the same dot product. -/
theorem FirBuild.fir16_spec {n : ℕ} {r : RingBuffer ℤ n} (hn : 2 ≤ n) {b : FirBuild}
    (hdvd : b.Divides n) {fir : Fir16State} (h : b.Holds fir r) {coeffs : List ℤ}
    (hc : coeffs.length = n) {sample : ℤ}
    (hexact : b = .blackfin →
      AccumulatorFits (List.zipWith (· * ·) coeffs (r.push sample).window).reverse) :
    ∃ fir', b.fir16 fir coeffs sample =
        some (fir', i16 (i32 (dot n coeffs (r.push sample).window) >>> (15 : ℕ))) ∧
      b.Holds fir' (r.push sample) := by
  cases b with
  | plain =>
      obtain ⟨hholds, hvalue⟩ := Oslec.fir16_spec h coeffs sample
      exact ⟨_, congrArg some (Prod.ext rfl hvalue), hholds⟩
  | simd b => exact fir16Simd_spec hdvd h hc sample
  | blackfin => exact fir16Blackfin_spec hn h hc (hexact rfl)

/-! ### The adaption of a build -/

section

variable {n : ℕ} {r : RingBuffer ℤ n}

/-- The generic loop reads the first half of a doubled history. -/
theorem lmsAdaptBg_append {p : ℕ} (hp : p < n) {cells : List ℤ} (hcells : cells.length = n)
    (firTaps : List ℤ) (clean shift : ℤ) :
    lmsAdaptBg n p (cells ++ cells) firTaps clean shift =
      lmsAdaptBg n p cells firTaps clean shift := by
  rw [lmsAdaptBg, lmsAdaptBg, ringIndices_eq hp, List.foldl_map, List.foldl_map]
  apply List.foldl_ext
  intro t i _
  have hlt : (i + p) % n < cells.length := by
    rw [hcells]
    exact Nat.mod_lt _ (Nat.zero_lt_of_lt hp)
  simp only [Int.toNat_natCast, List.getD_eq_getElem?_getD, List.getElem?_append_left hlt]

theorem FirBuild.lmsAdaptBg_eq {b : FirBuild} {fir fir' : Fir16State} {r' : RingBuffer ℤ n}
    (h : fir.Holds r) (h' : b.Holds fir' r) (hpos : r'.pos < n) {firTaps : List ℤ}
    (hlength : firTaps.length = n) (clean shift : ℤ) :
    b.lmsAdaptBg n r'.pos fir'.history firTaps clean shift =
      Oslec.lmsAdaptBg n r'.pos fir.history firTaps clean shift := by
  cases b with
  | plain =>
      change Oslec.lmsAdaptBg n r'.pos fir'.history firTaps clean shift = _
      rw [h.history, Fir16State.Holds.history h']
  | simd b =>
      change Oslec.lmsAdaptBg n r'.pos fir'.history firTaps clean shift = _
      rw [h.history, Fir16State.HoldsTwice.history h']
      exact lmsAdaptBg_append hpos r.length_cells firTaps clean shift
  | blackfin =>
      change lmsAdaptBgLinear n r'.pos fir'.history firTaps clean shift = _
      rw [h.history, Fir16State.HoldsTwice.history h',
        lmsAdaptBgLinear_eq hpos r.length_cells hlength]
      exact lmsAdaptBg_append hpos r.length_cells firTaps clean shift

/-- The entry at the position is the same in either layout. -/
theorem FirBuild.Holds.oldest {b : FirBuild} {fir fir' : Fir16State} (h : fir.Holds r)
    (h' : b.Holds fir' r) :
    fir'.history.getD fir'.currPos.toNat 0 = fir.history.getD fir.currPos.toNat 0 := by
  have htwice : fir'.HoldsTwice r →
      fir'.history.getD fir'.currPos.toNat 0 = fir.history.getD fir.currPos.toNat 0 := by
    intro h'
    have hlt : r.pos < r.cells.length := by
      rw [r.length_cells]
      exact r.pos_lt
    rw [h'.history, h'.currPos, h.history, h.currPos, Int.toNat_natCast,
      List.getD_eq_getElem?_getD, List.getD_eq_getElem?_getD, List.getElem?_append_left hlt]
  cases b with
  | plain =>
      rw [h.history, h.currPos, Fir16State.Holds.history h', Fir16State.Holds.currPos h']
  | simd b => exact htwice h'
  | blackfin => exact htwice h'

theorem ScanBuild.topBit_eq {asm : Asm} (hasm : asm.Documented) (s : ScanBuild) :
    s.topBit asm = Oslec.topBit := by
  funext bits
  have hagree := topScansAgree hasm bits
  cases s with
  | portable => rfl
  | x86 => exact hagree.x86.symm
  | kernel => exact hagree.fls.symm

theorem Build.adaptBackground_eq {asm : Asm} (hasm : asm.Documented) (b : Build)
    (c : EchoCanCore) (lms : ℤ → List ℤ) :
    b.adaptBackground asm c lms = c.adaptBackground lms := by
  have hshift : b.adaptShift asm = EchoCanCore.adaptShift := by
    funext c
    rw [adaptShift, b.scan.topBit_eq hasm]
    rfl
  rw [adaptBackground, hshift]
  rfl

end

/-! ### One call -/

/-- The state of a build stands for that of the plain canceller. -/
structure Build.Stands {n : ℕ} (b : Build) (ec ec' : EchoCan) (r : RingBuffer ℤ n) : Prop where
  represents : ec.Represents r
  core : ec'.toEchoCanCore = ec.toEchoCanCore
  currPos : ec'.currPos = ec.currPos
  fir : b.fir.Holds ec'.firState r
  firBg : b.fir.Holds ec'.firStateBg r

/-- The core after an update, from the oldest sample, what the two filters return
and what the adaption makes of the taps. -/
def EchoCanCore.updateWith (c : EchoCanCore) (tx rx : Int16) (old fg bg : ℤ)
    (lms : ℤ → ℤ → List ℤ) : EchoCanCore :=
  let c := { c with tx := tx.toInt, rx := rx.toInt }
  let tx := tx.toInt >>> (1 : ℕ)
  let rx := rx.toInt >>> (1 : ℕ)
  let hpf := c.highPassRx rx
  let rx := hpf.2
  let c := (hpf.1.averagePower tx old).averageLevels tx rx
  let c := c.foreground rx fg
  let cleanBg := rx - bg
  let c := (c.background cleanBg).adaptBackground (lms cleanBg)
  (c.detectDoubleTalk.transfer.nonLinear).bypass rx

theorem echoCanUpdate_eq_updateWith (ec : EchoCan) (tx rx : Int16) :
    echoCanUpdate ec tx rx =
      let c := ec.updateWith tx rx ec.oldest (ec.echoFg tx) (ec.echoBg tx) (lmsAdaptBg ec.taps
        ec.currPos (fir16 ec.firStateBg ec.firTaps16Bg (txIn tx)).1.history ec.firTaps16Bg)
      ({ toEchoCanCore := c
         firState := (fir16 ec.firState ec.firTaps16Fg (txIn tx)).1
         firStateBg := (fir16 ec.firStateBg ec.firTaps16Bg (txIn tx)).1
         currPos := rollPos ec.taps ec.currPos }, c.output) := rfl

theorem Build.echoCanUpdate_eq_updateWith {asm : Asm} (hasm : asm.Documented) (b : Build)
    {ec : EchoCan} {tx : Int16} {fg bg : Fir16State × ℤ}
    (hfg : b.fir.fir16 ec.firState ec.firTaps16Fg (txIn tx) = some fg)
    (hbg : b.fir.fir16 ec.firStateBg ec.firTaps16Bg (txIn tx) = some bg) (rx : Int16) :
    b.echoCanUpdate asm ec tx rx =
      let c := ec.updateWith tx rx ec.oldest fg.2 bg.2
        (b.fir.lmsAdaptBg ec.taps ec.currPos bg.1.history ec.firTaps16Bg)
      some ({ toEchoCanCore := c, firState := fg.1, firStateBg := bg.1,
              currPos := rollPos ec.taps ec.currPos }, c.output) := by
  rw [txIn] at hfg hbg
  simp only [echoCanUpdate, hfg, hbg, Option.bind_some, adaptBackground_eq hasm]
  rfl

/-- The products that `fir16` of the plain build adds up. -/
def Fir16State.products (fir : Fir16State) (coeffs : List ℤ) (sample : ℤ) : List ℤ :=
  macTerms coeffs (fir.history.set fir.currPos.toNat sample) (ringIndices fir.taps fir.currPos)

theorem Fir16State.Holds.products_eq {n : ℕ} {fir : Fir16State} {r : RingBuffer ℤ n}
    (h : fir.Holds r) {coeffs : List ℤ} (hc : coeffs.length = n) (sample : ℤ) :
    fir.products coeffs sample =
      (List.zipWith (· * ·) coeffs (r.push sample).window).reverse := by
  rw [products, h.taps, h.currPos, h.history, Int.toNat_natCast, macTerms_ring, List.map_reverse,
    map_range_mul hc (RingBuffer.length_window _)]

/-- The accumulators of `dot_asm` are not left. The other builds take the sum
modulo `2 ^ 32`, as the plain one does. -/
def Build.Exact (b : Build) (ec : EchoCan) : Call → Prop
  | .update tx _ => b.fir = .blackfin →
      AccumulatorFits (ec.firState.products ec.firTaps16Fg (txIn tx)) ∧
        AccumulatorFits (ec.firStateBg.products ec.firTaps16Bg (txIn tx))
  | _ => True

theorem Build.Stands.update {asm : Asm} (hasm : asm.Documented) {n : ℕ} (hn : 2 ≤ n) {b : Build}
    (hdvd : b.fir.Divides n) {ec ec' : EchoCan} {r : RingBuffer ℤ n} (h : b.Stands ec ec' r)
    {tx rx : Int16} (hexact : b.Exact ec (.update tx rx)) :
    ∃ ec'', b.echoCanUpdate asm ec' tx rx = some (ec'', (Oslec.echoCanUpdate ec tx rx).2) ∧
      b.Stands (Oslec.echoCanUpdate ec tx rx).1 ec'' (r.push (txIn tx)) := by
  obtain ⟨core, fir, firBg, currPos⟩ := ec'
  obtain ⟨hrep, rfl, rfl, hfir, hfirBg⟩ := h
  obtain ⟨hholds, hvalue⟩ := fir16_spec hrep.fir ec.firTaps16Fg (txIn tx)
  obtain ⟨hholdsBg, hvalueBg⟩ := fir16_spec hrep.firBg ec.firTaps16Bg (txIn tx)
  rw [Exact, hrep.fir.products_eq hrep.lengthFg, hrep.firBg.products_eq hrep.lengthBg] at hexact
  obtain ⟨f, hf, hf'⟩ :=
    FirBuild.fir16_spec hn hdvd hfir hrep.lengthFg fun hb => (hexact hb).1
  obtain ⟨g, hg, hg'⟩ :=
    FirBuild.fir16_spec hn hdvd hfirBg hrep.lengthBg fun hb => (hexact hb).2
  have hlms : b.fir.lmsAdaptBg ec.taps ec.currPos g.history ec.firTaps16Bg =
      lmsAdaptBg ec.taps ec.currPos (fir16 ec.firStateBg ec.firTaps16Bg (txIn tx)).1.history
        ec.firTaps16Bg := by
    funext clean shift
    rw [hrep.taps, hrep.currPos]
    exact FirBuild.lmsAdaptBg_eq hholdsBg hg' r.pos_lt hrep.lengthBg clean shift
  have hold : EchoCan.oldest ⟨ec.toEchoCanCore, fir, firBg, ec.currPos⟩ = ec.oldest :=
    FirBuild.Holds.oldest hrep.fir hfir
  rw [b.echoCanUpdate_eq_updateWith hasm hf hg rx, Oslec.echoCanUpdate_eq_updateWith]
  dsimp only
  rw [hold, hlms, EchoCan.echoFg, hvalue, EchoCan.echoBg, hvalueBg]
  refine ⟨_, rfl, ?_⟩
  have hnext := hrep.update tx rx
  rw [Oslec.echoCanUpdate_eq_updateWith, EchoCan.echoFg, hvalue, EchoCan.echoBg, hvalueBg] at hnext
  exact ⟨hnext, rfl, rfl, hf', hg'⟩

theorem FirBuild.fir16Create_holds (b : FirBuild) {n : ℕ} (hn : 0 < n) :
    b.Holds (b.fir16Create n) (RingBuffer.fill (0 : ℤ) (Nat.sub_lt hn Nat.one_pos)) := by
  cases b with
  | plain => exact Oslec.fir16Create_holds hn
  | simd b => exact fir16CreateDouble_holdsTwice hn
  | blackfin => exact fir16CreateDouble_holdsTwice hn

/-- A flush of the canceller puts every filter state back as it was created. -/
theorem FirBuild.Holds.flush {n : ℕ} {b : FirBuild} {fir : Fir16State} {r : RingBuffer ℤ n}
    (h : b.Holds fir r) :
    { b.fir16Flush fir with currPos := (n : ℤ) - 1 } = b.fir16Create n := by
  cases b with
  | plain =>
      have htaps : fir.taps = n := Fir16State.Holds.taps h
      subst htaps
      rfl
  | simd b =>
      have htaps : fir.taps = n := Fir16State.HoldsTwice.taps h
      subst htaps
      rfl
  | blackfin =>
      have htaps : fir.taps = n := Fir16State.HoldsTwice.taps h
      subst htaps
      rfl

theorem Build.echoCanFlush_eq (b : Build) (ec : EchoCan) :
    b.echoCanFlush ec =
      { toEchoCanCore := ec.toEchoCanCore.flush
        firState := { b.fir.fir16Flush ec.firState with currPos := ec.taps - 1 }
        firStateBg := { b.fir.fir16Flush ec.firStateBg with currPos := ec.taps - 1 }
        currPos := ec.taps - 1 } := by
  simp only [echoCanFlush, flushBody, List.foldl_cons, List.foldl_nil, execFlush, FlushStmt.exec,
    EchoCanCore.flush]

theorem Build.Stands.flush {n : ℕ} {b : Build} {ec ec' : EchoCan} {r : RingBuffer ℤ n}
    (h : b.Stands ec ec' r) :
    b.Stands (Oslec.echoCanFlush ec) (b.echoCanFlush ec') (ringStep r .flush) := by
  have hn : 0 < n := Nat.zero_lt_of_lt r.pos_lt
  obtain ⟨core, fir, firBg, currPos⟩ := ec'
  obtain ⟨hrep, rfl, rfl, hfir, hfirBg⟩ := h
  have hfresh := b.fir.fir16Create_holds hn
  refine ⟨hrep.flush, ?_, ?_, ?_, ?_⟩
  · rw [b.echoCanFlush_eq, Oslec.echoCanFlush_eq]
  · rw [b.echoCanFlush_eq, Oslec.echoCanFlush_eq]
  · rw [b.echoCanFlush_eq]
    dsimp only
    rw [hrep.taps, hfir.flush]
    exact hfresh
  · rw [b.echoCanFlush_eq]
    dsimp only
    rw [hrep.taps, hfirBg.flush]
    exact hfresh

theorem Build.Stands.hpfTx {n : ℕ} {b : Build} {ec ec' : EchoCan} {r : RingBuffer ℤ n}
    (h : b.Stands ec ec' r) (tx : Int16) :
    b.Stands (echoCanHpfTx ec tx).1 (echoCanHpfTx ec' tx).1 r ∧
      (echoCanHpfTx ec' tx).2 = (echoCanHpfTx ec tx).2 := by
  obtain ⟨core, fir, firBg, currPos⟩ := ec'
  obtain ⟨hrep, rfl, rfl, hfir, hfirBg⟩ := h
  have hrep' := hrep.step (.hpfTx tx)
  change (echoCanHpfTx ec tx).1.Represents r at hrep'
  rw [echoCanHpfTx] at hrep' ⊢
  rw [echoCanHpfTx]
  dsimp only
  split at hrep'
  case isTrue hflag =>
    rw [if_pos hflag, if_pos hflag]
    exact ⟨⟨hrep', rfl, rfl, hfir, hfirBg⟩, rfl⟩
  case isFalse hflag =>
    rw [if_neg hflag, if_neg hflag]
    exact ⟨⟨hrep', rfl, rfl, hfir, hfirBg⟩, rfl⟩

theorem Build.Stands.adaptionMode {n : ℕ} {b : Build} {ec ec' : EchoCan} {r : RingBuffer ℤ n}
    (h : b.Stands ec ec' r) (mode : BitVec 32) :
    b.Stands (echoCanAdaptionMode ec mode) (echoCanAdaptionMode ec' mode) r := by
  obtain ⟨core, fir, firBg, currPos⟩ := ec'
  obtain ⟨hrep, rfl, rfl, hfir, hfirBg⟩ := h
  exact ⟨hrep.step (.adaptionMode mode), rfl, rfl, hfir, hfirBg⟩

theorem Build.Stands.snapshot {n : ℕ} {b : Build} {ec ec' : EchoCan} {r : RingBuffer ℤ n}
    (h : b.Stands ec ec' r) : b.Stands (echoCanSnapshot ec) (echoCanSnapshot ec') r := by
  obtain ⟨core, fir, firBg, currPos⟩ := ec'
  obtain ⟨hrep, rfl, rfl, hfir, hfirBg⟩ := h
  exact ⟨hrep.step .snapshot, rfl, rfl, hfir, hfirBg⟩

/-! ### Runs -/

end Oslec
