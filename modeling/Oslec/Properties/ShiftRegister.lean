import Oslec.Canceller.Calls

/-!
The canceller against the same canceller written with a plain shift register.
`ShiftCan` has no positions: its register is a list, most recent sample first,
and tap `i` meets register entry `i`.
-/

namespace Oslec

open TwosComplement

/-! ### The canceller on a shift register -/

structure ShiftCan extends EchoCanCore where
  reg : List ℤ

def shiftCanCreate (len : ℕ) (adaptionMode : BitVec 32) : ShiftCan where
  toEchoCanCore := EchoCanCore.create len adaptionMode
  reg := List.replicate len 0

/-- The echo estimate of a tap array on a register. -/
def estimate (n : ℕ) (firTaps reg : List ℤ) : ℤ := i16 (i32 (dot n firTaps reg) >>> (15 : ℕ))

/-- Adapt tap `i` with register entry `i`. -/
def adaptTaps (firTaps reg : List ℤ) (clean shift : ℤ) : List ℤ :=
  firTaps.mapIdx fun i tap =>
    i16 (tap + lmsIncrement (lmsFactor clean shift) (reg.getD i 0))

def shiftCanUpdate (ec : ShiftCan) (tx rx : Int16) : ShiftCan × Int16 :=
  let c := { ec.toEchoCanCore with tx := tx.toInt, rx := rx.toInt }
  let tx := tx.toInt >>> (1 : ℕ)
  let rx := rx.toInt >>> (1 : ℕ)
  let hpf := c.highPassRx rx
  let rx := hpf.2
  let c := (hpf.1.averagePower tx (ec.reg.getD (ec.taps - 1) 0)).averageLevels tx rx
  let reg := tx :: ec.reg.dropLast
  let c := c.foreground rx (estimate ec.taps ec.firTaps16Fg reg)
  let cleanBg := rx - estimate ec.taps ec.firTaps16Bg reg
  let c := c.background cleanBg
  let c := c.adaptBackground fun shift => adaptTaps ec.firTaps16Bg reg cleanBg shift
  let c := (c.detectDoubleTalk.transfer.nonLinear).bypass rx
  ({ toEchoCanCore := c, reg := reg }, c.output)

def shiftCanHpfTx (ec : ShiftCan) (tx : Int16) : ShiftCan × Int16 :=
  if hasFlag ec.adaptionMode echoCanUseTxHpf then
    let f := ec.txDc.filter 32767 tx.toInt
    ({ ec with txDc := f.1 }, Int16.ofInt f.2)
  else (ec, tx)

def shiftCan : Mealy ShiftCan Call (Option Int16) where
  step ec
    | .update tx rx => ((shiftCanUpdate ec tx rx).1, some (shiftCanUpdate ec tx rx).2)
    | .hpfTx tx => ((shiftCanHpfTx ec tx).1, some (shiftCanHpfTx ec tx).2)
    | .flush =>
        ({ toEchoCanCore := ec.toEchoCanCore.flush, reg := List.replicate ec.taps 0 }, none)
    | .adaptionMode mode => ({ ec with adaptionMode := mode }, none)
    | .snapshot => ({ ec with snapshot := ec.firTaps16Fg }, none)

/-! ### The simulation -/

/-- The ring canceller and the shift register canceller agree on everything but
the way they keep the filter states. -/
def SameOnRegister (n : ℕ) (ec : EchoCan) (sc : ShiftCan) : Prop :=
  ∃ r : RingBuffer ℤ n, ec.Represents r ∧ r.window = sc.reg ∧
    ec.toEchoCanCore = sc.toEchoCanCore

/-- What a represented canceller reads out of its ring is what the shift
register holds. -/
structure RegisterReads (n : ℕ) (ec : EchoCan) (reg : List ℤ) (tx : Int16) : Prop where
  oldest : ec.oldest = reg.getD (n - 1) 0
  echoFg : ec.echoFg tx = estimate n ec.firTaps16Fg (txIn tx :: reg.dropLast)
  echoBg : ec.echoBg tx = estimate n ec.firTaps16Bg (txIn tx :: reg.dropLast)
  adapt : ∀ clean shift,
    lmsAdaptBg ec.taps ec.currPos (fir16 ec.firStateBg ec.firTaps16Bg (txIn tx)).1.history
        ec.firTaps16Bg clean shift =
      adaptTaps ec.firTaps16Bg (txIn tx :: reg.dropLast) clean shift

theorem EchoCan.Represents.reads {n : ℕ} {ec : EchoCan} {r : RingBuffer ℤ n}
    (h : ec.Represents r) (tx : Int16) : RegisterReads n ec r.window tx := by
  have hfg := fir16_spec h.fir ec.firTaps16Fg (txIn tx)
  have hbg := fir16_spec h.firBg ec.firTaps16Bg (txIn tx)
  rw [RingBuffer.window_push] at hfg hbg
  exact {
    oldest := by
      rw [EchoCan.oldest, h.fir.history, h.fir.currPos, Int.toNat_natCast,
        List.getD_eq_getElem?_getD, r.getElem?_cells_pos, List.getD_eq_getElem?_getD]
    echoFg := hfg.2
    echoBg := hbg.2
    adapt := by
      intro clean shift
      rw [hbg.1.history, h.taps, h.currPos, lmsAdaptBg_eq r (txIn tx) h.lengthBg,
        RingBuffer.window_push]
      rfl
  }

theorem shiftCanUpdate_eq {n : ℕ} {ec : EchoCan} {reg : List ℤ} (htaps : ec.taps = n)
    (tx rx : Int16) (h : RegisterReads n ec reg tx) :
    shiftCanUpdate ⟨ec.toEchoCanCore, reg⟩ tx rx =
      (⟨(echoCanUpdate ec tx rx).1.toEchoCanCore, txIn tx :: reg.dropLast⟩,
        (echoCanUpdate ec tx rx).2) := by
  have hold := h.oldest
  have hfg := h.echoFg
  have hbg := h.echoBg
  have hlms := h.adapt
  simp only [EchoCan.oldest, EchoCan.echoFg, EchoCan.echoBg, txIn, ← htaps] at hold hfg hbg hlms
  simp only [shiftCanUpdate, echoCanUpdate, txIn, hold, hfg, hbg, hlms]

theorem shiftCanHpfTx_eq (ec : EchoCan) (reg : List ℤ) (tx : Int16) :
    shiftCanHpfTx ⟨ec.toEchoCanCore, reg⟩ tx =
      (⟨(echoCanHpfTx ec tx).1.toEchoCanCore, reg⟩, (echoCanHpfTx ec tx).2) := by
  simp only [shiftCanHpfTx, echoCanHpfTx]
  split <;> rfl

theorem shiftCan_simulates (n : ℕ) :
    echoCan.Simulates shiftCan (fun _ _ => True) (SameOnRegister n) := by
  constructor
  · rintro ec ⟨core, reg⟩ c ⟨r, hr, hwindow, hcore⟩ -
    dsimp only at hwindow hcore
    subst hwindow hcore
    refine ⟨ringStep r c, hr.step c, ?_, ?_⟩
    · cases c with
      | update tx rx =>
          change (r.push (txIn tx)).window = (shiftCanUpdate _ tx rx).1.reg
          rw [shiftCanUpdate_eq hr.taps tx rx (hr.reads tx), RingBuffer.window_push]
      | hpfTx tx =>
          change r.window = (shiftCanHpfTx _ tx).1.reg
          rw [shiftCanHpfTx_eq]
      | flush =>
          change (RingBuffer.fill 0 _).window = List.replicate ec.taps 0
          rw [RingBuffer.window_fill, hr.taps]
      | adaptionMode mode => rfl
      | snapshot => rfl
    · cases c with
      | update tx rx =>
          change _ = (shiftCanUpdate _ tx rx).1.toEchoCanCore
          rw [shiftCanUpdate_eq hr.taps tx rx (hr.reads tx)]
          rfl
      | hpfTx tx =>
          change _ = (shiftCanHpfTx _ tx).1.toEchoCanCore
          rw [shiftCanHpfTx_eq]
          rfl
      | flush =>
          change (echoCanFlush ec).toEchoCanCore = ec.toEchoCanCore.flush
          rw [echoCanFlush_eq]
      | adaptionMode mode => rfl
      | snapshot => rfl
  · rintro ec ⟨core, reg⟩ c ⟨r, hr, hwindow, hcore⟩ -
    dsimp only at hwindow hcore
    subst hwindow hcore
    cases c with
    | update tx rx =>
        change some (echoCanUpdate ec tx rx).2 = some (shiftCanUpdate _ tx rx).2
        rw [shiftCanUpdate_eq hr.taps tx rx (hr.reads tx)]
    | hpfTx tx =>
        change some (echoCanHpfTx ec tx).2 = some (shiftCanHpfTx _ tx).2
        rw [shiftCanHpfTx_eq]
    | flush => rfl
    | adaptionMode mode => rfl
    | snapshot => rfl

theorem sameOnRegister_create {n : ℕ} (hn : 0 < n) (mode : BitVec 32) :
    SameOnRegister n (echoCanCreate n mode) (shiftCanCreate n mode) :=
  ⟨_, echoCanCreate_represents hn mode, RingBuffer.window_fill 0 _, rfl⟩

/-! ### The refinement -/

/-- The three positions agree and lie in the ring, and above them both histories
list `H`. -/
structure RingAligned (len : ℕ) (H : List ℤ) (ec : EchoCan) : Prop where
  firPos : ec.firState.currPos = ec.currPos
  firPosBg : ec.firStateBg.currPos = ec.currPos
  nonneg : 0 ≤ ec.currPos
  lt : ec.currPos < len
  histories : ec.firStateBg.history = ec.firState.history
  history : ∀ k < len, ec.firState.history.getD ((ec.currPos + 1 + k) % len).toNat 0 = H.getD k 0

/-- Every visited pair is a tap index and a history index of arrays with the
given sizes. -/
def IndicesInRange (ix : List (ℤ × ℤ)) (firTaps history : List ℤ) : Prop :=
  ∀ p ∈ ix, (0 ≤ p.1 ∧ p.1 < firTaps.length) ∧ (0 ≤ p.2 ∧ p.2 < history.length)

/-- The loops of `fir16` and `lms_adapt_bg`, started now, stay inside their arrays. -/
structure LoopsInRange (len : ℕ) (ec : EchoCan) : Prop where
  lengthFg : ec.firTaps16Fg.length = len
  lengthBg : ec.firTaps16Bg.length = len
  lengthHistory : ec.firState.history.length = len
  lengthHistoryBg : ec.firStateBg.history.length = len
  fir : IndicesInRange (ringIndices ec.firState.taps ec.firState.currPos)
    ec.firTaps16Fg ec.firState.history
  firBg : IndicesInRange (ringIndices ec.firStateBg.taps ec.firStateBg.currPos)
    ec.firTaps16Bg ec.firStateBg.history
  lms : ∀ sample, IndicesInRange (ringIndices ec.taps ec.currPos) ec.firTaps16Bg
    (fir16 ec.firStateBg ec.firTaps16Bg sample).1.history

/-- An update computes its echo estimates and its adaption from the register `H`,
whose entry 0 is the current sample. -/
structure UsesRegister (len : ℕ) (H : List ℤ) (ec : EchoCan) (tx rx : Int16) : Prop where
  foreground : (fir16 ec.firState ec.firTaps16Fg (txIn tx)).2 =
    i16 (i32 (∑ i ∈ Finset.range len, ec.firTaps16Fg.getD i 0 * H.getD i 0) >>> (15 : ℕ))
  background : (fir16 ec.firStateBg ec.firTaps16Bg (txIn tx)).2 =
    i16 (i32 (∑ i ∈ Finset.range len, ec.firTaps16Bg.getD i 0 * H.getD i 0) >>> (15 : ℕ))
  adapt : (echoCanUpdate ec tx rx).1.firTaps16Bg =
    if ec.nonupdateDwell = 0 then
      ec.firTaps16Bg.mapIdx fun i tap =>
        i16 (tap + lmsIncrement (lmsFactor (ec.errorBg tx rx) (ec.shiftNext tx)) (H.getD i 0))
    else ec.firTaps16Bg

/-- The adaption reads no register entry beyond the taps. -/
theorem adaptTaps_congr {n : ℕ} {firTaps reg reg' : List ℤ} (hlen : firTaps.length = n)
    (hreg : ∀ k < n, reg.getD k 0 = reg'.getD k 0) (clean shift : ℤ) :
    adaptTaps firTaps reg clean shift = adaptTaps firTaps reg' clean shift := by
  ext i : 1
  simp only [adaptTaps, List.getElem?_mapIdx]
  by_cases hi : i < n
  · rw [hreg i hi]
  · rw [List.getElem?_eq_none (by omega)]
    rfl

theorem ringIndices_inRange {n : ℕ} (r : RingBuffer ℤ n) {firTaps history : List ℤ}
    (htaps : firTaps.length = n) (hhist : history.length = n) :
    IndicesInRange (ringIndices n r.pos) firTaps history := by
  have hn : 0 < n := Nat.zero_lt_of_lt r.pos_lt
  intro p hp
  rw [ringIndices_eq r.pos_lt] at hp
  obtain ⟨i, hi, rfl⟩ := List.mem_map.mp hp
  have hi : i < n := by simpa using hi
  have hmod : (i + r.pos) % n < n := Nat.mod_lt _ hn
  dsimp only
  omega

theorem EchoCan.Represents.ringAligned {n : ℕ} {ec : EchoCan} {r : RingBuffer ℤ n} {H : List ℤ}
    (h : ec.Represents r) (hH : ∀ k < n, r.window.getD k 0 = H.getD k 0) :
    RingAligned n H ec := by
  have hpos := r.pos_lt
  exact {
    firPos := by rw [h.fir.currPos, h.currPos]
    firPosBg := by rw [h.firBg.currPos, h.currPos]
    nonneg := by
      rw [h.currPos]
      omega
    lt := by
      rw [h.currPos]
      omega
    histories := by rw [h.firBg.history, h.fir.history]
    history := by
      intro k hk
      have hidx : ((ec.currPos + 1 + k) % n).toNat = (r.pos + 1 + k) % n := by
        rw [h.currPos]
        exact Int.toNat_natCast ((r.pos + 1 + k) % n)
      rw [hidx, h.fir.history, ← hH k hk, List.getD_eq_getElem?_getD, List.getD_eq_getElem?_getD,
        r.getElem?_window hk]
  }

theorem EchoCan.Represents.loopsInRange {n : ℕ} {ec : EchoCan} {r : RingBuffer ℤ n}
    (h : ec.Represents r) : LoopsInRange n ec := by
  have hfg := h.lengthFg
  have hbg := h.lengthBg
  have hfir : ec.firState.history.length = n := by rw [h.fir.history, r.length_cells]
  have hfirBg : ec.firStateBg.history.length = n := by rw [h.firBg.history, r.length_cells]
  refine ⟨hfg, hbg, hfir, hfirBg, ?_, ?_, ?_⟩
  · rw [h.fir.taps, h.fir.currPos]
    exact ringIndices_inRange r hfg hfir
  · rw [h.firBg.taps, h.firBg.currPos]
    exact ringIndices_inRange r hbg hfirBg
  · intro sample
    rw [h.taps, h.currPos]
    exact ringIndices_inRange r hbg (by simp [fir16, hfirBg])

theorem EchoCan.Represents.usesRegister {n : ℕ} {ec : EchoCan} {r : RingBuffer ℤ n}
    {H : List ℤ} (h : ec.Represents r) (hH : ∀ k < n, r.window.getD k 0 = H.getD k 0)
    (tx rx : Int16) : UsesRegister n (txIn tx :: H) ec tx rx := by
  have hreads := h.reads tx
  have hreg : ∀ k < n,
      (txIn tx :: r.window.dropLast).getD k 0 = (txIn tx :: H).getD k 0 := by
    rw [← RingBuffer.window_push]
    exact getD_window_push hH (txIn tx)
  have hdot : ∀ firTaps : List ℤ, dot n firTaps (txIn tx :: r.window.dropLast) =
      ∑ i ∈ Finset.range n, firTaps.getD i 0 * (txIn tx :: H).getD i 0 := by
    intro firTaps
    apply Finset.sum_congr rfl
    intro i hi
    rw [hreg i (Finset.mem_range.mp hi)]
  exact {
    foreground := by
      rw [← hdot]
      exact hreads.echoFg
    background := by
      rw [← hdot]
      exact hreads.echoBg
    adapt := by
      rw [(echoCanUpdate_spec ec tx rx).firTaps16Bg, EchoCan.tapsBgNext]
      split
      · rw [hreads.adapt, adaptTaps_congr h.lengthBg hreg]
        rfl
      · rfl
  }

/-- A register of zeros gives no echo, whatever the taps. -/
theorem UsesRegister.echoFg_of_zeros {len : ℕ} {H : List ℤ} {ec : EchoCan} {tx rx : Int16}
    (h : UsesRegister len H ec tx rx) (hH : ∀ i < len, H.getD i 0 = 0) : ec.echoFg tx = 0 := by
  have hforeground := h.foreground
  rw [Finset.sum_eq_zero, i32, wrap_zero, Int.zero_shiftRight, i16, wrap_zero] at hforeground
  · exact hforeground
  · intro i hi
    rw [hH i (Finset.mem_range.mp hi), mul_zero]

theorem ring_refines_shift_register (len : ℕ) (hlen : 2 ≤ len) (mode : BitVec 32)
    (calls : List Call) :
    RingAligned len (txHistory calls) (echoCan.run (echoCanCreate len mode) calls) ∧
      LoopsInRange len (echoCan.run (echoCanCreate len mode) calls) ∧
      (∀ tx rx, UsesRegister len (txIn tx :: txHistory calls)
        (echoCan.run (echoCanCreate len mode) calls) tx rx) ∧
      echoCan.outputs (echoCanCreate len mode) calls =
        shiftCan.outputs (shiftCanCreate len mode) calls := by
  have hn : 0 < len := by omega
  obtain ⟨r, hr, hwindow⟩ := exists_ring_of_run hn mode calls
  refine ⟨hr.ringAligned hwindow, hr.loopsInRange, hr.usesRegister hwindow, ?_⟩
  exact (shiftCan_simulates len).outputs_eq (sameOnRegister_create hn mode) (fun _ _ => trivial)

/-- Three samples through two taps: the ring has wrapped and dropped the first. -/
theorem ring_refines_shift_register_two_taps :
    RingAligned 2 [5, -3, 100]
        (echoCan.run (echoCanCreate 2 echoCanUseAdaption)
          [.update 200 0, .update (-6) 7, .snapshot, .update 10 (-1)]) ∧
      echoCan.outputs (echoCanCreate 2 echoCanUseAdaption)
          [.update 200 0, .update (-6) 7, .snapshot, .update 10 (-1)] =
        shiftCan.outputs (shiftCanCreate 2 echoCanUseAdaption)
          [.update 200 0, .update (-6) 7, .snapshot, .update 10 (-1)] := by
  have h := ring_refines_shift_register 2 (by decide) echoCanUseAdaption
    [.update 200 0, .update (-6) 7, .snapshot, .update 10 (-1)]
  have htx : txHistory [.update 200 0, .update (-6) 7, .snapshot, .update 10 (-1)] =
      [5, -3, 100] := by decide
  rw [htx] at h
  exact ⟨h.1, h.2.2.2⟩

end Oslec
