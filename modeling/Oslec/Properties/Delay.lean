import Oslec.Canceller.TopBit
import Oslec.Properties.Convergence

/-!
Time does not enter into the canceller. A new canceller that hears silence on both
sides stays as good as new, whatever the mode: only the position of its ring moves,
and the shift register does not have one. So a call that begins with silence is
answered as the same call without it.
-/

namespace Oslec

open TwosComplement

/-! ### What the next update reads -/

/-- The core with every field cleared that an update overwrites before it reads
it, and with the snapshot cleared, which no update reads. -/
def EchoCanCore.carried (c : EchoCanCore) : EchoCanCore :=
  { c with
    tx := 0, rx := 0, clean := 0, cleanNlp := 0, adapt := 0, factor := 0, shift := 0
    snapshot := [] }

theorem EchoCanCore.nonLinear_carried (c : EchoCanCore) (cleanNlp : ℤ) (snapshot : List ℤ) :
    EchoCanCore.nonLinear { c with cleanNlp := cleanNlp, snapshot := snapshot } =
      { c.nonLinear with snapshot := snapshot } := by
  simp only [EchoCanCore.nonLinear]
  split
  · split
    · split
      · rfl
      · split <;> rfl
    · split <;> rfl
  · rfl

/-- The update up to the transfer logic. -/
def ShiftCan.atTransfer (sc : ShiftCan) (tx rx : Int16) : EchoCanCore :=
  let c := { sc.toEchoCanCore with tx := tx.toInt, rx := rx.toInt }
  let tx := txIn tx
  let hpf := c.highPassRx (rx.toInt >>> (1 : ℕ))
  let rx := hpf.2
  let c := (hpf.1.averagePower tx (sc.reg.getD (sc.taps - 1) 0)).averageLevels tx rx
  let reg := tx :: sc.reg.dropLast
  let c := c.foreground rx (estimate sc.taps sc.firTaps16Fg reg)
  let cleanBg := rx - estimate sc.taps sc.firTaps16Bg reg
  let c := c.background cleanBg
  let c := c.adaptBackground fun shift => adaptTaps sc.firTaps16Bg reg cleanBg shift
  c.detectDoubleTalk

theorem shiftCanUpdate_eq_atTransfer (sc : ShiftCan) (tx rx : Int16) :
    shiftCanUpdate sc tx rx =
      let c := ((sc.atTransfer tx rx).transfer.nonLinear).bypass
        (sc.highPassRx (rx.toInt >>> (1 : ℕ))).2
      (⟨c, txIn tx :: sc.reg.dropLast⟩, c.output) := rfl

/-- The same register, and the same core as far as the next update can tell. -/
structure SoundsLike (s t : ShiftCan) : Prop where
  core : s.carried = t.carried
  reg : s.reg = t.reg

theorem SoundsLike.symm {s t : ShiftCan} (h : SoundsLike s t) : SoundsLike t s :=
  ⟨h.core.symm, h.reg.symm⟩

theorem SoundsLike.trans {s t u : ShiftCan} (h : SoundsLike s t) (h' : SoundsLike t u) :
    SoundsLike s u :=
  ⟨h.core.trans h'.core, h.reg.trans h'.reg⟩

theorem shiftCanUpdate_carried (s : ShiftCan) (tx rx : Int16) :
    SoundsLike (shiftCanUpdate ⟨s.carried, s.reg⟩ tx rx).1 (shiftCanUpdate s tx rx).1 ∧
      (shiftCanUpdate ⟨s.carried, s.reg⟩ tx rx).2 = (shiftCanUpdate s tx rx).2 := by
  have htransfer : (ShiftCan.atTransfer ⟨s.carried, s.reg⟩ tx rx).transfer =
      { (s.atTransfer tx rx).transfer with cleanNlp := 0, snapshot := [] } := by
    simp only [ShiftCan.atTransfer, EchoCanCore.adaptBackground_eq, EchoCanCore.transfer_eq]
    rfl
  rw [shiftCanUpdate_eq_atTransfer, shiftCanUpdate_eq_atTransfer, htransfer,
    EchoCanCore.nonLinear_carried]
  exact ⟨⟨rfl, rfl⟩, rfl⟩

theorem SoundsLike.update {s t : ShiftCan} (h : SoundsLike s t) (tx rx : Int16) :
    SoundsLike (shiftCanUpdate s tx rx).1 (shiftCanUpdate t tx rx).1 ∧
      (shiftCanUpdate s tx rx).2 = (shiftCanUpdate t tx rx).2 := by
  obtain ⟨hs, hsout⟩ := shiftCanUpdate_carried s tx rx
  obtain ⟨ht, htout⟩ := shiftCanUpdate_carried t tx rx
  rw [← h.core, ← h.reg] at ht htout
  exact ⟨hs.symm.trans ht, hsout.symm.trans htout⟩

theorem shiftCanHpfTx_carried (s : ShiftCan) (tx : Int16) :
    SoundsLike (shiftCanHpfTx ⟨s.carried, s.reg⟩ tx).1 (shiftCanHpfTx s tx).1 ∧
      (shiftCanHpfTx ⟨s.carried, s.reg⟩ tx).2 = (shiftCanHpfTx s tx).2 := by
  have hmode : s.carried.adaptionMode = s.adaptionMode := rfl
  rw [shiftCanHpfTx, shiftCanHpfTx, hmode]
  split
  · exact ⟨⟨rfl, rfl⟩, rfl⟩
  · exact ⟨⟨rfl, rfl⟩, rfl⟩

theorem SoundsLike.hpfTx {s t : ShiftCan} (h : SoundsLike s t) (tx : Int16) :
    SoundsLike (shiftCanHpfTx s tx).1 (shiftCanHpfTx t tx).1 ∧
      (shiftCanHpfTx s tx).2 = (shiftCanHpfTx t tx).2 := by
  obtain ⟨hs, hsout⟩ := shiftCanHpfTx_carried s tx
  obtain ⟨ht, htout⟩ := shiftCanHpfTx_carried t tx
  rw [← h.core, ← h.reg] at ht htout
  exact ⟨hs.symm.trans ht, hsout.symm.trans htout⟩

theorem SoundsLike.flush {s t : ShiftCan} (h : SoundsLike s t) :
    SoundsLike ⟨s.flush, List.replicate s.taps 0⟩ ⟨t.flush, List.replicate t.taps 0⟩ := by
  have htaps : s.taps = t.taps := by
    show s.carried.taps = t.carried.taps
    rw [h.core]
  refine ⟨?_, by rw [htaps]⟩
  show s.carried.flush = t.carried.flush
  rw [h.core]

theorem SoundsLike.adaptionMode {s t : ShiftCan} (h : SoundsLike s t) (mode : BitVec 32) :
    SoundsLike { s with adaptionMode := mode } { t with adaptionMode := mode } := by
  refine ⟨?_, h.reg⟩
  show { s.carried with adaptionMode := mode } = { t.carried with adaptionMode := mode }
  rw [h.core]

/-- Cancellers that sound alike go on to do so. -/
theorem soundsLike_simulates : shiftCan.Simulates shiftCan (fun _ _ => True) SoundsLike := by
  constructor
  · intro s t c h _
    cases c with
    | update tx rx => exact (h.update tx rx).1
    | hpfTx tx => exact (h.hpfTx tx).1
    | flush => exact h.flush
    | adaptionMode mode => exact h.adaptionMode mode
    | snapshot => exact ⟨h.core, h.reg⟩
  · intro s t c h _
    cases c with
    | update tx rx => exact congrArg some (h.update tx rx).2
    | hpfTx tx => exact congrArg some (h.hpfTx tx).2
    | flush => rfl
    | adaptionMode mode => rfl
    | snapshot => rfl

/-! ### Silence on both sides -/

theorem estimate_zero (n m : ℕ) (reg : List ℤ) : estimate n (List.replicate m 0) reg = 0 := by
  have hdot : dot n (List.replicate m 0) reg = 0 :=
    Finset.sum_eq_zero fun i _ => by rw [getD_replicate_zero, Int.zero_mul]
  rw [estimate, hdot]
  rfl

/-- No error, no adaption. -/
theorem adaptTaps_zero (n : ℕ) (reg : List ℤ) (shift : ℤ) :
    adaptTaps (List.replicate n 0) reg 0 shift = List.replicate n 0 := by
  ext i : 1
  rw [adaptTaps, List.getElem?_mapIdx, List.getElem?_replicate]
  split
  · rw [Option.map_some, lmsIncrement_of_error_zero]
    rfl
  · rfl

theorem highPassRx_zero {c : EchoCanCore} (h : c.rxDc = ⟨0, 0⟩) : c.highPassRx 0 = (c, 0) := by
  rw [EchoCanCore.highPassRx, h]
  split
  · rw [show DcFilter.filter 16383 ⟨0, 0⟩ 0 = (⟨0, 0⟩, 0) from rfl, ← h]
  · rw [← h]

/-- The power of a silent register stays zero, the rounding included. -/
theorem averagePower_zero {c : EchoCanCore} (hpower : c.pstates = 0) (hlog : 1 ≤ c.log2taps) :
    c.averagePower 0 0 = c := by
  have hround : ((1 : ℤ) <<< (c.log2taps - 1).toNat) >>> c.log2taps.toNat = 0 := by
    obtain ⟨k, hk⟩ := Int.eq_ofNat_of_zero_le (Int.sub_nonneg_of_le hlog)
    have hk' : c.log2taps.toNat = k + 1 := by omega
    rw [hk, hk', Int.toNat_natCast, Int.shiftLeft_eq, one_mul, Int.shiftRight_eq_div_pow]
    apply Int.ediv_eq_zero_of_lt
    · positivity
    · push_cast
      have hpow : (0 : ℤ) < 2 ^ k := by positivity
      rw [pow_succ]
      omega
  have hstays : c.averagePower 0 0 = { c with pstates := 0 } := by
    rw [EchoCanCore.averagePower, hpower]
    simp only [mul_zero, sub_zero, zero_add, hround]
    rfl
  rw [hstays, ← hpower]

theorem log2taps_create {len : ℕ} (hlen : 2 ≤ len) (hint : len < 2 ^ 31) (mode : BitVec 32) :
    1 ≤ (EchoCanCore.create len mode).log2taps := by
  obtain ⟨k, hk, -, hhi⟩ := topBit_ofInt_bounds (p := len) (by omega) (by exact_mod_cast hint)
  rw [BitVec.ofInt_natCast] at hk
  change 1 ≤ topBit (BitVec.ofNat 32 len)
  rw [hk]
  by_contra hlt
  obtain rfl : k = 0 := by omega
  omega

/-- A silent update of a new canceller up to the transfer logic. -/
theorem atTransfer_silent {len : ℕ} (hlen : 2 ≤ len) (hint : len < 2 ^ 31) (mode : BitVec 32)
    {tx rx : Int16} (htx : txIn tx = 0) (hrx : rx.toInt >>> (1 : ℕ) = 0) :
    ∃ shift, (shiftCanCreate len mode).atTransfer tx rx =
      { EchoCanCore.create len mode with tx := tx.toInt, rx := rx.toInt, shift := shift } := by
  have hpass := highPassRx_zero (c := { EchoCanCore.create len mode with
    tx := tx.toInt, rx := rx.toInt }) rfl
  have hpower := averagePower_zero (c := { EchoCanCore.create len mode with
    tx := tx.toInt, rx := rx.toInt }) rfl (log2taps_create hlen hint mode)
  have hestimate := estimate_zero len len (0 :: (List.replicate len 0).dropLast)
  simp only [ShiftCan.atTransfer, htx, hrx, shiftCanCreate, hpass, getD_replicate_zero, hpower]
  change ∃ shift, EchoCanCore.detectDoubleTalk (EchoCanCore.adaptBackground
    (EchoCanCore.background (EchoCanCore.foreground (EchoCanCore.averageLevels _ 0 0) 0
      (estimate len (List.replicate len 0) _)) (0 - estimate len (List.replicate len 0) _))
    fun shift => adaptTaps (List.replicate len 0) _ (0 - estimate len (List.replicate len 0) _)
      shift) = _
  rw [hestimate, EchoCanCore.adaptBackground_eq, Int.sub_zero]
  simp only [adaptTaps_zero]
  exact ⟨_, rfl⟩

/-- A silent update of a new canceller leaves it as good as new. -/
theorem shiftCanUpdate_silent {len : ℕ} (hlen : 2 ≤ len) (hint : len < 2 ^ 31) (mode : BitVec 32)
    {tx rx : Int16} (htx : txIn tx = 0) (hrx : rx.toInt >>> (1 : ℕ) = 0) :
    SoundsLike (shiftCanUpdate (shiftCanCreate len mode) tx rx).1 (shiftCanCreate len mode) ∧
      (shiftCanUpdate (shiftCanCreate len mode) tx rx).2 = 0 := by
  obtain ⟨shift, hcore⟩ := atTransfer_silent hlen hint mode htx hrx
  have hpass : (EchoCanCore.highPassRx (EchoCanCore.create len mode) 0).2 = 0 :=
    congrArg Prod.snd (highPassRx_zero rfl)
  have htransfer : EchoCanCore.transfer { EchoCanCore.create len mode with
        tx := tx.toInt, rx := rx.toInt, shift := shift } =
      { EchoCanCore.create len mode with tx := tx.toInt, rx := rx.toInt, shift := shift } := by
    have hq : EchoCanCore.transferQualifies { EchoCanCore.create len mode with
        tx := tx.toInt, rx := rx.toInt, shift := shift } = false := by
      simp [EchoCanCore.transferQualifies, EchoCanCore.create]
    rw [EchoCanCore.transfer_eq, hq]
    rfl
  have hnonLinear : EchoCanCore.nonLinear { EchoCanCore.create len mode with
        tx := tx.toInt, rx := rx.toInt, shift := shift } =
      { EchoCanCore.create len mode with tx := tx.toInt, rx := rx.toInt, shift := shift } := by
    have hnoise : Level.average 12 ⟨0, 0⟩ 0 = ⟨0, 0⟩ := by decide
    have hloud : ¬ i32 (16 * 0) < 0 := by decide
    have hquiet : (0 : ℤ) < 40 := by decide
    simp only [EchoCanCore.nonLinear, EchoCanCore.create, Int.natAbs_zero, Nat.cast_zero, hnoise,
      hloud, hquiet, if_false, ite_self]
  have hbypass : EchoCanCore.bypass { EchoCanCore.create len mode with
        tx := tx.toInt, rx := rx.toInt, shift := shift } 0 =
      { EchoCanCore.create len mode with tx := tx.toInt, rx := rx.toInt, shift := shift } := by
    rw [EchoCanCore.bypass]
    split
    · rfl
    · rfl
  rw [shiftCanUpdate_eq_atTransfer, hcore, htransfer, hnonLinear, hrx]
  simp only [shiftCanCreate, hpass, hbypass, htx]
  refine ⟨⟨rfl, ?_⟩, rfl⟩
  obtain ⟨m, rfl⟩ := Nat.exists_eq_add_of_le' (Nat.one_le_of_lt hlen)
  rw [List.dropLast_replicate]
  rfl

/-! ### Silence before a call -/

/-- Both inputs are zero once they have been halved. -/
def Silent (p : Int16 × Int16) : Prop := txIn p.1 = 0 ∧ p.2.toInt >>> (1 : ℕ) = 0

def leadIn (lead : List (Int16 × Int16)) : List Call := lead.map fun p => .update p.1 p.2

theorem shiftCan_leadIn {len : ℕ} (hlen : 2 ≤ len) (hint : len < 2 ^ 31) (mode : BitVec 32)
    {lead : List (Int16 × Int16)} (hlead : ∀ p ∈ lead, Silent p) {s : ShiftCan}
    (h : SoundsLike s (shiftCanCreate len mode)) :
    SoundsLike (shiftCan.run s (leadIn lead)) (shiftCanCreate len mode) ∧
      shiftCan.outputs s (leadIn lead) = List.replicate lead.length (some 0) := by
  induction lead generalizing s with
  | nil => exact ⟨h, rfl⟩
  | cons p lead ih =>
      obtain ⟨hp, hlead⟩ := List.forall_mem_cons.mp hlead
      obtain ⟨hnext, hout⟩ := h.update p.1 p.2
      obtain ⟨hsilent, hzero⟩ := shiftCanUpdate_silent hlen hint mode hp.1 hp.2
      obtain ⟨hrun, houts⟩ := ih hlead (hnext.trans hsilent)
      refine ⟨hrun, ?_⟩
      rw [List.length_cons, List.replicate_succ, ← houts, ← hzero, ← hout]
      rfl

/-- A call that begins with any number of silent samples is answered with as many
zeros and then as if they had not been there. -/
theorem leading_silence_is_forgotten (len : ℕ) (hlen : 2 ≤ len) (hint : len < 2 ^ 31)
    (mode : BitVec 32) (lead : List (Int16 × Int16)) (hlead : ∀ p ∈ lead, Silent p)
    (calls : List Call) :
    echoCan.outputs (echoCanCreate len mode) (leadIn lead ++ calls) =
      List.replicate lead.length (some 0) ++ echoCan.outputs (echoCanCreate len mode) calls := by
  have hshift (calls : List Call) : echoCan.outputs (echoCanCreate len mode) calls =
      shiftCan.outputs (shiftCanCreate len mode) calls :=
    (shiftCan_simulates len).outputs_eq (sameOnRegister_create (by omega) mode)
      fun _ _ => trivial
  obtain ⟨hrun, houts⟩ := shiftCan_leadIn hlen hint mode hlead ⟨rfl, rfl⟩
  rw [hshift, hshift, Mealy.outputs_append, houts,
    soundsLike_simulates.outputs_eq hrun fun _ _ => trivial]

/-- Half of one is silence. -/
theorem leading_silence_is_forgotten_ones :
    echoCan.outputs (echoCanCreate 4 echoCanUseAdaption)
        [.update 1 0, .update 0 1, .update 900 700] =
      [some 0, some 0] ++
        echoCan.outputs (echoCanCreate 4 echoCanUseAdaption) [.update 900 700] :=
  leading_silence_is_forgotten 4 (by omega) (by omega) echoCanUseAdaption [(1, 0), (0, 1)]
    (List.forall_mem_cons.mpr ⟨⟨rfl, rfl⟩, List.forall_mem_cons.mpr ⟨⟨rfl, rfl⟩,
      List.forall_mem_nil _⟩⟩) [.update 900 700]

end Oslec
