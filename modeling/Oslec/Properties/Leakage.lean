import Oslec.Canceller.Levels
import Oslec.Properties.ShiftRegister

/-!
The taps while the far end is silent. The adaption goes on with whatever error
the near end makes, but every increment is a multiple of a register entry: once
the register holds zeros the background taps stand still, the transfer logic can
only bring the foreground taps up to them, and no echo is subtracted.
-/

namespace Oslec

open TwosComplement

/-- The samples that the input scaling takes to zero. -/
def SilentTx (tx : Int16) : Prop := tx = 0 ∨ tx = 1

/-- The calls of a run in which the far end is silent. -/
def Call.FarEndSilent : Call → Prop
  | .update tx _ => SilentTx tx
  | .flush => False
  | _ => True

def Call.txSample? : Call → Option Int16
  | .update tx _ => some tx
  | _ => none

/-- The transmit samples of a run, most recent first. -/
def txSamples (calls : List Call) : List Int16 := calls.reverse.filterMap Call.txSample?

theorem SilentTx.txIn_eq {tx : Int16} (h : SilentTx tx) : txIn tx = 0 := by
  rcases h with rfl | rfl
  · rfl
  · rfl

/-- The register lists the samples of the run as far back as the last flush. -/
theorem txHistory_isPrefix_inputs (calls : List Call) :
    txHistory calls <+: (txSamples calls).map txIn := by
  have hscaled : ∀ c : Call, c.tx? = c.txSample?.map txIn := fun c => by cases c <;> rfl
  have hmap : (txSamples calls).map txIn = calls.reverse.filterMap Call.tx? := by
    rw [txSamples, List.map_filterMap]
    exact List.filterMap_congr fun c _ => (hscaled c).symm
  rw [hmap]
  exact (List.takeWhile_prefix _).filterMap _

/-- After as many silent samples as there are taps, the register holds zeros. -/
theorem txHistory_silent {len : ℕ} {calls : List Call}
    (hsilent : ∀ tx ∈ (txSamples calls).take len, SilentTx tx) :
    ∀ k < len, (txHistory calls).getD k 0 = 0 := by
  intro k hk
  rw [List.getD_eq_getElem?_getD]
  cases hget : (txHistory calls)[k]? with
  | none => rfl
  | some h =>
      obtain ⟨hlt, hh⟩ := List.getElem?_eq_some_iff.mp hget
      have hsample := List.prefix_iff_getElem?.mp (txHistory_isPrefix_inputs calls) k hlt
      rw [hh, List.getElem?_map] at hsample
      obtain ⟨tx, htx, rfl⟩ := Option.map_eq_some_iff.mp hsample
      apply (hsilent tx ?_).txIn_eq
      apply List.mem_of_getElem? (i := k)
      rw [List.getElem?_take, if_pos hk, htx]

/-! ### Taps that stand still -/

/-- Tap arrays as the source declares them. -/
def Taps16 (taps : List ℤ) : Prop := ∀ tap ∈ taps, i16 tap = tap

theorem i16_i16 (x : ℤ) : i16 (i16 x) = i16 x := by
  obtain ⟨hlo, hhi⟩ := i16_bounds x
  exact i16_of_bounds hlo hhi

theorem taps16_of_run {len : ℕ} (hlen : 0 < len) (mode : BitVec 32) (calls : List Call) :
    Taps16 (echoCan.run (echoCanCreate len mode) calls).firTaps16Bg := by
  have hzeros : ∀ n, Taps16 (List.replicate n 0) := by
    intro n tap htap
    rw [List.eq_of_mem_replicate htap, i16, wrap_zero]
  refine echoCan_run_induction (P := fun _ ec => Taps16 ec.firTaps16Bg) (hzeros len) ?_ ?_ ?_ calls
  · intro calls tx rx h
    obtain ⟨r, hr, hwindow⟩ := exists_ring_of_run hlen mode calls
    rw [(hr.usesRegister hwindow tx rx).adapt]
    split
    · intro tap htap
      obtain ⟨i, hi, rfl⟩ := List.mem_mapIdx.mp htap
      exact i16_i16 _
    · exact h
  · intro calls _
    rw [echoCanFlush_eq]
    exact hzeros _
  · intro calls c txDc mode snapshot _ h
    exact h

/-- A register entry of zero moves no tap, whatever the factor. -/
theorem lmsIncrement_zero (factor : ℤ) : lmsIncrement factor 0 = 0 := by
  rw [lmsIncrement, zero_mul]
  decide

/-- The register holds nothing but zeros. -/
structure Idle (n : ℕ) (ec : EchoCan) : Prop where
  register : ∃ r : RingBuffer ℤ n, ec.Represents r ∧ ∀ k < n, r.window.getD k 0 = 0
  tapsBg : Taps16 ec.firTaps16Bg

theorem idle_of_run {len : ℕ} (hlen : 0 < len) (mode : BitVec 32) {calls : List Call}
    (hsilent : ∀ tx ∈ (txSamples calls).take len, SilentTx tx) :
    Idle len (echoCan.run (echoCanCreate len mode) calls) := by
  obtain ⟨r, hr, hwindow⟩ := exists_ring_of_run hlen mode calls
  refine ⟨⟨r, hr, fun k hk => ?_⟩, taps16_of_run hlen mode calls⟩
  rw [hwindow k hk, txHistory_silent hsilent k hk]

/-- What the canceller does next only touches the taps through the transfer. -/
structure Idle.Keeps (n : ℕ) (ec ec' : EchoCan) : Prop where
  idle : Idle n ec'
  tapsBg : ec'.firTaps16Bg = ec.firTaps16Bg
  tapsFg : ec'.firTaps16Fg = ec.firTaps16Fg ∨ ec'.firTaps16Fg = ec.firTaps16Bg

section

variable {n : ℕ} {ec : EchoCan} (h : Idle n ec)

include h

theorem Idle.usesRegister {tx : Int16} (htx : SilentTx tx) (rx : Int16) :
    UsesRegister n [0] ec tx rx := by
  obtain ⟨r, hr, hwindow⟩ := h.register
  have huses := hr.usesRegister (H := []) hwindow tx rx
  rwa [htx.txIn_eq] at huses

theorem Idle.echoFg {tx : Int16} (htx : SilentTx tx) : ec.echoFg tx = 0 := by
  apply (h.usesRegister htx 0).echoFg_of_zeros
  intro i _
  cases i <;> rfl

theorem Idle.update {tx : Int16} (htx : SilentTx tx) (rx : Int16) :
    Idle.Keeps n ec (echoCanUpdate ec tx rx).1 := by
  have hspec := echoCanUpdate_spec ec tx rx
  have hbg : (echoCanUpdate ec tx rx).1.firTaps16Bg = ec.firTaps16Bg := by
    rw [(h.usesRegister htx rx).adapt]
    split
    · ext i : 1
      rw [List.getElem?_mapIdx]
      have hentry : ([0] : List ℤ).getD i 0 = 0 := by cases i <;> rfl
      rw [hentry, lmsIncrement_zero]
      cases hget : ec.firTaps16Bg[i]? with
      | none => rfl
      | some tap =>
          rw [Option.map_some, add_zero, h.tapsBg tap (List.mem_of_getElem? hget)]
    · rfl
  have hfg := hspec.firTaps16Fg
  obtain ⟨r, hr, hwindow⟩ := h.register
  refine ⟨⟨⟨_, hr.update tx rx, ?_⟩, ?_⟩, hbg, ?_⟩
  · -- another zero enters the register
    have hpush := getD_window_push (H := []) hwindow (txIn tx)
    rw [htx.txIn_eq] at hpush ⊢
    intro k hk
    rw [hpush k hk]
    cases k <;> rfl
  · rw [hbg]
    exact h.tapsBg
  · rw [hfg, hbg]
    split
    · exact Or.inr rfl
    · exact Or.inl rfl

theorem Idle.quiet (txDc : DcFilter) (mode : BitVec 32) (snapshot : List ℤ) :
    Idle.Keeps n ec { ec with txDc := txDc, adaptionMode := mode, snapshot := snapshot } := by
  obtain ⟨r, hr, hwindow⟩ := h.register
  exact ⟨⟨⟨r, hr.quiet _ _ _, hwindow⟩, h.tapsBg⟩, rfl, Or.inl rfl⟩

theorem Idle.step {c : Call} (hc : c.FarEndSilent) :
    Idle.Keeps n ec (echoCan.step ec c).1 := by
  have hquiet : c.Quiet → Idle.Keeps n ec (echoCan.step ec c).1 := by
    intro hc
    obtain ⟨txDc, mode, snapshot, hstep⟩ := echoCan_step_quiet ec hc
    rw [hstep]
    exact h.quiet txDc mode snapshot
  cases c with
  | update tx rx => exact h.update hc rx
  | flush => exact hc.elim
  | hpfTx tx => exact hquiet trivial
  | adaptionMode mode => exact hquiet trivial
  | snapshot => exact hquiet trivial

theorem Idle.run {cs : List Call} (hcs : ∀ c ∈ cs, c.FarEndSilent) :
    Idle.Keeps n ec (echoCan.run ec cs) := by
  induction cs using List.reverseRecOn with
  | nil => exact ⟨h, rfl, Or.inl rfl⟩
  | append_singleton cs c ih =>
      have hrun := ih fun c' hc' => hcs c' (List.mem_append_left _ hc')
      have hstep := hrun.idle.step (hcs c (List.mem_append_right _ List.mem_cons_self))
      rw [Mealy.run_concat]
      refine ⟨hstep.idle, hstep.tapsBg.trans hrun.tapsBg, ?_⟩
      rcases hstep.tapsFg with hfg | hfg
      · rw [hfg]
        exact hrun.tapsFg
      · exact Or.inr (hfg.trans hrun.tapsBg)

end

/-! ### The returned sample -/

/-- Halving and doubling a sample clears its lowest bit. -/
theorem double_half (rx : Int16) :
    Int16.ofInt ((rx.toInt >>> (1 : ℕ)) <<< (1 : ℕ)) = rx &&& ~~~1 := by
  apply Int16.toBitVec_inj.mp
  have hdouble : (Int16.ofInt ((rx.toInt >>> (1 : ℕ)) <<< (1 : ℕ))).toBitVec =
      rx.toBitVec.sshiftRight 1 <<< 1 := by
    rw [← Int16.toInt_toBitVec, ← BitVec.toInt_sshiftRight, Int.shiftLeft_eq, Int16.toBitVec_ofInt,
      BitVec.ofInt_mul, BitVec.ofInt_toInt, BitVec.shiftLeft_eq_mul_twoPow]
    rfl
  have hmask : (rx &&& ~~~1).toBitVec = rx.toBitVec &&& ~~~1#16 := rfl
  rw [hdouble, hmask]
  ext i hi
  rw [BitVec.getElem_and, BitVec.getElem_not, BitVec.getElem_one, BitVec.getElem_shiftLeft,
    BitVec.getElem_sshiftRight]
  cases i with
  | zero => simp
  | succ i => simp [Nat.add_comm 1, hi]

theorem Idle.output {n : ℕ} {ec : EchoCan} (h : Idle n ec) {tx rx : Int16} (htx : SilentTx tx)
    (hnlp : hasFlag ec.adaptionMode echoCanUseNlp = false)
    (hhpf : hasFlag ec.adaptionMode echoCanUseRxHpf = false)
    (hdis : hasFlag ec.adaptionMode echoCanDisable = false) :
    (echoCanUpdate ec tx rx).2 = rx &&& ~~~1 := by
  have hrx : ec.rxIn rx = rx.toInt >>> (1 : ℕ) := by
    simp [EchoCan.rxIn, EchoCanCore.highPassRx, hhpf]
  obtain ⟨hlo, hhi⟩ := ec.rxIn_bounds rx
  rw [echoCanUpdate_output_of_plain hnlp hdis, h.echoFg htx, sub_zero,
    i16_of_bounds (by omega) (by omega), hrx, double_half]

/-- From every reachable state whose last `len` transmit samples were silent,
and for as long as they stay so, nothing leaks into the taps and the plain
output is the received sample without its lowest bit. -/
theorem no_leakage (len : ℕ) (hlen : 2 ≤ len) (mode : BitVec 32) (calls after : List Call)
    (hsilent : ∀ tx ∈ (txSamples calls).take len, SilentTx tx)
    (hafter : ∀ c ∈ after, c.FarEndSilent) :
    let ec := echoCan.run (echoCanCreate len mode) calls
    (∀ pre, pre <+: after → (echoCan.run ec pre).firTaps16Bg = ec.firTaps16Bg ∧
        ((echoCan.run ec pre).firTaps16Fg = ec.firTaps16Fg ∨
          (echoCan.run ec pre).firTaps16Fg = ec.firTaps16Bg)) ∧
      ∀ pre tx rx, UpdateAt after pre tx rx →
        hasFlag (echoCan.run ec pre).adaptionMode echoCanUseNlp = false →
        hasFlag (echoCan.run ec pre).adaptionMode echoCanUseRxHpf = false →
        hasFlag (echoCan.run ec pre).adaptionMode echoCanDisable = false →
        (echoCanUpdate (echoCan.run ec pre) tx rx).2 = rx &&& ~~~1 := by
  have hidle := idle_of_run (by omega : 0 < len) mode hsilent
  refine ⟨?_, ?_⟩
  · intro pre hpre
    have hkeeps := hidle.run fun c hc => hafter c (hpre.subset hc)
    exact ⟨hkeeps.tapsBg, hkeeps.tapsFg⟩
  · intro pre tx rx hupdate hnlp hhpf hdis
    have hkeeps := hidle.run fun c hc =>
      hafter c (hupdate.subset (List.mem_append_left _ hc))
    have htx : SilentTx tx :=
      hafter (.update tx rx) (hupdate.subset (List.mem_append_right _ List.mem_cons_self))
    exact hkeeps.idle.output htx hnlp hhpf hdis

/-- Adapted taps, two silent samples, and then the near end alone. -/
theorem no_leakage_near_end :
    (echoCan.run (echoCan.run (echoCanCreate 2 echoCanUseAdaption)
        [.update 3000 1000, .update 0 500, .update 1 500])
      [.update 1 20001, .update 0 (-20001)]).firTaps16Bg =
      (echoCan.run (echoCanCreate 2 echoCanUseAdaption)
        [.update 3000 1000, .update 0 500, .update 1 500]).firTaps16Bg := by
  have hsilent : ∀ tx ∈ (txSamples
      [.update 3000 1000, .update 0 500, .update 1 500]).take 2, SilentTx tx := by
    simp [txSamples, Call.txSample?, SilentTx]
  have hafter : ∀ c ∈ [Call.update 1 20001, .update 0 (-20001)], c.FarEndSilent := by
    intro c hc
    rcases List.mem_pair.mp hc with rfl | rfl
    · exact Or.inr rfl
    · exact Or.inl rfl
  exact ((no_leakage 2 (le_refl 2) echoCanUseAdaption _ _ hsilent hafter).1 _
    (List.prefix_refl _)).1

end Oslec
