import Oslec.Properties.HighPass

/-!
A constant input of a DC blocking filter. The feedback rounds downwards, so the
state comes down to a few units from above and rises to zero itself from below,
where a negative rest would still be an output of -1. Either way nothing is left
after 199 samples, whatever the state was.
-/

namespace Oslec

open TwosComplement

namespace Side

def flag : Side → BitVec 32
  | tx => echoCanUseTxHpf
  | rx => echoCanUseRxHpf

/-- The calls that pass this sample through the filter where it is selected. -/
def Passes (s : Side) (x : Int16) (c : Call) : Prop :=
  match s with
  | tx => c = .hpfTx x
  | rx => ∃ y, c = .update y x

def scaled (s : Side) (x : Int16) : ℤ :=
  match s with
  | tx => x.toInt
  | rx => x.toInt >>> (1 : ℕ)

theorem Passes.sample {s : Side} {x : Int16} {c : Call} (h : s.Passes x c) {ec : EchoCan}
    (hflag : hasFlag ec.adaptionMode s.flag = true) : s.sample ec c = some (s.scaled x) := by
  cases s with
  | tx =>
      obtain rfl := h
      exact if_pos hflag
  | rx =>
      obtain ⟨y, rfl⟩ := h
      exact if_pos hflag

theorem Passes.ne_flush {s : Side} {x : Int16} {c : Call} (h : s.Passes x c) : c ≠ .flush := by
  rintro rfl
  cases s with
  | tx => cases h
  | rx =>
      obtain ⟨y, hy⟩ := h
      cases hy

theorem Passes.adaptionMode {s : Side} {x : Int16} {c : Call} (h : s.Passes x c) (ec : EchoCan) :
    (echoCan.step ec c).1.adaptionMode = ec.adaptionMode := by
  cases s with
  | tx =>
      obtain rfl := h
      change (echoCanHpfTx ec x).1.adaptionMode = _
      rw [echoCanHpfTx_eq]
  | rx =>
      obtain ⟨y, rfl⟩ := h
      exact (echoCanUpdate_spec ec y x).adaptionMode

end Side

/-- What is left of the largest state after `199` samples or more is less than one. -/
theorem leak_of_199 {n : ℕ} (hn : 199 ≤ n) {y : ℤ} (hy : y ≤ 2 ^ 31) : 7 ^ n * y < 8 ^ n :=
  LeakyAverage.rest_lt_of_base (by norm_num) (by norm_num) hn hy (by norm_num)

/-- The hard limited sample after a constant input. -/
theorem dcOutput_settles {limit d : ℤ} (hlimit : 0 ≤ limit) {xs : List ℤ} {n : ℕ} (hn : 199 ≤ n)
    (hlo : -2147483648 ≤ DcBlocker.run dcLog2Beta (d :: xs))
    (hhi : DcBlocker.run dcLog2Beta (d :: xs) ≤ 2147483647) :
    dcOutput limit (List.replicate n d ++ d :: xs) = 0 := by
  simp only [dcLog2Beta] at hlo hhi
  have hup := leak_of_199 hn (y := DcBlocker.run 3 (d :: xs)) (by omega)
  have hdown := leak_of_199 hn (y := -DcBlocker.run 3 (d :: xs)) (by omega)
  rw [mul_neg, neg_lt] at hdown
  obtain ⟨hnonneg, hle⟩ := DcBlocker.iterate_leak_settles (b := 3) (n := n)
    (y := DcBlocker.run 3 (d :: xs)) (by norm_num; exact hup) (by norm_num; exact hdown)
  have hzero : DcBlocker.run dcLog2Beta (List.replicate n d ++ d :: xs) / 2 ^ 15 = 0 := by
    rw [DcBlocker.run_replicate]
    exact Int.ediv_eq_zero_of_lt hnonneg (by simp only [dcLog2Beta]; omega)
  rw [dcOutput, hzero, min_eq_right hlimit, max_eq_right (by omega)]

section

variable {s : Side} {xs : List ℤ} {ec : EchoCan} (h : Filtered s xs ec) {x : Int16}
  (hflag : hasFlag ec.adaptionMode s.flag = true)

include h hflag

theorem Filtered.run {cs : List Call} (hcs : ∀ c ∈ cs, s.Passes x c) :
    Filtered s (List.replicate cs.length (dcInput (s.scaled x)) ++ xs) (echoCan.run ec cs) ∧
      (echoCan.run ec cs).adaptionMode = ec.adaptionMode := by
  induction cs using List.reverseRecOn with
  | nil => exact ⟨h, rfl⟩
  | append_singleton cs c ih =>
      obtain ⟨hrun, hmode⟩ := ih fun c' hc' => hcs c' (List.mem_append_left _ hc')
      have hc := hcs c (List.mem_append_right _ List.mem_cons_self)
      rw [Mealy.run_concat, List.length_append]
      refine ⟨?_, (hc.adaptionMode _).trans hmode⟩
      rw [List.length_singleton, List.replicate_succ, List.cons_append]
      exact hrun.step hc.ne_flush (hc.sample (by rw [hmode, hflag]))

/-- A filter that has been given the same sample 199 times passes nothing on. -/
theorem Filtered.settles {cs : List Call} (hcs : ∀ c ∈ cs, s.Passes x c)
    (hlength : 199 ≤ cs.length) {c : Call} (hc : s.Passes x c) :
    ((s.dc (echoCan.run ec cs)).filter s.limit (s.scaled x)).2 = 0 := by
  obtain ⟨hrun, hmode⟩ := h.run hflag hcs
  have hsample : s.sample (echoCan.run ec cs) c = some (s.scaled x) :=
    hc.sample (by rw [hmode, hflag])
  obtain ⟨hlo, hhi⟩ := DcBlocker.run_bounds (b := dcLog2Beta) (by cases s <;> decide)
    (h.peak_cons (hc.sample hflag))
  have hpeak : 2 * s.peak + 7 ≤ 2147483647 := by cases s <;> decide
  simp only [dcLog2Beta] at hlo hhi
  rw [(hrun.filter hsample).2, ← List.cons_append, ← List.replicate_succ,
    List.replicate_succ', List.append_assoc, List.singleton_append]
  exact dcOutput_settles (by cases s <;> decide) hlength (by simp only [dcLog2Beta]; omega)
    (by simp only [dcLog2Beta]; omega)

end

/-- The received sample that the canceller works with. -/
theorem EchoCan.rxIn_of_flag {ec : EchoCan}
    (hflag : hasFlag ec.adaptionMode echoCanUseRxHpf = true) (rx : Int16) :
    ec.rxIn rx = ((Side.rx.dc ec).filter Side.rx.limit (Side.rx.scaled rx)).2 := by
  simp only [rxIn, EchoCanCore.highPassRx, hflag, if_true]
  rfl

theorem rxIn_settles {len : ℕ} {mode : BitVec 32} {calls : List Call}
    (hflag : hasFlag (echoCan.run (echoCanCreate len mode) calls).adaptionMode echoCanUseRxHpf =
      true) (rx : Int16) (txs : List Int16) (hlength : 199 ≤ txs.length) :
    (echoCan.run (echoCan.run (echoCanCreate len mode) calls)
      (txs.map fun tx => .update tx rx)).rxIn rx = 0 := by
  have hpasses : ∀ c ∈ txs.map fun tx => Call.update tx rx, Side.rx.Passes rx c := by
    intro c hc
    obtain ⟨tx, -, rfl⟩ := List.mem_map.mp hc
    exact ⟨tx, rfl⟩
  have hfiltered := filtered_of_run .rx len mode calls
  obtain ⟨-, hmode⟩ := hfiltered.run hflag hpasses
  rw [EchoCan.rxIn_of_flag (by rw [hmode, hflag])]
  exact hfiltered.settles hflag hpasses (by rwa [List.length_map]) ⟨0, rfl⟩

/-- From every reachable state, the 200th of equal samples and all later ones
leave the filters as zeros. -/
theorem dc_is_removed (len : ℕ) (mode : BitVec 32) (calls : List Call) :
    (hasFlag (echoCan.run (echoCanCreate len mode) calls).adaptionMode echoCanUseTxHpf = true →
        ∀ (c : Int16) (n : ℕ), 199 ≤ n →
          (echoCanHpfTx (echoCan.run (echoCan.run (echoCanCreate len mode) calls)
            (List.replicate n (.hpfTx c))) c).2 = 0) ∧
      (hasFlag (echoCan.run (echoCanCreate len mode) calls).adaptionMode echoCanUseRxHpf = true →
        ∀ (rx : Int16) (txs : List Int16), 199 ≤ txs.length →
          (echoCan.run (echoCan.run (echoCanCreate len mode) calls)
            (txs.map fun tx => .update tx rx)).rxIn rx = 0) := by
  refine ⟨?_, fun hflag rx txs => rxIn_settles hflag rx txs⟩
  intro hflag c n hn
  have hpasses : ∀ c' ∈ List.replicate n (Call.hpfTx c), Side.tx.Passes c c' :=
    fun c' hc' => List.eq_of_mem_replicate hc'
  have hfiltered := filtered_of_run .tx len mode calls
  obtain ⟨-, hmode⟩ := hfiltered.run hflag hpasses
  have hout := hfiltered.settles hflag hpasses (by rwa [List.length_replicate]) rfl
  rw [echoCanHpfTx, hmode, hflag, if_pos rfl]
  exact congrArg Int16.ofInt hout

/-- The largest sample, and then the smallest one for ever. -/
theorem dc_is_removed_full_scale :
    (echoCanHpfTx (echoCan.run (echoCan.run (echoCanCreate 2 echoCanUseTxHpf) [.hpfTx 32767])
        (List.replicate 199 (.hpfTx (-32768)))) (-32768)).2 = 0 :=
  (dc_is_removed 2 echoCanUseTxHpf [.hpfTx 32767]).1 (by decide) (-32768) 199 (le_refl 199)

end Oslec
