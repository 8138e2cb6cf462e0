import Oslec.Canceller.Levels
import Oslec.Library.DcBlocker

/-!
The DC blocking filters. Full scale square waves take the state of a filter to
almost twice its largest input, which a 32 bit integer still holds: the stored
state is the recursion over the integers for ever, although on the transmit
side the sums that lead to it may overflow on the way.
-/

namespace Oslec

open TwosComplement

/-- The scaled input `tmp` of a filter over the integers. -/
def dcInput (sample : ℤ) : ℤ := sample * 2 ^ 15 - sample * 2 ^ 15 / 16

/-- A filter state after the scaled inputs `xs`, the last one at the head. -/
structure DcFilter.Follows (xs : List ℤ) (f : DcFilter) : Prop where
  z1 : f.z1 = DcBlocker.run dcLog2Beta xs
  z2 : f.z2 = xs.headD 0

/-- The filtered sample over the integers: the state without its fraction, hard
limited. -/
def dcOutput (limit : ℤ) (xs : List ℤ) : ℤ :=
  max (-limit) (min limit (DcBlocker.run dcLog2Beta xs / 2 ^ 15))

theorem dcOutput_bounds {limit : ℤ} (h : 0 ≤ limit) (xs : List ℤ) :
    -limit ≤ dcOutput limit xs ∧ dcOutput limit xs ≤ limit := by
  unfold dcOutput
  omega

theorem dcInput_eq (sample : ℤ) : dcInput sample = 30720 * sample := by
  unfold dcInput
  omega

/-- Every value on the way to the next state fits 32 bits. -/
structure DcFilter.Exact (f : DcFilter) (sample : ℤ) : Prop where
  scaled : Fits 32 (sample <<< (15 : ℕ))
  sixteenth : Fits 32 ((sample <<< (15 : ℕ)) >>> (4 : ℕ))
  input : Fits 32 (dcInput sample)
  feedback : Fits 32 (-(f.z1 >>> dcLog2Beta))
  sum : Fits 32 (-(f.z1 >>> dcLog2Beta) + dcInput sample)
  difference : Fits 32 (-(f.z1 >>> dcLog2Beta) + dcInput sample - f.z2)
  state : Fits 32 (f.z1 + (-(f.z1 >>> dcLog2Beta) + dcInput sample - f.z2))

theorem fits_of_bounds {x : ℤ} (hlo : -2147483648 ≤ x) (hhi : x ≤ 2147483647) : Fits 32 x :=
  i32_eq_self_iff.mp (i32_of_bounds hlo hhi)

/-- One step of a filter whose next state is in range. -/
theorem DcFilter.Follows.filter {xs : List ℤ} {f : DcFilter} (h : f.Follows xs) {limit x : ℤ}
    (hlimit : 0 ≤ limit ∧ limit ≤ 32767) (hx : -32768 ≤ x ∧ x ≤ 32767)
    (hrun : -2147483648 ≤ DcBlocker.run dcLog2Beta (dcInput x :: xs) ∧
      DcBlocker.run dcLog2Beta (dcInput x :: xs) ≤ 2147483647) :
    (f.filter limit x).1.Follows (dcInput x :: xs) ∧
      (f.filter limit x).2 = dcOutput limit (dcInput x :: xs) := by
  have htmp : i32 (i32 (x <<< (15 : ℕ)) - i32 (x <<< (15 : ℕ)) >>> (4 : ℕ)) = dcInput x := by
    have hscaled : i32 (x <<< (15 : ℕ)) = x * 2 ^ 15 := by
      rw [Int.shiftLeft_eq]
      exact i32_of_bounds (by omega) (by omega)
    rw [hscaled, Int.shiftRight_eq_div_pow]
    exact i32_of_bounds (by norm_num; omega) (by norm_num; omega)
  have hz1 : i32 (f.z1 + (-(f.z1 >>> dcLog2Beta) + dcInput x - f.z2)) =
      DcBlocker.run dcLog2Beta (dcInput x :: xs) := by
    have hstep : f.z1 + (-(f.z1 >>> dcLog2Beta) + dcInput x - f.z2) =
        DcBlocker.run dcLog2Beta (dcInput x :: xs) := by
      rw [h.z1, h.z2, Int.shiftRight_eq_div_pow, DcBlocker.run, DcBlocker.step]
      push_cast
      ring
    rw [hstep]
    exact i32_of_bounds hrun.1 hrun.2
  have hclamp : ∀ y : ℤ, i16 (if (if y > limit then limit else y) < -limit then -limit
      else if y > limit then limit else y) = max (-limit) (min limit y) := by
    intro y
    have hcases : (if (if y > limit then limit else y) < -limit then -limit
        else if y > limit then limit else y) = max (-limit) (min limit y) := by
      split <;> split <;> omega
    rw [hcases]
    exact i16_of_bounds (by omega) (by omega)
  simp only [DcFilter.filter, htmp, hz1]
  refine ⟨⟨rfl, rfl⟩, ?_⟩
  rw [hclamp, Int.shiftRight_eq_div_pow]
  rfl

/-! ### The two filters of a run -/

/-- The steps of a trace since its last flush, most recent first. -/
def stepsSinceFlush (ts : List (Mealy.Transition EchoCan Call)) :
    List (Mealy.Transition EchoCan Call) :=
  ts.reverse.takeWhile (·.input ≠ .flush)

theorem stepsSinceFlush_concat (ts : List (Mealy.Transition EchoCan Call))
    (t : Mealy.Transition EchoCan Call) :
    stepsSinceFlush (ts ++ [t]) = if t.input = .flush then [] else t :: stepsSinceFlush ts := by
  by_cases ht : t.input = .flush
  · simp [stepsSinceFlush, ht]
  · simp [stepsSinceFlush, ht]

inductive Side
  | tx | rx
deriving DecidableEq

namespace Side

def dc (s : Side) (ec : EchoCan) : DcFilter :=
  match s with
  | tx => ec.txDc
  | rx => ec.rxDc

def limit : Side → ℤ
  | tx => 32767
  | rx => 16383

/-- The largest scaled input. -/
def peak : Side → ℤ
  | tx => 1006632960
  | rx => 503316480

/-- The sample that a call passes through the filter. -/
def sample (s : Side) (ec : EchoCan) (c : Call) : Option ℤ :=
  match s, c with
  | tx, .hpfTx x => if hasFlag ec.adaptionMode echoCanUseTxHpf then some x.toInt else none
  | rx, .update _ x =>
      if hasFlag ec.adaptionMode echoCanUseRxHpf then some (x.toInt >>> (1 : ℕ)) else none
  | _, _ => none

/-- The scaled inputs of the filter since the last flush, most recent first. -/
def inputs (s : Side) (ts : List (Mealy.Transition EchoCan Call)) : List ℤ :=
  ((stepsSinceFlush ts).filterMap fun t => s.sample t.before t.input).map dcInput

theorem sample_bounds {s : Side} {ec : EchoCan} {c : Call} {x : ℤ}
    (h : s.sample ec c = some x) :
    (-32768 ≤ x ∧ x ≤ 32767) ∧ -s.peak ≤ dcInput x ∧ dcInput x ≤ s.peak := by
  rw [dcInput_eq]
  cases s with
  | tx =>
      cases c with
      | hpfTx y =>
          obtain ⟨-, rfl⟩ : _ ∧ y.toInt = x := by simpa [sample] using h
          have hlo := Int16.le_toInt y
          have hhi := Int16.toInt_lt y
          norm_num at hlo hhi
          simp only [peak]
          omega
      | _ => cases h
  | rx =>
      cases c with
      | update y z =>
          obtain ⟨-, rfl⟩ : _ ∧ z.toInt >>> (1 : ℕ) = x := by simpa [sample] using h
          obtain ⟨hlo, hhi⟩ : -16384 ≤ z.toInt >>> (1 : ℕ) ∧ z.toInt >>> (1 : ℕ) ≤ 16383 :=
            txIn_bounds z
          simp only [peak]
          omega
      | _ => cases h

theorem dc_flush (s : Side) (ec : EchoCan) : s.dc (echoCanFlush ec) = ⟨0, 0⟩ := by
  rw [echoCanFlush_eq]
  cases s <;> rfl

/-- A call leaves a filter alone or passes one sample through it. -/
theorem dc_step (s : Side) (ec : EchoCan) {c : Call} (hc : c ≠ .flush) :
    s.dc (echoCan.step ec c).1 =
      match s.sample ec c with
      | some x => ((s.dc ec).filter s.limit x).1
      | none => s.dc ec := by
  cases s with
  | tx =>
      cases c with
      | update y z => exact (echoCanUpdate_spec ec y z).txDc
      | hpfTx y =>
          change (echoCanHpfTx ec y).1.txDc = _
          simp only [sample, echoCanHpfTx]
          split <;> rfl
      | flush => exact absurd rfl hc
      | adaptionMode mode => rfl
      | snapshot => rfl
  | rx =>
      cases c with
      | update y z =>
          change (echoCanUpdate ec y z).1.rxDc = _
          rw [(echoCanUpdate_spec ec y z).rxDc, EchoCan.rxDcNext, EchoCanCore.highPassRx]
          simp only [sample]
          split <;> rfl
      | hpfTx y =>
          change (echoCanHpfTx ec y).1.rxDc = _
          rw [echoCanHpfTx_eq]
          rfl
      | flush => exact absurd rfl hc
      | adaptionMode mode => rfl
      | snapshot => rfl

end Side

/-- A filter follows its inputs, and they are in range. -/
structure Filtered (s : Side) (xs : List ℤ) (ec : EchoCan) : Prop where
  follows : (s.dc ec).Follows xs
  peak : ∀ x ∈ xs, -s.peak ≤ x ∧ x ≤ s.peak

section

variable {s : Side} {xs : List ℤ} {ec : EchoCan} (h : Filtered s xs ec)

include h

theorem Filtered.peak_cons {c : Call} {x : ℤ} (hx : s.sample ec c = some x) :
    ∀ y ∈ dcInput x :: xs, -s.peak ≤ y ∧ y ≤ s.peak := by
  intro y hy
  rcases List.mem_cons.mp hy with rfl | hy
  · exact (Side.sample_bounds hx).2
  · exact h.peak y hy

theorem Filtered.filter {c : Call} {x : ℤ} (hx : s.sample ec c = some x) :
    ((s.dc ec).filter s.limit x).1.Follows (dcInput x :: xs) ∧
      ((s.dc ec).filter s.limit x).2 = dcOutput s.limit (dcInput x :: xs) := by
  have hrun := DcBlocker.run_bounds (b := dcLog2Beta) (by cases s <;> decide) (h.peak_cons hx)
  have hpeak : 2 * s.peak + (2 ^ dcLog2Beta - 1) ≤ 2147483647 := by cases s <;> decide
  exact h.follows.filter (by cases s <;> decide) (Side.sample_bounds hx).1
    ⟨by unfold dcLog2Beta at hrun hpeak ⊢; omega, hrun.2.trans hpeak⟩

theorem Filtered.step {c : Call} (hc : c ≠ .flush) {x : ℤ} (hx : s.sample ec c = some x) :
    Filtered s (dcInput x :: xs) (echoCan.step ec c).1 := by
  have hdc := s.dc_step ec hc
  simp only [hx] at hdc
  refine ⟨?_, h.peak_cons hx⟩
  rw [hdc]
  exact (h.filter hx).1

theorem Filtered.abs_z1_le : |(s.dc ec).z1| ≤ 2 * s.peak + 7 := by
  obtain ⟨hlo, hhi⟩ := DcBlocker.run_bounds (b := dcLog2Beta) (by cases s <;> decide) h.peak
  rw [h.follows.z1]
  unfold dcLog2Beta at hlo hhi ⊢
  exact abs_le.mpr ⟨by omega, by omega⟩

end

theorem filtered_of_run (s : Side) (len : ℕ) (mode : BitVec 32) (calls : List Call) :
    Filtered s (s.inputs (echoCan.trace (echoCanCreate len mode) calls))
      (echoCan.run (echoCanCreate len mode) calls) := by
  refine echoCan.run_induction (P := fun calls ec =>
    Filtered s (s.inputs (echoCan.trace (echoCanCreate len mode) calls)) ec) ?_ ?_ calls
  · refine ⟨?_, fun x hx => by cases hx⟩
    cases s <;> exact ⟨rfl, rfl⟩
  · intro calls c ih
    rw [Mealy.trace_concat]
    by_cases hc : c = .flush
    · subst hc
      have hinputs : ∀ t, s.inputs (echoCan.trace (echoCanCreate len mode) calls ++
          [⟨echoCan.run (echoCanCreate len mode) calls, .flush, t⟩]) = [] := by
        intro t
        simp [Side.inputs, stepsSinceFlush_concat]
      rw [hinputs]
      refine ⟨?_, fun x hx => by cases hx⟩
      change (s.dc (echoCanFlush _)).Follows []
      rw [s.dc_flush]
      exact ⟨rfl, rfl⟩
    · have hdc := s.dc_step (echoCan.run (echoCanCreate len mode) calls) hc
      cases hx : s.sample (echoCan.run (echoCanCreate len mode) calls) c with
      | none =>
          simp only [hx] at hdc
          simp only [Side.inputs, stepsSinceFlush_concat, hc, if_false, List.filterMap_cons, hx]
          refine ⟨?_, ih.peak⟩
          rw [hdc]
          exact ih.follows
      | some x =>
          simp only [Side.inputs, stepsSinceFlush_concat, hc, if_false, List.filterMap_cons, hx,
            List.map_cons]
          exact ih.step hc hx

/-! ### The sums of the recursion -/

/-- The step from the last scaled input leaves the feedback its room. -/
structure DcFilter.StepInRange (f : DcFilter) (sample : ℤ) : Prop where
  up : 30720 * sample - f.z2 ≤ 2147483647 + f.z1 / 8
  down : f.z1 / 8 - 2147483648 ≤ 30720 * sample - f.z2

/-- Of all the sums only the difference of the inputs can overflow. -/
theorem Filtered.exact_iff {s : Side} {xs : List ℤ} {ec : EchoCan} (h : Filtered s xs ec) {c : Call}
    {x : ℤ} (hx : s.sample ec c = some x) :
    (s.dc ec).Exact x ↔ (s.dc ec).StepInRange x := by
  obtain ⟨⟨hxlo, hxhi⟩, hlo, hhi⟩ := Side.sample_bounds hx
  have hpeak : 0 ≤ s.peak ∧ s.peak ≤ 1006632960 := by cases s <;> decide
  obtain ⟨hz1lo, hz1hi⟩ := abs_le.mp h.abs_z1_le
  have hz2 := DcBlocker.headD_bounds hpeak.1 h.peak
  rw [← h.follows.z2] at hz2
  have hrun := DcBlocker.run_bounds (b := dcLog2Beta) hpeak.1 (h.peak_cons hx)
  rw [DcBlocker.run, ← h.follows.z1, ← h.follows.z2, DcBlocker.step] at hrun
  have hshift : (s.dc ec).z1 >>> dcLog2Beta = (s.dc ec).z1 / 8 := Int.shiftRight_eq_div_pow _ _
  have hfour : (x <<< (15 : ℕ)) >>> (4 : ℕ) = x * 2 ^ 15 / 16 := by
    rw [Int.shiftLeft_eq, Int.shiftRight_eq_div_pow]
    rfl
  have hinput := dcInput_eq x
  simp only [dcLog2Beta] at hrun
  constructor
  · intro hexact
    obtain ⟨hdlo, hdhi⟩ := hexact.difference
    rw [hshift] at hdlo hdhi
    norm_num at hdlo hdhi
    constructor
    · omega
    · omega
  · rintro ⟨hup, hdown⟩
    constructor
    · rw [Int.shiftLeft_eq]
      exact fits_of_bounds (by omega) (by omega)
    · rw [hfour]
      exact fits_of_bounds (by omega) (by omega)
    all_goals
      simp only [hinput, hshift]
      exact fits_of_bounds (by omega) (by omega)

/-- Two samples that are not almost a full scale apart never overflow. -/
theorem Filtered.stepInRange_of_jump {s : Side} {xs : List ℤ} {ec : EchoCan}
    (h : Filtered s xs ec) {x : ℤ} (hjump : |30720 * x - (s.dc ec).z2| ≤ 30720 * 61713) :
    (s.dc ec).StepInRange x := by
  have hpeak : s.peak ≤ 1006632960 := by cases s <;> decide
  obtain ⟨hlo, hhi⟩ := abs_le.mp h.abs_z1_le
  obtain ⟨hdown, hup⟩ := abs_le.mp hjump
  constructor
  · omega
  · omega

/-- On the receive side, where the samples are halved, no sum overflows. -/
theorem Filtered.exact {xs : List ℤ} {ec : EchoCan} (h : Filtered .rx xs ec) {tx rx : Int16} {x : ℤ}
    (hx : Side.rx.sample ec (.update tx rx) = some x) : ec.rxDc.Exact x := by
  refine (h.exact_iff hx).mpr (h.stepInRange_of_jump (abs_le.mpr ?_))
  obtain ⟨⟨hxlo, hxhi⟩, -⟩ := Side.sample_bounds hx
  obtain ⟨hlo, hhi⟩ := DcBlocker.headD_bounds (by decide) h.peak
  rw [← h.follows.z2] at hlo hhi
  simp only [Side.peak] at hlo hhi
  constructor
  · omega
  · omega

/-! ### Both filters in every run -/

/-- In every run both filters hold the recursion over the integers, and every
sample they pass on is its hard limited integer part. -/
theorem dc_filters_exact (len : ℕ) (mode : BitVec 32) (calls : List Call) :
    let ec := echoCan.run (echoCanCreate len mode) calls
    let txs := Side.tx.inputs (echoCan.trace (echoCanCreate len mode) calls)
    let rxs := Side.rx.inputs (echoCan.trace (echoCanCreate len mode) calls)
    (ec.txDc.z1 = DcBlocker.run 3 txs ∧ |ec.txDc.z1| ≤ 2013265927) ∧
      (ec.rxDc.z1 = DcBlocker.run 3 rxs ∧ |ec.rxDc.z1| ≤ 1006632967) ∧
      (hasFlag ec.adaptionMode echoCanUseTxHpf = true → ∀ tx : Int16,
        (echoCanHpfTx ec tx).2.toInt = dcOutput 32767 (dcInput tx.toInt :: txs)) ∧
      (hasFlag ec.adaptionMode echoCanUseRxHpf = true → ∀ rx : Int16,
        ec.rxDc.Exact (rx.toInt >>> (1 : ℕ)) ∧
          ec.rxIn rx = dcOutput 16383 (dcInput (rx.toInt >>> (1 : ℕ)) :: rxs)) := by
  have htx := filtered_of_run .tx len mode calls
  have hrx := filtered_of_run .rx len mode calls
  refine ⟨⟨htx.follows.z1, htx.abs_z1_le⟩, ⟨hrx.follows.z1, hrx.abs_z1_le⟩, ?_, ?_⟩
  · intro hflag tx
    have hsample : Side.tx.sample (echoCan.run (echoCanCreate len mode) calls) (.hpfTx tx) =
        some tx.toInt := by simp [Side.sample, hflag]
    have hout := (htx.filter hsample).2
    obtain ⟨hlo, hhi⟩ := dcOutput_bounds (by norm_num : (0 : ℤ) ≤ 32767) (dcInput tx.toInt ::
      Side.tx.inputs (echoCan.trace (echoCanCreate len mode) calls))
    simp only [echoCanHpfTx, hflag, if_true]
    change (Int16.ofInt ((Side.tx.dc _).filter Side.tx.limit tx.toInt).2).toInt = _
    rw [hout, Int16.toInt_ofInt]
    exact i16_of_bounds (by simp only [Side.limit]; omega) (by simp only [Side.limit]; omega)
  · intro hflag rx
    have hsample : Side.rx.sample (echoCan.run (echoCanCreate len mode) calls) (.update 0 rx) =
        some (rx.toInt >>> (1 : ℕ)) := by simp [Side.sample, hflag]
    refine ⟨hrx.exact hsample, ?_⟩
    simp only [EchoCan.rxIn, EchoCanCore.highPassRx, hflag, if_true]
    exact (hrx.filter hsample).2

/-- The largest step on the transmit side. -/
theorem dc_filters_exact_full_scale :
    (echoCanHpfTx (echoCan.run (echoCanCreate 2 echoCanUseTxHpf) [.hpfTx 32767]) (-32768)).2.toInt =
      dcOutput 32767 [dcInput (-32768), dcInput 32767] := by
  have hinputs : Side.tx.inputs (echoCan.trace (echoCanCreate 2 echoCanUseTxHpf) [.hpfTx 32767]) =
      [dcInput 32767] := rfl
  have h := (dc_filters_exact 2 echoCanUseTxHpf [.hpfTx 32767]).2.2.1 (by decide) (-32768)
  rw [hinputs] at h
  exact h

/-! ### The sums on the transmit side -/

theorem txDc_run {ec : EchoCan} {calls : List Call} (hflush : .flush ∉ calls)
    (hhpf : ∀ tx, .hpfTx tx ∉ calls) : (echoCan.run ec calls).txDc = ec.txDc := by
  induction calls generalizing ec with
  | nil => rfl
  | cons c calls ih =>
      have hdc := Side.tx.dc_step ec (List.ne_of_not_mem_cons hflush).symm
      have hnone : Side.tx.sample ec c = none := by
        cases c with
        | hpfTx tx => exact absurd List.mem_cons_self (hhpf tx)
        | _ => rfl
      simp only [hnone] at hdc
      rw [Mealy.run_cons, ih (List.not_mem_of_not_mem_cons hflush)
        fun tx => List.not_mem_of_not_mem_cons (hhpf tx)]
      exact hdc

/-- The sample after `last` is in range unless it is almost a full scale away. -/
theorem stepInRange_of_consecutive (len : ℕ) (mode : BitVec 32) (pre between : List Call)
    {last tx : Int16} (hflush : .flush ∉ between) (hhpf : ∀ y, .hpfTx y ∉ between)
    (hflag : hasFlag (echoCan.run (echoCanCreate len mode) pre).adaptionMode echoCanUseTxHpf = true)
    (hjump : |tx.toInt - last.toInt| ≤ 61713) :
    (echoCan.run (echoCanCreate len mode) (pre ++ [.hpfTx last] ++ between)).txDc.StepInRange
      tx.toInt := by
  have hsample : Side.tx.sample (echoCan.run (echoCanCreate len mode) pre) (.hpfTx last) =
      some last.toInt := by simp [Side.sample, hflag]
  have hlast := (filtered_of_run .tx len mode pre).step (c := .hpfTx last) nofun hsample
  have hz2 : (echoCan.step (echoCan.run (echoCanCreate len mode) pre) (.hpfTx last)).1.txDc.z2 =
      30720 * last.toInt := hlast.follows.z2.trans (dcInput_eq _)
  rw [Mealy.run_append, txDc_run hflush hhpf, Mealy.run_concat]
  refine hlast.stepInRange_of_jump ?_
  show |30720 * tx.toInt - (echoCan.step _ (.hpfTx last)).1.txDc.z2| ≤ _
  rw [hz2, ← mul_sub, abs_mul]
  exact mul_le_mul_of_nonneg_left hjump (by norm_num)

/-- In every run, the transmit filter is free of overflow exactly when every
sample that it is given is in range for the state that it finds; and a sample
that is not almost a full scale away from the last one always is. -/
theorem hpf_tx_exact_iff (len : ℕ) (mode : BitVec 32) (calls : List Call) :
    ((∀ pre tx, pre ++ [.hpfTx tx] <+: calls →
        hasFlag (echoCan.run (echoCanCreate len mode) pre).adaptionMode echoCanUseTxHpf = true →
        (echoCan.run (echoCanCreate len mode) pre).txDc.Exact tx.toInt) ↔
      ∀ pre tx, pre ++ [.hpfTx tx] <+: calls →
        hasFlag (echoCan.run (echoCanCreate len mode) pre).adaptionMode echoCanUseTxHpf = true →
        (echoCan.run (echoCanCreate len mode) pre).txDc.StepInRange tx.toInt) ∧
    ∀ pre last between tx, pre ++ [.hpfTx last] ++ between ++ [.hpfTx tx] <+: calls →
      .flush ∉ between → (∀ y, .hpfTx y ∉ between) →
      hasFlag (echoCan.run (echoCanCreate len mode) pre).adaptionMode echoCanUseTxHpf = true →
      |tx.toInt - last.toInt| ≤ 61713 →
      (echoCan.run (echoCanCreate len mode) (pre ++ [.hpfTx last] ++ between)).txDc.StepInRange
        tx.toInt := by
  refine ⟨?_, fun pre last between tx _ hflush hhpf hflag hjump =>
    stepInRange_of_consecutive len mode pre between hflush hhpf hflag hjump⟩
  apply forall_congr'
  intro pre
  apply forall_congr'
  intro tx
  apply imp_congr_right
  intro _
  apply imp_congr_right
  intro hflag
  have hsample : Side.tx.sample (echoCan.run (echoCanCreate len mode) pre) (.hpfTx tx) =
      some tx.toInt := by simp [Side.sample, hflag]
  exact (filtered_of_run .tx len mode pre).exact_iff hsample

/-- Three full scale samples of alternating sign. -/
theorem hpf_tx_overflows :
    ¬ (echoCan.run (echoCanCreate 2 echoCanUseTxHpf)
        [.hpfTx 32767, .hpfTx (-32768)]).txDc.Exact (Int16.toInt 32767) := by
  intro h
  have hdifference := h.difference
  revert hdifference
  decide +kernel

end Oslec
