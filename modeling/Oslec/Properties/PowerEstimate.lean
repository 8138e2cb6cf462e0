import Oslec.Canceller.Levels
import Oslec.Library.ClampedSum
import Oslec.Properties.ShiftRegister
import Mathlib.Tactic.Positivity

/-!
The running power estimate `Pstates`. Each update adds one rounded difference
of squares and clamps the result at zero; nothing ever recomputes the block
power. The estimate is therefore the greatest sum of a final stretch of rounded
differences, and it is as far from the block power as the rounding errors of
such a stretch have added up to.
-/

namespace Oslec

open TwosComplement

/-- The power of the `n` most recent samples of `H`. -/
def blockPower (n : ℕ) (H : List ℤ) : ℤ := ∑ i ∈ Finset.range n, H.getD i 0 ^ 2

/-- What the rounding shift adds to a difference of squares, in units of `2^-k`. -/
def roundingError (k : ℕ) (d : ℤ) : ℤ := 2 ^ k * ((d + 2 ^ (k - 1)) / 2 ^ k) - d

/-- The rounding errors of the `m` most recent updates, added up. -/
def roundingDrift (k m : ℕ) (H : List ℤ) : ℤ :=
  ∑ i ∈ Finset.range m, roundingError k (H.getD i 0 ^ 2 - H.getD (i + 2 ^ k) 0 ^ 2)

/-- On no final stretch of updates have the rounding errors added up to more
than `4 ^ k` beyond the block power at its start, and on some final stretch
they have come within `4 ^ k` of it. -/
structure DriftBounded (k : ℕ) (H : List ℤ) : Prop where
  upper : ∀ m ≤ H.length, roundingDrift k m H ≤ 4 ^ k + blockPower (2 ^ k) (H.drop m)
  lower : ∃ m ≤ H.length, blockPower (2 ^ k) (H.drop m) - 4 ^ k ≤ roundingDrift k m H

instance (k : ℕ) (H : List ℤ) : Decidable (DriftBounded k H) :=
  decidable_of_iff ((∀ m ≤ H.length, _) ∧ ∃ m ≤ H.length, _)
    ⟨fun h => ⟨h.1, h.2⟩, fun h => ⟨h.upper, h.lower⟩⟩

/-- `Pstates` is within the number of taps of the block power of the history. -/
def PowerTracks (len : ℕ) (ec : EchoCan) : Prop :=
  |(ec.pstates : ℚ) - ((ec.firState.history.map (· ^ 2)).sum : ℤ) / 2 ^ ec.log2taps| ≤ len

/-! ### The estimate over the integers -/

/-- The increments of the estimate, the last one first. -/
def powerSteps (k : ℕ) : List ℤ → List ℤ
  | [] => []
  | s :: older =>
      (s ^ 2 - older.getD (2 ^ k - 1) 0 ^ 2 + 2 ^ (k - 1)) / 2 ^ k :: powerSteps k older

@[simp] theorem length_powerSteps (k : ℕ) (H : List ℤ) : (powerSteps k H).length = H.length := by
  induction H with
  | nil => rfl
  | cons s older ih => simp only [powerSteps, List.length_cons, ih]

theorem blockPower_cons {n : ℕ} (hn : 0 < n) (s : ℤ) (H : List ℤ) :
    blockPower n (s :: H) = blockPower n H + (s ^ 2 - H.getD (n - 1) 0 ^ 2) := by
  obtain ⟨m, rfl⟩ := Nat.exists_eq_succ_of_ne_zero hn.ne'
  have hlast : blockPower (m + 1) H = blockPower m H + H.getD m 0 ^ 2 := Finset.sum_range_succ _ _
  have hfirst : blockPower (m + 1) (s :: H) = blockPower m H + s ^ 2 :=
    Finset.sum_range_succ' _ _
  rw [hfirst, hlast, Nat.succ_sub_one]
  ring

theorem roundingDrift_cons (k m : ℕ) (s : ℤ) (H : List ℤ) :
    roundingDrift k (m + 1) (s :: H) =
      roundingDrift k m H + roundingError k (s ^ 2 - H.getD (2 ^ k - 1) 0 ^ 2) := by
  obtain ⟨n, hn⟩ := Nat.exists_eq_succ_of_ne_zero (Nat.two_pow_pos k).ne'
  unfold roundingDrift
  rw [Finset.sum_range_succ']
  congr 1
  · apply Finset.sum_congr rfl
    intro i _
    rw [List.getD_cons_succ, Nat.add_right_comm, List.getD_cons_succ]
  · rw [hn, Nat.zero_add, List.getD_cons_succ, List.getD_cons_zero, Nat.succ_sub_one]

/-- The increments of a stretch add up to the change of the block power over it
plus the rounding errors made on it. -/
theorem sum_take_powerSteps (k : ℕ) {m : ℕ} {H : List ℤ} (hm : m ≤ H.length) :
    2 ^ k * ((powerSteps k H).take m).sum =
      blockPower (2 ^ k) H - blockPower (2 ^ k) (H.drop m) + roundingDrift k m H := by
  induction m generalizing H with
  | zero => simp [roundingDrift]
  | succ m ih =>
      cases H with
      | nil => simp at hm
      | cons s older =>
          have hstep : 2 ^ k * ((s ^ 2 - older.getD (2 ^ k - 1) 0 ^ 2 + 2 ^ (k - 1)) / 2 ^ k) =
              s ^ 2 - older.getD (2 ^ k - 1) 0 ^ 2 +
                roundingError k (s ^ 2 - older.getD (2 ^ k - 1) 0 ^ 2) := by
            unfold roundingError
            ring
          rw [powerSteps, List.take_succ_cons, List.sum_cons, mul_add, hstep,
            ih (Nat.le_of_succ_le_succ hm), roundingDrift_cons, blockPower_cons (Nat.two_pow_pos k),
            List.drop_succ_cons]
          ring

/-- The clamped sum of the increments is near the block power exactly when the
drift is bounded. -/
theorem clampedSum_powerSteps_iff (k : ℕ) (H : List ℤ) :
    |2 ^ k * clampedSum (powerSteps k H) - blockPower (2 ^ k) H| ≤ 4 ^ k ↔ DriftBounded k H := by
  have hpow : (0 : ℤ) ≤ 2 ^ k := by positivity
  obtain ⟨j, hj, hmax⟩ := exists_clampedSum_eq (powerSteps k H)
  rw [length_powerSteps] at hj
  have hjsum := sum_take_powerSteps k hj
  rw [← hmax] at hjsum
  have hle : ∀ m ≤ H.length, blockPower (2 ^ k) H - blockPower (2 ^ k) (H.drop m) +
      roundingDrift k m H ≤ 2 ^ k * clampedSum (powerSteps k H) := by
    intro m hm
    rw [← sum_take_powerSteps k hm]
    exact mul_le_mul_of_nonneg_left (sum_take_le_clampedSum _ m) hpow
  rw [abs_le]
  constructor
  · rintro ⟨hlower, hupper⟩
    refine ⟨fun m hm => ?_, j, hj, ?_⟩
    · have := hle m hm
      omega
    · omega
  · rintro ⟨hupper, m, hm, hlower⟩
    have hlow := hle m hm
    have hup := hupper j hj
    omega

/-! ### The estimate the canceller keeps -/

theorem topBit_two_pow {k : ℕ} (hk : k ≤ 30) : topBit (BitVec.ofNat 32 (2 ^ k)) = k := by
  have hall : ∀ j : Fin 31, topBit (BitVec.ofNat 32 (2 ^ j.val)) = j.val := by decide
  exact hall ⟨k, by omega⟩

theorem txHistory_sq_le (calls : List Call) (i : ℕ) : (txHistory calls).getD i 0 ^ 2 ≤ 2 ^ 28 := by
  obtain ⟨hlo, hhi⟩ := txHistory_bounds calls i
  nlinarith

theorem blockPower_bounds (n : ℕ) (calls : List Call) :
    0 ≤ blockPower n (txHistory calls) ∧ blockPower n (txHistory calls) ≤ n * 2 ^ 28 := by
  refine ⟨Finset.sum_nonneg fun i _ => sq_nonneg _, ?_⟩
  have h := Finset.sum_le_card_nsmul (Finset.range n) (fun i => (txHistory calls).getD i 0 ^ 2)
    (2 ^ 28) fun i _ => txHistory_sq_le calls i
  rwa [Finset.card_range, nsmul_eq_mul] at h

theorem EchoCan.Represents.sum_sq {n : ℕ} {ec : EchoCan} {r : RingBuffer ℤ n} {H : List ℤ}
    (h : ec.Represents r) (hH : ∀ k < n, r.window.getD k 0 = H.getD k 0) :
    (ec.firState.history.map (· ^ 2)).sum = blockPower n H := by
  -- a sum of squares does not see where the ring starts
  have hperm : (r.window.map (· ^ 2)).sum = (r.cells.map (· ^ 2)).sum :=
    ((List.rotate_perm r.cells (r.pos + 1)).map _).sum_eq
  have hrange : r.window.map (· ^ 2) =
      (List.range n).map fun i => r.window.getD i 0 ^ 2 := by
    apply List.ext_getElem (by simp)
    intro i hi hi'
    have hi : i < r.window.length := by simpa using hi
    rw [List.getElem_map, List.getElem_map, List.getElem_range, List.getD_eq_getElem?_getD,
      List.getElem?_eq_getElem hi, Option.getD_some]
  have hsum : blockPower n H = ((List.range n).map fun i => r.window.getD i 0 ^ 2).sum := by
    apply Finset.sum_congr rfl
    intro i hi
    rw [hH i (Finset.mem_range.mp hi)]
  rw [h.fir.history, ← hperm, hrange, hsum]

theorem EchoCan.pstatesNext_eq {ec : EchoCan} {k : ℕ} (hk : 1 ≤ k) (hlog : ec.log2taps = k)
    (hnonneg : 0 ≤ ec.pstates) (hbound : ec.pstates ≤ 2 ^ 28 + 2 ^ 30)
    (hold : ec.oldest ^ 2 ≤ 2 ^ 28) (tx : Int16) :
    ec.pstatesNext tx =
      max 0 ((txIn tx ^ 2 - ec.oldest ^ 2 + 2 ^ (k - 1)) / 2 ^ k + ec.pstates) := by
  have hnew : txIn tx ^ 2 ≤ 2 ^ 28 := by
    obtain ⟨hlo, hhi⟩ := txIn_bounds tx
    nlinarith
  have hpow : (0 : ℤ) < 2 ^ k := by positivity
  have hhalf : (2 : ℤ) ^ k = 2 * 2 ^ (k - 1) := two_pow_pred hk
  have hone : (1 : ℤ) ≤ 2 ^ k := hpow
  have hup : (txIn tx ^ 2 - ec.oldest ^ 2 + 2 ^ (k - 1)) / 2 ^ k ≤ 2 ^ 28 + 1 := by
    refine Int.ediv_le_of_le_mul hpow ?_
    nlinarith [sq_nonneg ec.oldest]
  have hlo : -(2 ^ 28) ≤ (txIn tx ^ 2 - ec.oldest ^ 2 + 2 ^ (k - 1)) / 2 ^ k := by
    refine (Int.le_ediv_iff_mul_le hpow).mpr ?_
    nlinarith [sq_nonneg (txIn tx)]
  have hsum : i32 (ec.pstates + (txIn tx ^ 2 - ec.oldest ^ 2 + 2 ^ (k - 1)) / 2 ^ k) =
      (txIn tx ^ 2 - ec.oldest ^ 2 + 2 ^ (k - 1)) / 2 ^ k + ec.pstates := by
    rw [i32_of_bounds (by omega) (by omega), add_comm]
  have hexp : ((ec.log2taps - 1).toNat = k - 1) ∧ ec.log2taps.toNat = k := by omega
  have hcast : ((2 ^ k : ℕ) : ℤ) = 2 ^ k := by push_cast; rfl
  simp only [EchoCan.pstatesNext, EchoCanCore.averagePower, hexp.1, hexp.2,
    Int.shiftRight_eq_div_pow, Int.shiftLeft_eq, one_mul, ← sq, hcast, hsum]
  split
  · rw [max_eq_left (by omega)]
  · rw [max_eq_right (by omega)]

/-- The estimate is the clamped sum of the increments since the last flush, and
small enough for the next increment. -/
structure PowerExact (k : ℕ) (calls : List Call) (ec : EchoCan) : Prop where
  pstates : ec.pstates = clampedSum (powerSteps k (txHistory calls))
  bound : ec.pstates ≤ 2 ^ 28 + 2 ^ 30

theorem PowerExact.update {k : ℕ} (hk : 1 ≤ k) (hk' : k ≤ 30) {mode : BitVec 32}
    {calls : List Call}
    (h : PowerExact k calls (echoCan.run (echoCanCreate (2 ^ k) mode) calls)) (tx rx : Int16) :
    (echoCan.run (echoCanCreate (2 ^ k) mode) (calls ++ [.update tx rx])).pstates =
      clampedSum (powerSteps k (txIn tx :: txHistory calls)) := by
  have hn := Nat.two_pow_pos k
  obtain ⟨r, hr, hwindow⟩ := exists_ring_of_run hn mode calls
  have hlog := echoCan_run_log2taps (2 ^ k) mode calls
  rw [topBit_two_pow hk'] at hlog
  have hold : (echoCan.run (echoCanCreate (2 ^ k) mode) calls).oldest =
      (txHistory calls).getD (2 ^ k - 1) 0 :=
    (hr.reads tx).oldest.trans (hwindow _ (by omega))
  have hnonneg : 0 ≤ (echoCan.run (echoCanCreate (2 ^ k) mode) calls).pstates := by
    rw [h.pstates]
    exact clampedSum_nonneg _
  rw [Mealy.run_concat]
  change (echoCanUpdate _ tx rx).1.pstates = _
  rw [(echoCanUpdate_spec _ tx rx).pstates, EchoCan.pstatesNext_eq hk hlog hnonneg h.bound
    (by rw [hold]; exact txHistory_sq_le calls _), hold, h.pstates]
  rfl

/-- Where the estimate is the clamped sum, it tracks the block power exactly
when the drift is bounded. -/
theorem powerTracks_iff {k : ℕ} (hk' : k ≤ 30) {mode : BitVec 32} {calls : List Call}
    (h : (echoCan.run (echoCanCreate (2 ^ k) mode) calls).pstates =
      clampedSum (powerSteps k (txHistory calls))) :
    PowerTracks (2 ^ k) (echoCan.run (echoCanCreate (2 ^ k) mode) calls) ↔
      DriftBounded k (txHistory calls) := by
  obtain ⟨r, hr, hwindow⟩ := exists_ring_of_run (Nat.two_pow_pos k) mode calls
  have hlog := echoCan_run_log2taps (2 ^ k) mode calls
  rw [topBit_two_pow hk'] at hlog
  have hpow : (0 : ℚ) < 2 ^ k := by positivity
  have hfour : (4 : ℚ) ^ k = 2 ^ k * 2 ^ k := by rw [← mul_pow]; norm_num
  rw [← clampedSum_powerSteps_iff, ← h, PowerTracks, hr.sum_sq hwindow, hlog, zpow_natCast]
  have hdist : ((echoCan.run (echoCanCreate (2 ^ k) mode) calls).pstates : ℚ) -
      (blockPower (2 ^ k) (txHistory calls) : ℚ) / 2 ^ k =
      ((2 ^ k * (echoCan.run (echoCanCreate (2 ^ k) mode) calls).pstates -
        blockPower (2 ^ k) (txHistory calls) : ℤ) : ℚ) / 2 ^ k := by
    push_cast
    field_simp
  rw [hdist, abs_div, abs_of_pos hpow, div_le_iff₀ hpow, ← Int.cast_abs]
  push_cast
  rw [← hfour]
  exact_mod_cast Iff.rfl

theorem pstates_le_of_driftBounded {k : ℕ} (hk' : k ≤ 30) {calls : List Call}
    (h : DriftBounded k (txHistory calls)) :
    clampedSum (powerSteps k (txHistory calls)) ≤ 2 ^ 28 + 2 ^ 30 := by
  have hpow : (0 : ℤ) < 2 ^ k := by positivity
  have hfour : (4 : ℤ) ^ k = 2 ^ k * 2 ^ k := by rw [← mul_pow]; norm_num
  have hmono : (2 : ℤ) ^ k ≤ 2 ^ 30 := pow_le_pow_right₀ (by norm_num) hk'
  have hblock := (blockPower_bounds (2 ^ k) calls).2
  push_cast at hblock
  have hdist := (abs_le.mp ((clampedSum_powerSteps_iff k _).mpr h)).2
  refine le_of_mul_le_mul_left ?_ hpow
  nlinarith

/-- Every update of the run has kept track of the power, or kept the drift bounded. -/
def PowerKept (k : ℕ) (mode : BitVec 32) (calls : List Call) : Prop :=
  ∀ pre tx rx, UpdateAt calls pre tx rx →
    PowerTracks (2 ^ k) (echoCan.run (echoCanCreate (2 ^ k) mode) (pre ++ [.update tx rx])) ∨
      DriftBounded k (txIn tx :: txHistory pre)

theorem PowerKept.of_prefix {k : ℕ} {mode : BitVec 32} {pre calls : List Call}
    (h : PowerKept k mode calls) (hpre : pre <+: calls) : PowerKept k mode pre :=
  fun pre' tx rx hat => h pre' tx rx (hat.trans hpre)

/-- As long as every update has kept track of the power or kept the drift
bounded, the estimate is the clamped sum of its increments. -/
theorem powerExact_of_run {k : ℕ} (hk : 1 ≤ k) (hk' : k ≤ 30) (mode : BitVec 32)
    (calls : List Call) (h : PowerKept k mode calls) :
    PowerExact k calls (echoCan.run (echoCanCreate (2 ^ k) mode) calls) := by
  revert h
  refine echoCan_run_induction (P := fun calls ec => PowerKept k mode calls →
    PowerExact k calls ec) ?_ ?_ ?_ ?_ calls
  · intro _
    exact ⟨rfl, (by norm_num : (0 : ℤ) ≤ 2 ^ 28 + 2 ^ 30)⟩
  · intro calls tx rx ih h
    have hpstates := (ih (h.of_prefix (List.prefix_append _ _))).update hk hk' tx rx
    rw [← txHistory_update calls tx rx] at hpstates
    -- this update has kept the estimate small, so the next sum fits 32 bits
    have hdrift : DriftBounded k (txHistory (calls ++ [.update tx rx])) := by
      rcases h calls tx rx (List.prefix_refl _) with htracks | hdrift
      · exact (powerTracks_iff hk' hpstates).mp htracks
      · rwa [txHistory_update]
    have hbound := pstates_le_of_driftBounded hk' hdrift
    rw [← hpstates] at hbound
    rw [Mealy.run_concat] at hpstates hbound
    exact ⟨hpstates, hbound⟩
  · intro calls _ _
    rw [echoCanFlush_eq]
    constructor
    · rw [txHistory_flush]
      rfl
    · exact (by norm_num : (0 : ℤ) ≤ 2 ^ 28 + 2 ^ 30)
  · intro calls c txDc mode snapshot hc ih h
    obtain ⟨hpstates, hbound⟩ := ih (h.of_prefix (List.prefix_append _ _))
    refine ⟨?_, hbound⟩
    rw [txHistory_quiet calls hc]
    exact hpstates

theorem PowerKept.tracks_iff {k : ℕ} (hk : 1 ≤ k) (hk' : k ≤ 30) {mode : BitVec 32}
    {calls : List Call} (h : PowerKept k mode calls) {pre : List Call} {tx rx : Int16}
    (hat : UpdateAt calls pre tx rx) :
    PowerTracks (2 ^ k) (echoCan.run (echoCanCreate (2 ^ k) mode) (pre ++ [.update tx rx])) ↔
      DriftBounded k (txIn tx :: txHistory pre) := by
  have hpre : pre <+: calls := (List.prefix_append _ _).trans hat
  have hpstates := (powerExact_of_run hk hk' mode pre (h.of_prefix hpre)).update hk hk' tx rx
  rw [← txHistory_update pre tx rx] at hpstates ⊢
  exact powerTracks_iff hk' hpstates

/-- In every run, the estimate tracks the block power after each update exactly
when the rounding errors stay bounded at each of them. -/
theorem power_tracks_iff (k : ℕ) (hk : 1 ≤ k) (hk' : k ≤ 30) (mode : BitVec 32)
    (calls : List Call) :
    (∀ pre tx rx, UpdateAt calls pre tx rx →
        PowerTracks (2 ^ k)
          (echoCan.run (echoCanCreate (2 ^ k) mode) (pre ++ [.update tx rx]))) ↔
      ∀ pre tx rx, UpdateAt calls pre tx rx → DriftBounded k (txIn tx :: txHistory pre) := by
  constructor
  · intro h pre tx rx hat
    have hkept : PowerKept k mode calls := fun pre tx rx hat => Or.inl (h pre tx rx hat)
    exact (hkept.tracks_iff hk hk' hat).mp (h pre tx rx hat)
  · intro h pre tx rx hat
    have hkept : PowerKept k mode calls := fun pre tx rx hat => Or.inr (h pre tx rx hat)
    exact (hkept.tracks_iff hk hk' hat).mpr (h pre tx rx hat)

/-- A loud far end that starts, goes on and stops. -/
theorem power_tracks_iff_loud_echo :
    (echoCan.run (echoCanCreate (2 ^ 1) echoCanUseAdaption)
        (List.replicate 6 (.update 32766 10000))).pstates = 268402690 ∧
      ∀ pre tx rx,
        UpdateAt (List.replicate 6 (.update 32766 10000) ++ List.replicate 4 (.update 0 0)) pre
          tx rx →
        PowerTracks (2 ^ 1) (echoCan.run (echoCanCreate (2 ^ 1) echoCanUseAdaption)
          (pre ++ [.update tx rx])) :=
  ⟨by decide +kernel, (power_tracks_iff 1 (by decide) (by decide) echoCanUseAdaption
    (List.replicate 6 (.update 32766 10000) ++ List.replicate 4 (.update 0 0))).mpr
      (by decide +kernel)⟩

/-- Two taps and a pattern of the smallest samples: every sample that enters a
silent block counts as one, and no sample that leaves it counts at all. -/
theorem power_drifts_away :
    ¬ PowerTracks 2
        (echoCan.run (echoCanCreate 2 0#32)
          [.update 2 0, .update 2 0, .update 0 0, .update 0 0, .update 2 0]) := by
  have hrun :
      let ec := echoCan.run (echoCanCreate 2 0#32)
        [.update 2 0, .update 2 0, .update 0 0, .update 0 0, .update 2 0]
      ec.pstates = 3 ∧ (ec.firState.history.map (· ^ 2)).sum = 1 ∧ ec.log2taps = 1 := by
    decide +kernel
  obtain ⟨hpstates, hsum, hlog⟩ := hrun
  rw [PowerTracks, hpstates, hsum, hlog]
  norm_num [abs_of_pos]

end Oslec
