import Oslec.Properties.ComfortNoise
import Oslec.Properties.LevelTrackers

/-!
The background noise level against the gate that feeds it. The gate looks at
the short term level, the average takes the single sample; and while the
non-linear processor replaces the residual nothing is counted at all. Loud
samples that are counted between quiet ones that are not lift the average well
above the gate.
-/

namespace Oslec

open TwosComplement

/-- The magnitude of what the foreground filter leaves of the received sample. -/
def EchoCan.residual (ec : EchoCan) (tx rx : Int16) : ℤ := (ec.rxIn rx - ec.echoFg tx).natAbs

structure CountsResidual (ec : EchoCan) (tx rx : Int16) : Prop where
  nlp : hasFlag ec.adaptionMode echoCanUseNlp = true
  audible : (ec.ltx.average 5 (txIn tx).natAbs).level ≤
    16 * (ec.lclean.average 5 (ec.residual tx rx)).level
  low : (ec.lclean.average 5 (ec.residual tx rx)).level < 40

instance (ec : EchoCan) (tx rx : Int16) : Decidable (CountsResidual ec tx rx) :=
  decidable_of_iff (_ ∧ _ ∧ _) ⟨fun h => ⟨h.1, h.2.1, h.2.2⟩, fun h => ⟨h.nlp, h.audible, h.low⟩⟩

/-- How large a counted residual may be. -/
def EchoCan.headroom (ec : EchoCan) : ℤ := 165887 - (ec.lbgn.acc - ec.lbgn.level)

theorem EchoCan.residual_bounds (ec : EchoCan) (tx rx : Int16) :
    0 ≤ ec.residual tx rx ∧ ec.residual tx rx ≤ 49152 := by
  obtain ⟨hrxlo, hrxhi⟩ := ec.rxIn_bounds rx
  obtain ⟨hfglo, hfghi⟩ : -32768 ≤ ec.echoFg tx ∧ ec.echoFg tx ≤ 32767 := i16_bounds _
  unfold EchoCan.residual
  omega

/-- A residual that does not fit 16 bits, and the value stored for it, are both
far too loud to be counted. -/
theorem EchoCan.LevelsBounded.clean_eq_or_loud {ec : EchoCan} (h : ec.LevelsBounded)
    (tx rx : Int16) :
    ((i16 (ec.rxIn rx - ec.echoFg tx)).natAbs : ℤ) = ec.residual tx rx ∨
      40 ≤ (ec.lclean.average 5 (i16 (ec.rxIn rx - ec.echoFg tx)).natAbs).level ∧
        40 ≤ (ec.lclean.average 5 (ec.residual tx rx)).level := by
  obtain ⟨hlo, hhi⟩ := i16_bounds (ec.rxIn rx - ec.echoFg tx)
  obtain ⟨hrlo, hrhi⟩ := ec.residual_bounds tx rx
  obtain ⟨k, hk⟩ := i16_eq_add_mul (ec.rxIn rx - ec.echoFg tx)
  by_cases hfits : -32768 ≤ ec.rxIn rx - ec.echoFg tx ∧ ec.rxIn rx - ec.echoFg tx ≤ 32767
  · left
    rw [i16_of_bounds hfits.1 hfits.2]
    rfl
  · right
    unfold EchoCan.residual at hrlo hrhi
    constructor
    · by_contra hlow
      have := h.lclean.le_of_average_lt (le_refl _) (by omega) (by omega) (not_le.mp hlow)
      omega
    · by_contra hlow
      have := h.lclean.le_of_average_lt (le_refl _) (by unfold EchoCan.residual; omega)
        (by unfold EchoCan.residual; omega) (not_le.mp hlow)
      unfold EchoCan.residual at this
      omega

theorem EchoCan.LevelsBounded.estimatesNoise_iff {ec : EchoCan} (h : ec.LevelsBounded)
    (tx rx : Int16) :
    (echoCanUpdate ec tx rx).1.estimatesNoise = true ↔ CountsResidual ec tx rx := by
  have hspec := echoCanUpdate_spec ec tx rx
  obtain ⟨hlo, hhi⟩ := (h.update tx rx).lclean.level_bounds
  have hproduct : i32 (16 * (echoCanUpdate ec tx rx).1.lclean.level) =
      16 * (echoCanUpdate ec tx rx).1.lclean.level := i32_of_bounds (by omega) (by omega)
  have hgate : (echoCanUpdate ec tx rx).1.estimatesNoise = true ↔
      hasFlag ec.adaptionMode echoCanUseNlp = true ∧
        (echoCanUpdate ec tx rx).1.ltx.level ≤ 16 * (echoCanUpdate ec tx rx).1.lclean.level ∧
        (echoCanUpdate ec tx rx).1.lclean.level < 40 := by
    simp [EchoCanCore.estimatesNoise, hproduct, hspec.adaptionMode, and_assoc]
  rw [hgate, hspec.ltx, hspec.lclean]
  rcases h.clean_eq_or_loud tx rx with heq | ⟨hloud, hloud'⟩
  · rw [heq]
    constructor
    · rintro ⟨hnlp, haudible, hlow⟩
      exact ⟨hnlp, haudible, hlow⟩
    · rintro ⟨hnlp, haudible, hlow⟩
      exact ⟨hnlp, haudible, hlow⟩
  · constructor
    · rintro ⟨-, -, hlow⟩
      omega
    · rintro ⟨-, -, hlow⟩
      omega

/-- A counted residual is averaged without overflow, anything else is ignored. -/
theorem NoiseBounded.lbgn_update {ec : EchoCan} (h : NoiseBounded ec) (tx rx : Int16) :
    (CountsResidual ec tx rx → (echoCanUpdate ec tx rx).1.lbgn =
        ⟨LeakyAverage.step 12 ec.lbgn.acc (ec.residual tx rx),
          LeakyAverage.part 12 (LeakyAverage.step 12 ec.lbgn.acc (ec.residual tx rx))⟩) ∧
      (¬ CountsResidual ec tx rx → (echoCanUpdate ec tx rx).1.lbgn = ec.lbgn) := by
  have hspec := (echoCanUpdate_nonLinear ec tx rx).lbgn
  constructor
  · intro hcount
    have hestimates := (h.levels.estimatesNoise_iff tx rx).mpr hcount
    have hclean : ((echoCanUpdate ec tx rx).1.clean.natAbs : ℤ) = ec.residual tx rx := by
      rw [(echoCanUpdate_spec ec tx rx).clean]
      refine (h.levels.clean_eq_or_loud tx rx).resolve_right ?_
      rintro ⟨-, hloud⟩
      exact absurd hcount.low (not_lt.mpr hloud)
    have hle := h.levels.clean_le_of_estimatesNoise hestimates
    rw [hclean] at hle
    rw [hspec, if_pos hestimates, hclean]
    exact h.lbgn.average_eq (by norm_num) (by norm_num) (ec.residual_bounds tx rx).1 hle
  · intro hcount
    rw [hspec, if_neg]
    exact fun hestimates => hcount ((h.levels.estimatesNoise_iff tx rx).mp hestimates)

theorem part_le_forty_iff (acc : ℤ) : LeakyAverage.part 12 acc ≤ 40 ↔ acc ≤ 165887 := by
  unfold LeakyAverage.part
  norm_num
  omega

/-- One counted residual keeps the noise level under the gate exactly when it
fits the headroom. -/
theorem NoiseBounded.lbgn_update_le_iff {ec : EchoCan} (h : NoiseBounded ec) {tx rx : Int16}
    (hcount : CountsResidual ec tx rx) :
    (echoCanUpdate ec tx rx).1.lbgn.level ≤ 40 ↔ ec.residual tx rx ≤ ec.headroom := by
  rw [(h.lbgn_update tx rx).1 hcount, part_le_forty_iff, EchoCan.headroom, h.lbgn.level,
    LeakyAverage.step]
  constructor <;> intro hle <;> omega

/-- In every run the noise level stays under its gate exactly when every
counted residual fits the headroom. -/
theorem noise_under_gate_iff (len : ℕ) (mode : BitVec 32) (calls : List Call) :
    (∀ pre, pre <+: calls → (echoCan.run (echoCanCreate len mode) pre).lbgn.level ≤ 40) ↔
      ∀ pre tx rx, UpdateAt calls pre tx rx →
        CountsResidual (echoCan.run (echoCanCreate len mode) pre) tx rx →
          (echoCan.run (echoCanCreate len mode) pre).residual tx rx ≤
            (echoCan.run (echoCanCreate len mode) pre).headroom := by
  constructor
  · intro h pre tx rx hat hcount
    have hlevel := h _ hat
    rw [Mealy.run_concat] at hlevel
    exact ((noiseBounded_of_run len mode pre).lbgn_update_le_iff hcount).mp hlevel
  · intro h pre hpre
    revert hpre
    refine echoCan_run_induction (P := fun pre ec => pre <+: calls → ec.lbgn.level ≤ 40)
      ?_ ?_ ?_ ?_ pre
    · intro _
      exact (by norm_num : (0 : ℤ) ≤ 40)
    · intro pre tx rx ih hpre
      have hbounded := noiseBounded_of_run len mode pre
      by_cases hcount : CountsResidual (echoCan.run (echoCanCreate len mode) pre) tx rx
      · exact (hbounded.lbgn_update_le_iff hcount).mpr (h pre tx rx hpre hcount)
      · rw [(hbounded.lbgn_update tx rx).2 hcount]
        exact ih ((List.prefix_append _ _).trans hpre)
    · intro pre _ _
      rw [echoCanFlush_eq]
      exact (by norm_num : (0 : ℤ) ≤ 40)
    · intro pre c txDc mode' snapshot _ ih hpre
      exact ih ((List.prefix_append _ _).trans hpre)

/-- A residual of 1000 is counted, while the canceller adapts to it, and the
noise level stays under its gate. -/
theorem noise_under_gate_iff_spike :
    CountsResidual (echoCanCreate 2 (echoCanUseAdaption ||| echoCanUseNlp)) 400 2000 ∧
      ∀ pre, pre <+: List.replicate 12 (.update 400 2000) →
        (echoCan.run (echoCanCreate 2 (echoCanUseAdaption ||| echoCanUseNlp)) pre).lbgn.level ≤
          40 :=
  ⟨by decide +kernel, (noise_under_gate_iff 2 (echoCanUseAdaption ||| echoCanUseNlp)
    (List.replicate 12 (.update 400 2000))).mpr (by decide +kernel)⟩

/-- Residuals of at most 40 always fit, whatever the samples between them. -/
theorem lbgn_le_of_counted_le (len : ℕ) (mode : BitVec 32) (calls : List Call)
    (h : ∀ pre tx rx, UpdateAt calls pre tx rx →
      CountsResidual (echoCan.run (echoCanCreate len mode) pre) tx rx →
        (echoCan.run (echoCanCreate len mode) pre).residual tx rx ≤ 40) :
    (echoCan.run (echoCanCreate len mode) calls).lbgn.level ≤ 40 := by
  revert h
  refine echoCan_run_induction (P := fun calls ec => (∀ pre tx rx, UpdateAt calls pre tx rx →
    CountsResidual (echoCan.run (echoCanCreate len mode) pre) tx rx →
      (echoCan.run (echoCanCreate len mode) pre).residual tx rx ≤ 40) → ec.lbgn.level ≤ 40)
    ?_ ?_ ?_ ?_ calls
  · intro _
    exact (by norm_num : (0 : ℤ) ≤ 40)
  · intro calls tx rx ih h
    have hbounded := noiseBounded_of_run len mode calls
    have hlevel := ih fun pre tx rx hat => h pre tx rx (hat.trans (List.prefix_append _ _))
    by_cases hcount : CountsResidual (echoCan.run (echoCanCreate len mode) calls) tx rx
    · refine (hbounded.lbgn_update_le_iff hcount).mpr ?_
      have hresidual := h calls tx rx (List.prefix_refl _) hcount
      -- up to the gate the accumulator exceeds the level by at most 165847
      have hacc : (echoCan.run (echoCanCreate len mode) calls).lbgn.acc ≤ 165887 := by
        rwa [← part_le_forty_iff, ← hbounded.lbgn.level]
      have hpart := hbounded.lbgn.level
      unfold LeakyAverage.part at hpart
      norm_num at hpart
      unfold EchoCan.headroom
      omega
    · rw [(hbounded.lbgn_update tx rx).2 hcount]
      exact hlevel
  · intro calls _ _
    rw [echoCanFlush_eq]
    exact (by norm_num : (0 : ℤ) ≤ 40)
  · intro calls c txDc mode' snapshot _ ih h
    exact ih fun pre tx rx hat => h pre tx rx (hat.trans (List.prefix_append _ _))

/-! ### Spikes between samples that are not counted -/

/-- A canceller that only runs its non-linear processor on an untouched
foreground filter. -/
structure Untrained (ec : EchoCan) : Prop where
  mode : ec.adaptionMode = echoCanUseNlp
  tapsFg : ec.firTaps16Fg = List.replicate ec.taps 0
  noise : NoiseBounded ec

theorem Untrained.update {ec : EchoCan} (h : Untrained ec) (tx rx : Int16) :
    Untrained (echoCanUpdate ec tx rx).1 := by
  have hspec := echoCanUpdate_spec ec tx rx
  have hqualifies : ec.qualifies tx rx = false := by
    have hmode : (ec.atTransfer tx rx).adaptionMode = echoCanUseNlp := h.mode
    rw [EchoCan.qualifies, EchoCanCore.transferQualifies, hmode]
    rfl
  exact {
    mode := by rw [hspec.adaptionMode, h.mode]
    tapsFg := by
      rw [hspec.firTaps16Fg, hspec.taps, hqualifies]
      exact h.tapsFg
    noise := h.noise.update tx rx
  }

theorem Untrained.residual {ec : EchoCan} (h : Untrained ec) (tx rx : Int16) :
    ec.residual tx rx = (rx.toInt >>> (1 : ℕ)).natAbs ∧
      i16 (ec.rxIn rx - ec.echoFg tx) = rx.toInt >>> (1 : ℕ) := by
  have hecho : ec.echoFg tx = 0 := by rw [EchoCan.echoFg, h.tapsFg, fir16_zero_taps]
  have hrx : ec.rxIn rx = rx.toInt >>> (1 : ℕ) := by
    simp only [EchoCan.rxIn, EchoCanCore.highPassRx, h.mode]
    rfl
  obtain ⟨hlo, hhi⟩ := ec.rxIn_bounds rx
  rw [EchoCan.residual, hecho, sub_zero, hrx]
  rw [hrx] at hlo hhi
  exact ⟨rfl, i16_of_bounds (by omega) (by omega)⟩

/-- The far end is heard at the level 620, the line has been fed the levels `cs`. -/
structure Humming (cs : List ℤ) (ec : EchoCan) : Prop where
  untrained : Untrained ec
  ltx : ec.ltx.level = 620
  inputs : LevelInputs cs
  lclean : ec.lclean = Level.track 5 cs

theorem Humming.update {cs : List ℤ} {ec : EchoCan} (h : Humming cs ec) (rx : Int16) {r : ℤ}
    (hr : ((rx.toInt >>> (1 : ℕ)).natAbs : ℤ) = r) (hbound : r < 2 ^ 26) :
    Humming (r :: cs) (echoCanUpdate ec 1240 rx).1 ∧
      (ec.ltx.average 5 (txIn 1240).natAbs).level = 620 := by
  have hspec := echoCanUpdate_spec ec 1240 rx
  obtain ⟨hresidual, hclean⟩ := h.untrained.residual 1240 rx
  have htx : ((txIn 1240).natAbs : ℤ) = 620 := by decide
  have hltx := Level.bounded_iff.mp h.untrained.noise.levels.ltx
  have haverage : ec.ltx.average 5 620 = ec.ltx := by
    have hstep : LeakyAverage.step 5 ec.ltx.acc 620 = ec.ltx.acc := by
      rw [LeakyAverage.step, ← hltx.level, h.ltx]
      omega
    rw [hltx.average_eq (by norm_num) (by norm_num) (by norm_num) (by norm_num), hstep,
      ← hltx.level]
  refine ⟨⟨h.untrained.update 1240 rx, ?_, ?_, ?_⟩, ?_⟩
  · rw [hspec.ltx, htx, haverage, h.ltx]
  · intro a ha
    rcases List.mem_cons.mp ha with rfl | ha
    · omega
    · exact h.inputs a ha
  · rw [hspec.lclean, hclean, hr, h.lclean]
    rfl
  · rw [htx, haverage, h.ltx]

/-- One silent sample on a line that is not loud: the residual is replaced, not counted. -/
theorem Humming.silence {cs : List ℤ} {ec : EchoCan} (h : Humming cs ec)
    (hlow : LeakyAverage.run 5 cs ≤ 1263) :
    Humming (0 :: cs) (echoCanUpdate ec 1240 0).1 ∧ LeakyAverage.run 5 (0 :: cs) ≤ 1263 ∧
      (echoCanUpdate ec 1240 0).1.lbgn = ec.lbgn := by
  obtain ⟨hnext, hltx⟩ := h.update 0 (r := 0) (by decide) (by norm_num)
  have hstep : LeakyAverage.run 5 (0 :: cs) ≤ 1224 :=
    (LeakyAverage.step_mono hlow (le_refl 0)).trans (by decide)
  refine ⟨hnext, by omega, ?_⟩
  apply (h.untrained.noise.lbgn_update 1240 0).2
  intro hcount
  -- the level has fallen to 38, and sixteen times that is less than the far end
  have haudible := hcount.audible
  have hresidual : ec.residual 1240 0 = 0 := (h.untrained.residual 1240 0).1
  have hlevel : (Level.track 5 (0 :: cs)).level ≤ 38 := by
    rw [track_eq_of_inputs hnext.inputs]
    exact (LeakyAverage.part_mono hstep).trans (by decide)
  rw [Level.track, ← h.lclean] at hlevel
  rw [hltx, hresidual] at haudible
  omega

theorem Humming.pause {cs : List ℤ} {ec : EchoCan} (h : Humming cs ec)
    (hlow : LeakyAverage.run 5 cs ≤ 1263) (n : ℕ) :
    Humming (List.replicate n 0 ++ cs) (echoCan.run ec (List.replicate n (.update 1240 0))) ∧
      LeakyAverage.run 5 (List.replicate n 0 ++ cs) ≤ 1263 ∧
      (echoCan.run ec (List.replicate n (.update 1240 0))).lbgn = ec.lbgn := by
  induction n with
  | zero => exact ⟨h, hlow, rfl⟩
  | succ n ih =>
      obtain ⟨hnext, hlow, hlbgn⟩ := ih
      obtain ⟨hnext', hlow', hlbgn'⟩ := hnext.silence hlow
      rw [List.replicate_succ' (n := n) (a := Call.update 1240 0), Mealy.run_concat,
        List.replicate_succ, List.cons_append]
      exact ⟨hnext', hlow', hlbgn'.trans hlbgn⟩

theorem Humming.spike {cs : List ℤ} {ec : EchoCan} (h : Humming cs ec)
    (hzero : ec.lclean.level = 0) :
    Humming (1248 :: cs) (echoCanUpdate ec 1240 2496).1 ∧
      LeakyAverage.run 5 (1248 :: cs) ≤ 1263 ∧
      (echoCanUpdate ec 1240 2496).1.lbgn.acc = LeakyAverage.step 12 ec.lbgn.acc 1248 := by
  obtain ⟨hnext, hltx⟩ := h.update 2496 (r := 1248) (by decide) (by norm_num)
  have hresidual : ec.residual 1240 2496 = 1248 := (h.untrained.residual 1240 2496).1
  have hnonneg := LeakyAverage.run_nonneg (k := 5) (by norm_num) fun a ha => (h.inputs a ha).1
  have hpart : LeakyAverage.part 5 (LeakyAverage.run 5 cs) = 0 := by
    rw [h.lclean, track_eq_of_inputs h.inputs] at hzero
    exact hzero
  have hrun : LeakyAverage.run 5 (1248 :: cs) = LeakyAverage.run 5 cs + 1248 := by
    rw [LeakyAverage.run, LeakyAverage.step, hpart]
    omega
  have hacc : LeakyAverage.run 5 cs ≤ 15 := by
    unfold LeakyAverage.part at hpart
    norm_num at hpart
    omega
  have hlevel : (ec.lclean.average 5 1248).level = 39 := by
    have htrack := track_eq_of_inputs hnext.inputs
    rw [Level.track, ← h.lclean] at htrack
    rw [htrack, hrun, LeakyAverage.part]
    norm_num
    omega
  have hcount : CountsResidual ec 1240 2496 := by
    refine ⟨?_, ?_, ?_⟩
    · rw [h.untrained.mode]
      decide
    · rw [hltx, hresidual, hlevel]
      norm_num
    · rw [hresidual, hlevel]
      norm_num
  refine ⟨hnext, by omega, ?_⟩
  rw [(h.untrained.noise.lbgn_update 1240 2496).1 hcount, hresidual]

def spikeCycle (m : ℕ) : List Call := .update 1240 2496 :: List.replicate m (.update 1240 0)

/-- A cycle whose silence is long enough to forget the spike fills the
accumulator by at least 1208, until it is past the gate. -/
theorem Humming.cycle {cs : List ℤ} {ec : EchoCan} (h : Humming cs ec)
    (hzero : ec.lclean.level = 0) {m : ℕ} (hm : 1000 ≤ m) {a : ℤ}
    (ha : min a 165888 ≤ ec.lbgn.acc) :
    (∃ cs', Humming cs' (echoCan.run ec (spikeCycle m))) ∧
      (echoCan.run ec (spikeCycle m)).lclean.level = 0 ∧
      min (a + 1208) 165888 ≤ (echoCan.run ec (spikeCycle m)).lbgn.acc := by
  obtain ⟨hspike, hlow, hacc⟩ := h.spike hzero
  obtain ⟨hpause, -, hlbgn⟩ := hspike.pause hlow m
  have hforgotten := track_settles hspike.inputs (a := 0) (by norm_num) hm
  rw [← hpause.lclean] at hforgotten
  rw [spikeCycle, Mealy.run_cons]
  refine ⟨⟨_, hpause⟩, hforgotten, ?_⟩
  change _ ≤ (echoCan.run (echoCanUpdate ec 1240 2496).1 _).lbgn.acc
  rw [hlbgn, hacc, LeakyAverage.step, LeakyAverage.part]
  norm_num
  omega

theorem Humming.cycles {m : ℕ} (hm : 1000 ≤ m) (n : ℕ) {cs : List ℤ} {ec : EchoCan}
    (h : Humming cs ec) (hzero : ec.lclean.level = 0) {a : ℤ}
    (ha : min a 165888 ≤ ec.lbgn.acc) :
    min (a + 1208 * n) 165888 ≤
      (echoCan.run ec (List.replicate n (spikeCycle m)).flatten).lbgn.acc := by
  induction n generalizing cs ec a with
  | zero => simpa using ha
  | succ n ih =>
      obtain ⟨⟨cs', hnext⟩, hzero', hfill⟩ := h.cycle hzero hm ha
      have hrest := ih hnext hzero' hfill
      rw [List.replicate_succ, List.flatten_cons, Mealy.run_append]
      push_cast at hrest ⊢
      have hsum : a + 1208 * (n + 1 : ℤ) = a + 1208 + 1208 * n := by ring
      rwa [hsum]

/-- The far end comes on over a silent line. -/
theorem warm_up (n : ℕ) :
    Untrained (echoCan.run (echoCanCreate 2 echoCanUseNlp) (List.replicate n (.update 1240 0))) ∧
      (echoCan.run (echoCanCreate 2 echoCanUseNlp) (List.replicate n (.update 1240 0))).ltx =
        Level.track 5 (List.replicate n 620) ∧
      (echoCan.run (echoCanCreate 2 echoCanUseNlp) (List.replicate n (.update 1240 0))).lclean =
        Level.track 5 (List.replicate n 0) := by
  induction n with
  | zero => exact ⟨⟨rfl, rfl, noiseBounded_of_run 2 echoCanUseNlp []⟩, rfl, rfl⟩
  | succ n ih =>
      obtain ⟨huntrained, hltx, hlclean⟩ := ih
      have htx : ((txIn 1240).natAbs : ℤ) = 620 := by decide
      rw [List.replicate_succ' (n := n) (a := Call.update 1240 0), Mealy.run_concat]
      generalize echoCan.run (echoCanCreate 2 echoCanUseNlp)
        (List.replicate n (.update 1240 0)) = ec at huntrained hltx hlclean ⊢
      have hspec := echoCanUpdate_spec ec 1240 0
      refine ⟨huntrained.update 1240 0, ?_, ?_⟩
      · change (echoCanUpdate ec 1240 0).1.ltx = _
        rw [hspec.ltx, hltx, htx]
        rfl
      · change (echoCanUpdate ec 1240 0).1.lclean = _
        rw [hspec.lclean, (huntrained.residual 1240 0).2, hlclean]
        rfl

/-- A steady far end, and one spike in the received signal every thousand samples. -/
theorem noise_exceeds_gate :
    40 < (echoCan.run (echoCanCreate 2 echoCanUseNlp)
      (List.replicate 1000 (.update 1240 0) ++
        (List.replicate 138 (spikeCycle 1000)).flatten)).lbgn.level := by
  obtain ⟨huntrained, hltx, hlclean⟩ := warm_up 1000
  have hnone : LevelInputs [] := fun a ha => by cases ha
  have hhum := track_settles hnone (a := 620) (by norm_num) (le_refl 1000)
  have hquiet := track_settles hnone (a := 0) (by norm_num) (le_refl 1000)
  rw [List.append_nil] at hhum hquiet
  have hstart : Humming (List.replicate 1000 0) (echoCan.run (echoCanCreate 2 echoCanUseNlp)
      (List.replicate 1000 (.update 1240 0))) :=
    ⟨huntrained, by rw [hltx, hhum], fun a ha => by rw [List.eq_of_mem_replicate ha]; norm_num,
      hlclean⟩
  have hfill := hstart.cycles (le_refl 1000) 138 (by rw [hlclean, hquiet]) (a := 0)
    ((min_le_left _ _).trans huntrained.noise.lbgn.nonneg)
  have hbounded := noiseBounded_of_run 2 echoCanUseNlp (List.replicate 1000 (.update 1240 0) ++
    (List.replicate 138 (spikeCycle 1000)).flatten)
  rw [← Mealy.run_append] at hfill
  rw [← not_le, hbounded.lbgn.level, part_le_forty_iff, not_le]
  exact lt_of_lt_of_le (by norm_num) hfill

end Oslec
