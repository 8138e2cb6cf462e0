import Oslec.Properties.LmsArithmetic

/-!
The range of the echo estimate. The accumulator of `fir16` has no guard bits
and its result no saturation, and the taps are adapted one by one: a quiet far
end can leave every tap near full scale, and the next loud one overflows the
estimate. What decides is the part of the estimate that the samples already in
the register make up, against the most that the next sample can add through
tap 0.
-/

namespace Oslec

open TwosComplement

/-- One filter call on the register `H`, current sample first: the exact sum is
a 32 bit value, its shifted value a 16 bit one, and that is what it returns. -/
structure EstimateExact (len : ℕ) (taps H : List ℤ) (echo : ℤ) : Prop where
  sum : Fits 32 (dot len taps H)
  shifted : Fits 16 (dot len taps H >>> (15 : ℕ))
  echo : echo = dot len taps H >>> (15 : ℕ)

instance (len : ℕ) (taps H : List ℤ) (echo : ℤ) : Decidable (EstimateExact len taps H echo) :=
  decidable_of_iff (_ ∧ _ ∧ _)
    ⟨fun h => ⟨h.1, h.2.1, h.2.2⟩, fun h => ⟨h.sum, h.shifted, h.echo⟩⟩

/-- Both filter calls of the next update are exact, whatever its sample. -/
def EstimatesExact (len : ℕ) (H : List ℤ) (ec : EchoCan) : Prop :=
  ∀ tx, EstimateExact len ec.firTaps16Fg (txIn tx :: H) (ec.echoFg tx) ∧
    EstimateExact len ec.firTaps16Bg (txIn tx :: H) (ec.echoBg tx)

/-- What the samples already in the register contribute to the next estimate. -/
def olderSum (len : ℕ) (taps H : List ℤ) : ℤ :=
  ∑ i ∈ Finset.range (len - 1), taps.getD (i + 1) 0 * H.getD i 0

/-- The most that a halved sample can add through a tap. -/
def reachUp (tap : ℤ) : ℤ := max (16383 * tap) (-16384 * tap)

/-- The most that a halved sample can take off through a tap. -/
def reachDown (tap : ℤ) : ℤ := max (16384 * tap) (-16383 * tap)

/-- The older samples leave tap 0 the room it may need below `2 ^ 30` and above
`-2 ^ 30`. -/
structure Headroom (len : ℕ) (taps H : List ℤ) : Prop where
  top : olderSum len taps H + reachUp (taps.getD 0 0) < 2 ^ 30
  bottom : -2 ^ 30 ≤ olderSum len taps H - reachDown (taps.getD 0 0)

instance (len : ℕ) (taps H : List ℤ) : Decidable (Headroom len taps H) :=
  decidable_of_iff (_ ∧ _) ⟨fun h => ⟨h.1, h.2⟩, fun h => ⟨h.top, h.bottom⟩⟩

/-! ### One call -/

theorem fits_31_iff (x : ℤ) : Fits 31 x ↔ -2 ^ 30 ≤ x ∧ x < 2 ^ 30 := Iff.rfl

theorem dot_cons {len : ℕ} (hlen : 0 < len) (taps H : List ℤ) (t : ℤ) :
    dot len taps (t :: H) = olderSum len taps H + taps.getD 0 0 * t := by
  obtain ⟨n, rfl⟩ := Nat.exists_eq_succ_of_ne_zero hlen.ne'
  exact Finset.sum_range_succ' _ _

theorem mul_le_reachUp {t : ℤ} (hlo : -16384 ≤ t) (hhi : t ≤ 16383) (tap : ℤ) :
    tap * t ≤ reachUp tap := by
  rcases le_total 0 tap with htap | htap
  · refine le_trans ?_ (le_max_left _ _)
    nlinarith
  · refine le_trans ?_ (le_max_right _ _)
    nlinarith

theorem neg_reachDown_le_mul {t : ℤ} (hlo : -16384 ≤ t) (hhi : t ≤ 16383) (tap : ℤ) :
    -reachDown tap ≤ tap * t := by
  rw [neg_le]
  rcases le_total 0 tap with htap | htap
  · refine le_trans ?_ (le_max_left _ _)
    nlinarith
  · refine le_trans ?_ (le_max_right _ _)
    nlinarith

/-- The samples of a full scale far end realise both reaches. -/
theorem headroom_iff {len : ℕ} (hlen : 0 < len) (taps H : List ℤ) :
    Headroom len taps H ↔ ∀ tx : Int16, Fits 31 (dot len taps (txIn tx :: H)) := by
  constructor
  · intro h tx
    obtain ⟨hlo, hhi⟩ := txIn_bounds tx
    have hup := mul_le_reachUp hlo hhi (taps.getD 0 0)
    have hdown := neg_reachDown_le_mul hlo hhi (taps.getD 0 0)
    have htop := h.top
    have hbottom := h.bottom
    rw [dot_cons hlen, fits_31_iff]
    omega
  · intro h
    have hloud : txIn 32766 = 16383 := by decide
    have hdeep : txIn (-32768) = -16384 := by decide
    have hmax := h 32766
    have hmin := h (-32768)
    rw [dot_cons hlen, hloud, fits_31_iff] at hmax
    rw [dot_cons hlen, hdeep, fits_31_iff] at hmin
    constructor
    · rw [reachUp]
      omega
    · rw [reachDown]
      omega

theorem estimateExact_iff {len : ℕ} {taps H : List ℤ} {echo : ℤ}
    (hecho : echo = i16 (i32 (dot len taps H) >>> (15 : ℕ))) :
    EstimateExact len taps H echo ↔ Fits 31 (dot len taps H) := by
  constructor
  · intro h
    exact (fits_shiftRight_iff _).mp h.shifted
  · intro h
    have hshifted := (fits_shiftRight_iff _).mpr h
    have hsum : Fits 32 (dot len taps H) := by
      obtain ⟨hlo, hhi⟩ := h
      norm_num at hlo hhi
      exact ⟨by norm_num; omega, by norm_num; omega⟩
    refine ⟨hsum, hshifted, ?_⟩
    rw [hecho, i32_eq_self_iff.mpr hsum, i16_eq_self_iff.mpr hshifted]

/-- In a state that a run has reached, the calls of the next update are exact
exactly when both tap arrays have headroom. -/
theorem estimatesExact_iff {len : ℕ} (hlen : 0 < len) (mode : BitVec 32) (calls : List Call) :
    EstimatesExact len (txHistory calls) (echoCan.run (echoCanCreate len mode) calls) ↔
      Headroom len (echoCan.run (echoCanCreate len mode) calls).firTaps16Fg (txHistory calls) ∧
        Headroom len (echoCan.run (echoCanCreate len mode) calls).firTaps16Bg
          (txHistory calls) := by
  obtain ⟨r, hr, hwindow⟩ := exists_ring_of_run hlen mode calls
  have huse := fun tx => hr.usesRegister hwindow tx 0
  have hfg := fun tx => estimateExact_iff (huse tx).foreground
  have hbg := fun tx => estimateExact_iff (huse tx).background
  rw [headroom_iff hlen, headroom_iff hlen, ← forall_and]
  exact forall_congr' fun tx => and_congr (hfg tx) (hbg tx)

/-- A path whose taps add up to less than two has headroom on every register. -/
theorem headroom_of_gain {len : ℕ} (hlen : 0 < len) {taps : List ℤ} (calls : List Call)
    (hgain : ∑ i ∈ Finset.range len, |taps.getD i 0| < 2 ^ 16) :
    Headroom len taps (txHistory calls) := by
  refine (headroom_iff hlen _ _).mpr fun tx => ?_
  have hentry := abs_register_le calls tx
  have hle : |dot len taps (txIn tx :: txHistory calls)| ≤
      (∑ i ∈ Finset.range len, |taps.getD i 0|) * 2 ^ 14 := by
    rw [Finset.sum_mul]
    refine (Finset.abs_sum_le_sum_abs _ _).trans (Finset.sum_le_sum fun i _ => ?_)
    rw [abs_mul]
    exact mul_le_mul_of_nonneg_left (hentry i) (abs_nonneg _)
  obtain ⟨hlo, hhi⟩ := abs_le.mp hle
  exact ⟨by norm_num; omega, by norm_num; omega⟩

/-! ### Runs -/

/-- In every run, the estimates of every state reached are exact exactly when
both tap arrays have headroom in every state reached. -/
theorem estimates_exact_iff (len : ℕ) (hlen : 2 ≤ len) (mode : BitVec 32) (calls : List Call) :
    (∀ pre, pre <+: calls →
        EstimatesExact len (txHistory pre) (echoCan.run (echoCanCreate len mode) pre)) ↔
      ∀ pre, pre <+: calls →
        Headroom len (echoCan.run (echoCanCreate len mode) pre).firTaps16Fg (txHistory pre) ∧
          Headroom len (echoCan.run (echoCanCreate len mode) pre).firTaps16Bg
            (txHistory pre) := by
  have hn : 0 < len := by omega
  exact forall_congr' fun pre => imp_congr_right fun _ => estimatesExact_iff hn mode pre

/-- A loud far end whose echo is being learned. -/
theorem estimates_exact_iff_loud_echo :
    (echoCan.run (echoCanCreate 2 echoCanUseAdaption)
        (List.replicate 11 (.update 32766 10000))).firTaps16Bg = [7498, 2498] ∧
      ∀ pre, pre <+: List.replicate 11 (.update 32766 10000) →
        EstimatesExact 2 (txHistory pre) (echoCan.run (echoCanCreate 2 echoCanUseAdaption) pre) :=
  ⟨by decide +kernel, (estimates_exact_iff 2 (by decide) echoCanUseAdaption
    (List.replicate 11 (.update 32766 10000))).mpr (by decide +kernel)⟩

/-- A register of the smallest samples and one near end sample drive all four
background taps to near full scale; the hangover keeps them there while a loud
far end fills the register. -/
theorem estimate_overflows :
    ¬ EstimatesExact 4
        (txHistory [.update 2 0, .update 2 0, .update 2 0, .update 2 6142,
          .update 32766 0, .update 32766 0])
        (echoCan.run (echoCanCreate 4 0#32)
          [.update 2 0, .update 2 0, .update 2 0, .update 2 6142,
            .update 32766 0, .update 32766 0]) := by
  intro h
  have hshifted := (h 32766).2.shifted
  revert hshifted
  decide +kernel

end Oslec
