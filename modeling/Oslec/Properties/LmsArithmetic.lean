import Oslec.Canceller.Levels
import Oslec.Properties.ShiftRegister
import Mathlib.Tactic.Positivity

/-!
The arithmetic of `lms_adapt_bg`: a 32 bit factor and product, a 16 bit
increment and a 16 bit tap, none of them guarded. The intermediate wraps cancel
in the stored tap, which is why only its last narrowing decides whether the
tap is right; but the factor does overflow, at the first sample of a loud near
end, and the tap then moves the wrong way.
-/

namespace Oslec

open TwosComplement

/-- `clean_bg * 2^shift` over the integers, floored when the shift is to the right. -/
def exactFactor (clean shift : ℤ) : ℤ :=
  if 0 < shift then clean * 2 ^ shift.toNat else clean / 2 ^ (-shift).toNat

/-- `h * factor / 2^15` rounded to the nearest integer, halves upwards. -/
def exactIncrement (factor h : ℤ) : ℤ := round ((h * factor : ℚ) / 2 ^ 15)

theorem exactIncrement_eq (factor h : ℤ) :
    exactIncrement factor h = (h * factor + 2 ^ 14) >>> (15 : ℕ) := by
  have hround := add_half_shiftRight 14 (h * factor)
  push_cast at hround
  exact hround.symm

theorem lmsFactor_eq (clean shift : ℤ) :
    lmsFactor clean shift =
      if 0 < shift then i32 (exactFactor clean shift) else exactFactor clean shift := by
  unfold lmsFactor exactFactor
  split
  · rw [Int.shiftLeft_eq]
  · rw [Int.shiftRight_eq_div_pow]
    push_cast
    rfl

/-- The overflows of the factor and of the product are invisible in the stored
tap: it is the exact sum, narrowed once. -/
theorem tap_eq_wrap_exact (tap clean shift h : ℤ) :
    i16 (tap + lmsIncrement (lmsFactor clean shift) h) =
      i16 (tap + exactIncrement (exactFactor clean shift) h) := by
  have hfactor : wrap 32 (h * lmsFactor clean shift) =
      wrap 32 (h * exactFactor clean shift) := by
    rw [lmsFactor_eq]
    split
    · exact wrap_mul_wrap_right 32 h _
    · rfl
  have hhalf : (1 : ℤ) <<< (14 : ℕ) = 2 ^ 14 := by decide
  rw [lmsIncrement, hhalf]
  show wrap 16 (tap +
    wrap 16 (wrap 32 (wrap 32 (h * lmsFactor clean shift) + 2 ^ 14) >>> (15 : ℕ))) = _
  rw [exactIncrement_eq, hfactor, wrap_add_wrap_left, wrap_shiftRight_wrap (by omega),
    wrap_add_wrap_right]

/-! ### Exactness of one adaption -/

/-- Every intermediate value of the adaption is the unbounded integer, the taps
of the state after the update are the exact ones, and no tap has moved against
the sign of `H(i) * clean_bg`. -/
structure LmsExact (len : ℕ) (H : List ℤ) (ec : EchoCan) (tx rx : Int16) : Prop where
  factor : lmsFactor (ec.errorBg tx rx) (ec.shiftNext tx) =
    exactFactor (ec.errorBg tx rx) (ec.shiftNext tx)
  product : ∀ i < len,
    i32 (H.getD i 0 * lmsFactor (ec.errorBg tx rx) (ec.shiftNext tx)) =
        H.getD i 0 * exactFactor (ec.errorBg tx rx) (ec.shiftNext tx) ∧
      i32 (i32 (H.getD i 0 * lmsFactor (ec.errorBg tx rx) (ec.shiftNext tx)) +
          (1 : ℤ) <<< (14 : ℕ)) =
        H.getD i 0 * exactFactor (ec.errorBg tx rx) (ec.shiftNext tx) + 2 ^ 14
  increment : ∀ i < len,
    lmsIncrement (lmsFactor (ec.errorBg tx rx) (ec.shiftNext tx)) (H.getD i 0) =
      exactIncrement (exactFactor (ec.errorBg tx rx) (ec.shiftNext tx)) (H.getD i 0)
  tap : ∀ i < len, (echoCanUpdate ec tx rx).1.firTaps16Bg.getD i 0 =
    ec.firTaps16Bg.getD i 0 +
      exactIncrement (exactFactor (ec.errorBg tx rx) (ec.shiftNext tx)) (H.getD i 0)
  up : ∀ i < len, 0 < H.getD i 0 * ec.errorBg tx rx →
    ec.firTaps16Bg.getD i 0 ≤ (echoCanUpdate ec tx rx).1.firTaps16Bg.getD i 0
  down : ∀ i < len, H.getD i 0 * ec.errorBg tx rx < 0 →
    (echoCanUpdate ec tx rx).1.firTaps16Bg.getD i 0 ≤ ec.firTaps16Bg.getD i 0

/-- The received sample less the echo estimate of the background taps on the
register `H`. -/
def registerError (len : ℕ) (H : List ℤ) (ec : EchoCan) (rx : Int16) : ℤ :=
  ec.rxIn rx - estimate len ec.firTaps16Bg H

/-- `logP`, the logarithm of the power in the filter states. -/
def EchoCan.logP (ec : EchoCan) (tx : Int16) : ℤ :=
  topBit (BitVec.ofInt 32 (i32 (minTxPowerForAdaption + ec.pstatesNext tx))) + ec.log2taps

/-- Four times the power in the filter states, rounded down to a power of two. -/
def powerScale (logP : ℤ) : ℤ := 2 ^ (2 + logP).toNat

/-- The error is less than eight times the power in the filter states, its
product with any sample of the register less than about four times, and the
exact taps are 16 bit values. -/
structure LmsInRange (len : ℕ) (H : List ℤ) (ec : EchoCan) (tx rx : Int16) : Prop where
  error : -2 * powerScale (ec.logP tx) ≤ registerError len H ec rx ∧
    registerError len H ec rx < 2 * powerScale (ec.logP tx)
  product : ∀ i < len,
    -(2 ^ 16 + 1) * powerScale (ec.logP tx) ≤ 2 ^ 16 * (H.getD i 0 * registerError len H ec rx) ∧
      2 ^ 16 * (H.getD i 0 * registerError len H ec rx) < (2 ^ 16 - 1) * powerScale (ec.logP tx)
  tap : ∀ i < len, Fits 16 (ec.firTaps16Bg.getD i 0 +
    exactIncrement (exactFactor (registerError len H ec rx) (28 - ec.logP tx)) (H.getD i 0))

instance (len : ℕ) (H : List ℤ) (ec : EchoCan) (tx rx : Int16) :
    Decidable (LmsInRange len H ec tx rx) :=
  decidable_of_iff (_ ∧ (∀ i < len, _ ∧ _) ∧ ∀ i < len, Fits 16 (ec.firTaps16Bg.getD i 0 +
      (H.getD i 0 * exactFactor (registerError len H ec rx) (28 - ec.logP tx) + 2 ^ 14) >>>
        (15 : ℕ)))
    ⟨fun h => ⟨h.1, h.2.1, fun i hi => exactIncrement_eq _ _ ▸ h.2.2 i hi⟩,
      fun h => ⟨h.error, h.product, fun i hi => exactIncrement_eq _ _ ▸ h.tap i hi⟩⟩

theorem fits_shiftRight_iff (x : ℤ) : Fits 16 (x >>> (15 : ℕ)) ↔ Fits 31 x := by
  unfold Fits
  rw [Int.shiftRight_eq_div_pow]
  norm_num
  omega

theorem exactFactor_sign (clean shift : ℤ) :
    (0 ≤ clean → 0 ≤ exactFactor clean shift) ∧ (clean ≤ 0 → exactFactor clean shift ≤ 0) := by
  unfold exactFactor
  split
  · exact ⟨fun h => mul_nonneg h (by positivity), fun h =>
      mul_nonpos_of_nonpos_of_nonneg h (by positivity)⟩
  · have hpow : (0 : ℤ) < 2 ^ (-shift).toNat := by positivity
    exact ⟨fun h => Int.ediv_nonneg h hpow.le, fun h => Int.ediv_nonpos_of_nonpos_of_neg h hpow⟩

theorem exactIncrement_sign (factor h : ℤ) :
    (0 ≤ h * factor → 0 ≤ exactIncrement factor h) ∧
      (h * factor ≤ 0 → exactIncrement factor h ≤ 0) := by
  rw [exactIncrement_eq, Int.shiftRight_eq_div_pow]
  norm_num
  constructor <;> intro hsign <;> omega

theorem mul_exactFactor_sign (h clean shift : ℤ) :
    (0 < h * clean → 0 ≤ h * exactFactor clean shift) ∧
      (h * clean < 0 → h * exactFactor clean shift ≤ 0) := by
  obtain ⟨hup, hdown⟩ := exactFactor_sign clean shift
  constructor
  · intro hpos
    rcases pos_and_pos_or_neg_and_neg_of_mul_pos hpos with ⟨hh, hc⟩ | ⟨hh, hc⟩
    · exact mul_nonneg hh.le (hup hc.le)
    · exact mul_nonneg_of_nonpos_of_nonpos hh.le (hdown hc.le)
  · intro hneg
    rcases mul_neg_iff.mp hneg with ⟨hh, hc⟩ | ⟨hh, hc⟩
    · exact mul_nonpos_of_nonneg_of_nonpos hh.le (hdown hc.le)
    · exact mul_nonpos_of_nonpos_of_nonneg hh.le (hup hc.le)

theorem lmsFactor_exact_iff (clean shift : ℤ) :
    lmsFactor clean shift = exactFactor clean shift ↔
      (0 < shift → Fits 32 (exactFactor clean shift)) := by
  rw [lmsFactor_eq]
  by_cases hs : 0 < shift
  · simp only [hs, if_true, forall_const]
    exact i32_eq_self_iff
  · simp [hs]

/-- With an exact factor, the increment is exact exactly when the product fits,
and then neither the product nor its rounding wraps. -/
theorem lmsIncrement_exact_iff (factor h : ℤ) :
    (i32 (h * factor) = h * factor ∧
        i32 (i32 (h * factor) + (1 : ℤ) <<< (14 : ℕ)) = h * factor + 2 ^ 14 ∧
        lmsIncrement factor h = exactIncrement factor h) ↔
      Fits 31 (h * factor + 2 ^ 14) := by
  have hone : ((1 : ℤ) <<< (14 : ℕ)) = 2 ^ 14 := by decide
  constructor
  · rintro ⟨-, hround, hinc⟩
    rw [lmsIncrement, hround, exactIncrement_eq] at hinc
    exact (fits_shiftRight_iff _).mp (i16_eq_self_iff.mp hinc)
  · intro hfits
    have hinc := (fits_shiftRight_iff _).mpr hfits
    obtain ⟨hlo, hhi⟩ := hfits
    norm_num at hlo hhi
    have hprod : i32 (h * factor) = h * factor := i32_of_bounds (by omega) (by omega)
    have hround : i32 (i32 (h * factor) + (1 : ℤ) <<< (14 : ℕ)) = h * factor + 2 ^ 14 := by
      rw [hprod, hone]
      exact i32_of_bounds (by omega) (by omega)
    refine ⟨hprod, hround, ?_⟩
    rw [lmsIncrement, hround, exactIncrement_eq]
    exact i16_eq_self_iff.mpr hinc

/-! ### The error against the power -/

theorem EchoCan.shiftNext_eq (ec : EchoCan) (tx : Int16) : ec.shiftNext tx = 28 - ec.logP tx := rfl

theorem EchoCan.shiftNext_le {len : ℕ} {mode : BitVec 32} {calls : List Call} (tx : Int16)
    {ec : EchoCan} (hec : ec = echoCan.run (echoCanCreate len mode) calls) :
    ec.shiftNext tx ≤ 30 := by
  have hlog : ec.log2taps = topBit (BitVec.ofNat 32 len) := by
    rw [hec, echoCan_run_log2taps]
  have hlen := neg_one_le_topBit (BitVec.ofNat 32 len)
  have hpower := neg_one_le_topBit
    (BitVec.ofInt 32 (i32 (minTxPowerForAdaption + ec.pstatesNext tx)))
  rw [ec.shiftNext_eq, EchoCan.logP, hlog]
  omega

section

variable {shift : ℤ} (hpos : 0 < shift) (hle : shift ≤ 30)

include hpos hle

theorem powerScale_mul : powerScale (28 - shift) * 2 ^ shift.toNat = 2 ^ 30 := by
  have hexp : (2 + (28 - shift)).toNat + shift.toNat = 30 := by omega
  rw [powerScale, ← pow_add, hexp]

theorem mul_powerScale_le_iff (c x : ℤ) :
    c * powerScale (28 - shift) ≤ x ↔ c * 2 ^ 30 ≤ x * 2 ^ shift.toNat := by
  have hpow : (0 : ℤ) < 2 ^ shift.toNat := by positivity
  rw [← powerScale_mul hpos hle, ← mul_assoc]
  exact (mul_le_mul_iff_of_pos_right hpow).symm

theorem lt_mul_powerScale_iff (c x : ℤ) :
    x < c * powerScale (28 - shift) ↔ x * 2 ^ shift.toNat < c * 2 ^ 30 := by
  rw [← not_le, ← not_le, mul_powerScale_le_iff hpos hle]

end

theorem le_powerScale {shift : ℤ} (h : shift ≤ 0) : 2 ^ 30 ≤ powerScale (28 - shift) :=
  pow_le_pow_right₀ (by norm_num) (by omega)

theorem exactFactor_bounds {clean shift m : ℤ} (h : ¬ 0 < shift) (hlo : -m ≤ clean)
    (hhi : clean ≤ m) : -m ≤ exactFactor clean shift ∧ exactFactor clean shift ≤ m := by
  have hpow : (1 : ℤ) ≤ 2 ^ (-shift).toNat := one_le_pow₀ (by norm_num)
  have hm : 0 ≤ m := by omega
  rw [exactFactor, if_neg h]
  constructor
  · refine (Int.le_ediv_iff_mul_le (by omega)).mpr ?_
    nlinarith
  · refine Int.ediv_le_of_le_mul (by omega) ?_
    nlinarith

/-- The factor fits exactly when the error is less than eight times the power. -/
theorem fits_factor_iff {e shift : ℤ} (hle : shift ≤ 30) (hlo : -49152 ≤ e) (hhi : e ≤ 49152) :
    (0 < shift → Fits 32 (exactFactor e shift)) ↔
      -2 * powerScale (28 - shift) ≤ e ∧ e < 2 * powerScale (28 - shift) := by
  by_cases hpos : 0 < shift
  · rw [mul_powerScale_le_iff hpos hle, lt_mul_powerScale_iff hpos hle, exactFactor, if_pos hpos]
    simp only [hpos, true_imp_iff, Fits]
    norm_num
  · have hscale := le_powerScale (not_lt.mp hpos)
    refine iff_of_true (fun h => absurd h hpos) ⟨?_, ?_⟩
    · omega
    · omega

/-- The rounded product fits exactly when the product of the sample and the
error is less than about four times the power. -/
theorem fits_product_iff {h e shift : ℤ} (hle : shift ≤ 30) (hh : |h| ≤ 16384)
    (hlo : -49152 ≤ e) (hhi : e ≤ 49152) :
    Fits 31 (h * exactFactor e shift + 2 ^ 14) ↔
      -(2 ^ 16 + 1) * powerScale (28 - shift) ≤ 2 ^ 16 * (h * e) ∧
        2 ^ 16 * (h * e) < (2 ^ 16 - 1) * powerScale (28 - shift) := by
  by_cases hpos : 0 < shift
  · rw [mul_powerScale_le_iff hpos hle, lt_mul_powerScale_iff hpos hle, exactFactor, if_pos hpos,
      mul_assoc (2 ^ 16), mul_assoc h, Fits]
    norm_num
    omega
  · -- without a shift to the left neither side can fail
    have hscale := le_powerScale (not_lt.mp hpos)
    have hmul : ∀ f, -49152 ≤ f ∧ f ≤ 49152 → |h * f| ≤ 16384 * 49152 := by
      intro f hf
      rw [abs_mul]
      exact mul_le_mul hh (abs_le.mpr hf) (abs_nonneg f) (by norm_num)
    obtain ⟨hflo, hfhi⟩ := abs_le.mp (hmul _ (exactFactor_bounds hpos hlo hhi))
    obtain ⟨helo, hehi⟩ := abs_le.mp (hmul e ⟨hlo, hhi⟩)
    refine iff_of_true ?_ ⟨?_, ?_⟩
    · rw [Fits]
      norm_num
      omega
    · omega
    · omega

theorem EchoCan.errorBg_bounds (ec : EchoCan) (tx rx : Int16) :
    -49152 ≤ ec.errorBg tx rx ∧ ec.errorBg tx rx ≤ 49152 := by
  obtain ⟨hrxlo, hrxhi⟩ := ec.rxIn_bounds rx
  obtain ⟨hbglo, hbghi⟩ : -32768 ≤ ec.echoBg tx ∧ ec.echoBg tx ≤ 32767 := i16_bounds _
  rw [EchoCan.errorBg]
  omega

/-! ### Exactness in a run -/

theorem getD_mapIdx (f : ℕ → ℤ → ℤ) {l : List ℤ} {i : ℕ} (hi : i < l.length) :
    (l.mapIdx f).getD i 0 = f i (l.getD i 0) := by
  simp [List.getD_eq_getElem?_getD, List.getElem?_mapIdx, List.getElem?_eq_getElem hi]

/-- The taps after an adaption, with the exact increment and one narrowing. -/
theorem tapsBg_after_adaption {len : ℕ} {H : List ℤ} {ec : EchoCan} {tx rx : Int16}
    (huse : UsesRegister len H ec tx rx) (hlen : ec.firTaps16Bg.length = len)
    (hdwell : ec.nonupdateDwell = 0) {i : ℕ} (hi : i < len) :
    (echoCanUpdate ec tx rx).1.firTaps16Bg.getD i 0 =
      i16 (ec.firTaps16Bg.getD i 0 +
        exactIncrement (exactFactor (ec.errorBg tx rx) (ec.shiftNext tx)) (H.getD i 0)) := by
  rw [huse.adapt, if_pos hdwell, getD_mapIdx _ (by omega)]
  exact tap_eq_wrap_exact _ _ _ _

/-- An adaption is exact exactly when its factor, its products and its taps fit. -/
theorem lmsExact_iff_fits {len : ℕ} {H : List ℤ} {ec : EchoCan} {tx rx : Int16}
    (huse : UsesRegister len H ec tx rx) (hlen : ec.firTaps16Bg.length = len)
    (hdwell : ec.nonupdateDwell = 0) :
    LmsExact len H ec tx rx ↔
      (0 < ec.shiftNext tx → Fits 32 (exactFactor (ec.errorBg tx rx) (ec.shiftNext tx))) ∧
        (∀ i < len, Fits 31
          (H.getD i 0 * exactFactor (ec.errorBg tx rx) (ec.shiftNext tx) + 2 ^ 14)) ∧
        ∀ i < len, Fits 16 (ec.firTaps16Bg.getD i 0 +
          exactIncrement (exactFactor (ec.errorBg tx rx) (ec.shiftNext tx)) (H.getD i 0)) := by
  -- the stored taps never see the intermediate overflows, the other values do
  have htap := fun i (hi : i < len) => tapsBg_after_adaption huse hlen hdwell hi
  constructor
  · intro h
    have hfactor := h.factor
    refine ⟨(lmsFactor_exact_iff _ _).mp hfactor, ?_, ?_⟩
    · intro i hi
      have hprod := h.product i hi
      have hinc := h.increment i hi
      rw [hfactor] at hprod hinc
      exact (lmsIncrement_exact_iff _ _).mp ⟨hprod.1, hprod.2, hinc⟩
    · intro i hi
      exact i16_eq_self_iff.mp ((htap i hi).symm.trans (h.tap i hi))
  · rintro ⟨hf, hp, ht⟩
    have hfactor := (lmsFactor_exact_iff _ _).mpr hf
    have hexact := fun i (hi : i < len) => (lmsIncrement_exact_iff _ _).mpr (hp i hi)
    have htap' : ∀ i < len, (echoCanUpdate ec tx rx).1.firTaps16Bg.getD i 0 =
        ec.firTaps16Bg.getD i 0 +
          exactIncrement (exactFactor (ec.errorBg tx rx) (ec.shiftNext tx)) (H.getD i 0) :=
      fun i hi => (htap i hi).trans (i16_eq_self_iff.mpr (ht i hi))
    exact {
      factor := hfactor
      product := by
        intro i hi
        rw [hfactor]
        exact ⟨(hexact i hi).1, (hexact i hi).2.1⟩
      increment := by
        intro i hi
        rw [hfactor]
        exact (hexact i hi).2.2
      tap := htap'
      up := by
        intro i hi hpos
        have hinc := (exactIncrement_sign _ _).1
          ((mul_exactFactor_sign _ _ (ec.shiftNext tx)).1 hpos)
        rw [htap' i hi]
        omega
      down := by
        intro i hi hneg
        have hinc := (exactIncrement_sign _ _).2
          ((mul_exactFactor_sign _ _ (ec.shiftNext tx)).2 hneg)
        rw [htap' i hi]
        omega
    }

/-- After any run, an adaption is exact exactly when the error is in range for
the power in the filter states. -/
theorem lmsExact_iff {len : ℕ} (hlen : 0 < len) (mode : BitVec 32) (calls : List Call)
    (tx rx : Int16) {ec : EchoCan} (hec : ec = echoCan.run (echoCanCreate len mode) calls)
    (hdwell : ec.nonupdateDwell = 0) :
    LmsExact len (txIn tx :: txHistory calls) ec tx rx ↔
      LmsInRange len (txIn tx :: txHistory calls) ec tx rx := by
  obtain ⟨r, hr, hwindow⟩ := exists_ring_of_run hlen mode calls
  rw [← hec] at hr
  have huse := hr.usesRegister hwindow tx rx
  have herr : registerError len (txIn tx :: txHistory calls) ec rx = ec.errorBg tx rx := by
    rw [registerError, EchoCan.errorBg, EchoCan.echoBg, huse.background]
    rfl
  have hlogP : ec.logP tx = 28 - ec.shiftNext tx := by
    rw [ec.shiftNext_eq]
    omega
  have hsample : ∀ i, |(txIn tx :: txHistory calls).getD i 0| ≤ 16384 :=
    abs_register_le calls tx
  obtain ⟨herrlo, herrhi⟩ := ec.errorBg_bounds tx rx
  have hshift := EchoCan.shiftNext_le tx hec
  have hfactor := fits_factor_iff hshift herrlo herrhi
  have hproduct := fun i => fits_product_iff hshift (hsample i) herrlo herrhi
  rw [← hlogP, ← herr] at hfactor
  simp only [← hlogP, ← herr] at hproduct
  rw [lmsExact_iff_fits huse hr.lengthBg hdwell, ← herr, hfactor]
  simp only [hproduct]
  constructor
  · rintro ⟨he, hp, ht⟩
    exact ⟨he, hp, ht⟩
  · rintro ⟨he, hp, ht⟩
    exact ⟨he, hp, ht⟩

/-- In every run, the adaptions are all exact exactly when the error is in range
at each of them. -/
theorem lms_exact_iff (len : ℕ) (hlen : 2 ≤ len) (mode : BitVec 32) (calls : List Call) :
    (∀ pre tx rx, UpdateAt calls pre tx rx →
        (echoCan.run (echoCanCreate len mode) pre).nonupdateDwell = 0 →
        LmsExact len (txIn tx :: txHistory pre)
          (echoCan.run (echoCanCreate len mode) pre) tx rx) ↔
      ∀ pre tx rx, UpdateAt calls pre tx rx →
        (echoCan.run (echoCanCreate len mode) pre).nonupdateDwell = 0 →
        LmsInRange len (txIn tx :: txHistory pre)
          (echoCan.run (echoCanCreate len mode) pre) tx rx := by
  have hn : 0 < len := by omega
  apply forall_congr'
  intro pre
  apply forall_congr'
  intro tx
  apply forall_congr'
  intro rx
  exact imp_congr_right fun _ => forall_congr' fun hdwell =>
    lmsExact_iff hn mode pre tx rx rfl hdwell

/-- A loud far end whose echo is being learned. -/
theorem lms_exact_iff_loud_echo :
    (echoCan.run (echoCanCreate 2 echoCanUseAdaption)
        (List.replicate 11 (.update 32766 10000))).firTaps16Bg = [7498, 2498] ∧
      ∀ pre tx rx, UpdateAt (List.replicate 11 (.update 32766 10000)) pre tx rx →
        (echoCan.run (echoCanCreate 2 echoCanUseAdaption) pre).nonupdateDwell = 0 →
          LmsExact 2 (txIn tx :: txHistory pre)
            (echoCan.run (echoCanCreate 2 echoCanUseAdaption) pre) tx rx :=
  ⟨by decide +kernel, (lms_exact_iff 2 (by decide) echoCanUseAdaption
    (List.replicate 11 (.update 32766 10000))).mpr (by decide +kernel)⟩

/-- The first update after creation, with a quiet far end and a full scale near
end: the factor overflows and tap 0 moves against the error. -/
theorem lms_moves_tap_backwards :
    (echoCanCreate 2 0#32).nonupdateDwell = 0 ∧
      ¬ LmsExact 2 (txIn 2 :: txHistory []) (echoCanCreate 2 0#32) 2 32766 := by
  refine ⟨rfl, fun h => ?_⟩
  have hup := h.up 0 (by decide)
  revert hup
  decide +kernel

end Oslec
