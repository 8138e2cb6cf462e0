import Oslec.Properties.Hangover
import Oslec.Properties.LevelTrackers
import Oslec.Properties.PowerEstimate
import Oslec.Properties.StepSize

/-!
A constant far end and its constant echo. The register fills up with one value,
so every tap that is adapted moves by the same amount and the echo estimate is
one number that only ever grows; the adaption stops where its rounded increment
is zero, and it has stopped for good then, because the power in the register
never falls.
-/

namespace Oslec

open TwosComplement

/-- A sample of the test, doubled to survive the input scaling. -/
def dcTx (c : ℤ) : Int16 := Int16.ofInt (2 * c)

/-- One sample of the test: a far end of `2c` and its echo `2d`. -/
def dcCall (c d : ℤ) : Call := .update (dcTx c) (dcTx d)

/-- A new canceller after `n` samples of the test. -/
def dcRun (k : ℕ) (mode : BitVec 32) (c d : ℤ) (n : ℕ) : EchoCan :=
  echoCan.run (echoCanCreate (2 ^ k) mode) (List.replicate n (dcCall c d))

/-- `clean_bg` of the next sample. -/
def dcError (k : ℕ) (mode : BitVec 32) (c d : ℤ) (n : ℕ) : ℤ :=
  (dcRun k mode c d n).errorBg (dcTx c) (dcTx d)

/-- The register that the next sample is filtered with, current sample first. -/
def dcRegister (c d : ℤ) (n : ℕ) : List ℤ :=
  txIn (dcTx c) :: txHistory (List.replicate n (dcCall c d))

/-- The increment that the next sample gives to tap `i`. -/
def dcIncrement (k : ℕ) (mode : BitVec 32) (c d : ℤ) (n i : ℕ) : ℤ :=
  lmsIncrement (lmsFactor (dcError k mode c d n) ((dcRun k mode c d n).shiftNext (dcTx c)))
    ((dcRegister c d n).getD i 0)

/-- The increment of the next sample for a register entry that holds `c`. -/
def dcTapMove (k : ℕ) (mode : BitVec 32) (c d : ℤ) (n : ℕ) : ℤ :=
  tapIncrement (exactFactor (dcError k mode c d n)
    ((dcRun k mode c d n).shiftNext (dcTx c))) c

/-- Every product, every value of the accumulator and the result of the filter
are those of the integers. -/
structure FirExact (fir : Fir16State) (coeffs : List ℤ) (sample : ℤ) : Prop where
  product : ∀ x ∈ macTerms coeffs (fir.history.set fir.currPos.toNat sample)
    (ringIndices fir.taps fir.currPos), i32 x = x
  accumulator : ∀ ix, ix <+: ringIndices fir.taps fir.currPos →
    macLoop coeffs (fir.history.set fir.currPos.toNat sample) ix =
      (macTerms coeffs (fir.history.set fir.currPos.toNat sample) ix).sum
  result : (fir16 fir coeffs sample).2 =
    (macTerms coeffs (fir.history.set fir.currPos.toNat sample)
      (ringIndices fir.taps fir.currPos)).sum >>> (15 : ℕ)

/-! ### A filter without cancellation -/

section

variable {n : ℕ} {fir : Fir16State} {r : RingBuffer ℤ n} (h : fir.Holds r) (coeffs : List ℤ)
  (sample : ℤ)

include h

theorem macTerms_of_holds :
    macTerms coeffs (fir.history.set fir.currPos.toNat sample)
      (ringIndices fir.taps fir.currPos) =
      (List.range n).reverse.map fun i =>
        coeffs.getD i 0 * (r.push sample).window.getD i 0 := by
  rw [h.taps, h.currPos, h.history, Int.toNat_natCast, macTerms_ring]

theorem macTerms_sum_of_holds :
    (macTerms coeffs (fir.history.set fir.currPos.toNat sample)
      (ringIndices fir.taps fir.currPos)).sum = dot n coeffs (r.push sample).window := by
  rw [macTerms_of_holds h coeffs sample, List.map_reverse, List.sum_reverse, dot_eq_list_sum]

theorem macTerms_nonneg
    (hterm : ∀ i < n, 0 ≤ coeffs.getD i 0 * (r.push sample).window.getD i 0) :
    ∀ x ∈ macTerms coeffs (fir.history.set fir.currPos.toNat sample)
      (ringIndices fir.taps fir.currPos), 0 ≤ x := by
  rw [macTerms_of_holds h coeffs sample]
  intro x hx
  obtain ⟨i, hi, rfl⟩ := List.mem_map.mp hx
  exact hterm i (List.mem_range.mp (List.mem_reverse.mp hi))

end

/-- The sums along a list of terms of one sign stay between zero and the whole. -/
theorem macTerms_prefix_sum {coeffs history : List ℤ} {ix ix' : List (ℤ × ℤ)}
    (hnonneg : ∀ x ∈ macTerms coeffs history ix', 0 ≤ x) (hix : ix <+: ix') :
    0 ≤ (macTerms coeffs history ix).sum ∧
      (macTerms coeffs history ix).sum ≤ (macTerms coeffs history ix').sum := by
  obtain ⟨rest, rfl⟩ := hix
  have hsplit : macTerms coeffs history (ix ++ rest) =
      macTerms coeffs history ix ++ macTerms coeffs history rest := List.map_append
  rw [hsplit] at hnonneg ⊢
  rw [List.sum_append]
  have hrest := List.sum_nonneg fun x hx => hnonneg x (List.mem_append_right _ hx)
  exact ⟨List.sum_nonneg fun x hx => hnonneg x (List.mem_append_left _ hx), by omega⟩

/-- Terms of one sign that add up to less than `2 ^ 30` never overflow. -/
theorem firExact_of_nonneg {n : ℕ} {fir : Fir16State} {r : RingBuffer ℤ n} (h : fir.Holds r)
    {coeffs : List ℤ} {sample : ℤ}
    (hterm : ∀ i < n, 0 ≤ coeffs.getD i 0 * (r.push sample).window.getD i 0)
    (htotal : dot n coeffs (r.push sample).window < 2 ^ 30) :
    FirExact fir coeffs sample := by
  have hnonneg := macTerms_nonneg h coeffs sample hterm
  have hsum := macTerms_sum_of_holds h coeffs sample
  have hprefix := fun ix (hix : ix <+: ringIndices fir.taps fir.currPos) =>
    macTerms_prefix_sum hnonneg hix
  obtain ⟨hlo, -⟩ := hprefix _ (List.prefix_refl _)
  rw [← hsum] at htotal
  refine ⟨?_, ?_, ?_⟩
  · intro x hx
    have hle := List.single_le_sum hnonneg x hx
    have hx0 := hnonneg x hx
    exact i32_of_bounds (by omega) (by omega)
  · intro ix hix
    obtain ⟨hixlo, hixhi⟩ := hprefix ix hix
    rw [macLoop_eq_sum, i32_of_bounds (by omega) (by omega)]
  · rw [(fir16_spec h coeffs sample).2, ← hsum, i32_of_bounds (by omega) (by omega)]
    apply i16_eq_self_iff.mpr
    exact (fits_shiftRight_iff _).mpr ⟨by norm_num; omega, by norm_num; omega⟩

/-! ### The power in the register -/

/-- How many register entries hold the constant when the next sample is filtered. -/
def dcFill (k n : ℕ) : ℕ := min (n + 1) (2 ^ k)

theorem one_le_dcFill (k n : ℕ) : 1 ≤ dcFill k n := le_min (Nat.succ_pos n) (Nat.two_pow_pos k)

theorem dcFill_le (k n : ℕ) : dcFill k n ≤ 2 ^ k := min_le_right _ _

theorem dcFill_mono (k n : ℕ) : dcFill k n ≤ dcFill k (n + 1) :=
  min_le_min_right _ (Nat.le_succ (n + 1))

/-- What one entry adds to the power estimate. -/
def dcPower (k : ℕ) (c : ℤ) : ℤ := (c ^ 2 + 2 ^ (k - 1)) / 2 ^ k

theorem dcPower_bounds {k : ℕ} (hk : 1 ≤ k) (c : ℤ) :
    0 ≤ dcPower k c ∧ 2 ^ k * dcPower k c ≤ c ^ 2 + 2 ^ (k - 1) ∧
      c ^ 2 - (2 ^ (k - 1) - 1) ≤ 2 ^ k * dcPower k c := by
  have hpow : (0 : ℤ) < 2 ^ k := by positivity
  have hhalf : (2 : ℤ) ^ k = 2 * 2 ^ (k - 1) := two_pow_pred hk
  have hsq := sq_nonneg c
  have hhi := Int.mul_ediv_self_le (x := c ^ 2 + 2 ^ (k - 1)) hpow.ne'
  have hlo := Int.lt_mul_ediv_self_add (x := c ^ 2 + 2 ^ (k - 1)) hpow
  refine ⟨Int.ediv_nonneg (by positivity) hpow.le, hhi, ?_⟩
  rw [dcPower]
  omega

/-- The estimate is short of the power of the register by less than the power
that is added before the division. -/
theorem fill_power_le {k : ℕ} (hk : 1 ≤ k) (hk' : k ≤ 7) (c : ℤ) {m : ℕ} (hm : m ≤ 2 ^ k) :
    (m : ℤ) * c ^ 2 ≤ 2 ^ k * (minTxPowerForAdaption + m * dcPower k c) := by
  obtain ⟨-, -, hlo⟩ := dcPower_bounds hk c
  have hsmall : (2 : ℤ) ^ (k - 1) ≤ 2 ^ 6 := pow_le_pow_right₀ (by norm_num) (by omega)
  have hhalf : (1 : ℤ) ≤ 2 ^ (k - 1) := one_le_pow₀ (by norm_num)
  have hm' : (m : ℤ) ≤ 2 ^ k := by exact_mod_cast hm
  have hmul := mul_le_mul_of_nonneg_left hlo (Int.natCast_nonneg m)
  have hshort : (m : ℤ) * (2 ^ (k - 1) - 1) ≤ 2 ^ k * minTxPowerForAdaption := by
    refine mul_le_mul hm' ?_ (by omega) (by positivity)
    rw [minTxPowerForAdaption]
    omega
  linarith

/-! ### One increment -/

/-- The increment of a tap whose register entry is `c`, as far as the bounds of
the taps depend on it. -/
structure DcMove (c e : ℤ) (m : ℕ) (factor : ℤ) : Prop where
  factor_nonneg : 0 ≤ factor
  factor_lt : m * |c| * factor < 2 ^ 29
  nonneg : 0 ≤ c * tapIncrement factor c
  le : c * tapIncrement factor c ≤ |c| * 2 ^ 14
  le_half : 2 ≤ m → c * tapIncrement factor c ≤ |c| * 2 ^ 13
  total_lt : 0 < e → m * (c * tapIncrement factor c) < e * 2 ^ 15
  zero : e = 0 → tapIncrement factor c = 0

/-- A product of magnitude less than `2 ^ (j + 15)` rounds to at most `2 ^ j`. -/
theorem abs_tapIncrement_le {factor h : ℤ} {j : ℕ} (hlt : |h * factor| < 2 ^ (j + 15)) :
    |tapIncrement factor h| ≤ 2 ^ j := by
  obtain ⟨hlo, hhi⟩ := abs_lt.mp hlt
  have hpow : (2 : ℤ) ^ (j + 15) = 2 ^ j * 32768 := by rw [pow_add]; norm_num
  have hinc : tapIncrement factor h = (h * factor + 16384) / 32768 :=
    Int.shiftRight_eq_div_pow _ _
  rw [abs_le, hinc]
  omega

theorem exactFactor_zero (shift : ℤ) : exactFactor 0 shift = 0 := by simp [exactFactor]

/-- The factor that a stable step forms, against the error it is formed from. -/
theorem sq_mul_exactFactor_lt {c e shift : ℤ} {m : ℕ} (hpos : 0 < e)
    (hhalf : stepSize (List.replicate m c) shift < 1 / 2) :
    (m : ℤ) * c ^ 2 * exactFactor e shift < 2 ^ 29 * e := by
  have hfactor : 0 ≤ exactFactor e shift := (exactFactor_sign e shift).1 hpos.le
  have hgain : (m : ℚ) * c ^ 2 * 2 ^ shift < 2 ^ 29 := by
    rw [stepSize, regressorPower_replicate, div_lt_iff₀ (by norm_num)] at hhalf
    push_cast at hhalf
    linarith
  have hle : |(exactFactor e shift : ℚ)| ≤ |(e : ℚ)| * 2 ^ shift :=
    abs_exactFactor_le (Or.inl hpos.le)
  rw [abs_of_nonneg (by exact_mod_cast hfactor), abs_of_pos (by exact_mod_cast hpos)] at hle
  have hsq : (m : ℚ) * c ^ 2 * exactFactor e shift < 2 ^ 29 * e := by
    calc (m : ℚ) * c ^ 2 * exactFactor e shift ≤ m * c ^ 2 * (e * 2 ^ shift) :=
          mul_le_mul_of_nonneg_left hle (by positivity)
      _ = m * c ^ 2 * 2 ^ shift * e := by ring
      _ < 2 ^ 29 * e := mul_lt_mul_of_pos_right hgain (by exact_mod_cast hpos)
  exact_mod_cast hsq

theorem mul_exactFactor_lt {c e shift : ℤ} {m : ℕ} (he : 0 ≤ e) (hec : e ≤ |c|)
    (hhalf : stepSize (List.replicate m c) shift < 1 / 2) :
    (m : ℤ) * |c| * exactFactor e shift < 2 ^ 29 := by
  rcases he.eq_or_lt with rfl | hpos
  · rw [exactFactor_zero, mul_zero]
    norm_num
  · have hsq := sq_mul_exactFactor_lt hpos hhalf
    rw [← sq_abs c] at hsq
    -- divided by `|c|`, which is not less than the error
    refine lt_of_mul_lt_mul_right ?_ (abs_nonneg c)
    calc (m : ℤ) * |c| * exactFactor e shift * |c| = m * |c| ^ 2 * exactFactor e shift := by ring
      _ < 2 ^ 29 * e := hsq
      _ ≤ 2 ^ 29 * |c| := mul_le_mul_of_nonneg_left hec (by norm_num)

theorem dcMove_of_stepSize {c e shift : ℤ} {m : ℕ} (hm : 1 ≤ m) (hc : c ≠ 0) (he : 0 ≤ e)
    (hec : e ≤ |c|) (hhalf : stepSize (List.replicate m c) shift < 1 / 2) :
    DcMove c e m (exactFactor e shift) := by
  have hcpos : 0 < |c| := abs_pos.mpr hc
  have hfactor : 0 ≤ exactFactor e shift := (exactFactor_sign e shift).1 he
  have hlt := mul_exactFactor_lt he hec hhalf
  have hprod : |c * exactFactor e shift| = |c| * exactFactor e shift := by
    rw [abs_mul, abs_of_nonneg hfactor]
  have hfill : (1 : ℤ) ≤ m := by exact_mod_cast hm
  have hsingle : 0 ≤ |c| * exactFactor e shift := mul_nonneg hcpos.le hfactor
  have hnonneg := ((mul_tapIncrement_bounds c (exactFactor e shift)).1 hfactor).1
  have hmul : c * tapIncrement (exactFactor e shift) c =
      |c| * |tapIncrement (exactFactor e shift) c| := by
    rw [← abs_mul, abs_of_nonneg hnonneg]
  have htotal : 0 < e → (m : ℤ) * (c * tapIncrement (exactFactor e shift) c) < e * 2 ^ 15 := by
    intro hpos
    have hmove := abs_estimateMove_lt (Or.inl he) hhalf hpos.ne'
    rw [estimateMove_replicate, abs_of_pos hpos] at hmove
    exact (le_abs_self _).trans_lt hmove
  exact {
    factor_nonneg := hfactor
    factor_lt := hlt
    nonneg := hnonneg
    le := by
      rw [hmul]
      refine mul_le_mul_of_nonneg_left (abs_tapIncrement_le ?_) hcpos.le
      have hone := mul_le_mul_of_nonneg_right hfill hsingle
      rw [hprod]
      norm_num
      linarith
    le_half := by
      intro htwo
      have htwo : (2 : ℤ) ≤ m := by exact_mod_cast htwo
      rw [hmul]
      refine mul_le_mul_of_nonneg_left (abs_tapIncrement_le ?_) hcpos.le
      have hdouble := mul_le_mul_of_nonneg_right htwo hsingle
      rw [hprod]
      norm_num
      linarith
    total_lt := htotal
    zero := by
      rintro rfl
      rw [exactFactor_zero, tapIncrement, mul_zero]
      rfl
  }

/-- The factor and its product with a register entry are far from the ends of
their 32 bits. -/
theorem DcMove.product_lt {c e : ℤ} {m : ℕ} {factor : ℤ} (h : DcMove c e m factor) (hm : 1 ≤ m)
    (hc : c ≠ 0) : factor < 2 ^ 29 ∧ |c * factor| < 2 ^ 29 := by
  have hcpos : 1 ≤ |c| := Int.one_le_abs hc
  have hm : (1 : ℤ) ≤ m := by exact_mod_cast hm
  have hfactor := h.factor_nonneg
  have hprod : |c| * factor < 2 ^ 29 := by
    calc |c| * factor = 1 * (|c| * factor) := (one_mul _).symm
      _ ≤ m * (|c| * factor) := mul_le_mul_of_nonneg_right hm (by positivity)
      _ = m * |c| * factor := (mul_assoc _ _ _).symm
      _ < 2 ^ 29 := h.factor_lt
  refine ⟨(le_mul_of_one_le_left hfactor hcpos).trans_lt hprod, ?_⟩
  rwa [abs_mul, abs_of_nonneg hfactor]

/-! ### The taps -/

/-- The echo estimate of the constant, in units of `2 ^ -15`. -/
def dcSum (k : ℕ) (c : ℤ) (taps : List ℤ) : ℤ :=
  ∑ i ∈ Finset.range (2 ^ k), c * taps.getD i 0

/-- The background taps after `n` samples: tap 0 has had every increment and is
the greatest, and the estimate has not passed the echo. -/
structure DcTaps (k n : ℕ) (c d : ℤ) (taps : List ℤ) : Prop where
  nonneg : ∀ i < 2 ^ k, 0 ≤ c * taps.getD i 0
  le_first : ∀ i < 2 ^ k, c * taps.getD i 0 ≤ c * taps.getD 0 0
  unused : ∀ i < 2 ^ k, n ≤ i → taps.getD i 0 = 0
  first_lt : c * taps.getD 0 0 < |c| * 2 ^ 15
  first_le : 2 * (c * taps.getD 0 0) ≤ dcSum k c taps + |c| * 2 ^ 14
  sum_lt : dcSum k c taps < (d + 1) * 2 ^ 15

theorem DcTaps.sum_nonneg {k n : ℕ} {c d : ℤ} {taps : List ℤ} (h : DcTaps k n c d taps) :
    0 ≤ dcSum k c taps :=
  Finset.sum_nonneg fun i hi => h.nonneg i (Finset.mem_range.mp hi)

theorem dcTaps_zero (k : ℕ) {c d : ℤ} (hc : c ≠ 0) (hd : 0 ≤ d) :
    DcTaps k 0 c d (List.replicate (2 ^ k) 0) := by
  have hcpos : 0 < |c| := abs_pos.mpr hc
  have hsum : dcSum k c (List.replicate (2 ^ k) 0) = 0 :=
    Finset.sum_eq_zero fun i _ => by rw [getD_replicate_zero, mul_zero]
  refine ⟨?_, ?_, ?_, ?_, ?_, ?_⟩ <;> simp only [getD_replicate_zero, mul_zero, hsum]
  · exact fun _ _ => le_refl 0
  · exact fun _ _ => le_refl 0
  · exact fun _ _ _ => trivial
  · omega
  · omega
  · omega

theorem dcSum_add {k n : ℕ} {c a : ℤ} {taps taps' : List ℤ}
    (hnext : ∀ i < 2 ^ k, taps'.getD i 0 = taps.getD i 0 + if i ≤ n then a else 0) :
    dcSum k c taps' = dcSum k c taps + dcFill k n * (c * a) := by
  have hterm : ∀ i ∈ Finset.range (2 ^ k),
      c * taps'.getD i 0 = c * taps.getD i 0 + if i ∈ Finset.range (n + 1) then c * a else 0 := by
    intro i hi
    rw [hnext i (Finset.mem_range.mp hi), mul_add]
    simp only [Finset.mem_range, Nat.lt_succ_iff, mul_ite, mul_zero]
  rw [dcSum, Finset.sum_congr rfl hterm, Finset.sum_add_distrib, Finset.sum_ite_mem,
    Finset.sum_const, nsmul_eq_mul]
  congr 3
  have hinter : Finset.range (2 ^ k) ∩ Finset.range (n + 1) = Finset.range (dcFill k n) := by
    ext i
    simp only [Finset.mem_inter, Finset.mem_range, dcFill, lt_min_iff]
    exact and_comm
  rw [hinter, Finset.card_range]

section

variable {k n : ℕ} (hk : 1 ≤ k) {c d e factor : ℤ} {taps : List ℤ} (h : DcTaps k n c d taps)
  (hc : c ≠ 0) (hdc : d ≤ |c|) (he : e = d - dcSum k c taps / 2 ^ 15) (hpos : 0 ≤ e)
  (hmove : DcMove c e (dcFill k n) factor)

include hk h hmove

/-- The first sample finds an empty filter; after it at least two taps move together. -/
theorem DcTaps.empty_or_filled :
    (c * taps.getD 0 0 = 0 ∧ dcFill k n = 1 ∧ c * tapIncrement factor c ≤ |c| * 2 ^ 14) ∨
      (2 ≤ dcFill k n ∧ c * tapIncrement factor c ≤ |c| * 2 ^ 13) := by
  have htwo : 2 ≤ 2 ^ k := by
    calc 2 = 2 ^ 1 := rfl
      _ ≤ 2 ^ k := Nat.pow_le_pow_right (by norm_num) hk
  cases n with
  | zero =>
      refine Or.inl ⟨?_, ?_, hmove.le⟩
      · rw [h.unused 0 (Nat.two_pow_pos k) (le_refl 0), mul_zero]
      · simp only [dcFill]
        omega
  | succ n =>
      have hfilled : 2 ≤ dcFill k (n + 1) := by simp only [dcFill]; omega
      exact Or.inr ⟨hfilled, hmove.le_half hfilled⟩

include hc hdc he hpos

/-- Tap 0 stays a 16 bit value: as long as there is an error left, the estimate
is below the echo and tap 0 has at most half of it beyond the first increment. -/
theorem DcTaps.first_add_lt :
    c * taps.getD 0 0 + c * tapIncrement factor c < |c| * 2 ^ 15 := by
  have hcpos : 0 < |c| := abs_pos.mpr hc
  rcases hpos.eq_or_lt with h0 | hpos
  · rw [hmove.zero h0.symm, mul_zero, add_zero]
    exact h.first_lt
  · have hbound := h.first_le
    rcases h.empty_or_filled hk hmove with ⟨hempty, -, hle⟩ | ⟨-, hle⟩
    · omega
    · omega

theorem DcTaps.fits_add {i : ℕ} (hi : i < 2 ^ k) :
    Fits 16 (taps.getD i 0 + tapIncrement factor c) := by
  have hfirst := h.first_add_lt hk hc hdc he hpos hmove
  have hlo := h.nonneg i hi
  have hle := h.le_first i hi
  have hinc := hmove.nonneg
  have habs : |c| * |taps.getD i 0 + tapIncrement factor c| < |c| * 2 ^ 15 := by
    rw [← abs_mul, mul_add, abs_of_nonneg (add_nonneg hlo hinc)]
    omega
  obtain ⟨htaplo, htaphi⟩ := abs_lt.mp (lt_of_mul_lt_mul_left habs (abs_nonneg c))
  exact ⟨htaplo.le, htaphi⟩

theorem DcTaps.next {taps' : List ℤ}
    (hnext : ∀ i < 2 ^ k,
      taps'.getD i 0 = taps.getD i 0 + if i ≤ n then tapIncrement factor c else 0) :
    DcTaps k (n + 1) c d taps' := by
  have hsum := h.sum_nonneg
  have hsum' := dcSum_add (c := c) hnext
  have hfirst : c * taps'.getD 0 0 = c * taps.getD 0 0 + c * tapIncrement factor c := by
    rw [hnext 0 (Nat.two_pow_pos k), if_pos (Nat.zero_le n), mul_add]
  have hfill : ∀ i < 2 ^ k, c * taps'.getD i 0 = c * taps.getD i 0 +
      if i ≤ n then c * tapIncrement factor c else 0 := by
    intro i hi
    rw [hnext i hi, mul_add, mul_ite, mul_zero]
  have hw := hmove.nonneg
  have hrest := Int.lt_ediv_add_one_mul_self (dcSum k c taps) (by norm_num : (0 : ℤ) < 2 ^ 15)
  refine ⟨?_, ?_, ?_, ?_, ?_, ?_⟩
  · intro i hi
    rw [hfill i hi]
    have hold := h.nonneg i hi
    split <;> omega
  · intro i hi
    rw [hfill i hi, hfirst]
    have hold := h.le_first i hi
    split <;> omega
  · intro i hi hni
    rw [hnext i hi, h.unused i hi (by omega), if_neg (by omega), add_zero]
  · rw [hfirst]
    exact h.first_add_lt hk hc hdc he hpos hmove
  · rw [hfirst, hsum']
    have hbound := h.first_le
    rcases h.empty_or_filled hk hmove with ⟨hempty, hone, hle⟩ | ⟨hfilled, hle⟩
    · rw [hone, Nat.cast_one, one_mul]
      omega
    · have hfilled : (2 : ℤ) ≤ dcFill k n := by exact_mod_cast hfilled
      nlinarith
  · rw [hsum']
    rcases hpos.eq_or_lt with h0 | hpos
    · rw [hmove.zero h0.symm, mul_zero, mul_zero, add_zero]
      exact h.sum_lt
    · have htotal := hmove.total_lt hpos
      rw [he] at htotal
      nlinarith

end

/-! ### The run -/

theorem txIn_dcTx {x : ℤ} (hlo : -16384 ≤ x) (hhi : x ≤ 16383) : txIn (dcTx x) = x := by
  have hval : (dcTx x).toInt = 2 * x := by
    rw [dcTx, Int16.toInt_ofInt]
    exact i16_of_bounds (by omega) (by omega)
  rw [txIn, hval, Int.shiftRight_eq_div_pow]
  norm_num

theorem dcRun_succ (k : ℕ) (mode : BitVec 32) (c d : ℤ) (n : ℕ) :
    dcRun k mode c d (n + 1) = (echoCanUpdate (dcRun k mode c d n) (dcTx c) (dcTx d)).1 := by
  rw [dcRun, List.replicate_succ', Mealy.run_concat]
  rfl

theorem dcRun_exists_ring (k : ℕ) (mode : BitVec 32) (c d : ℤ) (n : ℕ) :
    ∃ r : RingBuffer ℤ (2 ^ k), (dcRun k mode c d n).Represents r ∧
      ∀ i < 2 ^ k, r.window.getD i 0 = (txHistory (List.replicate n (dcCall c d))).getD i 0 :=
  exists_ring_of_run (Nat.two_pow_pos k) mode _

theorem dcRun_usesRegister (k : ℕ) (mode : BitVec 32) (c d : ℤ) (n : ℕ) :
    UsesRegister (2 ^ k) (dcRegister c d n) (dcRun k mode c d n) (dcTx c) (dcTx d) := by
  obtain ⟨r, hr, hwindow⟩ := dcRun_exists_ring k mode c d n
  exact hr.usesRegister hwindow _ _

/-- What the test may be run with. -/
structure DcCase (k : ℕ) (mode : BitVec 32) (c d : ℤ) : Prop where
  one_le : 1 ≤ k
  le_seven : k ≤ 7
  mode : hasFlag mode echoCanUseRxHpf = false
  far : -16384 ≤ c ∧ c ≤ 16383
  ne_zero : c ≠ 0
  near : 0 ≤ d ∧ d ≤ |c| ∧ 2 * d ≤ 32767

/-- The canceller after `n` samples. -/
structure DcLearned (k : ℕ) (mode : BitVec 32) (c d : ℤ) (n : ℕ) (ec : EchoCan) : Prop where
  adaptionMode : ec.adaptionMode = mode
  pstates : ec.pstates = (min n (2 ^ k) : ℕ) * dcPower k c
  ltx : ec.ltx = Level.track 5 (List.replicate n |c|)
  lrx : ec.lrx = Level.track 5 (List.replicate n d)
  dwell : ec.nonupdateDwell = 0
  taps : DcTaps k n c d ec.firTaps16Bg

/-- What the next sample meets there: an exact filter, an error that has not
gone negative, and an increment with the bounds above. -/
structure DcStep (k : ℕ) (mode : BitVec 32) (c d : ℤ) (n : ℕ) : Prop where
  fir : FirExact (dcRun k mode c d n).firStateBg (dcRun k mode c d n).firTaps16Bg
    (txIn (dcTx c))
  error : dcError k mode c d n = d - dcSum k c (dcRun k mode c d n).firTaps16Bg / 2 ^ 15
  error_bounds : 0 ≤ dcError k mode c d n ∧ dcError k mode c d n ≤ d
  pstates : (dcRun k mode c d n).pstatesNext (dcTx c) = dcFill k n * dcPower k c
  move : DcMove c (dcError k mode c d n) (dcFill k n)
    (exactFactor (dcError k mode c d n) ((dcRun k mode c d n).shiftNext (dcTx c)))

namespace DcCase

variable {k : ℕ} {mode : BitVec 32} {c d : ℤ} (h : DcCase k mode c d)

include h

theorem txIn_far : txIn (dcTx c) = c := txIn_dcTx h.far.1 h.far.2

theorem txIn_near : txIn (dcTx d) = d := by
  obtain ⟨hlo, -, hhi⟩ := h.near
  exact txIn_dcTx (by omega) (by omega)

theorem txHistory_replicate (n : ℕ) :
    txHistory (List.replicate n (dcCall c d)) = List.replicate n c := by
  induction n with
  | zero => rfl
  | succ n ih =>
      rw [List.replicate_succ', dcCall, txHistory_update, ← dcCall, ih, h.txIn_far,
        List.replicate_succ]

theorem register (n i : ℕ) : (dcRegister c d n).getD i 0 = if i ≤ n then c else 0 := by
  rw [dcRegister, h.txHistory_replicate, h.txIn_far, ← List.replicate_succ, getD_replicate]
  simp only [Nat.lt_succ_iff]

/-- The background filter multiplies every tap in use with the constant. -/
theorem dot_window {n : ℕ} {r : RingBuffer ℤ (2 ^ k)} {taps : List ℤ}
    (hread : ∀ i < 2 ^ k, (r.push (txIn (dcTx c))).window.getD i 0 =
      (dcRegister c d n).getD i 0)
    (hunused : ∀ i < 2 ^ k, n ≤ i → taps.getD i 0 = 0) :
    dot (2 ^ k) taps (r.push (txIn (dcTx c))).window = dcSum k c taps := by
  apply Finset.sum_congr rfl
  intro i hi
  rw [hread i (Finset.mem_range.mp hi), h.register]
  split
  · exact mul_comm _ _
  · rw [hunused i (Finset.mem_range.mp hi) (by omega), zero_mul, mul_zero]

theorem rxIn {ec : EchoCan} (hmode : ec.adaptionMode = mode) : ec.rxIn (dcTx d) = d := by
  have hrx : ec.rxIn (dcTx d) = txIn (dcTx d) := by
    simp only [EchoCan.rxIn, EchoCanCore.highPassRx, hmode, h.mode]
    rfl
  rw [hrx, h.txIn_near]

theorem log2taps (n : ℕ) : (dcRun k mode c d n).log2taps = k := by
  have hk := h.le_seven
  rw [dcRun, echoCan_run_log2taps, topBit_two_pow (by omega)]

theorem sq_le : c ^ 2 ≤ 2 ^ 28 := by
  obtain ⟨hlo, hhi⟩ := h.far
  nlinarith

/-- The power of a register that holds the constant `m` times stays far below
the limit of the estimate. -/
theorem fill_power_bounds {m : ℕ} (hm : m ≤ 2 ^ k) :
    0 ≤ (m : ℤ) * dcPower k c ∧ (m : ℤ) * dcPower k c ≤ 2 ^ 28 + 2 ^ 6 := by
  obtain ⟨hnonneg, hle, -⟩ := dcPower_bounds h.one_le c
  have hm' : (m : ℤ) ≤ 2 ^ k := by exact_mod_cast hm
  have hhalf : (2 : ℤ) ^ (k - 1) ≤ 2 ^ 6 :=
    pow_le_pow_right₀ (by norm_num) (by have := h.le_seven; omega)
  refine ⟨mul_nonneg (Int.natCast_nonneg m) hnonneg, ?_⟩
  calc (m : ℤ) * dcPower k c ≤ 2 ^ k * dcPower k c := mul_le_mul_of_nonneg_right hm' hnonneg
    _ ≤ c ^ 2 + 2 ^ (k - 1) := hle
    _ ≤ 2 ^ 28 + 2 ^ 6 := add_le_add h.sq_le hhalf

/-- The sample that leaves the register. -/
theorem oldest (n : ℕ) : (dcRun k mode c d n).oldest = if 2 ^ k ≤ n then c else 0 := by
  obtain ⟨r, hr, hwindow⟩ := dcRun_exists_ring k mode c d n
  have hpow : 0 < 2 ^ k := Nat.two_pow_pos k
  have hlast : 2 ^ k - 1 < n ↔ 2 ^ k ≤ n := by omega
  rw [(hr.reads (dcTx c)).oldest, hwindow _ (by omega), h.txHistory_replicate, getD_replicate]
  simp only [hlast]

theorem oldest_sq_le (n : ℕ) : (dcRun k mode c d n).oldest ^ 2 ≤ 2 ^ 28 := by
  rw [h.oldest]
  split
  · exact h.sq_le
  · norm_num

/-- The estimate grows by the same amount until the register is full, and is
constant from then on. -/
theorem pstatesNext {n : ℕ}
    (hp : (dcRun k mode c d n).pstates = (min n (2 ^ k) : ℕ) * dcPower k c) :
    (dcRun k mode c d n).pstatesNext (dcTx c) = dcFill k n * dcPower k c := by
  have hnonneg := (dcPower_bounds h.one_le c).1
  obtain ⟨hp0, hbound⟩ := h.fill_power_bounds (min_le_right n (2 ^ k))
  have hbound : (dcRun k mode c d n).pstates ≤ 2 ^ 28 + 2 ^ 30 := by
    rw [hp]
    omega
  rw [EchoCan.pstatesNext_eq h.one_le (h.log2taps n) (hp0.trans_eq hp.symm) hbound
    (h.oldest_sq_le n), h.txIn_far, h.oldest, hp]
  by_cases hn : 2 ^ k ≤ n
  · have hzero : (2 : ℤ) ^ (k - 1) / 2 ^ k = 0 :=
      Int.ediv_eq_zero_of_lt (by positivity)
        (pow_lt_pow_right₀ (by norm_num) (by have := h.one_le; omega))
    rw [if_pos hn, sub_self, zero_add, hzero, zero_add, dcFill, Nat.min_eq_right hn,
      Nat.min_eq_right (by omega)]
    exact max_eq_right (mul_nonneg (Int.natCast_nonneg _) hnonneg)
  · rw [if_neg hn, zero_pow two_ne_zero, sub_zero, dcFill, Nat.min_eq_left (by omega),
      Nat.min_eq_left (by omega), ← dcPower,
      max_eq_right (add_nonneg hnonneg (mul_nonneg (Int.natCast_nonneg n) hnonneg))]
    push_cast
    ring

/-- The estimate covers the power of the register, so the step is stable. -/
theorem stepSize_lt {n : ℕ}
    (hp : (dcRun k mode c d n).pstatesNext (dcTx c) = dcFill k n * dcPower k c) :
    stepSize (List.replicate (dcFill k n) c) ((dcRun k mode c d n).shiftNext (dcTx c)) <
      1 / 2 := by
  obtain ⟨hlow, hhigh⟩ := h.fill_power_bounds (dcFill_le k n)
  have hmin : minTxPowerForAdaption = 64 := rfl
  have hpower := fill_power_le h.one_le h.le_seven c (dcFill_le k n)
  refine (stepSize_bounds (c := { (dcRun k mode c d n).toEchoCanCore with
    pstates := (dcRun k mode c d n).pstatesNext (dcTx c) }) ?_ ?_ ?_).2.1
  · dsimp only
    rw [hp]
    exact hlow
  · dsimp only
    rw [hp]
    omega
  · dsimp only
    rw [hp, h.log2taps, zpow_natCast, regressorPower_replicate]
    exact_mod_cast hpower

/-- What is known after `n` samples decides the next one. -/
theorem step {n : ℕ} (hn : DcLearned k mode c d n (dcRun k mode c d n)) :
    DcStep k mode c d n := by
  obtain ⟨hd, hdc, hd'⟩ := h.near
  obtain ⟨r, hr, hwindow⟩ := dcRun_exists_ring k mode c d n
  have hsumlo := hn.taps.sum_nonneg
  have hsumhi := hn.taps.sum_lt
  have hread : ∀ i < 2 ^ k, (r.push (txIn (dcTx c))).window.getD i 0 =
      (dcRegister c d n).getD i 0 := getD_window_push hwindow _
  have hdot := h.dot_window hread hn.taps.unused
  have hfir : FirExact (dcRun k mode c d n).firStateBg (dcRun k mode c d n).firTaps16Bg
      (txIn (dcTx c)) := by
    refine firExact_of_nonneg hr.firBg ?_ ?_
    · intro i hi
      rw [hread i hi, h.register]
      split
      · rw [mul_comm]
        exact hn.taps.nonneg i hi
      · rw [mul_zero]
    · rw [hdot]
      omega
  have hecho : (dcRun k mode c d n).echoBg (dcTx c) =
      dcSum k c (dcRun k mode c d n).firTaps16Bg / 2 ^ 15 := by
    rw [EchoCan.echoBg, (fir16_spec hr.firBg _ _).2, hdot, i32_of_bounds (by omega) (by omega),
      Int.shiftRight_eq_div_pow]
    norm_num
    exact i16_of_bounds (by omega) (by omega)
  have herror : dcError k mode c d n =
      d - dcSum k c (dcRun k mode c d n).firTaps16Bg / 2 ^ 15 := by
    rw [dcError, EchoCan.errorBg, h.rxIn hn.adaptionMode, hecho]
  have hbounds : 0 ≤ dcError k mode c d n ∧ dcError k mode c d n ≤ d := by
    rw [herror]
    omega
  have hp := h.pstatesNext hn.pstates
  exact {
    fir := hfir
    error := herror
    error_bounds := hbounds
    pstates := hp
    move := dcMove_of_stepSize (one_le_dcFill k n) h.ne_zero hbounds.1 (hbounds.2.trans hdc)
      (h.stepSize_lt hp)
  }

/-- The adaption is exact. -/
theorem lmsExact {n : ℕ} (hn : DcLearned k mode c d n (dcRun k mode c d n)) :
    LmsExact (2 ^ k) (dcRegister c d n) (dcRun k mode c d n) (dcTx c) (dcTx d) := by
  obtain ⟨r, hr, -⟩ := dcRun_exists_ring k mode c d n
  have hstep := h.step hn
  have hmove := hstep.move
  have htap := fun i hi => hn.taps.fits_add (i := i) h.one_le h.ne_zero h.near.2.1 hstep.error
    hstep.error_bounds.1 hmove hi
  rw [lmsExact_iff_fits (dcRun_usesRegister k mode c d n) hr.lengthBg hn.dwell]
  change (_ → Fits 32 (exactFactor (dcError k mode c d n) _)) ∧
    (∀ i < 2 ^ k, Fits 31 (_ * exactFactor (dcError k mode c d n) _ + 2 ^ 14)) ∧
    ∀ i < 2 ^ k, Fits 16 (_ + exactIncrement (exactFactor (dcError k mode c d n) _) _)
  generalize exactFactor (dcError k mode c d n) ((dcRun k mode c d n).shiftNext (dcTx c)) = factor
    at hmove htap ⊢
  obtain ⟨hlt, hprod⟩ := hmove.product_lt (one_le_dcFill k n) h.ne_zero
  have hfactor := hmove.factor_nonneg
  obtain ⟨hprodlo, hprodhi⟩ := abs_lt.mp hprod
  refine ⟨?_, ?_, ?_⟩
  · intro _
    constructor
    · norm_num
      omega
    · norm_num
      omega
  · intro i _
    rw [h.register]
    split
    · constructor
      · norm_num
        omega
      · norm_num
        omega
    · rw [zero_mul]
      decide
  · intro i hi
    rw [h.register]
    split
    · rw [exactIncrement_eq_tapIncrement]
      exact htap i hi
    · rw [hn.taps.unused i hi (by omega), exactIncrement_eq, zero_mul]
      decide

theorem exactIncrement_register (n i : ℕ) :
    exactIncrement (exactFactor (dcError k mode c d n)
        ((dcRun k mode c d n).shiftNext (dcTx c))) ((dcRegister c d n).getD i 0) =
      if i ≤ n then dcTapMove k mode c d n else 0 := by
  rw [h.register, exactIncrement_eq_tapIncrement]
  split
  · rfl
  · rw [tapIncrement, zero_mul]
    rfl

/-- Every tap in use moves by the same increment. -/
theorem taps_succ {n : ℕ} (hn : DcLearned k mode c d n (dcRun k mode c d n)) {i : ℕ}
    (hi : i < 2 ^ k) :
    (dcRun k mode c d (n + 1)).firTaps16Bg.getD i 0 =
      (dcRun k mode c d n).firTaps16Bg.getD i 0 +
        if i ≤ n then dcTapMove k mode c d n else 0 := by
  rw [dcRun_succ, (h.lmsExact hn).tap i hi]
  exact congrArg _ (h.exactIncrement_register n i)

/-- A far end at least as loud as the near end is no double talk. -/
theorem not_doubleTalk {n : ℕ} {ec : EchoCan}
    (hltx : ec.ltx = Level.track 5 (List.replicate n |c|))
    (hlrx : ec.lrx = Level.track 5 (List.replicate n d)) : ¬ doubleTalk ec := by
  obtain ⟨hd, hdc, -⟩ := h.near
  have hc : |c| ≤ 16384 := abs_le.mpr ⟨h.far.1, by have := h.far.2; omega⟩
  have hinputs : ∀ a, 0 ≤ a → a ≤ 16384 → LevelInputs (List.replicate n a) := by
    intro a hlo hhi b hb
    rw [List.eq_of_mem_replicate hb]
    exact ⟨hlo, by omega⟩
  have hforall : ∀ m, List.Forall₂ (· ≤ ·) (List.replicate m d) (List.replicate m |c|) := by
    intro m
    induction m with
    | zero => exact .nil
    | succ m ih => exact .cons hdc ih
  have hle := track_mono (hinputs d hd (by omega)) (hinputs |c| (abs_nonneg c) hc) (hforall n)
  rintro ⟨-, hlt⟩
  rw [hltx, hlrx] at hlt
  omega

theorem learned (n : ℕ) : DcLearned k mode c d n (dcRun k mode c d n) := by
  induction n with
  | zero =>
      exact {
        adaptionMode := rfl
        pstates := by
          rw [Nat.zero_min, Nat.cast_zero, zero_mul]
          rfl
        ltx := rfl
        lrx := rfl
        dwell := rfl
        taps := dcTaps_zero k h.ne_zero h.near.1
      }
  | succ n ih =>
      have hspec := echoCanUpdate_spec (dcRun k mode c d n) (dcTx c) (dcTx d)
      rw [← dcRun_succ] at hspec
      have hstep := h.step ih
      have hltx : (dcRun k mode c d (n + 1)).ltx = Level.track 5 (List.replicate (n + 1) |c|) := by
        rw [hspec.ltx, ih.ltx, h.txIn_far, List.replicate_succ, Level.track, Int.natCast_natAbs]
      have hlrx : (dcRun k mode c d (n + 1)).lrx = Level.track 5 (List.replicate (n + 1) d) := by
        rw [hspec.lrx, ih.lrx, h.rxIn ih.adaptionMode, List.replicate_succ, Level.track,
          Int.natCast_natAbs, abs_of_nonneg h.near.1]
      exact {
        adaptionMode := hspec.adaptionMode.trans ih.adaptionMode
        pstates := hspec.pstates.trans hstep.pstates
        ltx := hltx
        lrx := hlrx
        dwell := by
          have hquiet := h.not_doubleTalk hltx hlrx
          rw [dcRun_succ] at hquiet ⊢
          rw [nonupdateDwell_update, if_neg hquiet, ih.dwell]
          rfl
        taps := ih.taps.next h.one_le h.ne_zero h.near.2.1 hstep.error hstep.error_bounds.1
          hstep.move fun i hi => h.taps_succ ih hi
      }

/-! ### Progress -/

theorem dcSum_succ (n : ℕ) :
    dcSum k c (dcRun k mode c d (n + 1)).firTaps16Bg =
      dcSum k c (dcRun k mode c d n).firTaps16Bg + dcFill k n * (c * dcTapMove k mode c d n) :=
  dcSum_add fun _ hi => h.taps_succ (h.learned n) hi

theorem dcError_succ_le (n : ℕ) : dcError k mode c d (n + 1) ≤ dcError k mode c d n := by
  have hstep := h.step (h.learned n)
  have hgrow : 0 ≤ (dcFill k n : ℤ) * (c * dcTapMove k mode c d n) :=
    mul_nonneg (Int.natCast_nonneg _) hstep.move.nonneg
  rw [hstep.error, (h.step (h.learned (n + 1))).error, h.dcSum_succ]
  omega

/-- The power in the register never falls, so the shift never grows. -/
theorem shiftNext_succ_le (n : ℕ) :
    (dcRun k mode c d (n + 1)).shiftNext (dcTx c) ≤ (dcRun k mode c d n).shiftNext (dcTx c) := by
  have hfill : (dcFill k n : ℤ) ≤ dcFill k (n + 1) := by exact_mod_cast dcFill_mono k n
  have hmono := mul_le_mul_of_nonneg_right hfill (dcPower_bounds h.one_le c).1
  obtain ⟨hlow, -⟩ := h.fill_power_bounds (dcFill_le k n)
  obtain ⟨-, hhigh⟩ := h.fill_power_bounds (dcFill_le k (n + 1))
  have hmin : minTxPowerForAdaption = 64 := rfl
  have htop := topBit_ofInt_mono
    (by omega : 0 < minTxPowerForAdaption + dcFill k n * dcPower k c)
    (by omega : _ ≤ minTxPowerForAdaption + dcFill k (n + 1) * dcPower k c) (by omega)
  rw [EchoCan.shiftNext_eq, EchoCan.shiftNext_eq, EchoCan.logP, EchoCan.logP,
    (h.step (h.learned n)).pstates, (h.step (h.learned (n + 1))).pstates, h.log2taps, h.log2taps,
    i32_of_bounds (by omega) (by omega), i32_of_bounds (by omega) (by omega)]
  omega

/-- Once the increment rounds to zero, nothing that it depends on grows. -/
theorem dcTapMove_succ_of_zero {n : ℕ} (hzero : dcTapMove k mode c d n = 0) :
    dcTapMove k mode c d (n + 1) = 0 := by
  have hstep := h.step (h.learned n)
  have hstep' := h.step (h.learned (n + 1))
  have herror : dcError k mode c d (n + 1) = dcError k mode c d n := by
    rw [hstep.error, hstep'.error, h.dcSum_succ, hzero, mul_zero, mul_zero, add_zero]
  have hmono : c * dcTapMove k mode c d (n + 1) ≤ c * dcTapMove k mode c d n := by
    refine mul_tapIncrement_mono ?_ c
    rw [herror]
    exact exactFactor_mono hstep.error_bounds.1 (h.shiftNext_succ_le n)
  have hnonneg : 0 ≤ c * dcTapMove k mode c d (n + 1) := hstep'.move.nonneg
  have hprod : c * dcTapMove k mode c d (n + 1) = 0 := by
    rw [hzero, mul_zero] at hmono
    exact le_antisymm hmono hnonneg
  exact (mul_eq_zero.mp hprod).resolve_left h.ne_zero

theorem dcTapMove_zero_of_le {n N : ℕ} (hN : N ≤ n) (hzero : dcTapMove k mode c d N = 0) :
    dcTapMove k mode c d n = 0 := by
  induction n, hN using Nat.le_induction with
  | base => exact hzero
  | succ n _ ih => exact h.dcTapMove_succ_of_zero ih

theorem dcError_eq_of_le {n N : ℕ} (hN : N ≤ n) (hzero : dcTapMove k mode c d N = 0) :
    dcError k mode c d n = dcError k mode c d N := by
  induction n, hN using Nat.le_induction with
  | base => rfl
  | succ n hn ih =>
      rw [← ih, (h.step (h.learned n)).error, (h.step (h.learned (n + 1))).error, h.dcSum_succ,
        h.dcTapMove_zero_of_le hn hzero, mul_zero, mul_zero, add_zero]

/-- Every increment that is not zero raises the estimate, which never reaches
`(d + 1) * 2 ^ 15`. -/
theorem exists_dcTapMove_zero :
    ∃ N : ℕ, (N : ℤ) < (d + 1) * 2 ^ 15 ∧ dcTapMove k mode c d N = 0 := by
  by_contra hnone
  have hmoves : ∀ n : ℕ, (n : ℤ) < (d + 1) * 2 ^ 15 → dcTapMove k mode c d n ≠ 0 :=
    fun n hn hzero => hnone ⟨n, hn, hzero⟩
  have hgrows : ∀ n : ℕ, (n : ℤ) ≤ (d + 1) * 2 ^ 15 →
      (n : ℤ) ≤ dcSum k c (dcRun k mode c d n).firTaps16Bg := by
    intro n
    induction n with
    | zero => exact fun _ => (h.learned 0).taps.sum_nonneg
    | succ n ih =>
        intro hn
        push_cast at hn ⊢
        have hfill : (1 : ℤ) ≤ dcFill k n := by exact_mod_cast one_le_dcFill k n
        have hnonneg : 0 ≤ c * dcTapMove k mode c d n := (h.step (h.learned n)).move.nonneg
        have hne : c * dcTapMove k mode c d n ≠ 0 :=
          mul_ne_zero h.ne_zero (hmoves n (by omega))
        have hpos : 1 ≤ c * dcTapMove k mode c d n := by omega
        have hold := ih (by omega)
        rw [h.dcSum_succ]
        nlinarith
  have hd := h.near.1
  have hbound := hgrows ((d + 1) * 2 ^ 15).toNat (by omega)
  have hlt := (h.learned ((d + 1) * 2 ^ 15).toNat).taps.sum_lt
  omega

theorem dcIncrement_eq (n i : ℕ) (hi : i < 2 ^ k) :
    dcIncrement k mode c d n i = if i ≤ n then dcTapMove k mode c d n else 0 := by
  rw [← h.exactIncrement_register]
  exact (h.lmsExact (h.learned n)).increment i hi

end DcCase

/-- A constant echo is learned without overflow and without overshoot, until
every increment rounds to zero. -/
theorem dc_echo_is_learned (k : ℕ) (mode : BitVec 32) (c d : ℤ) (h : DcCase k mode c d) :
    (∀ n, (dcRun k mode c d n).nonupdateDwell = 0 ∧
        FirExact (dcRun k mode c d n).firStateBg (dcRun k mode c d n).firTaps16Bg
          (txIn (dcTx c)) ∧
        LmsExact (2 ^ k) (dcRegister c d n) (dcRun k mode c d n) (dcTx c) (dcTx d) ∧
        0 ≤ dcError k mode c d (n + 1) ∧
        dcError k mode c d (n + 1) ≤ dcError k mode c d n) ∧
      ∃ N : ℕ, (N : ℤ) < (d + 1) * 2 ^ 15 ∧ ∀ n ≥ N,
        dcError k mode c d n = dcError k mode c d N ∧
          ∀ i < 2 ^ k, dcIncrement k mode c d n i = 0 := by
  constructor
  · intro n
    have hlearned := h.learned n
    exact ⟨hlearned.dwell, (h.step hlearned).fir, h.lmsExact hlearned,
      (h.step (h.learned (n + 1))).error_bounds.1, h.dcError_succ_le n⟩
  · obtain ⟨N, hN, hzero⟩ := h.exists_dcTapMove_zero
    refine ⟨N, hN, fun n hn => ⟨h.dcError_eq_of_le hn hzero, ?_⟩⟩
    intro i hi
    rw [h.dcIncrement_eq n i hi, h.dcTapMove_zero_of_le hn hzero, ite_self]

/-- A far end of 200 and a near end of 20, on two taps. -/
theorem dc_echo_is_learned_two_taps :
    dcError 1 0#32 100 10 1 ≤ dcError 1 0#32 100 10 0 ∧
      ∃ N : ℕ, (N : ℤ) < (10 + 1) * 2 ^ 15 ∧ ∀ n ≥ N,
        dcError 1 0#32 100 10 n = dcError 1 0#32 100 10 N := by
  have hcase : DcCase 1 0#32 100 10 := by
    refine ⟨?_, ?_, ?_, ?_, ?_, ?_⟩ <;> decide
  obtain ⟨hruns, N, hN, hstops⟩ := dc_echo_is_learned 1 0#32 100 10 hcase
  exact ⟨(hruns 0).2.2.2.2, N, hN, fun n hn => (hstops n hn).1⟩

end Oslec
