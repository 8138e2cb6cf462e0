import Oslec.Canceller.Fir16

/-!
The portable `top_bit` finds the highest set bit by keeping, mask by mask, the
half of the remaining bits that holds it. Positions are split at bit `j` of
their index: after the stage for `j` all that remain agree with the highest one
in every index bit from `j` up.
-/

namespace Oslec

/-- Of the bits of a word with highest bit `k`, those left before the stage for
index bit `j - 1`. -/
structure ScanInv (k j : ℕ) (s : BitVec 32 × ℤ) : Prop where
  top : s.1.getLsbD k = true
  agree : ∀ i, s.1.getLsbD i = true → i ≤ k ∧ i / 2 ^ j = k / 2 ^ j
  found : s.2 = (k / 2 ^ j * 2 ^ j : ℕ)

/-- The bits of a word at the positions whose index has bit `j` set. -/
def IndexMask (mask : BitVec 32) (j : ℕ) : Prop :=
  ∀ i : Fin 32, mask.getLsbD i = decide ((i : ℕ) / 2 ^ j % 2 = 1)

instance (mask : BitVec 32) (j : ℕ) : Decidable (IndexMask mask j) :=
  inferInstanceAs (Decidable (∀ _, _))

theorem IndexMask.getLsbD {mask : BitVec 32} {j : ℕ} (h : IndexMask mask j) {x : BitVec 32}
    {i : ℕ} :
    (x &&& mask).getLsbD i = true ↔ x.getLsbD i = true ∧ i / 2 ^ j % 2 = 1 := by
  rw [BitVec.getLsbD_and, Bool.and_eq_true]
  constructor
  · rintro ⟨hx, hmask⟩
    have hi : i < 32 := BitVec.lt_of_getLsbD hx
    rw [h ⟨i, hi⟩] at hmask
    exact ⟨hx, of_decide_eq_true hmask⟩
  · rintro ⟨hx, hodd⟩
    have hi : i < 32 := BitVec.lt_of_getLsbD hx
    exact ⟨hx, (h ⟨i, hi⟩).trans (decide_eq_true hodd)⟩

theorem div_two_pow_succ (i j : ℕ) : i / 2 ^ (j + 1) = i / 2 ^ j / 2 := by
  rw [pow_succ, Nat.div_div_eq_div_mul]

/-- The bits that remain agree with the highest one in index bit `j` as well,
where the stage keeps only those that do. -/
theorem ScanInv.narrow {k j : ℕ} {s s' : BitVec 32 × ℤ} (h : ScanInv k (j + 1) s)
    (htop : s'.1.getLsbD k = true)
    (hkept : ∀ i, s'.1.getLsbD i = true →
      s.1.getLsbD i = true ∧ i / 2 ^ j % 2 = k / 2 ^ j % 2)
    (hfound : s'.2 = s.2 + (k / 2 ^ j % 2 * 2 ^ j : ℕ)) : ScanInv k j s' := by
  refine ⟨htop, ?_, ?_⟩
  · intro i hi
    obtain ⟨hi, hbit⟩ := hkept i hi
    obtain ⟨hle, heq⟩ := h.agree i hi
    rw [div_two_pow_succ, div_two_pow_succ] at heq
    exact ⟨hle, by omega⟩
  · have hsplit : k / 2 ^ j = 2 * (k / 2 ^ j / 2) + k / 2 ^ j % 2 := (Nat.div_add_mod _ _).symm
    rw [hfound, h.found, div_two_pow_succ, ← Nat.cast_add]
    congr 1
    calc k / 2 ^ j / 2 * 2 ^ (j + 1) + k / 2 ^ j % 2 * 2 ^ j
        = (2 * (k / 2 ^ j / 2) + k / 2 ^ j % 2) * 2 ^ j := by ring
      _ = k / 2 ^ j * 2 ^ j := by rw [← hsplit]

theorem ScanInv.scanStage {k j : ℕ} {s : BitVec 32 × ℤ} (h : ScanInv k (j + 1) s)
    (mask : BitVec 32) (hmask : IndexMask mask j) {step : ℤ} (hstep : step = (2 ^ j : ℕ)) :
    ScanInv k j (scanStage mask step s) := by
  simp only [Oslec.scanStage]
  split
  case isTrue hne =>
    -- some bit of the upper half is left, and the highest one is not below it
    obtain ⟨p, hp⟩ : ∃ p, (s.1 &&& mask).getLsbD p = true := by
      by_contra hnone
      push Not at hnone
      refine hne (BitVec.eq_of_getLsbD_eq fun i _ => ?_)
      rw [BitVec.getLsbD_zero]
      exact Bool.eq_false_iff.mpr (hnone i)
    obtain ⟨hp, hodd⟩ := hmask.getLsbD.mp hp
    obtain ⟨hle, heq⟩ := h.agree p hp
    have hdiv : p / 2 ^ j ≤ k / 2 ^ j := Nat.div_le_div_right hle
    rw [div_two_pow_succ, div_two_pow_succ] at heq
    have hk : k / 2 ^ j % 2 = 1 := by omega
    refine h.narrow (hmask.getLsbD.mpr ⟨h.top, hk⟩) ?_ ?_
    · intro i hi
      obtain ⟨hi, hiodd⟩ := hmask.getLsbD.mp hi
      exact ⟨hi, hiodd.trans hk.symm⟩
    · rw [hk, one_mul, hstep]
  case isFalse hempty =>
    have hnone : ∀ i, s.1.getLsbD i = true → i / 2 ^ j % 2 = 0 := by
      intro i hi
      by_contra hodd
      have hbit := hmask.getLsbD.mpr ⟨hi, by omega⟩
      rw [not_not.mp hempty, BitVec.getLsbD_zero] at hbit
      cases hbit
    have hk := hnone k h.top
    refine h.narrow h.top ?_ ?_
    · intro i hi
      exact ⟨hi, (hnone i hi).trans hk.symm⟩
    · rw [hk, zero_mul, Nat.cast_zero, add_zero]

theorem topBit_eq {bits : BitVec 32} {k : ℕ} (htop : bits.getLsbD k = true)
    (hmax : ∀ i, bits.getLsbD i = true → i ≤ k) : topBit bits = k := by
  have hne : bits ≠ 0#32 := by
    rintro rfl
    rw [BitVec.getLsbD_zero] at htop
    cases htop
  have hk : k < 32 := BitVec.lt_of_getLsbD htop
  have h5 : ScanInv k 5 (bits, 0) := by
    refine ⟨htop, ?_, ?_⟩
    · intro i hi
      have hle := hmax i hi
      exact ⟨hle, by omega⟩
    · have hzero : k / 2 ^ 5 = 0 := Nat.div_eq_of_lt hk
      rw [hzero]
      rfl
  have h4 := h5.scanStage 0xFFFF0000#32 (by decide) (rfl : (16 : ℤ) = (2 ^ 4 : ℕ))
  have h3 := h4.scanStage 0xFF00FF00#32 (by decide) (rfl : (8 : ℤ) = (2 ^ 3 : ℕ))
  have h2 := h3.scanStage 0xF0F0F0F0#32 (by decide) (rfl : (4 : ℤ) = (2 ^ 2 : ℕ))
  have h1 := h2.scanStage 0xCCCCCCCC#32 (by decide) (rfl : (2 : ℤ) = (2 ^ 1 : ℕ))
  have h0 := h1.scanStage 0xAAAAAAAA#32 (by decide) (rfl : (1 : ℤ) = (2 ^ 0 : ℕ))
  rw [topBit, if_neg hne]
  refine h0.found.trans ?_
  rw [pow_zero, Nat.div_one, mul_one]

/-- `top_bit` is the logarithm to base two, rounded down. -/
theorem topBit_eq_log2 {bits : BitVec 32} (h : bits ≠ 0#32) : topBit bits = bits.toNat.log2 := by
  have hne : bits.toNat ≠ 0 := fun hzero => h (BitVec.eq_of_toNat_eq hzero)
  have hlo := Nat.log2_self_le hne
  have hhi := @Nat.lt_log2_self bits.toNat
  refine topBit_eq ?_ ?_
  · have hdiv : bits.toNat / 2 ^ bits.toNat.log2 = 1 := by
      rw [pow_succ] at hhi
      exact Nat.div_eq_of_lt_le (by omega) (by omega)
    rw [BitVec.getLsbD, Nat.testBit_eq_decide_div_mod_eq, hdiv]
    rfl
  · intro i hi
    by_contra hlt
    have hpow : 2 ^ (bits.toNat.log2 + 1) ≤ 2 ^ i := Nat.pow_le_pow_right (by norm_num) (by omega)
    have hge : 2 ^ i ≤ bits.toNat := Nat.ge_two_pow_of_testBit hi
    omega

/-- The bit scan of a positive `int`: it lies between two neighbouring powers of two. -/
theorem topBit_ofInt_bounds {p : ℤ} (hpos : 0 < p) (hlt : p < 2 ^ 31) :
    ∃ t : ℕ, topBit (BitVec.ofInt 32 p) = t ∧ (2 : ℤ) ^ t ≤ p ∧ p < 2 ^ (t + 1) := by
  have htoNat : (BitVec.ofInt 32 p).toNat = p.toNat := by
    rw [BitVec.toNat_ofInt]
    norm_num
    omega
  have hne : BitVec.ofInt 32 p ≠ 0#32 := by
    intro h
    have hzero : p.toNat = 0 := htoNat.symm.trans (congrArg BitVec.toNat h)
    omega
  have hlo := Nat.log2_self_le (n := p.toNat) (by omega)
  have hhi := @Nat.lt_log2_self p.toNat
  refine ⟨p.toNat.log2, ?_, ?_, ?_⟩
  · rw [topBit_eq_log2 hne, htoNat]
  · have hcast : ((2 ^ p.toNat.log2 : ℕ) : ℤ) ≤ p.toNat := by exact_mod_cast hlo
    push_cast at hcast
    omega
  · have hcast : (p.toNat : ℤ) < ((2 ^ (p.toNat.log2 + 1) : ℕ) : ℤ) := by exact_mod_cast hhi
    push_cast at hcast
    omega

theorem topBit_ofInt_mono {p q : ℤ} (hpos : 0 < p) (hpq : p ≤ q) (hlt : q < 2 ^ 31) :
    topBit (BitVec.ofInt 32 p) ≤ topBit (BitVec.ofInt 32 q) := by
  obtain ⟨s, hs, hslo, -⟩ := topBit_ofInt_bounds hpos (hpq.trans_lt hlt)
  obtain ⟨t, ht, -, hthi⟩ := topBit_ofInt_bounds (hpos.trans_le hpq) hlt
  have hpow : (2 : ℤ) ^ s < 2 ^ (t + 1) := (hslo.trans hpq).trans_lt hthi
  have hst : s < t + 1 := (pow_lt_pow_iff_right₀ (by norm_num)).mp hpow
  rw [hs, ht]
  omega

end Oslec
