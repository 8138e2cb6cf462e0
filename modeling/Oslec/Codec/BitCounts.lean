import Oslec.Library.BitFields
import Oslec.Library.WordBits
import Oslec.Properties.BitScan

/-!
The counts, parities and masks of `bit_operations.h` and `bit_operations.c`, in both
builds where there are two, against the loops of `bit_operations_tests.c`.
-/

namespace Oslec

open BitFields WordBits

/-! ### The functions -/

/-- The part of `one_bits32` before the counts of the four bytes are added. -/
def byteCounts (x : BitVec 32) : BitVec 32 :=
  let x := x - ((x >>> 1) &&& 0x55555555#32)
  let x := (x &&& 0x33333333#32) + ((x >>> 2) &&& 0x33333333#32)
  (x + (x >>> 4)) &&& 0x0F0F0F0F#32

/-- `one_bits32` where multiplication is fast. -/
def oneBits32X86 (x : BitVec 32) : ℕ := ((byteCounts x * 0x01010101#32) >>> 24).toNat

def oneBits32 (x : BitVec 32) : ℕ :=
  let x := byteCounts x
  let x := x + (x >>> 8)
  let x := x + (x >>> 16)
  (x &&& 0x0000003F#32).toNat

def oneBits32DumbLoop : ℕ → BitVec 32 → ℕ → ℕ
  | 0, _, bits => bits
  | n + 1, x, bits =>
    oneBits32DumbLoop n (x >>> 1) (if x &&& 1#32 ≠ 0#32 then bits + 1 else bits)

def oneBits32Dumb (x : BitVec 32) : ℕ := oneBits32DumbLoop 32 x 0

def parity8 (x : BitVec 8) : ℕ :=
  let x := (x ^^^ (x >>> 4)) &&& 0x0F#8
  (0x6996 >>> x.toNat) &&& 1

def parity16 (x : BitVec 16) : ℕ :=
  let x := x ^^^ (x >>> 8)
  let x := (x ^^^ (x >>> 4)) &&& 0x0F#16
  (0x6996 >>> x.toNat) &&& 1

def parity32 (x : BitVec 32) : ℕ :=
  let x := x ^^^ (x >>> 16)
  let x := x ^^^ (x >>> 8)
  let x := (x ^^^ (x >>> 4)) &&& 0x0F#32
  (0x6996 >>> x.toNat) &&& 1

def parity8DumbLoop : ℕ → BitVec 8 → BitVec 8 → BitVec 8
  | 0, y, _ => y
  | n + 1, y, x => parity8DumbLoop n (y ^^^ (x &&& 1#8)) (x >>> 1)

def parity8Dumb (x : BitVec 8) : ℕ := (parity8DumbLoop 8 0#8 x).toNat

def makeMask32 (x : BitVec 32) : BitVec 32 :=
  let x := x ||| (x >>> 1)
  let x := x ||| (x >>> 2)
  let x := x ||| (x >>> 4)
  let x := x ||| (x >>> 8)
  x ||| (x >>> 16)

def makeMask16 (x : BitVec 16) : BitVec 16 :=
  let x := x ||| (x >>> 1)
  let x := x ||| (x >>> 2)
  let x := x ||| (x >>> 4)
  x ||| (x >>> 8)

def leastSignificantOne32 (x : BitVec 32) : BitVec 32 := x &&& -x

def mostSignificantOne32 (x : BitVec 32) : BitVec 32 :=
  let x := makeMask32 x
  x ^^^ (x >>> 1)

/-- The version with `top_bit`; a shift by a negative number has no meaning. -/
def mostSignificantOne32X86 (x : BitVec 32) : Option (BitVec 32) :=
  if topBit x < 0 then none else some (1#32 <<< (topBit x).toNat)

/-! ### Counts -/

theorem evenBits (i : ℕ) (hi : i < 32) : (0x55555555#32).getLsbD i = decide (i % 2 = 0) := by
  have hall : ∀ i < 32, (0x55555555#32).getLsbD i = decide (i % 2 = 0) := by decide
  exact hall i hi

theorem oddBits (x : BitVec 32) {i : ℕ} (hi : i < 32) :
    (((x >>> 1) &&& 0x55555555#32) <<< 1).getLsbD i = (x.getLsbD i && decide (i % 2 = 1)) := by
  rw [BitVec.getLsbD_shiftLeft, BitVec.getLsbD_and, BitVec.getLsbD_ushiftRight]
  rcases Nat.eq_zero_or_pos i with rfl | hpos
  · simp
  · rw [evenBits _ (by omega), Nat.add_sub_cancel' hpos, decide_eq_true hi,
      decide_eq_false (by omega : ¬i < 1), Bool.not_false, Bool.and_true, Bool.true_and]
    congr 1
    exact decide_eq_decide.mpr (by omega)

/-- The even and the odd bits share no position. -/
theorem evenBits_add_oddBits (x : BitVec 32) :
    (x &&& 0x55555555#32) + (((x >>> 1) &&& 0x55555555#32) <<< 1) = x := by
  have hdisjoint : (x &&& 0x55555555#32) &&& (((x >>> 1) &&& 0x55555555#32) <<< 1) = 0#32 := by
    apply BitVec.eq_of_getLsbD_eq
    intro i hi
    rw [BitVec.getLsbD_and, BitVec.getLsbD_and, evenBits i hi, oddBits x hi, BitVec.getLsbD_zero]
    rcases Nat.mod_two_eq_zero_or_one i with h | h <;> simp [h]
  rw [BitVec.add_eq_or_of_and_eq_zero _ _ hdisjoint]
  apply BitVec.eq_of_getLsbD_eq
  intro i hi
  rw [BitVec.getLsbD_or, BitVec.getLsbD_and, evenBits i hi, oddBits x hi]
  rcases Nat.mod_two_eq_zero_or_one i with h | h <;> simp [h]

/-- The first stage subtracts the upper bit of every pair, which leaves their sum. -/
theorem sub_upper_bits (x : BitVec 32) :
    x - ((x >>> 1) &&& 0x55555555#32) =
      (x &&& 0x55555555#32) + ((x >>> 1) &&& 0x55555555#32) := by
  have hsplit := evenBits_add_oddBits x
  have htwice : ((x >>> 1) &&& 0x55555555#32) <<< 1 =
      ((x >>> 1) &&& 0x55555555#32) + ((x >>> 1) &&& 0x55555555#32) := by
    rw [BitVec.shiftLeft_eq_mul_twoPow]
    exact BitVec.mul_two
  rw [htwice, ← BitVec.add_assoc] at hsplit
  nth_rewrite 1 [← hsplit]
  exact BitVec.add_sub_cancel _ _

theorem lowerHalves_1 : LowerHalves 1 16 0x55555555 := by
  show ∀ i < 16, field (2 * 1) i 0x55555555 = 2 ^ 1 - 1
  decide

theorem lowerHalves_2 : LowerHalves 2 8 0x33333333 := by
  show ∀ i < 8, field (2 * 2) i 0x33333333 = 2 ^ 2 - 1
  decide

theorem lowerHalves_4 : LowerHalves 4 4 0x0F0F0F0F := by
  show ∀ i < 4, field (2 * 4) i 0x0F0F0F0F = 2 ^ 4 - 1
  decide

theorem toNat_pairSum {m : ℕ} (hm : m < 2 ^ 31) (k : ℕ) (y : BitVec 32) :
    ((y &&& BitVec.ofNat 32 m) + ((y >>> k) &&& BitVec.ofNat 32 m)).toNat =
      (y.toNat &&& m) + ((y.toNat >>> k) &&& m) := by
  have hlow : y.toNat &&& m ≤ m := Nat.and_le_right
  have hhigh : (y.toNat >>> k) &&& m ≤ m := Nat.and_le_right
  rw [BitVec.toNat_add, BitVec.toNat_and, BitVec.toNat_and, BitVec.toNat_ushiftRight,
    BitVec.toNat_ofNat, Nat.mod_eq_of_lt (by omega : m < 2 ^ 32), Nat.mod_eq_of_lt (by omega)]

/-- The counts of the bytes. -/
theorem field_byteCounts (x : BitVec 32) {i : ℕ} (hi : i < 4) :
    field 8 i (byteCounts x).toNat = ones (x >>> (8 * i)) 8 := by
  obtain ⟨y, hy⟩ : ∃ y, y = (x &&& 0x55555555#32) + ((x >>> 1) &&& 0x55555555#32) := ⟨_, rfl⟩
  obtain ⟨z, hz⟩ : ∃ z, z = (y &&& 0x33333333#32) + ((y >>> 2) &&& 0x33333333#32) := ⟨_, rfl⟩
  have hpairs : ∀ j < 16, field 2 j y.toNat =
      (x.getLsbD (2 * j)).toNat + (x.getLsbD (2 * j + 1)).toNat := by
    intro j hj
    rw [hy, toNat_pairSum (by decide)]
    exact (field_pairSum Nat.one_pos lowerHalves_1 hj x.toNat).trans
      (congrArg₂ (· + ·) (field_one x _) (field_one x _))
  have hnibbles : ∀ j < 8, field 4 j z.toNat = field 2 (2 * j) y.toNat +
      field 2 (2 * j + 1) y.toNat := by
    intro j hj
    rw [hz, toNat_pairSum (by decide)]
    exact field_pairSum Nat.two_pos lowerHalves_2 hj y.toNat
  have hsmall : ∀ j < 8, field 4 j z.toNat ≤ 4 := by
    intro j hj
    have h₀ := Bool.toNat_le (x.getLsbD (2 * (2 * j)))
    have h₁ := Bool.toNat_le (x.getLsbD (2 * (2 * j) + 1))
    have h₂ := Bool.toNat_le (x.getLsbD (2 * (2 * j + 1)))
    have h₃ := Bool.toNat_le (x.getLsbD (2 * (2 * j + 1) + 1))
    rw [hnibbles j hj, hpairs _ (by omega), hpairs _ (by omega)]
    omega
  have hz32 : z.toNat ≤ 0x66666666 := by
    have hlow : y.toNat &&& 0x33333333 ≤ 0x33333333 := Nat.and_le_right
    have hhigh : (y.toNat >>> 2) &&& 0x33333333 ≤ 0x33333333 := Nat.and_le_right
    rw [hz, toNat_pairSum (by decide)]
    omega
  have hcounts : (byteCounts x).toNat = (z.toNat + (z.toNat >>> 4)) &&& 0x0F0F0F0F := by
    have hshift : z.toNat >>> 4 = z.toNat / 2 ^ 4 := Nat.shiftRight_eq_div_pow _ _
    have hroom : z.toNat + (z.toNat >>> 4) < 2 ^ 32 := by omega
    rw [byteCounts, sub_upper_bits, ← hy, ← hz, BitVec.toNat_and, BitVec.toNat_add,
      BitVec.toNat_ushiftRight, Nat.mod_eq_of_lt hroom]
    rfl
  have hsum := field_sum_and lowerHalves_4 hi (y := z.toNat) fun j hj => by
    have hleft := hsmall j (by omega)
    have hright := hsmall (j + 1) (by omega)
    omega
  rw [hcounts]
  refine hsum.trans ?_
  rw [hnibbles _ (by omega), hnibbles _ (by omega), hpairs _ (by omega), hpairs _ (by omega),
    hpairs _ (by omega), hpairs _ (by omega)]
  simp only [ones, Finset.sum_range_succ, Finset.sum_range_zero, BitVec.getLsbD_ushiftRight]
  ring_nf

theorem byteCounts_eq (x : BitVec 32) :
    (byteCounts x).toNat = ones x 8 + 2 ^ 8 * ones (x >>> 8) 8 + 2 ^ 16 * ones (x >>> 16) 8 +
      2 ^ 24 * ones (x >>> 24) 8 := by
  have h₀ := field_byteCounts x (i := 0) (by decide)
  have h₁ := field_byteCounts x (i := 1) (by decide)
  have h₂ := field_byteCounts x (i := 2) (by decide)
  have h₃ := field_byteCounts x (i := 3) (by decide)
  have hlt := (byteCounts x).isLt
  simp only [field, Nat.mul_zero, pow_zero, Nat.div_one, Nat.reduceMul, BitVec.ushiftRight_zero]
    at h₀ h₁ h₂ h₃
  omega

theorem ones_32 (x : BitVec 32) :
    ones x 32 = ones x 8 + ones (x >>> 8) 8 + ones (x >>> 16) 8 + ones (x >>> 24) 8 := by
  have h₁ : ones x 32 = ones x 24 + ones (x >>> 24) 8 := ones_shiftRight_add x 24 8
  have h₂ : ones x 24 = ones x 16 + ones (x >>> 16) 8 := ones_shiftRight_add x 16 8
  have h₃ : ones x 16 = ones x 8 + ones (x >>> 8) 8 := ones_shiftRight_add x 8 8
  omega

/-- Four counts in one word, added up by shifts and by one multiplication. -/
theorem sum_of_counts {a b c d n : ℕ} (ha : a ≤ 8) (hb : b ≤ 8) (hc : c ≤ 8) (hd : d ≤ 8)
    (hn : n = a + 2 ^ 8 * b + 2 ^ 16 * c + 2 ^ 24 * d) :
    (n + n / 2 ^ 8 + (n + n / 2 ^ 8) / 2 ^ 16) % 2 ^ 6 = a + b + c + d ∧
    n + n / 2 ^ 8 + (n + n / 2 ^ 8) / 2 ^ 16 < 2 ^ 32 ∧
    n * 0x01010101 % 2 ^ 32 / 2 ^ 24 = a + b + c + d := by
  have hshift : n / 2 ^ 8 = b + 2 ^ 8 * c + 2 ^ 16 * d := by omega
  have hpairs : n + n / 2 ^ 8 = (a + b) + 2 ^ 8 * (b + c) + 2 ^ 16 * (c + d) + 2 ^ 24 * d := by
    omega
  have hupper : (n + n / 2 ^ 8) / 2 ^ 16 = (c + d) + 2 ^ 8 * d := by omega
  have hproduct : n * 0x01010101 % 2 ^ 32 =
      a + 2 ^ 8 * (a + b) + 2 ^ 16 * (a + b + c) + 2 ^ 24 * (a + b + c + d) := by
    have hsplit : n * 0x01010101 =
        (a + 2 ^ 8 * (a + b) + 2 ^ 16 * (a + b + c) + 2 ^ 24 * (a + b + c + d)) +
          2 ^ 32 * (b + c + d + 2 ^ 8 * (c + d) + 2 ^ 16 * d) := by
      rw [hn]
      ring
    rw [hsplit, Nat.add_mul_mod_self_left]
    exact Nat.mod_eq_of_lt (by omega)
  refine ⟨?_, ?_, ?_⟩
  · rw [hupper, hpairs]
    omega
  · rw [hupper, hpairs]
    omega
  · rw [hproduct]
    omega

theorem oneBits32_eq (x : BitVec 32) : oneBits32 x = ones x 32 := by
  obtain ⟨hsum, hlt, -⟩ := sum_of_counts (ones_le x 8) (ones_le (x >>> 8) 8)
    (ones_le (x >>> 16) 8) (ones_le (x >>> 24) 8) (byteCounts_eq x)
  have hand (y : ℕ) : y &&& 63 = y % 2 ^ 6 := Nat.and_two_pow_sub_one_eq_mod y 6
  rw [ones_32, oneBits32, BitVec.toNat_and, BitVec.toNat_add, BitVec.toNat_ushiftRight,
    BitVec.toNat_add, BitVec.toNat_ushiftRight, Nat.shiftRight_eq_div_pow,
    Nat.shiftRight_eq_div_pow, Nat.mod_eq_of_lt (lt_of_le_of_lt (Nat.le_add_right _ _) hlt),
    Nat.mod_eq_of_lt hlt, ← hsum]
  exact hand _

theorem oneBits32X86_eq (x : BitVec 32) : oneBits32X86 x = ones x 32 := by
  obtain ⟨-, -, hsum⟩ := sum_of_counts (ones_le x 8) (ones_le (x >>> 8) 8)
    (ones_le (x >>> 16) 8) (ones_le (x >>> 24) 8) (byteCounts_eq x)
  rw [ones_32, oneBits32X86, BitVec.toNat_ushiftRight, BitVec.toNat_mul,
    Nat.shiftRight_eq_div_pow, ← hsum]
  rfl

theorem oneBits32DumbLoop_eq (n : ℕ) (x : BitVec 32) (bits : ℕ) :
    oneBits32DumbLoop n x bits = bits + ones x n := by
  induction n generalizing x bits with
  | zero => rfl
  | succ n ih =>
      have hfirst := ones_shiftRight_add x 1 n
      have hbit : ones x 1 = (x.getLsbD 0).toNat := by
        rw [ones_succ]
        exact Nat.zero_add _
      have hmask : x &&& 1#32 ≠ 0#32 ↔ x.getLsbD 0 = true :=
        and_one_shiftLeft_ne_zero_iff x (by decide : 0 < 32)
      rw [oneBits32DumbLoop, ih, Nat.add_comm n 1, hfirst, hbit]
      by_cases hset : x.getLsbD 0 = true
      · rw [if_pos (hmask.mpr hset), hset]
        exact Nat.add_assoc bits 1 _
      · rw [if_neg fun h => hset (hmask.mp h), Bool.eq_false_iff.mpr hset]
        exact congrArg (bits + ·) (Nat.zero_add _).symm

theorem oneBits32Dumb_eq (x : BitVec 32) : oneBits32Dumb x = ones x 32 :=
  (oneBits32DumbLoop_eq 32 x 0).trans (Nat.zero_add _)

/-! ### Parities -/

/-- The table has the parity of every nibble. -/
theorem table_parity {w : ℕ} (x : BitVec w) :
    (0x6996 >>> (x.toNat % 2 ^ 4)) &&& 1 = ones x 4 % 2 := by
  have htable : ∀ v < 2 ^ 4, (0x6996 >>> v) &&& 1 =
      (∑ i ∈ Finset.range 4, (v.testBit i).toNat) % 2 := by decide
  rw [htable _ (Nat.mod_lt _ (by decide))]
  congr 1
  refine Finset.sum_congr rfl fun i hi => ?_
  rw [Nat.testBit_mod_two_pow, decide_eq_true (Finset.mem_range.mp hi), Bool.true_and,
    BitVec.testBit_toNat]

theorem byte_parity {w : ℕ} (x : BitVec w) (hmask : (0x0F#w).toNat = 2 ^ 4 - 1) :
    (0x6996 >>> ((x ^^^ (x >>> 4)) &&& 0x0F#w).toNat) &&& 1 = ones x 8 % 2 := by
  rw [BitVec.toNat_and, hmask, Nat.and_two_pow_sub_one_eq_mod, table_parity]
  exact ones_fold x 4

theorem parity16_eq (x : BitVec 16) : parity16 x = ones x 16 % 2 :=
  (byte_parity (x ^^^ (x >>> 8)) rfl).trans (ones_fold x 8)

theorem parity32_eq (x : BitVec 32) : parity32 x = ones x 32 % 2 :=
  (byte_parity _ rfl).trans ((ones_fold (x ^^^ (x >>> 16)) 8).trans (ones_fold x 16))

theorem parity8DumbLoop_eq (n : ℕ) (x : BitVec 8) (y : Bool) :
    (parity8DumbLoop n ((BitVec.ofBool y).setWidth 8) x).toNat = (y.toNat + ones x n) % 2 := by
  induction n generalizing x y with
  | zero => cases y <;> rfl
  | succ n ih =>
      have hxor : ∀ a b : Bool, (BitVec.ofBool a).setWidth 8 ^^^ (BitVec.ofBool b).setWidth 8 =
          (BitVec.ofBool (a ^^ b)).setWidth 8 := by decide
      have hsum : ∀ a b : Bool, (a ^^ b).toNat % 2 = (a.toNat + b.toNat) % 2 := by decide
      have hbit := hsum y (x.getLsbD 0)
      have hfirst := ones_shiftRight_add x 1 n
      have hone : ones x 1 = (x.getLsbD 0).toNat := by
        rw [ones_succ]
        exact Nat.zero_add _
      rw [parity8DumbLoop, BitVec.and_one_eq_setWidth_ofBool_getLsbD, hxor, ih, Nat.add_comm n 1,
        hfirst, hone]
      omega

theorem parity8Dumb_eq (x : BitVec 8) : parity8Dumb x = ones x 8 % 2 := by
  have hloop := parity8DumbLoop_eq 8 x false
  rw [Bool.toNat_false, Nat.zero_add] at hloop
  exact hloop

theorem bit_counts_agree :
    (∀ x : BitVec 32, oneBits32 x = oneBits32Dumb x ∧ oneBits32X86 x = oneBits32Dumb x ∧
      parity32 x = oneBits32Dumb x % 2) ∧
    (∀ x : BitVec 16, parity16 x = oneBits32Dumb (x.setWidth 32) % 2) ∧
    ∀ x : BitVec 8, parity8 x = parity8Dumb x ∧
      parity8 x = oneBits32Dumb (x.setWidth 32) % 2 := by
  refine ⟨?_, ?_, ?_⟩
  · intro x
    rw [oneBits32Dumb_eq]
    exact ⟨oneBits32_eq x, oneBits32X86_eq x, parity32_eq x⟩
  · intro x
    rw [oneBits32Dumb_eq, ones_setWidth x (by decide)]
    exact parity16_eq x
  · intro x
    have hbyte : parity8 x = ones x 8 % 2 := byte_parity x rfl
    rw [oneBits32Dumb_eq, ones_setWidth x (by decide), parity8Dumb_eq]
    exact ⟨hbyte, hbyte⟩

/-! ### Masks and single bits -/

theorem smeared_makeMask32 (x : BitVec 32) : Smeared 32 x (makeMask32 x) :=
  (smeared_one x).step.step.step.step.step

theorem smeared_makeMask16 (x : BitVec 16) : Smeared 16 x (makeMask16 x) :=
  (smeared_one x).step.step.step.step

theorem HighestBit.makeMask32 {x : BitVec 32} {k : ℕ} (h : HighestBit x k) (i : ℕ) :
    (makeMask32 x).getLsbD i = decide (i ≤ k) :=
  (smeared_makeMask32 x).getLsbD h.set h.le i

theorem HighestBit.mostSignificantOne32 {x : BitVec 32} {k : ℕ} (h : HighestBit x k) :
    mostSignificantOne32 x = BitVec.twoPow 32 k := by
  have hk := BitVec.lt_of_getLsbD h.set
  apply BitVec.eq_of_getLsbD_eq
  intro i hi
  rw [Oslec.mostSignificantOne32, BitVec.getLsbD_xor, BitVec.getLsbD_ushiftRight, h.makeMask32,
    h.makeMask32, BitVec.getLsbD_twoPow, decide_eq_true hk, Bool.true_and]
  rcases Nat.lt_trichotomy k i with hlt | rfl | hgt
  · rw [decide_eq_false (by omega), decide_eq_false (by omega), decide_eq_false (by omega)]
    rfl
  · rw [decide_eq_true (Nat.le_refl k), decide_eq_false (by omega), decide_eq_true rfl]
    rfl
  · rw [decide_eq_true (by omega), decide_eq_true (by omega), decide_eq_false (by omega)]
    rfl

theorem HighestBit.mostSignificantOne32X86 {x : BitVec 32} {k : ℕ} (h : HighestBit x k) :
    mostSignificantOne32X86 x = some (BitVec.twoPow 32 k) := by
  rw [Oslec.mostSignificantOne32X86, h.topBit, if_neg (by omega), Int.toNat_natCast]
  rfl

/-- Negation keeps the lowest bit and turns the ones above it round. -/
theorem LowestBit.leastSignificantOne32 {x : BitVec 32} {k : ℕ} (h : LowestBit x k) :
    leastSignificantOne32 x = BitVec.twoPow 32 k := by
  have hk := BitVec.lt_of_getLsbD h.set
  apply BitVec.eq_of_getLsbD_eq
  intro i hi
  rw [Oslec.leastSignificantOne32, BitVec.getLsbD_and, BitVec.getLsbD_neg,
    BitVec.getLsbD_twoPow, decide_eq_true hk, decide_eq_true hi, Bool.true_and, Bool.true_and]
  rcases Nat.lt_trichotomy k i with hlt | rfl | hgt
  · rw [decide_eq_true (⟨k, hlt, h.set⟩ : ∃ j < i, x.getLsbD j = true),
      decide_eq_false (by omega)]
    cases x.getLsbD i <;> rfl
  · have hnone : ¬∃ j < k, x.getLsbD j = true := by
      rintro ⟨j, hj, hset⟩
      exact absurd (h.le j hset) (by omega)
    rw [h.set, decide_eq_false hnone, decide_eq_true rfl]
    rfl
  · have hclear : x.getLsbD i = false := by
      by_contra hset
      exact absurd (h.le i (by simpa using hset)) (by omega)
    rw [hclear, Bool.false_and, decide_eq_false (by omega : ¬k = i)]

theorem masks_and_single_bits (x : BitVec 32) :
    (x = 0#32 → makeMask32 x = 0#32 ∧ mostSignificantOne32 x = 0#32 ∧
      mostSignificantOne32X86 x = none ∧ leastSignificantOne32 x = 0#32) ∧
    (x ≠ 0#32 → ∃ k, HighestBit x k ∧
      (∀ i, (makeMask32 x).getLsbD i = decide (i ≤ k)) ∧
      mostSignificantOne32 x = BitVec.twoPow 32 k ∧
      mostSignificantOne32X86 x = some (BitVec.twoPow 32 k)) ∧
    (x ≠ 0#32 → ∃ k, LowestBit x k ∧ leastSignificantOne32 x = BitVec.twoPow 32 k) ∧
    ∀ (y : BitVec 16) (i : ℕ),
      (makeMask16 y).getLsbD i = true ↔ ∃ j, i ≤ j ∧ y.getLsbD j = true := by
  refine ⟨?_, ?_, ?_, ?_⟩
  · rintro rfl
    exact ⟨rfl, rfl, rfl, rfl⟩
  · intro hx
    obtain ⟨k, hk⟩ := exists_highestBit hx
    exact ⟨k, hk, hk.makeMask32, hk.mostSignificantOne32, hk.mostSignificantOne32X86⟩
  · intro hx
    obtain ⟨k, hk⟩ := exists_lowestBit hx
    exact ⟨k, hk, hk.leastSignificantOne32⟩
  · intro y i
    rw [smeared_makeMask16 y i]
    constructor
    · rintro ⟨d, -, hset⟩
      exact ⟨i + d, Nat.le_add_right i d, hset⟩
    · rintro ⟨j, hj, hset⟩
      have hlt := BitVec.lt_of_getLsbD hset
      refine ⟨j - i, by omega, ?_⟩
      rwa [Nat.add_sub_cancel' hj]

theorem masks_and_single_bits_fifty :
    ∃ k, HighestBit 0x50#32 k ∧ mostSignificantOne32 0x50#32 = BitVec.twoPow 32 k := by
  obtain ⟨k, hk, -, hone, -⟩ := (masks_and_single_bits 0x50#32).2.1 (by decide)
  exact ⟨k, hk, hone⟩

end Oslec
