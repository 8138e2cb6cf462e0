import Oslec.Canceller.TopBit
import Mathlib.Tactic.Linarith

/-!
The portable bit scans against the other versions of the repository: the x86
assembler, the `fls` of the kernel and the loops of the test. The scan for the
lowest bit is the scan for the highest one on the reversed word; it starts at
32 where that one starts at 0, and so ends one above the bit that it finds.
-/

namespace Oslec

/-! ### The versions -/

/-- `bottom_bit` where no assembler version is selected. -/
def bottomBit (bits : BitVec 32) : ℤ :=
  if bits = 0#32 then -1
  else
    let s := scanStage 0x0000FFFF#32 (-16) (bits, 32)
    let s := scanStage 0x00FF00FF#32 (-8) s
    let s := scanStage 0x0F0F0F0F#32 (-4) s
    let s := scanStage 0x33333333#32 (-2) s
    let s := scanStage 0x55555555#32 (-1) s
    s.2

/-- The assembler versions: `xorl` and `decl` set the result to -1 before the
scan. The instructions get the word and what their destination holds. -/
def topBitX86 (bsrl : BitVec 32 → ℤ → ℤ) (bits : BitVec 32) : ℤ := bsrl bits (0 - 1)

def bottomBitX86 (bsfl : BitVec 32 → ℤ → ℤ) (bits : BitVec 32) : ℤ := bsfl bits (0 - 1)

/-- `top_bit` of the kernel copy. -/
def topBitFls (fls : BitVec 32 → ℤ) (bits : BitVec 32) : ℤ :=
  if bits = 0#32 then -1 else fls bits - 1

/-- The loop of `top_bit_dumb` over the bits below `i`. -/
def topBitDumbLoop (data : BitVec 32) : ℕ → ℤ
  | 0 => -1
  | i + 1 => if data &&& (1#32 <<< i) ≠ 0#32 then i else topBitDumbLoop data i

def topBitDumb (data : BitVec 32) : ℤ := if data = 0#32 then -1 else topBitDumbLoop data 32

/-- The loop of `bottom_bit_dumb` over `n` bits from `i` on. -/
def bottomBitDumbLoop (data : BitVec 32) : ℕ → ℕ → ℤ
  | 0, _ => -1
  | n + 1, i => if data &&& (1#32 <<< i) ≠ 0#32 then i else bottomBitDumbLoop data n (i + 1)

def bottomBitDumb (data : BitVec 32) : ℤ :=
  if data = 0#32 then -1 else bottomBitDumbLoop data 32 0

/-! ### What they are compared with -/

structure HighestBit (bits : BitVec 32) (k : ℕ) : Prop where
  set : bits.getLsbD k = true
  le : ∀ i, bits.getLsbD i = true → i ≤ k

structure LowestBit (bits : BitVec 32) (k : ℕ) : Prop where
  set : bits.getLsbD k = true
  le : ∀ i, bits.getLsbD i = true → k ≤ i

/-- The instructions and the kernel function as documented; a scan of zero
leaves the destination alone. -/
structure ScansDocumented (bsrl bsfl : BitVec 32 → ℤ → ℤ) (fls : BitVec 32 → ℤ) : Prop where
  bsrl_highest : ∀ bits k res, HighestBit bits k → bsrl bits res = k
  bsrl_zero : ∀ res, bsrl 0#32 res = res
  bsfl_lowest : ∀ bits k res, LowestBit bits k → bsfl bits res = k
  bsfl_zero : ∀ res, bsfl 0#32 res = res
  fls_highest : ∀ bits k, HighestBit bits k → fls bits = k + 1

structure TopScansAgree (bsrl : BitVec 32 → ℤ → ℤ) (fls : BitVec 32 → ℤ) (bits : BitVec 32) :
    Prop where
  zero : bits = 0#32 → topBit bits = -1
  highest : ∀ k, HighestBit bits k → topBit bits = k
  x86 : topBit bits = topBitX86 bsrl bits
  dumb : topBit bits = topBitDumb bits
  fls : topBit bits = topBitFls fls bits

structure BottomScansAgree (bsfl : BitVec 32 → ℤ → ℤ) (bits : BitVec 32) : Prop where
  zero : bits = 0#32 → bottomBit bits = -1
  lowest : ∀ k, LowestBit bits k → bottomBit bits = k
  x86 : bottomBit bits = bottomBitX86 bsfl bits
  dumb : bottomBit bits = bottomBitDumb bits

/-! ### The bits of a word -/

theorem exists_getLsbD {bits : BitVec 32} (h : bits ≠ 0#32) : ∃ k, bits.getLsbD k = true := by
  by_contra hnone
  push Not at hnone
  apply h
  apply BitVec.eq_of_getLsbD_eq
  intro i _
  rw [BitVec.getLsbD_zero]
  exact Bool.eq_false_iff.mpr (hnone i)

theorem exists_lowestBit {bits : BitVec 32} (h : bits ≠ 0#32) : ∃ k, LowestBit bits k := by
  have hex := exists_getLsbD h
  exact ⟨Nat.find hex, Nat.find_spec hex, fun i hi => Nat.find_min' hex hi⟩

/-- Reversal turns the lowest bit into the highest one. -/
theorem LowestBit.reverse {bits : BitVec 32} {k : ℕ} (h : LowestBit bits k) :
    HighestBit bits.reverse (31 - k) := by
  have hk : k < 32 := BitVec.lt_of_getLsbD h.set
  have hget : ∀ i < 32, bits.reverse.getLsbD i = bits.getLsbD (31 - i) := by
    intro i hi
    rw [BitVec.getLsbD_reverse, BitVec.getMsbD_eq_getLsbD, decide_eq_true hi, Bool.true_and]
  constructor
  · rw [hget _ (by omega), Nat.sub_sub_self (by omega)]
    exact h.set
  · intro i hi
    have hi32 : i < 32 := BitVec.lt_of_getLsbD hi
    rw [hget i hi32] at hi
    have hle := h.le _ hi
    omega

theorem exists_highestBit {bits : BitVec 32} (h : bits ≠ 0#32) : ∃ k, HighestBit bits k := by
  have hne : bits.reverse ≠ 0#32 := fun hzero => h (BitVec.reverse_eq_zero_iff.mp hzero)
  obtain ⟨k, hk⟩ := exists_lowestBit hne
  have hhigh := hk.reverse
  rw [BitVec.reverse_reverse_eq] at hhigh
  exact ⟨31 - k, hhigh⟩

theorem and_one_shiftLeft_ne_zero_iff (data : BitVec 32) {i : ℕ} (hi : i < 32) :
    data &&& (1#32 <<< i) ≠ 0#32 ↔ data.getLsbD i = true := by
  have hone : ∀ j, (1#32 <<< i).getLsbD j = decide (j = i) := by
    intro j
    rw [BitVec.getLsbD_shiftLeft, BitVec.getLsbD_one]
    by_cases hj : j = i
    · simp [hj, hi]
    · simp only [hj, decide_false]
      by_cases hlt : j < i
      · simp [hlt]
      · simp [show j - i ≠ 0 by omega]
  constructor
  · intro hne
    obtain ⟨j, hj⟩ := exists_getLsbD hne
    rw [BitVec.getLsbD_and, hone, Bool.and_eq_true, decide_eq_true_eq] at hj
    rw [← hj.2]
    exact hj.1
  · intro hset hzero
    have hbit := congrArg (BitVec.getLsbD · i) hzero
    rw [BitVec.getLsbD_and, hone, hset, BitVec.getLsbD_zero] at hbit
    simp at hbit

/-! ### The highest bit -/

theorem HighestBit.topBit {bits : BitVec 32} {k : ℕ} (h : HighestBit bits k) :
    topBit bits = k := topBit_eq h.set h.le

theorem HighestBit.ne_zero {bits : BitVec 32} {k : ℕ} (h : HighestBit bits k) : bits ≠ 0#32 := by
  rintro rfl
  have hset := h.set
  rw [BitVec.getLsbD_zero] at hset
  cases hset

/-- The loop stops at the highest bit, if it starts above it. -/
theorem HighestBit.topBitDumbLoop {bits : BitVec 32} {k : ℕ} (h : HighestBit bits k) {n : ℕ}
    (hlt : k < n) (hn : n ≤ 32) : topBitDumbLoop bits n = k := by
  induction n with
  | zero => omega
  | succ i ih =>
      rw [Oslec.topBitDumbLoop]
      by_cases hbit : bits.getLsbD i = true
      · rw [if_pos ((and_one_shiftLeft_ne_zero_iff bits (by omega)).mpr hbit)]
        have hle := h.le i hbit
        have heq : i = k := by omega
        rw [heq]
      · rw [if_neg (mt (and_one_shiftLeft_ne_zero_iff bits (by omega)).mp hbit)]
        have hne : k ≠ i := by
          rintro rfl
          exact hbit h.set
        exact ih (by omega) (by omega)

theorem topScansAgree {bsrl bsfl : BitVec 32 → ℤ → ℤ} {fls : BitVec 32 → ℤ}
    (hdocs : ScansDocumented bsrl bsfl fls) (bits : BitVec 32) :
    TopScansAgree bsrl fls bits := by
  by_cases hzero : bits = 0#32
  · subst hzero
    exact {
      zero := fun _ => rfl
      highest := fun k hk => absurd rfl hk.ne_zero
      x86 := (hdocs.bsrl_zero _).symm
      dumb := rfl
      fls := rfl
    }
  · obtain ⟨k, hk⟩ := exists_highestBit hzero
    exact {
      zero := fun h => absurd h hzero
      highest := fun k' hk' => hk'.topBit
      x86 := by rw [hk.topBit, topBitX86, hdocs.bsrl_highest bits k _ hk]
      dumb := by
        have hlt : k < 32 := BitVec.lt_of_getLsbD hk.set
        rw [hk.topBit, topBitDumb, if_neg hzero, hk.topBitDumbLoop hlt (le_refl 32)]
      fls := by
        rw [hk.topBit, topBitFls, if_neg hzero, hdocs.fls_highest bits k hk,
          add_sub_cancel_right]
    }

/-! ### The lowest bit -/

theorem reverse_and (x y : BitVec 32) : (x &&& y).reverse = x.reverse &&& y.reverse := by
  apply BitVec.eq_of_getLsbD_eq
  intro i _
  rw [BitVec.getLsbD_and, BitVec.getLsbD_reverse, BitVec.getLsbD_reverse, BitVec.getLsbD_reverse,
    BitVec.getMsbD_and]

/-- The mirror image of a scan: reversed bits, counted down from 32. -/
structure Mirrors (s t : BitVec 32 × ℤ) : Prop where
  bits : t.1 = s.1.reverse
  count : s.2 = 32 - t.2

theorem Mirrors.scanStage {s t : BitVec 32 × ℤ} (h : Mirrors s t) (mask mask' : BitVec 32) (k : ℤ)
    (hmask : mask' = mask.reverse) :
    Mirrors (scanStage mask (-k) s) (scanStage mask' k t) := by
  have hand : t.1 &&& mask' = (s.1 &&& mask).reverse := by rw [h.bits, hmask, reverse_and]
  have hiff : t.1 &&& mask' ≠ 0#32 ↔ s.1 &&& mask ≠ 0#32 := by
    rw [hand]
    exact not_congr BitVec.reverse_eq_zero_iff
  simp only [Oslec.scanStage]
  by_cases hne : s.1 &&& mask ≠ 0#32
  · rw [if_pos hne, if_pos (hiff.mpr hne)]
    refine ⟨hand, ?_⟩
    have hcount := h.count
    dsimp only
    omega
  · rw [if_neg hne, if_neg (mt hiff.mp hne)]
    exact h

/-- `bottom_bit` is off by one: 32 less the highest bit of the reversed word. -/
theorem bottomBit_eq_reverse {bits : BitVec 32} (h : bits ≠ 0#32) :
    bottomBit bits = 32 - topBit bits.reverse := by
  have h0 : Mirrors (bits, 32) (bits.reverse, 0) := ⟨rfl, rfl⟩
  have h1 := h0.scanStage 0x0000FFFF#32 0xFFFF0000#32 16 (by decide +kernel)
  have h2 := h1.scanStage 0x00FF00FF#32 0xFF00FF00#32 8 (by decide +kernel)
  have h3 := h2.scanStage 0x0F0F0F0F#32 0xF0F0F0F0#32 4 (by decide +kernel)
  have h4 := h3.scanStage 0x33333333#32 0xCCCCCCCC#32 2 (by decide +kernel)
  have h5 := h4.scanStage 0x55555555#32 0xAAAAAAAA#32 1 (by decide +kernel)
  rw [bottomBit, if_neg h, topBit, if_neg (mt BitVec.reverse_eq_zero_iff.mp h)]
  exact h5.count

theorem LowestBit.bottomBit {bits : BitVec 32} {k : ℕ} (h : LowestBit bits k) :
    bottomBit bits = k + 1 := by
  have hk : k < 32 := BitVec.lt_of_getLsbD h.set
  have hne : bits ≠ 0#32 := by
    rintro rfl
    have hset := h.set
    rw [BitVec.getLsbD_zero] at hset
    cases hset
  rw [bottomBit_eq_reverse hne, h.reverse.topBit]
  omega

/-- The portable scans agree with all the others on the word zero only: that for
the highest bit always does, that for the lowest bit never does elsewhere. -/
theorem bit_scans_agree_iff {bsrl bsfl : BitVec 32 → ℤ → ℤ} {fls : BitVec 32 → ℤ}
    (hdocs : ScansDocumented bsrl bsfl fls) (bits : BitVec 32) :
    TopScansAgree bsrl fls bits ∧ (BottomScansAgree bsfl bits ↔ bits = 0#32) := by
  refine ⟨topScansAgree hdocs bits, ?_, ?_⟩
  · intro h
    by_contra hzero
    obtain ⟨k, hk⟩ := exists_lowestBit hzero
    have hcode := hk.bottomBit
    rw [h.lowest k hk] at hcode
    omega
  · rintro rfl
    exact {
      zero := fun _ => rfl
      lowest := by
        intro k hk
        have hset := hk.set
        rw [BitVec.getLsbD_zero] at hset
        cases hset
      x86 := (hdocs.bsfl_zero _).symm
      dumb := rfl
    }

/-- The scans by logarithm, the one upwards on the reversed word. -/
def scanReverse (bits : BitVec 32) (res : ℤ) : ℤ :=
  if bits = 0#32 then res else bits.toNat.log2

def scanForward (bits : BitVec 32) (res : ℤ) : ℤ :=
  if bits = 0#32 then res else 31 - (bits.reverse.toNat.log2 : ℤ)

theorem HighestBit.log2 {bits : BitVec 32} {k : ℕ} (h : HighestBit bits k) :
    bits.toNat.log2 = k := by
  have hcast := (topBit_eq_log2 h.ne_zero).symm.trans h.topBit
  exact_mod_cast hcast

theorem scansDocumented_log2 :
    ScansDocumented scanReverse scanForward fun bits => scanReverse bits (-1) + 1 where
  bsrl_highest := fun bits k res h => by rw [scanReverse, if_neg h.ne_zero, h.log2]
  bsrl_zero := fun _ => rfl
  bsfl_lowest := by
    intro bits k res h
    have hk : k < 32 := BitVec.lt_of_getLsbD h.set
    rw [scanForward, if_neg (mt BitVec.reverse_eq_zero_iff.mpr h.reverse.ne_zero), h.reverse.log2]
    omega
  bsfl_zero := fun _ => rfl
  fls_highest := fun bits k h => by rw [scanReverse, if_neg h.ne_zero, h.log2]

theorem bit_scans_agree_iff_ten :
    TopScansAgree scanReverse (fun bits => scanReverse bits (-1) + 1) 10#32 ∧
      (BottomScansAgree scanForward 10#32 ↔ 10#32 = 0#32) :=
  bit_scans_agree_iff scansDocumented_log2 10#32

/-- The lowest bit of one is bit 0, and the portable scan says 1. -/
theorem bottom_bit_off_by_one :
    bottomBit 1#32 = 1 ∧ bottomBitDumb 1#32 = 0 ∧ ¬ BottomScansAgree scanForward 1#32 := by
  have hcode : bottomBit 1#32 = 1 := by decide
  refine ⟨hcode, rfl, ?_⟩
  intro h
  have hlowest := h.lowest 0 ⟨rfl, fun i _ => Nat.zero_le i⟩
  rw [hcode] at hlowest
  cases hlowest

end Oslec
