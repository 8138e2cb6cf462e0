import Mathlib.Algebra.Order.Ring.Nat
import Mathlib.Tactic.Common

/-!
The bits of a word under the usual tricks. Exchanging all neighbouring blocks of
`2 ^ j` bits turns one bit of every index round, so a few exchanges reverse a word
or its bytes; a word combined with its own shifts by one, two, four and so on spreads
every bit downwards; and a loop that moves the bits out at the bottom and in at the
bottom again reverses every field that its mask marks.
-/

namespace WordBits

variable {w : ℕ}

/-! ### Exchanges -/

/-- Exchange the bits at the positions of `hi` with those `s` below them. -/
def exchange (hi lo : BitVec w) (s : ℕ) (x : BitVec w) : BitVec w :=
  ((x &&& hi) >>> s) ||| ((x &&& lo) <<< s)

/-- The index with bit `j` turned round. -/
def flip (j i : ℕ) : ℕ := if i.testBit j then i - 2 ^ j else i + 2 ^ j

/-- The positions whose index has bit `j` set, and the others. -/
structure Halves (hi lo : BitVec w) (j : ℕ) : Prop where
  hi : ∀ i < w, hi.getLsbD i = i.testBit j
  lo : ∀ i < w, lo.getLsbD i = !i.testBit j
  inside : ∀ i < w, flip j i < w

theorem testBit_add_two_pow (j i : ℕ) : (i + 2 ^ j).testBit j = !i.testBit j := by
  rw [Nat.add_comm, Nat.testBit_two_pow_add_eq]

theorem testBit_sub_two_pow {j i : ℕ} (h : i.testBit j = true) :
    (i - 2 ^ j).testBit j = false := by
  have hbit := testBit_add_two_pow j (i - 2 ^ j)
  rw [Nat.sub_add_cancel (Nat.ge_two_pow_of_testBit h), h] at hbit
  simpa using hbit

/-- Bit `i` of `y` is bit `f i` of `x`. -/
def Moves (f : ℕ → ℕ) (x y : BitVec w) : Prop :=
  ∀ i < w, f i < w ∧ y.getLsbD i = x.getLsbD (f i)

theorem Moves.trans {f g : ℕ → ℕ} {x y z : BitVec w} (h : Moves f x y) (h' : Moves g y z) :
    Moves (fun i => f (g i)) x z := by
  intro i hi
  obtain ⟨hg, hz⟩ := h' i hi
  obtain ⟨hf, hy⟩ := h _ hg
  exact ⟨hf, hz.trans hy⟩

theorem moves_exchange {hi lo : BitVec w} {j s : ℕ} (h : Halves hi lo j) (hs : s = 2 ^ j)
    (x : BitVec w) : Moves (flip j) x (exchange hi lo s x) := by
  subst hs
  intro i hi'
  have hinside := h.inside i hi'
  refine ⟨hinside, ?_⟩
  rw [exchange, BitVec.getLsbD_or, BitVec.getLsbD_ushiftRight, BitVec.getLsbD_shiftLeft,
    BitVec.getLsbD_and, BitVec.getLsbD_and, decide_eq_true hi', Bool.true_and, Nat.add_comm]
  rw [flip] at hinside ⊢
  split at hinside
  case isTrue hbit =>
    have hle := Nat.ge_two_pow_of_testBit hbit
    have hupper : hi.getLsbD (i + 2 ^ j) = false := by
      rcases Nat.lt_or_ge (i + 2 ^ j) w with hlt | hge
      · rw [h.hi _ hlt, testBit_add_two_pow, hbit]
        rfl
      · exact BitVec.getLsbD_of_ge _ _ hge
    have hlower : lo.getLsbD (i - 2 ^ j) = true := by
      rw [h.lo _ hinside, testBit_sub_two_pow hbit]
      rfl
    rw [if_pos hbit, hupper, hlower, Bool.and_false, Bool.false_or, Bool.and_true,
      decide_eq_false (Nat.not_lt.mpr hle)]
    rfl
  case isFalse hbit =>
    have hbit' : i.testBit j = false := by simpa using hbit
    have hupper : hi.getLsbD (i + 2 ^ j) = true := by
      rw [h.hi _ hinside, testBit_add_two_pow, hbit']
      rfl
    rw [if_neg hbit, hupper, Bool.and_true]
    rcases Nat.lt_or_ge i (2 ^ j) with hlt | hge
    · rw [decide_eq_true hlt, Bool.not_true, Bool.false_and, Bool.or_false]
    · have hlower : lo.getLsbD (i - 2 ^ j) = false := by
        have hback := testBit_add_two_pow j (i - 2 ^ j)
        rw [Nat.sub_add_cancel hge, hbit'] at hback
        rw [h.lo _ (Nat.lt_of_le_of_lt (Nat.sub_le _ _) hi'), ← hback]
      rw [hlower, Bool.and_false, Bool.and_false, Bool.or_false]

/-- The two halves of a word need no mask. -/
theorem moves_exchange_halves {j s : ℕ} (hs : s = 2 ^ j) (hw : w = s + s) (x : BitVec w) :
    Moves (flip j) x ((x >>> s) ||| (x <<< s)) := by
  subst hs
  intro i hi
  rw [BitVec.getLsbD_or, BitVec.getLsbD_ushiftRight, BitVec.getLsbD_shiftLeft,
    decide_eq_true hi, Bool.true_and, Nat.add_comm]
  rcases Nat.lt_or_ge i (2 ^ j) with hlt | hge
  · have hflip : flip j i = i + 2 ^ j := by
      rw [flip, Nat.testBit_lt_two_pow hlt]
      rfl
    rw [hflip, decide_eq_true hlt, Bool.not_true, Bool.false_and, Bool.or_false]
    exact ⟨by omega, rfl⟩
  · have hbit : i.testBit j = true := by
      have hback := testBit_add_two_pow j (i - 2 ^ j)
      rwa [Nat.sub_add_cancel hge, Nat.testBit_lt_two_pow (by omega : i - 2 ^ j < 2 ^ j)] at hback
    rw [flip, if_pos hbit, decide_eq_false (Nat.not_lt.mpr hge), Bool.not_false, Bool.true_and,
      BitVec.getLsbD_of_ge x (i + 2 ^ j) (by omega), Bool.false_or]
    exact ⟨by omega, rfl⟩

/-! ### Reversal -/

/-- Every field of `k` bits of `y` is that of `x` backwards. -/
def Reversed (k : ℕ) (x y : BitVec w) : Prop :=
  ∀ i < w, y.getLsbD i = x.getLsbD (i - i % k + (k - 1 - i % k))

theorem Reversed.unique {k : ℕ} {x y z : BitVec w} (hy : Reversed k x y) (hz : Reversed k x z) :
    y = z := by
  apply BitVec.eq_of_getLsbD_eq
  intro i hi
  rw [hy i hi, hz i hi]

theorem Moves.reversed {f : ℕ → ℕ} {k : ℕ} {x y : BitVec w} (h : Moves f x y)
    (hf : ∀ i < w, f i = i - i % k + (k - 1 - i % k)) : Reversed k x y := by
  intro i hi
  rw [(h i hi).2, hf i hi]

theorem reversed_reverse (x : BitVec w) : Reversed w x x.reverse := by
  intro i hi
  rw [BitVec.getLsbD_reverse, BitVec.getMsbD_eq_getLsbD, decide_eq_true hi, Bool.true_and,
    Nat.mod_eq_of_lt hi, Nat.sub_self, Nat.zero_add]

/-- One bit after the other of the marked positions. -/
def reverseLoop (mask : BitVec w) : ℕ → BitVec w → BitVec w → BitVec w
  | 0, result, _ => result
  | n + 1, result, data => reverseLoop mask n ((result <<< 1) ||| (data &&& mask)) (data >>> 1)

/-- After `t` rounds: the lowest `t` bits of each field, backwards. -/
def ReversedUpTo (k t : ℕ) (x result : BitVec w) : Prop :=
  ∀ i < w, result.getLsbD i = (decide (i % k < t) && x.getLsbD (i - i % k + (t - 1 - i % k)))

theorem ReversedUpTo.step {k t : ℕ} {mask x result : BitVec w} (hk : 0 < k)
    (hmask : ∀ i < w, mask.getLsbD i = decide (i % k = 0)) (ht : t < k)
    (h : ReversedUpTo k t x result) :
    ReversedUpTo k (t + 1) x ((result <<< 1) ||| ((x >>> t) &&& mask)) := by
  intro i hi
  rw [BitVec.getLsbD_or, BitVec.getLsbD_and, BitVec.getLsbD_ushiftRight, hmask i hi,
    BitVec.getLsbD_shiftLeft, decide_eq_true hi, Bool.true_and]
  rcases Nat.eq_zero_or_pos (i % k) with hzero | hpos
  · -- the bit that comes in
    have hout : (!decide (i < 1) && result.getLsbD (i - 1)) = false := by
      rcases Nat.eq_zero_or_pos i with rfl | hi'
      · rfl
      · have hlast : (i - 1) % k = k - 1 := by
          have hdvd := Nat.dvd_of_mod_eq_zero hzero
          obtain ⟨q, rfl⟩ := hdvd
          obtain ⟨p, rfl⟩ : ∃ p, q = p + 1 :=
            ⟨q - 1, (Nat.sub_add_cancel (Nat.pos_of_mul_pos_left hi')).symm⟩
          have hsum : k * (p + 1) - 1 = k * p + (k - 1) := by
            rw [Nat.mul_succ]
            omega
          rw [hsum, Nat.mul_add_mod, Nat.mod_eq_of_lt (by omega)]
        rw [h _ (by omega), hlast, decide_eq_false (by omega : ¬k - 1 < t), Bool.false_and,
          Bool.and_false]
    rw [hout, Bool.false_or, hzero, decide_eq_true rfl, decide_eq_true (Nat.succ_pos t),
      Bool.and_true, Bool.true_and, Nat.sub_zero, Nat.add_sub_cancel, Nat.sub_zero, Nat.add_comm]
  · have hprev : (i - 1) % k = i % k - 1 := by
      have hlt := Nat.mod_lt i hk
      have hsum : i - 1 = k * (i / k) + (i % k - 1) := by
        have hdiv := Nat.div_add_mod i k
        omega
      rw [hsum, Nat.mul_add_mod, Nat.mod_eq_of_lt (by omega)]
    have hle := Nat.mod_le i k
    have hindex : i - 1 - (i % k - 1) + (t - 1 - (i % k - 1)) =
        i - i % k + (t + 1 - 1 - i % k) := by omega
    rw [h _ (by omega), hprev, hindex, decide_eq_false (Nat.pos_iff_ne_zero.mp hpos), Bool.and_false, Bool.or_false,
      decide_eq_false (by omega), Bool.not_false, Bool.true_and]
    congr 1
    exact decide_eq_decide.mpr (by omega)

theorem ReversedUpTo.loop {k : ℕ} {mask x : BitVec w} (hk : 0 < k)
    (hmask : ∀ i < w, mask.getLsbD i = decide (i % k = 0)) (n : ℕ) {t : ℕ} {result : BitVec w}
    (ht : t + n ≤ k) (h : ReversedUpTo k t x result) :
    ReversedUpTo k (t + n) x (reverseLoop mask n result (x >>> t)) := by
  induction n generalizing t result with
  | zero => exact h
  | succ n ih =>
      have hshift : x >>> t >>> 1 = x >>> (t + 1) := (BitVec.shiftRight_add x t 1).symm
      have hnext := ih (by omega) (h.step hk hmask (by omega))
      rw [← hshift, Nat.add_right_comm t 1 n] at hnext
      exact hnext

theorem reversed_reverseLoop {k : ℕ} {mask : BitVec w} (hk : 0 < k)
    (hmask : ∀ i < w, mask.getLsbD i = decide (i % k = 0)) (x : BitVec w) :
    Reversed k x (reverseLoop mask k 0#w x) := by
  have hstart : ReversedUpTo k 0 x 0#w := by
    intro i _
    rw [BitVec.getLsbD_zero, decide_eq_false (Nat.not_lt_zero _), Bool.false_and]
  have hend := hstart.loop hk hmask k (by omega)
  intro i hi
  rw [BitVec.ushiftRight_zero, Nat.zero_add] at hend
  rw [hend i hi, decide_eq_true (Nat.mod_lt i hk), Bool.true_and]

/-! ### Spreading downwards -/

/-- `y` has every bit with one of `x` at most `n - 1` above it. -/
def Smeared (n : ℕ) (x y : BitVec w) : Prop :=
  ∀ i, y.getLsbD i = true ↔ ∃ d < n, x.getLsbD (i + d) = true

theorem smeared_one (x : BitVec w) : Smeared 1 x x := by
  intro i
  constructor
  · intro h
    exact ⟨0, Nat.one_pos, h⟩
  · rintro ⟨d, hd, h⟩
    obtain rfl := Nat.lt_one_iff.mp hd
    exact h

theorem Smeared.step {n : ℕ} {x y : BitVec w} (h : Smeared n x y) :
    Smeared (n + n) x (y ||| (y >>> n)) := by
  intro i
  rw [BitVec.getLsbD_or, BitVec.getLsbD_ushiftRight, Bool.or_eq_true, h i, h (n + i)]
  constructor
  · rintro (⟨d, hd, hx⟩ | ⟨d, hd, hx⟩)
    · exact ⟨d, by omega, hx⟩
    · refine ⟨n + d, by omega, ?_⟩
      rwa [← Nat.add_assoc, Nat.add_comm i n]
  · rintro ⟨d, hd, hx⟩
    rcases Nat.lt_or_ge d n with hlt | hge
    · exact Or.inl ⟨d, hlt, hx⟩
    · refine Or.inr ⟨d - n, by omega, ?_⟩
      have hsum : n + i + (d - n) = i + d := by omega
      rwa [hsum]

/-- Spread over its whole width, a word is the mask up to its highest bit. -/
theorem Smeared.getLsbD {x y : BitVec w} {k : ℕ} (h : Smeared w x y) (hset : x.getLsbD k = true)
    (hle : ∀ i, x.getLsbD i = true → i ≤ k) (i : ℕ) : y.getLsbD i = decide (i ≤ k) := by
  apply Bool.eq_iff_iff.mpr
  rw [h i, decide_eq_true_eq]
  constructor
  · rintro ⟨d, -, hx⟩
    have hbound := hle _ hx
    omega
  · intro hik
    have hk := BitVec.lt_of_getLsbD hset
    refine ⟨k - i, by omega, ?_⟩
    rwa [Nat.add_sub_cancel' hik]

end WordBits
