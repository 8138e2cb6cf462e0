import Oslec.Library.TwosComplement
import Mathlib.Tactic.Common

/-!
Packed integer instructions. A register is the list of its lanes, lowest lane
first; memory is a list of 16 bit words, and a load that reaches past its end
gives nothing. The lemmas follow the sum of a register's lanes modulo `2 ^ 32`,
which is all that survives until the lanes are folded together.
-/

namespace PackedLanes

open TwosComplement

/-- Load `w` words from the offset `off`. -/
def load (w : ℕ) (mem : List ℤ) (off : ℕ) : Option (List ℤ) :=
  if off + w ≤ mem.length then some ((mem.drop off).take w) else none

/-- Store one word at the offset `off`. -/
def store (mem : List ℤ) (off : ℕ) (a : ℤ) : Option (List ℤ) :=
  if off < mem.length then some (mem.set off a) else none

/-- Multiply 16 bit lanes and add the products in pairs. -/
def pmaddwd : List ℤ → List ℤ → List ℤ
  | a₀ :: a₁ :: as, b₀ :: b₁ :: bs => wrap 32 (a₀ * b₀ + a₁ * b₁) :: pmaddwd as bs
  | _, _ => []

/-- Add 32 bit lanes. -/
def paddd (a b : List ℤ) : List ℤ := List.zipWith (fun x y => wrap 32 (x + y)) a b

/-- Shift a register right by `k` lanes, zeros coming in at the top. -/
def psrl (k : ℕ) (a : List ℤ) : List ℤ := a.drop k ++ List.replicate (min k a.length) 0

theorem load_eq_some {w off : ℕ} {mem : List ℤ} (h : off + w ≤ mem.length) :
    load w mem off = some ((mem.drop off).take w) := if_pos h

theorem store_eq_some {off : ℕ} {mem : List ℤ} (h : off < mem.length) (a : ℤ) :
    store mem off a = some (mem.set off a) := if_pos h

@[simp] theorem length_paddd (a b : List ℤ) :
    (paddd a b).length = min a.length b.length := List.length_zipWith

theorem length_pmaddwd {k : ℕ} {a b : List ℤ} (ha : a.length = 2 * k) (hb : b.length = 2 * k) :
    (pmaddwd a b).length = k := by
  induction k generalizing a b with
  | zero =>
      obtain rfl := List.length_eq_zero_iff.mp ha
      rfl
  | succ k ih =>
      rcases a with _ | ⟨a₀, _ | ⟨a₁, as⟩⟩
      · simp at ha
      · simp at ha
        omega
      rcases b with _ | ⟨b₀, _ | ⟨b₁, bs⟩⟩
      · simp at hb
      · simp at hb
        omega
      simp only [List.length_cons] at ha hb
      rw [pmaddwd, List.length_cons, ih (by omega) (by omega)]

/-! ### Sums of lanes -/

/-- The products of two word vectors, added up. -/
def mac (a b : List ℤ) : ℤ := (List.zipWith (· * ·) a b).sum

theorem wrap_sum_paddd {a b : List ℤ} (h : a.length = b.length) :
    wrap 32 (paddd a b).sum = wrap 32 (a.sum + b.sum) := by
  induction a generalizing b with
  | nil =>
      obtain rfl := List.length_eq_zero_iff.mp h.symm
      rfl
  | cons x a ih =>
      cases b with
      | nil => cases h
      | cons y b =>
          have htail := ih (Nat.succ.inj h)
          have hcons : (paddd (x :: a) (y :: b)).sum = wrap 32 (x + y) + (paddd a b).sum := rfl
          calc wrap 32 (paddd (x :: a) (y :: b)).sum
              = wrap 32 (x + y + wrap 32 (paddd a b).sum) := by
                rw [hcons, wrap_add_wrap_left, wrap_add_wrap_right]
            _ = wrap 32 ((x :: a).sum + (y :: b).sum) := by
                rw [htail, wrap_add_wrap_right, List.sum_cons, List.sum_cons]
                congr 1
                ring

theorem wrap_sum_pmaddwd {k : ℕ} {a b : List ℤ} (ha : a.length = 2 * k)
    (hb : b.length = 2 * k) : wrap 32 (pmaddwd a b).sum = wrap 32 (mac a b) := by
  induction k generalizing a b with
  | zero =>
      obtain rfl := List.length_eq_zero_iff.mp ha
      rfl
  | succ k ih =>
      rcases a with _ | ⟨a₀, _ | ⟨a₁, as⟩⟩
      · simp at ha
      · simp at ha
        omega
      rcases b with _ | ⟨b₀, _ | ⟨b₁, bs⟩⟩
      · simp at hb
      · simp at hb
        omega
      simp only [List.length_cons] at ha hb
      have htail := ih (a := as) (b := bs) (by omega) (by omega)
      have hmac : mac (a₀ :: a₁ :: as) (b₀ :: b₁ :: bs) = a₀ * b₀ + a₁ * b₁ + mac as bs :=
        (add_assoc _ _ _).symm
      rw [pmaddwd, List.sum_cons, wrap_add_wrap_left, ← wrap_add_wrap_right, htail,
        wrap_add_wrap_right, hmac]

/-- A multiply-add into an accumulator adds the products to its lane sum. -/
theorem accumulate {k : ℕ} {acc a b : List ℤ} (hacc : acc.length = k) (ha : a.length = 2 * k)
    (hb : b.length = 2 * k) :
    (paddd acc (pmaddwd a b)).length = k ∧
      wrap 32 (paddd acc (pmaddwd a b)).sum = wrap 32 (acc.sum + mac a b) := by
  have hlen := length_pmaddwd ha hb
  refine ⟨by rw [length_paddd, hacc, hlen, Nat.min_self], ?_⟩
  rw [wrap_sum_paddd (hacc.trans hlen.symm), ← wrap_add_wrap_right, wrap_sum_pmaddwd ha hb,
    wrap_add_wrap_right]

theorem length_take_drop {w off : ℕ} {mem : List ℤ} (h : off + w ≤ mem.length) :
    ((mem.drop off).take w).length = w := by
  rw [List.length_take, List.length_drop, Nat.min_eq_left (by omega)]

/-- Consecutive stretches of two word vectors contribute their products one
after the other. -/
theorem mac_take_add (a b : List ℤ) (m n : ℕ) (ha : m ≤ a.length) (hb : m ≤ b.length) :
    mac (a.take (m + n)) (b.take (m + n)) =
      mac (a.take m) (b.take m) + mac ((a.drop m).take n) ((b.drop m).take n) := by
  unfold mac
  rw [List.take_add, List.take_add, List.zipWith_append, List.sum_append]
  rw [List.length_take, List.length_take, Nat.min_eq_left ha, Nat.min_eq_left hb]

end PackedLanes
