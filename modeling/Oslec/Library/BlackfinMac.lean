import Oslec.Library.PackedLanes

/-!
The multiply and accumulate unit of the Blackfin, as a loop over two word vectors
uses it. Instructions that are issued together read their operands before any of
them writes, so a loop can multiply one pair of words while it fetches the next.
The accumulator has 40 bits and saturates, and so does its move to a register of
32 bits: where no partial sum leaves the one and the sum does not leave the
other, the result is exact.
-/

namespace BlackfinMac

open TwosComplement PackedLanes

/-- The address registers, the low halves of the data registers, and the accumulator. -/
structure Regs where
  i0 : ℕ
  i1 : ℕ
  r0 : ℤ
  r1 : ℤ
  a0 : ℤ

def saturate (w : ℕ) (x : ℤ) : ℤ := max (-2 ^ (w - 1)) (min x (2 ^ (w - 1) - 1))

/-- `R0.L = W[I0++] || R1.L = W[I1++]`: a load past the end of a vector gives nothing. -/
def fetch (x y : List ℤ) (r : Regs) : Option Regs :=
  x[r.i0]?.bind fun a => y[r.i1]?.map fun b =>
    { r with i0 := r.i0 + 1, i1 := r.i1 + 1, r0 := a, r1 := b }

/-- `A0 += R0.L * R1.L (IS)`. -/
def accumulate (r : Regs) : Regs := { r with a0 := saturate 40 (r.a0 + r.r0 * r.r1) }

/-- Both at once. -/
def accumulateFetch (x y : List ℤ) (r : Regs) : Option Regs := fetch x y (accumulate r)

def passes (body : Regs → Option Regs) : ℕ → Regs → Option Regs
  | 0, r => some r
  | k + 1, r => (body r).bind (passes body k)

/-- A hardware loop; with a count of zero it is disabled, and its body is passed once. -/
def hardwareLoop (body : Regs → Option Regs) (count : ℕ) : Regs → Option Regs :=
  passes body (max 1 count)

/-! ### The dot product -/

theorem saturate_of_fits {w : ℕ} {x : ℤ} (h : Fits w x) : saturate w x = x := by
  obtain ⟨hlo, hhi⟩ := h
  rw [saturate, min_eq_left (by omega), max_eq_right hlo]

theorem mac_take_succ {x y : List ℤ} {k : ℕ} {a b : ℤ} (ha : x[k]? = some a)
    (hb : y[k]? = some b) :
    mac (x.take (k + 1)) (y.take (k + 1)) = mac (x.take k) (y.take k) + a * b := by
  have hx : k < x.length := List.getElem?_eq_some_iff.mp ha |>.1
  have hy : k < y.length := List.getElem?_eq_some_iff.mp hb |>.1
  have hmac : mac [a] [b] = a * b := by simp [mac]
  rw [List.take_add_one, List.take_add_one, ha, hb, ← hmac, mac, mac, mac, Option.toList_some,
    Option.toList_some, List.zipWith_append (by simp [hx.le, hy.le]), List.sum_append]

/-- No partial sum of the first `n` products leaves the accumulator. -/
def Accumulates (x y : List ℤ) (n : ℕ) : Prop :=
  ∀ k ≤ n, Fits 40 (mac (x.take k) (y.take k))

/-- The first `k` products have been added up, and the next pair has been fetched. -/
structure Pipelined (x y : List ℤ) (k : ℕ) (r : Regs) : Prop where
  i0 : r.i0 = k + 1
  i1 : r.i1 = k + 1
  r0 : x[k]? = some r.r0
  r1 : y[k]? = some r.r1
  a0 : r.a0 = mac (x.take k) (y.take k)

variable {x y : List ℤ} {n k : ℕ}

theorem Pipelined.accumulate {r : Regs} (h : Pipelined x y k r) (hfits : Accumulates x y n)
    (hk : k < n) : (accumulate r).a0 = mac (x.take (k + 1)) (y.take (k + 1)) := by
  have hsum := mac_take_succ h.r0 h.r1
  rw [BlackfinMac.accumulate]
  dsimp only
  rw [h.a0, ← hsum, saturate_of_fits (hfits (k + 1) hk)]

/-- A pass of the loop moves the pipeline on by one product. -/
theorem Pipelined.pass {r : Regs} (h : Pipelined x y k r) (hfits : Accumulates x y n)
    (hk : k + 1 < n) (hx : n ≤ x.length) (hy : n ≤ y.length) :
    ∃ r', accumulateFetch x y r = some r' ∧ Pipelined x y (k + 1) r' := by
  have hx' : x[k + 1]? = some x[k + 1] := List.getElem?_eq_getElem (by omega)
  have hy' : y[k + 1]? = some y[k + 1] := List.getElem?_eq_getElem (by omega)
  have hsum := h.accumulate hfits (by omega)
  refine ⟨⟨k + 2, k + 2, x[k + 1], y[k + 1], (BlackfinMac.accumulate r).a0⟩, ?_,
    ⟨rfl, rfl, hx', hy', hsum⟩⟩
  simp only [accumulateFetch, fetch, BlackfinMac.accumulate, h.i0, h.i1, hx', hy',
    Option.bind_some, Option.map_some]

theorem Pipelined.passes {r : Regs} (h : Pipelined x y k r) (hfits : Accumulates x y n)
    (hx : n ≤ x.length) (hy : n ≤ y.length) {m : ℕ} (hm : k + m < n) :
    ∃ r', passes (accumulateFetch x y) m r = some r' ∧ Pipelined x y (k + m) r' := by
  induction m generalizing k r with
  | zero => exact ⟨r, rfl, h⟩
  | succ m ih =>
      obtain ⟨r₁, hpass, h₁⟩ := h.pass hfits (by omega) hx hy
      obtain ⟨r', hrest, h'⟩ := ih h₁ (by omega)
      refine ⟨r', ?_, by rwa [Nat.add_right_comm] at h'⟩
      rw [BlackfinMac.passes, hpass, Option.bind_some, hrest]

theorem fetch_pipelined (hx : 0 < x.length) (hy : 0 < y.length) (r0 r1 : ℤ) :
    ∃ r, fetch x y ⟨0, 0, r0, r1, 0⟩ = some r ∧ Pipelined x y 0 r := by
  have hx' : x[0]? = some x[0] := List.getElem?_eq_getElem hx
  have hy' : y[0]? = some y[0] := List.getElem?_eq_getElem hy
  refine ⟨⟨1, 1, x[0], y[0], 0⟩, ?_, ⟨rfl, rfl, hx', hy', rfl⟩⟩
  simp only [fetch, hx', hy', Option.bind_some, Option.map_some]

end BlackfinMac
