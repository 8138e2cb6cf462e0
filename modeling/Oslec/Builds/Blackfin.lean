import Oslec.Builds.Simd
import Oslec.Library.BlackfinMac
import Mathlib.Data.List.Infix

/-!
The filter of the Blackfin build. It keeps the history twice in a row like the
SIMD builds, and leaves the dot product to the inline assembly of `dot_asm`. Its
accumulator is wider than the sum of the other builds and does not wrap, so it
gives the same result only where neither is left.
-/

namespace Oslec

open TwosComplement PackedLanes BlackfinMac

/-- The first pair is fetched ahead of the loop, and the last one multiplied behind it. -/
def dotAsm (x y : List ℤ) (len : ℕ) : Option ℤ := do
  let r ← fetch x y ⟨0, 0, 0, 0, 0⟩
  let r ← hardwareLoop (accumulateFetch x y) (len - 1) r
  some (saturate 32 (accumulate r).a0)

def fir16Blackfin (fir : Fir16State) (coeffs : List ℤ) (sample : ℤ) :
    Option (Fir16State × ℤ) := do
  let pos := fir.currPos.toNat
  let history ← store fir.history pos sample
  let history ← store history (pos + fir.taps) sample
  let y ← dotAsm coeffs (history.drop pos) fir.taps
  some ({ fir with history := history, currPos := rollPos fir.taps fir.currPos },
    i16 (y >>> (15 : ℕ)))

/-- From two words on, `dot_asm` reads `len` of each vector, and returns their dot
product unless that or a partial sum does not fit. -/
theorem dotAsm_eq {x y : List ℤ} {len : ℕ} (hlen : 2 ≤ len) (hx : len ≤ x.length)
    (hy : len ≤ y.length) (hacc : Accumulates x y len)
    (hfits : Fits 32 (mac (x.take len) (y.take len))) :
    dotAsm x y len = some (mac (x.take len) (y.take len)) := by
  obtain ⟨k, rfl⟩ : ∃ k, len = k + 1 := ⟨len - 1, by omega⟩
  obtain ⟨r, hfetch, hr⟩ := fetch_pipelined (x := x) (y := y) (by omega) (by omega) 0 0
  obtain ⟨r', hloop, hr'⟩ := hr.passes hacc hx hy (m := k) (by omega)
  rw [Nat.zero_add] at hr'
  have hcount : max 1 (k + 1 - 1) = k := by omega
  rw [dotAsm, hfetch]
  change (hardwareLoop _ _ r).bind _ = _
  rw [hardwareLoop, hcount, hloop, Option.bind_some, hr'.accumulate hacc (Nat.lt_succ_self k),
    saturate_of_fits hfits]

/-- What a filter adds up, the last tap first, leaves neither the accumulator of
`dot_asm`, which begins with the first one, nor its result. -/
def AccumulatorFits (products : List ℤ) : Prop :=
  (∀ l ∈ products.tails, Fits 40 l.sum) ∧ Fits 32 products.sum

instance (products : List ℤ) : Decidable (AccumulatorFits products) :=
  inferInstanceAs (Decidable (_ ∧ _))

theorem AccumulatorFits.accumulates {x y : List ℤ} {n : ℕ}
    (h : AccumulatorFits (List.zipWith (· * ·) x y).reverse) : Accumulates x y n := by
  intro k _
  have hsuffix : ((List.zipWith (· * ·) x y).take k).reverse <:+
      (List.zipWith (· * ·) x y).reverse := List.reverse_suffix.mpr (List.take_prefix k _)
  have hfits := h.1 _ ((List.mem_tails _ _).mpr hsuffix)
  rwa [List.sum_reverse, List.take_zipWith] at hfits

theorem fir16Blackfin_spec {n : ℕ} {r : RingBuffer ℤ n} (hn : 2 ≤ n) {fir : Fir16State}
    (h : fir.HoldsTwice r) {coeffs : List ℤ} (hc : coeffs.length = n) {sample : ℤ}
    (hfits : AccumulatorFits (List.zipWith (· * ·) coeffs (r.push sample).window).reverse) :
    ∃ fir', fir16Blackfin fir coeffs sample =
        some (fir', i16 (i32 (dot n coeffs (r.push sample).window) >>> (15 : ℕ))) ∧
      fir'.HoldsTwice (r.push sample) := by
  have hpos := r.pos_lt
  have hcells := r.length_cells
  have hset : (r.cells.set r.pos sample).length = n := by rw [List.length_set, hcells]
  have hfirst : r.pos < (r.cells ++ r.cells).length := by
    rw [List.length_append]
    omega
  have hsecond : r.pos + n < ((r.cells ++ r.cells).set r.pos sample).length := by
    rw [List.length_set, List.length_append]
    omega
  have hmirror := RingBuffer.set_set_mirror (p := r.pos) r.cells (by omega) sample
  have hread := RingBuffer.take_drop_mirror (l := r.cells.set r.pos sample) (p := r.pos) (by omega)
  rw [hcells] at hmirror
  rw [hset, ← RingBuffer.window_push_eq_rotate] at hread
  have hlength : (r.push sample).window.length = n := RingBuffer.length_window _
  have hmac : mac (coeffs.take n)
      (((r.cells.set r.pos sample ++ r.cells.set r.pos sample).drop r.pos).take n) =
        dot n coeffs (r.push sample).window := by
    rw [hread, List.take_of_length_le hc.le, ← dot_eq_mac hc hlength]
  have hacc : Accumulates coeffs
      ((r.cells.set r.pos sample ++ r.cells.set r.pos sample).drop r.pos) n := by
    intro k hk
    have hpartial := hfits.accumulates (n := n) k hk
    rwa [← hread, List.take_take, Nat.min_eq_left hk] at hpartial
  have hsum : Fits 32 (dot n coeffs (r.push sample).window) := by
    rw [dot_eq_mac hc hlength]
    have htotal := hfits.2
    rwa [List.sum_reverse] at htotal
  have hdot := dotAsm_eq hn hc.ge
    (y := (r.cells.set r.pos sample ++ r.cells.set r.pos sample).drop r.pos)
    (by rw [List.length_drop, List.length_append]; omega) hacc (by rwa [hmac])
  rw [hmac] at hdot
  refine ⟨⟨n, RingBuffer.retreat n r.pos, r.cells.set r.pos sample ++ r.cells.set r.pos sample⟩,
    ?_, ⟨rfl, rfl, rfl⟩⟩
  simp only [fir16Blackfin, h.taps, h.currPos, h.history, Int.toNat_natCast, store_eq_some hfirst,
    store_eq_some hsecond, hmirror, hdot, rollPos_eq_retreat hpos, Option.bind_eq_bind,
    Option.bind_some, i32_eq_self_iff.mpr hsum]

end Oslec
