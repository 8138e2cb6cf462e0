import Oslec.Library.RingBuffer
import Oslec.Library.TwosComplement
import Mathlib.Algebra.BigOperators.Fin
import Mathlib.Tactic.Linarith

/-!
The 16 bit FIR filter of `fir.h` in its plain C build, the adaption loop
`lms_adapt_bg` of `echo.c`, and the portable `top_bit`. C integers are `ℤ`
with an explicit wrap where a value is stored, shifted right or compared and
its operands do not already exclude overflow.
-/

namespace Oslec

open TwosComplement

/-- A value stored in an `int16_t`. -/
abbrev i16 (x : ℤ) : ℤ := wrap 16 x

/-- A value stored in an `int` or `int32_t`. -/
abbrev i32 (x : ℤ) : ℤ := wrap 32 x

theorem i16_eq_self_iff {x : ℤ} : i16 x = x ↔ Fits 16 x := wrap_eq_self_iff (Nat.succ_pos 15)

theorem i32_eq_self_iff {x : ℤ} : i32 x = x ↔ Fits 32 x := wrap_eq_self_iff (Nat.succ_pos 31)

theorem i16_of_bounds {x : ℤ} (hlo : -32768 ≤ x) (hhi : x ≤ 32767) : i16 x = x :=
  i16_eq_self_iff.mpr ⟨by simpa using hlo, by norm_num; omega⟩

theorem i32_of_bounds {x : ℤ} (hlo : -2147483648 ≤ x) (hhi : x ≤ 2147483647) : i32 x = x :=
  i32_eq_self_iff.mpr ⟨by simpa using hlo, by norm_num; omega⟩

theorem i16_eq_add_mul (x : ℤ) : ∃ k, i16 x = x + 65536 * k := by
  obtain ⟨k, hk⟩ := dvd_sub_wrap 16 x
  norm_num at hk
  exact ⟨-k, by linarith⟩

theorem i16_bounds (x : ℤ) : -32768 ≤ i16 x ∧ i16 x ≤ 32767 := by
  obtain ⟨hlo, hhi⟩ := wrap_fits (Nat.succ_pos 15) x
  norm_num at hlo hhi
  exact ⟨hlo, Int.le_of_lt_add_one hhi⟩

/-! ### The portable bit scan -/

/-- One stage of the mask search: keep the masked half when it is not empty. -/
def scanStage (mask : BitVec 32) (k : ℤ) (s : BitVec 32 × ℤ) : BitVec 32 × ℤ :=
  if s.1 &&& mask ≠ 0#32 then (s.1 &&& mask, s.2 + k) else s

/-- `top_bit` where no assembler version is selected. -/
def topBit (bits : BitVec 32) : ℤ :=
  if bits = 0#32 then -1
  else
    let s := scanStage 0xFFFF0000#32 16 (bits, 0)
    let s := scanStage 0xFF00FF00#32 8 s
    let s := scanStage 0xF0F0F0F0#32 4 s
    let s := scanStage 0xCCCCCCCC#32 2 s
    let s := scanStage 0xAAAAAAAA#32 1 s
    s.2

theorem scanStage_nonneg (mask : BitVec 32) {k : ℤ} (hk : 0 ≤ k) {s : BitVec 32 × ℤ}
    (hs : 0 ≤ s.2) : 0 ≤ (scanStage mask k s).2 := by
  simp only [scanStage]
  split
  · exact add_nonneg hs hk
  · exact hs

theorem neg_one_le_topBit (bits : BitVec 32) : -1 ≤ topBit bits := by
  simp only [topBit]
  split
  · exact le_refl (-1)
  · have hscan : 0 ≤ (scanStage 0xAAAAAAAA#32 1 (scanStage 0xCCCCCCCC#32 2
        (scanStage 0xF0F0F0F0#32 4 (scanStage 0xFF00FF00#32 8
          (scanStage 0xFFFF0000#32 16 (bits, 0)))))).2 := by
      iterate 5 apply scanStage_nonneg _ (by norm_num)
      exact le_refl 0
    omega

/-! ### The ring of filter states -/

/-- `fir16_state_t` without the `coeffs` pointer, which only ever names one of
the two tap arrays and is passed to `fir16` as an argument. -/
structure Fir16State where
  taps : ℕ
  currPos : ℤ
  history : List ℤ
deriving DecidableEq

def fir16Create (taps : ℕ) : Fir16State where
  taps := taps
  currPos := taps - 1
  history := List.replicate taps 0

/-- `fir16_flush` clears the history and leaves the position alone. -/
def fir16Flush (fir : Fir16State) : Fir16State :=
  { fir with history := List.replicate fir.taps 0 }

/-- `if (curr_pos <= 0) curr_pos = taps; curr_pos--;` -/
def rollPos (taps : ℕ) (currPos : ℤ) : ℤ := (if currPos ≤ 0 then (taps : ℤ) else currPos) - 1

/-- The values `start, start - 1, …, stop` of a descending `for` loop. -/
def countdown (start stop : ℤ) : List ℤ :=
  (List.range (start + 1 - stop).toNat).map fun k : ℕ => start - k

/-- The pairs (tap index, history index) that the two-part loop of `fir16` and
`lms_adapt_bg` visits, in order. -/
def ringIndices (taps : ℕ) (currPos : ℤ) : List (ℤ × ℤ) :=
  let offset2 := currPos
  let offset1 := taps - offset2
  (countdown (taps - 1) offset1).map (fun i => (i, i - offset1)) ++
    (countdown (min (taps - 1) (offset1 - 1)) 0).map (fun i => (i, i + offset2))

/-- The multiply-accumulate loop: a 32 bit accumulator that wraps. -/
def macLoop (coeffs history : List ℤ) (ix : List (ℤ × ℤ)) : ℤ :=
  ix.foldl (fun y p => i32 (y + coeffs.getD p.1.toNat 0 * history.getD p.2.toNat 0)) 0

def fir16 (fir : Fir16State) (coeffs : List ℤ) (sample : ℤ) : Fir16State × ℤ :=
  let history := fir.history.set fir.currPos.toNat sample
  let y := macLoop coeffs history (ringIndices fir.taps fir.currPos)
  ({ fir with history := history, currPos := rollPos fir.taps fir.currPos }, i16 (y >>> (15 : ℕ)))

/-! ### The adaption loop -/

/-- `factor` of `lms_adapt_bg`. -/
def lmsFactor (clean shift : ℤ) : ℤ :=
  if 0 < shift then i32 (clean <<< shift.toNat) else clean >>> (-shift).toNat

/-- `(int16_t) ((exp + (1 << 14)) >> 15)` with `exp = history * factor`. -/
def lmsIncrement (factor h : ℤ) : ℤ :=
  i16 (i32 (i32 (h * factor) + (1 : ℤ) <<< (14 : ℕ)) >>> (15 : ℕ))

/-- The generic body of `lms_adapt_bg`, updating the taps in place. -/
def lmsAdaptBg (taps : ℕ) (currPos : ℤ) (history firTaps : List ℤ) (clean shift : ℤ) :
    List ℤ :=
  let factor := lmsFactor clean shift
  (ringIndices taps currPos).foldl
    (fun t p => t.modify p.1.toNat fun tap =>
      i16 (tap + lmsIncrement factor (history.getD p.2.toNat 0)))
    firTaps

/-! ### What the loops visit -/

/-- From a position inside the ring, the two-part loop counts the taps down
and pairs tap `i` with the cell `i` places above the position. -/
theorem ringIndices_eq {n p : ℕ} (hp : p < n) :
    ringIndices n p =
      (List.range n).reverse.map fun i : ℕ => ((i : ℤ), (((i + p) % n : ℕ) : ℤ)) := by
  have hfirst : ((n : ℤ) - 1 + 1 - (n - p)).toNat = p := by omega
  have hsecond : (min ((n : ℤ) - 1) (n - p - 1) + 1 - 0).toNat = n - p := by omega
  refine List.ext_getElem ?_ fun k hk hk' => ?_
  · simp only [ringIndices, countdown, List.length_append, List.length_map, List.length_range,
      List.length_reverse, hfirst, hsecond]
    omega
  · simp only [List.length_map, List.length_reverse, List.length_range] at hk'
    simp only [List.getElem_map, List.getElem_reverse, List.getElem_range, List.length_range]
    by_cases hkp : k < p
    · -- the first loop wraps: `i + p` runs past the end of the history
      have hmod : (n - 1 - k + p) % n = p - 1 - k := by
        rw [Nat.mod_eq_sub_mod (by omega), Nat.mod_eq_of_lt (by omega)]
        omega
      rw [hmod]
      simp only [ringIndices, countdown, List.map_map]
      rw [List.getElem_append_left (by simpa [hfirst] using hkp)]
      simp only [List.getElem_map, List.getElem_range, Function.comp_apply, Prod.mk.injEq]
      omega
    · have hmod : (n - 1 - k + p) % n = n - 1 - k + p := Nat.mod_eq_of_lt (by omega)
      rw [hmod]
      simp only [ringIndices, countdown, List.map_map]
      rw [List.getElem_append_right (by simpa [hfirst] using hkp)]
      simp only [List.getElem_map, List.getElem_range, Function.comp_apply, Prod.mk.injEq,
        List.length_map, List.length_range, hfirst]
      omega

theorem rollPos_eq_retreat {n p : ℕ} (hp : p < n) : rollPos n p = RingBuffer.retreat n p := by
  simp only [rollPos, RingBuffer.retreat]
  split <;> split <;> omega

/-- A filter state whose position and history are those of a ring. -/
structure Fir16State.Holds {n : ℕ} (fir : Fir16State) (r : RingBuffer ℤ n) : Prop where
  taps : fir.taps = n
  currPos : fir.currPos = r.pos
  history : fir.history = r.cells

theorem fir16Create_holds {n : ℕ} (hn : 0 < n) :
    (fir16Create n).Holds (RingBuffer.fill (0 : ℤ) (Nat.sub_lt hn Nat.one_pos)) where
  taps := rfl
  currPos := by simp only [fir16Create, RingBuffer.fill]; omega
  history := rfl

/-- The dot product of a coefficient vector with a shift register. -/
def dot (n : ℕ) (coeffs reg : List ℤ) : ℤ :=
  ∑ i ∈ Finset.range n, coeffs.getD i 0 * reg.getD i 0

theorem dot_eq_list_sum (n : ℕ) (coeffs reg : List ℤ) :
    dot n coeffs reg =
      ((List.range n).map fun i => coeffs.getD i 0 * reg.getD i 0).sum := rfl

/-- The products that the loop adds up, in its order. -/
def macTerms (coeffs history : List ℤ) (ix : List (ℤ × ℤ)) : List ℤ :=
  ix.map fun p => coeffs.getD p.1.toNat 0 * history.getD p.2.toNat 0

theorem macLoop_eq_sum (coeffs history : List ℤ) (ix : List (ℤ × ℤ)) :
    macLoop coeffs history ix = i32 (macTerms coeffs history ix).sum :=
  foldl_wrap_add_zero 32 _ ix

/-- Over the ring the loop multiplies tap `i` with register entry `i`, the
oldest entry first. -/
theorem macTerms_ring {n : ℕ} (r : RingBuffer ℤ n) (coeffs : List ℤ) (sample : ℤ) :
    macTerms coeffs (r.cells.set r.pos sample) (ringIndices n r.pos) =
      (List.range n).reverse.map fun i =>
        coeffs.getD i 0 * (r.push sample).window.getD i 0 := by
  have hread : ∀ i ∈ List.range n,
      (r.cells.set r.pos sample).getD ((i + r.pos) % n) 0 = (r.push sample).window.getD i 0 := by
    intro i hi
    rw [List.getD_eq_getElem?_getD, List.getD_eq_getElem?_getD,
      r.getElem?_window_push sample (List.mem_range.mp hi)]
  rw [macTerms, ringIndices_eq r.pos_lt, List.map_map]
  apply List.map_congr_left
  intro i hi
  simp only [Function.comp_apply, Int.toNat_natCast]
  rw [hread i (List.mem_reverse.mp hi)]

theorem macLoop_eq_dot {n : ℕ} (r : RingBuffer ℤ n) (coeffs : List ℤ) (sample : ℤ) :
    macLoop coeffs (r.cells.set r.pos sample) (ringIndices n r.pos) =
      i32 (dot n coeffs (r.push sample).window) := by
  rw [macLoop_eq_sum, macTerms_ring, List.map_reverse, List.sum_reverse, dot_eq_list_sum]

/-- `fir16` pushes the sample and returns the dot product of the coefficients
with the shift register, taken modulo `2 ^ 32` before the shift. -/
theorem fir16_spec {n : ℕ} {fir : Fir16State} {r : RingBuffer ℤ n} (h : fir.Holds r)
    (coeffs : List ℤ) (sample : ℤ) :
    (fir16 fir coeffs sample).1.Holds (r.push sample) ∧
      (fir16 fir coeffs sample).2 =
        i16 (i32 (dot n coeffs (r.push sample).window) >>> (15 : ℕ)) := by
  obtain ⟨htaps, hpos, hhist⟩ := h
  have hroll := rollPos_eq_retreat r.pos_lt
  refine ⟨⟨htaps, ?_, ?_⟩, ?_⟩
  · simp only [fir16, htaps, hpos, hroll, RingBuffer.push]
  · simp only [fir16, hpos, hhist, RingBuffer.push, Int.toNat_natCast]
  · simp only [fir16, htaps, hpos, hhist, Int.toNat_natCast]
    rw [macLoop_eq_dot]

/-- `lms_adapt_bg` adds to tap `i` the increment of register entry `i`. -/
theorem lmsAdaptBg_eq {n : ℕ} (r : RingBuffer ℤ n) (sample : ℤ) {firTaps : List ℤ}
    (hlen : firTaps.length = n) (clean shift : ℤ) :
    lmsAdaptBg n r.pos (r.push sample).cells firTaps clean shift =
      firTaps.mapIdx fun i tap =>
        i16 (tap + lmsIncrement (lmsFactor clean shift) ((r.push sample).window.getD i 0)) := by
  have hread : ∀ i < n, (r.push sample).cells.getD ((i + r.pos) % n) 0 =
      (r.push sample).window.getD i 0 := by
    intro i hi
    rw [List.getD_eq_getElem?_getD, List.getD_eq_getElem?_getD,
      r.getElem?_window_push sample hi]
    rfl
  -- the loop visits every tap once, so the order of the visits does not matter
  rw [lmsAdaptBg, ringIndices_eq r.pos_lt, List.foldl_map]
  simp only [Int.toNat_natCast]
  have hvisit : (List.range n).reverse.foldl (fun t i => t.modify i fun tap =>
        i16 (tap + lmsIncrement (lmsFactor clean shift)
          ((r.push sample).cells.getD ((i + r.pos) % n) 0))) firTaps =
      (List.range n).reverse.foldl (fun t i => t.modify i fun tap =>
        i16 (tap + lmsIncrement (lmsFactor clean shift)
          ((r.push sample).window.getD i 0))) firTaps := by
    apply List.foldl_ext _ _ _
    intro t i hi
    rw [hread i (by simpa using hi)]
  rw [hvisit]
  exact List.foldl_modify_eq_mapIdx (fun i tap => i16 (tap + lmsIncrement
    (lmsFactor clean shift) ((r.push sample).window.getD i 0)))
    (List.nodup_reverse.mpr List.nodup_range) (fun i hi => by simpa [hlen] using hi)

end Oslec
