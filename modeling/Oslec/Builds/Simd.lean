import Oslec.Canceller.Fir16
import Oslec.Library.Mealy
import Oslec.Library.PackedLanes

/-!
The optimised builds of the filter and of the adaption loop. The `USE_MMX`,
`USE_SSE2` and Blackfin builds keep the history twice in a row, so that the
filter reads it from the position on without wrapping; the first two also add
the products in the lanes of a register and fold the lanes at the end. Every
access to the history or the coefficients that would leave its array makes the
filter give nothing.
-/

namespace Oslec

open TwosComplement PackedLanes

inductive SimdBuild
  | mmx
  | sse2
deriving DecidableEq

/-- The 32 bit lanes of a register. -/
def SimdBuild.lanes : SimdBuild → ℕ
  | .mmx => 2
  | .sse2 => 4

/-- The lane shifts of the final fold, in order. -/
def SimdBuild.folds : SimdBuild → List ℕ
  | .mmx => [1]
  | .sse2 => [2, 1]

/-- The samples of one register. -/
def SimdBuild.words (b : SimdBuild) : ℕ := 2 * b.lanes

/-- The samples of one iteration, which loads two registers of each array. -/
def SimdBuild.block (b : SimdBuild) : ℕ := 2 * b.words

/-- `fir16_create` and `fir16_flush` where the history is kept twice. -/
def fir16CreateDouble (taps : ℕ) : Fir16State where
  taps := taps
  currPos := taps - 1
  history := List.replicate (2 * taps) 0

def fir16FlushDouble (fir : Fir16State) : Fir16State :=
  { fir with history := List.replicate (2 * fir.taps) 0 }

/-- The iterations of the loop, with the offsets of the two pointers. -/
def simdLoop (b : SimdBuild) (coeffs history : List ℤ) :
    ℕ → ℕ → ℕ → List ℤ → Option (List ℤ)
  | 0, _, _, acc => some acc
  | k + 1, c, h, acc => do
      let mm0 ← load b.words coeffs c
      let mm2 ← load b.words coeffs (c + b.words)
      let mm1 ← load b.words history h
      let mm3 ← load b.words history (h + b.words)
      let acc := paddd acc (pmaddwd mm0 mm1)
      let acc := paddd acc (pmaddwd mm2 mm3)
      simdLoop b coeffs history k (c + b.block) (h + b.block) acc

/-- Fold the lanes together and take the lowest. -/
def foldLanes (b : SimdBuild) (acc : List ℤ) : ℤ :=
  (b.folds.foldl (fun acc k => paddd acc (psrl k acc)) acc).getD 0 0

/-- `fir16` of the MMX and SSE2 builds. The loop runs while `i > 0`, with `i`
counting the taps down by a block: once for every block begun. -/
def fir16Simd (b : SimdBuild) (fir : Fir16State) (coeffs : List ℤ) (sample : ℤ) :
    Option (Fir16State × ℤ) := do
  let pos := fir.currPos.toNat
  let history ← store fir.history pos sample
  let history ← store history (pos + fir.taps) sample
  let acc ← simdLoop b coeffs history ((fir.taps + b.block - 1) / b.block) 0 pos
    (List.replicate b.lanes 0)
  let y := foldLanes b acc
  some ({ fir with history := history, currPos := rollPos fir.taps fir.currPos },
    i16 (y >>> (15 : ℕ)))

/-- The Blackfin body of `lms_adapt_bg`: one pointer runs up the history from
the position on. -/
def lmsAdaptBgLinear (taps : ℕ) (currPos : ℤ) (history firTaps : List ℤ) (clean shift : ℤ) :
    List ℤ :=
  let factor := lmsFactor clean shift
  (List.range taps).foldl
    (fun t i => t.modify i fun tap =>
      i16 (tap + lmsIncrement factor (history.getD (currPos + i).toNat 0)))
    firTaps

/-! ### The loop -/

theorem simdLoop_spec (b : SimdBuild) (coeffs history : List ℤ) (k : ℕ) {c h : ℕ} {acc : List ℤ}
    (hc : c + b.block * k ≤ coeffs.length) (hh : h + b.block * k ≤ history.length)
    (hacc : acc.length = b.lanes) :
    ∃ acc', simdLoop b coeffs history k c h acc = some acc' ∧ acc'.length = b.lanes ∧
      wrap 32 acc'.sum = wrap 32 (acc.sum +
        mac ((coeffs.drop c).take (b.block * k)) ((history.drop h).take (b.block * k))) := by
  induction k generalizing c h acc with
  | zero => exact ⟨acc, rfl, hacc, by simp [mac]⟩
  | succ k ih =>
      have hblock : b.block * (k + 1) = b.words + (b.words + b.block * k) := by
        rw [Nat.mul_succ, SimdBuild.block]
        ring
      rw [hblock] at hc hh ⊢
      -- the two registers of either array
      have hc₀ : c + b.words ≤ coeffs.length := by omega
      have hc₁ : c + b.words + b.words ≤ coeffs.length := by omega
      have hh₀ : h + b.words ≤ history.length := by omega
      have hh₁ : h + b.words + b.words ≤ history.length := by omega
      have hw : b.words = 2 * b.lanes := rfl
      have hstep : b.block = b.words + b.words := two_mul _
      obtain ⟨hlen₀, hsum₀⟩ := accumulate hacc ((length_take_drop hc₀).trans hw)
        ((length_take_drop hh₀).trans hw)
      obtain ⟨hlen₁, hsum₁⟩ := accumulate hlen₀ ((length_take_drop hc₁).trans hw)
        ((length_take_drop hh₁).trans hw)
      obtain ⟨acc', hloop, hlen', hsum'⟩ :=
        ih (c := c + b.block) (h := h + b.block) (by omega) (by omega) hlen₁
      refine ⟨acc', ?_, hlen', ?_⟩
      · simp only [simdLoop, load_eq_some hc₀, load_eq_some hc₁, load_eq_some hh₀,
          load_eq_some hh₁, Option.bind_eq_bind, Option.bind_some]
        exact hloop
      · rw [mac_take_add _ _ _ _ (by rw [List.length_drop]; omega)
            (by rw [List.length_drop]; omega), List.drop_drop, List.drop_drop,
          mac_take_add _ _ _ _ (by rw [List.length_drop]; omega)
            (by rw [List.length_drop]; omega), List.drop_drop, List.drop_drop]
        rw [hsum', ← wrap_add_wrap_left, hsum₁, wrap_add_wrap_left, add_assoc,
          ← wrap_add_wrap_left, hsum₀, wrap_add_wrap_left, add_assoc, hstep, ← Nat.add_assoc,
          ← Nat.add_assoc]

theorem foldLanes_eq {b : SimdBuild} {acc : List ℤ} (hacc : acc.length = b.lanes) :
    foldLanes b acc = i32 acc.sum := by
  cases b with
  | mmx =>
      obtain ⟨l₀, l₁, rfl⟩ := List.length_eq_two.mp hacc
      show wrap 32 (l₀ + l₁) = wrap 32 (l₀ + (l₁ + 0))
      rw [add_zero]
  | sse2 =>
      rcases acc with _ | ⟨l₀, _ | ⟨l₁, _ | ⟨l₂, _ | ⟨l₃, _ | ⟨l₄, ls⟩⟩⟩⟩⟩ <;>
        simp only [List.length_cons, List.length_nil, SimdBuild.lanes] at hacc
      case cons.cons.cons.cons.nil =>
        show wrap 32 (wrap 32 (l₀ + l₂) + wrap 32 (l₁ + l₃)) =
          wrap 32 (l₀ + (l₁ + (l₂ + (l₃ + 0))))
        rw [wrap_add_wrap_left, wrap_add_wrap_right]
        congr 1
        ring
      all_goals omega

theorem map_range_mul {n : ℕ} {coeffs reg : List ℤ} (hc : coeffs.length = n)
    (hr : reg.length = n) :
    ((List.range n).map fun i => coeffs.getD i 0 * reg.getD i 0) =
      List.zipWith (· * ·) coeffs reg := by
  apply List.ext_getElem (by simp [hc, hr])
  intro i hi hi'
  have hin : i < n := by simpa using hi
  rw [List.getElem_map, List.getElem_range, List.getElem_zipWith]
  simp [List.getD_eq_getElem?_getD, hc, hr, hin]

theorem dot_eq_mac {n : ℕ} {coeffs reg : List ℤ} (hc : coeffs.length = n) (hr : reg.length = n) :
    dot n coeffs reg = mac coeffs reg := by
  rw [dot_eq_list_sum, map_range_mul hc hr, mac]

/-! ### The doubled history -/

/-- A history of `2 * n` entries whose halves are equal. -/
structure Doubled (n : ℕ) (history : List ℤ) : Prop where
  length : history.length = 2 * n
  mirror : ∀ p < n, history[p]? = history[p + n]?

theorem doubled_append {n : ℕ} {cells : List ℤ} (h : cells.length = n) :
    Doubled n (cells ++ cells) := by
  refine ⟨by rw [List.length_append, h, two_mul], fun p hp => ?_⟩
  rw [List.getElem?_append_left (by omega), List.getElem?_append_right (by omega), h,
    Nat.add_sub_cancel]

theorem Doubled.eq_append {n : ℕ} {history : List ℤ} (h : Doubled n history) :
    ∃ cells : List ℤ, cells.length = n ∧ history = cells ++ cells := by
  have hlen := h.length
  refine ⟨history.take n, by rw [List.length_take]; omega, ?_⟩
  have hdrop : history.drop n = history.take n := by
    ext p : 1
    by_cases hp : p < n
    · rw [List.getElem?_drop, List.getElem?_take, if_pos hp, h.mirror p hp, Nat.add_comm]
    · rw [List.getElem?_eq_none (by rw [List.length_drop]; omega),
        List.getElem?_eq_none (by rw [List.length_take]; omega)]
  rw [← hdrop]
  conv_lhs => rw [← List.take_append_drop n history, hdrop]
  rw [hdrop]

/-- A filter state that keeps the cells of a ring twice. -/
structure Fir16State.HoldsTwice {n : ℕ} (fir : Fir16State) (r : RingBuffer ℤ n) : Prop where
  taps : fir.taps = n
  currPos : fir.currPos = r.pos
  history : fir.history = r.cells ++ r.cells

theorem fir16CreateDouble_holdsTwice {n : ℕ} (hn : 0 < n) :
    (fir16CreateDouble n).HoldsTwice (RingBuffer.fill (0 : ℤ) (Nat.sub_lt hn Nat.one_pos)) where
  taps := rfl
  currPos := (fir16Create_holds hn).currPos
  history := by
    show List.replicate (2 * n) (0 : ℤ) = List.replicate n 0 ++ List.replicate n 0
    rw [List.replicate_append_replicate, two_mul]

theorem SimdBuild.blocks_eq {b : SimdBuild} {n : ℕ} (h : b.block ∣ n) :
    b.block * ((n + b.block - 1) / b.block) = n := by
  obtain ⟨k, rfl⟩ := h
  cases b with
  | mmx =>
      show 8 * ((8 * k + 8 - 1) / 8) = 8 * k
      omega
  | sse2 =>
      show 16 * ((16 * k + 16 - 1) / 16) = 16 * k
      omega

/-- The SIMD filter stays inside its arrays, pushes the sample into both halves
and returns the same dot product as the plain one. -/
theorem fir16Simd_spec {b : SimdBuild} {n : ℕ} (hdvd : b.block ∣ n) {fir : Fir16State}
    {r : RingBuffer ℤ n} (h : fir.HoldsTwice r) {coeffs : List ℤ} (hc : coeffs.length = n)
    (sample : ℤ) :
    ∃ fir', fir16Simd b fir coeffs sample =
        some (fir', i16 (i32 (dot n coeffs (r.push sample).window) >>> (15 : ℕ))) ∧
      fir'.HoldsTwice (r.push sample) := by
  have hpos := r.pos_lt
  have hcells := r.length_cells
  have hset : (r.cells.set r.pos sample).length = n := by rw [List.length_set, hcells]
  have hfirst : r.pos < (r.cells ++ r.cells).length := by rw [List.length_append]; omega
  have hsecond : r.pos + n < ((r.cells ++ r.cells).set r.pos sample).length := by
    rw [List.length_set, List.length_append]
    omega
  have hmirror := RingBuffer.set_set_mirror (p := r.pos) r.cells (by omega) sample
  rw [hcells] at hmirror
  have hblocks := SimdBuild.blocks_eq hdvd
  obtain ⟨acc, hloop, hlen, hsum⟩ := simdLoop_spec b coeffs
    (r.cells.set r.pos sample ++ r.cells.set r.pos sample) ((n + b.block - 1) / b.block)
    (c := 0) (h := r.pos) (by omega) (by rw [hblocks, List.length_append]; omega)
    (List.length_replicate : (List.replicate b.lanes (0 : ℤ)).length = b.lanes)
  have hread : ((r.cells.set r.pos sample ++ r.cells.set r.pos sample).drop r.pos).take n =
      (r.push sample).window := by
    have htake := RingBuffer.take_drop_mirror (l := r.cells.set r.pos sample) (p := r.pos)
      (by omega)
    rw [hset] at htake
    rw [htake, RingBuffer.window_push_eq_rotate]
  have hzero : (List.replicate b.lanes (0 : ℤ)).sum = 0 := by simp
  rw [hblocks, List.drop_zero, List.take_of_length_le (by omega), hread, hzero, zero_add,
    ← dot_eq_mac hc (RingBuffer.length_window _)] at hsum
  refine ⟨⟨n, RingBuffer.retreat n r.pos, r.cells.set r.pos sample ++ r.cells.set r.pos sample⟩,
    ?_, ⟨rfl, rfl, rfl⟩⟩
  have hy : foldLanes b acc = i32 (dot n coeffs (r.push sample).window) :=
    (foldLanes_eq hlen).trans hsum
  simp only [fir16Simd, h.taps, h.currPos, h.history, Int.toNat_natCast, store_eq_some hfirst,
    store_eq_some hsecond, hmirror, hloop, hy, rollPos_eq_retreat hpos, Option.bind_eq_bind,
    Option.bind_some]

/-! ### Runs of either build -/

inductive FirCall
  | fir16 (coeffs : List ℤ) (sample : ℤ)
  | flush

/-- The filter is only given coefficient vectors of its own length. -/
def FirCall.Fits (taps : ℕ) : FirCall → Prop
  | .fir16 coeffs _ => coeffs.length = taps
  | .flush => True

def firPlain : Mealy Fir16State FirCall (Option ℤ) where
  step fir
    | .fir16 coeffs sample => ((fir16 fir coeffs sample).1, some (fir16 fir coeffs sample).2)
    | .flush => (fir16Flush fir, none)

/-- The SIMD build, which stops for good at the first access out of bounds. -/
def firSimd (b : SimdBuild) : Mealy (Option Fir16State) FirCall (Option ℤ) where
  step
    | none, _ => (none, none)
    | some fir, .fir16 coeffs sample =>
        ((fir16Simd b fir coeffs sample).map Prod.fst, (fir16Simd b fir coeffs sample).map Prod.snd)
    | some fir, .flush => (some (fir16FlushDouble fir), none)

/-- Both builds hold the same ring, the SIMD one twice. -/
def SameRing (taps : ℕ) (fir : Fir16State) (simd : Option Fir16State) : Prop :=
  ∃ (r : RingBuffer ℤ taps) (fir' : Fir16State), fir.Holds r ∧ simd = some fir' ∧ fir'.HoldsTwice r

theorem firSimd_simulates {b : SimdBuild} {taps : ℕ} (hdvd : b.block ∣ taps) :
    firPlain.Simulates (firSimd b) (fun _ c => c.Fits taps) (SameRing taps) := by
  constructor
  · rintro fir simd c ⟨r, fir', hr, rfl, hr'⟩ hfits
    cases c with
    | fir16 coeffs sample =>
        obtain ⟨fir'', hstep, hr''⟩ := fir16Simd_spec hdvd hr' hfits sample
        refine ⟨r.push sample, fir'', (fir16_spec hr coeffs sample).1, ?_, hr''⟩
        show (fir16Simd b fir' coeffs sample).map Prod.fst = some fir''
        rw [hstep]
        rfl
    | flush =>
        refine ⟨RingBuffer.fill 0 r.pos_lt, fir16FlushDouble fir', ?_, rfl, ?_⟩
        · refine ⟨hr.taps, hr.currPos, ?_⟩
          show List.replicate fir.taps (0 : ℤ) = List.replicate taps 0
          rw [hr.taps]
        · refine ⟨hr'.taps, hr'.currPos, ?_⟩
          show List.replicate (2 * fir'.taps) (0 : ℤ) =
            List.replicate taps 0 ++ List.replicate taps 0
          rw [hr'.taps, List.replicate_append_replicate, two_mul]
  · rintro fir simd c ⟨r, fir', hr, rfl, hr'⟩ hfits
    cases c with
    | fir16 coeffs sample =>
        obtain ⟨fir'', hstep, -⟩ := fir16Simd_spec hdvd hr' hfits sample
        show some (fir16 fir coeffs sample).2 = (fir16Simd b fir' coeffs sample).map Prod.snd
        rw [hstep, (fir16_spec hr coeffs sample).2]
        rfl
    | flush => rfl

/-- On a doubled history the linear adaption loop reads what the wrapped one reads. -/
theorem lmsAdaptBgLinear_eq {n p : ℕ} (hp : p < n) {cells : List ℤ} (hcells : cells.length = n)
    {firTaps : List ℤ} (hlen : firTaps.length = n) (clean shift : ℤ) :
    lmsAdaptBgLinear n p (cells ++ cells) firTaps clean shift =
      lmsAdaptBg n p (cells ++ cells) firTaps clean shift := by
  have hread : ∀ i < n, (cells ++ cells).getD ((p : ℤ) + i).toNat 0 =
      (cells ++ cells).getD ((i + p) % n) 0 := by
    intro i hi
    have hidx : ((p : ℤ) + i).toNat = i + p := by omega
    rw [hidx, List.getD_eq_getElem?_getD, List.getD_eq_getElem?_getD]
    rcases Nat.lt_or_ge (i + p) n with hlt | hge
    · rw [Nat.mod_eq_of_lt hlt]
    · rw [Nat.mod_eq_sub_mod hge, Nat.mod_eq_of_lt (by omega),
        List.getElem?_append_right (by omega), List.getElem?_append_left (by omega), hcells]
  have hlinear : lmsAdaptBgLinear n p (cells ++ cells) firTaps clean shift =
      firTaps.mapIdx fun i tap => i16 (tap + lmsIncrement (lmsFactor clean shift)
        ((cells ++ cells).getD ((p : ℤ) + i).toNat 0)) :=
    List.foldl_modify_eq_mapIdx (fun i tap => i16 (tap + lmsIncrement (lmsFactor clean shift)
      ((cells ++ cells).getD ((p : ℤ) + i).toNat 0))) List.nodup_range
      (fun i hi => by simpa [hlen] using hi)
  have hwrapped : lmsAdaptBg n p (cells ++ cells) firTaps clean shift =
      firTaps.mapIdx fun i tap => i16 (tap + lmsIncrement (lmsFactor clean shift)
        ((cells ++ cells).getD ((i + p) % n) 0)) := by
    unfold lmsAdaptBg
    rw [ringIndices_eq hp, List.foldl_map]
    exact List.foldl_modify_eq_mapIdx (fun i tap => i16 (tap + lmsIncrement
      (lmsFactor clean shift) ((cells ++ cells).getD ((i + p) % n) 0)))
      (List.nodup_reverse.mpr List.nodup_range) (fun i hi => by simpa [hlen] using hi)
  rw [hlinear, hwrapped]
  ext i : 1
  rw [List.getElem?_mapIdx, List.getElem?_mapIdx]
  rcases Nat.lt_or_ge i n with hi | hi
  · -- past the first half the mirror stands for the wrapped index
    rw [hread i hi]
  · rw [List.getElem?_eq_none (by omega)]
    rfl

/-- Whatever it is fed, a SIMD build never leaves its arrays, keeps its history
doubled and returns what the plain build returns; and on every doubled history
the linear adaption loop is the wrapped one. -/
theorem optimised_builds_agree (b : SimdBuild) (taps : ℕ) (hpos : 0 < taps)
    (hdvd : b.block ∣ taps) (calls : List FirCall) (hcalls : ∀ c ∈ calls, c.Fits taps) :
    (∃ fir, (firSimd b).run (some (fir16CreateDouble taps)) calls = some fir ∧
        Doubled taps fir.history) ∧
      (firSimd b).outputs (some (fir16CreateDouble taps)) calls =
        firPlain.outputs (fir16Create taps) calls ∧
      ∀ n history firTaps p clean shift, Doubled n history → firTaps.length = n → p < n →
        lmsAdaptBgLinear n (p : ℕ) history firTaps clean shift =
          lmsAdaptBg n p history firTaps clean shift := by
  have hstart : SameRing taps (fir16Create taps) (some (fir16CreateDouble taps)) :=
    ⟨_, _, fir16Create_holds hpos, rfl, fir16CreateDouble_holdsTwice hpos⟩
  have hguard : ∀ t ∈ firPlain.trace (fir16Create taps) calls, t.input.Fits taps :=
    fun t ht => hcalls t.input (firPlain.input_mem_of_mem_trace ht)
  refine ⟨?_, ((firSimd_simulates hdvd).outputs_eq hstart hguard).symm, ?_⟩
  · obtain ⟨r, fir, -, hrun, hr⟩ := (firSimd_simulates hdvd).run hstart hguard
    refine ⟨fir, hrun, ?_⟩
    rw [hr.history]
    exact doubled_append r.length_cells
  · intro n history firTaps p clean shift hdouble hlen hp
    obtain ⟨cells, hcells, rfl⟩ := hdouble.eq_append
    exact lmsAdaptBgLinear_eq hp hcells hlen clean shift

/-- Nine samples through the eight taps of an MMX filter, past the first wrap. -/
theorem optimised_builds_agree_nine_samples :
    (firSimd .mmx).outputs (some (fir16CreateDouble 8))
        (List.replicate 9 (.fir16 (List.replicate 8 (-32768)) (-32768))) =
      firPlain.outputs (fir16Create 8)
        (List.replicate 9 (.fir16 (List.replicate 8 (-32768)) (-32768))) :=
  (optimised_builds_agree .mmx 8 (by decide) (by decide)
    (List.replicate 9 (.fir16 (List.replicate 8 (-32768)) (-32768)))
    fun c hc => by rw [List.eq_of_mem_replicate hc]; rfl).2.1

end Oslec
