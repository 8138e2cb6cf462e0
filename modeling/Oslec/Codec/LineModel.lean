import Oslec.Builds.Simd
import Oslec.Library.FilterGain

/-!
The line simulator of the echo tests: `fir32` with the echo paths of
`g168models.h`. It is the ring of `fir16` with wider coefficients, and what it
returns is the echo as long as neither the accumulator nor the result wraps.
-/

namespace Oslec

open PackedLanes FilterGain

/-! ### The filter -/

structure Fir32State where
  taps : ℕ
  currPos : ℤ
  coeffs : List ℤ
  history : List ℤ

def fir32Create (coeffs : List ℤ) (taps : ℕ) : Fir32State where
  taps := taps
  currPos := taps - 1
  coeffs := coeffs
  history := List.replicate taps 0

def fir32 (fir : Fir32State) (sample : ℤ) : Fir32State × ℤ :=
  let history := fir.history.set fir.currPos.toNat sample
  let y := macLoop fir.coeffs history (ringIndices fir.taps fir.currPos)
  ({ fir with history := history, currPos := rollPos fir.taps fir.currPos }, i16 (y >>> (15 : ℕ)))

/-- The filter as a machine over the samples. -/
def lineModel : Mealy Fir32State Int16 ℤ where
  step fir sample := fir32 fir sample.toInt

/-! ### The models -/

def lineModelD2Coeffs : List ℤ :=
  [-436, -829, -2797, -4208, -17968, -11215, 46150, 34480, -10427, 9049, -1309, -6320,
    390, -8191, -1751, -6051, -3796, -4055, -3948, -2557, -3372, -1808, -2259, -1300,
    -1098, -618, -340, -61, 323, 419, 745, 716, 946, 880, 1014, 976,
    1033, 1091, 1053, 1042, 794, 831, 899, 716, 390, 313, 304, 304,
    73, -119, -109, -176, -359, -407, -512, -580, -704, -618, -685, -791,
    -772, -820, -839, -724]

def lineModelD3Coeffs : List ℤ :=
  [-381, 658, 1730, -51, -3511, -1418, 7660, 8861, -8106, -21370, -5307, 23064,
    24020, 1020, -12374, -16296, -19524, -7480, 13509, 17115, 13952, 13952, 97, -9326,
    -9046, -15208, -9853, -3858, -1979, 6029, 5616, 7214, 6820, 3935, 3919, 921,
    1316, -693, -759, -1517, -2176, -2028, -2654, -1814, -2077, -1468, -1221, -842,
    -463, -298, -68, 64, 493, 723, 789, 954, 756, 839, 872, 1020,
    789, 822, 558, 658, 476, 377, 377, 262, 97, -68, -183, -232,
    -331, -347, -430, -314, -430, -463, -463, -414, -381, -479, -479, -512,
    -479, -397, -430, -397, -298, -265, -249, -216, -249, -265, -166, -232]

def lineModelD4Coeffs : List ℤ :=
  [-448, -436, 2230, 2448, -4178, -7050, 5846, 18581, 2322, -26261, -16249, 21637,
    25649, -2267, -10311, -4693, -12690, -7428, 14164, 13467, 4438, 8627, 456, -11879,
    -6352, -5104, -7496, 3271, 6566, 4277, 11131, 7562, 1475, 3728, -3525, -7301,
    -3101, -9269, -6146, -2553, -6272, 811, 124, 788, 5147, 2172, 5387, 4598,
    3535, 4004, 2311, 2150, 1017, 330, -139, -573, -1100, -1157, -1180, -1455,
    -1123, -1386, -1123, -1066, -1020, -1100, -1008, -1077, -1088, -917, -917, -963,
    -814, -871, -734, -642, -562, -356, -379, -345, -230, -233, -333, -356,
    -390, -310, -265, -368, -310, -310, -390, -482, -459, -482, -551, -573]

def lineModelD5Coeffs : List ℤ :=
  [160, 312, -241, -415, 897, 908, -1326, -1499, 2405, 3347, -3624, -7733,
    4041, 14484, -1477, -21739, -4470, 25356, 11458, -19696, -11800, 5766, 789, 6633,
    14624, -6975, -17156, -187, 149, 1515, 14907, 4345, -7128, -2757, -10185, -7083,
    6850, 3944, 6969, 8694, -4068, -3852, -5793, -9371, 453, 1060, 3965, 9463,
    2393, 2784, -892, -7366, -3376, -5847, -2399, 3011, 1537, 6623, 4205, 1602,
    1592, -4752, -3646, -5207, -5577, -501, -1174, 4041, 5647, 4628, 7252, 2123,
    2654, -881, -4113, -3244, -7289, -3830, -4600, -2508, 431, -144, 4184, 2372,
    4617, 3576, 2382, 2839, -404, 539, -1803, -1401, -1705, -2269, -783, -1608,
    -220, -306, 257, 615, 225, 561, 8, 344, 127, -57, 182, 41,
    203, -111, 95, -79, 30, 84, -13, -68, -241, -68, -24, 19,
    -57, -24, 30, -68, 84, -155, -68, 19]

def lineModelD6Coeffs : List ℤ :=
  [293, 268, 475, 460, 517, 704, 581, 879, 573, 896, 604, 787,
    561, 538, 440, 97, 265, -385, 20, -938, -523, -1438, -1134, -1887,
    -1727, -1698, -4266, -22548, -43424, 2743, 25897, 7380, 21499, 11983, 10400, 11667,
    3889, 7241, 925, 2018, -821, -2068, -2236, -4283, -3406, -5022, -4039, -4842,
    -4104, -4089, -3582, -2978, -2734, -1805, -1608, -645, -495, 279, 471, 947,
    1186, 1438, 1669, 1640, 1901, 1687, 1803, 1543, 1566, 1342, 1163, 963,
    733, 665, 323, 221, -14, -107, -279, -379, -468, -513, -473, -588,
    -612, -652, -616, -566, -515, -485, -404, -344, -290, -202, -180, -123]

def lineModelD7Coeffs : List ℤ :=
  [29, 109, -83, 198, -294, -135, -415, -202, -444, -337, -313, -450,
    -105, -503, 145, -490, 267, -231, 340, 77, 343, 783, 158, 1341,
    195, 1798, 344, 1845, 629, 1604, 1182, 940, 5163, 19522, 8421, -50953,
    -9043, 18046, -13553, 13336, -3471, -107, 1788, -7409, 2469, -7994, 490, -3860,
    -837, 490, -636, 3682, 1141, 5019, 2635, 5025, 3946, 4414, 4026, 3005,
    3380, 1616, 2007, 158, 388, -1198, -1117, -2134, -2547, -2589, -3310, -2778,
    -3427, -2779, -3116, -2502, -2399, -1956, -1539, -1239, -570, -377, 251, 331,
    964, 1177, 1449, 1564, 1724, 1871, 1767, 1802, 1630, 1632, 1379, 1271,
    1063, 856, 711, 482, 289, 54, -137, -321, -490, -638, -764, -836,
    -800, -859, -838, -837, -834, -740, -673, -581, -493, -436, -327, -201]

def lineModelD8Coeffs : List ℤ :=
  [258, -111, 337, -319, 347, -434, 192, -450, -108, -343, -596, -177,
    -1187, -52, -1781, -147, -1959, -326, -1601, -1389, -13620, -720, 33818, -10683,
    -6742, 12489, -9862, 8950, -1574, 758, 3526, -3118, 2421, -8966, -4901, 11385,
    18072, -14410, -7473, 19836, -16854, -3115, 9483, -17799, 7399, -4342, -7415, 7929,
    -10726, 6239, -2526, -1317, 5345, -4565, 6868, -2195, 3425, 1969, -109, 3963,
    -1275, 3087, -892, 1239, 2, -427, 596, -1184, 551, -1244, 141, -743,
    -415, -372, -769, -183, -785, -270, -659, -377, -523, -325, -245, -255,
    -60, 35, 218, 149, 340, 233, 365, 303, 251, 230, 209, 179]

def lineModelD9Coeffs : List ℤ :=
  [80, 31, 4, 42, 42, -61, -81, -64, 121, -102, -26, 1002,
    -9250, -22562, 39321, 35681, -35289, 25312, -1457, -229, 15659, -6786, 16791, 3860,
    2239, -28730, -11885, 33871, -176, -16421, 18173, -9669, -10163, 9941, -19365, 3592,
    -5907, -10257, 5336, -12933, 4348, -4802, -1791, 3035, -4433, 5553, -2596, 3992,
    1255, 1450, 4079, 324, 4340, 1059, 3083, 1917, 1756, 2478, 1027, 1871,
    845, 1284, 813, 806, 869, 471, 646, 438, 449, 432, 473, 394,
    452, 538, 717, 723, 850, 756, 753, 899, 555, 669, 619, 500,
    650, 615, 516, 492, 427, 291, 356, 147, 107, -50, -88, -59,
    -238, -165, -183]

/-- `line_models` of `channel_model_create`. -/
def lineModels : List (List ℤ) :=
  [lineModelD2Coeffs, lineModelD3Coeffs, lineModelD4Coeffs, lineModelD5Coeffs,
    lineModelD6Coeffs, lineModelD7Coeffs, lineModelD8Coeffs, lineModelD9Coeffs]

/-! ### Runs -/

/-- The filter without its coefficients. -/
def Fir32State.ring (fir : Fir32State) : Fir16State := ⟨fir.taps, fir.currPos, fir.history⟩

theorem fir32_spec {n : ℕ} {fir : Fir32State} {r : RingBuffer ℤ n} (h : fir.ring.Holds r)
    (sample : ℤ) :
    (fir32 fir sample).1.ring.Holds (r.push sample) ∧
      (fir32 fir sample).1.coeffs = fir.coeffs ∧
      (fir32 fir sample).2 =
        i16 (i32 (dot n fir.coeffs (r.push sample).window) >>> (15 : ℕ)) := by
  obtain ⟨hholds, hout⟩ := fir16_spec h fir.coeffs sample
  exact ⟨hholds, rfl, hout⟩

theorem window_push_of_history {n : ℕ} {r : RingBuffer ℤ n} {l : List ℤ}
    (h : r.window = (l ++ List.replicate n 0).take n) (x : ℤ) :
    (r.push x).window = (x :: l ++ List.replicate n 0).take n := by
  have hn : 0 < n := Nat.zero_lt_of_lt r.pos_lt
  obtain ⟨m, rfl⟩ : ∃ m, n = m + 1 := ⟨n - 1, (Nat.sub_add_cancel hn).symm⟩
  rw [RingBuffer.window_push, h, List.cons_append, List.take_succ_cons, List.dropLast_eq_take,
    List.take_take]
  simp

/-- The register of a run: its samples, the last one first, and zeros after them. -/
theorem lineModel_run (coeffs : List ℤ) {n : ℕ} (hn : 0 < n) (xs : List Int16) :
    (lineModel.run (fir32Create coeffs n) xs).coeffs = coeffs ∧
      ∃ r : RingBuffer ℤ n, (lineModel.run (fir32Create coeffs n) xs).ring.Holds r ∧
        r.window = ((xs.map Int16.toInt).reverse ++ List.replicate n 0).take n := by
  induction xs using List.reverseRecOn with
  | nil =>
      refine ⟨rfl, RingBuffer.fill 0 (Nat.sub_lt hn Nat.one_pos), fir16Create_holds hn, ?_⟩
      rw [RingBuffer.window_fill]
      simp
  | append_singleton xs x ih =>
      obtain ⟨hcoeffs, r, hholds, hwindow⟩ := ih
      obtain ⟨hnext, hkept, -⟩ := fir32_spec hholds x.toInt
      rw [Mealy.run_concat]
      refine ⟨hkept.trans hcoeffs, r.push x.toInt, hnext, ?_⟩
      rw [List.map_append, List.reverse_append]
      exact window_push_of_history hwindow x.toInt

/-- The echo of the last of the samples. -/
def lineEcho (coeffs : List ℤ) (xs : List Int16) : ℤ := mac coeffs (xs.map Int16.toInt).reverse

theorem lineModel_output (coeffs : List ℤ) (hcoeffs : coeffs ≠ []) (xs : List Int16) (x : Int16) :
    (lineModel.step (lineModel.run (fir32Create coeffs coeffs.length) xs) x).2 =
      i16 (i32 (lineEcho coeffs (xs ++ [x])) >>> (15 : ℕ)) := by
  have hn := List.length_pos_iff.mpr hcoeffs
  obtain ⟨hkept, r, hholds, hwindow⟩ := lineModel_run coeffs hn xs
  obtain ⟨-, -, hout⟩ := fir32_spec hholds x.toInt
  refine hout.trans ?_
  rw [hkept, dot_eq_mac rfl (RingBuffer.length_window _), window_push_of_history hwindow,
    mac_take, mac_append_zeros, lineEcho, List.map_append, List.reverse_append]
  rfl

/-! ### The greatest amplitude -/

/-- At every sample of every run within the amplitude, the result is the echo. -/
def LineExact (coeffs : List ℤ) (amplitude : ℕ) : Prop :=
  ∀ (xs : List Int16) (x : Int16), (∀ y ∈ xs ++ [x], y.toInt.natAbs ≤ amplitude) →
    (lineModel.step (lineModel.run (fir32Create coeffs coeffs.length) xs) x).2 =
      lineEcho coeffs (xs ++ [x]) >>> (15 : ℕ)

theorem lineExact_of_gain {coeffs : List ℤ} (hcoeffs : coeffs ≠ []) {amplitude : ℕ}
    (hgain : gain coeffs * amplitude < 2 ^ 30) : LineExact coeffs amplitude := by
  intro xs x hsmall
  have hreg : ∀ y ∈ ((xs ++ [x]).map Int16.toInt).reverse, y.natAbs ≤ amplitude := by
    intro y hy
    obtain ⟨s, hs, rfl⟩ := List.mem_map.mp (List.mem_reverse.mp hy)
    exact hsmall s hs
  have hecho : (lineEcho coeffs (xs ++ [x])).natAbs ≤ gain coeffs * amplitude :=
    natAbs_mac_le coeffs hreg
  rw [lineModel_output coeffs hcoeffs]
  generalize lineEcho coeffs (xs ++ [x]) = y at hecho
  rw [i32_of_bounds (by omega) (by omega), Int.shiftRight_eq_div_pow]
  exact i16_of_bounds (by omega) (by omega)

/-- The samples with the signs of the coefficients, sent in backwards, are the worst. -/
theorem exists_worst_samples {coeffs : List ℤ} (hcoeffs : coeffs ≠ []) {amplitude : ℕ}
    (hsample : amplitude ≤ 32767) :
    ∃ (xs : List Int16) (x : Int16), (∀ y ∈ xs ++ [x], y.toInt.natAbs ≤ amplitude) ∧
      lineEcho coeffs (xs ++ [x]) = gain coeffs * amplitude := by
  have hworst := natAbs_worstInputs_le amplitude coeffs
  have hsamples : ((worstInputs amplitude coeffs).map Int16.ofInt).map Int16.toInt =
      worstInputs amplitude coeffs := by
    rw [List.map_map]
    refine (List.map_congr_left fun y hy => ?_).trans (List.map_id _)
    have hsmall := hworst y hy
    show (Int16.ofInt y).toInt = y
    rw [Int16.toInt_ofInt]
    exact i16_of_bounds (by omega) (by omega)
  have hne : ((worstInputs amplitude coeffs).map Int16.ofInt).reverse ≠ [] := by
    simpa [worstInputs] using hcoeffs
  obtain ⟨xs, x, hsplit⟩ : ∃ xs x,
      xs ++ [x] = ((worstInputs amplitude coeffs).map Int16.ofInt).reverse :=
    ⟨_, _, List.dropLast_append_getLast hne⟩
  refine ⟨xs, x, ?_, ?_⟩
  · rw [hsplit]
    intro y hy
    apply hworst
    rw [← hsamples]
    exact List.mem_map_of_mem (List.mem_reverse.mp hy)
  · rw [hsplit, lineEcho, List.map_reverse, List.reverse_reverse, hsamples, mac_worstInputs]

theorem gain_of_lineExact {coeffs : List ℤ} (hcoeffs : coeffs ≠ []) {amplitude : ℕ}
    (hsample : amplitude ≤ 32767) (h : LineExact coeffs amplitude) :
    gain coeffs * amplitude < 2 ^ 30 := by
  obtain ⟨xs, x, hsmall, hecho⟩ := exists_worst_samples hcoeffs hsample
  have hout := h xs x hsmall
  rw [lineModel_output coeffs hcoeffs, hecho] at hout
  obtain ⟨-, hmax⟩ := i16_bounds (i32 ((gain coeffs : ℤ) * amplitude) >>> (15 : ℕ))
  have hcast : ((gain coeffs * amplitude : ℕ) : ℤ) = (gain coeffs : ℤ) * amplitude :=
    Nat.cast_mul _ _
  rw [hout, Int.shiftRight_eq_div_pow, ← hcast] at hmax
  omega

theorem ne_nil_of_mem_lineModels : ∀ coeffs ∈ lineModels, coeffs ≠ [] := by decide +kernel

theorem gain_lineModels_le : ∀ coeffs ∈ lineModels, gain coeffs ≤ 488035 := by decide +kernel

/-- The model of section D.9 is the first to wrap. -/
theorem line_models_exact_iff {amplitude : ℕ} (hsample : amplitude ≤ 32767) :
    (∀ coeffs : List ℤ, coeffs ≠ [] →
      (LineExact coeffs amplitude ↔ gain coeffs * amplitude < 2 ^ 30)) ∧
    ((∀ coeffs ∈ lineModels, LineExact coeffs amplitude) ↔ amplitude ≤ 2200) := by
  refine ⟨?_, ?_, ?_⟩
  · intro coeffs hcoeffs
    exact ⟨gain_of_lineExact hcoeffs hsample, lineExact_of_gain hcoeffs⟩
  · intro h
    have hd9 : lineModelD9Coeffs ∈ lineModels := by simp [lineModels]
    have hgain := gain_of_lineExact (ne_nil_of_mem_lineModels _ hd9) hsample (h _ hd9)
    have hvalue : gain lineModelD9Coeffs = 488035 := by decide +kernel
    rw [hvalue] at hgain
    omega
  · intro hsmall coeffs hmem
    have hle := Nat.mul_le_mul (gain_lineModels_le coeffs hmem) hsmall
    exact lineExact_of_gain (ne_nil_of_mem_lineModels coeffs hmem) (by omega)

theorem line_models_exact_iff_loud :
    5117 ≤ 32767 ∧ ¬LineExact lineModelD2Coeffs 5117 ∧ LineExact lineModelD2Coeffs 5116 := by
  have hvalue : gain lineModelD2Coeffs = 209860 := by decide +kernel
  have hne : lineModelD2Coeffs ≠ [] := by decide
  refine ⟨by decide, ?_, ?_⟩
  · rw [(line_models_exact_iff (by decide)).1 _ hne, hvalue]
    decide
  · rw [(line_models_exact_iff (by decide)).1 _ hne, hvalue]
    decide

end Oslec
