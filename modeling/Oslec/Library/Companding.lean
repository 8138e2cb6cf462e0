import Mathlib.Algebra.Order.Ring.Nat
import Mathlib.Data.Nat.Log
import Mathlib.Tactic.Ring

/-!
Codes whose steps grow with the value. With `b` bits of mantissa a value below
`2 ^ (b + 1)` is its own code, and from there on every further octave takes `2 ^ b`
codes: the code counts the octaves and, within one, the steps. The values that share
a code are an interval, the code is monotone, and any choice of one value in each
interval is a round trip.
-/

namespace Companding

variable {b : ℕ}

/-- How far a value must be shifted for `b + 1` bits to be left. -/
def octave (b k : ℕ) : ℕ := k.log2 - b

def encode (b k : ℕ) : ℕ := 2 ^ b * octave b k + k / 2 ^ octave b k

/-- The octave of a code. -/
def shift (b c : ℕ) : ℕ := c / 2 ^ b - 1

/-- The least value that has the code `c`. -/
def decode (b c : ℕ) : ℕ := (c - 2 ^ b * shift b c) * 2 ^ shift b c

theorem div_octave_lt (k : ℕ) : k / 2 ^ octave b k < 2 ^ (b + 1) := by
  have hk := @Nat.lt_log2_self k
  rw [Nat.div_lt_iff_lt_mul (Nat.two_pow_pos _), ← pow_add]
  refine hk.trans_le (Nat.pow_le_pow_right (Nat.succ_pos 1) ?_)
  rw [octave]
  omega

theorem le_div_octave {k : ℕ} (h : 0 < octave b k) : 2 ^ b ≤ k / 2 ^ octave b k := by
  have hk : k ≠ 0 := by
    rintro rfl
    rw [octave, Nat.log2_zero] at h
    omega
  have hlog := Nat.log2_self_le hk
  rw [Nat.le_div_iff_mul_le (Nat.two_pow_pos _), ← pow_add]
  refine le_trans (Nat.pow_le_pow_right (Nat.succ_pos 1) ?_) hlog
  rw [octave] at h ⊢
  omega

theorem octave_mono {k k' : ℕ} (h : k ≤ k') : octave b k ≤ octave b k' := by
  rw [octave, octave, Nat.log2_eq_log_two, Nat.log2_eq_log_two]
  exact Nat.sub_le_sub_right (Nat.log_mono_right h) b

theorem encode_mono {k k' : ℕ} (h : k ≤ k') : encode b k ≤ encode b k' := by
  rcases (octave_mono (b := b) h).eq_or_lt with heq | hlt
  · rw [encode, encode, ← heq]
    exact Nat.add_le_add_left (Nat.div_le_div_right h) _
  · -- a later octave begins where the codes of the earlier ones end
    have hlo := div_octave_lt (b := b) k
    have hhi := le_div_octave (b := b) (Nat.zero_lt_of_lt hlt)
    have hpow : (2 : ℕ) ^ (b + 1) = 2 ^ b + 2 ^ b := by ring
    calc encode b k ≤ 2 ^ b * octave b k + 2 ^ (b + 1) := Nat.add_le_add_left hlo.le _
      _ = 2 ^ b * (octave b k + 1) + 2 ^ b := by rw [hpow]; ring
      _ ≤ 2 ^ b * octave b k' + 2 ^ b :=
        Nat.add_le_add_right (Nat.mul_le_mul_left _ hlt) _
      _ ≤ encode b k' := Nat.add_le_add_left hhi _

/-- The octave can be read off the code. -/
theorem shift_encode (k : ℕ) : shift b (encode b k) = octave b k := by
  have hlt := div_octave_lt (b := b) k
  have hpow : (2 : ℕ) ^ (b + 1) = 2 ^ b * 2 := pow_succ 2 b
  rw [shift, encode, Nat.mul_add_div (Nat.two_pow_pos b)]
  have hquot : k / 2 ^ octave b k / 2 ^ b < 2 := by
    rw [Nat.div_lt_iff_lt_mul (Nat.two_pow_pos b), Nat.mul_comm, ← hpow]
    exact hlt
  rcases Nat.eq_zero_or_pos (octave b k) with hzero | hpos
  · rw [hzero] at hquot ⊢
    omega
  · have hone : 1 ≤ k / 2 ^ octave b k / 2 ^ b := by
      rw [Nat.le_div_iff_mul_le (Nat.two_pow_pos b), Nat.one_mul]
      exact le_div_octave hpos
    omega

theorem decode_encode (k : ℕ) :
    decode b (encode b k) = k / 2 ^ octave b k * 2 ^ octave b k := by
  rw [decode, shift_encode, encode, Nat.add_sub_cancel_left]

/-- The mantissa of a code has its leading bit set, except in the first octave. -/
theorem mantissa_bounds (c : ℕ) :
    c - 2 ^ b * shift b c < 2 ^ (b + 1) ∧
      (0 < shift b c → 2 ^ b ≤ c - 2 ^ b * shift b c) := by
  have hlt := Nat.lt_mul_div_succ c (Nat.two_pow_pos b)
  have hle := Nat.mul_div_le c (2 ^ b)
  have hpow : (2 : ℕ) ^ (b + 1) = 2 ^ b + 2 ^ b := by ring
  rw [shift, hpow]
  rcases Nat.eq_zero_or_pos (c / 2 ^ b) with hzero | hpos
  · rw [hzero] at hlt ⊢
    simp only [Nat.zero_sub, Nat.mul_zero, Nat.sub_zero]
    omega
  · obtain ⟨e, he⟩ : ∃ e, c / 2 ^ b = e + 1 := ⟨c / 2 ^ b - 1, (Nat.sub_add_cancel hpos).symm⟩
    have hnext : 2 ^ b * (e + 1) = 2 ^ b * e + 2 ^ b := by ring
    have hlast : 2 ^ b * (e + 1 + 1) = 2 ^ b * e + 2 ^ b + 2 ^ b := by ring
    rw [he, hlast] at hlt
    rw [he, hnext] at hle
    rw [he, Nat.add_sub_cancel]
    omega

/-- The values with the code `c` are an interval of `2 ^ shift b c`. -/
theorem encode_eq_iff (k c : ℕ) :
    encode b k = c ↔ decode b c ≤ k ∧ k < decode b c + 2 ^ shift b c := by
  constructor
  · rintro rfl
    rw [decode_encode, shift_encode]
    exact ⟨Nat.div_mul_le_self k _, Nat.lt_div_mul_add (Nat.two_pow_pos _)⟩
  · rintro ⟨hlo, hhi⟩
    obtain ⟨hmantissa, hleading⟩ := mantissa_bounds (b := b) c
    rw [decode] at hlo hhi
    have hquot : k / 2 ^ shift b c = c - 2 ^ b * shift b c := by
      refine Nat.div_eq_of_lt_le hlo ?_
      rw [Nat.succ_mul]
      exact hhi
    have hoctave : octave b k = shift b c := by
      rcases Nat.eq_zero_or_pos (shift b c) with hzero | hpos
      · rw [hzero] at hlo hhi hmantissa ⊢
        have hk : k < 2 ^ (b + 1) := by
          rw [Nat.pow_zero, Nat.mul_one] at hhi
          omega
        rcases Nat.eq_zero_or_pos k with rfl | hk'
        · rw [octave, Nat.log2_zero, Nat.zero_sub]
        · have hlog := (Nat.log2_lt hk'.ne').mpr hk
          rw [octave]
          omega
      · have hlower : 2 ^ (b + shift b c) ≤ k := by
          rw [pow_add]
          exact (Nat.mul_le_mul_right _ (hleading hpos)).trans hlo
        have hupper : k < 2 ^ (b + shift b c + 1) := by
          have hle : (c - 2 ^ b * shift b c + 1) * 2 ^ shift b c ≤
              2 ^ (b + 1) * 2 ^ shift b c := Nat.mul_le_mul_right _ hmantissa
          rw [← pow_add, Nat.succ_mul] at hle
          have hadd : b + 1 + shift b c = b + shift b c + 1 := by omega
          rw [hadd] at hle
          exact hhi.trans_le hle
        have hk : k ≠ 0 := (lt_of_lt_of_le (Nat.two_pow_pos _) hlower).ne'
        have hlog := (Nat.log2_eq_iff hk).mpr ⟨hlower, hupper⟩
        rw [octave, hlog, Nat.add_sub_cancel_left]
    have hsplit : 2 ^ b * shift b c ≤ c := by
      refine le_trans (Nat.mul_le_mul_left _ (Nat.sub_le _ _)) (Nat.mul_div_le c (2 ^ b))
    rw [encode, hoctave, hquot, Nat.add_sub_cancel' hsplit]

theorem encode_decode (c : ℕ) : encode b (decode b c) = c :=
  (encode_eq_iff _ c).mpr ⟨le_refl _, Nat.lt_add_of_pos_right (Nat.two_pow_pos _)⟩

theorem decode_mono {c c' : ℕ} (h : c ≤ c') : decode b c ≤ decode b c' := by
  by_contra hlt
  have hle := encode_mono (b := b) (Nat.le_of_lt (Nat.lt_of_not_le hlt))
  rw [encode_decode, encode_decode] at hle
  obtain rfl := Nat.le_antisymm h hle
  exact hlt (le_refl _)

theorem octave_div (b g k : ℕ) : octave b (k / 2 ^ g) = octave (b + g) k := by
  rw [octave, octave, Nat.log2_eq_log_two, Nat.log2_eq_log_two, Nat.log_div_base_pow]
  omega

theorem encode_div (b g k : ℕ) :
    encode b (k / 2 ^ g) = 2 ^ b * octave (b + g) k + k / 2 ^ (octave (b + g) k + g) := by
  rw [encode, octave_div, Nat.div_div_eq_div_mul, ← pow_add, Nat.add_comm g]

/-! ### Quantizers

The values are counted in steps of `2 ^ g` from `-bias` on, codes start at zero and
end at `top`, and every code stands for the middle of its interval. -/

section

variable (b g bias : ℕ)

/-- The first code in use. -/
def firstCode : ℕ := encode b (bias / 2 ^ g)

def quantize (top m : ℕ) : ℕ := min top (encode b ((m + bias) / 2 ^ g) - firstCode b g bias)

def middle (c : ℕ) : ℕ :=
  2 ^ g * decode b (c + firstCode b g bias) +
    2 ^ (g - 1) * 2 ^ shift b (c + firstCode b g bias) - bias

theorem quantize_mono (top : ℕ) : Monotone (quantize b g bias top) := fun _ _ h =>
  min_le_min_left _ (Nat.sub_le_sub_right
    (encode_mono (Nat.div_le_div_right (Nat.add_le_add_right h bias))) _)

variable {b g bias} (hg : 1 ≤ g)
  (hbias : bias ≤ 2 ^ g * decode b (firstCode b g bias) + 2 ^ (g - 1))

include hbias

/-- No middle lies below zero. -/
theorem middle_add_bias (c : ℕ) :
    middle b g bias c + bias = 2 ^ g * decode b (c + firstCode b g bias) +
      2 ^ (g - 1) * 2 ^ shift b (c + firstCode b g bias) := by
  refine Nat.sub_add_cancel (hbias.trans (Nat.add_le_add ?_ ?_))
  · exact Nat.mul_le_mul_left _ (decode_mono (Nat.le_add_left _ _))
  · exact Nat.le_mul_of_pos_right _ (Nat.two_pow_pos _)

include hg

/-- A middle has the code that it stands for, and so has what lies half a first step
below it. -/
theorem quantize_middle_sub {top c d : ℕ} (hc : c ≤ top) (hd : d ≤ 2 ^ (g - 1))
    (hle : d ≤ middle b g bias c) :
    quantize b g bias top (middle b g bias c - d) = c := by
  have hhalf : (2 : ℕ) ^ (g - 1) < 2 ^ g := Nat.pow_lt_pow_right (by decide) (by omega)
  have hpos := Nat.two_pow_pos (shift b (c + firstCode b g bias))
  have hmiddle := middle_add_bias hbias c
  have hstep : 2 ^ (g - 1) ≤ 2 ^ (g - 1) * 2 ^ shift b (c + firstCode b g bias) :=
    Nat.le_mul_of_pos_right _ hpos
  have hsum : middle b g bias c - d + bias = 2 ^ g * decode b (c + firstCode b g bias) +
      (2 ^ (g - 1) * 2 ^ shift b (c + firstCode b g bias) - d) := by
    omega
  have hcode : encode b ((middle b g bias c - d + bias) / 2 ^ g) = c + firstCode b g bias := by
    rw [hsum, Nat.mul_add_div (Nat.two_pow_pos g)]
    refine (encode_eq_iff _ _).mpr ⟨Nat.le_add_right _ _, Nat.add_lt_add_left ?_ _⟩
    rw [Nat.div_lt_iff_lt_mul (Nat.two_pow_pos g), Nat.mul_comm]
    exact (Nat.sub_le _ _).trans_lt (Nat.mul_lt_mul_of_pos_left hhalf hpos)
  rw [quantize, hcode, Nat.add_sub_cancel, min_eq_right hc]

theorem quantize_middle {top c : ℕ} (hc : c ≤ top) :
    quantize b g bias top (middle b g bias c) = c := by
  have hcode := quantize_middle_sub hg hbias hc (Nat.zero_le _) (Nat.zero_le (middle b g bias c))
  rwa [Nat.sub_zero] at hcode

theorem middle_strictMono {top c c' : ℕ} (h : c < c') (hc' : c' ≤ top) :
    middle b g bias c < middle b g bias c' := by
  by_contra hle
  have hcode := quantize_mono b g bias top (Nat.le_of_not_lt hle)
  rw [quantize_middle hg hbias hc', quantize_middle hg hbias (h.le.trans hc')] at hcode
  omega

theorem middle_mono {top c c' : ℕ} (h : c ≤ c') (hc' : c' ≤ top) :
    middle b g bias c ≤ middle b g bias c' := by
  rcases h.eq_or_lt with rfl | hlt
  · exact Nat.le_refl _
  · exact (middle_strictMono hg hbias hlt hc').le

theorem middle_quantize_mono (top : ℕ) :
    Monotone fun m => middle b g bias (quantize b g bias top m) := fun _ _ h =>
  middle_mono hg hbias (quantize_mono b g bias top h) (min_le_left _ _)

/-- A value below the last interval is no further from its middle than half a step,
or than the `2 ^ (b + 1)`th part of itself. -/
theorem middle_error {top m : ℕ}
    (hm : encode b ((m + bias) / 2 ^ g) ≤ top + firstCode b g bias) :
    2 ^ (b + 1) * ((middle b g bias (quantize b g bias top m) : ℤ) - m).natAbs ≤
      max (2 ^ (b + g)) (m + bias) := by
  have hfirst : firstCode b g bias ≤ encode b ((m + bias) / 2 ^ g) :=
    encode_mono (Nat.div_le_div_right (Nat.le_add_left _ _))
  have hcode : quantize b g bias top m + firstCode b g bias = encode b ((m + bias) / 2 ^ g) := by
    rw [quantize, min_eq_right (by omega), Nat.sub_add_cancel hfirst]
  have hmiddle := middle_add_bias hbias (quantize b g bias top m)
  obtain ⟨hlo, hhi⟩ := (encode_eq_iff ((m + bias) / 2 ^ g) _).mp rfl
  rw [hcode] at hmiddle
  rw [shift_encode] at hmiddle hhi
  -- the interval, in units of the value
  have hlower : 2 ^ g * decode b (encode b ((m + bias) / 2 ^ g)) ≤ m + bias :=
    (Nat.mul_le_mul_left _ hlo).trans (Nat.mul_div_le _ _)
  have hupper : m + bias < 2 ^ g * decode b (encode b ((m + bias) / 2 ^ g)) +
      2 ^ g * 2 ^ octave b ((m + bias) / 2 ^ g) := by
    rw [← Nat.mul_add]
    exact (Nat.lt_mul_div_succ _ (Nat.two_pow_pos g)).trans_le (Nat.mul_le_mul_left _ hhi)
  have hstep : 2 ^ g * 2 ^ octave b ((m + bias) / 2 ^ g) =
      2 * (2 ^ (g - 1) * 2 ^ octave b ((m + bias) / 2 ^ g)) := by
    rw [← Nat.mul_assoc, ← pow_succ', Nat.sub_add_cancel hg]
  have herror : ((middle b g bias (quantize b g bias top m) : ℤ) - m).natAbs ≤
      2 ^ (g - 1) * 2 ^ octave b ((m + bias) / 2 ^ g) := by
    rw [hstep] at hupper
    omega
  have hscaled : 2 ^ (b + 1) * (2 ^ (g - 1) * 2 ^ octave b ((m + bias) / 2 ^ g)) =
      2 ^ (b + g) * 2 ^ octave b ((m + bias) / 2 ^ g) := by
    rw [pow_succ, Nat.mul_assoc, ← hstep, pow_add, Nat.mul_assoc]
  refine (Nat.mul_le_mul_left _ herror).trans (hscaled.trans_le ?_)
  rcases Nat.eq_zero_or_pos (octave b ((m + bias) / 2 ^ g)) with hzero | hpos
  · rw [hzero, pow_zero, Nat.mul_one]
    exact le_max_left _ _
  · -- the mantissa has its leading bit, so the value is that much larger than the step
    refine le_trans ?_ (le_max_right _ _)
    have hmantissa := (Nat.le_div_iff_mul_le (Nat.two_pow_pos _)).mp (le_div_octave hpos)
    calc 2 ^ (b + g) * 2 ^ octave b ((m + bias) / 2 ^ g)
        = 2 ^ g * (2 ^ b * 2 ^ octave b ((m + bias) / 2 ^ g)) := by rw [pow_add]; ring
      _ ≤ 2 ^ g * ((m + bias) / 2 ^ g) := Nat.mul_le_mul_left _ hmantissa
      _ ≤ m + bias := Nat.mul_div_le _ _

end

/-! ### Sign and magnitude -/

/-- A function of magnitudes, carried over to signed values; negative values are
measured from `-d`. -/
def signed (d : ℕ) (f : ℕ → ℕ) (x : ℤ) : ℤ :=
  if x < 0 then -(f (-x - d).toNat : ℤ) else f x.toNat

@[simp] theorem signed_natCast (d : ℕ) (f : ℕ → ℕ) (n : ℕ) : signed d f n = f n := by
  rw [signed, if_neg (by omega), Int.toNat_natCast]

/-- The reflection at the middle between `-d` and zero. -/
theorem signed_reflect {d n : ℕ} (f : ℕ → ℕ) (h : 0 < d + n) :
    signed d f (-d - n) = -(f n : ℤ) := by
  rw [signed, if_pos (by omega)]
  congr 3
  omega

theorem signed_mono {d : ℕ} {f : ℕ → ℕ} (hf : Monotone f) {x y : ℤ} (h : x ≤ y) :
    signed d f x ≤ signed d f y := by
  rw [signed, signed]
  split
  case isTrue hx =>
    split
    case isTrue hy => exact Int.neg_le_neg (Int.ofNat_le.mpr (hf (by omega)))
    case isFalse hy => omega
  case isFalse hx =>
    rw [if_neg (by omega)]
    exact Int.ofNat_le.mpr (hf (by omega))

end Companding
