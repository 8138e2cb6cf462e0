import Oslec.Canceller.TopBit
import Oslec.Library.Companding

/-!
The codecs of G.711, as `g711.h` has them: the line that the canceller works on
carries one byte for each sample. The segment of a sample comes out of the same
`top_bit` as the step size of the adaption.
-/

namespace Oslec

open Companding

/-! ### u-law and A-law -/

def ulawBias : BitVec 32 := 0x84#32

def linearToUlaw (linear : BitVec 32) : BitVec 8 :=
  let mask : BitVec 32 := if linear.slt 0#32 then 0x7F#32 else 0xFF#32
  let linear := if linear.slt 0#32 then ulawBias - linear else ulawBias + linear
  let seg := topBit (linear ||| 0xFF#32) - 7
  if 8 ≤ seg then (0x7F#32 ^^^ mask).setWidth 8
  else
    ((BitVec.ofInt 32 seg <<< 4 ||| (linear.sshiftRight (seg + 3).toNat &&& 0xF#32)) ^^^
      mask).setWidth 8

def ulawToLinear (ulaw : BitVec 8) : ℤ :=
  let ulaw := ~~~ulaw
  let t : ℕ := ((ulaw &&& 0x0F#8).toNat <<< 3 + 0x84) <<< ((ulaw &&& 0x70#8).toNat >>> 4)
  i16 (if ulaw &&& 0x80#8 ≠ 0#8 then 0x84 - t else t - 0x84)

def alawAmiMask : BitVec 32 := 0x55#32

def linearToAlaw (linear : BitVec 32) : BitVec 8 :=
  let mask := if linear.slt 0#32 then alawAmiMask else alawAmiMask ||| 0x80#32
  let linear := if linear.slt 0#32 then -linear - 8#32 else linear
  let seg := topBit (linear ||| 0xFF#32) - 7
  if 8 ≤ seg then
    if linear.slt 0#32 then (0x00#32 ^^^ mask).setWidth 8 else (0x7F#32 ^^^ mask).setWidth 8
  else
    ((BitVec.ofInt 32 seg <<< 4 |||
      (linear.sshiftRight (if seg ≠ 0 then seg + 3 else 4).toNat &&& 0x0F#32)) ^^^ mask).setWidth 8

def alawToLinear (alaw : BitVec 8) : ℤ :=
  let alaw := alaw ^^^ 0x55#8
  let i : ℕ := (alaw &&& 0x0F#8).toNat <<< 4
  let seg := (alaw &&& 0x70#8).toNat >>> 4
  let i : ℕ := if seg ≠ 0 then (i + 0x108) <<< (seg - 1) else i + 8
  i16 (if alaw &&& 0x80#8 ≠ 0#8 then i else -i)

/-- What a sample becomes on a u-law line. -/
def overUlaw (amp : ℤ) : ℤ := ulawToLinear (linearToUlaw (BitVec.ofInt 32 amp))

/-- `codec_munge` of the echo tests. -/
def codecMunge (amp : Int16) : Int16 := Int16.ofInt (overUlaw amp.toInt)

/-! ### The segment -/

/-- `top_bit(linear | 0xFF) - 7` counts the octaves above the first 256 values. -/
theorem segment_eq {m : ℕ} (hm : m < 2 ^ 32) :
    topBit (BitVec.ofNat 32 m ||| 0xFF#32) - 7 = octave 7 m := by
  have hnat : (BitVec.ofNat 32 m ||| 0xFF#32).toNat = m ||| 255 := by
    rw [BitVec.toNat_or, BitVec.toNat_ofNat, Nat.mod_eq_of_lt hm]
    rfl
  have hge : 255 ≤ m ||| 255 := Nat.right_le_or
  have hne : BitVec.ofNat 32 m ||| 0xFF#32 ≠ 0#32 := by
    intro hzero
    rw [hzero, BitVec.toNat_ofNat, Nat.zero_mod] at hnat
    omega
  have hlog : (m ||| 255).log2 = max 7 m.log2 := by
    rcases Nat.lt_or_ge m 256 with hsmall | hlarge
    · have hor : m ||| 255 < 2 ^ 8 := Nat.or_lt_two_pow hsmall (by decide)
      have hseven : (m ||| 255).log2 = 7 :=
        (Nat.log2_eq_iff (by omega)).mpr ⟨by omega, hor⟩
      have hm7 : m.log2 ≤ 7 := by
        rcases Nat.eq_zero_or_pos m with rfl | hpos
        · decide
        · exact Nat.lt_succ_iff.mp ((Nat.log2_lt hpos.ne').mpr hsmall)
      rw [hseven, max_eq_left hm7]
    · have hself := Nat.log2_self_le (n := m) (by omega)
      have hlt := @Nat.lt_log2_self m
      have hm7 : 7 ≤ m.log2 := (Nat.le_log2 (by omega)).mpr (by omega)
      have hor : m ||| 255 < 2 ^ (m.log2 + 1) :=
        Nat.or_lt_two_pow hlt (lt_of_lt_of_le (by decide : 255 < 2 ^ (7 + 1))
          (Nat.pow_le_pow_right (Nat.succ_pos 1) (by omega)))
      rw [max_eq_right hm7]
      exact (Nat.log2_eq_iff (by omega)).mpr ⟨hself.trans Nat.left_le_or, hor⟩
  rw [topBit_eq_log2 hne, hnat, hlog, octave]
  omega

/-- Segment and quantization bits side by side. -/
theorem segmentBits_eq {m s n : ℕ} (hm : m < 2 ^ 31) (hs : s < 8) :
    BitVec.ofInt 32 s <<< 4 ||| ((BitVec.ofNat 32 m).sshiftRight n &&& 0xF#32) =
      BitVec.ofNat 32 (16 * s + m / 2 ^ n % 16) := by
  have hmsb : (BitVec.ofNat 32 m).msb = false := by
    rw [BitVec.msb_eq_false_iff_two_mul_lt, BitVec.toNat_ofNat]
    omega
  have hbits : m / 2 ^ n % 16 < 2 ^ 4 := Nat.mod_lt _ (by decide)
  have hand : m >>> n &&& 15 = m / 2 ^ n % 16 := by
    rw [Nat.shiftRight_eq_div_pow]
    exact Nat.and_two_pow_sub_one_eq_mod _ 4
  rw [BitVec.sshiftRight_eq_of_msb_false hmsb, BitVec.ofInt_natCast]
  apply BitVec.eq_of_toNat_eq
  rw [BitVec.toNat_or, BitVec.toNat_and, BitVec.toNat_ushiftRight, BitVec.toNat_shiftLeft,
    BitVec.toNat_ofNat, BitVec.toNat_ofNat, BitVec.toNat_ofNat, BitVec.toNat_ofNat,
    Nat.mod_eq_of_lt (by omega : s < 2 ^ 32), Nat.mod_eq_of_lt (by omega : m < 2 ^ 32),
    Nat.mod_eq_of_lt (by decide : 0xF < 2 ^ 32), hand]
  generalize m / 2 ^ n % 16 = q at hbits ⊢
  rw [Nat.mod_eq_of_lt (by omega : 16 * s + q < 2 ^ 32), Nat.shiftLeft_eq,
    Nat.mod_eq_of_lt (by omega : s * 2 ^ 4 < 2 ^ 32), ← Nat.shiftLeft_eq,
    ← Nat.shiftLeft_add_eq_or_of_lt hbits, Nat.shiftLeft_eq]
  omega

/-! ### Bytes -/

/-- A byte of either code: the code of the magnitude, with the bits of `mask` inverted. -/
def byteOf (mask : BitVec 8) (c : ℕ) : BitVec 8 := BitVec.ofNat 8 c ^^^ mask

theorem setWidth_xor_ofNat (c : ℕ) (mask : BitVec 32) :
    (BitVec.ofNat 32 c ^^^ mask).setWidth 8 = byteOf (mask.setWidth 8) c := by
  rw [byteOf, BitVec.setWidth_xor, BitVec.setWidth_ofNat_of_le (by decide)]

theorem slt_ofInt {x : ℤ} (hlo : -2 ^ 31 ≤ x) (hhi : x < 2 ^ 31) :
    (BitVec.ofInt 32 x).slt 0#32 = decide (x < 0) := by
  have hx : (BitVec.ofInt 32 x).toInt = x := by
    rw [BitVec.toInt_ofInt]
    exact i32_of_bounds (by omega) (by omega)
  rw [BitVec.slt_eq_decide, hx]
  rfl

theorem byteOf_cases (mask b : BitVec 8) :
    ∃ c < 128, b = byteOf mask c ∨ b = byteOf (mask ^^^ 0x80#8) c := by
  have htop : ∀ v : BitVec 8, v.toNat < 128 ∨ (v ^^^ 0x80#8).toNat < 128 := by decide +kernel
  rcases htop (b ^^^ mask) with hlt | hlt
  · refine ⟨_, hlt, Or.inl ?_⟩
    rw [byteOf, BitVec.ofNat_toNat, BitVec.setWidth_eq, BitVec.xor_assoc, BitVec.xor_self,
      BitVec.xor_zero]
  · refine ⟨_, hlt, Or.inr ?_⟩
    rw [byteOf, BitVec.ofNat_toNat, BitVec.setWidth_eq, BitVec.xor_assoc b, BitVec.xor_assoc b,
      BitVec.xor_self, BitVec.xor_zero]

/-! ### u-law -/

/-- The u-law codes of the magnitudes, and the magnitude that each stands for. -/
def ulawCode : ℕ → ℕ := quantize 4 3 132 127

def ulawMiddle : ℕ → ℕ := middle 4 3 132

theorem firstCode_ulaw : firstCode 4 3 132 = 16 := by decide

theorem ulawBias_add (n : ℕ) : ulawBias + BitVec.ofNat 32 n = BitVec.ofNat 32 (n + 132) := by
  rw [Nat.add_comm, BitVec.ofNat_add]
  rfl

/-- The magnitude is biased. -/
theorem ulaw_magnitude {x : ℤ} (hlo : -2 ^ 31 + 133 ≤ x) (hhi : x < 2 ^ 31 - 132) :
    (if (BitVec.ofInt 32 x).slt 0#32 then ulawBias - BitVec.ofInt 32 x
      else ulawBias + BitVec.ofInt 32 x) = BitVec.ofNat 32 (x.natAbs + 132) := by
  rw [slt_ofInt (by omega) (by omega), ← ulawBias_add]
  by_cases hx : x < 0
  · have habs : x = -(x.natAbs : ℤ) := by omega
    rw [if_pos (by simpa using hx)]
    nth_rewrite 1 [habs]
    rw [BitVec.ofInt_neg, BitVec.ofInt_natCast, BitVec.sub_eq_add_neg, BitVec.neg_neg]
  · have habs : x = (x.natAbs : ℤ) := by omega
    rw [if_neg (by simpa using hx)]
    nth_rewrite 1 [habs]
    rw [BitVec.ofInt_natCast]

/-- Below the clipping level a segment and its bits are the code. -/
theorem ulawCode_eq {n : ℕ} (h : octave 7 (n + 132) < 8) :
    16 * octave 7 (n + 132) + (n + 132) / 2 ^ (octave 7 (n + 132) + 3) % 16 = ulawCode n := by
  have hcode := encode_div 4 3 (n + 132)
  have hlt := div_octave_lt (b := 4) ((n + 132) / 2 ^ 3)
  have hge : 16 ≤ (n + 132) / 2 ^ 3 / 2 ^ octave 4 ((n + 132) / 2 ^ 3) := by
    rcases Nat.eq_zero_or_pos (octave 4 ((n + 132) / 2 ^ 3)) with hzero | hpos
    · rw [hzero]
      omega
    · exact le_div_octave hpos
  rw [octave_div, Nat.div_div_eq_div_mul, ← pow_add, Nat.add_comm 3] at hlt hge
  rw [ulawCode, quantize, firstCode_ulaw, hcode]
  change octave (4 + 3) (n + 132) < 8 at h
  change 16 * octave (4 + 3) (n + 132) + _ / 2 ^ (octave (4 + 3) (n + 132) + 3) % 16 = _
  generalize (n + 132) / 2 ^ (octave (4 + 3) (n + 132) + 3) = q at hlt hge ⊢
  omega

/-- Above it the greatest code is used. -/
theorem ulawCode_of_clipped {n : ℕ} (h : 8 ≤ octave 7 (n + 132)) : ulawCode n = 127 := by
  have hcode := encode_div 4 3 (n + 132)
  change 8 ≤ octave (4 + 3) (n + 132) at h
  have hge := le_div_octave (b := 4) (k := (n + 132) / 2 ^ 3)
    (by rw [octave_div]; omega)
  rw [octave_div, Nat.div_div_eq_div_mul, ← pow_add, Nat.add_comm 3] at hge
  rw [ulawCode, quantize, firstCode_ulaw, hcode]
  generalize (n + 132) / 2 ^ (octave (4 + 3) (n + 132) + 3) = q at hge ⊢
  omega

theorem linearToUlaw_eq {x : ℤ} (hlo : -2 ^ 31 + 133 ≤ x) (hhi : x < 2 ^ 31 - 132) :
    linearToUlaw (BitVec.ofInt 32 x) =
      byteOf (if x < 0 then 0x7F#8 else 0xFF#8) (ulawCode x.natAbs) := by
  have hmask : (if (BitVec.ofInt 32 x).slt 0#32 then 0x7F#32 else 0xFF#32).setWidth 8 =
      if x < 0 then 0x7F#8 else 0xFF#8 := by
    rw [slt_ofInt (by omega) (by omega)]
    by_cases hx : x < 0
    · rw [if_pos (by simpa using hx), if_pos hx]
      rfl
    · rw [if_neg (by simpa using hx), if_neg hx]
      rfl
  have hm : x.natAbs + 132 < 2 ^ 31 := by omega
  rw [linearToUlaw]
  simp only [ulaw_magnitude hlo hhi, segment_eq (hm.trans (by decide))]
  split
  case isTrue hclip =>
    rw [ulawCode_of_clipped (by exact_mod_cast hclip), ← hmask]
    exact setWidth_xor_ofNat 127 _
  case isFalse hseg =>
    have hs : octave 7 (x.natAbs + 132) < 8 := by
      by_contra hge
      exact hseg (by exact_mod_cast Nat.le_of_not_lt hge)
    have hshift : ((octave 7 (x.natAbs + 132) : ℤ) + 3).toNat = octave 7 (x.natAbs + 132) + 3 := by
      omega
    rw [hshift, segmentBits_eq hm hs, setWidth_xor_ofNat, hmask, ulawCode_eq hs]

theorem ulawToLinear_eq {c : ℕ} (hc : c < 128) :
    ulawToLinear (byteOf 0xFF#8 c) = ulawMiddle c ∧
      ulawToLinear (byteOf 0x7F#8 c) = -(ulawMiddle c : ℤ) := by
  have hall : ∀ c < 128,
      ulawToLinear (byteOf 0xFF#8 c) =
        ((8 * decode 4 (c + 16) + 4 * 2 ^ shift 4 (c + 16) - 132 : ℕ) : ℤ) ∧
      ulawToLinear (byteOf 0x7F#8 c) =
        -((8 * decode 4 (c + 16) + 4 * 2 ^ shift 4 (c + 16) - 132 : ℕ) : ℤ) := by
    decide +kernel
  rw [ulawMiddle, middle, firstCode_ulaw]
  exact hall c hc

theorem ulaw_bias : 132 ≤ 2 ^ 3 * decode 4 (firstCode 4 3 132) + 2 ^ (3 - 1) := by decide

theorem ulawCode_middle {c : ℕ} (hc : c < 128) : ulawCode (ulawMiddle c) = c :=
  quantize_middle (by decide) ulaw_bias (Nat.lt_succ_iff.mp hc)

theorem ulawCode_lt (n : ℕ) : ulawCode n < 128 := Nat.lt_succ_iff.mpr (min_le_left _ _)

theorem ulawMiddle_le {c : ℕ} (hc : c < 128) : ulawMiddle c ≤ 32124 :=
  (middle_mono (by decide) ulaw_bias (Nat.lt_succ_iff.mp hc) (le_refl 127)).trans_eq (by decide)

theorem ulawMiddle_pos {c : ℕ} (h : 0 < c) (hc : c < 128) : 0 < ulawMiddle c :=
  lt_of_le_of_lt (Nat.zero_le _)
    (middle_strictMono (by decide) ulaw_bias h (Nat.lt_succ_iff.mp hc))

/-- There and back is rounding to the middles, on either side of zero. -/
theorem overUlaw_eq {x : ℤ} (hx : x.natAbs + 132 < 2 ^ 31) :
    overUlaw x = signed 0 (fun n => ulawMiddle (ulawCode n)) x := by
  obtain ⟨hpos, hneg⟩ := ulawToLinear_eq (ulawCode_lt x.natAbs)
  rw [overUlaw, linearToUlaw_eq (by omega) (by omega), signed]
  split
  case isTrue hx =>
    rw [hneg]
    congr 4
    omega
  case isFalse hx =>
    rw [hpos]
    congr 3
    omega

theorem linearToUlaw_toLinear (b : BitVec 8) :
    linearToUlaw (BitVec.ofInt 32 (ulawToLinear b)) = if b = 0x7F#8 then 0xFF#8 else b := by
  obtain ⟨c, hc, rfl | rfl⟩ := byteOf_cases 0xFF#8 b
  · have hle := ulawMiddle_le hc
    have hne : ∀ c < 128, byteOf 0xFF#8 c ≠ 0x7F#8 := by decide +kernel
    rw [(ulawToLinear_eq hc).1, linearToUlaw_eq (by omega) (by omega), if_neg (by omega),
      Int.natAbs_natCast, ulawCode_middle hc, if_neg (hne c hc)]
  · change linearToUlaw (BitVec.ofInt 32 (ulawToLinear (byteOf 0x7F#8 c))) =
      if byteOf 0x7F#8 c = 0x7F#8 then 0xFF#8 else byteOf 0x7F#8 c
    have hle := ulawMiddle_le hc
    rw [(ulawToLinear_eq hc).2, linearToUlaw_eq (by omega) (by omega), Int.natAbs_neg,
      Int.natAbs_natCast, ulawCode_middle hc]
    rcases Nat.eq_zero_or_pos c with rfl | hpos
    · rfl
    · have hmiddle := ulawMiddle_pos hpos hc
      have hne : ∀ c < 128, 0 < c → byteOf 0x7F#8 c ≠ 0x7F#8 := by decide +kernel
      rw [if_pos (by omega), if_neg (hne c hc hpos)]

/-- What is not clipped keeps its value up to a 32nd part. -/
theorem ulawMiddle_error {n : ℕ} (hn : n ≤ 32635) :
    32 * ((ulawMiddle (ulawCode n) : ℤ) - n).natAbs ≤ n + 132 := by
  have hcode : encode 4 ((n + 132) / 2 ^ 3) ≤ 127 + firstCode 4 3 132 :=
    (encode_mono (Nat.div_le_div_right (Nat.add_le_add_right hn 132))).trans_eq (by decide)
  refine (middle_error (by decide) ulaw_bias hcode).trans_eq (max_eq_right ?_)
  omega

theorem ulawCode_of_loud {n : ℕ} (hn : 32635 < n) : ulawCode n = 127 :=
  ulawCode_of_clipped (le_trans (by decide : 8 ≤ octave 7 32768) (octave_mono (by omega)))

theorem overUlaw_natCast {n : ℕ} (hn : n + 132 < 2 ^ 31) :
    overUlaw n = ulawMiddle (ulawCode n) := by
  rw [overUlaw_eq (by omega), signed_natCast]

theorem overUlaw_neg {x : ℤ} (hx : x.natAbs + 132 < 2 ^ 31) :
    overUlaw (-x) = -overUlaw x := by
  have hneg {n : ℕ} (hn : n + 132 < 2 ^ 31) : overUlaw (-n) = -overUlaw n := by
    rcases Nat.eq_zero_or_pos n with rfl | hpos
    · have hzero : overUlaw (0 : ℕ) = 0 := (overUlaw_natCast (by decide)).trans (by decide)
      rw [hzero, neg_zero, Nat.cast_zero, neg_zero]
      exact hzero
    · rw [overUlaw_eq (by omega), overUlaw_eq (by omega), signed_natCast]
      have hreflect := signed_reflect (fun n => ulawMiddle (ulawCode n)) (by omega : 0 < 0 + n)
      rwa [Nat.cast_zero, neg_zero, zero_sub] at hreflect
  rcases Int.natAbs_eq x with heq | heq
  · rw [heq]
    exact hneg hx
  · rw [heq, neg_neg, hneg hx, neg_neg]

theorem overUlaw_error {x : ℤ} (hsmall : x.natAbs ≤ 32635) :
    32 * (overUlaw x - x).natAbs ≤ x.natAbs + 132 := by
  have hx : x.natAbs + 132 < 2 ^ 31 := by omega
  rcases Int.natAbs_eq x with heq | heq
  · have herror := ulawMiddle_error hsmall
    rw [← overUlaw_natCast hx, ← heq] at herror
    exact herror
  · have herror := ulawMiddle_error hsmall
    rw [← overUlaw_natCast hx] at herror
    have hneg := overUlaw_neg (x := -x) (by omega)
    rw [neg_neg] at hneg
    rw [hneg]
    have habs : (x.natAbs : ℤ) = -x := by omega
    rw [habs] at herror
    omega

theorem overUlaw_of_loud {x : ℤ} (hx : x.natAbs + 132 < 2 ^ 31) (hloud : 32635 < x.natAbs) :
    overUlaw x = 32124 * x.sign := by
  have hcode := ulawCode_of_loud hloud
  have hlast : ulawMiddle 127 = 32124 := by decide
  rcases Int.natAbs_eq x with heq | heq
  · have hpos : 0 < x := by omega
    rw [Int.sign_eq_one_of_pos hpos, heq, overUlaw_natCast hx, hcode, hlast]
    rfl
  · have hneg : x < 0 := by omega
    rw [Int.sign_eq_neg_one_of_neg hneg, heq, overUlaw_neg (by omega), overUlaw_natCast hx,
      hcode, hlast]
    rfl

theorem overUlaw_bounds {x : ℤ} (hx : x.natAbs + 132 < 2 ^ 31) : (overUlaw x).natAbs ≤ 32124 := by
  rw [overUlaw_eq hx, signed]
  split
  · rw [Int.natAbs_neg, Int.natAbs_natCast]
    exact ulawMiddle_le (ulawCode_lt _)
  · rw [Int.natAbs_natCast]
    exact ulawMiddle_le (ulawCode_lt _)

theorem overUlaw_mono {x y : ℤ} (hx : x.natAbs + 132 < 2 ^ 31) (hy : y.natAbs + 132 < 2 ^ 31)
    (h : x ≤ y) : overUlaw x ≤ overUlaw y := by
  rw [overUlaw_eq hx, overUlaw_eq hy]
  exact signed_mono (middle_quantize_mono (by decide) ulaw_bias 127) h

theorem overUlaw_idem (x : ℤ) : overUlaw (overUlaw x) = overUlaw x := by
  show ulawToLinear (linearToUlaw (BitVec.ofInt 32 (ulawToLinear _))) = ulawToLinear _
  rw [linearToUlaw_toLinear]
  split
  case isTrue hb =>
    rw [hb]
    rfl
  case isFalse hb => rfl

/-- A sample fits the bias, and what it becomes is a sample. -/
theorem codecMunge_toInt (x : Int16) :
    x.toInt.natAbs + 132 < 2 ^ 31 ∧ (codecMunge x).toInt = overUlaw x.toInt := by
  have hlo := x.le_toInt
  have hhi := x.toInt_lt
  have hx : x.toInt.natAbs + 132 < 2 ^ 31 := by omega
  have hbound := overUlaw_bounds hx
  exact ⟨hx, Int16.toInt_ofInt_of_le (by omega) (by omega)⟩

/-- The least sample is the only one without a negative. -/
theorem codecMunge_neg {x : Int16} (hx : x ≠ Int16.minValue) :
    codecMunge (-x) = -codecMunge x := by
  have hlo := x.le_toInt
  have hhi := x.toInt_lt
  have hne : x.toInt ≠ -2 ^ 15 := fun heq => hx (Int16.toInt_inj.mp heq)
  obtain ⟨hsmall, hmunge⟩ := codecMunge_toInt x
  have hbound := overUlaw_bounds hsmall
  have hnegX : (-x).toInt = -x.toInt :=
    (Int16.toInt_neg x).trans (i16_of_bounds (by omega) (by omega))
  have hnegMunge : (-codecMunge x).toInt = -(codecMunge x).toInt :=
    (Int16.toInt_neg _).trans (i16_of_bounds (by omega) (by omega))
  apply Int16.toInt_inj.mp
  rw [(codecMunge_toInt (-x)).2, hnegX, overUlaw_neg hsmall, hnegMunge, hmunge]

theorem ulaw_round_trip (x y : Int16) :
    (x ≤ y → codecMunge x ≤ codecMunge y) ∧
    (x ≠ Int16.minValue → codecMunge (-x) = -codecMunge x) ∧
    codecMunge (codecMunge x) = codecMunge x ∧
    (x.toInt.natAbs ≤ 32635 →
      32 * ((codecMunge x).toInt - x.toInt).natAbs ≤ x.toInt.natAbs + 132) ∧
    (32635 < x.toInt.natAbs → (codecMunge x).toInt = 32124 * x.toInt.sign) ∧
    ∀ b, linearToUlaw (BitVec.ofInt 32 (ulawToLinear b)) = if b = 0x7F#8 then 0xFF#8 else b := by
  obtain ⟨hx, hmunge⟩ := codecMunge_toInt x
  obtain ⟨hy, hmungeY⟩ := codecMunge_toInt y
  refine ⟨?_, codecMunge_neg, ?_, ?_, ?_, linearToUlaw_toLinear⟩
  · intro h
    rw [Int16.le_iff_toInt_le] at h ⊢
    rw [hmunge, hmungeY]
    exact overUlaw_mono hx hy h
  · apply Int16.toInt_inj.mp
    rw [(codecMunge_toInt _).2, hmunge, overUlaw_idem]
  · intro hsmall
    rw [hmunge]
    exact overUlaw_error hsmall
  · intro hloud
    rw [hmunge]
    exact overUlaw_of_loud hx hloud

theorem ulaw_round_trip_loud :
    (codecMunge (-32700)).toInt = -32124 ∧ codecMunge (- -32700) = -codecMunge (-32700) := by
  obtain ⟨-, hneg, -, -, hloud, -⟩ := ulaw_round_trip (-32700) 0
  exact ⟨hloud (by decide), hneg (by decide)⟩

/-! ### A-law -/

def alawCode : ℕ → ℕ := quantize 4 4 0 127

def alawMiddle : ℕ → ℕ := middle 4 4 0

theorem firstCode_alaw : firstCode 4 4 0 = 0 := by decide

theorem alaw_bias : 0 ≤ 2 ^ 4 * decode 4 (firstCode 4 4 0) + 2 ^ (4 - 1) := Nat.zero_le _

/-- Negative values are measured from `-8`. -/
theorem alaw_magnitude {x : ℤ} (hlo : -2 ^ 31 < x) (hhi : x < 2 ^ 31) :
    (if (BitVec.ofInt 32 x).slt 0#32 then -BitVec.ofInt 32 x - 8#32 else BitVec.ofInt 32 x) =
      BitVec.ofInt 32 (if x < 0 then -x - 8 else x) := by
  rw [slt_ofInt (by omega) (by omega)]
  by_cases hx : x < 0
  · rw [if_pos (by simpa using hx), if_pos hx, BitVec.sub_eq_add_neg, Int.sub_eq_add_neg,
      BitVec.ofInt_add, BitVec.ofInt_neg, BitVec.ofInt_neg]
    rfl
  · rw [if_neg (by simpa using hx), if_neg hx]

/-- The first segment has steps as wide as those of the second. -/
theorem alawCode_eq {n : ℕ} (h : octave 7 n < 8) :
    16 * octave 7 n + n / 2 ^ (if octave 7 n ≠ 0 then octave 7 n + 3 else 4) % 16 =
      alawCode n := by
  have hcode := encode_div 4 4 n
  have hoct : octave (4 + 4) n = octave 7 n - 1 := Nat.sub_add_eq _ 7 1
  have hlt := div_octave_lt (b := 7) n
  have hge := le_div_octave (b := 7) (k := n)
  rw [alawCode, quantize, firstCode_alaw, Nat.sub_zero, Nat.add_zero n, hcode, hoct]
  rcases Nat.eq_zero_or_pos (octave 7 n) with hzero | hpos
  · rw [hzero] at hlt ⊢
    rw [if_neg (by decide)]
    omega
  · have hshift : octave 7 n - 1 + 4 = octave 7 n + 3 := by omega
    rw [if_pos hpos.ne', hshift, pow_add, ← Nat.div_div_eq_div_mul]
    generalize n / 2 ^ octave 7 n = q at hlt hge ⊢
    omega

theorem alawCode_of_clipped {n : ℕ} (h : 8 ≤ octave 7 n) : alawCode n = 127 := by
  have hcode := encode_div 4 4 n
  have hoct : octave (4 + 4) n = octave 7 n - 1 := Nat.sub_add_eq _ 7 1
  have hge := le_div_octave (b := 7) (k := n) (by omega)
  have hshift : octave 7 n - 1 + 4 = octave 7 n + 3 := by omega
  rw [alawCode, quantize, firstCode_alaw, Nat.sub_zero, Nat.add_zero n, hcode, hoct, hshift,
    pow_add, ← Nat.div_div_eq_div_mul]
  generalize n / 2 ^ octave 7 n = q at hge ⊢
  omega

/-- Just below zero all the upper bits are set, and the segment is out of range. -/
theorem topBit_of_neg {x : ℤ} (hlo : -8 ≤ x) (hhi : x < 0) :
    topBit (BitVec.ofInt 32 x ||| 0xFF#32) = 31 := by
  have hall : ∀ n : ℕ, n < 8 → topBit (BitVec.ofInt 32 (-(n : ℤ) - 1) ||| 0xFF#32) = 31 := by
    decide +kernel
  have hx : x = -((-x - 1).toNat : ℤ) - 1 := by omega
  rw [hx]
  exact hall _ (by omega)

theorem linearToAlaw_eq {x : ℤ} (hlo : -2 ^ 31 < x) (hhi : x < 2 ^ 31) :
    linearToAlaw (BitVec.ofInt 32 x) =
      byteOf (if x < 0 then 0x55#8 else 0xD5#8)
        (alawCode (if x < 0 then -x - 8 else x).toNat) := by
  have hmask : (if (BitVec.ofInt 32 x).slt 0#32 then alawAmiMask
      else alawAmiMask ||| 0x80#32).setWidth 8 = if x < 0 then 0x55#8 else 0xD5#8 := by
    rw [slt_ofInt (by omega) (by omega)]
    by_cases hx : x < 0
    · rw [if_pos (by simpa using hx), if_pos hx]
      rfl
    · rw [if_neg (by simpa using hx), if_neg hx]
      rfl
  obtain ⟨y, hy⟩ : ∃ y, y = if x < 0 then -x - 8 else x := ⟨_, rfl⟩
  have hylo : -8 ≤ y := by split at hy <;> omega
  have hyhi : y < 2 ^ 31 := by split at hy <;> omega
  rw [linearToAlaw]
  simp only [alaw_magnitude hlo hhi]
  rw [← hy]
  rcases lt_or_ge y 0 with hneg | hpos
  · have hslt : (BitVec.ofInt 32 y).slt 0#32 = true := by
      rw [slt_ofInt (by omega) hyhi]
      exact decide_eq_true hneg
    rw [topBit_of_neg hylo hneg, if_pos (by decide), if_pos hslt, ← hmask,
      Int.toNat_of_nonpos hneg.le]
    exact setWidth_xor_ofNat 0 _
  · obtain ⟨n, rfl⟩ := Int.eq_ofNat_of_zero_le hpos
    have hn : n < 2 ^ 31 := by omega
    have hslt : (BitVec.ofInt 32 (n : ℤ)).slt 0#32 = false := by
      rw [slt_ofInt (by omega) hyhi]
      exact decide_eq_false (by omega)
    rw [hslt, BitVec.ofInt_natCast, segment_eq (hn.trans (by decide)), Int.toNat_natCast]
    split
    case isTrue hclip =>
      rw [if_neg (by decide), alawCode_of_clipped (by exact_mod_cast hclip), ← hmask]
      exact setWidth_xor_ofNat 127 _
    case isFalse hseg =>
      have hs : octave 7 n < 8 := by
        by_contra hge
        exact hseg (by exact_mod_cast Nat.le_of_not_lt hge)
      have hshift : (if (octave 7 n : ℤ) ≠ 0 then (octave 7 n : ℤ) + 3 else 4).toNat =
          if octave 7 n ≠ 0 then octave 7 n + 3 else 4 := by
        split <;> split <;> omega
      rw [hshift, segmentBits_eq hn hs, setWidth_xor_ofNat, hmask, alawCode_eq hs]

theorem alawToLinear_eq {c : ℕ} (hc : c < 128) :
    alawToLinear (byteOf 0xD5#8 c) = alawMiddle c ∧
      alawToLinear (byteOf 0x55#8 c) = -(alawMiddle c : ℤ) := by
  have hall : ∀ c < 128,
      alawToLinear (byteOf 0xD5#8 c) =
        ((16 * decode 4 (c + 0) + 8 * 2 ^ shift 4 (c + 0) - 0 : ℕ) : ℤ) ∧
      alawToLinear (byteOf 0x55#8 c) =
        -((16 * decode 4 (c + 0) + 8 * 2 ^ shift 4 (c + 0) - 0 : ℕ) : ℤ) := by
    decide +kernel
  rw [alawMiddle, middle, firstCode_alaw]
  exact hall c hc

theorem alawCode_lt (n : ℕ) : alawCode n < 128 := Nat.lt_succ_iff.mpr (min_le_left _ _)

theorem alawMiddle_le {c : ℕ} (hc : c < 128) : alawMiddle c ≤ 32256 :=
  (middle_mono (by decide) alaw_bias (Nat.lt_succ_iff.mp hc) (le_refl 127)).trans_eq (by decide)

/-- No magnitude is zero. -/
theorem le_alawMiddle {c : ℕ} (hc : c < 128) : 8 ≤ alawMiddle c :=
  le_trans (by decide : 8 ≤ alawMiddle 0)
    (middle_mono (by decide) alaw_bias (Nat.zero_le c) (Nat.lt_succ_iff.mp hc))

/-- What a sample becomes on an A-law line. -/
def overAlaw (amp : ℤ) : ℤ := alawToLinear (linearToAlaw (BitVec.ofInt 32 amp))

theorem overAlaw_eq {x : ℤ} (hlo : -2 ^ 31 < x) (hhi : x < 2 ^ 31) :
    overAlaw x = signed 8 (fun n => alawMiddle (alawCode n)) x := by
  obtain ⟨hpos, hneg⟩ := alawToLinear_eq (alawCode_lt (if x < 0 then -x - 8 else x).toNat)
  rw [overAlaw, linearToAlaw_eq hlo hhi, signed]
  by_cases hx : x < 0
  · rw [if_pos hx, if_pos hx, if_pos hx]
    rw [if_pos hx] at hneg
    exact hneg
  · rw [if_neg hx, if_neg hx, if_neg hx]
    rw [if_neg hx] at hpos
    exact hpos

theorem linearToAlaw_toLinear (b : BitVec 8) :
    linearToAlaw (BitVec.ofInt 32 (alawToLinear b)) = b := by
  obtain ⟨c, hc, rfl | rfl⟩ := byteOf_cases 0xD5#8 b
  · have hle := alawMiddle_le hc
    rw [(alawToLinear_eq hc).1, linearToAlaw_eq (by omega) (by omega), if_neg (by omega),
      if_neg (by omega), Int.toNat_natCast]
    exact congrArg (byteOf 0xD5#8) (quantize_middle (by decide) alaw_bias (by omega))
  · change linearToAlaw (BitVec.ofInt 32 (alawToLinear (byteOf 0x55#8 c))) = byteOf 0x55#8 c
    have hle := alawMiddle_le hc
    have hge := le_alawMiddle hc
    have hsub : (- -(alawMiddle c : ℤ) - 8).toNat = alawMiddle c - 8 := by omega
    rw [(alawToLinear_eq hc).2, linearToAlaw_eq (by omega) (by omega), if_pos (by omega),
      if_pos (by omega), hsub]
    exact congrArg (byteOf 0x55#8)
      (quantize_middle_sub (by decide) alaw_bias (by omega) (by decide) hge)

theorem alawMiddle_error {n : ℕ} (hn : n < 32768) :
    32 * ((alawMiddle (alawCode n) : ℤ) - n).natAbs ≤ max 256 n := by
  have hcode : encode 4 ((n + 0) / 2 ^ 4) ≤ 127 + firstCode 4 4 0 :=
    (encode_mono (Nat.div_le_div_right (Nat.lt_succ_iff.mp hn))).trans_eq (by decide)
  exact middle_error (by decide) alaw_bias hcode

theorem overAlaw_natCast {n : ℕ} (hn : n < 2 ^ 31) : overAlaw n = alawMiddle (alawCode n) := by
  rw [overAlaw_eq (by omega) (by omega), signed_natCast]

theorem overAlaw_reflect {n : ℕ} (hn : n + 8 < 2 ^ 31) : overAlaw (-8 - n) = -overAlaw n := by
  rw [overAlaw_eq (by omega) (by omega), overAlaw_eq (by omega) (by omega), signed_natCast]
  exact signed_reflect _ (Nat.add_pos_left (by decide) n)

theorem overAlaw_bounds {x : ℤ} (hlo : -2 ^ 31 < x) (hhi : x < 2 ^ 31) :
    8 ≤ (overAlaw x).natAbs ∧ (overAlaw x).natAbs ≤ 32256 := by
  rw [overAlaw_eq hlo hhi, signed]
  split
  · have hcode := alawCode_lt (-x - (8 : ℕ)).toNat
    rw [Int.natAbs_neg, Int.natAbs_natCast]
    exact ⟨le_alawMiddle hcode, alawMiddle_le hcode⟩
  · have hcode := alawCode_lt x.toNat
    rw [Int.natAbs_natCast]
    exact ⟨le_alawMiddle hcode, alawMiddle_le hcode⟩

/-- The mirrored sample is not clipped. -/
theorem overAlaw_error_of_neg {x : ℤ} (hneg : x ≤ -8) (hgt : -32776 < x) :
    32 * (overAlaw x - (x + 8)).natAbs ≤ max 256 (x + 8).natAbs := by
  obtain ⟨n, hn⟩ := Int.eq_ofNat_of_zero_le (by omega : 0 ≤ -8 - x)
  have hmirror : x = -8 - (n : ℤ) := by omega
  have herror := alawMiddle_error (n := n) (by omega)
  rw [← overAlaw_natCast (by omega)] at herror
  have hreflect := overAlaw_reflect (n := n) (by omega)
  rw [← hmirror] at hreflect
  have habs : (x + 8).natAbs = n := by omega
  have hdiff : (overAlaw x - (x + 8)).natAbs = (overAlaw n - n).natAbs := by omega
  rw [hdiff, habs]
  exact herror

theorem overAlaw_below_zero {x : ℤ} (hle : -8 ≤ x) (hneg : x < 0) : overAlaw x = -8 := by
  have hzero : (-x - (8 : ℕ)).toNat = 0 := by omega
  have hfirst : alawMiddle (alawCode 0) = 8 := by decide
  rw [overAlaw_eq (by omega) (by omega), signed, if_pos hneg, hzero, hfirst]
  rfl

/-- The two halves of the code mirror each other at `-4`. Negative samples come back
about 8 higher, and silence is not a value of the code. -/
theorem alaw_round_trip {x y : ℤ} (hx : -2 ^ 31 < x) (h : x ≤ y) (hy : y < 2 ^ 31) :
    overAlaw x ≤ overAlaw y ∧
    (0 ≤ x → x < 2 ^ 31 - 8 → overAlaw (-8 - x) = -overAlaw x) ∧
    8 ≤ (overAlaw x).natAbs ∧ (overAlaw x).natAbs ≤ 32256 ∧
    (0 ≤ x → x < 32768 → 32 * (overAlaw x - x).natAbs ≤ max 256 x.natAbs) ∧
    (x ≤ -8 → -32776 < x → 32 * (overAlaw x - (x + 8)).natAbs ≤ max 256 (x + 8).natAbs) ∧
    (-8 ≤ x → x < 0 → overAlaw x = -8) ∧
    ∀ b, linearToAlaw (BitVec.ofInt 32 (alawToLinear b)) = b := by
  obtain ⟨hmin, hmax⟩ := overAlaw_bounds hx (by omega)
  refine ⟨?_, ?_, hmin, hmax, ?_, overAlaw_error_of_neg, overAlaw_below_zero,
    linearToAlaw_toLinear⟩
  · rw [overAlaw_eq hx (by omega), overAlaw_eq (by omega) hy]
    exact signed_mono (middle_quantize_mono (by decide) alaw_bias 127) h
  · intro hpos hlt
    obtain ⟨n, rfl⟩ := Int.eq_ofNat_of_zero_le hpos
    exact overAlaw_reflect (by omega)
  · intro hpos hlt
    obtain ⟨n, rfl⟩ := Int.eq_ofNat_of_zero_le hpos
    rw [overAlaw_natCast (by omega), Int.natAbs_natCast]
    exact alawMiddle_error (by omega)

theorem alaw_round_trip_quiet :
    overAlaw (-1000) ≤ overAlaw (-8) ∧
      32 * (overAlaw (-1000) - (-1000 + 8)).natAbs ≤ max 256 (-1000 + 8 : ℤ).natAbs :=
  ⟨(alaw_round_trip (x := -1000) (y := -8) (by decide) (by decide) (by decide)).1,
    (alaw_round_trip (x := -1000) (y := -8) (by decide) (by decide) (by decide)).2.2.2.2.2.1
      (by decide) (by decide)⟩

end Oslec
