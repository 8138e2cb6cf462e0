import Oslec.Library.WordBits

/-!
The bit reversals of `bit_operations.h` and `bit_operations.c` against the loops of
`bit_operations_tests.c`. All of them exchange blocks of bits; `bit_reverse_4bytes`
exchanges the nibbles of the whole word without a mask, so that the nibbles of
neighbouring bytes run into each other.
-/

namespace Oslec

open WordBits

/-! ### The functions -/

/-- `bit_reverse8` where multiplication is fast. -/
def bitReverse8X86 (x : BitVec 8) : BitVec 8 :=
  let x := x.setWidth 32
  ((((x * 0x0802#32 &&& 0x22110#32) ||| (x * 0x8020#32 &&& 0x88440#32)) * 0x10101#32) >>>
    16).setWidth 8

def bitReverse8 (x : BitVec 8) : BitVec 8 :=
  let x := (x >>> 4) ||| (x <<< 4)
  let x := exchange 0xCC#8 0x33#8 2 x
  exchange 0xAA#8 0x55#8 1 x

def bitReverse16 (x : BitVec 16) : BitVec 16 :=
  let x := (x >>> 8) ||| (x <<< 8)
  let x := exchange 0xF0F0#16 0x0F0F#16 4 x
  let x := exchange 0xCCCC#16 0x3333#16 2 x
  exchange 0xAAAA#16 0x5555#16 1 x

def bitReverse32 (x : BitVec 32) : BitVec 32 :=
  let x := (x >>> 16) ||| (x <<< 16)
  let x := exchange 0xFF00FF00#32 0x00FF00FF#32 8 x
  let x := exchange 0xF0F0F0F0#32 0x0F0F0F0F#32 4 x
  let x := exchange 0xCCCCCCCC#32 0x33333333#32 2 x
  exchange 0xAAAAAAAA#32 0x55555555#32 1 x

def bitReverse4Bytes (x : BitVec 32) : BitVec 32 :=
  let x := (x >>> 4) ||| (x <<< 4)
  let x := exchange 0xCCCCCCCC#32 0x33333333#32 2 x
  exchange 0xAAAAAAAA#32 0x55555555#32 1 x

/-- The loop of the test keeps its result in an `int`. -/
def bitReverse8Dumb (data : BitVec 8) : BitVec 8 :=
  (reverseLoop 1#32 8 0#32 (data.setWidth 32)).setWidth 8

def bitReverse4BytesDumb (data : BitVec 32) : BitVec 32 := reverseLoop 0x01010101#32 8 0#32 data

def bitReverse16Dumb (data : BitVec 16) : BitVec 16 := reverseLoop 1#16 16 0#16 data

def bitReverse32Dumb (data : BitVec 32) : BitVec 32 := reverseLoop 1#32 32 0#32 data

/-- The words that the test of `bit_reverse_4bytes` tries. -/
def fourBytes (i : BitVec 8) : BitVec 32 :=
  let i := i.setWidth 32
  i ||| (i <<< 8) ||| (i <<< 16) ||| (i <<< 24)

/-! ### The masks -/

theorem halves_AA : Halves 0xAA#8 0x55#8 0 := ⟨by decide, by decide, by decide⟩

theorem halves_CC : Halves 0xCC#8 0x33#8 1 := ⟨by decide, by decide, by decide⟩

theorem halves_AAAA : Halves 0xAAAA#16 0x5555#16 0 := ⟨by decide, by decide, by decide⟩

theorem halves_CCCC : Halves 0xCCCC#16 0x3333#16 1 := ⟨by decide, by decide, by decide⟩

theorem halves_F0F0 : Halves 0xF0F0#16 0x0F0F#16 2 := ⟨by decide, by decide, by decide⟩

theorem halves_AAAAAAAA : Halves 0xAAAAAAAA#32 0x55555555#32 0 := ⟨by decide, by decide, by decide⟩

theorem halves_CCCCCCCC : Halves 0xCCCCCCCC#32 0x33333333#32 1 := ⟨by decide, by decide, by decide⟩

theorem halves_F0F0F0F0 : Halves 0xF0F0F0F0#32 0x0F0F0F0F#32 2 := ⟨by decide, by decide, by decide⟩

theorem halves_FF00FF00 : Halves 0xFF00FF00#32 0x00FF00FF#32 3 := ⟨by decide, by decide, by decide⟩

/-! ### Reversals -/

theorem bitReverse8_reversed (x : BitVec 8) : Reversed 8 x (bitReverse8 x) := by
  have hmoves := ((moves_exchange_halves (j := 2) rfl rfl x).trans
    (moves_exchange halves_CC rfl _)).trans (moves_exchange halves_AA rfl _)
  exact hmoves.reversed (by decide)

theorem bitReverse16_reversed (x : BitVec 16) : Reversed 16 x (bitReverse16 x) := by
  have hmoves := (((moves_exchange_halves (j := 3) rfl rfl x).trans
    (moves_exchange halves_F0F0 rfl _)).trans (moves_exchange halves_CCCC rfl _)).trans
    (moves_exchange halves_AAAA rfl _)
  exact hmoves.reversed (by decide)

theorem bitReverse32_reversed (x : BitVec 32) : Reversed 32 x (bitReverse32 x) := by
  have hmoves := ((((moves_exchange_halves (j := 4) rfl rfl x).trans
    (moves_exchange halves_FF00FF00 rfl _)).trans (moves_exchange halves_F0F0F0F0 rfl _)).trans
    (moves_exchange halves_CCCCCCCC rfl _)).trans (moves_exchange halves_AAAAAAAA rfl _)
  exact hmoves.reversed (by decide)

theorem bitReverse8X86_eq (x : BitVec 8) : bitReverse8X86 x = bitReverse8 x := by
  have hall : ∀ x : BitVec 8, bitReverse8X86 x = bitReverse8 x := by decide +kernel
  exact hall x

/-- The result stays within its lowest eight bits. -/
theorem bitReverse8Dumb_reversed (x : BitVec 8) : Reversed 8 x (bitReverse8Dumb x) := by
  have hstart : ReversedUpTo 32 0 (x.setWidth 32) 0#32 := by
    intro i _
    rw [BitVec.getLsbD_zero, decide_eq_false (Nat.not_lt_zero _), Bool.false_and]
  have hend : ReversedUpTo 32 (0 + 8) (x.setWidth 32)
      (reverseLoop 1#32 8 0#32 (x.setWidth 32 >>> 0)) :=
    hstart.loop (by decide) (by decide) 8 (by decide)
  intro i hi
  have hbit := hend i (by omega)
  rw [BitVec.ushiftRight_zero, BitVec.getLsbD_setWidth, Nat.mod_eq_of_lt (by omega : i < 32),
    decide_eq_true (by omega : i < 0 + 8), decide_eq_true (by omega : i - i + (0 + 8 - 1 - i) < 32),
    Bool.true_and, Bool.true_and] at hbit
  rw [bitReverse8Dumb, BitVec.getLsbD_setWidth, decide_eq_true hi, Bool.true_and, hbit,
    Nat.mod_eq_of_lt hi]

/-! ### Four bytes -/

/-- Whatever is set in a high nibble is set in the next byte, and whatever is set in a
low nibble in the byte before. -/
structure NibblesNested (x : BitVec 32) : Prop where
  high : ∀ i < 24, 4 ≤ i % 8 → x.getLsbD i = true → x.getLsbD (i + 8) = true
  low : ∀ i < 24, i % 8 < 4 → x.getLsbD (i + 8) = true → x.getLsbD i = true

/-- The index mirrored within its nibble. -/
def nibbleMirror (i : ℕ) : ℕ := flip 1 (flip 0 i)

/-- Mirroring a byte is mirroring its nibbles and exchanging them. -/
theorem nibbleMirror_spec : ∀ i < 32, nibbleMirror i < 32 ∧
    nibbleMirror (nibbleMirror i) = i ∧ i - i % 8 + (8 - 1 - i % 8) =
      if nibbleMirror i % 8 < 4 then nibbleMirror i + 4 else nibbleMirror i - 4 := by
  decide

theorem bitReverse4Bytes_getLsbD (x : BitVec 32) {i : ℕ} (hi : i < 32) :
    (bitReverse4Bytes x).getLsbD i = (x.getLsbD (nibbleMirror i + 4) ||
      (decide (4 ≤ nibbleMirror i) && x.getLsbD (nibbleMirror i - 4))) := by
  have hmoves : Moves nibbleMirror ((x >>> 4) ||| (x <<< 4)) (bitReverse4Bytes x) :=
    (moves_exchange halves_CCCCCCCC rfl _).trans (moves_exchange halves_AAAAAAAA rfl _)
  obtain ⟨hlt, hbit⟩ := hmoves i hi
  rw [hbit, BitVec.getLsbD_or, BitVec.getLsbD_ushiftRight, BitVec.getLsbD_shiftLeft,
    decide_eq_true hlt, Bool.true_and, Nat.add_comm 4, ← decide_not]
  simp only [Nat.not_lt]

/-- What comes in from both sides has to be what should come in from one. -/
theorem bitReverse4Bytes_reversed_iff_nibbles (x : BitVec 32) :
    Reversed 8 x (bitReverse4Bytes x) ↔ ∀ p < 32,
      (x.getLsbD (p + 4) || (decide (4 ≤ p) && x.getLsbD (p - 4))) =
        x.getLsbD (if p % 8 < 4 then p + 4 else p - 4) := by
  constructor
  · intro h p hp
    obtain ⟨hlt, hback, -⟩ := nibbleMirror_spec p hp
    have hbit := h _ hlt
    rw [bitReverse4Bytes_getLsbD x hlt, (nibbleMirror_spec _ hlt).2.2, hback] at hbit
    exact hbit
  · intro h i hi
    obtain ⟨hlt, -, hmirror⟩ := nibbleMirror_spec i hi
    rw [bitReverse4Bytes_getLsbD x hi, hmirror]
    exact h _ hlt

theorem bitReverse4Bytes_reversed_iff (x : BitVec 32) :
    Reversed 8 x (bitReverse4Bytes x) ↔ NibblesNested x := by
  rw [bitReverse4Bytes_reversed_iff_nibbles]
  constructor
  · intro h
    constructor
    · intro i hi hhigh hset
      have hbit := h (i + 4) (by omega)
      rw [if_pos (by omega), Nat.add_sub_cancel, hset, decide_eq_true (by omega)] at hbit
      simpa using hbit
    · intro i hi hlow hset
      have hbit := h (i + 4) (by omega)
      rw [if_neg (by omega), Nat.add_sub_cancel, hset, Bool.true_or] at hbit
      exact hbit.symm
  · intro h p hp
    split
    case isTrue hlow =>
      rcases Nat.lt_or_ge p 4 with hsmall | hge
      · rw [decide_eq_false (Nat.not_le.mpr hsmall), Bool.false_and, Bool.or_false]
      · have hnested := h.high (p - 4) (by omega) (by omega)
        rw [(by omega : p - 4 + 8 = p + 4)] at hnested
        rw [decide_eq_true hge, Bool.true_and]
        cases hbit : x.getLsbD (p - 4) with
        | false => rw [Bool.or_false]
        | true => rw [hnested hbit, Bool.or_true]
    case isFalse hhigh =>
      rw [decide_eq_true (by omega : 4 ≤ p), Bool.true_and]
      rcases Nat.lt_or_ge (p + 4) 32 with hin | hout
      · have hnested := h.low (p - 4) (by omega) (by omega)
        rw [(by omega : p - 4 + 8 = p + 4)] at hnested
        cases hbit : x.getLsbD (p + 4) with
        | false => rw [Bool.false_or]
        | true => rw [hnested hbit, Bool.true_or]
      · rw [BitVec.getLsbD_of_ge x (p + 4) hout, Bool.false_or]

theorem bitReverse4BytesDumb_reversed (x : BitVec 32) :
    Reversed 8 x (bitReverse4BytesDumb x) :=
  reversed_reverseLoop (by decide) (by decide) x

theorem fourBytes_nested (i : BitVec 8) : NibblesNested (fourBytes i) := by
  have hall : ∀ i : BitVec 8, ∀ j < 24,
      (fourBytes i).getLsbD (j + 8) = (fourBytes i).getLsbD j := by decide +kernel
  constructor
  · intro j hj _ hset
    rw [hall i j hj]
    exact hset
  · intro j hj _ hset
    rw [← hall i j hj]
    exact hset

/-- All the words that the test tries on `bit_reverse_4bytes` have nested nibbles. -/
theorem bit_reversals_agree :
    (∀ x : BitVec 8, bitReverse8X86 x = bitReverse8 x ∧ bitReverse8 x = bitReverse8Dumb x ∧
      bitReverse8 x = x.reverse) ∧
    (∀ x : BitVec 16, bitReverse16 x = bitReverse16Dumb x ∧ bitReverse16 x = x.reverse) ∧
    (∀ x : BitVec 32, bitReverse32 x = bitReverse32Dumb x ∧ bitReverse32 x = x.reverse) ∧
    (∀ x : BitVec 32, bitReverse4Bytes x = bitReverse4BytesDumb x ↔ NibblesNested x) ∧
    ∀ i : BitVec 8, bitReverse4Bytes (fourBytes i) = bitReverse4BytesDumb (fourBytes i) := by
  have hbytes : ∀ x : BitVec 32, bitReverse4Bytes x = bitReverse4BytesDumb x ↔
      NibblesNested x := by
    intro x
    rw [← bitReverse4Bytes_reversed_iff]
    constructor
    · intro heq
      rw [heq]
      exact bitReverse4BytesDumb_reversed x
    · intro h
      exact h.unique (bitReverse4BytesDumb_reversed x)
  refine ⟨?_, ?_, ?_, hbytes, fun i => (hbytes _).mpr (fourBytes_nested i)⟩
  · intro x
    exact ⟨bitReverse8X86_eq x, (bitReverse8_reversed x).unique (bitReverse8Dumb_reversed x),
      (bitReverse8_reversed x).unique (reversed_reverse x)⟩
  · intro x
    exact ⟨(bitReverse16_reversed x).unique (reversed_reverseLoop (by decide) (by decide) x),
      (bitReverse16_reversed x).unique (reversed_reverse x)⟩
  · intro x
    exact ⟨(bitReverse32_reversed x).unique (reversed_reverseLoop (by decide) (by decide) x),
      (bitReverse32_reversed x).unique (reversed_reverse x)⟩

end Oslec
