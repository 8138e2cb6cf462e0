import Mathlib.Data.List.Infix
import Mathlib.Tactic.Common

/-!
Double buffering. A producer fills one buffer while the one it has filled before
waits for a consumer, and takes that buffer back when it has filled its own. A
consumer that is never late takes the stream of the producer, buffer by buffer.
-/

/-- The two buffers, with what the consumer has taken and how often both sides
have moved on. -/
structure DoubleBuffer (α : Type*) where
  filling : List α
  full : List α
  swaps : ℕ
  takes : ℕ
  taken : List α

namespace DoubleBuffer

variable {α : Type*}

def empty : DoubleBuffer α := ⟨[], [], 0, 0, []⟩

def push (size : ℕ) (d : DoubleBuffer α) (a : α) : DoubleBuffer α :=
  if size ≤ d.filling.length + 1 then
    { d with filling := [], full := d.filling ++ [a], swaps := d.swaps + 1 }
  else { d with filling := d.filling ++ [a] }

def take (d : DoubleBuffer α) : DoubleBuffer α :=
  { d with takes := d.takes + 1, taken := d.taken ++ d.full }

/-- What is pushed stays in the buffer as long as it does not fill it. -/
theorem foldl_push_of_lt {size : ℕ} {d : DoubleBuffer α} {as : List α}
    (h : d.filling.length + as.length < size) :
    as.foldl (push size) d = { d with filling := d.filling ++ as } := by
  induction as generalizing d with
  | nil => simp
  | cons a as ih =>
      rw [List.length_cons] at h
      have hpush : d.push size a = { d with filling := d.filling ++ [a] } := if_neg (by omega)
      have hroom : (d.filling ++ [a]).length + as.length < size := by
        rw [List.length_append, List.length_singleton]
        omega
      rw [List.foldl_cons, hpush, ih hroom]
      simp

/-- The last of as many as fit swaps the buffers. -/
theorem foldl_push_of_eq {size : ℕ} {d : DoubleBuffer α} {as : List α} {a : α}
    (h : d.filling.length + as.length + 1 = size) :
    (as ++ [a]).foldl (push size) d =
      { d with filling := [], full := d.filling ++ (as ++ [a]), swaps := d.swaps + 1 } := by
  have hfull : size ≤ (d.filling ++ as).length + 1 := by
    rw [List.length_append]
    omega
  have hinit : as.foldl (push size) d = { d with filling := d.filling ++ as } :=
    foldl_push_of_lt (by omega)
  rw [List.foldl_append, hinit, List.foldl_cons, List.foldl_nil, push, if_pos hfull,
    List.append_assoc]

/-- The consumer comes after the swap that it waits for, and before the next one. -/
def InTime (d : DoubleBuffer α) : Prop := d.swaps = d.takes + 1

/-- What has been taken is the head of the stream; the rest of it is in the
buffers as long as the consumer keeps up. -/
structure Conserves (size : ℕ) (d : DoubleBuffer α) (stream : List α) : Prop where
  filling_lt : d.filling.length < size
  takes_le : d.takes ≤ d.swaps
  length_taken : d.taken.length = d.takes * size
  length_full : 0 < d.swaps → d.full.length = size
  taken : d.taken <+: stream
  caughtUp : d.swaps = d.takes → stream = d.taken ++ d.filling
  waiting : d.InTime → stream = d.taken ++ d.full ++ d.filling

theorem conserves_empty {size : ℕ} (h : 0 < size) : Conserves size (empty : DoubleBuffer α) [] where
  filling_lt := h
  takes_le := le_refl 0
  length_taken := (Nat.zero_mul size).symm
  length_full := fun h => absurd h (Nat.lt_irrefl 0)
  taken := List.prefix_refl []
  caughtUp := fun _ => rfl
  waiting := fun h => by cases h

section

variable {size : ℕ} {d : DoubleBuffer α} {stream : List α} (h : d.Conserves size stream)

include h

theorem Conserves.push (a : α) : (d.push size a).Conserves size (stream ++ [a]) := by
  have htaken : d.taken <+: stream ++ [a] := h.taken.trans (List.prefix_append _ _)
  have hlt := h.filling_lt
  have hle := h.takes_le
  rw [DoubleBuffer.push]
  split
  case isTrue hfull =>
    refine ⟨?_, Nat.le_succ_of_le hle, h.length_taken, fun _ => ?_, htaken, ?_, ?_⟩
    · exact Nat.zero_lt_of_lt hlt
    · rw [List.length_append, List.length_singleton]
      omega
    · intro hswaps
      dsimp only at hswaps
      omega
    · -- the consumer had caught up before this swap
      intro hswaps
      have hcaught : d.swaps = d.takes := Nat.succ_injective hswaps
      rw [h.caughtUp hcaught, List.append_nil, List.append_assoc]
  case isFalse hfull =>
    refine ⟨?_, hle, h.length_taken, h.length_full, htaken, ?_, ?_⟩
    · rw [List.length_append, List.length_singleton]
      omega
    · intro hcaught
      rw [h.caughtUp hcaught, List.append_assoc]
    · intro htime
      rw [h.waiting htime, List.append_assoc]

theorem Conserves.take (htime : d.InTime) : d.take.Conserves size stream := by
  have hstream := h.waiting htime
  have hlength := h.length_full (htime ▸ Nat.succ_pos _)
  refine ⟨h.filling_lt, htime.ge, ?_, h.length_full, ?_, fun _ => hstream, ?_⟩
  · change (d.taken ++ d.full).length = (d.takes + 1) * size
    rw [List.length_append, h.length_taken, hlength, Nat.succ_mul]
  · rw [hstream]
    exact List.prefix_append _ _
  · intro hnext
    have hswaps : d.swaps = d.takes + 1 + 1 := hnext
    rw [htime] at hswaps
    omega

end

theorem Conserves.foldl_push {size : ℕ} {d : DoubleBuffer α} {stream : List α}
    (h : d.Conserves size stream) (as : List α) :
    (as.foldl (DoubleBuffer.push size) d).Conserves size (stream ++ as) := by
  induction as generalizing d stream with
  | nil =>
      rw [List.append_nil]
      exact h
  | cons a as ih =>
      rw [List.foldl_cons, List.append_cons]
      exact ih (h.push a)

end DoubleBuffer
