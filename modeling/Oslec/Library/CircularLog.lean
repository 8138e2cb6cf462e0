import Mathlib.Data.Nat.ModEq
import Mathlib.Logic.Function.Basic
import Mathlib.Tactic.Common

/-!
A log that is written round and round into `n` cells. The cells keep its last
`n` entries; a reader of an older entry finds a newer one in its place, a whole
number of rounds further on.
-/

/-- Every entry that has not been overwritten is in its cell. -/
def Keeps {α : Type*} (n : ℕ) (mem : ℕ → α) (log : List α) : Prop :=
  ∀ i a, log[i]? = some a → log.length ≤ i + n → mem (i % n) = a

section

variable {α : Type*} {n : ℕ} {mem : ℕ → α} {log : List α}

theorem keeps_nil : Keeps n mem [] := fun i a h => by simp at h

/-- The next entry goes into the next cell. -/
theorem Keeps.push (h : Keeps n mem log) (a : α) :
    Keeps n (Function.update mem (log.length % n) a) (log ++ [a]) := by
  intro i b hb hlast
  rw [List.length_append, List.length_singleton] at hlast
  rcases Nat.lt_trichotomy i log.length with hlt | heq | hgt
  · -- less than a round lies between the two entries
    have hne : i % n ≠ log.length % n := by
      intro heq
      have hdvd : n ∣ log.length - i := (Nat.modEq_iff_dvd' (Nat.le_of_lt hlt)).mp heq
      have hle := Nat.le_of_dvd (by omega) hdvd
      omega
    rw [List.getElem?_append_left hlt] at hb
    rw [Function.update_of_ne hne]
    exact h i b hb (by omega)
  · rw [heq, List.getElem?_concat_length] at hb
    rw [heq, Function.update_self]
    exact Option.some.inj hb
  · rw [List.getElem?_eq_none (by rw [List.length_append, List.length_singleton]; omega)] at hb
    cases hb

/-- What a cell holds is the newest entry that belongs there. -/
theorem Keeps.exists_round (h : Keeps n mem log) (hn : 0 < n) {i : ℕ} (hi : i < log.length) :
    ∃ k, log[i + k * n]? = some (mem (i % n)) ∧ (log.length ≤ i + n → k = 0) := by
  have hround := Nat.div_mul_le_self (log.length - 1 - i) n
  have hrest := Nat.lt_div_mul_add (a := log.length - 1 - i) hn
  have hlt : i + (log.length - 1 - i) / n * n < log.length := by omega
  refine ⟨(log.length - 1 - i) / n, ?_, fun hlast => Nat.div_eq_of_lt (by omega)⟩
  have hcell := h _ _ (List.getElem?_eq_getElem hlt) (by omega)
  rw [List.getElem?_eq_getElem hlt, ← hcell, Nat.add_mul_mod_self_right]

end
