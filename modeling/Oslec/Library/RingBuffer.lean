import Mathlib.Data.List.Nodup
import Mathlib.Data.List.Rotate
import Mathlib.Data.Nat.ModEq
import Mathlib.Tactic.Common

/-!
Ring buffers as shift registers. A ring of `n` cells is written at a position
that moves downwards and wraps; read upwards from the cell after the position
it lists the last `n` values pushed, most recent first.
-/

/-- A ring of `n` cells together with its write position. -/
structure RingBuffer (α : Type*) (n : ℕ) where
  cells : List α
  pos : ℕ
  length_cells : cells.length = n
  pos_lt : pos < n

namespace RingBuffer

variable {α : Type*} {n : ℕ}

/-- The position after one write. -/
def retreat (n pos : ℕ) : ℕ := if pos = 0 then n - 1 else pos - 1

theorem retreat_lt {n pos : ℕ} (h : pos < n) : retreat n pos < n := by
  unfold retreat
  split <;> omega

theorem retreat_add_one_mod {n pos : ℕ} (h : pos < n) : (retreat n pos + 1) % n = pos := by
  unfold retreat
  split
  · have hn : n - 1 + 1 = n := by omega
    rw [hn, Nat.mod_self]
    omega
  · have hp : pos - 1 + 1 = pos := by omega
    rw [hp, Nat.mod_eq_of_lt h]

/-- After `m` writes the position is `m` cells further down, around the ring. -/
theorem iterate_retreat_add_mod {n : ℕ} (m : ℕ) {pos : ℕ} (h : pos < n) :
    ((retreat n)^[m] pos + m) % n = pos := by
  induction m generalizing pos with
  | zero => simpa using Nat.mod_eq_of_lt h
  | succ m ih =>
      rw [Function.iterate_succ_apply, ← Nat.add_assoc, Nat.add_mod, ih (retreat_lt h),
        ← retreat_add_one_mod h, Nat.add_mod (retreat n pos)]
      simp [Nat.mod_eq_of_lt (retreat_lt h), retreat_add_one_mod h]

theorem iterate_retreat_lt {n : ℕ} (m : ℕ) {pos : ℕ} (h : pos < n) :
    (retreat n)^[m] pos < n := by
  induction m generalizing pos with
  | zero => exact h
  | succ m ih => exact ih (retreat_lt h)

/-- Two numbers of writes end at the same position exactly when they differ by
whole turns around the ring. -/
theorem iterate_retreat_eq_iff {n p : ℕ} (h : p < n) (m m' : ℕ) :
    (retreat n)^[m] p = (retreat n)^[m'] p ↔ m ≡ m' [MOD n] := by
  have hm := iterate_retreat_add_mod m h
  have hm' := iterate_retreat_add_mod m' h
  constructor
  · intro heq
    rw [heq] at hm
    exact Nat.ModEq.add_left_cancel' _ (hm.trans hm'.symm)
  · intro hmod
    have hsum : (retreat n)^[m] p + m ≡ (retreat n)^[m'] p + m' [MOD n] := hm.trans hm'.symm
    have hpos : (retreat n)^[m] p ≡ (retreat n)^[m'] p [MOD n] :=
      Nat.ModEq.add_right_cancel hmod hsum
    exact Nat.ModEq.eq_of_lt_of_lt hpos (iterate_retreat_lt m h) (iterate_retreat_lt m' h)

/-- Further writes change nothing exactly when they are whole turns. -/
theorem iterate_retreat_add_eq_iff {n p : ℕ} (h : p < n) (m c : ℕ) :
    (retreat n)^[m + c] p = (retreat n)^[c] p ↔ n ∣ m := by
  rw [iterate_retreat_eq_iff h, ← Nat.modEq_zero_iff_dvd]
  constructor
  · intro hmod
    refine Nat.ModEq.add_right_cancel' c ?_
    rwa [Nat.zero_add]
  · intro hmod
    have hsum := hmod.add_right c
    rwa [Nat.zero_add] at hsum

/-- The ring whose cells all hold `a`. -/
def fill (a : α) {pos : ℕ} (h : pos < n) : RingBuffer α n where
  cells := List.replicate n a
  pos := pos
  length_cells := List.length_replicate
  pos_lt := h

def push (r : RingBuffer α n) (a : α) : RingBuffer α n where
  cells := r.cells.set r.pos a
  pos := retreat n r.pos
  length_cells := by rw [List.length_set, r.length_cells]
  pos_lt := retreat_lt r.pos_lt

/-- The contents of the ring as a shift register, most recent value first. -/
def window (r : RingBuffer α n) : List α := r.cells.rotate (r.pos + 1)

@[simp] theorem length_window (r : RingBuffer α n) : r.window.length = n := by
  rw [window, List.length_rotate, r.length_cells]

@[simp] theorem window_fill (a : α) {pos : ℕ} (h : pos < n) :
    (fill a h).window = List.replicate n a := List.rotate_replicate a n (pos + 1)

/-- The register entry `k` sits `k + 1` cells above the position. -/
theorem getElem?_window (r : RingBuffer α n) {k : ℕ} (hk : k < n) :
    r.window[k]? = r.cells[(r.pos + 1 + k) % n]? := by
  rw [window, List.getElem?_rotate (by rwa [r.length_cells]), r.length_cells, Nat.add_comm k]

/-- Between the write and the move of the position, entry `k` of the register
sits `k` cells above the position. -/
theorem window_push_eq_rotate (r : RingBuffer α n) (a : α) :
    (r.push a).window = (r.cells.set r.pos a).rotate r.pos := by
  have hlen : (r.cells.set r.pos a).length = n := by rw [List.length_set, r.length_cells]
  change (r.cells.set r.pos a).rotate (retreat n r.pos + 1) = _
  rw [← List.rotate_mod, hlen, retreat_add_one_mod r.pos_lt]

theorem getElem?_window_push (r : RingBuffer α n) (a : α) {k : ℕ} (hk : k < n) :
    (r.push a).window[k]? = (r.cells.set r.pos a)[(k + r.pos) % n]? := by
  have hlen : (r.cells.set r.pos a).length = n := by rw [List.length_set, r.length_cells]
  rw [window_push_eq_rotate, List.getElem?_rotate (by rwa [hlen]), hlen]

/-- The ring refines a shift register: a push enters at the head, and the
oldest value falls out at the end. -/
theorem window_push (r : RingBuffer α n) (a : α) :
    (r.push a).window = a :: r.window.dropLast := by
  have hpos := r.pos_lt
  have hcells := r.length_cells
  have hlength : (a :: r.window.dropLast).length = n := by
    simp only [List.length_cons, List.length_dropLast, length_window]
    omega
  ext k : 1
  by_cases hk : k < n
  · rw [getElem?_window_push r a hk]
    cases k with
    | zero => simp [Nat.mod_eq_of_lt hpos, hcells, hpos]
    | succ k =>
        have hne : (k + 1 + r.pos) % n ≠ r.pos := by
          by_cases hlt : k + 1 + r.pos < n
          · rw [Nat.mod_eq_of_lt hlt]; omega
          · rw [Nat.mod_eq_sub_mod (by omega), Nat.mod_eq_of_lt (by omega)]; omega
        have hpred : k < r.window.length - 1 := by rw [length_window]; omega
        rw [List.getElem?_set_ne hne.symm, List.getElem?_cons_succ, List.getElem?_dropLast,
          if_pos hpred, getElem?_window r (by omega)]
        congr 2
        omega
  · rw [List.getElem?_eq_none (by rw [length_window]; omega),
      List.getElem?_eq_none (by omega)]

/-- The cell at the position holds the oldest value of the register. -/
theorem getElem?_cells_pos (r : RingBuffer α n) : r.cells[r.pos]? = r.window[n - 1]? := by
  have hpos := r.pos_lt
  rw [getElem?_window r (by omega)]
  have hwrap : r.pos + 1 + (n - 1) = r.pos + n := by omega
  rw [hwrap, Nat.add_mod_right, Nat.mod_eq_of_lt hpos]

/-! ### Mirrored rings

A buffer that holds the cells twice in a row can be read from the position
without wrapping. -/

/-- Reading `n` cells upwards from `p` in the mirrored buffer. -/
theorem take_drop_mirror {l : List α} {p : ℕ} (hp : p ≤ l.length) :
    ((l ++ l).drop p).take l.length = l.rotate p := by
  rw [List.drop_append_of_le_length hp, List.take_append, List.length_drop,
    List.rotate_eq_drop_append_take hp]
  have hsub : l.length - (l.length - p) = p := by omega
  rw [hsub, List.take_of_length_le (by rw [List.length_drop]; omega)]

/-- Writing a value to both halves of a mirrored buffer mirrors the write. -/
theorem set_set_mirror (l : List α) {p : ℕ} (hp : p < l.length) (a : α) :
    ((l ++ l).set p a).set (p + l.length) a = l.set p a ++ l.set p a := by
  rw [List.set_append_left _ _ hp, List.set_append_right _ _ (by simp)]
  simp

end RingBuffer

/-! ### Loops that update an array in place -/

namespace List

variable {α : Type*}

theorem getElem?_foldl_modify (g : ℕ → α → α) {l : List ℕ} (hl : l.Nodup) (t : List α) (k : ℕ) :
    (l.foldl (fun t i => t.modify i (g i)) t)[k]? =
      if k ∈ l then t[k]?.map (g k) else t[k]? := by
  induction l generalizing t with
  | nil => simp
  | cons i l ih =>
      obtain ⟨hi, hl⟩ := List.nodup_cons.mp hl
      rw [List.foldl_cons, ih hl, List.getElem?_modify]
      by_cases hki : i = k
      · subst hki
        simp [hi]
      · simp [hki, Ne.symm hki]

/-- A loop that visits every index once and updates the entry there maps the
update over the array, whatever the order of the visits. -/
theorem foldl_modify_eq_mapIdx (g : ℕ → α → α) {l : List ℕ} (hl : l.Nodup) {t : List α}
    (hall : ∀ i < t.length, i ∈ l) :
    l.foldl (fun t i => t.modify i (g i)) t = t.mapIdx g := by
  ext k : 1
  rw [getElem?_foldl_modify g hl, List.getElem?_mapIdx]
  by_cases hk : k < t.length
  · rw [if_pos (hall k hk)]
  · rw [List.getElem?_eq_none (by omega)]
    simp

end List
