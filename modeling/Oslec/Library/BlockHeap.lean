import Mathlib.Data.Finset.Basic
import Mathlib.Data.List.ReduceOption
import Mathlib.Logic.Function.Basic
import Mathlib.Tactic.Common

/-!
Heaps of blocks with pointers that may be `NULL`. An allocation succeeds or
fails as its environment says; a pointer that does not name a live block cannot
be read, written or freed, and an operation that tries has no result. Addresses
are handed out in order and never again, so that what an allocation changes is
told apart from everything older by comparing addresses. A heap is free of leaks
when its blocks are divided among owners.
-/

/-- The live blocks by address. -/
structure BlockHeap (β : Type*) where
  cells : ℕ → Option β
  next : ℕ
  fresh : ∀ a, next ≤ a → cells a = none

namespace BlockHeap

variable {β : Type*}

def empty : BlockHeap β where
  cells := fun _ => none
  next := 0
  fresh := fun _ _ => rfl

theorem lt_next {m : BlockHeap β} {a : ℕ} {b : β} (h : m.cells a = some b) : a < m.next := by
  by_contra hge
  rw [m.fresh a (by omega)] at h
  cases h

/-- The heap with one more block, at the next address. -/
def push (m : BlockHeap β) (b : β) : BlockHeap β where
  cells := Function.update m.cells m.next (some b)
  next := m.next + 1
  fresh := by
    intro a ha
    rw [Function.update_of_ne (by omega), m.fresh a (by omega)]

/-- `malloc`: `NULL` where it fails. -/
def malloc (m : BlockHeap β) (fails : Bool) (b : β) : BlockHeap β × Option ℕ :=
  if fails then (m, none) else (m.push b, some m.next)

/-- The heap without the block at `a`. -/
def erase (m : BlockHeap β) (a : ℕ) : BlockHeap β where
  cells := Function.update m.cells a none
  next := m.next
  fresh := by
    intro x hx
    rw [Function.update_apply]
    split
    · rfl
    · exact m.fresh x hx

/-- `free`: nothing happens to `NULL`, and a block is freed once. -/
def free (m : BlockHeap β) : Option ℕ → Option (BlockHeap β)
  | none => some m
  | some a => (m.cells a).map fun _ => m.erase a

def load (m : BlockHeap β) (p : Option ℕ) : Option β := p.bind m.cells

/-- The heap with the block at `a` replaced, if there is one. -/
def set (m : BlockHeap β) (a : ℕ) (b : β) : BlockHeap β where
  cells := Function.update m.cells a ((m.cells a).map fun _ => b)
  next := m.next
  fresh := by
    intro x hx
    rw [Function.update_apply]
    split
    case isTrue hxa => rw [← hxa, m.fresh x hx, Option.map_none]
    case isFalse => exact m.fresh x hx

def store (m : BlockHeap β) (p : Option ℕ) (b : β) : Option (BlockHeap β) :=
  p.bind fun a => (m.cells a).map fun _ => m.set a b

/-! ### Reading a changed heap -/

variable (m : BlockHeap β) (a x : ℕ) (b : β)

@[simp] theorem malloc_true : m.malloc true b = (m, none) := rfl

@[simp] theorem malloc_false : m.malloc false b = (m.push b, some m.next) := rfl

@[simp] theorem next_push : (m.push b).next = m.next + 1 := rfl

@[simp] theorem cells_push : (m.push b).cells x = if x = m.next then some b else m.cells x :=
  Function.update_apply _ _ _ _

/-- Several allocations in a row. -/
def pushAll (m : BlockHeap β) (bs : List β) : BlockHeap β := bs.foldl push m

theorem cells_pushAll_of_lt {a : ℕ} (h : a < m.next) (bs : List β) :
    (m.pushAll bs).cells a = m.cells a := by
  induction bs generalizing m with
  | nil => rfl
  | cons b bs ih =>
      rw [pushAll, List.foldl_cons, ← pushAll, ih _ (Nat.lt_succ_of_lt h), cells_push,
        if_neg (by omega)]

/-- The blocks of a row of allocations lie next to each other. -/
theorem cells_pushAll_add (bs : List β) (i : ℕ) : (m.pushAll bs).cells (m.next + i) = bs[i]? := by
  induction bs generalizing m i with
  | nil => exact m.fresh _ (Nat.le_add_right _ _)
  | cons b bs ih =>
      rw [pushAll, List.foldl_cons, ← pushAll]
      cases i with
      | zero =>
          rw [cells_pushAll_of_lt _ (by rw [next_push]; omega), cells_push, if_pos (by omega)]
          rfl
      | succ i =>
          have hnext : m.next + (i + 1) = (m.push b).next + i := by rw [next_push]; omega
          rw [hnext, ih, List.getElem?_cons_succ]

@[simp] theorem free_none : m.free none = some m := rfl

@[simp] theorem next_erase : (m.erase a).next = m.next := rfl

@[simp] theorem cells_erase : (m.erase a).cells x = if x = a then none else m.cells x :=
  Function.update_apply _ _ _ _

@[simp] theorem load_none : m.load none = none := rfl

@[simp] theorem load_some : m.load (some a) = m.cells a := rfl

@[simp] theorem store_none : m.store none b = none := rfl

@[simp] theorem next_set : (m.set a b).next = m.next := rfl

theorem cells_set_of_ne {a x : ℕ} (h : x ≠ a) : (m.set a b).cells x = m.cells x :=
  Function.update_of_ne h _ _

variable {m a}

theorem cells_set_self {c : β} (h : m.cells a = some c) : (m.set a b).cells a = some b :=
  (Function.update_self _ _ _).trans (by rw [h, Option.map_some])

theorem store_eq {c : β} (h : m.cells a = some c) : m.store (some a) b = some (m.set a b) := by
  rw [store, Option.bind_some, h, Option.map_some]

theorem store_eq_some {p : Option ℕ} {m' : BlockHeap β} (h : m.store p b = some m') :
    ∃ a c, p = some a ∧ m.cells a = some c ∧ m' = m.set a b := by
  obtain ⟨a, rfl, hmap⟩ := Option.bind_eq_some_iff.mp h
  obtain ⟨c, hc, rfl⟩ := Option.map_eq_some_iff.mp hmap
  exact ⟨a, c, rfl, hc, rfl⟩

theorem free_eq {c : β} (h : m.cells a = some c) : m.free (some a) = some (m.erase a) := by
  rw [free, h, Option.map_some]

/-! ### Who owns what -/

section

variable {κ : Type*} (m : BlockHeap β)

/-- The block at `a` has been allocated and not freed. -/
def Live (a : ℕ) : Prop := (m.cells a).isSome

@[simp] theorem not_live_empty (a : ℕ) : ¬ (empty : BlockHeap β).Live a := Bool.false_ne_true

theorem Live.lt_next {m : BlockHeap β} {a : ℕ} (h : m.Live a) : a < m.next := by
  obtain ⟨b, hb⟩ := Option.isSome_iff_exists.mp h
  exact BlockHeap.lt_next hb

@[simp] theorem live_push (b : β) (a : ℕ) : (m.push b).Live a ↔ a = m.next ∨ m.Live a := by
  rw [Live, Live, cells_push]
  by_cases ha : a = m.next
  · simp [ha]
  · simp [ha]

@[simp] theorem live_erase (x a : ℕ) : (m.erase x).Live a ↔ m.Live a ∧ a ≠ x := by
  rw [Live, Live, cells_erase]
  by_cases ha : a = x
  · simp [ha]
  · simp [ha]

@[simp] theorem live_set (x : ℕ) (b : β) (a : ℕ) : (m.set x b).Live a ↔ m.Live a := by
  by_cases ha : a = x
  · subst ha
    change (Function.update m.cells a _ a).isSome = true ↔ (m.cells a).isSome = true
    rw [Function.update_self, Option.isSome_map]
  · rw [Live, Live, cells_set_of_ne _ b ha]

/-- The blocks behind a list of pointers are freed, one after the other. -/
def freeAll (ps : List (Option ℕ)) : Option (BlockHeap β) := ps.foldlM free m

/-- The heap without the blocks of a list. -/
def eraseAll (as : List ℕ) : BlockHeap β := as.foldl erase m

@[simp] theorem live_eraseAll (as : List ℕ) (a : ℕ) :
    (m.eraseAll as).Live a ↔ m.Live a ∧ a ∉ as := by
  induction as generalizing m with
  | nil => simp [eraseAll]
  | cons x as ih =>
      rw [eraseAll, List.foldl_cons, ← eraseAll, ih, live_erase, List.mem_cons, not_or, and_assoc]

theorem cells_eraseAll_of_notMem {as : List ℕ} {a : ℕ} (ha : a ∉ as) :
    (m.eraseAll as).cells a = m.cells a := by
  induction as generalizing m with
  | nil => rfl
  | cons x as ih =>
      rw [List.mem_cons, not_or] at ha
      rw [eraseAll, List.foldl_cons, ← eraseAll, ih _ ha.2, cells_erase, if_neg ha.1]

theorem next_eraseAll (as : List ℕ) : (m.eraseAll as).next = m.next := by
  induction as generalizing m with
  | nil => rfl
  | cons x as ih => exact ih (m.erase x)

theorem freeAll_concat (ps : List (Option ℕ)) (p : Option ℕ) :
    m.freeAll (ps ++ [p]) = (m.freeAll ps).bind (·.free p) := by
  rw [freeAll, List.foldlM_append]
  exact congrArg _ (funext fun m => bind_pure (m.free p))

/-- A row of pointers can be freed if and only if each of them is `NULL` or names
a live block, and none of the blocks is named twice. -/
theorem freeAll_eq_some_iff (ps : List (Option ℕ)) (m' : BlockHeap β) :
    m.freeAll ps = some m' ↔ (∀ a ∈ ps.reduceOption, m.Live a) ∧ ps.reduceOption.Nodup ∧
      m' = m.eraseAll ps.reduceOption := by
  induction ps generalizing m with
  | nil => simp [freeAll, eraseAll, eq_comm]
  | cons p ps ih =>
      rw [freeAll, List.foldlM_cons]
      cases p with
      | none => exact ih m
      | some a =>
          rw [List.reduceOption_cons_of_some, List.forall_mem_cons, List.nodup_cons, eraseAll,
            List.foldl_cons, ← eraseAll]
          by_cases hlive : m.Live a
          · obtain ⟨b, hb⟩ := Option.isSome_iff_exists.mp hlive
            rw [free_eq hb]
            refine (ih (m.erase a)).trans ?_
            simp only [live_erase]
            constructor
            · rintro ⟨hlives, hnodup, rfl⟩
              exact ⟨⟨hlive, fun x hx => (hlives x hx).1⟩,
                ⟨fun ha => (hlives a ha).2 rfl, hnodup⟩, rfl⟩
            · rintro ⟨⟨-, hlives⟩, ⟨ha, hnodup⟩, rfl⟩
              exact ⟨fun x hx => ⟨hlives x hx, ne_of_mem_of_not_mem hx ha⟩, hnodup, rfl⟩
          · have hdead : m.cells a = none := Option.not_isSome_iff_eq_none.mp hlive
            rw [free, hdead]
            exact iff_of_false nofun fun h => hlive h.1.1

/-- Some allocations in a row, each of which may fail. -/
def mallocAll (m : BlockHeap β) : List (Bool × β) → BlockHeap β × List (Option ℕ)
  | [] => (m, [])
  | (fails, b) :: reqs =>
      let rest := mallocAll (m.malloc fails b).1 reqs
      (rest.1, (m.malloc fails b).2 :: rest.2)

/-- What a row of allocations hands out is new, and is all that has become live. -/
structure Grows (m' : BlockHeap β) (new : List ℕ) : Prop where
  next_le : m.next ≤ m'.next
  cells : ∀ a < m.next, m'.cells a = m.cells a
  nodup : new.Nodup
  le_new : ∀ a ∈ new, m.next ≤ a
  live : ∀ a, m'.Live a ↔ m.Live a ∨ a ∈ new

theorem grows_nil : m.Grows m [] where
  next_le := le_refl m.next
  cells := fun _ _ => rfl
  nodup := List.nodup_nil
  le_new := fun a ha => absurd ha List.not_mem_nil
  live := fun a => by simp

section

variable {m} {m' : BlockHeap β} {new : List ℕ}

/-- One more block before the others. -/
theorem Grows.push {b : β} (h : (m.push b).Grows m' new) : m.Grows m' (m.next :: new) where
  next_le := Nat.le_of_succ_le h.next_le
  cells := fun a ha => by
    rw [h.cells a (Nat.lt_succ_of_lt ha), cells_push, if_neg (Nat.ne_of_lt ha)]
  nodup := List.nodup_cons.mpr
    ⟨fun hmem => absurd (h.le_new _ hmem) (Nat.not_succ_le_self _), h.nodup⟩
  le_new := fun a ha => by
    rcases List.mem_cons.mp ha with rfl | ha
    · exact le_refl _
    · exact Nat.le_of_succ_le (h.le_new a ha)
  live := fun a => by
    rw [h.live, live_push, List.mem_cons]
    tauto

/-- A block that is new is written. -/
theorem Grows.set (h : m.Grows m' new) {a : ℕ} (ha : m.next ≤ a) (b : β) :
    m.Grows (m'.set a b) new where
  next_le := h.next_le
  cells := fun x hx => by rw [cells_set_of_ne _ b (by omega), h.cells x hx]
  nodup := h.nodup
  le_new := h.le_new
  live := fun x => by rw [live_set, h.live]

/-- Some of what is new is given back. -/
theorem Grows.eraseAll (h : m.Grows m' new) {as : List ℕ} (has : ∀ a ∈ as, m.next ≤ a) :
    m.Grows (m'.eraseAll as) (new.filter (· ∉ as)) where
  next_le := by
    rw [next_eraseAll]
    exact h.next_le
  cells := fun a ha => by
    rw [cells_eraseAll_of_notMem _ fun hmem => absurd (has a hmem) (Nat.not_le.mpr ha), h.cells a ha]
  nodup := h.nodup.filter _
  le_new := fun a ha => h.le_new a (List.mem_of_mem_filter ha)
  live := fun a => by
    rw [live_eraseAll, h.live, List.mem_filter, decide_eq_true_iff, or_and_right]
    refine or_congr_left ⟨And.left, fun hlive => ⟨hlive, fun hmem => ?_⟩⟩
    exact absurd hlive.lt_next (Nat.not_lt.mpr (has a hmem))

end

theorem grows_mallocAll (reqs : List (Bool × β)) :
    m.Grows (m.mallocAll reqs).1 (m.mallocAll reqs).2.reduceOption := by
  induction reqs generalizing m with
  | nil => exact m.grows_nil
  | cons req reqs ih =>
      obtain ⟨fails, b⟩ := req
      cases fails with
      | true =>
          rw [mallocAll, malloc_true]
          exact ih m
      | false =>
          rw [mallocAll, malloc_false, List.reduceOption_cons_of_some]
          exact (ih (m.push b)).push

/-- Each pointer that a row of allocations hands out names one of the requested blocks. -/
theorem cells_mallocAll (reqs : List (Bool × β)) {a : ℕ}
    (ha : a ∈ (m.mallocAll reqs).2.reduceOption) :
    ∃ b ∈ reqs.map Prod.snd, (m.mallocAll reqs).1.cells a = some b := by
  induction reqs generalizing m with
  | nil => cases ha
  | cons req reqs ih =>
      obtain ⟨fails, b⟩ := req
      cases fails with
      | true =>
          obtain ⟨b', hb', hcell⟩ := ih m ha
          exact ⟨b', List.mem_cons_of_mem _ hb', hcell⟩
      | false =>
          rw [mallocAll, malloc_false] at ha ⊢
          rcases List.mem_cons.mp ha with rfl | ha
          · refine ⟨b, List.mem_cons_self, ?_⟩
            have hself := ((m.push b).grows_mallocAll reqs).cells m.next (Nat.lt_succ_self _)
            exact hself.trans ((m.cells_push m.next b).trans (if_pos rfl))
          · obtain ⟨b', hb', hcell⟩ := ih (m.push b) ha
            exact ⟨b', List.mem_cons_of_mem _ hb', hcell⟩

/-- Some of a row of allocations are given back, each once. -/
theorem freeAll_mallocAll (reqs : List (Bool × β)) (ps : List (Option ℕ))
    (hps : ∀ a ∈ ps.reduceOption, a ∈ (m.mallocAll reqs).2.reduceOption)
    (hnodup : ps.reduceOption.Nodup) :
    ∃ m', (m.mallocAll reqs).1.freeAll ps = some m' ∧
      m.Grows m' ((m.mallocAll reqs).2.reduceOption.filter (· ∉ ps.reduceOption)) := by
  have hgrows := m.grows_mallocAll reqs
  refine ⟨_, (freeAll_eq_some_iff _ _ _).mpr ⟨?_, hnodup, rfl⟩, ?_⟩
  · exact fun a ha => (hgrows.live a).mpr (Or.inr (hps a ha))
  · exact hgrows.eraseAll fun a ha => hgrows.le_new a (hps a ha)

/-- Every live block belongs to exactly one owner, and each owner counts each of
its blocks once. -/
structure Partition (owners : Finset κ) (own : κ → List ℕ) : Prop where
  nodup : ∀ k ∈ owners, (own k).Nodup
  disjoint : ∀ k ∈ owners, ∀ l ∈ owners, k ≠ l → (own k).Disjoint (own l)
  live : ∀ a, m.Live a ↔ ∃ k ∈ owners, a ∈ own k

variable {m} {owners : Finset κ} {own : κ → List ℕ}

theorem partition_empty : (empty : BlockHeap β).Partition ∅ own where
  nodup := fun k hk => absurd hk (Finset.notMem_empty k)
  disjoint := fun k hk => absurd hk (Finset.notMem_empty k)
  live := fun a => by simp

theorem Partition.cells_eq_none (h : m.Partition ∅ own) (a : ℕ) : m.cells a = none := by
  have hdead : ¬ m.Live a := by
    rw [h.live]
    simp
  simpa [Live] using hdead

theorem Partition.congr (h : m.Partition owners own) {m' : BlockHeap β} {own' : κ → List ℕ}
    (hlive : ∀ a, m'.Live a ↔ m.Live a) (hown : ∀ k ∈ owners, own' k = own k) :
    m'.Partition owners own' where
  nodup := fun k hk => by
    rw [hown k hk]
    exact h.nodup k hk
  disjoint := fun k hk l hl hne => by
    rw [hown k hk, hown l hl]
    exact h.disjoint k hk l hl hne
  live := fun a => by
    rw [hlive, h.live]
    exact exists_congr fun k => and_congr_right fun hk => by rw [hown k hk]

variable [DecidableEq κ]

/-- An owner gives all its blocks back. -/
theorem Partition.erase (h : m.Partition owners own) {k : κ} (hk : k ∈ owners) {m' : BlockHeap β}
    (hlive : ∀ a, m'.Live a ↔ m.Live a ∧ a ∉ own k) : m'.Partition (owners.erase k) own where
  nodup := fun l hl => h.nodup l (Finset.mem_of_mem_erase hl)
  disjoint := fun l hl l' hl' =>
    h.disjoint l (Finset.mem_of_mem_erase hl) l' (Finset.mem_of_mem_erase hl')
  live := fun a => by
    rw [hlive, h.live]
    constructor
    · rintro ⟨⟨l, hl, ha⟩, hnot⟩
      refine ⟨l, Finset.mem_erase.mpr ⟨?_, hl⟩, ha⟩
      rintro rfl
      exact hnot ha
    · rintro ⟨l, hl, ha⟩
      obtain ⟨hne, hl⟩ := Finset.mem_erase.mp hl
      exact ⟨⟨l, hl, ha⟩, fun hak => h.disjoint l hl k hk hne ha hak⟩

/-- What has been allocated goes to one of the owners. -/
theorem Partition.append (h : m.Partition owners own) {k : κ} (hk : k ∈ owners)
    {m' : BlockHeap β} {new : List ℕ} (hgrows : m.Grows m' new) :
    m'.Partition owners (Function.update own k (own k ++ new)) := by
  have hold : ∀ l ∈ owners, ∀ a ∈ own l, a ∉ new := by
    intro l hl a ha hmem
    have hlive : m.Live a := (h.live a).mpr ⟨l, hl, ha⟩
    exact absurd hlive.lt_next (Nat.not_lt.mpr (hgrows.le_new a hmem))
  refine ⟨?_, ?_, ?_⟩
  · intro l hl
    rw [Function.update_apply]
    split
    · exact (h.nodup k hk).append hgrows.nodup (hold k hk)
    · exact h.nodup l hl
  · intro l hl l' hl' hne a ha ha'
    rw [Function.update_apply] at ha ha'
    split at ha <;> split at ha'
    case isTrue.isTrue heq heq' => exact hne (heq.trans heq'.symm)
    case isTrue.isFalse heq hne' =>
      rcases List.mem_append.mp ha with hak | hnew
      · exact h.disjoint k hk l' hl' (Ne.symm hne') hak ha'
      · exact hold l' hl' a ha' hnew
    case isFalse.isTrue hne' heq =>
      rcases List.mem_append.mp ha' with hak | hnew
      · exact h.disjoint l hl k hk hne' ha hak
      · exact hold l hl a ha hnew
    case isFalse.isFalse => exact h.disjoint l hl l' hl' hne ha ha'
  · intro a
    rw [hgrows.live, h.live]
    constructor
    · rintro (⟨l, hl, ha⟩ | ha)
      · refine ⟨l, hl, ?_⟩
        rw [Function.update_apply]
        split
        case isTrue heq => exact List.mem_append_left _ (heq ▸ ha)
        case isFalse => exact ha
      · refine ⟨k, hk, ?_⟩
        rw [Function.update_self]
        exact List.mem_append_right _ ha
    · rintro ⟨l, hl, ha⟩
      rw [Function.update_apply] at ha
      split at ha
      case isTrue =>
        rcases List.mem_append.mp ha with ha | ha
        · exact Or.inl ⟨k, hk, ha⟩
        · exact Or.inr ha
      case isFalse => exact Or.inl ⟨l, hl, ha⟩

/-- What has been allocated gets an owner of its own. -/
theorem Partition.insert (h : m.Partition owners own) {k : κ} (hk : k ∉ owners)
    {m' : BlockHeap β} (hgrows : m.Grows m' (own k)) : m'.Partition (insert k owners) own := by
  have hnew : ∀ a ∈ own k, ¬ m.Live a := fun a ha hlive =>
    absurd hlive.lt_next (Nat.not_lt.mpr (hgrows.le_new a ha))
  have hold : ∀ l ∈ owners, ∀ a ∈ own l, m.Live a := fun l hl a ha => (h.live a).mpr ⟨l, hl, ha⟩
  refine ⟨?_, ?_, ?_⟩
  · intro l hl
    rcases Finset.mem_insert.mp hl with rfl | hl
    · exact hgrows.nodup
    · exact h.nodup l hl
  · intro l hl l' hl' hne a ha ha'
    rcases Finset.mem_insert.mp hl with heq | hmem <;>
      rcases Finset.mem_insert.mp hl' with heq' | hmem'
    · exact hne (heq.trans heq'.symm)
    · exact hnew a (heq ▸ ha) (hold l' hmem' a ha')
    · exact hnew a (heq' ▸ ha') (hold l hmem a ha)
    · exact h.disjoint l hmem l' hmem' hne ha ha'
  · intro a
    rw [hgrows.live, h.live]
    simp only [Finset.mem_insert, exists_eq_or_imp]
    exact or_comm

end

end BlockHeap
