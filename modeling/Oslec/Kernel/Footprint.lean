import Oslec.Kernel.Allocation
import Mathlib.Data.Finset.Option

/-!
What the wrapper keeps allocated. A failed allocation makes it dereference `NULL`
or leaves a canceller without one of its arrays, but nothing else goes wrong: no
call ever reads, writes or frees a block that has been freed. As long as a run
goes on, every live block can be reached from exactly one of the wrappers that
callers hold, and a free releases each block of its wrapper once. The creation of
the copy in the kernel never dereferences `NULL`; it loses the filter histories
when it cannot get the snapshot buffer.
-/

namespace Oslec

/-! ### Blocks and pointers -/

def Block.pointers : Block → List (Option ℕ)
  | .wrapper ec => [ec]
  | .canceller c => [c.firTaps16Fg, c.firTaps16Bg, c.history, c.historyBg, c.snapshot]
  | .array => []

namespace Heap

/-- What the block at `a` points to. -/
def targets (m : Heap) (a : ℕ) : List ℕ := (((m.cells a).map Block.pointers).getD []).reduceOption

/-- The blocks that can be reached from a wrapper: itself, the canceller and its arrays. -/
def blocks (m : Heap) (h : ℕ) : List ℕ := h :: (m.targets h).flatMap fun ec => ec :: m.targets ec

theorem targets_eq {m : Heap} {a : ℕ} {b : Block} (h : m.cells a = some b) :
    m.targets a = b.pointers.reduceOption := by
  rw [targets, h]
  rfl

theorem targets_congr {m m' : Heap} {a : ℕ} (h : m'.cells a = m.cells a) :
    m'.targets a = m.targets a := by
  rw [targets, targets, h]

theorem blocks_congr {m m' : Heap} {h : ℕ} (hcells : ∀ a ∈ m.blocks h, m'.cells a = m.cells a) :
    m'.blocks h = m.blocks h := by
  have hself : m'.targets h = m.targets h := targets_congr (hcells h List.mem_cons_self)
  rw [blocks, blocks, hself]
  congr 1
  apply List.flatMap_congr
  intro ec hec
  have hcanceller : ec ∈ m.blocks h :=
    List.mem_cons_of_mem _ (List.mem_flatMap.mpr ⟨ec, hec, List.mem_cons_self⟩)
  rw [targets_congr (hcells ec hcanceller)]

theorem blocks_eq {m : Heap} {h : ℕ} {inner : Option ℕ}
    (hwrapper : m.cells h = some (.wrapper inner)) :
    m.blocks h = h :: inner.toList.flatMap fun ec => ec :: m.targets ec := by
  rw [blocks, targets_eq hwrapper]
  cases inner <;> rfl

/-- A canceller, whose pointers name arrays where they are not `NULL`. -/
structure IsCanceller (m : Heap) (ec : ℕ) : Prop where
  block : ∃ c, m.cells ec = some (.canceller c)
  array : ∀ a ∈ m.targets ec, m.cells a = some .array

/-- A wrapper, of a canceller or of `NULL`. -/
def IsWrapper (m : Heap) (h : ℕ) : Prop :=
  ∃ inner, m.cells h = some (.wrapper inner) ∧ ∀ ec, inner = some ec → m.IsCanceller ec

theorem IsCanceller.congr {m m' : Heap} {ec : ℕ} (h : m.IsCanceller ec)
    (hself : m'.cells ec = m.cells ec) (hcells : ∀ a ∈ m.targets ec, m'.cells a = m.cells a) :
    m'.IsCanceller ec := by
  refine ⟨hself ▸ h.block, ?_⟩
  rw [targets_congr hself]
  intro a ha
  rw [hcells a ha, h.array a ha]

theorem IsWrapper.congr {m m' : Heap} {h : ℕ} (hw : m.IsWrapper h)
    (hcells : ∀ a ∈ m.blocks h, m'.cells a = m.cells a) : m'.IsWrapper h := by
  obtain ⟨inner, hwrapper, hinner⟩ := hw
  refine ⟨inner, (hcells h List.mem_cons_self).trans hwrapper, ?_⟩
  rintro ec rfl
  rw [blocks_eq hwrapper, Option.toList_some, List.flatMap_singleton] at hcells
  refine (hinner ec rfl).congr (hcells ec (by simp)) fun a ha => hcells a ?_
  exact List.mem_cons_of_mem _ (List.mem_cons_of_mem _ ha)

theorem canceller_eq {m : Heap} {ec : ℕ} {c : CancellerBlock}
    (h : m.cells ec = some (.canceller c)) : canceller m (some ec) = some c := by
  rw [canceller, BlockHeap.load_some, h]

theorem array_eq {m : Heap} {a : ℕ} (h : m.cells a = some .array) :
    Heap.array m (some a) = some () := by
  rw [Heap.array, BlockHeap.load_some, h]

theorem wrapper_eq {m : Heap} {h : ℕ} {inner : Option ℕ}
    (hcell : m.cells h = some (.wrapper inner)) : wrapper m (some h) = some inner := by
  rw [wrapper, BlockHeap.load_some, hcell]

/-! ### The operations that move no pointer -/

/-- The same blocks with the same pointers between them. -/
def SameShape (m m' : Heap) : Prop :=
  ∀ a, (m'.cells a).map Block.pointers = (m.cells a).map Block.pointers

theorem SameShape.live {m m' : Heap} (h : SameShape m m') (a : ℕ) : m'.Live a ↔ m.Live a := by
  have hsome := congrArg Option.isSome (h a)
  rw [Option.isSome_map, Option.isSome_map] at hsome
  rw [BlockHeap.Live, BlockHeap.Live, hsome]

theorem SameShape.blocks {m m' : Heap} (h : SameShape m m') (a : ℕ) : m'.blocks a = m.blocks a := by
  have htargets : m'.targets = m.targets := by
    funext x
    rw [targets, targets, h x]
  rw [Heap.blocks, Heap.blocks, htargets]

theorem SameShape.cells {m m' : Heap} (h : SameShape m m') {a : ℕ} {b : Block}
    (hb : m.cells a = some b) : ∃ b', m'.cells a = some b' ∧ b'.pointers = b.pointers := by
  have hsame := h a
  rw [hb, Option.map_some] at hsame
  exact Option.map_eq_some_iff.mp hsame

theorem SameShape.isCanceller {m m' : Heap} (h : SameShape m m') {ec : ℕ}
    (hec : m.IsCanceller ec) : m'.IsCanceller ec := by
  have htargets : m'.targets ec = m.targets ec := by rw [targets, targets, h ec]
  obtain ⟨c, hc⟩ := hec.block
  refine ⟨?_, ?_⟩
  · obtain ⟨b, hb, hpointers⟩ := h.cells hc
    cases b with
    | canceller c' => exact ⟨c', hb⟩
    | wrapper _ => cases hpointers
    | array => cases hpointers
  · rw [htargets]
    intro a ha
    obtain ⟨b, hb, hpointers⟩ := h.cells (hec.array a ha)
    cases b with
    | array => exact hb
    | wrapper _ => cases hpointers
    | canceller _ => cases hpointers

theorem SameShape.wrapper {m m' : Heap} (h : SameShape m m') {a : ℕ} {inner : Option ℕ}
    (ha : m.cells a = some (.wrapper inner)) : m'.cells a = some (.wrapper inner) := by
  obtain ⟨b, hb, hpointers⟩ := h.cells ha
  cases b with
  | wrapper _ =>
      obtain rfl := (List.cons.inj hpointers).1
      exact hb
  | canceller _ => cases hpointers
  | array => cases hpointers

theorem SameShape.isWrapper {m m' : Heap} (h : SameShape m m') {a : ℕ} (ha : m.IsWrapper a) :
    m'.IsWrapper a := by
  obtain ⟨inner, hwrapper, hinner⟩ := ha
  exact ⟨inner, h.wrapper hwrapper, fun ec hec => h.isCanceller (hinner ec hec)⟩

theorem sameShape_store {m : Heap} {ec : ℕ} {c : CancellerBlock}
    (hc : m.cells ec = some (.canceller c)) (state : EchoCan) :
    ∃ m', m.store (some ec) (.canceller { c with state := state }) = some m' ∧ SameShape m m' := by
  refine ⟨_, BlockHeap.store_eq _ hc, fun x => ?_⟩
  by_cases hx : x = ec
  · rw [hx, BlockHeap.cells_set_self _ hc, hc]
    rfl
  · rw [BlockHeap.cells_set_of_ne _ _ hx]

/-! ### `NULL` -/

/-- The arrays that the filters and the adaption work on. -/
def filterArrays (c : CancellerBlock) : List (Option ℕ) :=
  [c.history, c.historyBg, c.firTaps16Fg, c.firTaps16Bg]

/-- An operation on all the arrays of the canceller meets a `NULL`. -/
def MeetsNull (m : Heap) (ec : ℕ) : Prop :=
  ∃ c, m.cells ec = some (.canceller c) ∧ none ∈ filterArrays c

theorem IsCanceller.array_isSome {m : Heap} {ec : ℕ} (h : m.IsCanceller ec) {c : CancellerBlock}
    (hc : m.cells ec = some (.canceller c)) {p : Option ℕ}
    (hp : p ∈ (Block.canceller c).pointers) : (Heap.array m p).isSome ↔ p ≠ none := by
  cases p with
  | none => exact iff_of_false (Bool.false_ne_true) (fun h => h rfl)
  | some a =>
      have hcell := h.array a (by
        rw [targets_eq hc]
        exact List.reduceOption_mem_iff.mpr hp)
      rw [array_eq hcell]
      exact iff_of_true rfl (Option.some_ne_none a)

theorem arrays_isSome_iff (m : Heap) (c : CancellerBlock) :
    (arrays m c).isSome ↔ ∀ p ∈ filterArrays c, (Heap.array m p).isSome := by
  simp only [arrays, filterArrays, List.forall_mem_cons, List.not_mem_nil, false_imp_iff,
    implies_true, and_true]
  cases Heap.array m c.history with
  | none => simp
  | some _ =>
    cases Heap.array m c.historyBg with
    | none => simp
    | some _ => cases Heap.array m c.firTaps16Fg <;> simp

theorem IsCanceller.arrays_isSome {m : Heap} {ec : ℕ} (h : m.IsCanceller ec) {c : CancellerBlock}
    (hc : m.cells ec = some (.canceller c)) : (arrays m c).isSome ↔ ¬ m.MeetsNull ec := by
  have hnull : m.MeetsNull ec ↔ none ∈ filterArrays c := by
    refine ⟨?_, fun hmem => ⟨c, hc, hmem⟩⟩
    rintro ⟨c', hc', hmem⟩
    cases hc.symm.trans hc'
    exact hmem
  have hpointers : ∀ p ∈ filterArrays c, p ∈ (Block.canceller c).pointers := by
    intro p hp
    simp only [filterArrays, List.mem_cons, List.not_mem_nil, or_false] at hp
    rcases hp with rfl | rfl | rfl | rfl <;> simp [Block.pointers]
  rw [arrays_isSome_iff, hnull]
  constructor
  · intro hall hmem
    exact (h.array_isSome hc (hpointers none hmem)).mp (hall none hmem) rfl
  · intro hnot p hp
    exact (h.array_isSome hc (hpointers p hp)).mpr (ne_of_mem_of_not_mem hp hnot)

theorem IsCanceller.echoCanUpdate_spec {m : Heap} {ec : ℕ} (h : m.IsCanceller ec)
    (tx rx : Int16) :
    (m.MeetsNull ec ∧ echoCanUpdate m (some ec) tx rx = none) ∨
      (¬ m.MeetsNull ec ∧ ∃ m' out,
        echoCanUpdate m (some ec) tx rx = some (m', out) ∧ SameShape m m') := by
  obtain ⟨c, hc⟩ := h.block
  have harrays := h.arrays_isSome hc
  rw [echoCanUpdate, canceller_eq hc, Option.bind_some]
  cases hdefined : arrays m c with
  | none =>
      rw [hdefined] at harrays
      exact Or.inl ⟨not_not.mp fun hnull => Bool.false_ne_true (harrays.mpr hnull), rfl⟩
  | some u =>
      rw [hdefined] at harrays
      obtain ⟨m', hstore, hshape⟩ := sameShape_store hc (Oslec.echoCanUpdate c.state tx rx).1
      refine Or.inr ⟨harrays.mp rfl, m', (Oslec.echoCanUpdate c.state tx rx).2, ?_, hshape⟩
      rw [Option.bind_some, hstore, Option.map_some]

theorem IsCanceller.echoCanFlush_spec {m : Heap} {ec : ℕ} (h : m.IsCanceller ec) :
    (m.MeetsNull ec ∧ echoCanFlush m (some ec) = none) ∨
      (¬ m.MeetsNull ec ∧ ∃ m', echoCanFlush m (some ec) = some m' ∧ SameShape m m') := by
  obtain ⟨c, hc⟩ := h.block
  have harrays := h.arrays_isSome hc
  rw [echoCanFlush, canceller_eq hc, Option.bind_some]
  cases hdefined : arrays m c with
  | none =>
      rw [hdefined] at harrays
      exact Or.inl ⟨not_not.mp fun hnull => Bool.false_ne_true (harrays.mpr hnull), rfl⟩
  | some u =>
      rw [hdefined] at harrays
      obtain ⟨m', hstore, hshape⟩ := sameShape_store hc (Oslec.echoCanFlush c.state)
      exact Or.inr ⟨harrays.mp rfl, m', by rw [Option.bind_some, hstore], hshape⟩

theorem IsCanceller.echoCanHpfTx_spec {m : Heap} {ec : ℕ} (h : m.IsCanceller ec) (tx : Int16) :
    ∃ m' out, echoCanHpfTx m (some ec) tx = some (m', out) ∧ SameShape m m' := by
  obtain ⟨c, hc⟩ := h.block
  obtain ⟨m', hstore, hshape⟩ := sameShape_store hc (Oslec.echoCanHpfTx c.state tx).1
  refine ⟨m', (Oslec.echoCanHpfTx c.state tx).2, ?_, hshape⟩
  rw [echoCanHpfTx, canceller_eq hc, Option.bind_some, hstore, Option.map_some]

theorem IsCanceller.echoCanAdaptionMode_spec {m : Heap} {ec : ℕ} (h : m.IsCanceller ec)
    (mode : BitVec 32) :
    ∃ m', echoCanAdaptionMode m (some ec) mode = some m' ∧ SameShape m m' := by
  obtain ⟨c, hc⟩ := h.block
  obtain ⟨m', hstore, hshape⟩ := sameShape_store hc (Oslec.echoCanAdaptionMode c.state mode)
  exact ⟨m', by rw [echoCanAdaptionMode, canceller_eq hc, Option.bind_some, hstore], hshape⟩

/-! ### Creation -/

/-- The snapshot is cleared although it has not been allocated. -/
def snapshotFails (fails : Site → Bool) : Bool :=
  !fails .canceller && !fails .firTaps16Fg && !fails .firTaps16Bg && fails .snapshot

/-- The canceller block of a creation before its pointers are set. -/
def newCanceller (len : ℕ) (adaptionMode : BitVec 32) : CancellerBlock :=
  ⟨Oslec.echoCanCreate len adaptionMode, none, none, none, none, none⟩

/-- What `echo_can_create` hands out is all that it has allocated and not freed. -/
structure Creates (m m' : Heap) (inner : Option ℕ) : Prop where
  grows : m.Grows m' (inner.toList.flatMap fun ec => ec :: m'.targets ec)
  canceller : ∀ ec, inner = some ec → m'.IsCanceller ec

theorem creates_null {m m' : Heap} (h : m.Grows m' []) : Creates m m' none :=
  ⟨h, nofun⟩

theorem cells_mallocAll_array {m : Heap} {reqs : List (Bool × Block)}
    (hreqs : ∀ req ∈ reqs, req.2 = .array) {a : ℕ} (ha : a ∈ (m.mallocAll reqs).2.reduceOption) :
    (m.mallocAll reqs).1.cells a = some .array := by
  obtain ⟨b, hb, hcell⟩ := BlockHeap.cells_mallocAll m reqs ha
  obtain ⟨req, hreq, rfl⟩ := List.mem_map.mp hb
  rw [hcell, hreqs req hreq]

theorem creates_canceller {m : Heap} {b : Block} {reqs : List (Bool × Block)}
    (hreqs : ∀ req ∈ reqs, req.2 = .array) {c : CancellerBlock}
    (hc : (Block.canceller c).pointers = ((m.push b).mallocAll reqs).2) :
    ((m.push b).mallocAll reqs).1.store (some m.next) (.canceller c) =
        some (((m.push b).mallocAll reqs).1.set m.next (.canceller c)) ∧
      Creates m (((m.push b).mallocAll reqs).1.set m.next (.canceller c)) (some m.next) := by
  have hrest := (m.push b).grows_mallocAll reqs
  have hself : ((m.push b).mallocAll reqs).1.cells m.next = some b :=
    (hrest.cells m.next (Nat.lt_succ_self _)).trans ((m.cells_push m.next b).trans (if_pos rfl))
  have hcell := BlockHeap.cells_set_self (Block.canceller c) hself
  have htargets := targets_eq hcell
  rw [hc] at htargets
  refine ⟨BlockHeap.store_eq _ hself, ?_, ?_⟩
  · rw [Option.toList_some, List.flatMap_singleton, htargets]
    exact hrest.push.set (le_refl _) _
  · rintro ec hec
    obtain rfl := Option.some.inj hec
    refine ⟨⟨c, hcell⟩, ?_⟩
    rw [htargets]
    intro a ha
    have hle := hrest.le_new a ha
    rw [BlockHeap.next_push] at hle
    rw [BlockHeap.cells_set_of_ne _ _ (by omega), cells_mallocAll_array hreqs ha]

/-- Whatever fails, `echo_can_create` clears a snapshot that is `NULL`, or gives
everything back, or hands out the canceller with all that it has allocated. -/
theorem echoCanCreate_spec (m : Heap) (len : ℕ) (adaptionMode : BitVec 32)
    (fails : Site → Bool) :
    (snapshotFails fails = true ∧ echoCanCreate m len adaptionMode fails = none) ∨
      (snapshotFails fails = false ∧ ∃ m' inner,
        echoCanCreate m len adaptionMode fails = some (m', inner) ∧ Creates m m' inner) := by
  cases hec : fails .canceller with
  | true =>
      refine Or.inr ⟨by simp [snapshotFails, hec], m, none, ?_, creates_null m.grows_nil⟩
      simp only [echoCanCreate, hec, BlockHeap.malloc_true]
  | false =>
  cases hfg : fails .firTaps16Fg with
  | true =>
      obtain ⟨m', hfree, hgrows⟩ := m.freeAll_mallocAll
        [(false, .canceller (newCanceller len adaptionMode))] [some m.next]
        (by simp [BlockHeap.mallocAll]) (by simp)
      refine Or.inr ⟨by simp [snapshotFails, hfg], m', none, ?_, creates_null (by
        simpa [BlockHeap.mallocAll] using hgrows)⟩
      simp only [echoCanCreate, hec, hfg, BlockHeap.malloc_true, BlockHeap.malloc_false]
      exact congrArg (Option.map fun m' => (m', none)) hfree
  | false =>
  cases hbg : fails .firTaps16Bg with
  | true =>
      obtain ⟨m', hfree, hgrows⟩ := m.freeAll_mallocAll
        [(false, .canceller (newCanceller len adaptionMode)), (false, .array)]
        [some (m.next + 1), some m.next] (by simp [BlockHeap.mallocAll]) (by simp)
      refine Or.inr ⟨by simp [snapshotFails, hbg], m', none, ?_, creates_null (by
        simpa [BlockHeap.mallocAll] using hgrows)⟩
      simp only [echoCanCreate, hec, hfg, hbg, BlockHeap.malloc_true, BlockHeap.malloc_false,
        BlockHeap.next_push]
      exact congrArg (Option.map fun m' => (m', none)) hfree
  | false =>
  cases hsnapshot : fails .snapshot with
  | true =>
      refine Or.inl ⟨by simp [snapshotFails, hec, hfg, hbg, hsnapshot], ?_⟩
      simp only [echoCanCreate, hec, hfg, hbg, hsnapshot, BlockHeap.malloc_true,
        BlockHeap.malloc_false, BlockHeap.next_push]
      rfl
  | false =>
      have hreqs : ∀ req ∈ [(false, Block.array), (false, .array), (fails .history, .array),
          (fails .historyBg, .array), (false, .array)], req.2 = .array := by simp
      obtain ⟨hstore, hcreates⟩ := creates_canceller (m := m)
        (b := .canceller (newCanceller len adaptionMode)) hreqs
        (c := ⟨Oslec.echoCanCreate len adaptionMode, _, _, _, _, _⟩) rfl
      refine Or.inr ⟨by simp [snapshotFails, hsnapshot], _, _, ?_, hcreates⟩
      simp only [echoCanCreate, hec, hfg, hbg, hsnapshot, BlockHeap.malloc_false,
        BlockHeap.next_push]
      rw [array_eq, Option.bind_some]
      · exact congrArg (Option.map fun m' => (m', some m.next)) hstore
      · -- the last of the pointers
        exact cells_mallocAll_array (m := m.push _) hreqs (List.reduceOption_mem_iff.mpr
          (.tail _ (.tail _ (.tail _ (.tail _ (.head _))))))

theorem echoCanFree_eq {m : Heap} {ec : ℕ} (h : m.IsCanceller ec) :
    ∃ ps, echoCanFree m (some ec) = m.freeAll ps ∧
      ps.reduceOption.Perm (ec :: m.targets ec) := by
  obtain ⟨c, hc⟩ := h.block
  refine ⟨[c.history, c.historyBg, c.firTaps16Fg, c.firTaps16Bg, c.snapshot, some ec], ?_, ?_⟩
  · rw [echoCanFree, canceller_eq hc, Option.bind_some]
  · have horder : [c.history, c.historyBg, c.firTaps16Fg, c.firTaps16Bg, c.snapshot, some ec].Perm
        (some ec :: Block.pointers (.canceller c)) := by
      rw [List.perm_iff_count]
      intro p
      simp only [Block.pointers, List.count_cons, List.count_nil]
      omega
    rw [targets_eq hc]
    exact horder.filterMap id

end Heap

/-! ### The wrapper -/

/-- What dereferences `NULL`: a creation that has not got the wrapper or the
snapshot, and a call on a canceller that has not been created, or without one of
the arrays that it works on. -/
def WrapCall.DereferencesNull (g : Globals) : WrapCall → Prop
  | .create _ fails => fails .wrapper = true ∨ Heap.snapshotFails fails = true
  | .free h => g.heap.cells h = some (.wrapper none)
  | .update h _ _ => g.heap.cells h = some (.wrapper none) ∨
      ∃ ec, g.heap.cells h = some (.wrapper (some ec)) ∧ g.heap.MeetsNull ec
  | .hpfTx p _ => ∃ h, p = some h ∧ g.heap.cells h = some (.wrapper none)
  | .procRead => False
  | .procWriteMode _ => False
  | .procWriteReset => ∃ ec, g.monEc = some ec ∧ g.heap.MeetsNull ec

namespace Globals

/-- The held wrappers own the live blocks, and one of them the monitored canceller. -/
structure Owned (g : Globals) : Prop where
  partition : g.heap.Partition g.handles g.heap.blocks
  wrapper : ∀ h ∈ g.handles, g.heap.IsWrapper h
  monitored : ∀ ec, g.monEc = some ec → ∃ h ∈ g.handles, g.heap.cells h = some (.wrapper (some ec))

theorem owned_init : init.Owned :=
  ⟨BlockHeap.partition_empty, fun h hh => absurd hh (Finset.notMem_empty h), nofun⟩

theorem Owned.sameShape {g : Globals} (h : g.Owned) {m : Heap} (hshape : Heap.SameShape g.heap m) :
    Owned { g with heap := m } where
  partition := h.partition.congr hshape.live fun k _ => hshape.blocks k
  wrapper := fun k hk => hshape.isWrapper (h.wrapper k hk)
  monitored := fun ec hec => by
    obtain ⟨k, hk, hwrapper⟩ := h.monitored ec hec
    exact ⟨k, hk, hshape.wrapper hwrapper⟩

section

variable {g : Globals} (hg : g.Owned)

include hg

theorem Owned.isCanceller {h ec : ℕ} (hh : h ∈ g.handles)
    (hwrapper : g.heap.cells h = some (.wrapper (some ec))) : g.heap.IsCanceller ec := by
  obtain ⟨inner, hinner, hcanceller⟩ := hg.wrapper h hh
  cases hwrapper.symm.trans hinner
  exact hcanceller ec rfl

/-- A free gives all the blocks of its wrapper to `free`, each of them once. -/
theorem Owned.oslecEchoCanFree_eq {h ec : ℕ} (hh : h ∈ g.handles)
    (hwrapper : g.heap.cells h = some (.wrapper (some ec))) :
    ∃ ps, ps.reduceOption.Perm (g.heap.blocks h) ∧
      g.heap.freeAll ps = some (g.heap.eraseAll ps.reduceOption) ∧
      g.oslecEchoCanFree h = some { g with
        heap := g.heap.eraseAll ps.reduceOption
        monEc := if g.monEc = some ec then none else g.monEc
        numEc := g.numEc - 1
        handles := g.handles.erase h } := by
  obtain ⟨ps, hfree, hperm⟩ := Heap.echoCanFree_eq (hg.isCanceller hh hwrapper)
  have hblocks : (ps ++ [some h]).reduceOption.Perm (g.heap.blocks h) := by
    rw [Heap.blocks_eq hwrapper, Option.toList_some, List.flatMap_singleton,
      List.reduceOption_append]
    exact (hperm.append_right [h]).trans (List.perm_append_singleton h _)
  have hall : g.heap.freeAll (ps ++ [some h]) =
      some (g.heap.eraseAll (ps ++ [some h]).reduceOption) := by
    refine (g.heap.freeAll_eq_some_iff _ _).mpr ⟨?_, ?_, rfl⟩
    · intro a ha
      exact (hg.partition.live a).mpr ⟨h, hh, hblocks.mem_iff.mp ha⟩
    · exact hblocks.nodup_iff.mpr (hg.partition.nodup h hh)
  refine ⟨ps ++ [some h], hblocks, hall, ?_⟩
  rw [BlockHeap.freeAll_concat, ← hfree] at hall
  obtain ⟨m, hm, hlast⟩ := Option.bind_eq_some_iff.mp hall
  rw [oslecEchoCanFree, Heap.wrapper_eq hwrapper, Option.bind_some, hm, Option.bind_some, hlast,
    Option.map_some]

theorem Owned.free {h ec : ℕ} (hh : h ∈ g.handles)
    (hwrapper : g.heap.cells h = some (.wrapper (some ec))) {g' : Globals}
    (hfree : g.oslecEchoCanFree h = some g') : g'.Owned := by
  obtain ⟨ps, hperm, -, heq⟩ := hg.oslecEchoCanFree_eq hh hwrapper
  rw [heq] at hfree
  obtain rfl := Option.some.inj hfree
  have hcells : ∀ k ∈ g.handles.erase h, ∀ a ∈ g.heap.blocks k,
      (g.heap.eraseAll ps.reduceOption).cells a = g.heap.cells a := by
    intro k hk a ha
    obtain ⟨hne, hk⟩ := Finset.mem_erase.mp hk
    apply BlockHeap.cells_eraseAll_of_notMem
    rw [hperm.mem_iff]
    exact hg.partition.disjoint k hk h hh hne ha
  refine ⟨?_, ?_, ?_⟩
  · refine (hg.partition.erase hh fun a => ?_).congr (fun a => Iff.rfl)
      fun k hk => Heap.blocks_congr (hcells k hk)
    rw [BlockHeap.live_eraseAll, hperm.mem_iff]
  · intro k hk
    exact (hg.wrapper k (Finset.mem_of_mem_erase hk)).congr (hcells k hk)
  · intro ec' hec'
    dsimp only at hec'
    split at hec'
    case isTrue => cases hec'
    case isFalse hne =>
      obtain ⟨k, hk, hk'⟩ := hg.monitored ec' hec'
      have hkh : k ≠ h := by
        rintro rfl
        cases hwrapper.symm.trans hk'
        exact hne hec'
      have hmem := Finset.mem_erase.mpr ⟨hkh, hk⟩
      exact ⟨k, hmem, (hcells k hmem k List.mem_cons_self).trans hk'⟩

theorem Owned.insert {m : Heap} {inner : Option ℕ}
    (hcreates : Heap.Creates (g.heap.push (.wrapper none)) m inner) (monEc : Option ℕ)
    (numEc : ℤ) (lenEc : ℕ)
    (hmon : ∀ ec, monEc = some ec → g.monEc = some ec ∨ inner = some ec) :
    Owned { heap := m.set g.heap.next (.wrapper inner)
            monEc := monEc
            numEc := numEc
            lenEc := lenEc
            handles := insert g.heap.next g.handles } := by
  have hold : m.cells g.heap.next = some (.wrapper none) :=
    (hcreates.grows.cells _ (Nat.lt_succ_self _)).trans
      ((g.heap.cells_push g.heap.next _).trans (if_pos rfl))
  have hself := BlockHeap.cells_set_self (Block.wrapper inner) hold
  have hgrows := hcreates.grows.push.set (le_refl _) (.wrapper inner)
  have hother : ∀ ec, inner = some ec → ∀ a ∈ ec :: m.targets ec,
      (m.set g.heap.next (.wrapper inner)).cells a = m.cells a := by
    rintro ec rfl a ha
    have hle := hcreates.grows.le_new a
      (by rwa [Option.toList_some, List.flatMap_singleton])
    rw [BlockHeap.next_push] at hle
    exact BlockHeap.cells_set_of_ne _ _ (by omega)
  have hblocks : Heap.blocks (m.set g.heap.next (.wrapper inner)) g.heap.next =
      g.heap.next :: inner.toList.flatMap fun ec => ec :: m.targets ec := by
    rw [Heap.blocks_eq hself]
    congr 1
    apply List.flatMap_congr
    intro ec hec
    rw [Heap.targets_congr (hother ec (Option.mem_toList.mp hec) ec List.mem_cons_self)]
  -- the older wrappers reach what they have reached before
  have hcells : ∀ h ∈ g.handles, ∀ a ∈ g.heap.blocks h,
      (m.set g.heap.next (.wrapper inner)).cells a = g.heap.cells a := fun h hh a ha =>
    hgrows.cells a ((hg.partition.live a).mpr ⟨h, hh, ha⟩).lt_next
  have hnew : g.heap.next ∉ g.handles := fun hmem =>
    absurd ((hg.partition.live _).mpr ⟨_, hmem, List.mem_cons_self⟩).lt_next (Nat.lt_irrefl _)
  refine ⟨?_, ?_, ?_⟩
  · rw [← hblocks] at hgrows
    refine BlockHeap.Partition.insert ?_ hnew hgrows
    exact hg.partition.congr (fun a => Iff.rfl) fun h hh => Heap.blocks_congr (hcells h hh)
  · intro h hh
    rcases Finset.mem_insert.mp hh with rfl | hh
    · refine ⟨inner, hself, fun ec hec => ?_⟩
      obtain ⟨hec', htargets⟩ := List.forall_mem_cons.mp (hother ec hec)
      exact (hcreates.canceller ec hec).congr hec' htargets
    · exact (hg.wrapper h hh).congr (hcells h hh)
  · intro ec hec
    rcases hmon ec hec with hec | rfl
    · obtain ⟨h, hh, hwrapper⟩ := hg.monitored ec hec
      exact ⟨h, Finset.mem_insert_of_mem hh,
        (hcells h hh h List.mem_cons_self).trans hwrapper⟩
    · exact ⟨g.heap.next, Finset.mem_insert_self _ _, hself⟩

/-- A creation fails to return only where it dereferences `NULL`. -/
theorem Owned.create (len : ℕ) (fails : Site → Bool) :
    ((WrapCall.create len fails).DereferencesNull g ∧ g.oslecEchoCanCreate len fails = none) ∨
      (¬ (WrapCall.create len fails).DereferencesNull g ∧ ∃ g' ec,
        g.oslecEchoCanCreate len fails = some (g', ec) ∧ g'.Owned) := by
  cases hwrapper : fails .wrapper with
  | true =>
      -- the store through `NULL`
      refine Or.inl ⟨Or.inl hwrapper, ?_⟩
      rw [oslecEchoCanCreate, hwrapper, BlockHeap.malloc_true]
      dsimp only
      cases Heap.echoCanCreate g.heap len createMode fails <;> rfl
  | false =>
      rcases Heap.echoCanCreate_spec (g.heap.push (.wrapper none)) len createMode fails with
        ⟨hfails, hnone⟩ | ⟨hfails, m, inner, hsome, hcreates⟩
      · refine Or.inl ⟨Or.inr hfails, ?_⟩
        rw [oslecEchoCanCreate, hwrapper, BlockHeap.malloc_false]
        dsimp only
        rw [hnone, Option.bind_none]
      · have hstore : m.store (some g.heap.next) (.wrapper inner) =
            some (m.set g.heap.next (.wrapper inner)) := by
          refine BlockHeap.store_eq (c := .wrapper none) _ ?_
          exact (hcreates.grows.cells _ (Nat.lt_succ_self _)).trans
            ((g.heap.cells_push g.heap.next _).trans (if_pos rfl))
        refine Or.inr ⟨?_, _, some g.heap.next, ?_, hg.insert hcreates
          (if g.monEc = none then inner else g.monEc) (g.numEc + 1)
          (if g.monEc = none then len else g.lenEc) ?_⟩
        · rintro (htrue | htrue)
          · cases hwrapper.symm.trans htrue
          · cases hfails.symm.trans htrue
        · rw [oslecEchoCanCreate, hwrapper, BlockHeap.malloc_false]
          dsimp only
          rw [hsome, Option.bind_some]
          dsimp only
          rw [Option.bind_some, hstore, Option.map_some]
        · intro ec hec
          split at hec
          · exact Or.inr hec
          · exact Or.inl hec

theorem Owned.update {h : ℕ} (hh : h ∈ g.handles) (tx rx : Int16) :
    ((WrapCall.update h tx rx).DereferencesNull g ∧ g.oslecEchoCanUpdate h tx rx = none) ∨
      (¬ (WrapCall.update h tx rx).DereferencesNull g ∧ ∃ g' clean,
        g.oslecEchoCanUpdate h tx rx = some (g', clean) ∧ g'.Owned) := by
  obtain ⟨inner, hwrapper, hinner⟩ := hg.wrapper h hh
  rw [oslecEchoCanUpdate, Heap.wrapper_eq hwrapper, Option.bind_some]
  cases inner with
  | none => exact Or.inl ⟨Or.inl hwrapper, rfl⟩
  | some ec =>
      rcases (hinner ec rfl).echoCanUpdate_spec tx rx with
        ⟨hnull, hnone⟩ | ⟨hnull, m, out, hsome, hshape⟩
      · exact Or.inl ⟨Or.inr ⟨ec, hwrapper, hnull⟩, by rw [hnone, Option.map_none]⟩
      · refine Or.inr ⟨?_, _, out, by rw [hsome, Option.map_some], hg.sameShape hshape⟩
        rintro (heq | ⟨ec', heq, hmeets⟩)
        · cases hwrapper.symm.trans heq
        · cases hwrapper.symm.trans heq
          exact hnull hmeets

theorem Owned.hpfTx {p : Option ℕ} (hp : ∀ h, p = some h → h ∈ g.handles) (tx : Int16) :
    ((WrapCall.hpfTx p tx).DereferencesNull g ∧ g.oslecHpfTx p tx = none) ∨
      (¬ (WrapCall.hpfTx p tx).DereferencesNull g ∧ ∃ g' out,
        g.oslecHpfTx p tx = some (g', out) ∧ g'.Owned) := by
  cases p with
  | none =>
      refine Or.inr ⟨?_, g, tx, rfl, hg⟩
      rintro ⟨h, hnone, -⟩
      cases hnone
  | some h =>
      obtain ⟨inner, hwrapper, hinner⟩ := hg.wrapper h (hp h rfl)
      rw [oslecHpfTx, if_pos (Option.some_ne_none h), Heap.wrapper_eq hwrapper, Option.bind_some]
      cases inner with
      | none => exact Or.inl ⟨⟨h, rfl, hwrapper⟩, rfl⟩
      | some ec =>
          obtain ⟨m, out, hsome, hshape⟩ := (hinner ec rfl).echoCanHpfTx_spec tx
          refine Or.inr ⟨?_, _, out, by rw [hsome, Option.map_some], hg.sameShape hshape⟩
          rintro ⟨h', hh', heq⟩
          obtain rfl := Option.some.inj hh'
          cases hwrapper.symm.trans heq

theorem Owned.monitored_isCanceller {ec : ℕ} (hec : g.monEc = some ec) :
    g.heap.IsCanceller ec := by
  obtain ⟨h, hh, hwrapper⟩ := hg.monitored ec hec
  exact hg.isCanceller hh hwrapper

theorem Owned.procRead : ∃ g', g.procRead = some g' ∧ g'.Owned := by
  refine ⟨g, ?_, hg⟩
  rw [Globals.procRead]
  split
  case isTrue => rfl
  case isFalse hsome =>
    obtain ⟨ec, hec⟩ := Option.ne_none_iff_exists'.mp hsome
    obtain ⟨c, hc⟩ := (hg.monitored_isCanceller hec).block
    rw [hec, Heap.canceller_eq hc, Option.map_some]

theorem Owned.procWriteMode (mode : BitVec 32) :
    ∃ g', g.procWriteMode mode = some g' ∧ g'.Owned := by
  rw [Globals.procWriteMode]
  split
  case isTrue => exact ⟨g, rfl, hg⟩
  case isFalse hsome =>
    obtain ⟨ec, hec⟩ := Option.ne_none_iff_exists'.mp hsome
    obtain ⟨m, hmode, hshape⟩ := (hg.monitored_isCanceller hec).echoCanAdaptionMode_spec mode
    exact ⟨_, by rw [hec, hmode, Option.map_some], hg.sameShape hshape⟩

theorem Owned.procWriteReset :
    (WrapCall.procWriteReset.DereferencesNull g ∧ g.procWriteReset = none) ∨
      (¬ WrapCall.procWriteReset.DereferencesNull g ∧ ∃ g',
        g.procWriteReset = some g' ∧ g'.Owned) := by
  rw [Globals.procWriteReset]
  split
  case isTrue hnone =>
    refine Or.inr ⟨?_, g, rfl, hg⟩
    rintro ⟨ec, hec, -⟩
    cases hnone.symm.trans hec
  case isFalse hsome =>
    obtain ⟨ec, hec⟩ := Option.ne_none_iff_exists'.mp hsome
    rcases (hg.monitored_isCanceller hec).echoCanFlush_spec with
      ⟨hnull, hnone⟩ | ⟨hnull, m, hflush, hshape⟩
    · exact Or.inl ⟨⟨ec, hec, hnull⟩, by rw [hec, hnone, Option.map_none]⟩
    · refine Or.inr ⟨?_, _, by rw [hec, hflush, Option.map_some], hg.sameShape hshape⟩
      rintro ⟨ec', hec', hmeets⟩
      cases hec.symm.trans hec'
      exact hnull hmeets

/-- From a state that the wrappers own, every allowed call is defined unless it
dereferences `NULL`, and leaves such a state. -/
theorem Owned.exec {call : WrapCall} (hallowed : call.Allowed g) :
    (call.DereferencesNull g ∧ call.exec g = none) ∨
      (¬ call.DereferencesNull g ∧ ∃ g', call.exec g = some g' ∧ g'.Owned) := by
  cases call with
  | create len fails =>
      rcases hg.create len fails with ⟨hnull, hnone⟩ | ⟨hnull, g', ec, hsome, hg'⟩
      · exact Or.inl ⟨hnull, by rw [WrapCall.exec, hnone, Option.map_none]⟩
      · exact Or.inr ⟨hnull, g', by rw [WrapCall.exec, hsome, Option.map_some], hg'⟩
  | free h =>
      obtain ⟨inner, hwrapper, -⟩ := hg.wrapper h hallowed
      cases inner with
      | none =>
          refine Or.inl ⟨hwrapper, ?_⟩
          rw [WrapCall.exec, oslecEchoCanFree, Heap.wrapper_eq hwrapper]
          rfl
      | some ec =>
          obtain ⟨ps, -, -, hfree⟩ := hg.oslecEchoCanFree_eq hallowed hwrapper
          refine Or.inr ⟨?_, _, hfree, hg.free hallowed hwrapper hfree⟩
          intro hnull
          cases hwrapper.symm.trans hnull
  | update h tx rx =>
      rcases hg.update hallowed tx rx with ⟨hnull, hnone⟩ | ⟨hnull, g', clean, hsome, hg'⟩
      · exact Or.inl ⟨hnull, by rw [WrapCall.exec, hnone, Option.map_none]⟩
      · exact Or.inr ⟨hnull, g', by rw [WrapCall.exec, hsome, Option.map_some], hg'⟩
  | hpfTx p tx =>
      rcases hg.hpfTx hallowed tx with ⟨hnull, hnone⟩ | ⟨hnull, g', out, hsome, hg'⟩
      · exact Or.inl ⟨hnull, by rw [WrapCall.exec, hnone, Option.map_none]⟩
      · exact Or.inr ⟨hnull, g', by rw [WrapCall.exec, hsome, Option.map_some], hg'⟩
  | procRead => exact Or.inr ⟨id, hg.procRead⟩
  | procWriteMode mode => exact Or.inr ⟨id, hg.procWriteMode mode⟩
  | procWriteReset => exact hg.procWriteReset

end

theorem owned_of_run {calls : List WrapCall} (hdisc : Disciplined calls) {g : Globals}
    (hrun : wrapRun calls = some g) : g.Owned := by
  induction calls using List.reverseRecOn generalizing g with
  | nil =>
      obtain rfl := Option.some.inj hrun
      exact owned_init
  | append_singleton pre call ih =>
      rw [wrapRun_concat] at hrun
      obtain ⟨g₀, hpre, hexec⟩ := Option.bind_eq_some_iff.mp hrun
      have hg := ih (hdisc.of_prefix (List.prefix_append pre [call])) hpre
      rcases hg.exec (hdisc pre call (List.prefix_refl _) g₀ hpre) with
        ⟨-, hnone⟩ | ⟨-, g', hsome, hg'⟩
      · cases hexec.symm.trans hnone
      · cases hexec.symm.trans hsome
        exact hg'

end Globals

/-- Whatever allocations fail, a run ends only where a call dereferences `NULL`: no
call accesses or frees a block that is not live, and nothing leaks. Every live
block is reached from exactly one held wrapper, a free passes each block of its
wrapper to `free` exactly once, and without a held wrapper the heap is empty. -/
theorem memory_never_leaks (calls : List WrapCall) (hdisc : Disciplined calls) {g : Globals}
    (hrun : wrapRun calls = some g) :
    (∀ call : WrapCall, call.Allowed g → ((call.exec g).isSome ↔ ¬ call.DereferencesNull g)) ∧
      g.heap.Partition g.handles g.heap.blocks ∧
      (∀ h ∈ g.handles, ∀ g', g.oslecEchoCanFree h = some g' →
        ∃ ps, g.heap.freeAll ps = some g'.heap ∧ ps.reduceOption.Perm (g.heap.blocks h)) ∧
      (g.handles = ∅ → ∀ a, g.heap.cells a = none) := by
  have howned := Globals.owned_of_run hdisc hrun
  refine ⟨?_, howned.partition, ?_, ?_⟩
  · intro call hallowed
    rcases howned.exec hallowed with ⟨hnull, hnone⟩ | ⟨hnull, g', hsome, -⟩
    · rw [hnone]
      exact iff_of_false Bool.false_ne_true (not_not.mpr hnull)
    · rw [hsome]
      exact iff_of_true rfl hnull
  · intro h hh g' hfree
    obtain ⟨inner, hwrapper, -⟩ := howned.wrapper h hh
    cases inner with
    | none =>
        rw [Globals.oslecEchoCanFree, Heap.wrapper_eq hwrapper] at hfree
        cases hfree
    | some ec =>
        obtain ⟨ps, hperm, hall, heq⟩ := howned.oslecEchoCanFree_eq hh hwrapper
        cases hfree.symm.trans heq
        exact ⟨ps, hall, hperm⟩
  · intro hempty a
    have hpartition := howned.partition
    rw [hempty] at hpartition
    exact hpartition.cells_eq_none a

theorem disciplined_pair {first second : WrapCall} (hfirst : first.Allowed Globals.init)
    (hsecond : ∀ g, first.exec Globals.init = some g → second.Allowed g) :
    Disciplined [first, second] := by
  intro pre call hat g hg
  match pre with
  | [] =>
      obtain ⟨rfl, -⟩ := List.cons_prefix_cons.mp hat
      obtain rfl := Option.some.inj hg
      exact hfirst
  | [c] =>
      obtain ⟨rfl, hrest⟩ := List.cons_prefix_cons.mp hat
      obtain ⟨rfl, -⟩ := List.cons_prefix_cons.mp hrest
      exact hsecond g ((wrapRun_concat [] c).symm.trans hg)
  | c :: c' :: rest =>
      have hlen := hat.length_le
      simp at hlen

/-- A canceller that has not got its first filter history cannot be updated. A
free passes all that there is of it to `free`, and leaves nothing behind. -/
theorem memory_never_leaks_without_history :
    ∃ g g', wrapRun [.create 2 fun s => decide (s = .history)] = some g ∧
      (WrapCall.update 0 0 0).DereferencesNull g ∧ g.oslecEchoCanFree 0 = some g' ∧
      (∃ ps, g.heap.freeAll ps = some g'.heap ∧ ps.reduceOption.Perm (g.heap.blocks 0)) ∧
      ∀ a, g'.heap.cells a = none := by
  have hheld : (wrapRun [.create 2 fun s => decide (s = .history)]).map
      (fun g => decide (0 ∈ g.handles)) = some true := by decide +kernel
  have hupdate : (wrapRun [.create 2 fun s => decide (s = .history)]).map
      (fun g => ((WrapCall.update 0 0 0).exec g).isNone) = some true := by decide +kernel
  have hfreed : (wrapRun [.create 2 fun s => decide (s = .history), .free 0]).map
      (fun g => decide (g.handles = ∅)) = some true := by decide +kernel
  obtain ⟨g, hrun, hmem⟩ := Option.map_eq_some_iff.mp hheld
  obtain ⟨g', hrun', hempty⟩ := Option.map_eq_some_iff.mp hfreed
  have hmem : 0 ∈ g.handles := of_decide_eq_true hmem
  have hdisc : Disciplined [.create 2 fun s => decide (s = .history), .free 0] := by
    refine disciplined_pair trivial fun g₁ hg₁ => ?_
    cases hrun.symm.trans hg₁
    exact hmem
  have hfree : g.oslecEchoCanFree 0 = some g' := by
    have hlast := wrapRun_concat [.create 2 fun s => decide (s = .history)] (.free 0)
    rw [hrun] at hlast
    exact hlast.symm.trans hrun'
  obtain ⟨hnull, -, hfrees, -⟩ := memory_never_leaks _
    (hdisc.of_prefix (List.prefix_append [_] [_])) hrun
  obtain ⟨-, -, -, hgone⟩ := memory_never_leaks _ hdisc hrun'
  refine ⟨g, g', hrun, ?_, hfree, hfrees 0 hmem g' hfree, hgone (of_decide_eq_true hempty)⟩
  rw [hrun, Option.map_some, Option.some.injEq, Option.isNone_iff_eq_none] at hupdate
  by_contra hdefined
  have hsome := (hnull (.update 0 0 0) hmem).mpr hdefined
  rw [hupdate] at hsome
  cases hsome

/-! ### The copy in the kernel -/

namespace Heap

/-- `oslec_create` of the kernel copy. -/
def oslecCreate (m : Heap) (len : ℕ) (adaptionMode : BitVec 32) (fails : Site → Bool) :
    Option (Heap × Option ℕ) :=
  let c : CancellerBlock :=
    { state := Oslec.echoCanCreate len adaptionMode
      firTaps16Fg := none, firTaps16Bg := none
      history := none, historyBg := none, snapshot := none }
  match m.malloc (fails .canceller) (.canceller c) with
  | (m, none) => some (m, none)
  | (m, some ec) =>
    match m.malloc (fails .firTaps16Fg) .array with
    | (m, none) => (m.freeAll [none, none, some ec]).map fun m => (m, none)
    | (m, some fg) =>
      match m.malloc (fails .firTaps16Bg) .array with
      | (m, none) => (m.freeAll [some fg, none, some ec]).map fun m => (m, none)
      | (m, some bg) =>
        let (m, history) := m.malloc (fails .history) .array
        let (m, historyBg) := m.malloc (fails .historyBg) .array
        match m.malloc (fails .snapshot) .array with
        -- `error_oom` gives back the taps and the canceller
        | (m, none) => (m.freeAll [some fg, some bg, some ec]).map fun m => (m, none)
        | (m, some snapshot) =>
          (m.store (some ec) (.canceller { c with
            firTaps16Fg := some fg, firTaps16Bg := some bg
            history := history, historyBg := historyBg, snapshot := some snapshot })).map
            fun m => (m, some ec)

def oslecSnapshot (m : Heap) (ec : Option ℕ) : Option Heap :=
  (canceller m ec).bind fun c => (array m c.snapshot).bind fun _ =>
    (array m c.firTaps16Fg).bind fun _ =>
      m.store ec (.canceller { c with state := Oslec.echoCanSnapshot c.state })

end Heap

/-- The cancellers that callers of the kernel copy hold. -/
structure Module where
  heap : Heap
  handles : Finset ℕ

inductive ModuleCall
  | create (len : ℕ) (adaptionMode : BitVec 32) (fails : Site → Bool)
  | free (ec : ℕ)
  | update (ec : ℕ) (tx rx : Int16)
  | hpfTx (ec : ℕ) (tx : Int16)
  | adaptionMode (ec : ℕ) (mode : BitVec 32)
  | flush (ec : ℕ)
  | snapshot (ec : ℕ)

/-- The canceller that a call is made on. -/
def ModuleCall.ec? : ModuleCall → Option ℕ
  | .create _ _ _ => none
  | .free ec => some ec
  | .update ec _ _ => some ec
  | .hpfTx ec _ => some ec
  | .adaptionMode ec _ => some ec
  | .flush ec => some ec
  | .snapshot ec => some ec

def ModuleCall.exec (g : Module) : ModuleCall → Option Module
  | .create len mode fails => (g.heap.oslecCreate len mode fails).map fun (m, ec) =>
      ⟨m, ec.elim g.handles (insert · g.handles)⟩
  | .free ec => (g.heap.echoCanFree (some ec)).map fun m => ⟨m, g.handles.erase ec⟩
  | .update ec tx rx => (g.heap.echoCanUpdate (some ec) tx rx).map fun (m, _) => ⟨m, g.handles⟩
  | .hpfTx ec tx => (g.heap.echoCanHpfTx (some ec) tx).map fun (m, _) => ⟨m, g.handles⟩
  | .adaptionMode ec mode => (g.heap.echoCanAdaptionMode (some ec) mode).map (⟨·, g.handles⟩)
  | .flush ec => (g.heap.echoCanFlush (some ec)).map (⟨·, g.handles⟩)
  | .snapshot ec => (g.heap.oslecSnapshot (some ec)).map (⟨·, g.handles⟩)

/-- Callers use and free what they hold. -/
def ModuleCall.Allowed (g : Module) (call : ModuleCall) : Prop :=
  ∀ ec, call.ec? = some ec → ec ∈ g.handles

def Module.load : Module := ⟨BlockHeap.empty, ∅⟩

/-- What dereferences `NULL`: a creation never does. -/
def ModuleCall.DereferencesNull (g : Module) : ModuleCall → Prop
  | .update ec _ _ => g.heap.MeetsNull ec
  | .flush ec => g.heap.MeetsNull ec
  | .snapshot ec => ∃ c, g.heap.cells ec = some (.canceller c) ∧
      (c.snapshot = none ∨ c.firTaps16Fg = none)
  | _ => False

/-- A run in which every call is allowed and defined. -/
inductive ModuleRun : List ModuleCall → Module → Prop
  | load : ModuleRun [] Module.load
  | call {calls : List ModuleCall} {g g' : Module} {call : ModuleCall} : ModuleRun calls g →
      call.Allowed g → call.exec g = some g' → ModuleRun (calls ++ [call]) g'

/-- How many filter histories are lost in a call. -/
def ModuleCall.loss : ModuleCall → ℕ
  | .create _ _ fails =>
      if !fails .canceller && !fails .firTaps16Fg && !fails .firTaps16Bg && fails .snapshot then
        (!fails .history).toNat + (!fails .historyBg).toNat
      else 0
  | _ => 0

namespace Heap

/-- The kernel copy always returns: without a canceller, with what nobody can reach
any more, or with a canceller and all that has been allocated for it. -/
theorem oslecCreate_spec (m : Heap) (len : ℕ) (adaptionMode : BitVec 32) (fails : Site → Bool) :
    (∃ m' lost, m.oslecCreate len adaptionMode fails = some (m', none) ∧ m.Grows m' lost ∧
        lost.length = (ModuleCall.create len adaptionMode fails).loss) ∨
      ∃ m' ec, m.oslecCreate len adaptionMode fails = some (m', some ec) ∧
        Creates m m' (some ec) ∧ (ModuleCall.create len adaptionMode fails).loss = 0 := by
  cases hec : fails .canceller with
  | true =>
      refine Or.inl ⟨m, [], ?_, m.grows_nil, by simp [ModuleCall.loss, hec]⟩
      simp only [oslecCreate, hec, BlockHeap.malloc_true]
  | false =>
  cases hfg : fails .firTaps16Fg with
  | true =>
      obtain ⟨m', hfree, hgrows⟩ := m.freeAll_mallocAll
        [(false, .canceller (newCanceller len adaptionMode))] [none, none, some m.next]
        (by simp [BlockHeap.mallocAll]) (by simp)
      refine Or.inl ⟨m', [], ?_, by simpa [BlockHeap.mallocAll] using hgrows,
        by simp [ModuleCall.loss, hfg]⟩
      simp only [oslecCreate, hec, hfg, BlockHeap.malloc_true, BlockHeap.malloc_false]
      exact congrArg (Option.map fun m' => (m', none)) hfree
  | false =>
  cases hbg : fails .firTaps16Bg with
  | true =>
      obtain ⟨m', hfree, hgrows⟩ := m.freeAll_mallocAll
        [(false, .canceller (newCanceller len adaptionMode)), (false, .array)]
        [some (m.next + 1), none, some m.next] (by simp [BlockHeap.mallocAll]) (by simp)
      refine Or.inl ⟨m', [], ?_, by simpa [BlockHeap.mallocAll] using hgrows,
        by simp [ModuleCall.loss, hbg]⟩
      simp only [oslecCreate, hec, hfg, hbg, BlockHeap.malloc_true, BlockHeap.malloc_false,
        BlockHeap.next_push]
      exact congrArg (Option.map fun m' => (m', none)) hfree
  | false =>
  cases hsnapshot : fails .snapshot with
  | true =>
      -- the histories are not given back
      obtain ⟨m', hfree, hgrows⟩ := m.freeAll_mallocAll
        [(false, .canceller (newCanceller len adaptionMode)), (false, .array), (false, .array),
          (fails .history, .array), (fails .historyBg, .array)]
        [some (m.next + 1), some (m.next + 2), some m.next]
        (by simp [BlockHeap.mallocAll]) (by simp)
      refine Or.inl ⟨m', _, ?_, hgrows, ?_⟩
      · simp only [oslecCreate, hec, hfg, hbg, hsnapshot, BlockHeap.malloc_true,
          BlockHeap.malloc_false, BlockHeap.next_push]
        exact congrArg (Option.map fun m' => (m', none)) hfree
      · cases hhistory : fails .history <;> cases hhistoryBg : fails .historyBg <;>
          simp [ModuleCall.loss, BlockHeap.mallocAll, add_assoc, hec, hfg, hbg,
            hsnapshot, hhistory, hhistoryBg]
  | false =>
      have hreqs : ∀ req ∈ [(false, Block.array), (false, .array), (fails .history, .array),
          (fails .historyBg, .array), (false, .array)], req.2 = .array := by simp
      obtain ⟨hstore, hcreates⟩ := creates_canceller (m := m)
        (b := .canceller (newCanceller len adaptionMode)) hreqs
        (c := ⟨Oslec.echoCanCreate len adaptionMode, _, _, _, _, _⟩) rfl
      refine Or.inr ⟨_, m.next, ?_, hcreates, by simp [ModuleCall.loss, hsnapshot]⟩
      simp only [oslecCreate, hec, hfg, hbg, hsnapshot, BlockHeap.malloc_false,
        BlockHeap.next_push]
      exact congrArg (Option.map fun m' => (m', some m.next)) hstore

theorem IsCanceller.oslecSnapshot_spec {m : Heap} {ec : ℕ} (h : m.IsCanceller ec) :
    ((∃ c, m.cells ec = some (.canceller c) ∧ (c.snapshot = none ∨ c.firTaps16Fg = none)) ∧
        oslecSnapshot m (some ec) = none) ∨
      ((¬ ∃ c, m.cells ec = some (.canceller c) ∧ (c.snapshot = none ∨ c.firTaps16Fg = none)) ∧
        ∃ m', oslecSnapshot m (some ec) = some m' ∧ SameShape m m') := by
  obtain ⟨c, hc⟩ := h.block
  have hsnapshot := h.array_isSome hc (p := c.snapshot) (by simp [Block.pointers])
  have hfg := h.array_isSome hc (p := c.firTaps16Fg) (by simp [Block.pointers])
  rw [oslecSnapshot, canceller_eq hc, Option.bind_some]
  cases hs : Heap.array m c.snapshot with
  | none =>
      rw [hs] at hsnapshot
      exact Or.inl ⟨⟨c, hc, Or.inl (not_not.mp fun h => Bool.false_ne_true (hsnapshot.mpr h))⟩, rfl⟩
  | some _ =>
  cases hf : Heap.array m c.firTaps16Fg with
  | none =>
      rw [hf] at hfg
      exact Or.inl ⟨⟨c, hc, Or.inr (not_not.mp fun h => Bool.false_ne_true (hfg.mpr h))⟩, rfl⟩
  | some _ =>
      rw [hs] at hsnapshot
      rw [hf] at hfg
      obtain ⟨m', hstore, hshape⟩ := sameShape_store hc (Oslec.echoCanSnapshot c.state)
      refine Or.inr ⟨?_, m', hstore, hshape⟩
      rintro ⟨c', hc', hnull⟩
      cases hc.symm.trans hc'
      exact hnull.elim (hsnapshot.mp rfl) (hfg.mp rfl)

end Heap

/-! ### Its runs -/

namespace Module

/-- What each canceller reaches, and what nobody does. -/
def reach (g : Module) (lost : List ℕ) : Option ℕ → List ℕ
  | none => lost
  | some ec => ec :: g.heap.targets ec

/-- The live blocks are those of the held cancellers, and the lost ones. -/
def Accounts (g : Module) (lost : List ℕ) : Prop :=
  g.heap.Partition (Finset.insertNone g.handles) (g.reach lost)

variable {g g' : Module} {lost : List ℕ}

theorem accounts_load : load.Accounts [] := by
  have hnobody : Finset.insertNone load.handles = insert none ∅ := by
    ext k
    cases k <;> simp [load]
  rw [Accounts, hnobody]
  exact BlockHeap.partition_empty.insert (Finset.notMem_empty none) (BlockHeap.grows_nil _)

theorem Accounts.sameShape (h : g.Accounts lost) (hshape : Heap.SameShape g.heap g'.heap)
    (hhandles : g'.handles = g.handles) : g'.Accounts lost := by
  rw [Accounts, hhandles]
  refine h.congr hshape.live fun k _ => ?_
  cases k with
  | none => rfl
  | some ec =>
      change ec :: g'.heap.targets ec = ec :: g.heap.targets ec
      rw [Heap.targets, Heap.targets, hshape ec]

theorem reach_congr (lost : List ℕ) {k : Option ℕ}
    (hcells : ∀ a ∈ g.reach lost k, g'.heap.cells a = g.heap.cells a) :
    g'.reach lost k = g.reach lost k := by
  cases k with
  | none => rfl
  | some ec =>
      change ec :: g'.heap.targets ec = ec :: g.heap.targets ec
      rw [Heap.targets_congr (hcells ec List.mem_cons_self)]

/-- The blocks are accounted for, and what callers hold are cancellers. -/
structure Keeps (g : Module) (lost : List ℕ) : Prop where
  accounts : g.Accounts lost
  canceller : ∀ ec ∈ g.handles, g.heap.IsCanceller ec

theorem keeps_load : load.Keeps [] :=
  ⟨accounts_load, fun ec hec => absurd hec (Finset.notMem_empty ec)⟩

theorem Keeps.sameShape (h : g.Keeps lost) {m : Heap} (hshape : Heap.SameShape g.heap m) :
    Keeps ⟨m, g.handles⟩ lost :=
  ⟨h.accounts.sameShape hshape rfl, fun ec hec => hshape.isCanceller (h.canceller ec hec)⟩

theorem Keeps.free (h : g.Keeps lost) {ec : ℕ} (hec : ec ∈ g.handles) :
    ∃ g', (ModuleCall.free ec).exec g = some g' ∧ g'.Keeps lost := by
  obtain ⟨ps, hfree, hperm⟩ := Heap.echoCanFree_eq (h.canceller ec hec)
  change ps.reduceOption.Perm (g.reach lost (some ec)) at hperm
  have hmem : some ec ∈ Finset.insertNone g.handles := Finset.some_mem_insertNone.mpr hec
  have hall : g.heap.freeAll ps = some (g.heap.eraseAll ps.reduceOption) := by
    refine (g.heap.freeAll_eq_some_iff _ _).mpr ⟨?_, ?_, rfl⟩
    · exact fun a ha => (h.accounts.live a).mpr ⟨_, hmem, hperm.mem_iff.mp ha⟩
    · exact hperm.nodup_iff.mpr (h.accounts.nodup _ hmem)
  have hcells : ∀ k ∈ (Finset.insertNone g.handles).erase (some ec), ∀ a ∈ g.reach lost k,
      (g.heap.eraseAll ps.reduceOption).cells a = g.heap.cells a := by
    intro k hk a ha
    obtain ⟨hne, hk⟩ := Finset.mem_erase.mp hk
    apply BlockHeap.cells_eraseAll_of_notMem
    rw [hperm.mem_iff]
    exact h.accounts.disjoint k hk _ hmem hne ha
  have herase : Finset.insertNone (g.handles.erase ec) =
      (Finset.insertNone g.handles).erase (some ec) := by
    ext k
    cases k <;> simp
  refine ⟨⟨g.heap.eraseAll ps.reduceOption, g.handles.erase ec⟩, ?_, ?_, ?_⟩
  · rw [ModuleCall.exec, hfree, hall, Option.map_some]
  · rw [Accounts]
    dsimp only
    rw [herase]
    refine (BlockHeap.Partition.erase h.accounts hmem fun a => ?_).congr (fun a => Iff.rfl)
      fun k hk => reach_congr lost (hcells k hk)
    rw [BlockHeap.live_eraseAll, hperm.mem_iff]
  · intro k hk
    have hk' := hcells (some k) (herase ▸ Finset.some_mem_insertNone.mpr hk)
    obtain ⟨hself, htargets⟩ := List.forall_mem_cons.mp hk'
    exact (h.canceller k (Finset.mem_of_mem_erase hk)).congr hself htargets

theorem Keeps.create (h : g.Keeps lost) (len : ℕ) (mode : BitVec 32) (fails : Site → Bool) :
    ∃ g' lost', (ModuleCall.create len mode fails).exec g = some g' ∧ g'.Keeps lost' ∧
      lost'.length = lost.length + (ModuleCall.create len mode fails).loss := by
  have hcells : ∀ (m : Heap) (new : List ℕ), g.heap.Grows m new →
      ∀ k ∈ Finset.insertNone g.handles, ∀ a ∈ g.reach lost k, m.cells a = g.heap.cells a :=
    fun m new hgrows k hk a ha =>
      hgrows.cells a ((h.accounts.live a).mpr ⟨k, hk, ha⟩).lt_next
  have hreach : ∀ (m : Heap) (new : List ℕ) (handles : Finset ℕ), g.heap.Grows m new →
      ∀ k ∈ Finset.insertNone g.handles, (Module.mk m handles).reach lost k = g.reach lost k :=
    fun m new handles hgrows k hk => reach_congr lost (hcells m new hgrows k hk)
  have hkept : ∀ (m : Heap) (new : List ℕ), g.heap.Grows m new →
      ∀ ec ∈ g.handles, m.IsCanceller ec := by
    intro m new hgrows ec hec
    obtain ⟨hself, htargets⟩ := List.forall_mem_cons.mp
      (hcells m new hgrows (some ec) (Finset.some_mem_insertNone.mpr hec))
    exact (h.canceller ec hec).congr hself htargets
  rcases Heap.oslecCreate_spec g.heap len mode fails with
    ⟨m, new, hnull, hgrows, hlength⟩ | ⟨m, ec, hsome, hcreates, hloss⟩
  · refine ⟨⟨m, g.handles⟩, lost ++ new, ?_, ⟨?_, hkept m new hgrows⟩, ?_⟩
    · rw [ModuleCall.exec, hnull]
      rfl
    · refine (BlockHeap.Partition.append h.accounts (Finset.none_mem_insertNone) hgrows).congr
        (fun a => Iff.rfl) ?_
      intro k hk
      cases k with
      | none =>
          rw [Function.update_self]
          rfl
      | some ec =>
          rw [Function.update_of_ne (Option.some_ne_none ec)]
          exact hreach _ _ _ hgrows _ hk
    · rw [List.length_append, hlength]
  · have hgrows := hcreates.grows
    rw [Option.toList_some, List.flatMap_singleton] at hgrows
    refine ⟨⟨m, insert ec g.handles⟩, lost, ?_, ⟨?_, ?_⟩, by rw [hloss, Nat.add_zero]⟩
    · rw [ModuleCall.exec, hsome]
      rfl
    · have hnew : some ec ∉ Finset.insertNone g.handles := fun hmem =>
        absurd ((h.accounts.live ec).mpr ⟨_, hmem, List.mem_cons_self⟩).lt_next
          (Nat.not_lt.mpr (hgrows.le_new ec List.mem_cons_self))
      have hinsert : Finset.insertNone (insert ec g.handles) =
          insert (some ec) (Finset.insertNone g.handles) := by
        ext k
        cases k <;> simp
      rw [Accounts]
      dsimp only
      rw [hinsert]
      refine BlockHeap.Partition.insert ?_ hnew hgrows
      exact BlockHeap.Partition.congr h.accounts (fun a => Iff.rfl) (hreach _ _ _ hgrows)
    · intro k hk
      rcases Finset.mem_insert.mp hk with rfl | hk
      · exact hcreates.canceller k rfl
      · exact hkept m _ hgrows k hk

/-- An allowed call is defined unless it dereferences `NULL`, and loses what is counted. -/
theorem Keeps.exec (h : g.Keeps lost) {call : ModuleCall} (hallowed : call.Allowed g) :
    (call.DereferencesNull g ∧ call.exec g = none) ∨
      (¬ call.DereferencesNull g ∧ ∃ g' lost', call.exec g = some g' ∧ g'.Keeps lost' ∧
        lost'.length = lost.length + call.loss) := by
  cases call with
  | create len mode fails => exact Or.inr ⟨id, h.create len mode fails⟩
  | free ec =>
      obtain ⟨g', hfree, hg'⟩ := h.free (hallowed ec rfl)
      exact Or.inr ⟨id, g', lost, hfree, hg', rfl⟩
  | update ec tx rx =>
      rcases (h.canceller ec (hallowed ec rfl)).echoCanUpdate_spec tx rx with
        ⟨hnull, hnone⟩ | ⟨hnull, m, out, hsome, hshape⟩
      · exact Or.inl ⟨hnull, by rw [ModuleCall.exec, hnone, Option.map_none]⟩
      · exact Or.inr ⟨hnull, _, lost, by rw [ModuleCall.exec, hsome, Option.map_some],
          h.sameShape hshape, rfl⟩
  | hpfTx ec tx =>
      obtain ⟨m, out, hsome, hshape⟩ :=
        (h.canceller ec (hallowed ec rfl)).echoCanHpfTx_spec tx
      exact Or.inr ⟨id, _, lost, by rw [ModuleCall.exec, hsome, Option.map_some],
        h.sameShape hshape, rfl⟩
  | adaptionMode ec mode =>
      obtain ⟨m, hsome, hshape⟩ :=
        (h.canceller ec (hallowed ec rfl)).echoCanAdaptionMode_spec mode
      exact Or.inr ⟨id, _, lost, by rw [ModuleCall.exec, hsome, Option.map_some],
        h.sameShape hshape, rfl⟩
  | flush ec =>
      rcases (h.canceller ec (hallowed ec rfl)).echoCanFlush_spec with
        ⟨hnull, hnone⟩ | ⟨hnull, m, hsome, hshape⟩
      · exact Or.inl ⟨hnull, by rw [ModuleCall.exec, hnone, Option.map_none]⟩
      · exact Or.inr ⟨hnull, _, lost, by rw [ModuleCall.exec, hsome, Option.map_some],
          h.sameShape hshape, rfl⟩
  | snapshot ec =>
      rcases (h.canceller ec (hallowed ec rfl)).oslecSnapshot_spec with
        ⟨hnull, hnone⟩ | ⟨hnull, m, hsome, hshape⟩
      · exact Or.inl ⟨hnull, by rw [ModuleCall.exec, hnone, Option.map_none]⟩
      · exact Or.inr ⟨hnull, _, lost, by rw [ModuleCall.exec, hsome, Option.map_some],
          h.sameShape hshape, rfl⟩

theorem keeps_of_run {calls : List ModuleCall} {g : Module} (hrun : ModuleRun calls g) :
    ∃ lost, g.Keeps lost ∧ lost.length = (calls.map ModuleCall.loss).sum := by
  induction hrun with
  | load => exact ⟨[], keeps_load, rfl⟩
  | call hrun hallowed hexec ih =>
      obtain ⟨lost, hkeeps, hlength⟩ := ih
      rcases hkeeps.exec hallowed with ⟨-, hnone⟩ | ⟨-, g₁, lost', hsome, hkeeps', hlength'⟩
      · cases hexec.symm.trans hnone
      · cases hexec.symm.trans hsome
        refine ⟨lost', hkeeps', ?_⟩
        rw [hlength', hlength, List.map_append, List.sum_append, List.map_singleton,
          List.sum_singleton]

end Module

/-- What the kernel copy loses over a run: exactly the filter histories of the
creations that cannot get the snapshot buffer, for good. A run ends only where a
call other than a creation or a free dereferences `NULL`. -/
theorem kernel_copy_loses_histories {calls : List ModuleCall} {g : Module}
    (hrun : ModuleRun calls g) :
    (∃ lost, g.Accounts lost ∧ lost.length = (calls.map ModuleCall.loss).sum) ∧
      ∀ call : ModuleCall, call.Allowed g →
        ((call.exec g).isSome ↔ ¬ call.DereferencesNull g) := by
  obtain ⟨lost, hkeeps, hlength⟩ := Module.keeps_of_run hrun
  refine ⟨⟨lost, hkeeps.accounts, hlength⟩, ?_⟩
  intro call hallowed
  rcases hkeeps.exec hallowed with ⟨hnull, hnone⟩ | ⟨hnull, g', lost', hsome, -⟩
  · rw [hnone]
    exact iff_of_false Bool.false_ne_true (not_not.mpr hnull)
  · rw [hsome]
    exact iff_of_true rfl hnull

theorem kernel_copy_loses_histories_both :
    ∃ g lost, ModuleRun [.create 2 0#32 fun s => decide (s = .snapshot)] g ∧ g.Accounts lost ∧
      lost.length = 2 := by
  have hrun : ModuleRun [.create 2 0#32 fun s => decide (s = .snapshot)] _ :=
    .call .load (by simp [ModuleCall.Allowed, ModuleCall.ec?]) rfl
  obtain ⟨⟨lost, haccounts, hlength⟩, -⟩ := kernel_copy_loses_histories hrun
  exact ⟨_, lost, hrun, haccounts, hlength⟩

end Oslec
