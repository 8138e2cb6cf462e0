import Oslec.Kernel.Monitor
import Oslec.Library.BlockHeap
import Mathlib.Tactic.IntervalCases

/-!
The allocations behind a canceller. `oslec_echo_can_create` makes seven of them
in three functions: the wrapper, the canceller, two tap arrays, two filter
histories and the snapshot. Only three of the seven are checked, and the caller
of `echo_can_create` does not look at what those checks return.
-/

namespace Oslec

/-! ### Blocks -/

/-- The calls of `malloc`. -/
inductive Site
  | wrapper | canceller | firTaps16Fg | firTaps16Bg | history | historyBg | snapshot
deriving DecidableEq

/-- `echo_can_state_t` with its pointers. What the arrays behind them hold is
part of `state`. -/
structure CancellerBlock where
  state : EchoCan
  firTaps16Fg : Option ℕ
  firTaps16Bg : Option ℕ
  history : Option ℕ
  historyBg : Option ℕ
  snapshot : Option ℕ

inductive Block
  | wrapper (ec : Option ℕ)
  | canceller (c : CancellerBlock)
  | array

abbrev Heap := BlockHeap Block

/-! ### The canceller on the heap -/

namespace Heap

/-- `ec->ec`. -/
def wrapper (m : Heap) (p : Option ℕ) : Option (Option ℕ) :=
  match m.load p with
  | some (.wrapper ec) => some ec
  | _ => none

def canceller (m : Heap) (p : Option ℕ) : Option CancellerBlock :=
  match m.load p with
  | some (.canceller c) => some c
  | _ => none

/-- An access to an array. -/
def array (m : Heap) (p : Option ℕ) : Option Unit :=
  match m.load p with
  | some .array => some ()
  | _ => none

def echoCanCreate (m : Heap) (len : ℕ) (adaptionMode : BitVec 32) (fails : Site → Bool) :
    Option (Heap × Option ℕ) :=
  let c : CancellerBlock :=
    { state := Oslec.echoCanCreate len adaptionMode
      firTaps16Fg := none, firTaps16Bg := none
      history := none, historyBg := none, snapshot := none }
  match m.malloc (fails .canceller) (.canceller c) with
  | (m, none) => some (m, none)
  | (m, some ec) =>
    match m.malloc (fails .firTaps16Fg) .array with
    | (m, none) => (m.freeAll [some ec]).map fun m => (m, none)
    | (m, some fg) =>
      match m.malloc (fails .firTaps16Bg) .array with
      | (m, none) => (m.freeAll [some fg, some ec]).map fun m => (m, none)
      | (m, some bg) =>
        -- `fir16_create` clears the history it got, and its result is not looked at
        let (m, history) := m.malloc (fails .history) .array
        let (m, historyBg) := m.malloc (fails .historyBg) .array
        let (m, snapshot) := m.malloc (fails .snapshot) .array
        -- the snapshot is cleared unchecked
        (array m snapshot).bind fun _ =>
          (m.store (some ec) (.canceller { c with
            firTaps16Fg := some fg, firTaps16Bg := some bg
            history := history, historyBg := historyBg, snapshot := snapshot })).map
            fun m => (m, some ec)

def echoCanFree (m : Heap) (ec : Option ℕ) : Option Heap :=
  (canceller m ec).bind fun c =>
    m.freeAll [c.history, c.historyBg, c.firTaps16Fg, c.firTaps16Bg, c.snapshot, ec]

/-- Both filter histories and both tap arrays are accessed. -/
def arrays (m : Heap) (c : CancellerBlock) : Option Unit :=
  (array m c.history).bind fun _ => (array m c.historyBg).bind fun _ =>
    (array m c.firTaps16Fg).bind fun _ => array m c.firTaps16Bg

def echoCanUpdate (m : Heap) (ec : Option ℕ) (tx rx : Int16) : Option (Heap × Int16) :=
  (canceller m ec).bind fun c => (arrays m c).bind fun _ =>
    (m.store ec (.canceller { c with state := (Oslec.echoCanUpdate c.state tx rx).1 })).map
      fun m => (m, (Oslec.echoCanUpdate c.state tx rx).2)

def echoCanHpfTx (m : Heap) (ec : Option ℕ) (tx : Int16) : Option (Heap × Int16) :=
  (canceller m ec).bind fun c =>
    (m.store ec (.canceller { c with state := (Oslec.echoCanHpfTx c.state tx).1 })).map
      fun m => (m, (Oslec.echoCanHpfTx c.state tx).2)

def echoCanFlush (m : Heap) (ec : Option ℕ) : Option Heap :=
  (canceller m ec).bind fun c => (arrays m c).bind fun _ =>
    m.store ec (.canceller { c with state := Oslec.echoCanFlush c.state })

def echoCanAdaptionMode (m : Heap) (ec : Option ℕ) (mode : BitVec 32) : Option Heap :=
  (canceller m ec).bind fun c =>
    m.store ec (.canceller { c with state := Oslec.echoCanAdaptionMode c.state mode })

end Heap

/-! ### The wrapper on the heap -/

/-- The globals of the wrapper, the heap, and the wrappers that callers hold. -/
structure Globals where
  heap : Heap
  monEc : Option ℕ
  numEc : ℤ
  lenEc : ℕ
  handles : Finset ℕ

namespace Globals

/-- `init_oslec`. -/
def init : Globals where
  heap := BlockHeap.empty
  monEc := none
  numEc := 0
  lenEc := 0
  handles := ∅

def oslecEchoCanCreate (g : Globals) (len : ℕ) (fails : Site → Bool) :
    Option (Globals × Option ℕ) :=
  let (m, ec) := g.heap.malloc (fails .wrapper) (.wrapper none)
  (Heap.echoCanCreate m len createMode fails).bind fun (m, inner) =>
    -- the store through `ec` is not guarded, and neither result is looked at
    ec.bind fun a => (m.store ec (.wrapper inner)).map fun m =>
      ({ heap := m
         monEc := if g.monEc = none then inner else g.monEc
         numEc := g.numEc + 1
         lenEc := if g.monEc = none then len else g.lenEc
         handles := insert a g.handles }, ec)

def oslecEchoCanFree (g : Globals) (ec : ℕ) : Option Globals :=
  (Heap.wrapper g.heap (some ec)).bind fun inner =>
    (Heap.echoCanFree g.heap inner).bind fun m => (m.free (some ec)).map fun m =>
      { g with
        heap := m
        monEc := if g.monEc = inner then none else g.monEc
        numEc := g.numEc - 1
        handles := g.handles.erase ec }

def oslecEchoCanUpdate (g : Globals) (ec : ℕ) (tx rx : Int16) : Option (Globals × Int16) :=
  (Heap.wrapper g.heap (some ec)).bind fun inner =>
    (Heap.echoCanUpdate g.heap inner tx rx).map fun (m, clean) => ({ g with heap := m }, clean)

def oslecHpfTx (g : Globals) (ec : Option ℕ) (txlin : Int16) : Option (Globals × Int16) :=
  if ec ≠ none then
    (Heap.wrapper g.heap ec).bind fun inner =>
      (Heap.echoCanHpfTx g.heap inner txlin).map fun (m, tx) => ({ g with heap := m }, tx)
  else some (g, txlin)

/-- A read through `/proc` dereferences the monitored canceller, if there is one. -/
def procRead (g : Globals) : Option Globals :=
  if g.monEc = none then some g else (Heap.canceller g.heap g.monEc).map fun _ => g

def procWriteMode (g : Globals) (mode : BitVec 32) : Option Globals :=
  if g.monEc = none then some g
  else (Heap.echoCanAdaptionMode g.heap g.monEc mode).map fun m => { g with heap := m }

def procWriteReset (g : Globals) : Option Globals :=
  if g.monEc = none then some g
  else (Heap.echoCanFlush g.heap g.monEc).map fun m => { g with heap := m }

end Globals

inductive WrapCall
  | create (len : ℕ) (fails : Site → Bool)
  | free (ec : ℕ)
  | update (ec : ℕ) (tx rx : Int16)
  | hpfTx (ec : Option ℕ) (tx : Int16)
  | procRead
  | procWriteMode (mode : BitVec 32)
  | procWriteReset

/-- The globals after a call; there are none where it dereferences or frees a
pointer that names no block. -/
def WrapCall.exec (g : Globals) : WrapCall → Option Globals
  | .create len fails => (g.oslecEchoCanCreate len fails).map (·.1)
  | .free ec => g.oslecEchoCanFree ec
  | .update ec tx rx => (g.oslecEchoCanUpdate ec tx rx).map (·.1)
  | .hpfTx ec tx => (g.oslecHpfTx ec tx).map (·.1)
  | .procRead => g.procRead
  | .procWriteMode mode => g.procWriteMode mode
  | .procWriteReset => g.procWriteReset

/-- The globals after a run of calls. -/
def wrapRun (calls : List WrapCall) : Option Globals :=
  calls.foldlM WrapCall.exec Globals.init

/-- Callers free, update and filter with what they hold. -/
def WrapCall.Allowed (g : Globals) : WrapCall → Prop
  | .free ec => ec ∈ g.handles
  | .update ec _ _ => ec ∈ g.handles
  | .hpfTx ec _ => ∀ a, ec = some a → a ∈ g.handles
  | _ => True

/-- Every call of the run is allowed where it is made. -/
def Disciplined (calls : List WrapCall) : Prop :=
  ∀ pre call, pre ++ [call] <+: calls → ∀ g, wrapRun pre = some g → call.Allowed g

/-- Creation is atomic along a run. -/
structure CreationAtomic (calls : List WrapCall) : Prop where
  /-- No call of the run dereferences or frees a pointer that names no block. -/
  defined : (wrapRun calls).isSome
  /-- A creation with a failure in it returns `NULL` and leaves no trace. -/
  failed : ∀ pre len fails, pre ++ [.create len fails] <+: calls → (∃ s, fails s = true) →
    ∀ g, wrapRun pre = some g → ∃ g', g.oslecEchoCanCreate len fails = some (g', none) ∧
      g'.heap.cells = g.heap.cells ∧ g'.monEc = g.monEc ∧ g'.numEc = g.numEc ∧
      g'.lenEc = g.lenEc
  /-- What a creation has returned is fit for every operation. -/
  usable : ∀ pre, pre <+: calls → ∀ g, wrapRun pre = some g → ∀ call : WrapCall,
    call.Allowed g → (∀ len fails, call ≠ .create len fails) → (call.exec g).isSome

/-! ### A canceller with all its blocks -/

/-- The canceller of the wrapper at `h` when every allocation has succeeded. -/
def CancellerBlock.whole (h : ℕ) (state : EchoCan) : CancellerBlock where
  state := state
  firTaps16Fg := some (h + 2)
  firTaps16Bg := some (h + 3)
  history := some (h + 4)
  historyBg := some (h + 5)
  snapshot := some (h + 6)

/-- The seven blocks of a canceller, in the order of their allocation. -/
structure Intact (m : Heap) (h : ℕ) : Prop where
  wrapper : m.cells h = some (.wrapper (some (h + 1)))
  canceller : ∃ state, m.cells (h + 1) = some (.canceller (.whole h state))
  array : ∀ i, 2 ≤ i → i ≤ 6 → m.cells (h + i) = some .array

theorem Intact.congr {m m' : Heap} {h : ℕ} (hm : Intact m h)
    (hcells : ∀ a, h ≤ a → a < h + 7 → m'.cells a = m.cells a) : Intact m' h := by
  obtain ⟨state, hstate⟩ := hm.canceller
  refine ⟨?_, ⟨state, ?_⟩, ?_⟩
  · rw [hcells h (le_refl h) (by omega), hm.wrapper]
  · rw [hcells (h + 1) (by omega) (by omega), hstate]
  · intro i hlo hhi
    rw [hcells (h + i) (by omega) (by omega), hm.array i hlo hhi]

theorem Intact.lt_next {m : Heap} {h : ℕ} (hm : Intact m h) : h + 6 < m.next :=
  BlockHeap.lt_next (hm.array 6 (by norm_num) (le_refl 6))

/-- A new state in the canceller's block. -/
theorem Intact.set {m : Heap} {h : ℕ} (hm : Intact m h) (state : EchoCan) :
    Intact (m.set (h + 1) (.canceller (.whole h state))) h := by
  obtain ⟨old, hold⟩ := hm.canceller
  refine ⟨?_, ⟨state, BlockHeap.cells_set_self _ hold⟩, ?_⟩
  · rw [BlockHeap.cells_set_of_ne _ _ (by omega), hm.wrapper]
  · intro i hlo hhi
    rw [BlockHeap.cells_set_of_ne _ _ (by omega), hm.array i hlo hhi]

/-- Cancellers share no block. -/
def Apart (h h' : ℕ) : Prop := h + 7 ≤ h' ∨ h' + 7 ≤ h

structure HeapInv (g : Globals) : Prop where
  intact : ∀ h ∈ g.handles, Intact g.heap h
  apart : ∀ h ∈ g.handles, ∀ h' ∈ g.handles, h ≠ h' → Apart h h'
  monitored : ∀ ec, g.monEc = some ec → ∃ h ∈ g.handles, ec = h + 1

theorem heapInv_init : HeapInv Globals.init where
  intact := fun h hh => absurd hh (Finset.notMem_empty h)
  apart := fun h hh => absurd hh (Finset.notMem_empty h)
  monitored := fun ec hec => by cases hec

/-! ### The calls on such cancellers -/

section

variable {m : Heap} {h : ℕ} (hm : Intact m h)

include hm

theorem Intact.wrapper_eq : Heap.wrapper m (some h) = some (some (h + 1)) := by
  simp only [Heap.wrapper, BlockHeap.load_some, hm.wrapper]

theorem Intact.array_eq {i : ℕ} (hlo : 2 ≤ i) (hhi : i ≤ 6) :
    Heap.array m (some (h + i)) = some () := by
  simp only [Heap.array, BlockHeap.load_some, hm.array i hlo hhi]

theorem Intact.arrays_eq (state : EchoCan) :
    Heap.arrays m (.whole h state) = some () := by
  simp only [Heap.arrays, CancellerBlock.whole, hm.array_eq (by norm_num : 2 ≤ 4) (by norm_num),
    hm.array_eq (by norm_num : 2 ≤ 5) (by norm_num), hm.array_eq (le_refl 2) (by norm_num),
    hm.array_eq (by norm_num : 2 ≤ 3) (by norm_num), Option.bind_some]

theorem Intact.exists_canceller_eq :
    ∃ state, Heap.canceller m (some (h + 1)) = some (.whole h state) ∧
      ∀ c, m.store (some (h + 1)) (.canceller c) = some (m.set (h + 1) (.canceller c)) := by
  obtain ⟨state, hstate⟩ := hm.canceller
  refine ⟨state, ?_, fun _ => BlockHeap.store_eq _ hstate⟩
  simp only [Heap.canceller, BlockHeap.load_some, hstate]

/-- Every operation on an intact canceller is defined, and stores a new state. -/
theorem Intact.echoCanUpdate_eq (tx rx : Int16) :
    ∃ state clean, Heap.echoCanUpdate m (some (h + 1)) tx rx =
      some (m.set (h + 1) (.canceller (.whole h state)), clean) := by
  obtain ⟨state, hload, hstore⟩ := hm.exists_canceller_eq
  refine ⟨(Oslec.echoCanUpdate state tx rx).1, (Oslec.echoCanUpdate state tx rx).2, ?_⟩
  rw [Heap.echoCanUpdate, hload, Option.bind_some, hm.arrays_eq, Option.bind_some, hstore]
  rfl

theorem Intact.echoCanHpfTx_eq (tx : Int16) :
    ∃ state out, Heap.echoCanHpfTx m (some (h + 1)) tx =
      some (m.set (h + 1) (.canceller (.whole h state)), out) := by
  obtain ⟨state, hload, hstore⟩ := hm.exists_canceller_eq
  refine ⟨(Oslec.echoCanHpfTx state tx).1, (Oslec.echoCanHpfTx state tx).2, ?_⟩
  rw [Heap.echoCanHpfTx, hload, Option.bind_some, hstore]
  rfl

theorem Intact.echoCanFlush_eq :
    ∃ state, Heap.echoCanFlush m (some (h + 1)) =
      some (m.set (h + 1) (.canceller (.whole h state))) := by
  obtain ⟨state, hload, hstore⟩ := hm.exists_canceller_eq
  refine ⟨Oslec.echoCanFlush state, ?_⟩
  rw [Heap.echoCanFlush, hload, Option.bind_some, hm.arrays_eq, Option.bind_some, hstore]
  rfl

theorem Intact.echoCanAdaptionMode_eq (mode : BitVec 32) :
    ∃ state, Heap.echoCanAdaptionMode m (some (h + 1)) mode =
      some (m.set (h + 1) (.canceller (.whole h state))) := by
  obtain ⟨state, hload, hstore⟩ := hm.exists_canceller_eq
  refine ⟨Oslec.echoCanAdaptionMode state mode, ?_⟩
  rw [Heap.echoCanAdaptionMode, hload, Option.bind_some, hstore]
  rfl

theorem Intact.live {i : ℕ} (hi : i ≤ 6) : m.Live (h + i) := by
  obtain ⟨state, hstate⟩ := hm.canceller
  match i with
  | 0 => exact Option.isSome_iff_exists.mpr ⟨_, hm.wrapper⟩
  | 1 => exact Option.isSome_iff_exists.mpr ⟨_, hstate⟩
  | i + 2 => exact Option.isSome_iff_exists.mpr ⟨_, hm.array (i + 2) (by omega) hi⟩

/-- The release of an intact canceller frees its own blocks only, and leaves the wrapper. -/
theorem Intact.echoCanFree_eq : ∃ m', Heap.echoCanFree m (some (h + 1)) = some m' ∧
    ∀ a, a ≤ h ∨ h + 7 ≤ a → m'.cells a = m.cells a := by
  obtain ⟨state, hload, -⟩ := hm.exists_canceller_eq
  refine ⟨m.eraseAll [h + 4, h + 5, h + 2, h + 3, h + 6, h + 1], ?_, ?_⟩
  · rw [Heap.echoCanFree, hload, Option.bind_some, BlockHeap.freeAll_eq_some_iff]
    refine ⟨?_, ?_, rfl⟩
    · intro a ha
      simp only [CancellerBlock.whole, List.reduceOption_cons_of_some, List.reduceOption_nil,
        List.mem_cons, List.not_mem_nil, or_false] at ha
      rcases ha with rfl | rfl | rfl | rfl | rfl | rfl <;> exact hm.live (by norm_num)
    · simp [CancellerBlock.whole]
  · intro a ha
    apply BlockHeap.cells_eraseAll_of_notMem
    simp only [List.mem_cons, List.not_mem_nil, or_false]
    omega

end

/-- The blocks of a new canceller, its pointers not yet set. -/
def cancellerBlocks (len : ℕ) (adaptionMode : BitVec 32) : List Block :=
  [.canceller ⟨Oslec.echoCanCreate len adaptionMode, none, none, none, none, none⟩,
    .array, .array, .array, .array, .array]

/-- Without a failure, `echo_can_create` takes six blocks and sets the pointers. -/
theorem Heap.echoCanCreate_eq (m : Heap) (len : ℕ) (adaptionMode : BitVec 32)
    {fails : Site → Bool} (hok : ∀ s, fails s = false) {h : ℕ} (hnext : m.next = h + 1) :
    Heap.echoCanCreate m len adaptionMode fails =
      some ((m.pushAll (cancellerBlocks len adaptionMode)).set (h + 1)
        (.canceller (.whole h (Oslec.echoCanCreate len adaptionMode))), some (h + 1)) := by
  have hcells := m.cells_pushAll_add (cancellerBlocks len adaptionMode)
  rw [hnext] at hcells
  have hsnapshot : Heap.array (m.pushAll (cancellerBlocks len adaptionMode)) (some (h + 1 + 5)) =
      some () := by
    simp only [Heap.array, BlockHeap.load_some, hcells 5]
    rfl
  have hstore := BlockHeap.store_eq
    (.canceller (.whole h (Oslec.echoCanCreate len adaptionMode))) (hcells 0)
  simp only [Heap.echoCanCreate, hok, BlockHeap.malloc_false, BlockHeap.next_push, hnext]
  change (Heap.array (m.pushAll (cancellerBlocks len adaptionMode)) (some (h + 1 + 5))).bind
    (fun _ => (BlockHeap.store (m.pushAll (cancellerBlocks len adaptionMode)) (some (h + 1))
      (.canceller (.whole h (Oslec.echoCanCreate len adaptionMode)))).map _) = _
  rw [hsnapshot, Option.bind_some, hstore, Option.map_some]

/-- Seven new blocks with their pointers set are an intact canceller. -/
theorem intact_of_blocks {m : Heap} {h len : ℕ}
    (hnew : ∀ i, m.cells (h + i) = (Block.wrapper none :: cancellerBlocks len createMode)[i]?)
    (state : EchoCan) :
    Intact ((m.set (h + 1) (.canceller (.whole h state))).set h (.wrapper (some (h + 1)))) h := by
  refine ⟨?_, ⟨state, ?_⟩, ?_⟩
  · apply BlockHeap.cells_set_self (c := .wrapper none)
    rw [BlockHeap.cells_set_of_ne _ _ (by omega)]
    exact hnew 0
  · rw [BlockHeap.cells_set_of_ne _ _ (by omega)]
    exact BlockHeap.cells_set_self _ (hnew 1)
  · intro i hlo hhi
    rw [BlockHeap.cells_set_of_ne _ _ (by omega), BlockHeap.cells_set_of_ne _ _ (by omega), hnew]
    interval_cases i <;> rfl

/-- Creation without a failure: seven new blocks, and a registration. -/
theorem Globals.oslecEchoCanCreate_eq (g : Globals) (len : ℕ) {fails : Site → Bool}
    (hok : ∀ s, fails s = false) :
    ∃ m, g.oslecEchoCanCreate len fails = some
        ({ heap := m
           monEc := if g.monEc = none then some (g.heap.next + 1) else g.monEc
           numEc := g.numEc + 1
           lenEc := if g.monEc = none then len else g.lenEc
           handles := insert g.heap.next g.handles }, some g.heap.next) ∧
      (∀ a < g.heap.next, m.cells a = g.heap.cells a) ∧ Intact m g.heap.next := by
  obtain ⟨m, hm⟩ : ∃ m, m = g.heap.pushAll (.wrapper none :: cancellerBlocks len createMode) :=
    ⟨_, rfl⟩
  have hnew : ∀ i, m.cells (g.heap.next + i) =
      (Block.wrapper none :: cancellerBlocks len createMode)[i]? := by
    rw [hm]
    exact g.heap.cells_pushAll_add _
  have hold : ∀ a < g.heap.next, m.cells a = g.heap.cells a := by
    rw [hm]
    exact fun a ha => g.heap.cells_pushAll_of_lt ha _
  have hinner := Heap.echoCanCreate_eq (g.heap.push (.wrapper none)) len createMode hok rfl
  have hstore : ∀ c, BlockHeap.store (m.set (g.heap.next + 1) c) (some g.heap.next)
      (.wrapper (some (g.heap.next + 1))) = some ((m.set (g.heap.next + 1) c).set g.heap.next
        (.wrapper (some (g.heap.next + 1)))) := by
    intro c
    refine BlockHeap.store_eq (c := .wrapper none) _ ?_
    rw [BlockHeap.cells_set_of_ne _ _ (by omega)]
    exact hnew 0
  have hpush : (g.heap.push (.wrapper none)).pushAll (cancellerBlocks len createMode) = m :=
    hm.symm
  rw [hpush] at hinner
  refine ⟨(m.set (g.heap.next + 1) (.canceller (.whole g.heap.next
    (Oslec.echoCanCreate len createMode)))).set g.heap.next
    (.wrapper (some (g.heap.next + 1))), ?_, ?_, ?_⟩
  · rw [Globals.oslecEchoCanCreate, hok, BlockHeap.malloc_false]
    dsimp only
    rw [hinner, Option.bind_some]
    dsimp only
    rw [Option.bind_some, hstore, Option.map_some]
  · intro a ha
    rw [BlockHeap.cells_set_of_ne _ _ (by omega), BlockHeap.cells_set_of_ne _ _ (by omega),
      hold a ha]
  · exact intact_of_blocks hnew _

/-! ### The invariant -/

/-- The canceller behind a held wrapper gets a new state. -/
theorem HeapInv.set {g : Globals} (hg : HeapInv g) {h : ℕ} (hh : h ∈ g.handles)
    (state : EchoCan) :
    HeapInv { g with heap := g.heap.set (h + 1) (.canceller (.whole h state)) } where
  intact := by
    intro h' hh'
    by_cases heq : h' = h
    · rw [heq]
      exact (hg.intact h hh).set state
    · refine (hg.intact h' hh').congr fun a hlo hhi => BlockHeap.cells_set_of_ne _ _ ?_
      rcases hg.apart h' hh' h hh heq with hapart | hapart <;> omega
  apart := hg.apart
  monitored := hg.monitored

theorem HeapInv.create {g g' : Globals} (hg : HeapInv g) (hnew : Intact g'.heap g.heap.next)
    (hold : ∀ a < g.heap.next, g'.heap.cells a = g.heap.cells a)
    (hhandles : g'.handles = insert g.heap.next g.handles)
    (hmon : g'.monEc = if g.monEc = none then some (g.heap.next + 1) else g.monEc) :
    HeapInv g' := by
  have hbelow : ∀ h ∈ g.handles, h + 6 < g.heap.next := fun h hh => (hg.intact h hh).lt_next
  refine ⟨?_, ?_, ?_⟩ <;> rw [hhandles]
  · intro h hh
    rcases Finset.mem_insert.mp hh with rfl | hh
    · exact hnew
    · refine (hg.intact h hh).congr fun a hlo hhi => hold a ?_
      have hlt := hbelow h hh
      omega
  · intro h hh h' hh' hne
    rcases Finset.mem_insert.mp hh with rfl | hh <;> rcases Finset.mem_insert.mp hh' with rfl | hh'
    · exact absurd rfl hne
    · exact Or.inr (by have := hbelow h' hh'; omega)
    · exact Or.inl (by have := hbelow h hh; omega)
    · exact hg.apart h hh h' hh' hne
  · intro ec hec
    rw [hmon] at hec
    split at hec
    · exact ⟨g.heap.next, Finset.mem_insert_self _ _, (Option.some.inj hec).symm⟩
    · obtain ⟨h, hh, rfl⟩ := hg.monitored ec hec
      exact ⟨h, Finset.mem_insert_of_mem hh, rfl⟩

theorem HeapInv.free {g : Globals} (hg : HeapInv g) {h : ℕ} (hh : h ∈ g.handles) :
    ∃ g', g.oslecEchoCanFree h = some g' ∧ HeapInv g' := by
  obtain ⟨m, hfree, hcells⟩ := (hg.intact h hh).echoCanFree_eq
  have hwrapper := (hcells h (Or.inl (le_refl h))).trans (hg.intact h hh).wrapper
  refine ⟨{ g with
    heap := m.erase h
    monEc := if g.monEc = some (h + 1) then none else g.monEc
    numEc := g.numEc - 1
    handles := g.handles.erase h }, ?_, ?_⟩
  · rw [Globals.oslecEchoCanFree, (hg.intact h hh).wrapper_eq, Option.bind_some, hfree,
      Option.bind_some, BlockHeap.free_eq hwrapper, Option.map_some]
  · refine ⟨?_, ?_, ?_⟩ <;> dsimp only
    · intro h' hh'
      obtain ⟨hne, hh'⟩ := Finset.mem_erase.mp hh'
      have hapart := hg.apart h' hh' h hh hne
      unfold Apart at hapart
      apply (hg.intact h' hh').congr
      intro a hlo hhi
      rw [BlockHeap.cells_erase, if_neg (by omega), hcells a (by omega)]
    · intro h₁ hh₁ h₂ hh₂
      exact hg.apart h₁ (Finset.mem_of_mem_erase hh₁) h₂ (Finset.mem_of_mem_erase hh₂)
    · intro ec hec
      split at hec
      case isTrue => cases hec
      case isFalse hne =>
        obtain ⟨h', hh', rfl⟩ := hg.monitored ec hec
        refine ⟨h', Finset.mem_erase.mpr ⟨?_, hh'⟩, rfl⟩
        rintro rfl
        exact hne hec

theorem HeapInv.update {g : Globals} (hg : HeapInv g) {ec : ℕ} (hheld : ec ∈ g.handles)
    (tx rx : Int16) :
    ∃ g', (g.oslecEchoCanUpdate ec tx rx).map Prod.fst = some g' ∧ HeapInv g' := by
  obtain ⟨state, clean, hupdate⟩ := (hg.intact ec hheld).echoCanUpdate_eq tx rx
  refine ⟨_, ?_, hg.set hheld state⟩
  rw [Globals.oslecEchoCanUpdate, (hg.intact ec hheld).wrapper_eq, Option.bind_some, hupdate]
  rfl

theorem HeapInv.hpfTx {g : Globals} (hg : HeapInv g) {ec : Option ℕ}
    (hheld : ∀ h, ec = some h → h ∈ g.handles) (tx : Int16) :
    ∃ g', (g.oslecHpfTx ec tx).map Prod.fst = some g' ∧ HeapInv g' := by
  cases ec with
  | none => exact ⟨g, rfl, hg⟩
  | some ec =>
      have hec := hheld ec rfl
      obtain ⟨state, out, hfilter⟩ := (hg.intact ec hec).echoCanHpfTx_eq tx
      refine ⟨_, ?_, hg.set hec state⟩
      rw [Globals.oslecHpfTx, if_pos (Option.some_ne_none ec), (hg.intact ec hec).wrapper_eq,
        Option.bind_some, hfilter]
      rfl

/-- The `/proc` files do nothing where no canceller is monitored, and otherwise
work on one that is held. -/
theorem HeapInv.proc {g : Globals} (hg : HeapInv g) {f : Globals → Option Globals}
    (hf : ∀ h ∈ g.handles, g.monEc = some (h + 1) → ∃ g', f g = some g' ∧ HeapInv g') :
    ∃ g', (if g.monEc = none then some g else f g) = some g' ∧ HeapInv g' := by
  split
  case isTrue => exact ⟨g, rfl, hg⟩
  case isFalse hsome =>
    obtain ⟨ec, hec⟩ := Option.ne_none_iff_exists'.mp hsome
    obtain ⟨h, hh, rfl⟩ := hg.monitored ec hec
    exact hf h hh hec

theorem HeapInv.procRead {g : Globals} (hg : HeapInv g) :
    ∃ g', g.procRead = some g' ∧ HeapInv g' := by
  apply hg.proc (f := fun g => (Heap.canceller g.heap g.monEc).map fun _ => g)
  intro h hh hec
  obtain ⟨state, hload, -⟩ := (hg.intact h hh).exists_canceller_eq
  refine ⟨g, ?_, hg⟩
  rw [hec, hload, Option.map_some]

theorem HeapInv.procWriteMode {g : Globals} (hg : HeapInv g) (mode : BitVec 32) :
    ∃ g', g.procWriteMode mode = some g' ∧ HeapInv g' := by
  apply hg.proc (f := fun g => (Heap.echoCanAdaptionMode g.heap g.monEc mode).map
    fun m => { g with heap := m })
  intro h hh hec
  obtain ⟨state, hmode⟩ := (hg.intact h hh).echoCanAdaptionMode_eq mode
  refine ⟨_, ?_, hg.set hh state⟩
  rw [hec, hmode, Option.map_some]

theorem HeapInv.procWriteReset {g : Globals} (hg : HeapInv g) :
    ∃ g', g.procWriteReset = some g' ∧ HeapInv g' := by
  apply hg.proc (f := fun g => (Heap.echoCanFlush g.heap g.monEc).map
    fun m => { g with heap := m })
  intro h hh hec
  obtain ⟨state, hflush⟩ := (hg.intact h hh).echoCanFlush_eq
  refine ⟨_, ?_, hg.set hh state⟩
  rw [hec, hflush, Option.map_some]

/-- Where every canceller is whole, every allowed call is defined, and keeps them
whole unless an allocation fails. -/
theorem HeapInv.exec {g : Globals} (hg : HeapInv g) {call : WrapCall} (hallowed : call.Allowed g)
    (hok : ∀ len fails, call = .create len fails → ∀ s, fails s = false) :
    ∃ g', call.exec g = some g' ∧ HeapInv g' := by
  cases call with
  | create len fails =>
      obtain ⟨m, hcreate, hold, hnew⟩ := g.oslecEchoCanCreate_eq len (hok len fails rfl)
      exact ⟨_, by rw [WrapCall.exec, hcreate, Option.map_some], hg.create hnew hold rfl rfl⟩
  | free ec => exact hg.free hallowed
  | update ec tx rx => exact hg.update hallowed tx rx
  | hpfTx ec tx => exact hg.hpfTx hallowed tx
  | procRead => exact hg.procRead
  | procWriteMode mode => exact hg.procWriteMode mode
  | procWriteReset => exact hg.procWriteReset

/-! ### Runs -/

theorem wrapRun_concat (pre : List WrapCall) (call : WrapCall) :
    wrapRun (pre ++ [call]) = (wrapRun pre).bind call.exec := by
  rw [wrapRun, List.foldlM_append]
  cases hrun : List.foldlM WrapCall.exec Globals.init pre with
  | none => simp [wrapRun, hrun]
  | some g => simp [wrapRun, hrun]

theorem exists_wrapRun_of_append {pre post : List WrapCall}
    (h : (wrapRun (pre ++ post)).isSome) : ∃ g, wrapRun pre = some g := by
  rw [wrapRun, List.foldlM_append] at h
  cases hpre : List.foldlM WrapCall.exec Globals.init pre with
  | none => simp [hpre] at h
  | some g => exact ⟨g, hpre⟩

theorem Disciplined.of_prefix {pre calls : List WrapCall} (h : Disciplined calls)
    (hpre : pre <+: calls) : Disciplined pre :=
  fun pre' call hat => h pre' call (hat.trans hpre)

/-- No allocation fails in the run. -/
def AllocationsSucceed (calls : List WrapCall) : Prop :=
  ∀ len fails, WrapCall.create len fails ∈ calls → ∀ s, fails s = false

theorem AllocationsSucceed.of_prefix {pre calls : List WrapCall} (h : AllocationsSucceed calls)
    (hpre : pre <+: calls) : AllocationsSucceed pre :=
  fun len fails hmem => h len fails (hpre.subset hmem)

theorem heapInv_of_run {calls : List WrapCall} (hdisc : Disciplined calls)
    (hok : AllocationsSucceed calls) : ∃ g, wrapRun calls = some g ∧ HeapInv g := by
  induction calls using List.reverseRecOn with
  | nil => exact ⟨Globals.init, rfl, heapInv_init⟩
  | append_singleton pre call ih =>
      have hpre := List.prefix_append pre [call]
      obtain ⟨g, hrun, hg⟩ := ih (hdisc.of_prefix hpre) (hok.of_prefix hpre)
      have hallowed := hdisc pre call (List.prefix_refl _) g hrun
      obtain ⟨g', hexec, hg'⟩ := hg.exec hallowed fun len fails heq =>
        hok len fails (by rw [← heq]; exact List.mem_append_right _ List.mem_cons_self)
      exact ⟨g', by rw [wrapRun_concat, hrun, Option.bind_some, hexec], hg'⟩

/-- Creation returns the wrapper or nothing at all. -/
theorem Globals.oslecEchoCanCreate_ne_null (g g' : Globals) (len : ℕ) (fails : Site → Bool) :
    g.oslecEchoCanCreate len fails ≠ some (g', none) := by
  intro h
  rw [oslecEchoCanCreate] at h
  obtain ⟨⟨m, inner⟩, -, hbind⟩ := Option.bind_eq_some_iff.mp h
  obtain ⟨a, ha, hmap⟩ := Option.bind_eq_some_iff.mp hbind
  obtain ⟨m', -, hpair⟩ := Option.map_eq_some_iff.mp hmap
  have hnull := congrArg Prod.snd hpair
  dsimp only at ha hnull
  rw [ha] at hnull
  cases hnull

/-- In every run of callers that keep their discipline, creation is atomic
exactly when no allocation fails. -/
theorem creation_atomic_iff (calls : List WrapCall) (hdisc : Disciplined calls) :
    CreationAtomic calls ↔ AllocationsSucceed calls := by
  constructor
  · intro h len fails hmem s
    obtain ⟨pre, post, rfl⟩ := List.append_of_mem hmem
    have hat : pre ++ [.create len fails] <+: pre ++ .create len fails :: post := by
      rw [List.prefix_append_right_inj]
      exact ⟨post, rfl⟩
    cases hs : fails s with
    | false => rfl
    | true =>
        -- the run has come this far, so the creation must have returned `NULL`
        obtain ⟨g, hg⟩ := exists_wrapRun_of_append h.defined
        obtain ⟨g', hnull, -⟩ := h.failed pre len fails hat ⟨s, hs⟩ g hg
        exact absurd hnull (g.oslecEchoCanCreate_ne_null g' len fails)
  · intro hok
    refine ⟨?_, ?_, ?_⟩
    · obtain ⟨g, hrun, -⟩ := heapInv_of_run hdisc hok
      rw [hrun]
      rfl
    · intro pre len fails hat hfails
      obtain ⟨s, hs⟩ := hfails
      have hmem := hat.subset (List.mem_append_right pre List.mem_cons_self)
      rw [hok len fails hmem s] at hs
      cases hs
    · intro pre hpre g hrun call hallowed hcreate
      obtain ⟨g₀, hrun₀, hg⟩ := heapInv_of_run (hdisc.of_prefix hpre) (hok.of_prefix hpre)
      obtain rfl : g₀ = g := Option.some.inj (hrun₀.symm.trans hrun)
      obtain ⟨g', hexec, -⟩ := hg.exec hallowed fun len fails heq => absurd heq (hcreate len fails)
      rw [hexec]
      rfl

/-- The first wrapper, used once. -/
theorem disciplined_of_first_handle {fails : Site → Bool}
    (h : (wrapRun [.create 2 fails]).map (fun g => decide (0 ∈ g.handles)) = some true) :
    Disciplined [.create 2 fails, .update 0 0 0] := by
  intro pre call hat g hg
  match pre with
  | [] =>
      obtain ⟨rfl, -⟩ := List.cons_prefix_cons.mp hat
      trivial
  | [first] =>
      obtain ⟨rfl, hrest⟩ := List.cons_prefix_cons.mp hat
      obtain ⟨rfl, -⟩ := List.cons_prefix_cons.mp hrest
      rw [hg] at h
      show 0 ∈ g.handles
      exact of_decide_eq_true (Option.some.inj h)
  | first :: second :: rest =>
      have hlen := hat.length_le
      simp at hlen

theorem creation_atomic_iff_update :
    CreationAtomic [.create 2 fun _ => false, .update 0 0 0] ↔
      AllocationsSucceed [.create 2 fun _ => false, .update 0 0 0] :=
  creation_atomic_iff _ (disciplined_of_first_handle (by decide +kernel))

/-- The canceller itself is not allocated: creation returns a wrapper around
`NULL`, and the first update dereferences it. -/
theorem creation_not_atomic :
    Disciplined [.create 2 fun s => decide (s = .canceller), .update 0 0 0] ∧
      ¬ CreationAtomic [.create 2 fun s => decide (s = .canceller), .update 0 0 0] := by
  refine ⟨disciplined_of_first_handle (by decide +kernel), fun h => ?_⟩
  have hdefined := h.defined
  revert hdefined
  decide +kernel

end Oslec
