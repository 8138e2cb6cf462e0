import Oslec.Canceller.Calls
import Oslec.Library.TransitionSystem
import Mathlib.Data.Finset.Card

/-!
The kernel wrapper of `oslec_wrap.c` and its `/proc` monitor. Any number of
threads create, use and free cancellers; what runs under `oslec_lock` is one
step, the allocation before it is another, and an update is three: the first
comparison with `mon_ec`, the update itself, and the second comparison together
with the cycle counts. The callers keep the discipline of a channel lock, which
is what the guards of the steps say.
-/

namespace Oslec

open TwosComplement

/-- What a thread is in the middle of. -/
inductive Task (A : Type)
  | idle
  | creating (ec : A) (len : ℕ)
  | updating (ec : A) (tx rx : Int16) (first : Bool) (startCycles : ℤ)
  | updated (ec : A) (first : Bool) (startCycles : ℤ)

/-- The canceller that is allocated and not yet registered. -/
def Task.pending {A : Type} : Task A → Option (A × ℕ)
  | .creating ec len => some (ec, len)
  | _ => none

/-- The canceller whose update is running, with the outcome of the first comparison. -/
def Task.flight {A : Type} : Task A → Option (A × Bool)
  | .updating ec _ _ first _ => some (ec, first)
  | .updated ec first _ => some (ec, first)
  | _ => none

/-- The globals of the module, the live cancellers, those that callers hold,
and the threads. -/
structure Wrap (T A : Type) where
  heap : A → Option EchoCan
  /-- Registered and not yet freed. -/
  handles : Finset A
  monEc : Option A
  numEc : ℤ
  lenEc : ℕ
  cyclesLast : ℤ
  cyclesWorst : ℤ
  cyclesAverage : ℤ
  tasks : T → Task A

/-- The mode every canceller is created with, whatever the caller asks for. -/
def createMode : BitVec 32 :=
  echoCanUseAdaption ||| echoCanUseNlp ||| echoCanUseClip ||| echoCanUseTxHpf ||| echoCanUseRxHpf

def ltc : ℕ := 5

def noMonitorText : String := "no echo canceller being monitored - make a new call\n"

/-- `mode_str` of `proc_read_info`. -/
def modeStr (mode : BitVec 32) : String :=
  (if hasFlag mode echoCanUseAdaption then "|ADAPTION" else "|        ") ++
    (if hasFlag mode echoCanUseNlp then "|NLP" else "|   ") ++
    (if hasFlag mode echoCanUseCng then "|CNG"
      else if hasFlag mode echoCanUseClip then "|CLIP" else "|   ") ++
    (if hasFlag mode echoCanUseTxHpf then "|TXHPF" else "|   ") ++
    (if hasFlag mode echoCanUseRxHpf then "|RXHPF|" else "|   |")

/-- `8*cycles/1000`, the division truncating. -/
def mips (cycles : ℤ) : ℤ := (i32 (8 * cycles)).tdiv 1000

namespace Wrap

variable {T A : Type} [DecidableEq T] [DecidableEq A]

/-- `init_oslec`. -/
def init : Wrap T A where
  heap := fun _ => none
  handles := ∅
  monEc := none
  numEc := 0
  lenEc := 0
  cyclesLast := 0
  cyclesWorst := 0
  cyclesAverage := 0
  tasks := fun _ => .idle

def setTask (w : Wrap T A) (t : T) (task : Task A) : Wrap T A :=
  { w with tasks := Function.update w.tasks t task }

def setHeap (w : Wrap T A) (ec : A) (e : Option EchoCan) : Wrap T A :=
  { w with heap := Function.update w.heap ec e }

/-- `oslec_echo_can_create` up to the lock. -/
def allocate (w : Wrap T A) (t : T) (ec : A) (len : ℕ) : Wrap T A :=
  (w.setHeap ec (some (echoCanCreate len createMode))).setTask t (.creating ec len)

/-- `oslec_echo_can_create` under the lock, and its return to the caller. -/
def register (w : Wrap T A) (t : T) (ec : A) (len : ℕ) : Wrap T A :=
  { w.setTask t .idle with
    numEc := w.numEc + 1
    monEc := if w.monEc = none then some ec else w.monEc
    lenEc := if w.monEc = none then len else w.lenEc
    handles := insert ec w.handles }

/-- `oslec_echo_can_free`. -/
def free (w : Wrap T A) (ec : A) : Wrap T A :=
  { w.setHeap ec none with
    monEc := if w.monEc = some ec then none else w.monEc
    numEc := w.numEc - 1
    handles := w.handles.erase ec }

/-- `oslec_echo_can_update` up to the update: the cycle counter is read when
the canceller is the monitored one. -/
def compare (w : Wrap T A) (t : T) (ec : A) (tx rx : Int16) (cycles : ℤ) : Wrap T A :=
  w.setTask t (.updating ec tx rx (w.monEc = some ec)
    (if w.monEc = some ec then cycles % 2 ^ 32 else 0))

/-- `oslec_echo_can_update` after the update. -/
def finish (w : Wrap T A) (t : T) (ec : A) (startCycles cycles : ℤ) : Wrap T A :=
  if w.monEc = some ec then
    let last := i32 (cycles - startCycles)
    { w.setTask t .idle with
      cyclesLast := last
      cyclesAverage := i32 (w.cyclesAverage + i32 (last - w.cyclesAverage) >>> ltc)
      cyclesWorst := if last > w.cyclesWorst then last else w.cyclesWorst }
  else w.setTask t .idle

/-- Change the canceller at `ec`; there is nothing to return when it is not live. -/
def modify (w : Wrap T A) (ec : A) (f : EchoCan → EchoCan) : Option (Wrap T A) :=
  (w.heap ec).map fun e => w.setHeap ec (some (f e))

/-- A write through `/proc` changes the monitored canceller, if there is one. -/
def procWrite (w : Wrap T A) (f : EchoCan → EchoCan) : Option (Wrap T A) :=
  match w.monEc with
  | none => some w
  | some ec => w.modify ec f

def procWriteMode (w : Wrap T A) (mode : BitVec 32) : Option (Wrap T A) :=
  w.procWrite (echoCanAdaptionMode · mode)

def procWriteReset (w : Wrap T A) : Option (Wrap T A) := w.procWrite echoCanFlush

def procReadMode (w : Wrap T A) : Option String :=
  match w.monEc with
  | none => some "0\n"
  | some ec => (w.heap ec).map fun e => toString e.adaptionMode.toInt ++ "\n"

/-- What `proc_read_info` prints about the monitored canceller. -/
def info (w : Wrap T A) (e : EchoCan) : String :=
  "channels.......: " ++ toString w.numEc ++ "\n" ++
    "length (taps)..: " ++ toString w.lenEc ++ "\n" ++
    "mode...........: [" ++ toString e.adaptionMode.toInt ++ "] " ++
      modeStr e.adaptionMode ++ "\n" ++
    "Ltx............: " ++ toString e.ltx.level ++ "\n" ++
    "Lrx............: " ++ toString e.lrx.level ++ "\n" ++
    "Lclean.........: " ++ toString e.lclean.level ++ "\n" ++
    "Lclean_bg......: " ++ toString e.lcleanBg.level ++ "\n" ++
    "shift..........: " ++ toString e.shift ++ "\n" ++
    "Double Talk....: " ++ (if e.nonupdateDwell ≠ 0 then "1" else "0") ++ "\n" ++
    "Lbgn...........: " ++ toString e.lbgn.level ++ "\n" ++
    "MIPs (last)....: " ++ toString (mips w.cyclesLast) ++ "\n" ++
    "MIPs (worst)...: " ++ toString (mips w.cyclesWorst) ++ "\n" ++
    "MIPs (avergage): " ++ toString (mips w.cyclesAverage) ++ "\n"

def procReadInfo (w : Wrap T A) : Option String :=
  match w.monEc with
  | none => some noMonitorText
  | some ec => (w.heap ec).map w.info

end Wrap

inductive WrapAction (T A : Type)
  | allocate (t : T) (ec : A) (len : ℕ)
  | register (t : T)
  | free (ec : A)
  | compare (t : T) (ec : A)
  | update (t : T)
  | finish (t : T)
  | hpfTx (ec : A)
  | procReadInfo
  | procReadMode
  | procWriteMode
  | procWriteReset

section

variable {T A : Type}

/-- No update of this canceller is running. -/
def Wrap.Quiet (w : Wrap T A) (ec : A) : Prop :=
  ∀ t first, (w.tasks t).flight ≠ some (ec, first)

variable [DecidableEq T] [DecidableEq A]

/-- The steps, with what the allocator and the callers see to: a new canceller
has an address of its own; callers use only what they hold, and neither update
nor free a canceller while it is being updated. -/
inductive WrapStep (w : Wrap T A) : WrapAction T A → Wrap T A → Prop
  | allocate {t : T} {ec : A} {len : ℕ} (hidle : w.tasks t = .idle) (hnew : w.heap ec = none) :
      WrapStep w (.allocate t ec len) (w.allocate t ec len)
  | register {t : T} {ec : A} {len : ℕ} (htask : w.tasks t = .creating ec len) :
      WrapStep w (.register t) (w.register t ec len)
  | free {ec : A} (hheld : ec ∈ w.handles) (hquiet : w.Quiet ec) :
      WrapStep w (.free ec) (w.free ec)
  | compare {t : T} {ec : A} {tx rx : Int16} {cycles : ℤ} (hidle : w.tasks t = .idle)
      (hheld : ec ∈ w.handles) (hquiet : w.Quiet ec) :
      WrapStep w (.compare t ec) (w.compare t ec tx rx cycles)
  | update {t : T} {ec : A} {tx rx : Int16} {first : Bool} {startCycles : ℤ} {w' : Wrap T A}
      (htask : w.tasks t = .updating ec tx rx first startCycles)
      (hmodify : w.modify ec (fun e => (echoCanUpdate e tx rx).1) = some w') :
      WrapStep w (.update t) (w'.setTask t (.updated ec first startCycles))
  | finish {t : T} {ec : A} {first : Bool} {startCycles cycles : ℤ}
      (htask : w.tasks t = .updated ec first startCycles) :
      WrapStep w (.finish t) (w.finish t ec startCycles cycles)
  | hpfTx {ec : A} {tx : Int16} {w' : Wrap T A} (hheld : ec ∈ w.handles)
      (hmodify : w.modify ec (fun e => (echoCanHpfTx e tx).1) = some w') :
      WrapStep w (.hpfTx ec) w'
  | procReadInfo {text : String} (hread : w.procReadInfo = some text) :
      WrapStep w .procReadInfo w
  | procReadMode {text : String} (hread : w.procReadMode = some text) :
      WrapStep w .procReadMode w
  | procWriteMode {mode : BitVec 32} {w' : Wrap T A} (hwrite : w.procWriteMode mode = some w') :
      WrapStep w .procWriteMode w'
  | procWriteReset {w' : Wrap T A} (hwrite : w.procWriteReset = some w') :
      WrapStep w .procWriteReset w'

/-- The module under any interleaving of its threads. -/
def wrapSystem (T A : Type) [DecidableEq T] [DecidableEq A] :
    TransitionSystem (Wrap T A) (WrapAction T A) where
  init w := w = Wrap.init
  step := WrapStep

end

/-! ### The invariant -/

section

variable {T A : Type}

structure WrapInv (w : Wrap T A) : Prop where
  held : ∀ ec ∈ w.handles, ∃ e, w.heap ec = some e
  pending : ∀ t ec len, (w.tasks t).pending = some (ec, len) →
    ec ∉ w.handles ∧ ∃ e, w.heap ec = some e ∧ e.taps = len
  pendingOnce : ∀ t t' ec len len', (w.tasks t).pending = some (ec, len) →
    (w.tasks t').pending = some (ec, len') → t = t'
  monitored : ∀ ec, w.monEc = some ec →
    ec ∈ w.handles ∧ ∃ e, w.heap ec = some e ∧ e.taps = w.lenEc
  count : w.numEc = w.handles.card
  flying : ∀ t ec first, (w.tasks t).flight = some (ec, first) → ec ∈ w.handles
  flyingOnce : ∀ t t' ec first first', (w.tasks t).flight = some (ec, first) →
    (w.tasks t').flight = some (ec, first') → t = t'
  /-- The first comparison holds as long as the update runs. -/
  compared : ∀ t ec first, (w.tasks t).flight = some (ec, first) →
    (first = true ↔ w.monEc = some ec)

/-- A step that touches neither the monitor's globals nor what callers hold,
starts nothing, and changes no canceller's length. -/
theorem WrapInv.frame {w w' : Wrap T A} (h : WrapInv w) (hhandles : w'.handles = w.handles)
    (hmon : w'.monEc = w.monEc) (hnum : w'.numEc = w.numEc) (hlen : w'.lenEc = w.lenEc)
    (hheap : ∀ ec e, w.heap ec = some e → ∃ e', w'.heap ec = some e' ∧ e'.taps = e.taps)
    (hpending : ∀ t x, (w'.tasks t).pending = some x → (w.tasks t).pending = some x)
    (hflight : ∀ t x, (w'.tasks t).flight = some x → (w.tasks t).flight = some x) :
    WrapInv w' := by
  exact {
    held := by
      intro ec hec
      rw [hhandles] at hec
      obtain ⟨e, he⟩ := h.held ec hec
      obtain ⟨e', he', -⟩ := hheap ec e he
      exact ⟨e', he'⟩
    pending := by
      intro t ec len ht
      obtain ⟨hnew, e, he, htaps⟩ := h.pending t ec len (hpending t _ ht)
      obtain ⟨e', he', htaps'⟩ := hheap ec e he
      exact ⟨hhandles ▸ hnew, e', he', htaps'.trans htaps⟩
    pendingOnce := by
      intro t t' ec len len' ht ht'
      exact h.pendingOnce t t' ec len len' (hpending t _ ht) (hpending t' _ ht')
    monitored := by
      intro ec hec
      obtain ⟨hheld, e, he, htaps⟩ := h.monitored ec (hmon ▸ hec)
      obtain ⟨e', he', htaps'⟩ := hheap ec e he
      exact ⟨hhandles ▸ hheld, e', he', by rw [htaps', htaps, hlen]⟩
    count := by rw [hnum, hhandles, h.count]
    flying := by
      intro t ec first ht
      rw [hhandles]
      exact h.flying t ec first (hflight t _ ht)
    flyingOnce := by
      intro t t' ec first first' ht ht'
      exact h.flyingOnce t t' ec first first' (hflight t _ ht) (hflight t' _ ht')
    compared := by
      intro t ec first ht
      rw [hmon]
      exact h.compared t ec first (hflight t _ ht)
  }

theorem wrapInv_init : WrapInv (Wrap.init : Wrap T A) := by
  refine ⟨?_, ?_, ?_, ?_, rfl, ?_, ?_, ?_⟩
  · intro ec hec
    exact absurd hec (Finset.notMem_empty ec)
  · intro t ec len ht
    cases ht
  · intro t t' ec len len' ht
    cases ht
  · intro ec hec
    cases hec
  · intro t ec first ht
    cases ht
  · intro t t' ec first first' ht
    cases ht
  · intro t ec first ht
    cases ht

end

section

variable {T A : Type}

theorem Wrap.tasks_setTask [DecidableEq T] (w : Wrap T A) (t t' : T) (task : Task A) :
    (w.setTask t task).tasks t' = if t' = t then task else w.tasks t' :=
  Function.update_apply _ _ _ _

theorem Wrap.heap_setHeap [DecidableEq A] (w : Wrap T A) (ec a : A) (e : Option EchoCan) :
    (w.setHeap ec e).heap a = if a = ec then e else w.heap a :=
  Function.update_apply _ _ _ _

/-- What is under way after a task was set is the new task's or was before. -/
theorem Wrap.setTask_cases [DecidableEq T] {B : Type} {w : Wrap T A} {t t' : T} {task : Task A}
    {f : Task A → Option B} {x : B} (hx : f ((w.setTask t task).tasks t') = some x) :
    (t' = t ∧ f task = some x) ∨ (t' ≠ t ∧ f (w.tasks t') = some x) := by
  rw [Wrap.tasks_setTask] at hx
  rcases eq_or_ne t' t with heq | hne
  · rw [if_pos heq] at hx
    exact Or.inl ⟨heq, hx⟩
  · rw [if_neg hne] at hx
    exact Or.inr ⟨hne, hx⟩

/-- A task with nothing of its kind under way only takes such things away. -/
theorem Wrap.setTask_of_none [DecidableEq T] {B : Type} {w : Wrap T A} {t t' : T} {task : Task A}
    {f : Task A → Option B} (htask : f task = none) {x : B}
    (hx : f ((w.setTask t task).tasks t') = some x) : t' ≠ t ∧ f (w.tasks t') = some x := by
  rcases Wrap.setTask_cases hx with ⟨-, hnew⟩ | hbefore
  · rw [htask] at hnew
    cases hnew
  · exact hbefore

theorem WrapInv.modify [DecidableEq A] {w w' : Wrap T A} (h : WrapInv w) {ec : A}
    {f : EchoCan → EchoCan} (hf : ∀ e, (f e).taps = e.taps) (hw : w.modify ec f = some w') :
    WrapInv w' := by
  obtain ⟨e, he, rfl⟩ := Option.map_eq_some_iff.mp hw
  refine h.frame rfl rfl rfl rfl ?_ (fun _ _ ht => ht) (fun _ _ ht => ht)
  intro a e₀ ha
  rw [Wrap.heap_setHeap]
  split
  · rename_i heq
    rw [heq, he] at ha
    obtain rfl := Option.some.inj ha
    exact ⟨f e, rfl, hf e⟩
  · exact ⟨e₀, ha, rfl⟩

/-- Setting a task that has nothing under way but what the thread already had. -/
theorem WrapInv.setTask [DecidableEq T] {w : Wrap T A} (h : WrapInv w) {t : T} {task : Task A}
    (hpending : ∀ x, task.pending = some x → (w.tasks t).pending = some x)
    (hflight : ∀ x, task.flight = some x → (w.tasks t).flight = some x) :
    WrapInv (w.setTask t task) := by
  refine h.frame rfl rfl rfl rfl (fun _ e he => ⟨e, he, rfl⟩) ?_ ?_
  · intro t' x hx
    rcases Wrap.setTask_cases hx with ⟨rfl, htask⟩ | ⟨-, hbefore⟩
    · exact hpending x htask
    · exact hbefore
  · intro t' x hx
    rcases Wrap.setTask_cases hx with ⟨rfl, htask⟩ | ⟨-, hbefore⟩
    · exact hflight x htask
    · exact hbefore

/-- An address that is not live is neither held, nor pending, nor monitored. -/
theorem WrapInv.allocate [DecidableEq T] [DecidableEq A] {w : Wrap T A} (h : WrapInv w) {t : T}
    {ec : A} (len : ℕ) (hnew : w.heap ec = none) : WrapInv (w.allocate t ec len) := by
  have hfresh : ∀ a e, w.heap a = some e → (w.allocate t ec len).heap a = some e := by
    intro a e ha
    show (w.setHeap ec _).heap a = some e
    rw [Wrap.heap_setHeap, if_neg, ha]
    rintro rfl
    rw [hnew] at ha
    cases ha
  -- what callers hold or are about to register lives elsewhere
  have hec : ec ∉ w.handles := by
    intro hheld
    obtain ⟨e, he⟩ := h.held ec hheld
    rw [hnew] at he
    cases he
  have hunpending : ∀ t len, (w.tasks t).pending ≠ some (ec, len) := by
    intro t len ht
    obtain ⟨-, e, he, -⟩ := h.pending t ec len ht
    rw [hnew] at he
    cases he
  have hflight : ∀ t' x, ((w.allocate t ec len).tasks t').flight = some x →
      (w.tasks t').flight = some x := fun t' x hx => (Wrap.setTask_of_none rfl hx).2
  exact {
    held := by
      intro a ha
      obtain ⟨e, he⟩ := h.held a ha
      exact ⟨e, hfresh a e he⟩
    pending := by
      intro t' a len' ht'
      rcases Wrap.setTask_cases ht' with ⟨-, hx⟩ | ⟨-, hx⟩
      · obtain ⟨rfl, rfl⟩ := Prod.mk.inj (Option.some.inj hx)
        exact ⟨hec, _, Function.update_self _ _ _, rfl⟩
      · obtain ⟨hheld, e, he, htaps⟩ := h.pending t' a len' hx
        exact ⟨hheld, e, hfresh a e he, htaps⟩
    pendingOnce := by
      intro t' t'' a len' len'' ht' ht''
      rcases Wrap.setTask_cases ht' with ⟨rfl, hx⟩ | ⟨-, hx⟩
      · obtain ⟨rfl, rfl⟩ := Prod.mk.inj (Option.some.inj hx)
        rcases Wrap.setTask_cases ht'' with ⟨rfl, -⟩ | ⟨-, hy⟩
        · rfl
        · exact absurd hy (hunpending _ _)
      · rcases Wrap.setTask_cases ht'' with ⟨-, hy⟩ | ⟨-, hy⟩
        · obtain ⟨rfl, rfl⟩ := Prod.mk.inj (Option.some.inj hy)
          exact absurd hx (hunpending _ _)
        · exact h.pendingOnce t' t'' a len' len'' hx hy
    monitored := by
      intro a ha
      obtain ⟨hheld, e, he, htaps⟩ := h.monitored a ha
      exact ⟨hheld, e, hfresh a e he, htaps⟩
    count := h.count
    flying := fun t' a first ht' => h.flying t' a first (hflight t' _ ht')
    flyingOnce := fun t' t'' a first first' ht' ht'' =>
      h.flyingOnce t' t'' a first first' (hflight t' _ ht') (hflight t'' _ ht'')
    compared := fun t' a first ht' => h.compared t' a first (hflight t' _ ht')
  }

theorem WrapInv.register [DecidableEq T] [DecidableEq A] {w : Wrap T A} (h : WrapInv w) {t : T}
    {ec : A} {len : ℕ} (htask : w.tasks t = .creating ec len) : WrapInv (w.register t ec len) := by
  obtain ⟨hnew, e, he, htaps⟩ := h.pending t ec len (by rw [htask]; rfl)
  have hpending : ∀ t' x, ((w.register t ec len).tasks t').pending = some x →
      t' ≠ t ∧ (w.tasks t').pending = some x := fun t' x hx => Wrap.setTask_of_none rfl hx
  have hflight : ∀ t' x, ((w.register t ec len).tasks t').flight = some x →
      (w.tasks t').flight = some x := fun t' x hx => (Wrap.setTask_of_none rfl hx).2
  have hmon : (w.register t ec len).monEc = if w.monEc = none then some ec else w.monEc := rfl
  have hlen : (w.register t ec len).lenEc = if w.monEc = none then len else w.lenEc := rfl
  exact {
    held := by
      intro a ha
      rcases Finset.mem_insert.mp ha with rfl | ha
      · exact ⟨e, he⟩
      · exact h.held a ha
    pending := by
      intro t' a len' ht'
      obtain ⟨hne, hx⟩ := hpending t' _ ht'
      obtain ⟨hheld, ha⟩ := h.pending t' a len' hx
      refine ⟨?_, ha⟩
      intro hmem
      rcases Finset.mem_insert.mp hmem with rfl | hmem
      · exact hne (h.pendingOnce t' t a len' len hx (by rw [htask]; rfl))
      · exact hheld hmem
    pendingOnce := by
      intro t' t'' a len' len'' ht' ht''
      exact h.pendingOnce t' t'' a len' len'' (hpending t' _ ht').2 (hpending t'' _ ht'').2
    monitored := by
      intro a ha
      rw [hmon] at ha
      rw [hlen]
      split at ha
      · obtain rfl := Option.some.inj ha
        rw [if_pos (by assumption)]
        exact ⟨Finset.mem_insert_self _ _, e, he, htaps⟩
      · rw [if_neg (by assumption)]
        obtain ⟨hheld, hlive⟩ := h.monitored a ha
        exact ⟨Finset.mem_insert_of_mem hheld, hlive⟩
    count := by
      show w.numEc + 1 = ((insert ec w.handles).card : ℤ)
      rw [Finset.card_insert_of_notMem hnew, h.count]
      push_cast
      rfl
    flying := fun t' a first ht' =>
      Finset.mem_insert_of_mem (h.flying t' a first (hflight t' _ ht'))
    flyingOnce := fun t' t'' a first first' ht' ht'' =>
      h.flyingOnce t' t'' a first first' (hflight t' _ ht') (hflight t'' _ ht'')
    compared := by
      intro t' a first ht'
      have hcompared := h.compared t' a first (hflight t' _ ht')
      have hne : a ≠ ec := by
        rintro rfl
        exact hnew (h.flying t' a first (hflight t' _ ht'))
      rw [hmon, hcompared]
      split
      · -- the canceller being registered is not the one being updated
        rename_i hnone
        rw [hnone]
        exact ⟨fun hcontra => (by cases hcontra), fun heq => absurd (Option.some.inj heq) hne.symm⟩
      · exact Iff.rfl
  }

theorem WrapInv.free [DecidableEq A] {w : Wrap T A} (h : WrapInv w) {ec : A}
    (hheld : ec ∈ w.handles) (hquiet : w.Quiet ec) : WrapInv (w.free ec) := by
  have hheap : ∀ a e, a ≠ ec → w.heap a = some e → (w.free ec).heap a = some e := by
    intro a e hne ha
    show (w.setHeap ec none).heap a = some e
    rw [Wrap.heap_setHeap, if_neg hne, ha]
  have hmon : (w.free ec).monEc = if w.monEc = some ec then none else w.monEc := rfl
  exact {
    held := by
      intro a ha
      obtain ⟨hne, ha⟩ := Finset.mem_erase.mp ha
      obtain ⟨e, he⟩ := h.held a ha
      exact ⟨e, hheap a e hne he⟩
    pending := by
      intro t a len ht
      obtain ⟨hnew, e, he, htaps⟩ := h.pending t a len ht
      have hne : a ≠ ec := by
        rintro rfl
        exact hnew hheld
      exact ⟨fun hmem => hnew (Finset.mem_of_mem_erase hmem), e, hheap a e hne he, htaps⟩
    pendingOnce := h.pendingOnce
    monitored := by
      intro a ha
      rw [hmon] at ha
      split at ha
      · cases ha
      · have hne : a ≠ ec := by
          rintro rfl
          contradiction
        obtain ⟨hmem, e, he, htaps⟩ := h.monitored a ha
        exact ⟨Finset.mem_erase.mpr ⟨hne, hmem⟩, e, hheap a e hne he, htaps⟩
    count := by
      show w.numEc - 1 = ((w.handles.erase ec).card : ℤ)
      rw [h.count, Finset.card_erase_of_mem hheld]
      have hpos := Finset.card_pos.mpr ⟨ec, hheld⟩
      omega
    flying := by
      intro t a first ht
      have hne : a ≠ ec := by
        rintro rfl
        exact hquiet t first ht
      exact Finset.mem_erase.mpr ⟨hne, h.flying t a first ht⟩
    flyingOnce := h.flyingOnce
    compared := by
      intro t a first ht
      -- no update of the freed canceller is under way
      have hne : a ≠ ec := by
        rintro rfl
        exact hquiet t first ht
      rw [hmon, h.compared t a first ht]
      split
      · rename_i hsome
        rw [hsome]
        exact ⟨fun heq => absurd (Option.some.inj heq).symm hne, fun hcontra => (by cases hcontra)⟩
      · exact Iff.rfl
  }

theorem WrapInv.compare [DecidableEq T] [DecidableEq A] {w : Wrap T A} (h : WrapInv w) {t : T}
    {ec : A} (tx rx : Int16) (cycles : ℤ) (hheld : ec ∈ w.handles) (hquiet : w.Quiet ec) :
    WrapInv (w.compare t ec tx rx cycles) := by
  have hpending : ∀ t' x, ((w.compare t ec tx rx cycles).tasks t').pending = some x →
      (w.tasks t').pending = some x := fun t' x hx => (Wrap.setTask_of_none rfl hx).2
  have hflight : ∀ t' a first, ((w.compare t ec tx rx cycles).tasks t').flight = some (a, first) →
      (t' = t ∧ a = ec ∧ first = decide (w.monEc = some ec)) ∨
        (a ≠ ec ∧ (w.tasks t').flight = some (a, first)) := by
    intro t' a first hx
    rcases Wrap.setTask_cases hx with ⟨heq, htask⟩ | ⟨-, hbefore⟩
    · obtain ⟨rfl, rfl⟩ := Prod.mk.inj (Option.some.inj htask)
      exact Or.inl ⟨heq, rfl, rfl⟩
    · refine Or.inr ⟨?_, hbefore⟩
      rintro rfl
      exact hquiet t' first hbefore
  refine ⟨h.held, ?_, ?_, h.monitored, h.count, ?_, ?_, ?_⟩
  · exact fun t' a len ht' => h.pending t' a len (hpending t' _ ht')
  · exact fun t' t'' a len len' ht' ht'' =>
      h.pendingOnce t' t'' a len len' (hpending t' _ ht') (hpending t'' _ ht'')
  · intro t' a first ht'
    rcases hflight t' a first ht' with ⟨-, rfl, -⟩ | ⟨-, ht'⟩
    · exact hheld
    · exact h.flying t' a first ht'
  · intro t' t'' a first first' ht' ht''
    rcases hflight t' a first ht' with ⟨rfl, rfl, -⟩ | ⟨hne, ht'⟩
    · rcases hflight t'' a first' ht'' with ⟨rfl, -, -⟩ | ⟨hne, -⟩
      · rfl
      · exact absurd rfl hne
    · rcases hflight t'' a first' ht'' with ⟨-, heq, -⟩ | ⟨-, ht''⟩
      · exact absurd heq hne
      · exact h.flyingOnce t' t'' a first first' ht' ht''
  · intro t' a first ht'
    rcases hflight t' a first ht' with ⟨-, rfl, rfl⟩ | ⟨-, ht'⟩
    · exact decide_eq_true_iff
    · exact h.compared t' a first ht'

/-- A write through `/proc` does nothing, or changes the monitored canceller. -/
theorem Wrap.procWrite_cases [DecidableEq A] {w w' : Wrap T A} {f : EchoCan → EchoCan}
    (hw : w.procWrite f = some w') :
    w' = w ∨ ∃ ec, w.monEc = some ec ∧ w.modify ec f = some w' := by
  rw [Wrap.procWrite] at hw
  cases hmon : w.monEc with
  | none =>
      rw [hmon] at hw
      exact Or.inl (Option.some.inj hw).symm
  | some ec =>
      rw [hmon] at hw
      exact Or.inr ⟨ec, rfl, hw⟩

theorem WrapInv.procWrite [DecidableEq A] {w w' : Wrap T A} (h : WrapInv w)
    {f : EchoCan → EchoCan} (hf : ∀ e, (f e).taps = e.taps) (hw : w.procWrite f = some w') :
    WrapInv w' := by
  rcases Wrap.procWrite_cases hw with rfl | ⟨ec, -, hmodify⟩
  · exact h
  · exact h.modify hf hmodify

theorem WrapInv.finish [DecidableEq T] [DecidableEq A] {w : Wrap T A} (h : WrapInv w) (t : T)
    (ec : A) (startCycles cycles : ℤ) : WrapInv (w.finish t ec startCycles cycles) := by
  have hidle : WrapInv (w.setTask t .idle) :=
    h.setTask (fun x hx => by cases hx) (fun x hx => by cases hx)
  rw [Wrap.finish]
  split
  · exact hidle.frame rfl rfl rfl rfl (fun _ e he => ⟨e, he, rfl⟩) (fun _ _ ht => ht)
      (fun _ _ ht => ht)
  · exact hidle

theorem Wrap.modify_monEc [DecidableEq A] {w w' : Wrap T A} {ec : A} {f : EchoCan → EchoCan}
    (hw : w.modify ec f = some w') : w'.monEc = w.monEc := by
  obtain ⟨e, -, rfl⟩ := Option.map_eq_some_iff.mp hw
  rfl

theorem Wrap.procWrite_monEc [DecidableEq A] {w w' : Wrap T A} {f : EchoCan → EchoCan}
    (hw : w.procWrite f = some w') : w'.monEc = w.monEc := by
  rcases Wrap.procWrite_cases hw with rfl | ⟨ec, -, hmodify⟩
  · rfl
  · exact Wrap.modify_monEc hmodify

theorem echoCanUpdate_taps (tx rx : Int16) (e : EchoCan) :
    (echoCanUpdate e tx rx).1.taps = e.taps := (echoCanUpdate_spec e tx rx).taps

theorem echoCanHpfTx_taps (tx : Int16) (e : EchoCan) : (echoCanHpfTx e tx).1.taps = e.taps := by
  rw [echoCanHpfTx_eq]

theorem echoCanFlush_taps (e : EchoCan) : (echoCanFlush e).taps = e.taps := by
  rw [echoCanFlush_eq]
  rfl

variable [DecidableEq T] [DecidableEq A]

/-- Every step keeps the invariant. -/
theorem WrapInv.step {w w' : Wrap T A} {a : WrapAction T A} (h : WrapInv w)
    (hstep : WrapStep w a w') : WrapInv w' := by
  cases hstep with
  | allocate hidle hnew => exact h.allocate _ hnew
  | register htask => exact h.register htask
  | free hheld hquiet => exact h.free hheld hquiet
  | compare hidle hheld hquiet => exact h.compare _ _ _ hheld hquiet
  | update htask hmodify =>
      have hmodified := h.modify (echoCanUpdate_taps _ _) hmodify
      obtain ⟨e, -, rfl⟩ := Option.map_eq_some_iff.mp hmodify
      refine hmodified.setTask (fun x hx => by cases hx) (fun x hx => ?_)
      show (w.tasks _).flight = some x
      rw [htask]
      exact hx
  | finish htask => exact h.finish _ _ _ _
  | hpfTx hheld hmodify => exact h.modify (echoCanHpfTx_taps _) hmodify
  | procReadInfo hread => exact h
  | procReadMode hread => exact h
  | @procWriteMode mode w' hwrite =>
      exact h.procWrite (f := (echoCanAdaptionMode · mode)) (fun _ => rfl) hwrite
  | procWriteReset hwrite => exact h.procWrite echoCanFlush_taps hwrite

theorem wrapInv_of_reachable {w : Wrap T A} (h : (wrapSystem T A).Reachable w) : WrapInv w := by
  refine h.invariant ?_ ?_
  · rintro s rfl
    exact wrapInv_init
  · intro s a s' hs hstep
    exact hs.step hstep

/-! ### What the monitor can rely on -/

/-- What a step does to `mon_ec`. -/
theorem WrapStep.monEc_cases {w w' : Wrap T A} {a : WrapAction T A} (h : WrapStep w a w') :
    w'.monEc = w.monEc ∨
      (∃ t ec len, a = .register t ∧ w.tasks t = .creating ec len ∧ w.monEc = none ∧
        w'.monEc = some ec) ∨
      ∃ ec, a = .free ec ∧ w.monEc = some ec ∧ w'.monEc = none := by
  cases h with
  | @register t ec len htask =>
      have hmon : (w.register t ec len).monEc = if w.monEc = none then some ec else w.monEc := rfl
      rw [hmon]
      split
      · exact Or.inr (Or.inl ⟨t, ec, len, rfl, htask, by assumption, rfl⟩)
      · exact Or.inl rfl
  | @free ec hheld hquiet =>
      have hmon : (w.free ec).monEc = if w.monEc = some ec then none else w.monEc := rfl
      rw [hmon]
      split
      · exact Or.inr (Or.inr ⟨ec, rfl, by assumption, rfl⟩)
      · exact Or.inl rfl
  | update htask hmodify =>
      -- going back to the caller does not touch the globals
      have hmon := Wrap.modify_monEc hmodify
      exact Or.inl hmon
  | finish htask =>
      left
      rw [Wrap.finish]
      split <;> rfl
  | hpfTx hheld hmodify => exact Or.inl (Wrap.modify_monEc hmodify)
  | allocate hidle hnew => exact Or.inl rfl
  | compare hidle hheld hquiet => exact Or.inl rfl
  | procReadInfo hread => exact Or.inl rfl
  | procReadMode hread => exact Or.inl rfl
  | procWriteMode hwrite => exact Or.inl (Wrap.procWrite_monEc hwrite)
  | procWriteReset hwrite => exact Or.inl (Wrap.procWrite_monEc hwrite)

/-- No access goes to a canceller that is not live: every handler runs to its
end, and so does every update that has begun. -/
theorem accesses_live {w : Wrap T A} (h : (wrapSystem T A).Reachable w) :
    w.procReadInfo.isSome ∧ w.procReadMode.isSome ∧ (∀ f, (w.procWrite f).isSome) ∧
      ∀ t ec first f, (w.tasks t).flight = some (ec, first) → (w.modify ec f).isSome := by
  have hinv := wrapInv_of_reachable h
  have hmodify : ∀ ec ∈ w.handles, ∀ f, (w.modify ec f).isSome := by
    intro ec hec f
    obtain ⟨e, he⟩ := hinv.held ec hec
    rw [Wrap.modify, he]
    rfl
  refine ⟨?_, ?_, ?_, fun t ec first f ht => hmodify ec (hinv.flying t ec first ht) f⟩
  · cases hmon : w.monEc with
    | none => rw [Wrap.procReadInfo, hmon]; rfl
    | some ec =>
        obtain ⟨-, e, he, -⟩ := hinv.monitored ec hmon
        rw [Wrap.procReadInfo, hmon]
        dsimp only
        rw [he]
        rfl
  · cases hmon : w.monEc with
    | none => rw [Wrap.procReadMode, hmon]; rfl
    | some ec =>
        obtain ⟨-, e, he, -⟩ := hinv.monitored ec hmon
        rw [Wrap.procReadMode, hmon]
        dsimp only
        rw [he]
        rfl
  · intro f
    cases hmon : w.monEc with
    | none => rw [Wrap.procWrite, hmon]; rfl
    | some ec =>
        rw [Wrap.procWrite, hmon]
        exact hmodify ec (hinv.monitored ec hmon).1 f

structure MonitorSafe (w : Wrap T A) : Prop where
  live : ∀ ec, w.monEc = some ec → ∃ e, w.heap ec = some e
  count : w.numEc = w.handles.card
  length : ∀ ec e, w.monEc = some ec → w.heap ec = some e → w.lenEc = e.taps
  /-- A canceller becomes monitored only in its own creation. -/
  starts : ∀ a w' ec, WrapStep w a w' → w.monEc ≠ some ec → w'.monEc = some ec →
    ∃ t len, a = .register t ∧ w.tasks t = .creating ec len
  /-- It stays monitored until it is freed. -/
  stops : ∀ a w' ec, WrapStep w a w' → w.monEc = some ec → w'.monEc ≠ some ec → a = .free ec
  /-- Where the second comparison succeeds, the first one did. -/
  paired : ∀ t ec first startCycles, w.tasks t = .updated ec first startCycles →
    w.monEc = some ec → first = true
  /-- No two threads are on their way to write the cycle counts. -/
  oneWriter : ∀ t t' ec ec', (w.tasks t).flight = some (ec, true) →
    (w.tasks t').flight = some (ec', true) → t = t'
  /-- Every handler finds a live canceller, and so does an update that has begun. -/
  accesses : w.procReadInfo.isSome ∧ w.procReadMode.isSome ∧ (∀ f, (w.procWrite f).isSome) ∧
    ∀ t ec first f, (w.tasks t).flight = some (ec, first) → (w.modify ec f).isSome

/-- The monitor under every interleaving of any number of threads. -/
theorem monitor_safe {w : Wrap T A} (h : (wrapSystem T A).Reachable w) : MonitorSafe w := by
  have hinv := wrapInv_of_reachable h
  exact {
    live := by
      intro ec hmon
      obtain ⟨-, e, he, -⟩ := hinv.monitored ec hmon
      exact ⟨e, he⟩
    count := hinv.count
    length := by
      intro ec e hmon he
      obtain ⟨-, e', he', htaps⟩ := hinv.monitored ec hmon
      rw [he] at he'
      rw [Option.some.inj he', htaps]
    starts := by
      intro a w' ec hstep hbefore hafter
      rcases hstep.monEc_cases with hsame | ⟨t, ec', len, ha, htask, -, hmon⟩ | ⟨ec', -, -, hmon⟩
      · exact absurd (hsame.symm.trans hafter) hbefore
      · rw [hmon] at hafter
        obtain rfl := Option.some.inj hafter
        exact ⟨t, len, ha, htask⟩
      · rw [hmon] at hafter
        cases hafter
    stops := by
      intro a w' ec hstep hbefore hafter
      rcases hstep.monEc_cases with hsame | ⟨t, ec', len, -, -, hnone, -⟩ | ⟨ec', ha, hmon, -⟩
      · exact absurd (hsame.trans hbefore) hafter
      · rw [hnone] at hbefore
        cases hbefore
      · rw [hmon] at hbefore
        obtain rfl := Option.some.inj hbefore
        exact ha
    paired := by
      intro t ec first startCycles htask hmon
      exact (hinv.compared t ec first (by rw [htask]; rfl)).mpr hmon
    oneWriter := by
      intro t t' ec ec' ht ht'
      have hmon := (hinv.compared t ec true ht).mp rfl
      have hmon' := (hinv.compared t' ec' true ht').mp rfl
      rw [hmon] at hmon'
      obtain rfl := Option.some.inj hmon'
      exact hinv.flyingOnce t t' ec true true ht ht'
    accesses := accesses_live h
  }

/-- A second creation while the first canceller is being updated. -/
theorem monitor_safe_two_creations :
    MonitorSafe (((((Wrap.init : Wrap ℕ ℕ).allocate 0 7 2).register 0 7 2).compare
      0 7 100 (-3) 50).allocate 1 8 4) := by
  have hinit : (wrapSystem ℕ ℕ).Reachable Wrap.init := .init rfl
  have hallocated : (wrapSystem ℕ ℕ).Reachable (Wrap.init.allocate 0 7 2) :=
    hinit.step (WrapStep.allocate rfl rfl)
  have hcreated : (wrapSystem ℕ ℕ).Reachable ((Wrap.init.allocate 0 7 2).register 0 7 2) :=
    hallocated.step (WrapStep.register rfl)
  have hquiet : ((Wrap.init.allocate 0 7 2).register 0 7 2 : Wrap ℕ ℕ).Quiet 7 := by
    intro t first ht
    rcases Wrap.setTask_cases ht with ⟨-, hidle⟩ | ⟨-, ht⟩
    · cases hidle
    · rcases Wrap.setTask_cases ht with ⟨-, hcreating⟩ | ⟨-, hinit⟩
      · cases hcreating
      · cases hinit
  have hupdating : (wrapSystem ℕ ℕ).Reachable
      (((Wrap.init.allocate 0 7 2).register 0 7 2).compare 0 7 100 (-3) 50) :=
    hcreated.step (WrapStep.compare rfl (by decide) hquiet)
  exact monitor_safe (hupdating.step (WrapStep.allocate rfl rfl))

end

end Oslec
