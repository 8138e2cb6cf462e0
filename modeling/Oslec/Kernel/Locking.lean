import Oslec.Kernel.Monitor
import Mathlib.Logic.Relation

/-!
`oslec_wrap.c` statement by statement. Here a thread that holds `oslec_lock`
can be interrupted between any two of its statements, and the update, which
takes no lock, between its two comparisons and its three writes to the cycle
counts. A creation takes effect when it unlocks, a free when it frees the
canceller, and an update's cycle counts when the last of them is written: up to
that, no other thread can tell the difference, and the wrapper refines the one
of `Monitor.lean`, whose critical sections are single steps.

A call of a function of `echo.c` is one statement. For `echo_can_flush` that is
too coarse, because an update needs no lock and may run in the middle of it
(`ProcReset.lean`); what is said about atomicity is therefore said of the runs
in which nobody writes to `/proc/oslec/reset`.
-/

namespace Oslec

open TwosComplement

/-- The entries of `/proc/oslec`, with the number written to `mode`. -/
inductive ProcCall
  | info
  | readMode
  | writeMode (mode : BitVec 32)
  | reset

/-- The statement that a thread is about to execute, with its local variables. -/
inductive Pc (A : Type)
  | idle
  -- `oslec_echo_can_create`, from the lock on
  | createLock (ec : A) (len : ℕ)
  | createCount (ec : A) (len : ℕ)
  | createTest (ec : A) (len : ℕ)
  | createMon (ec : A) (len : ℕ)
  | createLen (ec : A) (len : ℕ)
  | createUnlock (ec : A) (len : ℕ)
  -- `oslec_echo_can_free`
  | freeLock (ec : A)
  | freeTest (ec : A)
  | freeMon (ec : A)
  | freeCanceller (ec : A)
  | freeCount
  | freeUnlock
  -- `oslec_echo_can_update`
  | updateTest (ec : A) (tx rx : Int16)
  | updateStart (ec : A) (tx rx : Int16)
  | updateRun (ec : A) (tx rx : Int16) (first : Bool) (startCycles : ℤ)
  | updateTestAgain (ec : A) (first : Bool) (startCycles : ℤ)
  | updateLast (ec : A) (first : Bool) (startCycles : ℤ)
  | updateAverage (ec : A) (first : Bool) (startCycles : ℤ)
  | updateWorst (ec : A) (first : Bool) (startCycles : ℤ)
  -- `proc_*`, the last with what is returned in the buffer
  | procLock (call : ProcCall)
  | procTest (call : ProcCall)
  | procUse (call : ProcCall)
  | procInfo (pieces : ℕ) (modeStr : String)
  | procUnlock (text : Option String)

/-- The globals of the module, the live cancellers, and those that callers hold. -/
structure Shared (T A : Type) where
  heap : A → Option EchoCan
  handles : Finset A
  monEc : Option A
  numEc : ℤ
  lenEc : ℕ
  cyclesLast : ℤ
  cyclesWorst : ℤ
  cyclesAverage : ℤ
  oslecLock : Option T

structure Machine (T A : Type) extends Shared T A where
  pc : T → Pc A

/-- What one of the five conditions of `proc_read_info` appends to `mode_str`. -/
def modePiece (mode : BitVec 32) : ℕ → String
  | 0 => if hasFlag mode echoCanUseAdaption then "|ADAPTION" else "|        "
  | 1 => if hasFlag mode echoCanUseNlp then "|NLP" else "|   "
  | 2 => if hasFlag mode echoCanUseCng then "|CNG"
      else if hasFlag mode echoCanUseClip then "|CLIP" else "|   "
  | 3 => if hasFlag mode echoCanUseTxHpf then "|TXHPF" else "|   "
  | 4 => if hasFlag mode echoCanUseRxHpf then "|RXHPF|" else "|   |"
  | _ => ""

def modeText (mode : BitVec 32) : ℕ → String
  | 0 => ""
  | k + 1 => modeText mode k ++ modePiece mode k

namespace Shared

variable {T A : Type}

def wrap (s : Shared T A) (tasks : T → Task A) : Wrap T A where
  heap := s.heap
  handles := s.handles
  monEc := s.monEc
  numEc := s.numEc
  lenEc := s.lenEc
  cyclesLast := s.cyclesLast
  cyclesWorst := s.cyclesWorst
  cyclesAverage := s.cyclesAverage
  tasks := tasks

def monitored (s : Shared T A) : Option EchoCan := s.monEc.bind s.heap

/-- The text that `proc_read_info` prints, `mode_str` having been made before. -/
def infoText (s : Shared T A) (e : EchoCan) (modeStr : String) : String :=
  "channels.......: " ++ toString s.numEc ++ "\n" ++
    "length (taps)..: " ++ toString s.lenEc ++ "\n" ++
    "mode...........: [" ++ toString e.adaptionMode.toInt ++ "] " ++ modeStr ++ "\n" ++
    "Ltx............: " ++ toString e.ltx.level ++ "\n" ++
    "Lrx............: " ++ toString e.lrx.level ++ "\n" ++
    "Lclean.........: " ++ toString e.lclean.level ++ "\n" ++
    "Lclean_bg......: " ++ toString e.lcleanBg.level ++ "\n" ++
    "shift..........: " ++ toString e.shift ++ "\n" ++
    "Double Talk....: " ++ (if e.nonupdateDwell ≠ 0 then "1" else "0") ++ "\n" ++
    "Lbgn...........: " ++ toString e.lbgn.level ++ "\n" ++
    "MIPs (last)....: " ++ toString (mips s.cyclesLast) ++ "\n" ++
    "MIPs (worst)...: " ++ toString (mips s.cyclesWorst) ++ "\n" ++
    "MIPs (avergage): " ++ toString (mips s.cyclesAverage) ++ "\n"

variable [DecidableEq T] [DecidableEq A]

/-- `spin_lock_irqsave`: there is no going on while the lock is taken. -/
def lock (s : Shared T A) (t : T) (next : Pc A) : Option (Shared T A × Pc A) :=
  if s.oslecLock = none then some ({ s with oslecLock := some t }, next) else none

def unlock (s : Shared T A) : Shared T A := { s with oslecLock := none }

def setHeap (s : Shared T A) (ec : A) (e : Option EchoCan) : Shared T A :=
  { s with heap := Function.update s.heap ec e }

def modify (s : Shared T A) (ec : A) (f : EchoCan → EchoCan) : Option (Shared T A) :=
  (s.heap ec).map fun e => s.setHeap ec (some (f e))

def noMonitor : ProcCall → Option String
  | .info => some noMonitorText
  | .readMode => some "0\n"
  | .writeMode _ => none
  | .reset => none

/-- The first statement of a handler behind its test of `mon_ec`. -/
def firstUse : ProcCall → Pc A
  | .info => .procInfo 0 ""
  | call => .procUse call

def use (s : Shared T A) : ProcCall → Option (Shared T A × Pc A)
  | .info => none
  | .readMode =>
      s.monitored.map fun e => (s, .procUnlock (some (toString e.adaptionMode.toInt ++ "\n")))
  | .writeMode mode =>
      (s.monEc.bind fun ec => s.modify ec (echoCanAdaptionMode · mode)).map
        fun s => (s, .procUnlock none)
  | .reset => (s.monEc.bind fun ec => s.modify ec echoCanFlush).map fun s => (s, .procUnlock none)

/-- One statement of thread `t`, `cycles` being what the cycle counter shows if
it is read. There is none while the thread is idle or waits for the lock, and
none that uses a canceller that is not live. -/
def exec (s : Shared T A) (t : T) (cycles : ℤ) : Pc A → Option (Shared T A × Pc A)
  | .idle => none
  | .createLock ec len => s.lock t (.createCount ec len)
  | .createCount ec len => some ({ s with numEc := s.numEc + 1 }, .createTest ec len)
  | .createTest ec len =>
      some (s, if s.monEc = none then .createMon ec len else .createUnlock ec len)
  | .createMon ec len => some ({ s with monEc := some ec }, .createLen ec len)
  | .createLen ec len => some ({ s with lenEc := len }, .createUnlock ec len)
  | .createUnlock ec _ => some ({ s.unlock with handles := insert ec s.handles }, .idle)
  | .freeLock ec => s.lock t (.freeTest ec)
  | .freeTest ec => some (s, if s.monEc = some ec then .freeMon ec else .freeCanceller ec)
  | .freeMon ec => some ({ s with monEc := none }, .freeCanceller ec)
  | .freeCanceller ec =>
      (s.heap ec).map fun _ =>
        ({ s.setHeap ec none with handles := s.handles.erase ec }, .freeCount)
  | .freeCount => some ({ s with numEc := s.numEc - 1 }, .freeUnlock)
  | .freeUnlock => some (s.unlock, .idle)
  | .updateTest ec tx rx =>
      some (s, if s.monEc = some ec then .updateStart ec tx rx else .updateRun ec tx rx false 0)
  | .updateStart ec tx rx => some (s, .updateRun ec tx rx true (cycles % 2 ^ 32))
  | .updateRun ec tx rx first startCycles =>
      (s.modify ec fun e => (echoCanUpdate e tx rx).1).map
        fun s => (s, .updateTestAgain ec first startCycles)
  | .updateTestAgain ec first startCycles =>
      some (s, if s.monEc = some ec then .updateLast ec first startCycles else .idle)
  | .updateLast ec first startCycles =>
      some ({ s with cyclesLast := i32 (cycles - startCycles) },
        .updateAverage ec first startCycles)
  | .updateAverage ec first startCycles =>
      some ({ s with
        cyclesAverage := i32 (s.cyclesAverage + i32 (s.cyclesLast - s.cyclesAverage) >>> ltc) },
        .updateWorst ec first startCycles)
  | .updateWorst _ _ _ =>
      some ({ s with
        cyclesWorst := if s.cyclesLast > s.cyclesWorst then s.cyclesLast else s.cyclesWorst },
        .idle)
  | .procLock call => s.lock t (.procTest call)
  | .procTest call =>
      some (s, if s.monEc = none then .procUnlock (noMonitor call) else firstUse call)
  | .procUse call => s.use call
  | .procInfo pieces modeStr =>
      s.monitored.map fun e =>
        (s, if pieces < 5 then .procInfo (pieces + 1) (modeStr ++ modePiece e.adaptionMode pieces)
          else .procUnlock (some (s.infoText e modeStr)))
  | .procUnlock _ => some (s.unlock, .idle)

end Shared

/-! ### What a statement tells about its thread -/

namespace Pc

variable {T A : Type}

def critical : Pc A → Bool
  | .createCount _ _ | .createTest _ _ | .createMon _ _ | .createLen _ _ | .createUnlock _ _ => true
  | .freeTest _ | .freeMon _ | .freeCanceller _ | .freeCount | .freeUnlock => true
  | .procTest _ | .procUse _ | .procInfo _ _ | .procUnlock _ => true
  | _ => false

def waiting : Pc A → Bool
  | .createLock _ _ | .freeLock _ | .procLock _ => true
  | _ => false

/-- The canceller that the thread has from its caller to update or to free. -/
def uses : Pc A → Option A
  | .freeLock ec | .freeTest ec | .freeMon ec | .freeCanceller ec => some ec
  | .updateTest ec _ _ | .updateStart ec _ _ | .updateRun ec _ _ _ _ => some ec
  | .updateTestAgain ec _ _ | .updateLast ec _ _ | .updateAverage ec _ _ | .updateWorst ec _ _ =>
      some ec
  | _ => none

def counting : Pc A → Bool
  | .updateAverage _ _ _ | .updateWorst _ _ _ => true
  | _ => false

/-- The task of the atomic wrapper that the thread is in the middle of. -/
def task : Pc A → Task A
  | .createLock ec len | .createCount ec len | .createTest ec len => .creating ec len
  | .createMon ec len | .createLen ec len | .createUnlock ec len => .creating ec len
  | .updateRun ec tx rx first startCycles => .updating ec tx rx first startCycles
  | .updateTestAgain ec first startCycles => .updated ec first startCycles
  | .updateLast ec first startCycles => .updated ec first startCycles
  | .updateAverage ec first startCycles => .updated ec first startCycles
  | .updateWorst ec first startCycles => .updated ec first startCycles
  | _ => .idle

def resets : Pc A → Bool
  | .procLock .reset | .procTest .reset | .procUse .reset => true
  | _ => false

/-- How many statements the thread has at most before it is past its unlock. -/
def left : Pc A → ℕ
  | .createCount _ _ => 5
  | .createTest _ _ => 4
  | .createMon _ _ => 3
  | .createLen _ _ => 2
  | .createUnlock _ _ => 1
  | .freeTest _ => 5
  | .freeMon _ => 4
  | .freeCanceller _ => 3
  | .freeCount => 2
  | .freeUnlock => 1
  | .procTest _ => 8
  | .procUse _ => 2
  | .procInfo pieces _ => 5 - pieces + 2
  | .procUnlock _ => 1
  | _ => 0

end Pc

section

variable {T A : Type} [DecidableEq T] [DecidableEq A]

/-- `init_oslec`. -/
def Machine.init : Machine T A where
  heap := fun _ => none
  handles := ∅
  monEc := none
  numEc := 0
  lenEc := 0
  cyclesLast := 0
  cyclesWorst := 0
  cyclesAverage := 0
  oslecLock := none
  pc := fun _ => .idle

def Machine.Unused (m : Machine T A) (ec : A) : Prop := ∀ t, (m.pc t).uses ≠ some ec

/-- A thread calls into the module, with what the allocator and the callers see
to, or executes its next statement. -/
inductive MachineStep (m : Machine T A) (t : T) : Machine T A → Prop
  | create {ec : A} {len : ℕ} (hidle : m.pc t = .idle) (hnew : m.heap ec = none) :
      MachineStep m t
        { m.toShared.setHeap ec (some (echoCanCreate len createMode)) with
          pc := Function.update m.pc t (.createLock ec len) }
  | free {ec : A} (hidle : m.pc t = .idle) (hheld : ec ∈ m.handles) (hunused : m.Unused ec) :
      MachineStep m t { m with pc := Function.update m.pc t (.freeLock ec) }
  | update {ec : A} {tx rx : Int16} (hidle : m.pc t = .idle) (hheld : ec ∈ m.handles)
      (hunused : m.Unused ec) :
      MachineStep m t { m with pc := Function.update m.pc t (.updateTest ec tx rx) }
  | hpfTx {ec : A} {tx : Int16} {s : Shared T A} (hidle : m.pc t = .idle) (hheld : ec ∈ m.handles)
      (hmodify : m.toShared.modify ec (fun e => (echoCanHpfTx e tx).1) = some s) :
      MachineStep m t { s with pc := m.pc }
  | proc {call : ProcCall} (hidle : m.pc t = .idle) :
      MachineStep m t { m with pc := Function.update m.pc t (.procLock call) }
  | exec {cycles : ℤ} {s : Shared T A} {next : Pc A}
      (hexec : m.toShared.exec t cycles (m.pc t) = some (s, next)) :
      MachineStep m t { s with pc := Function.update m.pc t next }

def machineSystem (T A : Type) [DecidableEq T] [DecidableEq A] :
    TransitionSystem (Machine T A) T where
  init m := m = Machine.init
  step := MachineStep

def Machine.NoReset (m : Machine T A) : Prop := ∀ t, (m.pc t).resets = false

/-- The module as long as nobody resets the monitored canceller. -/
def resetFreeSystem (T A : Type) [DecidableEq T] [DecidableEq A] :
    TransitionSystem (Machine T A) T :=
  (machineSystem T A).restrict Machine.NoReset

end

/-! ### The refinement -/

section

variable {T A : Type}

structure Shared.SharesGlobals (s : Shared T A) (monEc : Option A) (numEc : ℤ) (lenEc : ℕ) :
    Prop where
  monEc : s.monEc = monEc
  numEc : s.numEc = numEc
  lenEc : s.lenEc = lenEc

structure Shared.SharesCycles (s : Shared T A) (w : Wrap T A) : Prop where
  last : s.cyclesLast = w.cyclesLast
  worst : s.cyclesWorst = w.cyclesWorst
  average : s.cyclesAverage = w.cyclesAverage

/-- How the globals differ from those of the atomic wrapper while a thread is at
this statement, and what the tests before it have established. -/
def Pc.Here (s : Shared T A) (w : Wrap T A) [DecidableEq A] : Pc A → Prop
  | .createCount _ _ => s.SharesGlobals w.monEc w.numEc w.lenEc
  | .createTest _ _ => s.SharesGlobals w.monEc (w.numEc + 1) w.lenEc
  | .createMon _ _ => w.monEc = none ∧ s.SharesGlobals w.monEc (w.numEc + 1) w.lenEc
  | .createLen ec _ => w.monEc = none ∧ s.SharesGlobals (some ec) (w.numEc + 1) w.lenEc
  | .createUnlock ec len =>
      s.SharesGlobals (if w.monEc = none then some ec else w.monEc) (w.numEc + 1)
        (if w.monEc = none then len else w.lenEc)
  | .freeTest _ => s.SharesGlobals w.monEc w.numEc w.lenEc
  | .freeMon ec => w.monEc = some ec ∧ s.SharesGlobals w.monEc w.numEc w.lenEc
  | .freeCanceller ec =>
      s.SharesGlobals (if w.monEc = some ec then none else w.monEc) w.numEc w.lenEc
  | .freeCount => s.SharesGlobals w.monEc (w.numEc + 1) w.lenEc
  | .freeUnlock => s.SharesGlobals w.monEc w.numEc w.lenEc
  | .procTest _ => s.SharesGlobals w.monEc w.numEc w.lenEc
  | .procUse call => call ≠ .info ∧ w.monEc ≠ none ∧ s.SharesGlobals w.monEc w.numEc w.lenEc
  | .procInfo pieces modeStr => s.SharesGlobals w.monEc w.numEc w.lenEc ∧ pieces ≤ 5 ∧
      ∃ ec e, w.monEc = some ec ∧ w.heap ec = some e ∧ modeStr = modeText e.adaptionMode pieces
  | .procUnlock _ => s.SharesGlobals w.monEc w.numEc w.lenEc
  | .updateStart ec _ _ | .updateLast ec _ _ => w.monEc = some ec
  | .updateAverage ec _ startCycles => w.monEc = some ec ∧ s.cyclesWorst = w.cyclesWorst ∧
      s.cyclesAverage = w.cyclesAverage ∧ ∃ cycles, s.cyclesLast = i32 (cycles - startCycles)
  | .updateWorst ec _ startCycles => w.monEc = some ec ∧ s.cyclesWorst = w.cyclesWorst ∧
      s.cyclesAverage = i32 (w.cyclesAverage + i32 (s.cyclesLast - w.cyclesAverage) >>> ltc) ∧
      ∃ cycles, s.cyclesLast = i32 (cycles - startCycles)
  | _ => True

theorem Pc.counting_of_critical {p : Pc A} (hp : p.critical = true) : p.counting = false := by
  cases p <;> first | rfl | cases hp

variable [DecidableEq A]

structure Machine.Follows (m : Machine T A) (w : Wrap T A) : Prop where
  held : ∀ t, m.oslecLock = some t ↔ (m.pc t).critical = true
  tasks : ∀ t, w.tasks t = (m.pc t).task
  handles : w.handles = m.handles
  heap : m.heap = w.heap
  used : ∀ t ec, (m.pc t).uses = some ec → ec ∈ m.handles
  usedOnce : ∀ t t' ec, (m.pc t).uses = some ec → (m.pc t').uses = some ec → t = t'
  unlocked : m.oslecLock = none → m.SharesGlobals w.monEc w.numEc w.lenEc
  here : ∀ t, (m.pc t).Here m.toShared w
  cycles : (∀ t, (m.pc t).counting = false) → m.SharesCycles w

/-! ### What the statements of other threads leave alone -/

/-- Outside the critical sections an assertion is about `mon_ec` and, between
the writes to them, about the cycle counts. -/
theorem Pc.Here.of_not_critical {s s' : Shared T A} {w w' : Wrap T A} {p : Pc A}
    (h : p.Here s w) (hp : p.critical = false)
    (hmon : ∀ ec, p.uses = some ec → w.monEc = some ec → w'.monEc = some ec)
    (hcycles : p.counting = true → (s'.cyclesLast = s.cyclesLast ∧
      s'.cyclesWorst = s.cyclesWorst ∧ s'.cyclesAverage = s.cyclesAverage) ∧
      w'.cyclesWorst = w.cyclesWorst ∧ w'.cyclesAverage = w.cyclesAverage) : p.Here s' w' := by
  cases p with
  | updateStart ec tx rx => exact hmon ec rfl h
  | updateLast ec first startCycles => exact hmon ec rfl h
  | updateAverage ec first startCycles =>
      obtain ⟨hec, hworst, haverage, cycles, hlast⟩ := h
      obtain ⟨⟨hl, hwo, hav⟩, hwo', hav'⟩ := hcycles rfl
      exact ⟨hmon ec rfl hec, by rw [hwo, hworst, hwo'], by rw [hav, haverage, hav'], cycles,
        hl.trans hlast⟩
  | updateWorst ec first startCycles =>
      obtain ⟨hec, hworst, haverage, cycles, hlast⟩ := h
      obtain ⟨⟨hl, hwo, hav⟩, hwo', hav'⟩ := hcycles rfl
      exact ⟨hmon ec rfl hec, by rw [hwo, hworst, hwo'], by rw [hav, haverage, hav', hl], cycles,
        hl.trans hlast⟩
  | idle => trivial
  | createLock ec len => trivial
  | freeLock ec => trivial
  | updateTest ec tx rx => trivial
  | updateRun ec tx rx first startCycles => trivial
  | updateTestAgain ec first startCycles => trivial
  | procLock call => trivial
  | _ => cases hp

/-- Inside them it is about the globals and the mode of the monitored canceller. -/
theorem Pc.Here.of_critical {s s' : Shared T A} {w w' : Wrap T A} {p : Pc A} (h : p.Here s w)
    (hp : p.critical = true) (hs : s'.SharesGlobals s.monEc s.numEc s.lenEc)
    (hmon : w'.monEc = w.monEc) (hnum : w'.numEc = w.numEc) (hlen : w'.lenEc = w.lenEc)
    (hheap : ∀ ec e, w.heap ec = some e →
      ∃ e', w'.heap ec = some e' ∧ e'.adaptionMode = e.adaptionMode) : p.Here s' w' := by
  have hshares : ∀ {mon num len}, s.SharesGlobals mon num len → s'.SharesGlobals mon num len :=
    fun hg => ⟨hs.monEc.trans hg.monEc, hs.numEc.trans hg.numEc, hs.lenEc.trans hg.lenEc⟩
  cases p with
  | createMon ec len => exact ⟨hmon.trans h.1, by rw [hmon, hnum, hlen]; exact hshares h.2⟩
  | createLen ec len => exact ⟨hmon.trans h.1, by rw [hnum, hlen]; exact hshares h.2⟩
  | freeMon ec => exact ⟨hmon.trans h.1, by rw [hmon, hnum, hlen]; exact hshares h.2⟩
  | procUse call =>
      exact ⟨h.1, by rw [hmon]; exact h.2.1, by rw [hmon, hnum, hlen]; exact hshares h.2.2⟩
  | procInfo pieces modeStr =>
      obtain ⟨hg, hle, ec, e, hec, he, hstr⟩ := h
      obtain ⟨e', he', hmode⟩ := hheap ec e he
      refine ⟨by rw [hmon, hnum, hlen]; exact hshares hg, hle, ec, e', hmon.trans hec, he', ?_⟩
      rw [hmode, hstr]
  | createCount ec len | createTest ec len | createUnlock ec len | freeTest ec | freeCanceller ec
  | freeCount | freeUnlock | procTest call | procUnlock text =>
      unfold Pc.Here at h ⊢
      rw [hmon, hnum, hlen]
      exact hshares h
  | _ => cases hp

theorem Pc.exists_uses_of_counting {s : Shared T A} {w : Wrap T A} {p : Pc A} (h : p.Here s w)
    (hp : p.counting = true) : ∃ ec, p.uses = some ec ∧ w.monEc = some ec := by
  cases p with
  | updateAverage ec first startCycles => exact ⟨ec, rfl, h.1⟩
  | updateWorst ec first startCycles => exact ⟨ec, rfl, h.1⟩
  | _ => cases hp

namespace Machine.Follows

variable {m : Machine T A} {w : Wrap T A} (h : m.Follows w) {t : T}

include h

theorem not_critical (ht : (m.pc t).critical = true) {t' : T} (hne : t' ≠ t) :
    (m.pc t').critical = false := by
  by_contra hcrit
  have hlock := (h.held t).mpr ht
  have hlock' := (h.held t').mpr (by simpa using hcrit)
  rw [hlock] at hlock'
  exact hne (Option.some.inj hlock').symm

theorem not_counting {ec : A} (huses : (m.pc t).uses = some ec) (hmon : w.monEc = some ec) {t' : T}
    (hne : t' ≠ t) : (m.pc t').counting = false := by
  by_contra hcount
  obtain ⟨ec', huses', hmon'⟩ := Pc.exists_uses_of_counting (h.here t') (by simpa using hcount)
  rw [hmon] at hmon'
  obtain rfl := Option.some.inj hmon'
  exact hne (h.usedOnce t' t _ huses' huses)

theorem usedSelf {p : Pc A} (huses : ∀ ec, p.uses = some ec → (m.pc t).uses = some ec) (ec : A)
    (hec : p.uses = some ec) : ec ∈ m.handles ∧ ∀ t', t' ≠ t → (m.pc t').uses ≠ some ec :=
  ⟨h.used t ec (huses ec hec), fun t' hne huses' =>
    hne (h.usedOnce t' t ec huses' (huses ec hec))⟩

theorem sharesCycles (hself : (m.pc t).counting = false)
    (hother : ∀ t', t' ≠ t → (m.pc t').counting = false) : m.SharesCycles w :=
  h.cycles fun t' => by
    rcases eq_or_ne t' t with rfl | hne
    · exact hself
    · exact hother t' hne

variable [DecidableEq T]

theorem advance {s : Shared T A} {p : Pc A} {w' : Wrap T A}
    (heldSelf : s.oslecLock = some t ↔ p.critical = true)
    (heldOther : ∀ t', t' ≠ t → (s.oslecLock = some t' ↔ m.oslecLock = some t'))
    (tasks : w'.tasks = Function.update w.tasks t p.task)
    (handles : w'.handles = s.handles) (heap : s.heap = w'.heap)
    (usedSelf : ∀ ec, p.uses = some ec → ec ∈ s.handles ∧ ∀ t', t' ≠ t →
      (m.pc t').uses ≠ some ec)
    (usedOther : ∀ t', t' ≠ t → ∀ ec, (m.pc t').uses = some ec → ec ∈ s.handles)
    (unlocked : s.oslecLock = none → s.SharesGlobals w'.monEc w'.numEc w'.lenEc)
    (hereSelf : p.Here s w') (hereOther : ∀ t', t' ≠ t → (m.pc t').Here s w')
    (cycles : p.counting = false → (∀ t', t' ≠ t → (m.pc t').counting = false) →
      s.SharesCycles w') :
    Machine.Follows { s with pc := Function.update m.pc t p } w' := by
  let m' : Machine T A := { s with pc := Function.update m.pc t p }
  have hself : m'.pc t = p := Function.update_self _ _ _
  have hother : ∀ t', t' ≠ t → m'.pc t' = m.pc t' := fun t' hne => Function.update_of_ne hne _ _
  change m'.Follows w'
  refine ⟨?_, ?_, handles, heap, ?_, ?_, unlocked, ?_, ?_⟩
  · intro t'
    rcases eq_or_ne t' t with rfl | hne
    · rw [hself]
      exact heldSelf
    · rw [hother t' hne, ← h.held t']
      exact heldOther t' hne
  · intro t'
    rw [tasks]
    rcases eq_or_ne t' t with rfl | hne
    · rw [hself, Function.update_self]
    · rw [hother t' hne, Function.update_of_ne hne, h.tasks t']
  · intro t' ec huses
    rcases eq_or_ne t' t with rfl | hne
    · rw [hself] at huses
      exact (usedSelf ec huses).1
    · rw [hother t' hne] at huses
      exact usedOther t' hne ec huses
  · intro t' t'' ec huses huses'
    rcases eq_or_ne t' t with rfl | hne
    · rcases eq_or_ne t'' t' with rfl | hne'
      · rfl
      · rw [hself] at huses
        rw [hother t'' hne'] at huses'
        exact absurd huses' ((usedSelf ec huses).2 t'' hne')
    · rw [hother t' hne] at huses
      rcases eq_or_ne t'' t with rfl | hne'
      · rw [hself] at huses'
        exact absurd huses ((usedSelf ec huses').2 t' hne)
      · rw [hother t'' hne'] at huses'
        exact h.usedOnce t' t'' ec huses huses'
  · intro t'
    rcases eq_or_ne t' t with rfl | hne
    · rw [hself]
      exact hereSelf
    · rw [hother t' hne]
      exact hereOther t' hne
  · intro hcount
    refine cycles ?_ fun t' hne => ?_
    · rw [← hself]
      exact hcount t
    · rw [← hother t' hne]
      exact hcount t'

theorem tasks_update {p : Pc A} (htask : p.task = (m.pc t).task) :
    w.tasks = Function.update w.tasks t p.task := by
  rw [htask, ← h.tasks t, Function.update_eq_self]

theorem inSection {p : Pc A} {monEc : Option A} {numEc : ℤ} {lenEc : ℕ}
    (hp : (m.pc t).critical = true) (hp' : p.critical = true) (htask : p.task = (m.pc t).task)
    (huses : ∀ ec, p.uses = some ec → (m.pc t).uses = some ec)
    (hhere : p.Here { m.toShared with monEc := monEc, numEc := numEc, lenEc := lenEc } w) :
    Machine.Follows
      { m with
        monEc := monEc, numEc := numEc, lenEc := lenEc
        pc := Function.update m.pc t p } w := by
  have hlock : m.oslecLock = some t := (h.held t).mpr hp
  refine h.advance (s := { m.toShared with monEc := monEc, numEc := numEc, lenEc := lenEc })
    ⟨fun _ => hp', fun _ => hlock⟩ (fun _ _ => Iff.rfl) (h.tasks_update htask) h.handles h.heap
    (h.usedSelf huses) (fun t' _ => h.used t') ?_ hhere ?_ ?_
  · intro hnone
    rw [show m.oslecLock = none from hnone] at hlock
    cases hlock
  · intro t' hne
    exact (h.here t').of_not_critical (h.not_critical hp hne) (fun _ _ hec => hec)
      fun _ => ⟨⟨rfl, rfl, rfl⟩, rfl, rfl⟩
  · intro _ hother
    have hcycles := h.cycles fun t' => ?_
    · exact ⟨hcycles.last, hcycles.worst, hcycles.average⟩
    · rcases eq_or_ne t' t with rfl | hne
      · exact Pc.counting_of_critical hp
      · exact hother t' hne

theorem acquire {p : Pc A} {r : Shared T A × Pc A} (hp' : p.critical = true)
    (hcount : (m.pc t).counting = false) (htask : p.task = (m.pc t).task)
    (huses : ∀ ec, p.uses = some ec → (m.pc t).uses = some ec)
    (hhere : m.SharesGlobals w.monEc w.numEc w.lenEc →
      p.Here { m.toShared with oslecLock := some t } w)
    (hlock : m.toShared.lock t p = some r) :
    Machine.Follows { r.1 with pc := Function.update m.pc t r.2 } w := by
  rw [Shared.lock] at hlock
  split at hlock
  case isFalse => cases hlock
  case isTrue hnone =>
    obtain rfl := Option.some.inj hlock
    have hfree : ∀ t', (m.pc t').critical = false := by
      intro t'
      by_contra hcrit
      have := (h.held t').mpr (by simpa using hcrit)
      rw [hnone] at this
      cases this
    refine h.advance ⟨fun _ => hp', fun _ => rfl⟩ ?_ (h.tasks_update htask) h.handles h.heap
      (h.usedSelf huses) (fun t' _ => h.used t') ?_ (hhere (h.unlocked hnone)) ?_ ?_
    · intro t' hne
      rw [hnone]
      exact ⟨fun heq => absurd (Option.some.inj heq).symm hne, fun heq => (by cases heq)⟩
    · intro heq
      cases heq
    · intro t' _
      exact (h.here t').of_not_critical (hfree t') (fun _ _ hec => hec)
        fun _ => ⟨⟨rfl, rfl, rfl⟩, rfl, rfl⟩
    · intro _ hother
      have hcycles := h.sharesCycles hcount hother
      exact ⟨hcycles.last, hcycles.worst, hcycles.average⟩

theorem release (hp : (m.pc t).critical = true) (htask : (m.pc t).task = .idle)
    (hhere : m.SharesGlobals w.monEc w.numEc w.lenEc) :
    Machine.Follows { m.toShared.unlock with pc := Function.update m.pc t .idle } w := by
  have hlock : m.oslecLock = some t := (h.held t).mpr hp
  refine h.advance ⟨fun heq => (by cases heq), fun heq => (by cases heq)⟩ ?_
    (h.tasks_update htask.symm) h.handles h.heap (fun ec hec => by cases hec)
    (fun t' _ => h.used t') (fun _ => ⟨hhere.monEc, hhere.numEc, hhere.lenEc⟩) trivial ?_ ?_
  · intro t' hne
    rw [hlock]
    exact ⟨fun heq => (by cases heq), fun heq => absurd (Option.some.inj heq).symm hne⟩
  · intro t' hne
    exact (h.here t').of_not_critical (h.not_critical hp hne) (fun _ _ hec => hec)
      fun _ => ⟨⟨rfl, rfl, rfl⟩, rfl, rfl⟩
  · intro _ hother
    have hcycles := h.sharesCycles (Pc.counting_of_critical hp) hother
    exact ⟨hcycles.last, hcycles.worst, hcycles.average⟩

theorem outside {s : Shared T A} {p : Pc A} {w' : Wrap T A} (hp : (m.pc t).critical = false)
    (hp' : p.critical = false) (hlock : s.oslecLock = m.oslecLock)
    (hglobals : s.SharesGlobals m.monEc m.numEc m.lenEc)
    (tasks : w'.tasks = Function.update w.tasks t p.task) (handles : w'.handles = w.handles)
    (handles' : s.handles = m.handles) (heap : s.heap = w'.heap)
    (hmon : w'.monEc = w.monEc) (hnum : w'.numEc = w.numEc) (hlen : w'.lenEc = w.lenEc)
    (usedSelf : ∀ ec, p.uses = some ec → ec ∈ m.handles ∧ ∀ t', t' ≠ t →
      (m.pc t').uses ≠ some ec)
    (hereSelf : p.Here s w')
    (hheap : ∀ ec e, w.heap ec = some e →
      ∃ e', w'.heap ec = some e' ∧ e'.adaptionMode = e.adaptionMode)
    (hcycles : ∀ t', t' ≠ t → (m.pc t').counting = true → (s.cyclesLast = m.cyclesLast ∧
      s.cyclesWorst = m.cyclesWorst ∧ s.cyclesAverage = m.cyclesAverage) ∧
      w'.cyclesWorst = w.cyclesWorst ∧ w'.cyclesAverage = w.cyclesAverage)
    (cycles : p.counting = false → (∀ t', t' ≠ t → (m.pc t').counting = false) →
      s.SharesCycles w') :
    Machine.Follows { s with pc := Function.update m.pc t p } w' := by
  refine h.advance ?_ (fun t' _ => by rw [hlock]) tasks (by rw [handles, handles', h.handles]) heap
    (by rw [handles']; exact usedSelf) (fun t' _ => by rw [handles']; exact h.used t') ?_ hereSelf
    ?_ cycles
  · rw [hlock, h.held t, hp, hp']
  · intro hnone
    have hshared := h.unlocked (hlock.symm.trans hnone)
    rw [hmon, hnum, hlen]
    exact ⟨hglobals.monEc.trans hshared.monEc, hglobals.numEc.trans hshared.numEc,
      hglobals.lenEc.trans hshared.lenEc⟩
  · intro t' hne
    cases hcrit : (m.pc t').critical with
    | true => exact (h.here t').of_critical hcrit hglobals hmon hnum hlen hheap
    | false =>
        exact (h.here t').of_not_critical hcrit (fun ec _ hec => hmon.trans hec) (hcycles t' hne)

theorem onlyTask {p : Pc A} {w' : Wrap T A} (hp : (m.pc t).critical = false)
    (hcount : (m.pc t).counting = false) (hp' : p.critical = false)
    (hw' : w' = w.setTask t p.task)
    (usedSelf : ∀ ec, p.uses = some ec → ec ∈ m.handles ∧ ∀ t', t' ≠ t →
      (m.pc t').uses ≠ some ec)
    (hhere : p.Here m.toShared w) :
    Machine.Follows { m with pc := Function.update m.pc t p } w' := by
  subst hw'
  refine h.outside hp hp' rfl ⟨rfl, rfl, rfl⟩ rfl rfl rfl h.heap rfl rfl rfl usedSelf
    (hhere.of_not_critical hp' (fun _ _ hec => hec) fun _ => ⟨⟨rfl, rfl, rfl⟩, rfl, rfl⟩)
    (fun _ e he => ⟨e, he, rfl⟩) (fun _ _ _ => ⟨⟨rfl, rfl, rfl⟩, rfl, rfl⟩) ?_
  intro _ hother
  have hcycles := h.sharesCycles hcount hother
  exact ⟨hcycles.last, hcycles.worst, hcycles.average⟩

theorem keepsTask {p : Pc A} (hp : (m.pc t).critical = false)
    (hcount : (m.pc t).counting = false) (hp' : p.critical = false)
    (htask : p.task = (m.pc t).task)
    (usedSelf : ∀ ec, p.uses = some ec → ec ∈ m.handles ∧ ∀ t', t' ≠ t →
      (m.pc t').uses ≠ some ec)
    (hhere : p.Here m.toShared w) :
    Machine.Follows { m with pc := Function.update m.pc t p } w := by
  refine h.onlyTask hp hcount hp' ?_ usedSelf hhere
  rw [Wrap.setTask, ← h.tasks_update htask]

omit [DecidableEq T] in
/-- While it waits for nothing and uses `ec`, a thread sees the `mon_ec` of the
atomic wrapper as far as `ec` is concerned, whoever holds the lock. -/
theorem monEc_iff (hinv : WrapInv w) {ec : A} (hp : (m.pc t).critical = false)
    (huses : (m.pc t).uses = some ec) : m.monEc = some ec ↔ w.monEc = some ec := by
  cases hlock : m.oslecLock with
  | none => rw [(h.unlocked hlock).monEc]
  | some t' =>
      have hcrit := (h.held t').mp hlock
      have hne : t' ≠ t := by
        rintro rfl
        rw [hp] at hcrit
        cases hcrit
      have hhere := h.here t'
      have htask := h.tasks t'
      have hfresh : ∀ ec' len, (m.pc t').task = .creating ec' len → ec' ≠ ec := by
        rintro ec' len htask' rfl
        refine (hinv.pending t' ec' len ?_).1 ?_
        · rw [htask, htask']
          rfl
        · rw [h.handles]
          exact h.used t ec' huses
      have hfreed : ∀ ec', (m.pc t').uses = some ec' → ec' ≠ ec := by
        rintro ec' huses' rfl
        exact hne (h.usedOnce t' t ec' huses' huses)
      generalize m.pc t' = p at hcrit hhere hfresh hfreed
      cases p with
      | createLen ec' len =>
          have hother := hfresh ec' len rfl
          rw [hhere.2.monEc, hhere.1]
          exact ⟨fun heq => absurd (Option.some.inj heq) hother, fun heq => (by cases heq)⟩
      | createUnlock ec' len =>
          have hother := hfresh ec' len rfl
          rw [Pc.Here.eq_def] at hhere
          rw [hhere.monEc]
          split
          · rename_i hnone
            rw [hnone]
            exact ⟨fun heq => absurd (Option.some.inj heq) hother, fun heq => (by cases heq)⟩
          · exact Iff.rfl
      | freeCanceller ec' =>
          have hother := hfreed ec' rfl
          rw [Pc.Here.eq_def] at hhere
          rw [hhere.monEc]
          split
          · rename_i hsome
            rw [hsome]
            exact ⟨fun heq => (by cases heq), fun heq => absurd (Option.some.inj heq) hother⟩
          · exact Iff.rfl
      | createMon ec' len => rw [hhere.2.monEc]
      | freeMon ec' => rw [hhere.2.monEc]
      | procUse call => rw [hhere.2.2.monEc]
      | procInfo pieces modeStr => rw [hhere.1.monEc]
      | createCount ec' len | createTest ec' len | freeTest ec' | freeCount | freeUnlock
      | procTest call | procUnlock text =>
          rw [Pc.Here.eq_def] at hhere
          rw [hhere.monEc]
      | _ => cases hcrit

/-! ### The statements at which the atomic wrapper takes its steps -/

omit [DecidableEq T] in
theorem quiet {ec : A} (hidle : (m.pc t).task.flight = none)
    (huses : ∀ t', t' ≠ t → (m.pc t').uses ≠ some ec) : w.Quiet ec := by
  intro t' first hflight
  rw [h.tasks t'] at hflight
  rcases eq_or_ne t' t with rfl | hne
  · rw [hidle] at hflight
    cases hflight
  · apply huses t' hne
    generalize m.pc t' = p at hflight
    cases p <;> first | (cases hflight; rfl) | cases hflight

theorem createUnlock {ec : A} {len : ℕ} (hpc : m.pc t = .createUnlock ec len) :
    ∃ w', (w' = w ∨ ∃ a, WrapStep w a w') ∧
      Machine.Follows
        { m.toShared.unlock with
          handles := insert ec m.handles
          pc := Function.update m.pc t .idle } w' := by
  have htask : w.tasks t = .creating ec len := by rw [h.tasks t, hpc]; rfl
  have hhere : m.SharesGlobals (if w.monEc = none then some ec else w.monEc) (w.numEc + 1)
      (if w.monEc = none then len else w.lenEc) := by
    have hhere := h.here t
    rw [hpc] at hhere
    exact hhere
  have hcrit : (m.pc t).critical = true := by rw [hpc]; rfl
  have hlock : m.oslecLock = some t := (h.held t).mpr hcrit
  refine ⟨w.register t ec len, Or.inr ⟨_, WrapStep.register htask⟩, ?_⟩
  refine h.advance (s := { m.toShared.unlock with handles := insert ec m.handles })
    ⟨fun heq => (by cases heq), fun heq => (by cases heq)⟩ ?_ rfl ?_ h.heap
    (fun ec' hec => by cases hec) (fun t' _ ec' hec => Finset.mem_insert_of_mem (h.used t' ec' hec))
    (fun _ => ⟨hhere.monEc, hhere.numEc, hhere.lenEc⟩) trivial ?_ ?_
  · intro t' hne
    rw [hlock]
    exact ⟨fun heq => (by cases heq), fun heq => absurd (Option.some.inj heq).symm hne⟩
  · show insert ec w.handles = insert ec m.handles
    rw [h.handles]
  · intro t' hne
    refine (h.here t').of_not_critical (h.not_critical hcrit hne) (fun ec' _ hec => ?_)
      fun _ => ⟨⟨rfl, rfl, rfl⟩, rfl, rfl⟩
    show (if w.monEc = none then some ec else w.monEc) = some ec'
    rw [hec]
    exact if_neg (by simp)
  · intro _ hother
    have hcycles := h.sharesCycles (Pc.counting_of_critical hcrit) hother
    exact ⟨hcycles.last, hcycles.worst, hcycles.average⟩

theorem freeCanceller {ec : A} (hpc : m.pc t = .freeCanceller ec) :
    ∃ w', (w' = w ∨ ∃ a, WrapStep w a w') ∧
      Machine.Follows
        { m.toShared.setHeap ec none with
          handles := m.handles.erase ec
          pc := Function.update m.pc t .freeCount } w' := by
  have huses : (m.pc t).uses = some ec := by rw [hpc]; rfl
  have hothers : ∀ t', t' ≠ t → (m.pc t').uses ≠ some ec :=
    fun t' hne hec => hne (h.usedOnce t' t ec hec huses)
  have hheld : ec ∈ w.handles := by
    rw [h.handles]
    exact h.used t ec huses
  have hquiet : w.Quiet ec := h.quiet (by rw [hpc]; rfl) hothers
  have hhere : m.SharesGlobals (if w.monEc = some ec then none else w.monEc) w.numEc w.lenEc := by
    have hhere := h.here t
    rw [hpc] at hhere
    exact hhere
  have hcrit : (m.pc t).critical = true := by rw [hpc]; rfl
  have hlock : m.oslecLock = some t := (h.held t).mpr hcrit
  refine ⟨w.free ec, Or.inr ⟨_, WrapStep.free hheld hquiet⟩, ?_⟩
  refine h.advance (s := { m.toShared.setHeap ec none with handles := m.handles.erase ec })
    ⟨fun _ => rfl, fun _ => hlock⟩ (fun _ _ => Iff.rfl) ?_ ?_ ?_ (fun ec' hec => by cases hec) ?_ ?_
    ?_ ?_ ?_
  · exact h.tasks_update (by rw [hpc]; rfl)
  · show w.handles.erase ec = m.handles.erase ec
    rw [h.handles]
  · show Function.update m.heap ec none = Function.update w.heap ec none
    rw [h.heap]
  · intro t' hne ec' hec
    refine Finset.mem_erase.mpr ⟨?_, h.used t' ec' hec⟩
    rintro rfl
    exact hothers t' hne hec
  · intro hnone
    rw [show m.oslecLock = none from hnone] at hlock
    cases hlock
  · exact ⟨hhere.monEc, by
      show m.numEc = w.numEc - 1 + 1
      rw [hhere.numEc]
      ring, hhere.lenEc⟩
  · intro t' hne
    refine (h.here t').of_not_critical (h.not_critical hcrit hne) (fun ec' hec hmon => ?_)
      fun _ => ⟨⟨rfl, rfl, rfl⟩, rfl, rfl⟩
    show (if w.monEc = some ec then none else w.monEc) = some ec'
    rw [if_neg, hmon]
    rw [hmon]
    rintro heq
    obtain rfl := Option.some.inj heq
    exact hothers t' hne hec
  · intro _ hother
    have hcycles := h.sharesCycles (Pc.counting_of_critical hcrit) hother
    exact ⟨hcycles.last, hcycles.worst, hcycles.average⟩

/-- The comparison and the reading of the cycle counter, at whichever of the two
statements the update begins. -/
theorem compare {ec : A} {tx rx : Int16} (huses : (m.pc t).uses = some ec)
    (hp : (m.pc t).critical = false) (hcount : (m.pc t).counting = false)
    (htask : (m.pc t).task = .idle) (cycles : ℤ) {first : Bool} {startCycles : ℤ}
    (hfirst : first = decide (w.monEc = some ec))
    (hstart : startCycles = if w.monEc = some ec then cycles % 2 ^ 32 else 0) :
    ∃ w', (w' = w ∨ ∃ a, WrapStep w a w') ∧
      Machine.Follows
        { m with pc := Function.update m.pc t (.updateRun ec tx rx first startCycles) } w' := by
  have hothers : ∀ t', t' ≠ t → (m.pc t').uses ≠ some ec :=
    fun t' hne hec => hne (h.usedOnce t' t ec hec huses)
  have hheld : ec ∈ w.handles := by
    rw [h.handles]
    exact h.used t ec huses
  have hquiet : w.Quiet ec := h.quiet (by rw [htask]; rfl) hothers
  refine ⟨w.compare t ec tx rx cycles,
    Or.inr ⟨_, WrapStep.compare (by rw [h.tasks t, htask]) hheld hquiet⟩, ?_⟩
  refine h.onlyTask hp hcount rfl ?_ ?_ trivial
  · rw [Wrap.compare, hfirst, hstart]
    rfl
  · rintro ec' hec
    obtain rfl := Option.some.inj hec
    exact ⟨h.used t ec huses, hothers⟩

theorem updateRun {ec : A} {tx rx : Int16} {first : Bool} {startCycles : ℤ} {s : Shared T A}
    (hpc : m.pc t = .updateRun ec tx rx first startCycles)
    (hmodify : m.toShared.modify ec (fun e => (echoCanUpdate e tx rx).1) = some s) :
    ∃ w', (w' = w ∨ ∃ a, WrapStep w a w') ∧
      Machine.Follows
        { s with pc := Function.update m.pc t (.updateTestAgain ec first startCycles) } w' := by
  obtain ⟨e, he, rfl⟩ := Option.map_eq_some_iff.mp hmodify
  have hmodify' : w.modify ec (fun e => (echoCanUpdate e tx rx).1) =
      some (w.setHeap ec (some (echoCanUpdate e tx rx).1)) := by
    rw [Wrap.modify, ← h.heap, he]
    rfl
  have htask : w.tasks t = .updating ec tx rx first startCycles := by rw [h.tasks t, hpc]; rfl
  refine ⟨_, Or.inr ⟨_, WrapStep.update htask hmodify'⟩, ?_⟩
  refine h.outside (by rw [hpc]; rfl) rfl rfl ⟨rfl, rfl, rfl⟩ rfl rfl rfl ?_ rfl rfl rfl
    (h.usedSelf (by rw [hpc]; exact fun _ hec => hec)) trivial ?_
    (fun _ _ _ => ⟨⟨rfl, rfl, rfl⟩, rfl, rfl⟩) ?_
  · show Function.update m.heap ec _ = Function.update w.heap ec _
    rw [h.heap]
  · intro ec' e' he'
    show ∃ e'', (w.setHeap ec _).heap ec' = some e'' ∧ _
    rw [Wrap.heap_setHeap]
    split
    · rename_i heq
      rw [heq, ← h.heap, he] at he'
      obtain rfl := Option.some.inj he'
      exact ⟨_, rfl, (echoCanUpdate_spec e tx rx).adaptionMode⟩
    · exact ⟨e', he', rfl⟩
  · intro _ hother
    have hcycles := h.sharesCycles (by rw [hpc]; rfl) hother
    exact ⟨hcycles.last, hcycles.worst, hcycles.average⟩

theorem finishOther {ec : A} {first : Bool} {startCycles : ℤ}
    (hpc : m.pc t = .updateTestAgain ec first startCycles) (hmon : w.monEc ≠ some ec) :
    ∃ w', (w' = w ∨ ∃ a, WrapStep w a w') ∧
      Machine.Follows { m with pc := Function.update m.pc t .idle } w' := by
  have htask : w.tasks t = .updated ec first startCycles := by rw [h.tasks t, hpc]; rfl
  refine ⟨w.finish t ec startCycles 0, Or.inr ⟨_, WrapStep.finish htask⟩, ?_⟩
  refine h.onlyTask (by rw [hpc]; rfl) (by rw [hpc]; rfl) rfl ?_ (fun ec' hec => by cases hec)
    trivial
  rw [Wrap.finish, if_neg hmon]
  rfl

theorem updateLast {ec : A} {first : Bool} {startCycles : ℤ} (cycles : ℤ)
    (hpc : m.pc t = .updateLast ec first startCycles) :
    Machine.Follows
      { m with
        cyclesLast := i32 (cycles - startCycles)
        pc := Function.update m.pc t (.updateAverage ec first startCycles) } w := by
  have huses : (m.pc t).uses = some ec := by rw [hpc]; rfl
  have hmon : w.monEc = some ec := by
    have hhere := h.here t
    rw [hpc] at hhere
    exact hhere
  have hother : ∀ t', t' ≠ t → (m.pc t').counting = false :=
    fun t' hne => h.not_counting huses hmon hne
  have hcycles := h.sharesCycles (by rw [hpc]; rfl) hother
  refine h.outside (s := { m.toShared with cyclesLast := i32 (cycles - startCycles) })
    (by rw [hpc]; rfl) rfl rfl ⟨rfl, rfl, rfl⟩ (h.tasks_update (by rw [hpc]; rfl)) rfl rfl h.heap
    rfl rfl rfl (h.usedSelf (by rw [hpc]; exact fun _ hec => hec))
    ⟨hmon, hcycles.worst, hcycles.average, cycles, rfl⟩ (fun _ e he => ⟨e, he, rfl⟩) ?_
    (fun hcount _ => by cases hcount)
  intro t' hne hcount
  rw [hother t' hne] at hcount
  cases hcount

theorem updateAverage {ec : A} {first : Bool} {startCycles : ℤ}
    (hpc : m.pc t = .updateAverage ec first startCycles) :
    Machine.Follows
      { m with
        cyclesAverage := i32 (m.cyclesAverage + i32 (m.cyclesLast - m.cyclesAverage) >>> ltc)
        pc := Function.update m.pc t (.updateWorst ec first startCycles) } w := by
  have huses : (m.pc t).uses = some ec := by rw [hpc]; rfl
  have hhere := h.here t
  rw [hpc] at hhere
  obtain ⟨hmon, hworst, haverage, hlast⟩ := hhere
  have hother : ∀ t', t' ≠ t → (m.pc t').counting = false :=
    fun t' hne => h.not_counting huses hmon hne
  refine h.outside (s := { m.toShared with
      cyclesAverage := i32 (m.cyclesAverage + i32 (m.cyclesLast - m.cyclesAverage) >>> ltc) })
    (by rw [hpc]; rfl) rfl rfl ⟨rfl, rfl, rfl⟩ (h.tasks_update (by rw [hpc]; rfl)) rfl rfl h.heap
    rfl rfl rfl (h.usedSelf (by rw [hpc]; exact fun _ hec => hec))
    ⟨hmon, hworst, ?_, hlast⟩ (fun _ e he => ⟨e, he, rfl⟩) ?_ (fun hcount _ => by cases hcount)
  · show i32 (m.cyclesAverage + _) = _
    rw [haverage]
  · intro t' hne hcount
    rw [hother t' hne] at hcount
    cases hcount

/-- With the last of the three writes the cycle counts are those of the atomic
wrapper after the whole update. -/
theorem updateWorst {ec : A} {first : Bool} {startCycles : ℤ}
    (hpc : m.pc t = .updateWorst ec first startCycles) :
    ∃ w', (w' = w ∨ ∃ a, WrapStep w a w') ∧
      Machine.Follows
        { m with
          cyclesWorst := if m.cyclesLast > m.cyclesWorst then m.cyclesLast else m.cyclesWorst
          pc := Function.update m.pc t .idle } w' := by
  have huses : (m.pc t).uses = some ec := by rw [hpc]; rfl
  have htask : w.tasks t = .updated ec first startCycles := by rw [h.tasks t, hpc]; rfl
  have hhere := h.here t
  rw [hpc] at hhere
  obtain ⟨hmon, hworst, haverage, cycles, hlast⟩ := hhere
  have hother : ∀ t', t' ≠ t → (m.pc t').counting = false :=
    fun t' hne => h.not_counting huses hmon hne
  refine ⟨w.finish t ec startCycles cycles, Or.inr ⟨_, WrapStep.finish htask⟩, ?_⟩
  rw [Wrap.finish, if_pos hmon]
  dsimp only
  rw [← hlast, ← hworst]
  refine h.outside (s := { m.toShared with
      cyclesWorst := if m.cyclesLast > m.cyclesWorst then m.cyclesLast else m.cyclesWorst })
    (by rw [hpc]; rfl) rfl rfl ⟨rfl, rfl, rfl⟩ rfl rfl rfl h.heap rfl rfl rfl
    (fun ec' hec => by cases hec) trivial (fun _ e he => ⟨e, he, rfl⟩) ?_
    (fun _ _ => ⟨rfl, rfl, haverage⟩)
  intro t' hne hcount
  rw [hother t' hne] at hcount
  cases hcount

theorem procWrite {call : ProcCall} {f : EchoCan → EchoCan} {s : Shared T A}
    (hpc : m.pc t = .procUse call) (hwrite : ∀ w', w.procWrite f = some w' → ∃ a, WrapStep w a w')
    (hmodify : (m.monEc.bind fun ec => m.toShared.modify ec f) = some s) :
    ∃ w', (w' = w ∨ ∃ a, WrapStep w a w') ∧
      Machine.Follows { s with pc := Function.update m.pc t (.procUnlock none) } w' := by
  obtain ⟨ec, hmon, hmodify⟩ := Option.bind_eq_some_iff.mp hmodify
  obtain ⟨e, he, rfl⟩ := Option.map_eq_some_iff.mp hmodify
  have hhere := h.here t
  rw [hpc] at hhere
  obtain ⟨-, -, hshares⟩ := hhere
  have hcrit : (m.pc t).critical = true := by rw [hpc]; rfl
  have hlock : m.oslecLock = some t := (h.held t).mpr hcrit
  have hwritten : w.procWrite f = some (w.setHeap ec (some (f e))) := by
    rw [Wrap.procWrite, ← hshares.monEc, hmon]
    show w.modify ec f = _
    rw [Wrap.modify, ← h.heap, he]
    rfl
  refine ⟨_, Or.inr (hwrite _ hwritten), ?_⟩
  refine h.advance ⟨fun _ => rfl, fun _ => hlock⟩ (fun _ _ => Iff.rfl)
    (h.tasks_update (by rw [hpc]; rfl)) h.handles ?_ (fun ec' hec => by cases hec)
    (fun t' _ => h.used t') ?_ ⟨hshares.monEc, hshares.numEc, hshares.lenEc⟩ ?_ ?_
  · show Function.update m.heap ec _ = Function.update w.heap ec _
    rw [h.heap]
  · intro hnone
    rw [show m.oslecLock = none from hnone] at hlock
    cases hlock
  · intro t' hne
    exact (h.here t').of_not_critical (h.not_critical hcrit hne) (fun _ _ hec => hec)
      fun _ => ⟨⟨rfl, rfl, rfl⟩, rfl, rfl⟩
  · intro _ hother
    have hcycles := h.sharesCycles (Pc.counting_of_critical hcrit) hother
    exact ⟨hcycles.last, hcycles.worst, hcycles.average⟩

/-! ### One step -/

theorem exec (hinv : WrapInv w) {cycles : ℤ} {s : Shared T A} {p : Pc A}
    (hexec : m.toShared.exec t cycles (m.pc t) = some (s, p)) :
    ∃ w', (w' = w ∨ ∃ a, WrapStep w a w') ∧
      Machine.Follows { s with pc := Function.update m.pc t p } w' := by
  have hhere := h.here t
  cases hpc : m.pc t with
  | idle =>
      rw [hpc] at hexec
      cases hexec
  | createLock ec len =>
      rw [hpc] at hexec
      refine ⟨w, Or.inl rfl, h.acquire (p := .createCount ec len) rfl ?_ ?_ ?_
        (fun hg => ⟨hg.monEc, hg.numEc, hg.lenEc⟩) hexec⟩
      · rw [hpc]; rfl
      · rw [hpc]; rfl
      · exact fun _ hec => by cases hec
  | createCount ec len =>
      rw [hpc] at hexec hhere
      obtain ⟨rfl, rfl⟩ := Prod.mk.inj (Option.some.inj hexec)
      refine ⟨w, Or.inl rfl, h.inSection ?_ rfl ?_ (fun _ hec => by cases hec)
        ⟨hhere.monEc, congrArg (· + 1) hhere.numEc, hhere.lenEc⟩⟩
      · rw [hpc]; rfl
      · rw [hpc]; rfl
  | createTest ec len =>
      rw [hpc] at hexec hhere
      rw [Pc.Here.eq_def] at hhere
      obtain ⟨rfl, rfl⟩ := Prod.mk.inj (Option.some.inj hexec)
      have hmon := hhere.monEc
      refine ⟨w, Or.inl rfl, h.inSection ?_ ?_ ?_ ?_ ?_⟩
      · rw [hpc]; rfl
      · split <;> rfl
      · rw [hpc]
        split <;> rfl
      · intro ec' hec
        split at hec <;> cases hec
      · split
        · rename_i hnone
          exact ⟨hmon ▸ hnone, hhere⟩
        · rename_i hsome
          rw [hmon] at hsome
          show Shared.SharesGlobals _ _ _ _
          rw [if_neg hsome, if_neg hsome]
          exact hhere
  | createMon ec len =>
      rw [hpc] at hexec hhere
      obtain ⟨rfl, rfl⟩ := Prod.mk.inj (Option.some.inj hexec)
      refine ⟨w, Or.inl rfl, h.inSection ?_ rfl ?_ (fun _ hec => by cases hec)
        ⟨hhere.1, rfl, hhere.2.numEc, hhere.2.lenEc⟩⟩
      · rw [hpc]; rfl
      · rw [hpc]; rfl
  | createLen ec len =>
      rw [hpc] at hexec hhere
      obtain ⟨rfl, rfl⟩ := Prod.mk.inj (Option.some.inj hexec)
      refine ⟨w, Or.inl rfl, h.inSection ?_ rfl ?_ (fun _ hec => by cases hec) ?_⟩
      · rw [hpc]; rfl
      · rw [hpc]; rfl
      · show Shared.SharesGlobals _ _ _ _
        rw [if_pos hhere.1, if_pos hhere.1]
        exact ⟨hhere.2.monEc, hhere.2.numEc, rfl⟩
  | createUnlock ec len =>
      rw [hpc] at hexec
      obtain ⟨rfl, rfl⟩ := Prod.mk.inj (Option.some.inj hexec)
      exact h.createUnlock hpc
  | freeLock ec =>
      rw [hpc] at hexec
      refine ⟨w, Or.inl rfl, h.acquire (p := .freeTest ec) rfl ?_ ?_ ?_
        (fun hg => ⟨hg.monEc, hg.numEc, hg.lenEc⟩) hexec⟩
      · rw [hpc]; rfl
      · rw [hpc]; rfl
      · rw [hpc]
        exact fun _ hec => hec
  | freeTest ec =>
      rw [hpc] at hexec hhere
      rw [Pc.Here.eq_def] at hhere
      obtain ⟨rfl, rfl⟩ := Prod.mk.inj (Option.some.inj hexec)
      have hmon := hhere.monEc
      refine ⟨w, Or.inl rfl, h.inSection ?_ ?_ ?_ ?_ ?_⟩
      · rw [hpc]; rfl
      · split <;> rfl
      · rw [hpc]
        split <;> rfl
      · rw [hpc]
        intro ec' hec
        split at hec <;> exact hec
      · split
        · rename_i hsome
          exact ⟨hmon ▸ hsome, hhere⟩
        · rename_i hother
          rw [hmon] at hother
          show Shared.SharesGlobals _ _ _ _
          rw [if_neg hother]
          exact hhere
  | freeMon ec =>
      rw [hpc] at hexec hhere
      obtain ⟨rfl, rfl⟩ := Prod.mk.inj (Option.some.inj hexec)
      refine ⟨w, Or.inl rfl, h.inSection ?_ rfl ?_ ?_ ?_⟩
      · rw [hpc]; rfl
      · rw [hpc]; rfl
      · rw [hpc]
        exact fun _ hec => hec
      · show Shared.SharesGlobals _ _ _ _
        rw [if_pos hhere.1]
        exact ⟨rfl, hhere.2.numEc, hhere.2.lenEc⟩
  | freeCanceller ec =>
      rw [hpc] at hexec
      obtain ⟨e, -, hexec⟩ := Option.map_eq_some_iff.mp hexec
      obtain ⟨rfl, rfl⟩ := Prod.mk.inj hexec
      exact h.freeCanceller hpc
  | freeCount =>
      rw [hpc] at hexec hhere
      obtain ⟨rfl, rfl⟩ := Prod.mk.inj (Option.some.inj hexec)
      refine ⟨w, Or.inl rfl, h.inSection ?_ rfl ?_ (fun _ hec => by cases hec)
        ⟨hhere.monEc, ?_, hhere.lenEc⟩⟩
      · rw [hpc]; rfl
      · rw [hpc]; rfl
      · show m.numEc - 1 = w.numEc
        rw [hhere.numEc]
        ring
  | freeUnlock =>
      rw [hpc] at hexec hhere
      obtain ⟨rfl, rfl⟩ := Prod.mk.inj (Option.some.inj hexec)
      refine ⟨w, Or.inl rfl, h.release ?_ ?_ hhere⟩
      · rw [hpc]; rfl
      · rw [hpc]; rfl
  | updateTest ec tx rx =>
      rw [hpc] at hexec
      obtain ⟨rfl, rfl⟩ := Prod.mk.inj (Option.some.inj hexec)
      have huses : (m.pc t).uses = some ec := by rw [hpc]; rfl
      have hcrit : (m.pc t).critical = false := by rw [hpc]; rfl
      have hmon := h.monEc_iff hinv hcrit huses
      split
      · rename_i hsome
        refine ⟨w, Or.inl rfl, h.keepsTask hcrit ?_ rfl ?_ ?_ (hmon.mp hsome)⟩
        · rw [hpc]; rfl
        · rw [hpc]; rfl
        · exact h.usedSelf (by rw [hpc]; exact fun _ hec => hec)
      · rename_i hother
        rw [hmon] at hother
        refine h.compare huses hcrit ?_ ?_ 0 ?_ ?_
        · rw [hpc]; rfl
        · rw [hpc]; rfl
        · exact (decide_eq_false hother).symm
        · rw [if_neg hother]
  | updateStart ec tx rx =>
      rw [hpc] at hexec hhere
      obtain ⟨rfl, rfl⟩ := Prod.mk.inj (Option.some.inj hexec)
      have hmon : w.monEc = some ec := hhere
      have huses : (m.pc t).uses = some ec := by rw [hpc]; rfl
      refine h.compare huses ?_ ?_ ?_ cycles ?_ ?_
      · rw [hpc]; rfl
      · rw [hpc]; rfl
      · rw [hpc]; rfl
      · exact (decide_eq_true hmon).symm
      · rw [if_pos hmon]
  | updateRun ec tx rx first startCycles =>
      rw [hpc] at hexec
      obtain ⟨s', hmodify, hexec⟩ := Option.map_eq_some_iff.mp hexec
      obtain ⟨rfl, rfl⟩ := Prod.mk.inj hexec
      exact h.updateRun hpc hmodify
  | updateTestAgain ec first startCycles =>
      rw [hpc] at hexec
      obtain ⟨rfl, rfl⟩ := Prod.mk.inj (Option.some.inj hexec)
      have huses : (m.pc t).uses = some ec := by rw [hpc]; rfl
      have hcrit : (m.pc t).critical = false := by rw [hpc]; rfl
      have hmon := h.monEc_iff hinv hcrit huses
      split
      · rename_i hsome
        refine ⟨w, Or.inl rfl, h.keepsTask hcrit ?_ rfl ?_ ?_ (hmon.mp hsome)⟩
        · rw [hpc]; rfl
        · rw [hpc]; rfl
        · exact h.usedSelf (by rw [hpc]; exact fun _ hec => hec)
      · rename_i hother
        rw [hmon] at hother
        exact h.finishOther hpc hother
  | updateLast ec first startCycles =>
      rw [hpc] at hexec
      obtain ⟨rfl, rfl⟩ := Prod.mk.inj (Option.some.inj hexec)
      exact ⟨w, Or.inl rfl, h.updateLast cycles hpc⟩
  | updateAverage ec first startCycles =>
      rw [hpc] at hexec
      obtain ⟨rfl, rfl⟩ := Prod.mk.inj (Option.some.inj hexec)
      exact ⟨w, Or.inl rfl, h.updateAverage hpc⟩
  | updateWorst ec first startCycles =>
      rw [hpc] at hexec
      obtain ⟨rfl, rfl⟩ := Prod.mk.inj (Option.some.inj hexec)
      exact h.updateWorst hpc
  | procLock call =>
      rw [hpc] at hexec
      refine ⟨w, Or.inl rfl, h.acquire (p := .procTest call) rfl ?_ ?_ ?_
        (fun hg => ⟨hg.monEc, hg.numEc, hg.lenEc⟩) hexec⟩
      · rw [hpc]; rfl
      · rw [hpc]; rfl
      · exact fun _ hec => by cases hec
  | procTest call =>
      rw [hpc] at hexec hhere
      rw [Pc.Here.eq_def] at hhere
      obtain ⟨rfl, rfl⟩ := Prod.mk.inj (Option.some.inj hexec)
      have hmon := hhere.monEc
      refine ⟨w, Or.inl rfl, h.inSection ?_ ?_ ?_ ?_ ?_⟩
      · rw [hpc]; rfl
      · split
        · rfl
        · cases call <;> rfl
      · rw [hpc]
        split
        · rfl
        · cases call <;> rfl
      · intro ec hec
        split at hec
        · cases hec
        · cases call <;> cases hec
      · split
        · exact hhere
        · rename_i hsome
          rw [hmon] at hsome
          obtain ⟨ec, hec⟩ := Option.ne_none_iff_exists'.mp hsome
          obtain ⟨-, e, he, -⟩ := hinv.monitored ec hec
          cases call with
          | info => exact ⟨hhere, Nat.zero_le 5, ec, e, hec, he, rfl⟩
          | readMode => exact ⟨nofun, hsome, hhere⟩
          | writeMode mode => exact ⟨nofun, hsome, hhere⟩
          | reset => exact ⟨nofun, hsome, hhere⟩
  | procUse call =>
      rw [hpc] at hexec hhere
      cases call with
      | info => exact absurd rfl hhere.1
      | readMode =>
          obtain ⟨e, -, hexec⟩ := Option.map_eq_some_iff.mp hexec
          obtain ⟨rfl, rfl⟩ := Prod.mk.inj hexec
          refine ⟨w, Or.inl rfl, h.inSection ?_ rfl ?_ (fun _ hec => by cases hec) hhere.2.2⟩
          · rw [hpc]; rfl
          · rw [hpc]; rfl
      | writeMode mode =>
          obtain ⟨s', hmodify, hexec⟩ := Option.map_eq_some_iff.mp hexec
          obtain ⟨rfl, rfl⟩ := Prod.mk.inj hexec
          refine h.procWrite hpc (fun w' hwrite => ?_) hmodify
          have hmode : w.procWriteMode mode = some w' := hwrite
          exact ⟨_, WrapStep.procWriteMode hmode⟩
      | reset =>
          obtain ⟨s', hmodify, hexec⟩ := Option.map_eq_some_iff.mp hexec
          obtain ⟨rfl, rfl⟩ := Prod.mk.inj hexec
          exact h.procWrite hpc (fun _ hwrite => ⟨_, WrapStep.procWriteReset hwrite⟩) hmodify
  | procInfo pieces modeStr =>
      rw [hpc] at hexec hhere
      obtain ⟨e, hread, hexec⟩ := Option.map_eq_some_iff.mp hexec
      obtain ⟨rfl, rfl⟩ := Prod.mk.inj hexec
      obtain ⟨hshares, hle, ec, e', hec, he, rfl⟩ := hhere
      -- nothing has changed the mode since the first piece was written
      have hsame : e' = e := by
        rw [Shared.monitored, hshares.monEc, hec, h.heap] at hread
        exact Option.some.inj (he.symm.trans hread)
      subst hsame
      refine ⟨w, Or.inl rfl, h.inSection ?_ ?_ ?_ ?_ ?_⟩
      · rw [hpc]; rfl
      · split <;> rfl
      · rw [hpc]
        split <;> rfl
      · intro ec' hec'
        split at hec' <;> cases hec'
      · split
        · exact ⟨hshares, by omega, ec, e', hec, he, rfl⟩
        · exact hshares
  | procUnlock text =>
      rw [hpc] at hexec hhere
      obtain ⟨rfl, rfl⟩ := Prod.mk.inj (Option.some.inj hexec)
      refine ⟨w, Or.inl rfl, h.release ?_ ?_ hhere⟩
      · rw [hpc]; rfl
      · rw [hpc]; rfl

theorem step (hinv : WrapInv w) {m' : Machine T A} (hstep : MachineStep m t m') :
    ∃ w', (w' = w ∨ ∃ a, WrapStep w a w') ∧ m'.Follows w' := by
  cases hstep with
  | @create ec len hidle hnew =>
      have htask : w.tasks t = .idle := by rw [h.tasks t, hidle]; rfl
      have hnew' : w.heap ec = none := by rw [← h.heap, hnew]
      refine ⟨w.allocate t ec len, Or.inr ⟨_, WrapStep.allocate htask hnew'⟩, ?_⟩
      refine h.outside (by rw [hidle]; rfl) rfl rfl ⟨rfl, rfl, rfl⟩ rfl rfl rfl ?_ rfl rfl rfl
        (fun ec' hec => by cases hec) trivial ?_ (fun _ _ _ => ⟨⟨rfl, rfl, rfl⟩, rfl, rfl⟩) ?_
      · show Function.update m.heap ec _ = Function.update w.heap ec _
        rw [h.heap]
      · intro ec' e' he'
        refine ⟨e', ?_, rfl⟩
        show (w.setHeap ec _).heap ec' = some e'
        rw [Wrap.heap_setHeap, if_neg, he']
        rintro rfl
        rw [hnew'] at he'
        cases he'
      · intro _ hother
        have hcycles := h.sharesCycles (by rw [hidle]; rfl) hother
        exact ⟨hcycles.last, hcycles.worst, hcycles.average⟩
  | @free ec hidle hheld hunused =>
      refine ⟨w, Or.inl rfl, h.keepsTask ?_ ?_ rfl ?_ ?_ trivial⟩
      · rw [hidle]; rfl
      · rw [hidle]; rfl
      · rw [hidle]; rfl
      · rintro ec' hec
        obtain rfl := Option.some.inj hec
        exact ⟨hheld, fun t' _ => hunused t'⟩
  | @update ec tx rx hidle hheld hunused =>
      refine ⟨w, Or.inl rfl, h.keepsTask ?_ ?_ rfl ?_ ?_ trivial⟩
      · rw [hidle]; rfl
      · rw [hidle]; rfl
      · rw [hidle]; rfl
      · rintro ec' hec
        obtain rfl := Option.some.inj hec
        exact ⟨hheld, fun t' _ => hunused t'⟩
  | @hpfTx ec tx s hidle hheld hmodify =>
      obtain ⟨e, he, rfl⟩ := Option.map_eq_some_iff.mp hmodify
      have hmodify' : w.modify ec (fun e => (echoCanHpfTx e tx).1) =
          some (w.setHeap ec (some (echoCanHpfTx e tx).1)) := by
        rw [Wrap.modify, ← h.heap, he]
        rfl
      refine ⟨_, Or.inr ⟨_, WrapStep.hpfTx (by rw [h.handles]; exact hheld) hmodify'⟩, ?_⟩
      have hsame : m.pc = Function.update m.pc t (m.pc t) := (Function.update_eq_self _ _).symm
      rw [hsame]
      refine h.outside (by rw [hidle]; rfl) (by rw [hidle]; rfl) rfl ⟨rfl, rfl, rfl⟩
        (h.tasks_update rfl) rfl rfl ?_ rfl rfl rfl (h.usedSelf fun _ hec => hec)
        (by rw [hidle]; trivial) ?_ (fun _ _ _ => ⟨⟨rfl, rfl, rfl⟩, rfl, rfl⟩) ?_
      · show Function.update m.heap ec _ = Function.update w.heap ec _
        rw [h.heap]
      · intro ec' e' he'
        show ∃ e'', (w.setHeap ec _).heap ec' = some e'' ∧ _
        rw [Wrap.heap_setHeap]
        split
        · rename_i heq
          rw [heq, ← h.heap, he] at he'
          obtain rfl := Option.some.inj he'
          exact ⟨_, rfl, by rw [echoCanHpfTx_eq]⟩
        · exact ⟨e', he', rfl⟩
      · intro _ hother
        have hcycles := h.sharesCycles (by rw [hidle]; rfl) hother
        exact ⟨hcycles.last, hcycles.worst, hcycles.average⟩
  | @proc call hidle =>
      refine ⟨w, Or.inl rfl, h.keepsTask ?_ ?_ rfl ?_ (fun ec' hec => by cases hec) trivial⟩
      · rw [hidle]; rfl
      · rw [hidle]; rfl
      · rw [hidle]; rfl
  | exec hexec => exact h.exec hinv hexec

end Machine.Follows

variable [DecidableEq T]

/-- Every statement is a step of the atomic wrapper, or none. -/
theorem machine_refines_wrap : (machineSystem T A).Refines (wrapSystem T A) Machine.Follows := by
  constructor
  · rintro m rfl
    refine ⟨Wrap.init, rfl, ?_⟩
    exact {
      held := fun t => ⟨fun heq => (by cases heq), fun heq => (by cases heq)⟩
      tasks := fun _ => rfl
      handles := rfl
      heap := rfl
      used := fun t ec hec => (by cases hec)
      usedOnce := fun t t' ec hec => (by cases hec)
      unlocked := fun _ => ⟨rfl, rfl, rfl⟩
      here := fun _ => trivial
      cycles := fun _ => ⟨rfl, rfl, rfl⟩
    }
  · intro m w t m' hw h hstep
    exact h.step (wrapInv_of_reachable hw) hstep

/-! ### What the lock sees to -/

theorem modeText_five (mode : BitVec 32) : modeText mode 5 = modeStr mode := by
  simp [modeText, modePiece, modeStr]

omit [DecidableEq T] in
theorem Machine.Follows.live {m : Machine T A} {w : Wrap T A} (h : m.Follows w)
    (hinv : WrapInv w) {ec : A} (hmon : m.monEc = some ec) : ∃ e, m.heap ec = some e := by
  have hshared : w.monEc = some ec → ∃ e, m.heap ec = some e := by
    intro hw
    obtain ⟨-, e, he, -⟩ := hinv.monitored ec hw
    exact ⟨e, by rw [h.heap, he]⟩
  cases hlock : m.oslecLock with
  | none => exact hshared ((h.unlocked hlock).monEc.symm.trans hmon)
  | some t =>
      have hcrit := (h.held t).mp hlock
      have hhere := h.here t
      have htask := h.tasks t
      generalize m.pc t = p at hcrit hhere htask
      have hpending : ∀ ec' len, p.task = .creating ec' len → ∃ e, m.heap ec' = some e := by
        intro ec' len hp
        obtain ⟨-, e, he, -⟩ := hinv.pending t ec' len (by rw [htask, hp]; rfl)
        exact ⟨e, by rw [h.heap, he]⟩
      cases p with
      | createLen ec' len =>
          rw [hhere.2.monEc] at hmon
          obtain rfl := Option.some.inj hmon
          exact hpending ec' len rfl
      | createUnlock ec' len =>
          rw [Pc.Here.eq_def] at hhere
          rw [hhere.monEc] at hmon
          split at hmon
          · obtain rfl := Option.some.inj hmon
            exact hpending ec' len rfl
          · exact hshared hmon
      | freeCanceller ec' =>
          rw [Pc.Here.eq_def] at hhere
          rw [hhere.monEc] at hmon
          split at hmon
          · cases hmon
          · exact hshared hmon
      | createMon ec' len => exact hshared (hhere.2.monEc.symm.trans hmon)
      | freeMon ec' => exact hshared (hhere.2.monEc.symm.trans hmon)
      | procUse call => exact hshared (hhere.2.2.monEc.symm.trans hmon)
      | procInfo pieces modeStr => exact hshared (hhere.1.monEc.symm.trans hmon)
      | createCount ec' len | createTest ec' len | freeTest ec' | freeCount | freeUnlock
      | procTest call | procUnlock text =>
          rw [Pc.Here.eq_def] at hhere
          exact hshared (hhere.monEc.symm.trans hmon)
      | _ => cases hcrit

omit [DecidableEq T] in
/-- A thread that has called into the module can go on, unless it waits for a
lock that is taken: no statement meets a canceller that is not live. -/
theorem Machine.Follows.goes_on {m : Machine T A} {w : Wrap T A} (h : m.Follows w)
    (hinv : WrapInv w) {t : T} (hidle : m.pc t ≠ .idle) (cycles : ℤ)
    (hlock : (m.pc t).waiting = true → m.oslecLock = none) :
    (m.toShared.exec t cycles (m.pc t)).isSome := by
  have hhere := h.here t
  have hused : ∀ ec, (m.pc t).uses = some ec → ∃ e, m.heap ec = some e := by
    intro ec hec
    obtain ⟨e, he⟩ := hinv.held ec (by rw [h.handles]; exact h.used t ec hec)
    exact ⟨e, by rw [h.heap, he]⟩
  have hmon : ∀ ec, m.monEc = some ec → ∃ e, m.heap ec = some e := fun ec => h.live hinv
  generalize m.pc t = p at hidle hlock hhere hused
  cases p with
  | idle => exact absurd rfl hidle
  | createLock ec len | freeLock ec | procLock call =>
      simp only [Shared.exec, Shared.lock]
      rw [if_pos (hlock rfl)]
      rfl
  | freeCanceller ec | updateRun ec tx rx first startCycles =>
      obtain ⟨e, he⟩ := hused ec rfl
      simp [Shared.exec, Shared.modify, he]
  | procUse call =>
      obtain ⟨hinfo, hsome, hshares⟩ := hhere
      rw [← hshares.monEc] at hsome
      obtain ⟨ec, hec⟩ := Option.ne_none_iff_exists'.mp hsome
      obtain ⟨e, he⟩ := hmon ec hec
      cases call with
      | info => exact absurd rfl hinfo
      | readMode => simp [Shared.exec, Shared.use, Shared.monitored, hec, he]
      | writeMode mode => simp [Shared.exec, Shared.use, Shared.modify, hec, he]
      | reset => simp [Shared.exec, Shared.use, Shared.modify, hec, he]
  | procInfo pieces modeStr =>
      obtain ⟨hshares, -, ec, e, hec, he, -⟩ := hhere
      have hec' : m.monEc = some ec := hshares.monEc.trans hec
      have he' : m.heap ec = some e := by rw [h.heap, he]
      simp [Shared.exec, Shared.monitored, hec', he']
  | _ => rfl

/-- What holds between any two statements of any threads. -/
structure MachineSafe (m : Machine T A) : Prop where
  exclusive : ∀ t t', (m.pc t).critical = true → (m.pc t').critical = true → t = t'
  /-- One thread at a time is writing the cycle counts, without a lock. -/
  oneWriter : ∀ t t', (m.pc t).counting = true → (m.pc t').counting = true → t = t'
  live : ∀ ec, m.monEc = some ec → ∃ e, m.heap ec = some e
  /-- No statement fails; only a lock that is taken holds a thread up. -/
  goesOn : ∀ t cycles, m.pc t ≠ .idle → ((m.pc t).waiting = true → m.oslecLock = none) →
    (m.toShared.exec t cycles (m.pc t)).isSome
  counts : m.oslecLock = none → m.numEc = m.handles.card ∧
    ∀ ec, m.monEc = some ec → ec ∈ m.handles ∧ ∃ e, m.heap ec = some e ∧ m.lenEc = e.taps
  /-- `proc_read_info` prints what an atomic reading would have printed, the mode
  text that it has put together over five statements included. -/
  info : ∀ t cycles text, m.pc t = .procInfo 5 text → ∃ ec e, m.monEc = some ec ∧
    m.heap ec = some e ∧ m.numEc = m.handles.card ∧ m.lenEc = e.taps ∧
    m.toShared.exec t cycles (m.pc t) =
      some (m.toShared, .procUnlock (some ((m.toShared.wrap fun _ => .idle).info e)))

theorem Machine.Follows.safe {m : Machine T A} {w : Wrap T A} (h : m.Follows w)
    (hinv : WrapInv w) : MachineSafe m := by
  exact {
    exclusive := by
      intro t t' ht ht'
      by_contra hne
      rw [h.not_critical ht' hne] at ht
      cases ht
    oneWriter := by
      intro t t' ht ht'
      obtain ⟨ec, huses, hmon⟩ := Pc.exists_uses_of_counting (h.here t') ht'
      by_contra hne
      rw [h.not_counting huses hmon hne] at ht
      cases ht
    live := fun ec hec => h.live hinv hec
    goesOn := fun t cycles hidle hlock => h.goes_on hinv hidle cycles hlock
    counts := by
      intro hlock
      obtain ⟨hmon, hnum, hlen⟩ := h.unlocked hlock
      refine ⟨by rw [hnum, hinv.count, h.handles], fun ec hec => ?_⟩
      obtain ⟨hheld, e, he, htaps⟩ := hinv.monitored ec (hmon.symm.trans hec)
      exact ⟨h.handles ▸ hheld, e, by rw [h.heap, he], by rw [hlen, htaps]⟩
    info := by
      intro t cycles text hpc
      have hhere := h.here t
      rw [hpc] at hhere
      obtain ⟨hshares, -, ec, e, hec, he, rfl⟩ := hhere
      obtain ⟨-, e', he', htaps⟩ := hinv.monitored ec hec
      rw [he] at he'
      obtain rfl := Option.some.inj he'
      have hec' : m.monEc = some ec := hshares.monEc.trans hec
      have he' : m.heap ec = some e := by rw [h.heap, he]
      refine ⟨ec, e, hec', he', ?_, ?_, ?_⟩
      · rw [hshares.numEc, hinv.count, h.handles]
      · rw [hshares.lenEc, htaps]
      · rw [hpc, modeText_five]
        simp only [Shared.exec, Shared.monitored, hec', Option.bind_some, he', Option.map_some,
          lt_irrefl, if_false]
        rfl
  }

/-- Whatever the interleaving of their statements, the critical sections of the
wrapper are atomic, and nothing that runs outside them can tell otherwise. -/
theorem critical_sections_atomic {m : Machine T A} (h : (resetFreeSystem T A).Reachable m) :
    MachineSafe m ∧ ∃ w, (wrapSystem T A).Reachable w ∧ m.Follows w := by
  obtain ⟨w, hw, hfollows⟩ := machine_refines_wrap.reachable h.of_restrict.1
  exact ⟨hfollows.safe (wrapInv_of_reachable hw), w, hw, hfollows⟩

omit [DecidableEq A] in
theorem Machine.NoReset.update {m : Machine T A} (h : m.NoReset) (s : Shared T A) (t : T)
    {p : Pc A} (hp : p.resets = false) :
    Machine.NoReset { s with pc := Function.update m.pc t p } := by
  intro t'
  show (Function.update m.pc t p t').resets = false
  rcases eq_or_ne t' t with rfl | hne
  · rw [Function.update_self, hp]
  · rw [Function.update_of_ne hne, h t']

/-- A creation interrupted between its writes to `mon_ec` and to `len_ec`, with
another thread on its way to print both. -/
theorem interrupted_creation_reachable : ∃ m : Machine ℕ ℕ, (resetFreeSystem ℕ ℕ).Reachable m ∧
    m.pc 0 = .createLen 7 2 ∧ m.pc 1 = .procLock .info ∧ m.oslecLock = some 0 := by
  have hinit : (resetFreeSystem ℕ ℕ).Reachable Machine.init := .init ⟨rfl, fun _ => rfl⟩
  have hcreate := hinit.step ⟨@MachineStep.create ℕ ℕ _ _ _ 0 7 2 rfl rfl,
    hinit.of_restrict.2.update _ 0 rfl⟩
  have hlock := hcreate.step ⟨@MachineStep.exec ℕ ℕ _ _ _ 0 0 _ _ rfl,
    hcreate.of_restrict.2.update _ 0 rfl⟩
  have hcount := hlock.step ⟨@MachineStep.exec ℕ ℕ _ _ _ 0 0 _ _ rfl,
    hlock.of_restrict.2.update _ 0 rfl⟩
  have htest := hcount.step ⟨@MachineStep.exec ℕ ℕ _ _ _ 0 0 _ _ rfl,
    hcount.of_restrict.2.update _ 0 rfl⟩
  have hmon := htest.step ⟨@MachineStep.exec ℕ ℕ _ _ _ 0 0 _ _ rfl,
    htest.of_restrict.2.update _ 0 rfl⟩
  have hread := hmon.step ⟨@MachineStep.proc ℕ ℕ _ _ _ 1 .info rfl,
    hmon.of_restrict.2.update _ 1 rfl⟩
  exact ⟨_, hread, rfl, rfl, rfl⟩

theorem critical_sections_atomic_interrupted_creation :
    ∃ m : Machine ℕ ℕ, m.pc 0 = .createLen 7 2 ∧ m.pc 1 = .procLock .info ∧ MachineSafe m := by
  obtain ⟨m, hreachable, hcreating, hreading, -⟩ := interrupted_creation_reachable
  exact ⟨m, hcreating, hreading, (critical_sections_atomic hreachable).1⟩

/-! ### The lock is given back -/

omit [DecidableEq T] [DecidableEq A] in
theorem Pc.not_waiting_of_critical {p : Pc A} (hp : p.critical = true) : p.waiting = false := by
  cases p <;> first | rfl | cases hp

omit [DecidableEq T] in
theorem Shared.exec_of_waiting {s : Shared T A} {t : T} {cycles : ℤ} {p : Pc A}
    (hp : p.waiting = true) (hlock : s.oslecLock = none) : (s.exec t cycles p).isSome := by
  cases p with
  | createLock ec len | freeLock ec | procLock call => simp [Shared.exec, Shared.lock, hlock]
  | _ => cases hp

omit [DecidableEq T] in
theorem Shared.exec_left {s s' : Shared T A} {t : T} {cycles : ℤ} {p p' : Pc A}
    (hp : p.critical = true) (hexec : s.exec t cycles p = some (s', p')) :
    s'.oslecLock = none ∨ (s'.oslecLock = s.oslecLock ∧ p'.left < p.left) := by
  cases p with
  | createUnlock ec len | freeUnlock | procUnlock text =>
      obtain ⟨rfl, -⟩ := Prod.mk.inj (Option.some.inj hexec)
      exact Or.inl rfl
  | createCount ec len | createMon ec len | createLen ec len | freeMon ec | freeCount =>
      obtain ⟨rfl, rfl⟩ := Prod.mk.inj (Option.some.inj hexec)
      exact Or.inr ⟨rfl, by simp [Pc.left]⟩
  | createTest ec len | freeTest ec =>
      obtain ⟨rfl, rfl⟩ := Prod.mk.inj (Option.some.inj hexec)
      refine Or.inr ⟨rfl, ?_⟩
      split <;> simp [Pc.left]
  | freeCanceller ec =>
      obtain ⟨e, -, hexec⟩ := Option.map_eq_some_iff.mp hexec
      obtain ⟨rfl, rfl⟩ := Prod.mk.inj hexec
      exact Or.inr ⟨rfl, by simp [Pc.left]⟩
  | procTest call =>
      obtain ⟨rfl, rfl⟩ := Prod.mk.inj (Option.some.inj hexec)
      refine Or.inr ⟨rfl, ?_⟩
      split
      · simp [Pc.left]
      · cases call <;> simp [Shared.firstUse, Pc.left]
  | procUse call =>
      cases call with
      | info => cases hexec
      | readMode =>
          obtain ⟨e, -, hexec⟩ := Option.map_eq_some_iff.mp hexec
          obtain ⟨rfl, rfl⟩ := Prod.mk.inj hexec
          exact Or.inr ⟨rfl, by simp [Pc.left]⟩
      | writeMode mode | reset =>
          obtain ⟨s'', hmodify, hexec⟩ := Option.map_eq_some_iff.mp hexec
          obtain ⟨rfl, rfl⟩ := Prod.mk.inj hexec
          obtain ⟨ec, -, hmodify⟩ := Option.bind_eq_some_iff.mp hmodify
          obtain ⟨e, -, rfl⟩ := Option.map_eq_some_iff.mp hmodify
          exact Or.inr ⟨rfl, by simp [Pc.left]⟩
  | procInfo pieces modeStr =>
      obtain ⟨e, -, hexec⟩ := Option.map_eq_some_iff.mp hexec
      obtain ⟨rfl, rfl⟩ := Prod.mk.inj hexec
      refine Or.inr ⟨rfl, ?_⟩
      split
      · simp only [Pc.left]
        omega
      · simp [Pc.left]
  | _ => cases hp

def AloneReaches (t : T) : Machine T A → Machine T A → Prop :=
  Relation.ReflTransGen fun m m' => MachineStep m t m'

/-- From every state between any two statements, the thread that holds the lock
gives it back with its next few statements, whatever the others are waiting for. -/
theorem lock_is_given_back {m : Machine T A} (h : (machineSystem T A).Reachable m) {t : T}
    (hlock : m.oslecLock = some t) :
    ∃ m', AloneReaches t m m' ∧ m'.oslecLock = none ∧
      ∀ t', t' ≠ t → m'.pc t' = m.pc t' ∧
        ∀ cycles, (m.pc t').waiting = true →
          (m'.toShared.exec t' cycles (m'.pc t')).isSome := by
  induction hleft : (m.pc t).left using Nat.strong_induction_on generalizing m with
  | _ left ih =>
      obtain ⟨w, hw, hfollows⟩ := machine_refines_wrap.reachable h
      have hcrit := (hfollows.held t).mp hlock
      have hwaiting := Pc.not_waiting_of_critical hcrit
      have hidle : m.pc t ≠ .idle := by
        intro heq
        rw [heq] at hcrit
        cases hcrit
      obtain ⟨⟨s, p⟩, hexec⟩ := Option.isSome_iff_exists.mp
        (hfollows.goes_on (wrapInv_of_reachable hw) hidle 0 fun heq => by
          rw [hwaiting] at heq
          cases heq)
      have hstep : MachineStep m t { s with pc := Function.update m.pc t p } :=
        MachineStep.exec hexec
      have hothers : ∀ t', t' ≠ t → Function.update m.pc t p t' = m.pc t' :=
        fun t' hne => Function.update_of_ne hne _ _
      rcases Shared.exec_left hcrit hexec with hnone | ⟨hsame, hless⟩
      · refine ⟨_, Relation.ReflTransGen.single hstep, hnone, fun t' hne => ⟨hothers t' hne, ?_⟩⟩
        intro cycles hwait
        refine Shared.exec_of_waiting ?_ hnone
        show (Function.update m.pc t p t').waiting = true
        rw [hothers t' hne, hwait]
      · have hself : (Function.update m.pc t p t).left < left := by
          rw [Function.update_self, ← hleft]
          exact hless
        obtain ⟨m', hreach, hnone, hrest⟩ := ih _ hself (h.step hstep) (hsame.trans hlock) rfl
        refine ⟨m', Relation.ReflTransGen.head hstep hreach, hnone, fun t' hne => ?_⟩
        obtain ⟨hpc, hwake⟩ := hrest t' hne
        refine ⟨hpc.trans (hothers t' hne), fun cycles hwait => hwake cycles ?_⟩
        show (Function.update m.pc t p t').waiting = true
        rw [hothers t' hne, hwait]

theorem lock_is_given_back_interrupted_creation :
    ∃ m m' : Machine ℕ ℕ, m.pc 0 = .createLen 7 2 ∧ m.pc 1 = .procLock .info ∧
      AloneReaches 0 m m' ∧ (m'.toShared.exec 1 0 (m'.pc 1)).isSome := by
  obtain ⟨m, hreachable, hcreating, hreading, hlock⟩ := interrupted_creation_reachable
  obtain ⟨m', halone, -, hothers⟩ := lock_is_given_back hreachable.of_restrict.1 hlock
  exact ⟨m, m', hcreating, hreading, halone, (hothers 1 (by decide)).2 0 (by rw [hreading]; rfl)⟩

end

end Oslec
