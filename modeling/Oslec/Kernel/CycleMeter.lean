import Oslec.Kernel.Monitor

/-!
The cycle statistics of the monitored canceller against a clock that does not
wrap. Of the clock at the start of an update only the low 32 bits are kept, the
threads read it in any order, and calls come and go; the statistics are exact all
the same, as long as no update takes as many as `2 ^ 31` cycles.
-/

namespace Oslec

open TwosComplement

/-! ### The clock and what it has shown -/

/-- What the module does not keep: the whole clock, when each thread has begun its
update, and how long the measured updates took, the last one at the head. -/
structure Meter (T : Type) where
  clock : ℤ
  started : T → ℤ
  readings : List ℤ

def Meter.init {T : Type} : Meter T where
  clock := 0
  started := fun _ => 0
  readings := []

section

variable {T A : Type} [DecidableEq T] [DecidableEq A]

/-- The actions that do not read the clock. -/
def WrapAction.Clockless : WrapAction T A → Prop
  | .compare _ _ => False
  | .finish _ => False
  | _ => True

/-- The steps of the module under a clock that goes on between them; `none` is the
clock alone. -/
inductive MeterStep :
    Wrap T A × Meter T → Option (WrapAction T A) → Wrap T A × Meter T → Prop
  | pass {w : Wrap T A} {m : Meter T} {cycles : ℤ} (hcycles : 0 ≤ cycles) :
      MeterStep (w, m) none (w, { m with clock := m.clock + cycles })
  | compare {w : Wrap T A} {m : Meter T} {t : T} {ec : A} (tx rx : Int16)
      (hidle : w.tasks t = .idle) (hheld : ec ∈ w.handles) (hquiet : w.Quiet ec) :
      MeterStep (w, m) (some (.compare t ec))
        (w.compare t ec tx rx m.clock,
          { m with started := Function.update m.started t m.clock })
  | finish {w : Wrap T A} {m : Meter T} {t : T} {ec : A} {first : Bool} {startCycles : ℤ}
      (htask : w.tasks t = .updated ec first startCycles) :
      MeterStep (w, m) (some (.finish t))
        (w.finish t ec startCycles m.clock,
          { m with
            readings :=
              if w.monEc = some ec then (m.clock - m.started t) :: m.readings else m.readings })
  | other {w w' : Wrap T A} {m : Meter T} {a : WrapAction T A} (hclockless : a.Clockless)
      (hstep : WrapStep w a w') : MeterStep (w, m) (some a) (w', m)

/-- The module with its clock, from the moment it is loaded. -/
def meteredSystem (T A : Type) [DecidableEq T] [DecidableEq A] :
    TransitionSystem (Wrap T A × Meter T) (Option (WrapAction T A)) where
  init s := s = (Wrap.init, Meter.init)
  step := MeterStep

end

/-! ### The statistics -/

/-- `y += (x - y) >> LTC` over the readings, in unbounded integers. -/
def movingAverage : List ℤ → ℤ
  | [] => 0
  | r :: rs => movingAverage rs + (r - movingAverage rs) / 2 ^ ltc

def worstOf (rs : List ℤ) : ℤ := rs.foldr max 0

theorem worstOf_lt {rs : List ℤ} {m : ℤ} (hm : 0 < m) (h : ∀ r ∈ rs, r < m) : worstOf rs < m := by
  induction rs with
  | nil => exact hm
  | cons r rs ih =>
      obtain ⟨hr, hrs⟩ := List.forall_mem_cons.mp h
      exact max_lt hr (ih hrs)

/-- The average lies between zero and the worst case. -/
theorem movingAverage_bounds {rs : List ℤ} (h : ∀ r ∈ rs, 0 ≤ r) :
    0 ≤ movingAverage rs ∧ movingAverage rs ≤ worstOf rs := by
  induction rs with
  | nil => exact ⟨le_refl 0, le_refl 0⟩
  | cons r rs ih =>
      obtain ⟨hr, hrs⟩ := List.forall_mem_cons.mp h
      obtain ⟨hlo, hhi⟩ := ih hrs
      have hworst : movingAverage rs ≤ worstOf (r :: rs) := hhi.trans (le_max_right _ _)
      have hlast : r ≤ worstOf (r :: rs) := le_max_left _ _
      have hpow : (2 : ℤ) ^ ltc = 32 := rfl
      rw [movingAverage, hpow]
      omega

/-- The low 32 bits of the start are enough for a short time. -/
theorem elapsed_eq {start now : ℤ} (hle : start ≤ now) (hlt : now - start < 2 ^ 31) :
    i32 (now - start % 2 ^ 32) = now - start := by
  have hsame : i32 (now - start % 2 ^ 32) = i32 (now - start) := by
    refine wrap_eq_wrap_iff.mpr ⟨start / 2 ^ 32, ?_⟩
    have hdiv := Int.mul_ediv_add_emod start (2 ^ 32)
    omega
  rw [hsame, i32_of_bounds (by omega) (by omega)]

/-- Neither the difference nor the average leaves 32 bits. -/
theorem averageStep_eq {average last : ℤ} (haverage : 0 ≤ average ∧ average < 2 ^ 31)
    (hlast : 0 ≤ last ∧ last < 2 ^ 31) :
    i32 (average + i32 (last - average) >>> ltc) = average + (last - average) / 2 ^ ltc := by
  have hpow : ((2 ^ ltc : ℕ) : ℤ) = 32 := rfl
  have hpow' : (2 : ℤ) ^ ltc = 32 := rfl
  rw [i32_of_bounds (x := last - average) (by omega) (by omega), Int.shiftRight_eq_div_pow, hpow,
    hpow', i32_of_bounds (by omega) (by omega)]

/-! ### The invariant -/

/-- What an update that measures itself has kept of the clock. -/
def Task.measured {A : Type} : Task A → Option ℤ
  | .updating _ _ _ true startCycles => some startCycles
  | .updated _ true startCycles => some startCycles
  | _ => none

/-- What the statistics are. -/
structure Statistics {T A : Type} (w : Wrap T A) (readings : List ℤ) : Prop where
  last : w.cyclesLast = readings.headD 0
  worst : w.cyclesWorst = worstOf readings
  average : w.cyclesAverage = movingAverage readings

theorem Statistics.congr {T A : Type} {w w' : Wrap T A} {readings : List ℤ}
    (h : Statistics w readings) (hlast : w'.cyclesLast = w.cyclesLast)
    (hworst : w'.cyclesWorst = w.cyclesWorst) (haverage : w'.cyclesAverage = w.cyclesAverage) :
    Statistics w' readings :=
  ⟨hlast.trans h.last, hworst.trans h.worst, haverage.trans h.average⟩

structure MeterInv {T A : Type} (w : Wrap T A) (m : Meter T) : Prop where
  wrap : WrapInv w
  begun : ∀ t, m.started t ≤ m.clock
  kept : ∀ t start, (w.tasks t).measured = some start → start = m.started t % 2 ^ 32
  nonneg : ∀ r ∈ m.readings, 0 ≤ r
  statistics : (∀ r ∈ m.readings, r < 2 ^ 31) → Statistics w m.readings

section

variable {T A : Type}

theorem meterInv_init : MeterInv (Wrap.init : Wrap T A) Meter.init where
  wrap := wrapInv_init
  begun := fun _ => le_refl 0
  kept := fun t start ht => by cases ht
  nonneg := List.forall_mem_nil _
  statistics := fun _ => ⟨rfl, rfl, rfl⟩

theorem MeterInv.pass {w : Wrap T A} {m : Meter T} (h : MeterInv w m) {cycles : ℤ}
    (hcycles : 0 ≤ cycles) : MeterInv w { m with clock := m.clock + cycles } where
  wrap := h.wrap
  begun := fun t => (h.begun t).trans (Int.le_add_of_nonneg_right hcycles)
  kept := h.kept
  nonneg := h.nonneg
  statistics := h.statistics

variable [DecidableEq T] [DecidableEq A]

/-- A step that does not read the clock leaves the statistics alone and starts no
measurement. -/
theorem WrapStep.clockless {w w' : Wrap T A} {a : WrapAction T A} (hstep : WrapStep w a w')
    (ha : a.Clockless) :
    (w'.cyclesLast = w.cyclesLast ∧ w'.cyclesWorst = w.cyclesWorst ∧
        w'.cyclesAverage = w.cyclesAverage) ∧
      ∀ t start, (w'.tasks t).measured = some start → (w.tasks t).measured = some start := by
  have hwrite {f : EchoCan → EchoCan} (hf : w.procWrite f = some w') :
      (w'.cyclesLast = w.cyclesLast ∧ w'.cyclesWorst = w.cyclesWorst ∧
        w'.cyclesAverage = w.cyclesAverage) ∧
      ∀ t start, (w'.tasks t).measured = some start → (w.tasks t).measured = some start := by
    rcases Wrap.procWrite_cases hf with rfl | ⟨ec, -, hmodify⟩
    · exact ⟨⟨rfl, rfl, rfl⟩, fun _ _ ht => ht⟩
    · obtain ⟨e, -, rfl⟩ := Option.map_eq_some_iff.mp hmodify
      exact ⟨⟨rfl, rfl, rfl⟩, fun _ _ ht => ht⟩
  cases hstep with
  | allocate hidle hnew =>
      exact ⟨⟨rfl, rfl, rfl⟩, fun t' start ht => (Wrap.setTask_of_none rfl ht).2⟩
  | register htask =>
      exact ⟨⟨rfl, rfl, rfl⟩, fun t' start ht => (Wrap.setTask_of_none rfl ht).2⟩
  | free hheld hquiet => exact ⟨⟨rfl, rfl, rfl⟩, fun _ _ ht => ht⟩
  | compare hidle hheld hquiet => exact ha.elim
  | @update t ec tx rx first startCycles w'' htask hmodify =>
      obtain ⟨e, -, rfl⟩ := Option.map_eq_some_iff.mp hmodify
      refine ⟨⟨rfl, rfl, rfl⟩, fun t' start ht => ?_⟩
      rcases Wrap.setTask_cases ht with ⟨rfl, hnew⟩ | ⟨-, hbefore⟩
      · -- the update goes on measuring from the same start
        rw [htask]
        cases first with
        | true => exact hnew
        | false => cases hnew
      · exact hbefore
  | finish htask => exact ha.elim
  | hpfTx hheld hmodify =>
      obtain ⟨e, -, rfl⟩ := Option.map_eq_some_iff.mp hmodify
      exact ⟨⟨rfl, rfl, rfl⟩, fun _ _ ht => ht⟩
  | procReadInfo hread => exact ⟨⟨rfl, rfl, rfl⟩, fun _ _ ht => ht⟩
  | procReadMode hread => exact ⟨⟨rfl, rfl, rfl⟩, fun _ _ ht => ht⟩
  | procWriteMode hprocWrite => exact hwrite hprocWrite
  | procWriteReset hprocWrite => exact hwrite hprocWrite

variable {w : Wrap T A} {m : Meter T} (h : MeterInv w m)

include h

theorem MeterInv.clockless {w' : Wrap T A} {a : WrapAction T A} (hstep : WrapStep w a w')
    (ha : a.Clockless) : MeterInv w' m := by
  obtain ⟨⟨hlast, hworst, haverage⟩, hmeasured⟩ := hstep.clockless ha
  refine ⟨h.wrap.step hstep, h.begun, fun t start ht => h.kept t start (hmeasured t start ht),
    h.nonneg, fun hshort => ?_⟩
  exact (h.statistics hshort).congr hlast hworst haverage

theorem MeterInv.compare {t : T} {ec : A} (tx rx : Int16) (hheld : ec ∈ w.handles)
    (hquiet : w.Quiet ec) :
    MeterInv (w.compare t ec tx rx m.clock)
      { m with started := Function.update m.started t m.clock } := by
  refine ⟨h.wrap.compare _ _ _ hheld hquiet, fun t' => ?_, fun t' start ht => ?_, h.nonneg,
    fun hshort => (h.statistics hshort).congr rfl rfl rfl⟩
  · show Function.update m.started t m.clock t' ≤ m.clock
    rw [Function.update_apply]
    split
    · exact le_refl _
    · exact h.begun t'
  · show start = Function.update m.started t m.clock t' % 2 ^ 32
    rcases Wrap.setTask_cases ht with ⟨rfl, hnew⟩ | ⟨hne, hbefore⟩
    · rw [Function.update_self]
      by_cases hmon : w.monEc = some ec
      · simp only [hmon, decide_true, if_true] at hnew
        exact (Option.some.inj hnew).symm
      · simp only [hmon, decide_false] at hnew
        cases hnew
    · rw [Function.update_of_ne hne]
      exact h.kept t' start hbefore

/-- The update that ends is the one that began when its thread looked at the clock. -/
theorem MeterInv.finish {t : T} {ec : A} {first : Bool} {startCycles : ℤ}
    (htask : w.tasks t = .updated ec first startCycles) :
    MeterInv (w.finish t ec startCycles m.clock)
      { m with
        readings :=
          if w.monEc = some ec then (m.clock - m.started t) :: m.readings else m.readings } := by
  have hmeasured : ∀ t' start, ((w.finish t ec startCycles m.clock).tasks t').measured =
      some start → (w.tasks t').measured = some start := by
    intro t' start ht
    rw [Wrap.finish] at ht
    split at ht
    · exact (Wrap.setTask_of_none (w := w) rfl ht).2
    · exact (Wrap.setTask_of_none rfl ht).2
  by_cases hmon : w.monEc = some ec
  · -- the first comparison had the same outcome, so the start has been kept
    have hfirst : first = true :=
      (h.wrap.compared t ec first (by rw [htask]; rfl)).mpr hmon
    have hstart : startCycles = m.started t % 2 ^ 32 :=
      h.kept t startCycles (by rw [htask, hfirst]; rfl)
    have hbegun := h.begun t
    rw [if_pos hmon]
    refine ⟨h.wrap.finish t ec startCycles m.clock, h.begun,
      fun t' start ht => h.kept t' start (hmeasured t' start ht), ?_, fun hshort => ?_⟩
    · exact List.forall_mem_cons.mpr ⟨by omega, h.nonneg⟩
    · obtain ⟨hlt, hshort⟩ := List.forall_mem_cons.mp hshort
      have hold := h.statistics hshort
      have hlast : i32 (m.clock - startCycles) = m.clock - m.started t := by
        rw [hstart]
        exact elapsed_eq hbegun hlt
      obtain ⟨hlo, hhi⟩ := movingAverage_bounds h.nonneg
      have hworst := worstOf_lt (by norm_num) hshort
      rw [Wrap.finish, if_pos hmon, hlast]
      refine ⟨rfl, ?_, ?_⟩
      · show (if _ > w.cyclesWorst then _ else w.cyclesWorst) = max _ (worstOf m.readings)
        rw [hold.worst, max_def]
        split <;> split <;> omega
      · show i32 (w.cyclesAverage + i32 (_ - w.cyclesAverage) >>> ltc) = _
        rw [hold.average, averageStep_eq ⟨hlo, hhi.trans_lt hworst⟩ ⟨by omega, hlt⟩]
        rfl
  · rw [if_neg hmon]
    refine ⟨h.wrap.finish t ec startCycles m.clock, h.begun,
      fun t' start ht => h.kept t' start (hmeasured t' start ht), h.nonneg, ?_⟩
    rw [Wrap.finish, if_neg hmon]
    exact fun hshort => (h.statistics hshort).congr rfl rfl rfl

end

theorem MeterInv.step {T A : Type} [DecidableEq T] [DecidableEq A] {s s' : Wrap T A × Meter T}
    {a : Option (WrapAction T A)} (h : MeterInv s.1 s.2) (hstep : MeterStep s a s') :
    MeterInv s'.1 s'.2 := by
  cases hstep with
  | pass hcycles => exact h.pass hcycles
  | compare tx rx hidle hheld hquiet => exact h.compare tx rx hheld hquiet
  | finish htask => exact h.finish htask
  | other hclockless hstep => exact h.clockless hstep hclockless

theorem meterInv_of_reachable {T A : Type} [DecidableEq T] [DecidableEq A] {w : Wrap T A}
    {m : Meter T} (h : (meteredSystem T A).Reachable (w, m)) : MeterInv w m := by
  refine h.invariant (I := fun s => MeterInv s.1 s.2) ?_ fun s a s' hs hstep => hs.step hstep
  rintro s rfl
  exact meterInv_init

/-! ### What `proc_read_info` prints -/

/-- `8*cycles/1000` is exact up to `2 ^ 28` cycles. -/
theorem mips_eq {cycles : ℤ} (hlo : 0 ≤ cycles) (hhi : cycles < 2 ^ 28) :
    mips cycles = 8 * cycles / 1000 := by
  rw [mips, i32_of_bounds (by omega) (by omega), Int.tdiv_eq_ediv_of_nonneg (by omega)]

/-- The statistics are those of the readings, and below `2 ^ 28` cycles so is
what is printed. -/
structure StatisticsExact {T A : Type} (w : Wrap T A) (m : Meter T) : Prop where
  statistics : Statistics w m.readings
  average : 0 ≤ w.cyclesAverage ∧ w.cyclesAverage ≤ w.cyclesWorst
  printed : w.cyclesWorst < 2 ^ 28 →
    mips w.cyclesLast = 8 * m.readings.headD 0 / 1000 ∧
      mips w.cyclesWorst = 8 * worstOf m.readings / 1000 ∧
      mips w.cyclesAverage = 8 * movingAverage m.readings / 1000

theorem statistics_are_exact {T A : Type} [DecidableEq T] [DecidableEq A] {w : Wrap T A}
    {m : Meter T} (h : (meteredSystem T A).Reachable (w, m))
    (hshort : ∀ r ∈ m.readings, r < 2 ^ 31) : StatisticsExact w m := by
  have hinv := meterInv_of_reachable h
  have hstat := hinv.statistics hshort
  obtain ⟨hlo, hhi⟩ := movingAverage_bounds hinv.nonneg
  have haverage : 0 ≤ w.cyclesAverage ∧ w.cyclesAverage ≤ w.cyclesWorst := by
    rw [hstat.average, hstat.worst]
    exact ⟨hlo, hhi⟩
  have hlast : 0 ≤ w.cyclesLast ∧ w.cyclesLast ≤ w.cyclesWorst := by
    rw [hstat.last, hstat.worst]
    cases hreadings : m.readings with
    | nil => exact ⟨le_refl 0, le_refl 0⟩
    | cons r rs => exact ⟨hinv.nonneg r (hreadings ▸ List.mem_cons_self), le_max_left _ _⟩
  refine ⟨hstat, haverage, fun hprinted => ?_⟩
  rw [← hstat.last, ← hstat.worst, ← hstat.average]
  exact ⟨mips_eq hlast.1 (hlast.2.trans_lt hprinted),
    mips_eq (haverage.1.trans haverage.2) hprinted,
    mips_eq haverage.1 (haverage.2.trans_lt hprinted)⟩

/-- The low half of the clock wraps during the first update. -/
theorem statistics_are_exact_wrap : ∃ (w : Wrap ℕ ℕ) (m : Meter ℕ),
    (meteredSystem ℕ ℕ).Reachable (w, m) ∧ m.clock = 2 ^ 32 + 4 ∧ m.readings = [7] ∧
      StatisticsExact w m := by
  have hinit : (meteredSystem ℕ ℕ).Reachable (Wrap.init, Meter.init) := .init rfl
  have hallocated := hinit.step
    (MeterStep.other (a := .allocate 0 7 2) trivial (WrapStep.allocate rfl rfl))
  have hcreated := hallocated.step
    (MeterStep.other (a := .register 0) trivial (WrapStep.register rfl))
  have hpassed := hcreated.step (MeterStep.pass (by norm_num : (0 : ℤ) ≤ 2 ^ 32 - 3))
  have hquiet : ((Wrap.init.allocate 0 7 2).register 0 7 2 : Wrap ℕ ℕ).Quiet 7 := by
    intro t first ht
    rcases Wrap.setTask_cases ht with ⟨-, hidle⟩ | ⟨-, ht⟩
    · cases hidle
    · rcases Wrap.setTask_cases ht with ⟨-, hcreating⟩ | ⟨-, hinit⟩
      · cases hcreating
      · cases hinit
  have hcompared := hpassed.step
    (MeterStep.compare (t := 0) 100 (-3) rfl (by decide) hquiet)
  have hrun := hcompared.step (MeterStep.pass (by norm_num : (0 : ℤ) ≤ 7))
  have hupdated := hrun.step
    (MeterStep.other (a := .update 0) trivial (WrapStep.update rfl rfl))
  have hfinished := hupdated.step (MeterStep.finish (t := 0) rfl)
  have hmonitored : ((Wrap.init.allocate 0 7 2).register 0 7 2 : Wrap ℕ ℕ).monEc = some 7 := rfl
  have hreadings : (if ((Wrap.init.allocate 0 7 2).register 0 7 2 : Wrap ℕ ℕ).monEc = some 7 then
      [(0 + (2 ^ 32 - 3) + 7 : ℤ) - (0 + (2 ^ 32 - 3))] else []) = [7] := by
    rw [if_pos hmonitored]
    norm_num
  refine ⟨_, _, hfinished, by norm_num [Meter.init], hreadings, ?_⟩
  refine statistics_are_exact hfinished fun r hr => ?_
  have hr : r ∈ [(7 : ℤ)] := hreadings ▸ hr
  rw [List.mem_singleton.mp hr]
  norm_num

end Oslec
