import Oslec.Canceller.Calls

/-!
The reset written through `/proc`. It flushes the monitored canceller with the
diagnostics lock held, which does not keep the interrupt handler from running
whole updates between the statements of the flush. The flush resets the three
positions one by one, so an update in between moves some of them and not yet
the others.
-/

namespace Oslec

open RingBuffer

/-- Updates run to completion one after the other. -/
def interruptUpdates (ec : EchoCan) (samples : List (Int16 × Int16)) : EchoCan :=
  samples.foldl (fun ec s => (echoCanUpdate ec s.1 s.2).1) ec

/-- The flush of `proc_write_reset`, interrupted by the updates `gaps stmt` just
before the statement `stmt`. -/
def procWriteReset (gaps : FlushStmt → List (Int16 × Int16)) (ec : EchoCan) : EchoCan :=
  flushBody.foldl (fun ec stmt => stmt.exec (interruptUpdates ec (gaps stmt))) ec

/-- Without interrupts it is the flush. -/
example (ec : EchoCan) : procWriteReset (fun _ => []) ec = echoCanFlush ec := rfl

/-- `fir16` of either path and `lms_adapt_bg` start from the same position. -/
structure PositionsAligned (ec : EchoCan) : Prop where
  firPos : ec.firState.currPos = ec.currPos
  firPosBg : ec.firStateBg.currPos = ec.currPos

/-! ### The positions alone -/

/-- The three positions. -/
structure Positions where
  fir : ℕ
  firBg : ℕ
  curr : ℕ

/-- The positions after `m` updates. -/
def Positions.retreat (n m : ℕ) (p : Positions) : Positions where
  fir := (RingBuffer.retreat n)^[m] p.fir
  firBg := (RingBuffer.retreat n)^[m] p.firBg
  curr := (RingBuffer.retreat n)^[m] p.curr

/-- The positions after a statement of the flush. -/
def FlushStmt.place (n : ℕ) (p : Positions) : FlushStmt → Positions
  | .firPos => { p with fir := n - 1 }
  | .firPosBg => { p with firBg := n - 1 }
  | .currPos => { p with curr := n - 1 }
  | _ => p

/-- The canceller has `n` taps and its positions are `p`, all inside the ring. -/
structure EchoCan.At (ec : EchoCan) (n : ℕ) (p : Positions) : Prop where
  taps : ec.taps = n
  firTaps : ec.firState.taps = n
  firTapsBg : ec.firStateBg.taps = n
  fir : ec.firState.currPos = p.fir
  firBg : ec.firStateBg.currPos = p.firBg
  curr : ec.currPos = p.curr
  fir_lt : p.fir < n
  firBg_lt : p.firBg < n
  curr_lt : p.curr < n

theorem EchoCan.At.update {ec : EchoCan} {n : ℕ} {p : Positions} (h : ec.At n p)
    (tx rx : Int16) : (echoCanUpdate ec tx rx).1.At n (p.retreat n 1) := by
  have hspec := echoCanUpdate_spec ec tx rx
  exact {
    taps := by rw [hspec.taps, h.taps]
    firTaps := by
      rw [hspec.firState]
      exact h.firTaps
    firTapsBg := by
      rw [hspec.firStateBg]
      exact h.firTapsBg
    fir := by
      rw [hspec.firState]
      show rollPos ec.firState.taps ec.firState.currPos = _
      rw [h.firTaps, h.fir, rollPos_eq_retreat h.fir_lt]
      rfl
    firBg := by
      rw [hspec.firStateBg]
      show rollPos ec.firStateBg.taps ec.firStateBg.currPos = _
      rw [h.firTapsBg, h.firBg, rollPos_eq_retreat h.firBg_lt]
      rfl
    curr := by
      rw [hspec.currPos, h.taps, h.curr, rollPos_eq_retreat h.curr_lt]
      rfl
    fir_lt := retreat_lt h.fir_lt
    firBg_lt := retreat_lt h.firBg_lt
    curr_lt := retreat_lt h.curr_lt
  }

theorem EchoCan.At.interruptUpdates {ec : EchoCan} {n : ℕ} {p : Positions} (h : ec.At n p)
    (samples : List (Int16 × Int16)) :
    (interruptUpdates ec samples).At n (p.retreat n samples.length) := by
  induction samples generalizing ec p with
  | nil => exact h
  | cons s samples ih => exact ih (h.update s.1 s.2)

theorem EchoCan.At.exec {ec : EchoCan} {n : ℕ} {p : Positions} (h : ec.At n p)
    (stmt : FlushStmt) : (stmt.exec ec).At n (stmt.place n p) := by
  have hpos : (ec.taps : ℤ) - 1 = ((n - 1 : ℕ) : ℤ) := by
    have hlt := h.curr_lt
    rw [h.taps]
    omega
  have hlt : n - 1 < n := by
    have hlt := h.curr_lt
    omega
  obtain ⟨htaps, hfirTaps, hfirTapsBg, hfir, hfirBg, hcurr, hfirLt, hfirBgLt, hcurrLt⟩ := h
  cases stmt with
  | firPos => exact ⟨htaps, hfirTaps, hfirTapsBg, hpos, hfirBg, hcurr, hlt, hfirBgLt, hcurrLt⟩
  | firPosBg => exact ⟨htaps, hfirTaps, hfirTapsBg, hfir, hpos, hcurr, hfirLt, hlt, hcurrLt⟩
  | currPos => exact ⟨htaps, hfirTaps, hfirTapsBg, hfir, hfirBg, hpos, hfirLt, hfirBgLt, hlt⟩
  | _ => exact ⟨htaps, hfirTaps, hfirTapsBg, hfir, hfirBg, hcurr, hfirLt, hfirBgLt, hcurrLt⟩

theorem EchoCan.At.positionsAligned_iff {ec : EchoCan} {n : ℕ} {p : Positions} (h : ec.At n p) :
    PositionsAligned ec ↔ p.fir = p.curr ∧ p.firBg = p.curr := by
  constructor
  · rintro ⟨hfir, hfirBg⟩
    rw [h.fir, h.curr] at hfir
    rw [h.firBg, h.curr] at hfirBg
    exact ⟨by exact_mod_cast hfir, by exact_mod_cast hfirBg⟩
  · rintro ⟨hfir, hfirBg⟩
    exact ⟨by rw [h.fir, h.curr, hfir], by rw [h.firBg, h.curr, hfirBg]⟩

/-- No number of updates repairs a misalignment, or causes one. -/
theorem EchoCan.At.aligned_interruptUpdates_iff {ec : EchoCan} {n : ℕ} {p : Positions}
    (h : ec.At n p) (samples : List (Int16 × Int16)) :
    PositionsAligned (Oslec.interruptUpdates ec samples) ↔ PositionsAligned ec := by
  have hinj : ∀ {x y : ℕ}, x < n → y < n →
      ((RingBuffer.retreat n)^[samples.length] x = (RingBuffer.retreat n)^[samples.length] y ↔
        x = y) := by
    intro x y hx hy
    constructor
    · intro heq
      have hback := iterate_retreat_add_mod samples.length hx
      rw [heq, iterate_retreat_add_mod samples.length hy] at hback
      exact hback.symm
    · exact fun heq => congrArg _ heq
  rw [(h.interruptUpdates samples).positionsAligned_iff, h.positionsAligned_iff]
  exact and_congr (hinj h.fir_lt h.curr_lt) (hinj h.firBg_lt h.curr_lt)

/-! ### The interrupted flush -/

/-- The updates that fall between two statements of the flush, both ends named
by the statement they precede. -/
def updatesBetween (gaps : FlushStmt → List (Int16 × Int16)) (stmts : List FlushStmt) : ℕ :=
  (stmts.map fun stmt => (gaps stmt).length).sum

theorem updatesBetween_append (gaps : FlushStmt → List (Int16 × Int16))
    (stmts stmts' : List FlushStmt) :
    updatesBetween gaps (stmts ++ stmts') =
      updatesBetween gaps stmts + updatesBetween gaps stmts' := by
  simp [updatesBetween]

/-- The updates before the first of the statements come first. -/
theorem iterate_updatesBetween_cons (gaps : FlushStmt → List (Int16 × Int16)) (stmt : FlushStmt)
    (stmts : List FlushStmt) (f : ℕ → ℕ) (x : ℕ) :
    f^[updatesBetween gaps (stmt :: stmts)] x =
      f^[updatesBetween gaps stmts] (f^[(gaps stmt).length] x) := by
  have hcons : updatesBetween gaps (stmt :: stmts) =
      updatesBetween gaps stmts + (gaps stmt).length := Nat.add_comm _ _
  rw [hcons, Function.iterate_add_apply]

/-- Where the interrupted flush leaves the positions: each one as many cells
below its reset value as there were updates after its own statement. -/
theorem place_flushBody (gaps : FlushStmt → List (Int16 × Int16)) (n : ℕ) (p : Positions) :
    flushBody.foldl (fun p stmt => stmt.place n (p.retreat n (gaps stmt).length)) p =
      { fir := (RingBuffer.retreat n)^[updatesBetween gaps
          [.firPosBg, .firTaps, .firTapsBg, .currPos, .pstates]] (n - 1)
        firBg := (RingBuffer.retreat n)^[updatesBetween gaps
          [.firTaps, .firTapsBg, .currPos, .pstates]] (n - 1)
        curr := (RingBuffer.retreat n)^[updatesBetween gaps [.pstates]] (n - 1) } := by
  simp only [flushBody, List.foldl_cons, List.foldl_nil, FlushStmt.place, Positions.retreat,
    iterate_updatesBetween_cons]
  rfl

theorem EchoCan.At.procWriteReset {ec : EchoCan} {n : ℕ} {p : Positions} (h : ec.At n p)
    (gaps : FlushStmt → List (Int16 × Int16)) :
    (procWriteReset gaps ec).At n
      (flushBody.foldl (fun p stmt => stmt.place n (p.retreat n (gaps stmt).length)) p) := by
  unfold Oslec.procWriteReset
  induction flushBody generalizing ec p with
  | nil => exact h
  | cons stmt stmts ih => exact ih ((h.interruptUpdates (gaps stmt)).exec stmt)

/-- A represented canceller has its three positions inside the ring. -/
theorem EchoCan.Represents.at {n : ℕ} {ec : EchoCan} {r : RingBuffer ℤ n} (h : ec.Represents r) :
    ec.At n ⟨r.pos, r.pos, r.pos⟩ :=
  ⟨h.taps, h.fir.taps, h.firBg.taps, h.fir.currPos, h.firBg.currPos, h.currPos, r.pos_lt, r.pos_lt,
    r.pos_lt⟩

theorem EchoCan.At.quiet {ec : EchoCan} {n : ℕ} {p : Positions} (h : ec.At n p) (txDc : DcFilter)
    (mode : BitVec 32) (snapshot : List ℤ) :
    { ec with txDc := txDc, adaptionMode := mode, snapshot := snapshot }.At n p :=
  { h with }

/-! ### Runs with interrupted resets -/

/-- A call of the interface, or a reset with the updates that interrupt it. -/
inductive DriverCall
  | call (c : Call)
  | procWriteReset (gaps : FlushStmt → List (Int16 × Int16))

/-- The canceller as the driver uses it. -/
def driver : Mealy EchoCan DriverCall (Option Int16) where
  step ec
    | .call c => echoCan.step ec c
    | .procWriteReset gaps => (procWriteReset gaps ec, none)

/-- Every call keeps the three positions inside the ring, aligned or not. -/
theorem exists_at_step {n : ℕ} (ec : EchoCan) (d : DriverCall) (h : ∃ p, ec.At n p) :
    ∃ p, (driver.step ec d).1.At n p := by
  obtain ⟨p, hp⟩ := h
  cases d with
  | procWriteReset gaps => exact ⟨_, hp.procWriteReset gaps⟩
  | call c =>
      show ∃ p, (echoCan.step ec c).1.At n p
      have hquiet : c.Quiet → (echoCan.step ec c).1.At n p := by
        intro hc
        obtain ⟨txDc, mode, snapshot, hstep⟩ := echoCan_step_quiet ec hc
        rw [hstep]
        exact hp.quiet txDc mode snapshot
      cases c with
      | update tx rx => exact ⟨_, hp.update tx rx⟩
      | flush => exact ⟨_, hp.procWriteReset fun _ => []⟩
      | hpfTx tx => exact ⟨p, hquiet trivial⟩
      | adaptionMode mode => exact ⟨p, hquiet trivial⟩
      | snapshot => exact ⟨p, hquiet trivial⟩

theorem exists_at_of_driver_run {n : ℕ} (hn : 0 < n) (mode : BitVec 32) (calls : List DriverCall) :
    ∃ p, (driver.run (echoCanCreate n mode) calls).At n p :=
  driver.run_invariant exists_at_step ⟨_, (echoCanCreate_represents hn mode).at⟩ calls

/-- The reset leaves the positions aligned exactly when the updates that fall
between the resets of two positions make whole turns around the ring, and no
later update repairs what it leaves. -/
theorem reset_realigns_iff (len : ℕ) (hlen : 2 ≤ len) (mode : BitVec 32) (calls : List DriverCall)
    (gaps : FlushStmt → List (Int16 × Int16)) :
    (PositionsAligned (procWriteReset gaps (driver.run (echoCanCreate len mode) calls)) ↔
        len ∣ updatesBetween gaps [.firPosBg] ∧
          len ∣ updatesBetween gaps [.firTaps, .firTapsBg, .currPos]) ∧
      ∀ later, PositionsAligned (interruptUpdates
          (procWriteReset gaps (driver.run (echoCanCreate len mode) calls)) later) ↔
        PositionsAligned (procWriteReset gaps (driver.run (echoCanCreate len mode) calls)) := by
  have hn : 0 < len := by omega
  obtain ⟨p, hp⟩ := exists_at_of_driver_run hn mode calls
  have hat := hp.procWriteReset gaps
  refine ⟨?_, hat.aligned_interruptUpdates_iff⟩
  rw [place_flushBody] at hat
  have hlast : len - 1 < len := Nat.sub_lt hn Nat.one_pos
  have hfir : updatesBetween gaps [.firPosBg, .firTaps, .firTapsBg, .currPos, .pstates] =
      updatesBetween gaps [.firPosBg] + updatesBetween gaps [.firTaps, .firTapsBg, .currPos] +
        updatesBetween gaps [.pstates] := by
    rw [← updatesBetween_append, ← updatesBetween_append]
    rfl
  have hfirBg : updatesBetween gaps [.firTaps, .firTapsBg, .currPos, .pstates] =
      updatesBetween gaps [.firTaps, .firTapsBg, .currPos] + updatesBetween gaps [.pstates] := by
    rw [← updatesBetween_append]
    rfl
  -- the updates after the last reset move all three positions alike
  rw [hat.positionsAligned_iff, hfir, hfirBg, iterate_retreat_add_eq_iff hlast,
    iterate_retreat_add_eq_iff hlast]
  exact ⟨fun ⟨hsum, hbg⟩ => ⟨(Nat.dvd_add_left hbg).mp hsum, hbg⟩,
    fun ⟨hfg, hbg⟩ => ⟨Nat.dvd_add hfg hbg, hbg⟩⟩

/-- Whole turns between the statements, and more updates after the flush. -/
theorem reset_realigns_iff_whole_turn :
    PositionsAligned (interruptUpdates
      (procWriteReset (fun stmt => if stmt = .firPosBg then [(7, 5), (3, 1)] else [])
        (driver.run (echoCanCreate 2 0#32) [.call (.update 100 50)])) [(9, 9)]) :=
  have h := reset_realigns_iff 2 (by decide) 0#32 [.call (.update 100 50)]
    fun stmt => if stmt = .firPosBg then [(7, 5), (3, 1)] else []
  (h.2 [(9, 9)]).mpr (h.1.mpr (by decide))

/-- A single update between the resets of the two filter positions leaves the
foreground filter one cell away from the adaption, for good. -/
theorem reset_misaligns :
    ¬ PositionsAligned (procWriteReset
        (fun stmt => if stmt = .firPosBg then [(0, 0)] else [])
        (driver.run (echoCanCreate 2 0#32) [])) := by
  rintro ⟨hfir, -⟩
  revert hfir
  decide +kernel

end Oslec
