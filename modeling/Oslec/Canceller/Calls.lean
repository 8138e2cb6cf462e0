import Oslec.Canceller.Update
import Oslec.Library.Mealy

/-!
Runs of the canceller: any sequence of calls of its interface, in any order.
The two filter states and `curr_pos` move together as one ring buffer; this
module proves that once for every call, and every later argument about filter
states goes through `EchoCan.Represents`.
-/

namespace Oslec

inductive Call
  | update (tx rx : Int16)
  | hpfTx (tx : Int16)
  | flush
  | adaptionMode (mode : BitVec 32)
  | snapshot
deriving DecidableEq

/-- The canceller as a machine that answers every call with the sample it
returns, if it returns one. -/
def echoCan : Mealy EchoCan Call (Option Int16) where
  step ec
    | .update tx rx => ((echoCanUpdate ec tx rx).1, some (echoCanUpdate ec tx rx).2)
    | .hpfTx tx => ((echoCanHpfTx ec tx).1, some (echoCanHpfTx ec tx).2)
    | .flush => (echoCanFlush ec, none)
    | .adaptionMode mode => (echoCanAdaptionMode ec mode, none)
    | .snapshot => (echoCanSnapshot ec, none)

/-! ### The calls other than the update -/

/-- The calls that neither process a sample of both sides nor clear the canceller. -/
def Call.Quiet : Call → Prop
  | .update _ _ => False
  | .flush => False
  | .hpfTx _ => True
  | .adaptionMode _ => True
  | .snapshot => True

theorem echoCanHpfTx_eq (ec : EchoCan) (tx : Int16) :
    (echoCanHpfTx ec tx).1 = { ec with txDc := (echoCanHpfTx ec tx).1.txDc } := by
  rw [echoCanHpfTx]
  split <;> rfl

/-- A quiet call changes at most the tx filter, the mode and the snapshot. -/
theorem echoCan_step_quiet (ec : EchoCan) {c : Call} (hc : c.Quiet) :
    ∃ txDc adaptionMode snapshot, (echoCan.step ec c).1 =
      { ec with txDc := txDc, adaptionMode := adaptionMode, snapshot := snapshot } := by
  cases c with
  | update tx rx => exact hc.elim
  | flush => exact hc.elim
  | hpfTx tx => exact ⟨_, _, _, echoCanHpfTx_eq ec tx⟩
  | adaptionMode mode => exact ⟨_, _, _, rfl⟩
  | snapshot => exact ⟨_, _, _, rfl⟩

/-- Induction over a run by what its last call does. -/
theorem echoCan_run_induction {ec : EchoCan} {P : List Call → EchoCan → Prop} (create : P [] ec)
    (update : ∀ calls tx rx, P calls (echoCan.run ec calls) →
      P (calls ++ [.update tx rx]) (echoCanUpdate (echoCan.run ec calls) tx rx).1)
    (flush : ∀ calls, P calls (echoCan.run ec calls) →
      P (calls ++ [.flush]) (echoCanFlush (echoCan.run ec calls)))
    (quiet : ∀ calls c txDc adaptionMode snapshot, c.Quiet → P calls (echoCan.run ec calls) →
      P (calls ++ [c]) { echoCan.run ec calls with
        txDc := txDc, adaptionMode := adaptionMode, snapshot := snapshot })
    (calls : List Call) : P calls (echoCan.run ec calls) := by
  refine echoCan.run_induction create ?_ calls
  intro calls c h
  have hquiet : c.Quiet → P (calls ++ [c]) (echoCan.step (echoCan.run ec calls) c).1 := by
    intro hc
    obtain ⟨txDc, adaptionMode, snapshot, hstep⟩ := echoCan_step_quiet (echoCan.run ec calls) hc
    rw [hstep]
    exact quiet calls c txDc adaptionMode snapshot hc h
  cases c with
  | update tx rx => exact update calls tx rx h
  | flush => exact flush calls h
  | hpfTx tx => exact hquiet trivial
  | adaptionMode mode => exact hquiet trivial
  | snapshot => exact hquiet trivial

def EchoCanCore.flush (c : EchoCanCore) : EchoCanCore :=
  { c with
    ltx := ⟨0, 0⟩, lrx := ⟨0, 0⟩, lclean := ⟨0, 0⟩, lcleanBg := ⟨0, 0⟩
    txDc := ⟨0, 0⟩, rxDc := ⟨0, 0⟩
    lbgn := ⟨0, 0⟩, lbgnUpper := ⟨(200 : ℤ) <<< (13 : ℕ), 200⟩
    nonupdateDwell := 0
    firTaps16Fg := List.replicate c.taps 0, firTaps16Bg := List.replicate c.taps 0
    pstates := 0 }

theorem echoCanFlush_eq (ec : EchoCan) :
    echoCanFlush ec =
      { toEchoCanCore := ec.toEchoCanCore.flush
        firState := { fir16Flush ec.firState with currPos := ec.taps - 1 }
        firStateBg := { fir16Flush ec.firStateBg with currPos := ec.taps - 1 }
        currPos := ec.taps - 1 } := by
  simp only [echoCanFlush, flushBody, List.foldl_cons, List.foldl_nil, FlushStmt.exec,
    EchoCanCore.flush, fir16Flush]

/-- No call changes the size of the canceller. -/
theorem echoCan_run_log2taps (len : ℕ) (mode : BitVec 32) (calls : List Call) :
    (echoCan.run (echoCanCreate len mode) calls).log2taps = topBit (BitVec.ofNat 32 len) := by
  refine echoCan_run_induction (P := fun _ ec => ec.log2taps = topBit (BitVec.ofNat 32 len))
    rfl ?_ ?_ ?_ calls
  · intro calls tx rx h
    exact (echoCanUpdate_spec _ tx rx).log2taps.trans h
  · intro calls h
    rw [echoCanFlush_eq]
    exact h
  · intro calls c txDc mode snapshot _ h
    exact h

/-! ### What a run has been given since the last flush -/

/-- The calls since the last flush, most recent first. -/
def sinceFlush (calls : List Call) : List Call := calls.reverse.takeWhile (· ≠ .flush)

def Call.tx? : Call → Option ℤ
  | .update tx _ => some (txIn tx)
  | _ => none

/-- The halved transmit samples since the last flush, most recent first. -/
def txHistory (calls : List Call) : List ℤ := (sinceFlush calls).filterMap Call.tx?

@[simp] theorem sinceFlush_concat (calls : List Call) (c : Call) :
    sinceFlush (calls ++ [c]) = if c = .flush then [] else c :: sinceFlush calls := by
  by_cases hc : c = .flush
  · simp [sinceFlush, hc]
  · simp [sinceFlush, hc]

@[simp] theorem txHistory_update (calls : List Call) (tx rx : Int16) :
    txHistory (calls ++ [.update tx rx]) = txIn tx :: txHistory calls := by
  simp [txHistory, Call.tx?]

@[simp] theorem txHistory_flush (calls : List Call) : txHistory (calls ++ [.flush]) = [] := by
  simp [txHistory]

theorem Call.Quiet.ne_flush {c : Call} (hc : c.Quiet) : c ≠ .flush := by
  rintro rfl
  exact hc

theorem Call.Quiet.tx?_eq {c : Call} (hc : c.Quiet) : c.tx? = none := by
  cases c <;> first | rfl | exact hc.elim

theorem txHistory_quiet {c : Call} (calls : List Call) (hc : c.Quiet) :
    txHistory (calls ++ [c]) = txHistory calls := by
  simp [txHistory, hc.ne_flush, hc.tx?_eq]

/-- `calls` goes on with this update once the calls `pre` have been made. -/
def UpdateAt (calls pre : List Call) (tx rx : Int16) : Prop :=
  pre ++ [.update tx rx] <+: calls

/-- The updates of a run, each behind the calls before it. -/
def updates (calls : List Call) : List (List Call × Int16 × Int16) :=
  (List.range calls.length).filterMap fun i =>
    match (calls[i]? : Option Call) with
    | some (.update tx rx) => some (calls.take i, tx, rx)
    | _ => none

theorem mem_updates {calls pre : List Call} {tx rx : Int16} :
    (pre, tx, rx) ∈ updates calls ↔ UpdateAt calls pre tx rx := by
  rw [updates, List.mem_filterMap]
  constructor
  · rintro ⟨i, -, hi⟩
    split at hi
    case h_1 tx' rx' hget =>
      obtain ⟨rfl, rfl, rfl⟩ : calls.take i = pre ∧ tx' = tx ∧ rx' = rx := by simpa using hi
      rw [UpdateAt, ← Option.toList_some, ← hget, ← List.take_add_one]
      exact List.take_prefix _ _
    case h_2 => cases hi
  · rintro ⟨rest, rfl⟩
    refine ⟨pre.length, ?_, ?_⟩
    · simp
    · simp

/-- What is said of all the updates of a run can be tried out on it. -/
instance {calls : List Call} {P : List Call → Int16 → Int16 → Prop}
    [∀ pre tx rx, Decidable (P pre tx rx)] :
    Decidable (∀ pre tx rx, UpdateAt calls pre tx rx → P pre tx rx) :=
  decidable_of_iff (∀ u ∈ updates calls, P u.1 u.2.1 u.2.2)
    ⟨fun h pre tx rx hat => h (pre, tx, rx) (mem_updates.mpr hat),
      fun h _ hu => h _ _ _ (mem_updates.mp hu)⟩

instance {calls : List Call} {P : List Call → Prop} [DecidablePred P] :
    Decidable (∀ pre, pre <+: calls → P pre) :=
  decidable_of_iff (∀ pre ∈ calls.inits, P pre)
    (forall_congr' fun pre => imp_congr_left (List.mem_inits pre calls))

/-! ### One ring under the three positions -/

/-- Both filter states and `curr_pos` are those of one ring, and the tap arrays
have its size. -/
structure EchoCan.Represents {n : ℕ} (ec : EchoCan) (r : RingBuffer ℤ n) : Prop where
  taps : ec.taps = n
  currPos : ec.currPos = r.pos
  fir : ec.firState.Holds r
  firBg : ec.firStateBg.Holds r
  lengthFg : ec.firTaps16Fg.length = n
  lengthBg : ec.firTaps16Bg.length = n

/-- What a call does to the ring. -/
def ringStep {n : ℕ} (r : RingBuffer ℤ n) : Call → RingBuffer ℤ n
  | .update tx _ => r.push (txIn tx)
  | .flush => RingBuffer.fill 0 (Nat.sub_lt (Nat.zero_lt_of_lt r.pos_lt) Nat.one_pos)
  | _ => r

theorem getD_replicate (n k : ℕ) (x : ℤ) :
    (List.replicate n x).getD k 0 = if k < n then x else 0 := by
  rw [List.getD_eq_getElem?_getD, List.getElem?_replicate]
  split <;> rfl

theorem getD_replicate_zero (n k : ℕ) : (List.replicate n (0 : ℤ)).getD k 0 = 0 := by
  rw [getD_replicate, ite_self]

theorem getD_window_fill {n p k : ℕ} (hp : p < n) :
    (RingBuffer.fill (0 : ℤ) hp).window.getD k 0 = 0 := by
  rw [RingBuffer.window_fill, getD_replicate_zero]

theorem echoCanCreate_represents {n : ℕ} (hn : 0 < n) (mode : BitVec 32) :
    (echoCanCreate n mode).Represents (RingBuffer.fill 0 (Nat.sub_lt hn Nat.one_pos)) where
  taps := rfl
  currPos := (fir16Create_holds hn).currPos
  fir := fir16Create_holds hn
  firBg := fir16Create_holds hn
  lengthFg := List.length_replicate
  lengthBg := List.length_replicate

theorem lmsAdaptBg_length (taps : ℕ) (currPos : ℤ) (history firTaps : List ℤ) (clean shift : ℤ) :
    (lmsAdaptBg taps currPos history firTaps clean shift).length = firTaps.length := by
  simp only [lmsAdaptBg]
  induction ringIndices taps currPos generalizing firTaps with
  | nil => rfl
  | cons p ps ih => simp only [List.foldl_cons, ih, List.length_modify]

theorem EchoCan.tapsBgNext_length (ec : EchoCan) (tx rx : Int16) :
    (ec.tapsBgNext tx rx).length = ec.firTaps16Bg.length := by
  rw [EchoCan.tapsBgNext]
  split
  · rw [lmsAdaptBg_length]
  · rfl

theorem EchoCan.Represents.update {n : ℕ} {ec : EchoCan} {r : RingBuffer ℤ n}
    (h : ec.Represents r) (tx rx : Int16) :
    (echoCanUpdate ec tx rx).1.Represents (r.push (txIn tx)) := by
  have hspec := echoCanUpdate_spec ec tx rx
  have hbg : (echoCanUpdate ec tx rx).1.firTaps16Bg.length = n := by
    rw [hspec.firTaps16Bg, ec.tapsBgNext_length, h.lengthBg]
  exact {
    taps := by rw [hspec.taps, h.taps]
    currPos := by
      rw [hspec.currPos, h.taps, h.currPos, rollPos_eq_retreat r.pos_lt]
      rfl
    fir := by
      rw [hspec.firState]
      exact (fir16_spec h.fir _ _).1
    firBg := by
      rw [hspec.firStateBg]
      exact (fir16_spec h.firBg _ _).1
    lengthFg := by
      rw [hspec.firTaps16Fg]
      split
      · exact hbg
      · exact h.lengthFg
    lengthBg := hbg
  }

theorem EchoCan.Represents.flush {n : ℕ} {ec : EchoCan} {r : RingBuffer ℤ n}
    (h : ec.Represents r) : (echoCanFlush ec).Represents (ringStep r .flush) := by
  have hn : 0 < n := Nat.zero_lt_of_lt r.pos_lt
  have hpos : (ec.taps : ℤ) - 1 = ((n - 1 : ℕ) : ℤ) := by
    rw [h.taps]
    omega
  rw [echoCanFlush_eq]
  exact {
    taps := h.taps
    currPos := hpos
    fir := ⟨h.fir.taps, hpos, by simp only [fir16Flush, h.fir.taps]; rfl⟩
    firBg := ⟨h.firBg.taps, hpos, by simp only [fir16Flush, h.firBg.taps]; rfl⟩
    lengthFg := List.length_replicate.trans h.taps
    lengthBg := List.length_replicate.trans h.taps
  }

theorem EchoCan.Represents.quiet {n : ℕ} {ec : EchoCan} {r : RingBuffer ℤ n}
    (h : ec.Represents r) (txDc : DcFilter) (mode : BitVec 32) (snapshot : List ℤ) :
    { ec with txDc := txDc, adaptionMode := mode, snapshot := snapshot }.Represents r :=
  ⟨h.taps, h.currPos, h.fir, h.firBg, h.lengthFg, h.lengthBg⟩

/-- Every call moves the canceller's three positions as one ring. -/
theorem EchoCan.Represents.step {n : ℕ} {ec : EchoCan} {r : RingBuffer ℤ n}
    (h : ec.Represents r) (c : Call) : (echoCan.step ec c).1.Represents (ringStep r c) := by
  cases c with
  | update tx rx => exact h.update tx rx
  | flush => exact h.flush
  | hpfTx tx =>
      change (echoCanHpfTx ec tx).1.Represents r
      rw [echoCanHpfTx_eq]
      exact h.quiet _ _ _
  | adaptionMode mode => exact h.quiet _ _ _
  | snapshot => exact h.quiet _ _ _

/-- A ring that lists `H` lists the new sample followed by `H` after a push. -/
theorem getD_window_push {n : ℕ} {r : RingBuffer ℤ n} {H : List ℤ}
    (h : ∀ k < n, r.window.getD k 0 = H.getD k 0) (a : ℤ) :
    ∀ k < n, (r.push a).window.getD k 0 = (a :: H).getD k 0 := by
  intro k hk
  rw [RingBuffer.window_push]
  cases k with
  | zero => rfl
  | succ k =>
      have hdrop : r.window.dropLast.getD k 0 = r.window.getD k 0 := by
        rw [List.getD_eq_getElem?_getD, List.getD_eq_getElem?_getD, List.getElem?_dropLast,
          if_pos (by rw [RingBuffer.length_window]; omega)]
      rw [List.getD_cons_succ, List.getD_cons_succ, hdrop]
      exact h k (by omega)

/-- After any run the canceller represents a ring that lists the transmit
samples since the last flush. -/
theorem exists_ring_of_run {n : ℕ} (hn : 0 < n) (mode : BitVec 32) (calls : List Call) :
    ∃ r : RingBuffer ℤ n, (echoCan.run (echoCanCreate n mode) calls).Represents r ∧
      ∀ k < n, r.window.getD k 0 = (txHistory calls).getD k 0 := by
  refine echoCan_run_induction (P := fun calls ec => ∃ r : RingBuffer ℤ n, ec.Represents r ∧
    ∀ k < n, r.window.getD k 0 = (txHistory calls).getD k 0) ?_ ?_ ?_ ?_ calls
  · exact ⟨_, echoCanCreate_represents hn mode, fun k _ => getD_window_fill _⟩
  · rintro calls tx rx ⟨r, hr, hwindow⟩
    refine ⟨_, hr.update tx rx, ?_⟩
    rw [txHistory_update]
    exact getD_window_push hwindow (txIn tx)
  · rintro calls ⟨r, hr, hwindow⟩
    refine ⟨_, hr.flush, fun k _ => ?_⟩
    rw [txHistory_flush]
    exact getD_window_fill _
  · rintro calls c txDc mode snapshot hc ⟨r, hr, hwindow⟩
    refine ⟨r, hr.quiet txDc mode snapshot, ?_⟩
    rwa [txHistory_quiet calls hc]

end Oslec
