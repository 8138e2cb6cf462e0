import Oslec.Library.Mealy
import Mathlib.Data.Int.Notation
import Mathlib.Data.List.Flatten
import Mathlib.Logic.Function.Basic

/-!
The Zaptap sampler that the Zaptel patch puts around the echo canceller. One
function writes the first two entries of a triple and another the third; the
pointer moves in both, the counter in the second only, and the file operations
change what guards them at any time in between.
-/

namespace Oslec

/-! ### The sampler -/

def sampleBufSz : ℕ := 1000

inductive SampleState
  | idle | ping | pong
deriving DecidableEq

inductive SampleBuf
  | ping | pong
deriving DecidableEq

/-- The globals of the sampler. The pointer is `NULL` until the first open. -/
structure Zaptap where
  sampleState : SampleState
  samples : ℕ
  psample : Option (SampleBuf × ℕ)
  mem : SampleBuf → ℕ → Int16
  sampleCh : ℤ

inductive TapEvent
  | before (channo : ℤ) (rxlin txlin : Int16)
  | after (channo : ℤ) (rxlin : Int16)
  | sampleOpen
  | sampleRelease
  | setChannel (channo : ℤ)

/-- A write through the pointer, with the state it is made in. -/
structure Put where
  psample : Option (SampleBuf × ℕ)
  sampleState : SampleState

/-- The buffer that is being filled. -/
def SampleState.buffer : SampleState → SampleBuf
  | .pong => .pong
  | _ => .ping

namespace Zaptap

/-- The globals when the module has been loaded. -/
def load : Zaptap where
  sampleState := .idle
  samples := 0
  psample := none
  mem := fun _ _ => 0
  sampleCh := 1

/-- `*psample++ = x;` -/
def put (z : Zaptap) (x : Int16) : Zaptap :=
  match z.psample with
  | none => z
  | some (b, i) =>
      { z with
        mem := Function.update z.mem b (Function.update (z.mem b) i x)
        psample := some (b, i + 1) }

def target (z : Zaptap) : Put := ⟨z.psample, z.sampleState⟩

/-- The guard of both functions. -/
def Records (z : Zaptap) (channo : ℤ) : Prop := z.sampleState ≠ .idle ∧ channo = z.sampleCh

instance (z : Zaptap) (channo : ℤ) : Decidable (z.Records channo) :=
  inferInstanceAs (Decidable (_ ∧ _))

def sampleEchoBefore (z : Zaptap) (channo : ℤ) (rxlin txlin : Int16) : Zaptap × List Put :=
  if z.Records channo then
    ((z.put txlin).put rxlin, [z.target, (z.put txlin).target])
  else (z, [])

/-- The ping-pong logic, once the sample has been counted. -/
def swap (z : Zaptap) : Zaptap :=
  if sampleBufSz ≤ z.samples then
    if z.sampleState = .ping then
      { z with samples := 0, sampleState := .pong, psample := some (.pong, 0) }
    else { z with samples := 0, sampleState := .ping, psample := some (.ping, 0) }
  else z

def sampleEchoAfter (z : Zaptap) (channo : ℤ) (rxlin : Int16) : Zaptap × List Put :=
  if z.Records channo then
    (swap { z.put rxlin with samples := z.samples + 1 }, [z.target])
  else (z, [])

def sampleOpen (z : Zaptap) : Zaptap :=
  { z with psample := some (.ping, 0), samples := 0, sampleState := .ping }

def sampleRelease (z : Zaptap) : Zaptap := { z with sampleState := .idle, samples := 0 }

/-- `SAMPLE_SET_CHANNEL` of `sample_ioctl`. -/
def setChannel (z : Zaptap) (channo : ℤ) : Zaptap := { z with sampleCh := channo }

/-- What a buffer holds. -/
def contents (z : Zaptap) (b : SampleBuf) : List Int16 :=
  (List.range (3 * sampleBufSz)).map (z.mem b)

end Zaptap

/-- The sampler as a machine that reports its writes. -/
def zaptap : Mealy Zaptap TapEvent (List Put) where
  step z
    | .before channo rxlin txlin => z.sampleEchoBefore channo rxlin txlin
    | .after channo rxlin => z.sampleEchoAfter channo rxlin
    | .sampleOpen => (z.sampleOpen, [])
    | .sampleRelease => (z.sampleRelease, [])
    | .setChannel channo => (z.setChannel channo, [])

/-! ### The samples of a run -/

/-- One sample of one channel. -/
structure Sample where
  channo : ℤ
  txlin : Int16
  rxlin : Int16
  eclin : Int16

def Sample.triple (s : Sample) : List Int16 := [s.txlin, s.rxlin, s.eclin]

/-- A sample between the two functions. -/
structure Started where
  serial : ℕ
  txlin : Int16
  rxlin : Int16

/-- The sampler with a record, which it does not read, of the samples that have
passed it. -/
structure Recorder where
  tap : Zaptap
  /-- The number of the next sample. -/
  serial : ℕ
  inside : ℤ → Option Started
  /-- The sample whose triple has been begun in the current buffer. -/
  unfinished : Option ℕ
  /-- The samples that are through, in order. -/
  history : List Sample

def Recorder.load : Recorder where
  tap := Zaptap.load
  serial := 0
  inside := fun _ => none
  unfinished := none
  history := []

def recorder : Mealy Recorder TapEvent (List Put) where
  step o e :=
    let z := zaptap.step o.tap e
    match e with
    | .before channo rxlin txlin =>
        ({ tap := z.1
           serial := o.serial + 1
           inside := Function.update o.inside channo (some ⟨o.serial, txlin, rxlin⟩)
           unfinished := if o.tap.Records channo then some o.serial else o.unfinished
           history := o.history }, z.2)
    | .after channo rxlin =>
        ({ tap := z.1
           serial := o.serial
           inside := Function.update o.inside channo none
           unfinished := if o.tap.Records channo then none else o.unfinished
           history := o.history ++
             ((o.inside channo).map fun x => Sample.mk channo x.txlin x.rxlin rxlin).toList },
          z.2)
    | .sampleOpen => ({ o with tap := z.1, unfinished := none }, z.2)
    | _ => ({ o with tap := z.1 }, z.2)

/-- The two functions are called in turn for the samples of each channel. -/
def Paired (o : Recorder) : TapEvent → Prop
  | .before channo _ _ => o.inside channo = none
  | .after channo _ => o.inside channo ≠ none
  | _ => True

/-- A run of the sampler from the load of the module. -/
def TapRun (events : List TapEvent) : Prop :=
  ∀ t ∈ recorder.trace Recorder.load events, Paired t.before t.input

/-! ### What is asked of a step -/

/-- The write falls into the buffer that is being filled. -/
def Put.Inside (p : Put) : Prop :=
  ∃ i < 3 * sampleBufSz, p.psample = some (p.sampleState.buffer, i)

/-- The writes of a step fall into the current buffer, and a buffer that it
completes holds the triples of as many samples, in order. -/
structure StepSound (o : Recorder) (e : TapEvent) : Prop where
  puts : ∀ p ∈ (recorder.step o e).2, p.Inside
  swapped : ∀ channo rxlin, e = .after channo rxlin →
    (recorder.step o e).1.tap.sampleState ≠ o.tap.sampleState →
    ∃ ss : List Sample, ss.length = sampleBufSz ∧ ss.Sublist (recorder.step o e).1.history ∧
      (recorder.step o e).1.tap.contents o.tap.sampleState.buffer = ss.flatMap Sample.triple

/-- What is recorded begins a triple where none is unfinished, and ends the one
that it has begun itself. -/
def Orderly (o : Recorder) : TapEvent → Prop
  | .before channo _ _ => o.tap.Records channo → o.unfinished = none
  | .after channo _ => o.tap.Records channo →
      ∃ x, o.inside channo = some x ∧ o.unfinished = some x.serial
  | _ => True

/-! ### One write -/

theorem Zaptap.put_eq {z : Zaptap} {b : SampleBuf} {i : ℕ} (h : z.psample = some (b, i))
    (x : Int16) :
    z.put x = { z with
      mem := Function.update z.mem b (Function.update (z.mem b) i x)
      psample := some (b, i + 1) } := by
  rw [put, h]

theorem Zaptap.mem_put {z : Zaptap} {b : SampleBuf} {i : ℕ} (h : z.psample = some (b, i))
    (x : Int16) (j : ℕ) : (z.put x).mem b j = if j = i then x else z.mem b j := by
  rw [put_eq h]
  dsimp only
  rw [Function.update_self, Function.update_apply]

theorem Zaptap.psample_put {z : Zaptap} {b : SampleBuf} {i : ℕ} (h : z.psample = some (b, i))
    (x : Int16) : (z.put x).psample = some (b, i + 1) := by rw [put_eq h]

section

variable {z : Zaptap} {channo : ℤ}

theorem before_of_records (h : z.Records channo) (rxlin txlin : Int16) :
    zaptap.step z (.before channo rxlin txlin) =
      ((z.put txlin).put rxlin, [z.target, (z.put txlin).target]) := if_pos h

theorem before_of_not_records (h : ¬ z.Records channo) (rxlin txlin : Int16) :
    zaptap.step z (.before channo rxlin txlin) = (z, []) := if_neg h

theorem after_of_records (h : z.Records channo) (rxlin : Int16) :
    zaptap.step z (.after channo rxlin) =
      (Zaptap.swap { z.put rxlin with samples := z.samples + 1 }, [z.target]) := if_pos h

theorem after_of_not_records (h : ¬ z.Records channo) (rxlin : Int16) :
    zaptap.step z (.after channo rxlin) = (z, []) := if_neg h

end

theorem map_range_succ_triple (f : ℕ → Int16) (n : ℕ) :
    (List.range (3 * (n + 1))).map f =
      (List.range (3 * n)).map f ++ [f (3 * n), f (3 * n + 1), f (3 * n + 2)] := by
  rw [Nat.mul_succ, List.range_add, List.map_append]
  rfl

/-! ### The invariant -/

/-- The pointer and the counter are in step, and what has been counted is a
stretch of triples. -/
structure Aligned (o : Recorder) : Prop where
  samples_lt : o.tap.samples < sampleBufSz
  pointer : o.tap.psample = some (o.tap.sampleState.buffer,
    3 * o.tap.samples + if o.unfinished = none then 0 else 2)
  filled : ∃ ss : List Sample, ss.length = o.tap.samples ∧ ss.Sublist o.history ∧
    (List.range (3 * o.tap.samples)).map (o.tap.mem o.tap.sampleState.buffer) =
      ss.flatMap Sample.triple
  begun : ∀ channo x, o.inside channo = some x → o.unfinished = some x.serial →
    o.tap.mem o.tap.sampleState.buffer (3 * o.tap.samples) = x.txlin ∧
      o.tap.mem o.tap.sampleState.buffer (3 * o.tap.samples + 1) = x.rxlin

structure RecorderInv (o : Recorder) : Prop where
  inside : ∀ channo x, o.inside channo = some x → x.serial < o.serial
  unfinished : ∀ n, o.unfinished = some n → n < o.serial
  aligned : o.tap.sampleState ≠ .idle → Aligned o

theorem recorderInv_load : RecorderInv Recorder.load where
  inside := fun channo x h => by cases h
  unfinished := fun n h => by cases h
  aligned := fun h => absurd rfl h

theorem RecorderInv.inside_update {o : Recorder} (h : RecorderInv o) (channo : ℤ)
    (txlin rxlin : Int16) (channo' : ℤ) (x : Started)
    (hx : Function.update o.inside channo (some ⟨o.serial, txlin, rxlin⟩) channo' = some x) :
    x = ⟨o.serial, txlin, rxlin⟩ ∨ (o.inside channo' = some x ∧ x.serial < o.serial) := by
  rw [Function.update_apply] at hx
  split at hx
  · exact Or.inl (Option.some.inj hx).symm
  · exact Or.inr ⟨hx, h.inside channo' x hx⟩

theorem RecorderInv.serial_lt_succ {o : Recorder} (h : RecorderInv o) {channo : ℤ}
    {txlin rxlin : Int16} (channo' : ℤ) (x : Started)
    (hx : Function.update o.inside channo (some ⟨o.serial, txlin, rxlin⟩) channo' = some x) :
    x.serial < o.serial + 1 := by
  rcases h.inside_update channo txlin rxlin channo' x hx with rfl | ⟨-, hlt⟩
  · exact Nat.lt_succ_self _
  · exact Nat.lt_succ_of_lt hlt

theorem Zaptap.put_frame (z : Zaptap) (x : Int16) :
    (z.put x).sampleState = z.sampleState ∧ (z.put x).samples = z.samples := by
  cases h : z.psample with
  | none => rw [put, h]; exact ⟨rfl, rfl⟩
  | some p => rw [put, h]; exact ⟨rfl, rfl⟩

section

variable {o : Recorder} (h : Aligned o)

include h

/-- A recorded `before` starts a triple at the pointer. -/
theorem Aligned.sampleEchoBefore (hunfinished : o.unfinished = none) (rxlin txlin : Int16) :
    o.tap.target.Inside ∧ (o.tap.put txlin).target.Inside ∧
      ((o.tap.put txlin).put rxlin).psample =
        some (o.tap.sampleState.buffer, 3 * o.tap.samples + 2) ∧
      ((o.tap.put txlin).put rxlin).sampleState = o.tap.sampleState ∧
      ((o.tap.put txlin).put rxlin).samples = o.tap.samples ∧
      ∀ j, ((o.tap.put txlin).put rxlin).mem o.tap.sampleState.buffer j =
        if j = 3 * o.tap.samples + 1 then rxlin
        else if j = 3 * o.tap.samples then txlin
        else o.tap.mem o.tap.sampleState.buffer j := by
  have hpointer := h.pointer
  rw [if_pos hunfinished, Nat.add_zero] at hpointer
  have hsecond := Zaptap.psample_put hpointer txlin
  have hlt := h.samples_lt
  obtain ⟨hstate, hsamples⟩ := o.tap.put_frame txlin
  obtain ⟨hstate', hsamples'⟩ := (o.tap.put txlin).put_frame rxlin
  refine ⟨⟨3 * o.tap.samples, by omega, hpointer⟩, ⟨3 * o.tap.samples + 1, by omega, ?_⟩,
    Zaptap.psample_put hsecond rxlin, hstate'.trans hstate, hsamples'.trans hsamples, ?_⟩
  · rw [Zaptap.target, hstate]
    exact hsecond
  · intro j
    rw [Zaptap.mem_put hsecond, Zaptap.mem_put hpointer]

theorem Aligned.written_put {channo : ℤ} {x : Started} (hinside : o.inside channo = some x)
    (hunfinished : o.unfinished = some x.serial) (rxlin : Int16) :
    (List.range (3 * (o.tap.samples + 1))).map
        ((o.tap.put rxlin).mem o.tap.sampleState.buffer) =
      (List.range (3 * o.tap.samples)).map (o.tap.mem o.tap.sampleState.buffer) ++
        Sample.triple ⟨channo, x.txlin, x.rxlin, rxlin⟩ := by
  have hpointer := h.pointer
  rw [if_neg (by rw [hunfinished]; exact Option.some_ne_none _)] at hpointer
  obtain ⟨htx, hrx⟩ := h.begun channo x hinside hunfinished
  have hold : ∀ j, j < 3 * o.tap.samples + 2 →
      (o.tap.put rxlin).mem o.tap.sampleState.buffer j =
        o.tap.mem o.tap.sampleState.buffer j := by
    intro j hj
    rw [Zaptap.mem_put hpointer, if_neg (by omega)]
  have hnew : (o.tap.put rxlin).mem o.tap.sampleState.buffer (3 * o.tap.samples + 2) =
      rxlin := by rw [Zaptap.mem_put hpointer, if_pos rfl]
  rw [map_range_succ_triple, hnew, hold _ (by omega), hold _ (by omega), htx, hrx]
  congr 1
  refine List.map_congr_left fun j hj => hold j ?_
  have hj := List.mem_range.mp hj
  omega

/-- A recorded `after` ends the triple of its own sample. -/
theorem Aligned.sampleEchoAfter {channo : ℤ} {x : Started} (hinside : o.inside channo = some x)
    (hunfinished : o.unfinished = some x.serial) (rxlin : Int16) :
    o.tap.target.Inside ∧
      (o.tap.put rxlin).sampleState = o.tap.sampleState ∧
      (o.tap.put rxlin).psample =
        some (o.tap.sampleState.buffer, 3 * (o.tap.samples + 1)) ∧
      ∃ ss : List Sample, ss.length = o.tap.samples + 1 ∧
        ss.Sublist (o.history ++ [⟨channo, x.txlin, x.rxlin, rxlin⟩]) ∧
        (List.range (3 * (o.tap.samples + 1))).map
            ((o.tap.put rxlin).mem o.tap.sampleState.buffer) = ss.flatMap Sample.triple := by
  have hpointer := h.pointer
  rw [if_neg (by rw [hunfinished]; exact Option.some_ne_none _)] at hpointer
  have hlt := h.samples_lt
  obtain ⟨ss, hlength, hsublist, hfilled⟩ := h.filled
  refine ⟨⟨_, by omega, hpointer⟩, (o.tap.put_frame rxlin).1,
    Zaptap.psample_put hpointer rxlin, ss ++ [⟨channo, x.txlin, x.rxlin, rxlin⟩], ?_,
    hsublist.append (List.Sublist.refl _), ?_⟩
  · rw [List.length_append, hlength]
    rfl
  · rw [h.written_put hinside hunfinished, hfilled, List.flatMap_append, List.flatMap_singleton]

end

/-! ### One step -/

theorem RecorderInv.before_recorded {o : Recorder} (h : RecorderInv o) {channo : ℤ}
    {rxlin txlin : Int16} (hrec : o.tap.Records channo) (hempty : o.unfinished = none) :
    RecorderInv (recorder.step o (.before channo rxlin txlin)).1 ∧
      ∀ p ∈ (recorder.step o (.before channo rxlin txlin)).2, p.Inside := by
  have halign := h.aligned hrec.1
  obtain ⟨hfirst, hsecond, hpointer, hstate, hsamples, hmem⟩ :=
    halign.sampleEchoBefore hempty rxlin txlin
  have hstep := before_of_records hrec rxlin txlin
  simp only [recorder, hstep, if_pos hrec]
  refine ⟨⟨?_, ?_, fun _ => ⟨?_, ?_, ?_, ?_⟩⟩, ?_⟩
  · exact h.serial_lt_succ
  · intro n hn
    rw [← Option.some.inj hn]
    exact Nat.lt_succ_self _
  · rw [hsamples]
    exact halign.samples_lt
  · rw [hpointer, hstate, hsamples, if_neg (Option.some_ne_none _)]
  · obtain ⟨ss, hlength, hsublist, hfilled⟩ := halign.filled
    refine ⟨ss, hlength.trans hsamples.symm, hsublist, ?_⟩
    rw [← hfilled, hstate, hsamples]
    apply List.map_congr_left
    intro j hj
    have hj := List.mem_range.mp hj
    rw [hmem, if_neg (by omega), if_neg (by omega)]
  · intro channo' x hx hserial
    rcases h.inside_update channo txlin rxlin channo' x hx with rfl | ⟨-, hlt⟩
    · rw [hstate, hsamples, hmem, hmem, if_neg (by omega), if_pos rfl, if_pos rfl]
      exact ⟨rfl, rfl⟩
    · rw [Option.some.inj hserial] at hlt
      exact absurd hlt (Nat.lt_irrefl _)
  · intro p hp
    rcases List.mem_cons.mp hp with rfl | hp
    · exact hfirst
    · rw [List.mem_singleton.mp hp]
      exact hsecond

theorem RecorderInv.before_skipped {o : Recorder} (h : RecorderInv o) {channo : ℤ}
    {rxlin txlin : Int16} (hrec : ¬ o.tap.Records channo) :
    RecorderInv (recorder.step o (.before channo rxlin txlin)).1 ∧
      ∀ p ∈ (recorder.step o (.before channo rxlin txlin)).2, p.Inside := by
  have hstep := before_of_not_records hrec rxlin txlin
  simp only [recorder, hstep, if_neg hrec]
  refine ⟨⟨h.serial_lt_succ, ?_, ?_⟩, fun p hp => by cases hp⟩
  · exact fun n hn => Nat.lt_succ_of_lt (h.unfinished n hn)
  · intro hstate
    obtain ⟨hlt, hpointer, hfilled, hbegun⟩ := h.aligned hstate
    refine ⟨hlt, hpointer, hfilled, ?_⟩
    intro channo' x hx hserial
    -- the new sample has begun no triple
    rcases h.inside_update channo txlin rxlin channo' x hx with rfl | ⟨hold, -⟩
    · exact absurd (h.unfinished _ hserial) (Nat.lt_irrefl _)
    · exact hbegun channo' x hold hserial

theorem RecorderInv.before {o : Recorder} (h : RecorderInv o) {channo : ℤ} {rxlin txlin : Int16}
    (horderly : Orderly o (.before channo rxlin txlin)) :
    RecorderInv (recorder.step o (.before channo rxlin txlin)).1 ∧
      ∀ p ∈ (recorder.step o (.before channo rxlin txlin)).2, p.Inside := by
  by_cases hrec : o.tap.Records channo
  · exact h.before_recorded hrec (horderly hrec)
  · exact h.before_skipped hrec

theorem inside_of_update_none {inside : ℤ → Option Started} {channo channo' : ℤ} {x : Started}
    (hx : Function.update inside channo none channo' = some x) : inside channo' = some x := by
  rw [Function.update_apply] at hx
  split at hx
  · cases hx
  · exact hx

theorem Zaptap.swap_of_lt {z : Zaptap} (hlt : z.samples < sampleBufSz) : z.swap = z :=
  if_neg (Nat.not_le_of_lt hlt)

theorem Zaptap.swap_of_ge {z : Zaptap} (hfull : sampleBufSz ≤ z.samples) :
    z.swap.samples = 0 ∧ z.swap.mem = z.mem ∧
      z.swap.psample = some (z.swap.sampleState.buffer, 0) := by
  rw [swap, if_pos hfull]
  split
  · exact ⟨rfl, rfl, rfl⟩
  · exact ⟨rfl, rfl, rfl⟩

theorem Zaptap.swap_of_full {z : Zaptap} (hfull : sampleBufSz ≤ z.samples)
    (hstate : z.sampleState ≠ .idle) :
    z.swap.samples = 0 ∧ z.swap.mem = z.mem ∧ z.swap.sampleState ≠ z.sampleState ∧
      z.swap.sampleState ≠ .idle := by
  obtain ⟨hzero, hmem, -⟩ := swap_of_ge hfull
  refine ⟨hzero, hmem, ?_⟩
  rw [swap, if_pos hfull]
  cases h : z.sampleState with
  | idle => exact absurd h hstate
  | ping => exact ⟨nofun, nofun⟩
  | pong => exact ⟨nofun, nofun⟩

theorem recorder_after_of_records {o : Recorder} {channo : ℤ} (hrec : o.tap.Records channo)
    {x : Started} (hx : o.inside channo = some x) (rxlin : Int16) :
    (recorder.step o (.after channo rxlin)).1 =
      { tap := Zaptap.swap { o.tap.put rxlin with samples := o.tap.samples + 1 }
        serial := o.serial
        inside := Function.update o.inside channo none
        unfinished := none
        history := o.history ++ [⟨channo, x.txlin, x.rxlin, rxlin⟩] } := by
  have hstep := after_of_records hrec rxlin
  simp only [recorder, hstep, if_pos hrec, hx]
  rfl

section

variable {o : Recorder} (h : RecorderInv o) {channo : ℤ} {rxlin : Int16}
  (hrec : o.tap.Records channo) {x : Started} (hx : o.inside channo = some x)
  (hunfinished : o.unfinished = some x.serial)

include h hrec hx hunfinished

theorem RecorderInv.puts_after : ∀ p ∈ (recorder.step o (.after channo rxlin)).2, p.Inside := by
  obtain ⟨hput, -⟩ := (h.aligned hrec.1).sampleEchoAfter hx hunfinished rxlin
  have hstep := after_of_records hrec rxlin
  simp only [recorder, hstep]
  intro p hp
  rw [List.mem_singleton.mp hp]
  exact hput

/-- The buffer goes on being filled. -/
theorem RecorderInv.after_lt (hlt : o.tap.samples + 1 < sampleBufSz) :
    RecorderInv (recorder.step o (.after channo rxlin)).1 ∧
      StepSound o (.after channo rxlin) := by
  obtain ⟨-, hstate, hpointer, ss, hlength, hsublist, hfilled⟩ :=
    (h.aligned hrec.1).sampleEchoAfter hx hunfinished rxlin
  have hnext := recorder_after_of_records hrec hx rxlin
  have hswap : Zaptap.swap { o.tap.put rxlin with samples := o.tap.samples + 1 } =
      { o.tap.put rxlin with samples := o.tap.samples + 1 } := Zaptap.swap_of_lt hlt
  rw [hswap] at hnext
  refine ⟨?_, ⟨h.puts_after hrec hx hunfinished, ?_⟩⟩
  · rw [hnext]
    refine ⟨fun channo' y hy => h.inside channo' y (inside_of_update_none hy),
      fun n hn => (by cases hn), fun _ => ⟨hlt, ?_, ⟨ss, hlength, hsublist, ?_⟩,
      fun _ y _ hy => by cases hy⟩⟩
    · show (o.tap.put rxlin).psample =
        some ((o.tap.put rxlin).sampleState.buffer, 3 * (o.tap.samples + 1))
      rw [hpointer, hstate]
    · rw [hstate]
      exact hfilled
  · intro _ _ _ hchange
    rw [hnext] at hchange
    exact absurd hstate hchange

/-- The other buffer is next, and holds nothing yet. -/
theorem RecorderInv.after_full (hfull : o.tap.samples + 1 = sampleBufSz) :
    RecorderInv (recorder.step o (.after channo rxlin)).1 ∧
      StepSound o (.after channo rxlin) := by
  obtain ⟨-, -, -, ss, hlength, hsublist, hfilled⟩ :=
    (h.aligned hrec.1).sampleEchoAfter hx hunfinished rxlin
  have hnext := recorder_after_of_records hrec hx rxlin
  obtain ⟨hsamples, hmem, hreset⟩ := Zaptap.swap_of_ge
    (z := { o.tap.put rxlin with samples := o.tap.samples + 1 }) (Nat.le_of_eq hfull.symm)
  refine ⟨?_, ⟨h.puts_after hrec hx hunfinished, ?_⟩⟩
  · rw [hnext]
    refine ⟨fun channo' y hy => h.inside channo' y (inside_of_update_none hy),
      fun n hn => (by cases hn), fun _ => ⟨?_, ?_, ⟨[], hsamples.symm, ?_, ?_⟩,
      fun _ y _ hy => by cases hy⟩⟩
    · rw [hsamples]
      decide
    · rw [hreset, hsamples, if_pos rfl]
    · exact List.nil_sublist _
    · rw [hsamples]
      rfl
  · intro _ _ _ _
    rw [hnext]
    refine ⟨ss, hlength.trans hfull, hsublist, ?_⟩
    rw [Zaptap.contents, hmem, ← hfull]
    exact hfilled

theorem RecorderInv.after_recorded :
    RecorderInv (recorder.step o (.after channo rxlin)).1 ∧
      StepSound o (.after channo rxlin) := by
  have hlt := (h.aligned hrec.1).samples_lt
  rcases Nat.lt_or_eq_of_le (Nat.succ_le_of_lt hlt) with hless | hfull
  · exact h.after_lt hrec hx hunfinished hless
  · exact h.after_full hrec hx hunfinished hfull

end

theorem RecorderInv.after_skipped {o : Recorder} (h : RecorderInv o) {channo : ℤ}
    {rxlin : Int16} (hrec : ¬ o.tap.Records channo) :
    RecorderInv (recorder.step o (.after channo rxlin)).1 ∧
      StepSound o (.after channo rxlin) := by
  have hstep := after_of_not_records hrec rxlin
  refine ⟨?_, ⟨?_, ?_⟩⟩
  · simp only [recorder, hstep, if_neg hrec]
    refine ⟨fun channo' y hy => h.inside channo' y (inside_of_update_none hy), h.unfinished, ?_⟩
    intro hstate
    obtain ⟨hlt, hpointer, ⟨ss, hlength, hsublist, hfilled⟩, hbegun⟩ := h.aligned hstate
    exact ⟨hlt, hpointer,
      ⟨ss, hlength, hsublist.trans (List.sublist_append_left _ _), hfilled⟩,
      fun channo' y hy => hbegun channo' y (inside_of_update_none hy)⟩
  · simp only [recorder, hstep]
    intro p hp
    cases hp
  · intro _ _ _ hchange
    simp only [recorder, hstep] at hchange
    exact absurd rfl hchange

theorem RecorderInv.after {o : Recorder} (h : RecorderInv o) {channo : ℤ} {rxlin : Int16}
    (horderly : Orderly o (.after channo rxlin)) :
    RecorderInv (recorder.step o (.after channo rxlin)).1 ∧
      StepSound o (.after channo rxlin) := by
  by_cases hrec : o.tap.Records channo
  · obtain ⟨x, hx, hunfinished⟩ := horderly hrec
    exact h.after_recorded hrec hx hunfinished
  · exact h.after_skipped hrec

/-- An open starts over, and the other file operations move neither the pointer
nor the counter of a sampler that goes on recording. -/
theorem RecorderInv.fileOperation {o : Recorder} (h : RecorderInv o) :
    RecorderInv (recorder.step o .sampleOpen).1 ∧
      RecorderInv (recorder.step o .sampleRelease).1 ∧
      ∀ channo, RecorderInv (recorder.step o (.setChannel channo)).1 := by
  refine ⟨?_, ?_, ?_⟩
  · refine ⟨h.inside, fun n hn => (by cases hn), fun _ => ⟨Nat.zero_lt_succ 999, rfl, ?_, ?_⟩⟩
    · exact ⟨[], rfl, List.nil_sublist _, rfl⟩
    · intro channo x _ hx
      cases hx
  · exact ⟨h.inside, h.unfinished, fun hstate => absurd rfl hstate⟩
  · intro channo
    refine ⟨h.inside, h.unfinished, fun hstate => ?_⟩
    obtain ⟨hlt, hpointer, hfilled, hbegun⟩ := h.aligned hstate
    exact ⟨hlt, hpointer, hfilled, hbegun⟩

theorem RecorderInv.step {o : Recorder} (h : RecorderInv o) {e : TapEvent}
    (horderly : Orderly o e) : RecorderInv (recorder.step o e).1 ∧ StepSound o e := by
  have hquiet : (recorder.step o e).2 = [] → (∀ channo rxlin, e ≠ .after channo rxlin) →
      StepSound o e := by
    intro hputs hafter
    refine ⟨?_, fun channo rxlin he => absurd he (hafter channo rxlin)⟩
    rw [hputs]
    intro p hp
    cases hp
  obtain ⟨hopen, hrelease, hset⟩ := h.fileOperation
  cases e with
  | before channo rxlin txlin =>
      obtain ⟨hinv, hputs⟩ := h.before horderly
      exact ⟨hinv, hputs, fun _ _ he => by cases he⟩
  | after channo rxlin => exact h.after horderly
  | sampleOpen => exact ⟨hopen, hquiet rfl fun _ _ he => by cases he⟩
  | sampleRelease => exact ⟨hrelease, hquiet rfl fun _ _ he => by cases he⟩
  | setChannel channo => exact ⟨hset channo, hquiet rfl fun _ _ he => by cases he⟩

theorem recorderInv_of_orderly {events : List TapEvent}
    (horderly : ∀ t ∈ recorder.trace Recorder.load events, Orderly t.before t.input) :
    ∀ t ∈ recorder.trace Recorder.load events, RecorderInv t.before :=
  recorder.trace_invariant (fun _ _ ho he => (ho.step he).1) recorderInv_load horderly

/-! ### File operations between samples -/

/-- An open or a channel change finds no sample between the two functions. -/
def BetweenSamples (o : Recorder) : TapEvent → Prop
  | .sampleOpen | .setChannel _ => ∀ channo, o.inside channo = none
  | _ => True

/-- While the sampler records, the unfinished triple is that of the sample
inside the sampled channel. -/
def InStep (o : Recorder) : Prop :=
  o.tap.sampleState ≠ .idle →
    o.unfinished = (o.inside o.tap.sampleCh).map Started.serial

theorem Zaptap.put_sampleCh (z : Zaptap) (x : Int16) : (z.put x).sampleCh = z.sampleCh := by
  cases h : z.psample with
  | none => rw [put, h]
  | some p => rw [put, h]

theorem Zaptap.swap_sampleCh (z : Zaptap) : z.swap.sampleCh = z.sampleCh := by
  rw [swap]
  split
  · split <;> rfl
  · rfl

theorem Zaptap.ne_of_not_records {z : Zaptap} {channo : ℤ} (h : ¬ z.Records channo)
    (hstate : z.sampleState ≠ .idle) : z.sampleCh ≠ channo :=
  fun heq => h ⟨hstate, heq.symm⟩

theorem InStep.before {o : Recorder} (h : InStep o) (channo : ℤ) (rxlin txlin : Int16) :
    InStep (recorder.step o (.before channo rxlin txlin)).1 := by
  by_cases hrec : o.tap.Records channo
  · have hstep := before_of_records hrec rxlin txlin
    intro _
    simp only [recorder, hstep, if_pos hrec, Zaptap.put_sampleCh, ← hrec.2, Function.update_self]
    rfl
  · have hstep := before_of_not_records hrec rxlin txlin
    simp only [InStep, recorder, hstep, if_neg hrec]
    intro hstate
    rw [Function.update_of_ne (Zaptap.ne_of_not_records hrec hstate)]
    exact h hstate

theorem InStep.after {o : Recorder} (h : InStep o) (channo : ℤ) (rxlin : Int16) :
    InStep (recorder.step o (.after channo rxlin)).1 := by
  by_cases hrec : o.tap.Records channo
  · have hstep := after_of_records hrec rxlin
    intro _
    simp only [recorder, hstep, if_pos hrec, Zaptap.swap_sampleCh, Zaptap.put_sampleCh,
      ← hrec.2, Function.update_self]
    rfl
  · have hstep := after_of_not_records hrec rxlin
    simp only [InStep, recorder, hstep, if_neg hrec]
    intro hstate
    rw [Function.update_of_ne (Zaptap.ne_of_not_records hrec hstate)]
    exact h hstate

theorem InStep.step {o : Recorder} (h : InStep o) {e : TapEvent} (he : BetweenSamples o e) :
    InStep (recorder.step o e).1 := by
  cases e with
  | before channo rxlin txlin => exact h.before channo rxlin txlin
  | after channo rxlin => exact h.after channo rxlin
  | sampleOpen =>
      intro _
      show none = (o.inside o.tap.sampleCh).map Started.serial
      rw [he o.tap.sampleCh]
      rfl
  | sampleRelease => exact fun hstate => absurd rfl hstate
  | setChannel channo =>
      intro hstate
      have hold := h hstate
      show o.unfinished = (o.inside channo).map Started.serial
      rw [hold, he o.tap.sampleCh, he channo]

theorem InStep.orderly {o : Recorder} (h : InStep o) {e : TapEvent} (hpaired : Paired o e) :
    Orderly o e := by
  cases e with
  | before channo rxlin txlin =>
      intro hrec
      rw [h hrec.1, ← hrec.2, hpaired]
      rfl
  | after channo rxlin =>
      intro hrec
      obtain ⟨x, hx⟩ := Option.ne_none_iff_exists'.mp hpaired
      refine ⟨x, hx, ?_⟩
      rw [h hrec.1, ← hrec.2, hx]
      rfl
  | _ => trivial

theorem orderly_of_betweenSamples {events : List TapEvent} (hpaired : TapRun events)
    (hbetween : ∀ t ∈ recorder.trace Recorder.load events, BetweenSamples t.before t.input) :
    ∀ t ∈ recorder.trace Recorder.load events, Orderly t.before t.input := by
  have hin : ∀ t ∈ recorder.trace Recorder.load events, InStep t.before :=
    recorder.trace_invariant (fun _ _ ho he => ho.step he) (fun h => absurd rfl h) hbetween
  exact fun t ht => (hin t ht).orderly (hpaired t ht)

/-- A sampler that is opened and switched between samples only is sound. -/
theorem stepSound_of_betweenSamples {events : List TapEvent} (hpaired : TapRun events)
    (hbetween : ∀ t ∈ recorder.trace Recorder.load events, BetweenSamples t.before t.input) :
    ∀ t ∈ recorder.trace Recorder.load events, StepSound t.before t.input := by
  have horderly := orderly_of_betweenSamples hpaired hbetween
  intro t ht
  exact ((recorderInv_of_orderly horderly t ht).step (horderly t ht)).2

/-! ### One sample after another -/

/-- One sample of the second channel. -/
def sampleEvents (rxlin txlin eclin : Int16) : List TapEvent :=
  [.before 2 rxlin txlin, .after 2 eclin]

/-- The sampler has counted `n` samples of the second channel since the open, and
its pointer is ahead of the counter by `slip` entries. -/
structure Filling (slip n : ℕ) (o : Recorder) : Prop where
  sampleState : o.tap.sampleState = .ping
  sampleCh : o.tap.sampleCh = 2
  samples : o.tap.samples = n
  psample : o.tap.psample = some (.ping, 3 * n + slip)
  inside : o.inside 2 = none

theorem Filling.paired {slip n : ℕ} {o : Recorder} (h : Filling slip n o)
    (rxlin txlin eclin : Int16) :
    ∀ t ∈ recorder.trace o (sampleEvents rxlin txlin eclin), Paired t.before t.input := by
  simp [sampleEvents, recorder, Paired, h.inside]

theorem Filling.sample {slip n : ℕ} {o : Recorder} (h : Filling slip n o)
    (hn : n + 1 < sampleBufSz) (rxlin txlin eclin : Int16) :
    Filling slip (n + 1) (recorder.run o (sampleEvents rxlin txlin eclin)) := by
  obtain ⟨⟨sampleState, samples, psample, mem, sampleCh⟩, serial, inside, unfinished, history⟩ := o
  obtain ⟨hstate, hch, hsamples, hpsample, hinside⟩ := h
  dsimp only at hstate hch hsamples hpsample hinside
  subst hstate hch hsamples hpsample
  have hswap : ¬ sampleBufSz ≤ samples + 1 := by omega
  refine ⟨?_, ?_, ?_, ?_, ?_⟩ <;>
    simp [sampleEvents, recorder, zaptap, Zaptap.sampleEchoBefore, Zaptap.sampleEchoAfter,
      Zaptap.Records, Zaptap.put, Zaptap.swap, hswap]
  omega

theorem Filling.run {slip n : ℕ} {o : Recorder} (h : Filling slip n o) (k : ℕ)
    (hk : n + k < sampleBufSz) (rxlin txlin eclin : Int16) :
    Filling slip (n + k)
        (recorder.run o (List.replicate k (sampleEvents rxlin txlin eclin)).flatten) ∧
      ∀ t ∈ recorder.trace o (List.replicate k (sampleEvents rxlin txlin eclin)).flatten,
        Paired t.before t.input := by
  induction k generalizing n o with
  | zero => exact ⟨h, fun t ht => by cases ht⟩
  | succ k ih =>
      obtain ⟨hlast, hrest⟩ := ih (h.sample (by omega) rxlin txlin eclin) (by omega)
      rw [List.replicate_succ, List.flatten_cons, Mealy.run_append, Mealy.trace_append]
      refine ⟨?_, fun t ht => ?_⟩
      · rw [show n + (k + 1) = n + 1 + k by omega]
        exact hlast
      · rcases List.mem_append.mp ht with ht | ht
        · exact h.paired rxlin txlin eclin t ht
        · exact hrest t ht

/-- The second function of the last sample that fits is the one that swaps. -/
theorem Filling.swaps {slip : ℕ} {o : Recorder} (h : Filling slip 999 o)
    (rxlin txlin eclin : Int16) :
    (recorder.run o (sampleEvents rxlin txlin eclin)).tap.sampleState ≠
        (recorder.step o (.before 2 rxlin txlin)).1.tap.sampleState ∧
      (recorder.step o (.before 2 rxlin txlin)).1.tap.sampleState = .ping := by
  obtain ⟨⟨sampleState, samples, psample, mem, sampleCh⟩, serial, inside, unfinished, history⟩ := o
  obtain ⟨hstate, hch, hsamples, hpsample, hinside⟩ := h
  dsimp only at hstate hch hsamples hpsample hinside
  subst hstate hch hsamples hpsample
  simp [sampleEvents, recorder, zaptap, Zaptap.sampleEchoBefore, Zaptap.sampleEchoAfter,
    Zaptap.Records, Zaptap.put, Zaptap.swap, sampleBufSz]

/-- A buffer of samples of the second channel. -/
def bufferEvents (rxlin txlin eclin : Int16) : List TapEvent :=
  [.sampleOpen, .setChannel 2] ++
    ((List.replicate 999 (sampleEvents rxlin txlin eclin)).flatten ++
      sampleEvents rxlin txlin eclin)

theorem bufferEvents_orderly (rxlin txlin eclin : Int16) :
    ∀ t ∈ recorder.trace Recorder.load (bufferEvents rxlin txlin eclin),
      Orderly t.before t.input := by
  have hstart : Filling 0 0 (recorder.run Recorder.load [.sampleOpen, .setChannel 2]) :=
    ⟨rfl, rfl, rfl, rfl, rfl⟩
  obtain ⟨hfilling, hpaired⟩ := hstart.run 999 (by decide) rxlin txlin eclin
  have hopen : ∀ t ∈ recorder.trace Recorder.load [.sampleOpen, .setChannel 2],
      Paired t.before t.input ∧ BetweenSamples t.before t.input := by
    simp only [Mealy.trace_cons, Mealy.trace_nil, List.forall_mem_cons]
    exact ⟨⟨trivial, fun _ => rfl⟩, ⟨trivial, fun _ => rfl⟩, List.forall_mem_nil _⟩
  have hsamples : ∀ e ∈ (List.replicate 999 (sampleEvents rxlin txlin eclin)).flatten ++
      sampleEvents rxlin txlin eclin, ∀ o, BetweenSamples o e := by
    intro e he o
    obtain he : e ∈ sampleEvents rxlin txlin eclin := by
      rw [List.mem_append, List.mem_flatten] at he
      rcases he with ⟨events, hevents, he⟩ | he
      · rwa [List.eq_of_mem_replicate hevents] at he
      · exact he
    simp only [sampleEvents, List.mem_cons, List.not_mem_nil, or_false] at he
    rcases he with rfl | rfl <;> trivial
  apply orderly_of_betweenSamples <;> intro t ht <;> rw [bufferEvents, Mealy.trace_append] at ht
  · rcases List.mem_append.mp ht with ht | ht
    · exact (hopen t ht).1
    · rw [Mealy.trace_append] at ht
      rcases List.mem_append.mp ht with ht | ht
      · exact hpaired t ht
      · exact hfilling.paired rxlin txlin eclin t ht
  · rcases List.mem_append.mp ht with ht | ht
    · exact (hopen t ht).2
    · exact hsamples t.input (recorder.input_mem_of_mem_trace ht) t.before

/-! ### Sound runs -/

/-- In every run whose steps are all orderly, the sampler writes inside its
buffers and hands over aligned triples. -/
theorem zaptap_sound (events : List TapEvent)
    (horderly : ∀ t ∈ recorder.trace Recorder.load events, Orderly t.before t.input) :
    ∀ t ∈ recorder.trace Recorder.load events, StepSound t.before t.input := by
  intro t ht
  exact ((recorderInv_of_orderly horderly t ht).step (horderly t ht)).2

/-- The step that completes a buffer. -/
theorem zaptap_sound_buffer :
    ∃ ss : List Sample, ss.length = sampleBufSz ∧
      ss.Sublist (recorder.run Recorder.load (bufferEvents 5 7 3)).history ∧
      (recorder.run Recorder.load (bufferEvents 5 7 3)).tap.contents .ping =
        ss.flatMap Sample.triple := by
  have hstart : Filling 0 0 (recorder.run Recorder.load [.sampleOpen, .setChannel 2]) :=
    ⟨rfl, rfl, rfl, rfl, rfl⟩
  obtain ⟨hfilling, -⟩ := hstart.run 999 (by decide) 5 7 3
  have hsound := zaptap_sound (bufferEvents 5 7 3) (bufferEvents_orderly 5 7 3)
  rw [bufferEvents, Mealy.trace_append, Mealy.trace_append] at hsound
  rw [bufferEvents, Mealy.run_append, Mealy.run_append]
  generalize recorder.run (recorder.run Recorder.load [.sampleOpen, .setChannel 2])
    (List.replicate 999 (sampleEvents 5 7 3)).flatten = o at hfilling hsound ⊢
  obtain ⟨hswap, hping⟩ := hfilling.swaps 5 7 3
  have hlast : StepSound (recorder.step o (.before 2 5 7)).1 (.after 2 3) :=
    hsound ⟨_, _, _⟩ (List.mem_append_right _
      (List.mem_append_right _ (List.mem_cons_of_mem _ List.mem_cons_self)))
  have hcontents := hlast.swapped 2 3 rfl hswap
  rwa [hping] at hcontents

/-! ### A channel change within a sample -/

/-- The first channel is sampled from the open on, until the second is asked for
in the middle of a sample. -/
def slipEvents : List TapEvent :=
  [.sampleOpen, .before 1 0 0, .setChannel 2, .after 1 0] ++
    (List.replicate 999 (sampleEvents 0 0 0)).flatten ++ [.before 2 0 0]

/-- The second write of the last sample before the swap. -/
theorem Filling.put_outside {o : Recorder} (h : Filling 2 999 o) :
    ¬ ∀ p ∈ (recorder.step o (.before 2 0 0)).2, p.Inside := by
  intro hputs
  have hrec : o.tap.Records 2 := ⟨by rw [h.sampleState]; decide, h.sampleCh.symm⟩
  have hstep := before_of_records hrec 0 0
  have hsecond := Zaptap.psample_put h.psample 0
  obtain ⟨i, hi, hp⟩ := hputs (o.tap.put 0).target (by
    show _ ∈ (zaptap.step o.tap (.before 2 0 0)).2
    rw [hstep]
    exact List.mem_cons_of_mem _ List.mem_cons_self)
  have hi3000 : 3000 = i := congrArg Prod.snd (Option.some.inj (hsecond.symm.trans hp))
  rw [← hi3000] at hi
  exact absurd hi (by decide)

/-- A channel change between the two functions leaves the pointer two entries
ahead, and the last sample before the swap runs over the end of the buffer. -/
theorem sampler_leaves_its_buffers :
    TapRun slipEvents ∧
      ¬ ∀ t ∈ recorder.trace Recorder.load slipEvents, StepSound t.before t.input := by
  have hslip : Filling 2 0 (recorder.run Recorder.load
      [.sampleOpen, .before 1 0 0, .setChannel 2, .after 1 0]) :=
    ⟨rfl, rfl, rfl, rfl, rfl⟩
  have hstart : ∀ t ∈ recorder.trace Recorder.load
      [.sampleOpen, .before 1 0 0, .setChannel 2, .after 1 0], Paired t.before t.input := by
    simp [recorder, Paired, Recorder.load]
  obtain ⟨hlast, hpaired⟩ := hslip.run 999 (by decide) 0 0 0
  rw [TapRun, slipEvents, Mealy.trace_concat, Mealy.trace_append, Mealy.run_append]
  revert hstart hlast hpaired
  generalize recorder.run Recorder.load
    [.sampleOpen, .before 1 0 0, .setChannel 2, .after 1 0] = o
  generalize recorder.trace Recorder.load
    [.sampleOpen, .before 1 0 0, .setChannel 2, .after 1 0] = start
  generalize (List.replicate 999 (sampleEvents 0 0 0)).flatten = events
  intro hstart hlast hpaired
  refine ⟨?_, fun hsound => ?_⟩
  · intro t ht
    rcases List.mem_append.mp ht with ht | ht
    · rcases List.mem_append.mp ht with ht | ht
      · exact hstart t ht
      · exact hpaired t ht
    · rw [List.mem_singleton.mp ht]
      exact hlast.inside
  · have hputs := (hsound _ (List.mem_append_right _ List.mem_cons_self)).puts
    exact hlast.put_outside hputs

end Oslec
