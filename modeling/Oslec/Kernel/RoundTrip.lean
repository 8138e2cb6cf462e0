import Oslec.Kernel.Zaptap
import Oslec.Library.DoubleBuffer

/-!
The sampling program against the sampler. The program opens the device, asks for
a channel, and then reads one buffer after the other, taking the triples apart
into three files. Sampler and program make a double buffer whose consumer comes
in time; but sampling starts at the open, with the channel that was asked for
last.
-/

namespace Oslec

/-! ### The program -/

/-- The buffer that the state does not name. -/
def Zaptap.readBuffer (z : Zaptap) : SampleBuf :=
  if z.sampleState = .ping then .pong else .ping

/-- What `sample_read` copies to the program. -/
def Zaptap.sampleRead (z : Zaptap) : List Int16 := z.contents z.readBuffer

/-- What has been written to the `_tx`, `_rx` and `_ec` files. -/
structure SampleFiles where
  ftx : List Int16
  frx : List Int16
  fec : List Int16
deriving DecidableEq

def SampleFiles.empty : SampleFiles := ⟨[], [], []⟩

/-- The three calls of `fwrite`. -/
def SampleFiles.fwrite (f bufs : SampleFiles) : SampleFiles :=
  ⟨f.ftx ++ bufs.ftx, f.frx ++ bufs.frx, f.fec ++ bufs.fec⟩

/-- The demultiplexing loop with `n` rounds to go. -/
def demultiplex : ℕ → List Int16 → SampleFiles
  | n + 1, tx :: rx :: ec :: pbuf =>
      ⟨tx :: (demultiplex n pbuf).ftx, rx :: (demultiplex n pbuf).frx,
        ec :: (demultiplex n pbuf).fec⟩
  | _, _ => .empty

/-- The sampler together with the program that reads from it. -/
structure Sampling where
  recorder : Recorder
  /-- How often the buffers have been swapped since the open. -/
  swaps : ℕ
  /-- The program is inside `sample_read`. -/
  asleep : Bool
  reads : ℕ
  files : SampleFiles

/-- What the kernel does, the calls of the program other than `read` included, and
the two halves of a `read`. -/
inductive SamplingAction
  | kernel (e : TapEvent)
  | sleep
  | copy

namespace Sampling

def load : Sampling where
  recorder := Recorder.load
  swaps := 0
  asleep := false
  reads := 0
  files := .empty

def kernel (s : Sampling) (e : TapEvent) : Sampling :=
  let o := (Oslec.recorder.step s.recorder e).1
  { s with
    recorder := o
    swaps :=
      match e with
      | .sampleOpen => 0
      | .after _ _ =>
          if o.tap.sampleState = s.recorder.tap.sampleState then s.swaps else s.swaps + 1
      | _ => s.swaps }

def copy (s : Sampling) : Sampling :=
  { s with
    asleep := false
    reads := s.reads + 1
    files := s.files.fwrite (demultiplex sampleBufSz s.recorder.tap.sampleRead) }

end Sampling

def sampling : Mealy Sampling SamplingAction Unit where
  step s
    | .kernel e => (s.kernel e, ())
    | .sleep => ({ s with asleep := true }, ())
    | .copy => (s.copy, ())

/-! ### Its runs -/

def TapEvent.channo? : TapEvent → Option ℤ
  | .before channo _ _ => some channo
  | .after channo _ => some channo
  | _ => none

/-- Samples are only asked for between the two functions, and every read sleeps
before its swap and copies before the next one. -/
def Admissible (s : Sampling) : SamplingAction → Prop
  | .kernel e => Paired s.recorder e ∧ BetweenSamples s.recorder e
  | .sleep => s.asleep = false ∧ s.swaps < s.reads + 1
  | .copy => s.asleep = true ∧ s.swaps = s.reads + 1

/-- Samples of any channel, and reads. -/
def SamplingAction.Continues : SamplingAction → Prop
  | .kernel e => e.channo?.isSome
  | _ => True

/-- A run of the program: what has happened before it, the open, the samples up
to the `ioctl` that asks for channel `c`, and the samples and reads from then on. -/
def samplingRun (past opened : List TapEvent) (c : ℤ) (rest : List SamplingAction) :
    List SamplingAction :=
  past.map .kernel ++
    (.kernel .sampleOpen :: (opened.map .kernel ++ .kernel (.setChannel c) :: rest))

structure ProgramRun (past opened : List TapEvent) (c : ℤ) (rest : List SamplingAction) : Prop where
  samples : ∀ e ∈ opened, e.channo?.isSome
  continues : ∀ a ∈ rest, a.Continues
  admissible : ∀ t ∈ sampling.trace Sampling.load (samplingRun past opened c rest),
    Admissible t.before t.input

/-- The samples since the open, `opened` having been through before it. -/
def Sampling.sinceOpen (s : Sampling) (opened : ℕ) : List Sample := s.recorder.history.drop opened

/-- Of the samples since the open, the files hold as many consecutive ones of
channel `c` as the reads have taken, each in its place. -/
def RoundTrip (c : ℤ) (opened : ℕ) (s : Sampling) : Prop :=
  ∃ ss : List Sample, ss.length = s.reads * sampleBufSz ∧
    ss <:+: (s.sinceOpen opened).filter (·.channo = c) ∧
    s.files = ⟨ss.map Sample.txlin, ss.map Sample.rxlin, ss.map Sample.eclin⟩

/-- The channel that was selected when the device was opened. -/
def previousChannel (past : List TapEvent) : ℤ := (recorder.run Recorder.load past).tap.sampleCh

/-- How many samples were through when the device was opened. -/
def samplesBefore (past : List TapEvent) : ℕ := (recorder.run Recorder.load past).history.length

/-! ### Triples apart -/

def SampleFiles.of (ss : List Sample) : SampleFiles :=
  ⟨ss.map Sample.txlin, ss.map Sample.rxlin, ss.map Sample.eclin⟩

theorem demultiplex_flatMap (ss : List Sample) :
    demultiplex ss.length (ss.flatMap Sample.triple) = .of ss := by
  induction ss with
  | nil => rfl
  | cons s ss ih =>
      change demultiplex (ss.length + 1)
        (s.txlin :: s.rxlin :: s.eclin :: ss.flatMap Sample.triple) = _
      rw [demultiplex, ih]
      rfl

theorem SampleFiles.fwrite_of (ss ss' : List Sample) :
    (SampleFiles.of ss).fwrite (.of ss') = .of (ss ++ ss') := by
  simp only [of, fwrite, List.map_append]

/-! ### The sampler as a double buffer -/

theorem Zaptap.mem_put_of_ne {z : Zaptap} {b : SampleBuf} {i : ℕ} (h : z.psample = some (b, i))
    (x : Int16) {b' : SampleBuf} (hb : b' ≠ b) : (z.put x).mem b' = z.mem b' := by
  rw [put_eq h]
  exact Function.update_of_ne hb _ _

theorem Zaptap.readBuffer_ne {z : Zaptap} (hstate : z.sampleState ≠ .idle) :
    z.readBuffer ≠ z.sampleState.buffer := by
  unfold readBuffer
  cases h : z.sampleState with
  | idle => exact absurd h hstate
  | ping => decide
  | pong => decide

/-- What is read does not change as long as only the current buffer is written. -/
theorem Zaptap.sampleRead_congr {z z' : Zaptap} (hstate : z'.sampleState = z.sampleState)
    (hmem : z'.mem z.readBuffer = z.mem z.readBuffer) : z'.sampleRead = z.sampleRead := by
  have hbuffer : z'.readBuffer = z.readBuffer := by rw [readBuffer, readBuffer, hstate]
  rw [sampleRead, sampleRead, hbuffer, contents, contents, hmem]

theorem Zaptap.readBuffer_swap {z : Zaptap} (hfull : sampleBufSz ≤ z.samples)
    (hstate : z.sampleState ≠ .idle) : z.swap.readBuffer = z.sampleState.buffer := by
  rw [swap, if_pos hfull]
  cases h : z.sampleState with
  | idle => exact absurd h hstate
  | ping => rfl
  | pong => rfl

/-- The memory of the sampler holds what a double buffer holds. -/
structure Sampling.Holds (s : Sampling) (d : DoubleBuffer Sample) : Prop where
  recording : s.recorder.tap.sampleState ≠ .idle
  samples : s.recorder.tap.samples = d.filling.length
  filling : (List.range (3 * s.recorder.tap.samples)).map
    (s.recorder.tap.mem s.recorder.tap.sampleState.buffer) = d.filling.flatMap Sample.triple
  full : 0 < d.swaps → s.recorder.tap.sampleRead = d.full.flatMap Sample.triple
  swaps : s.swaps = d.swaps
  reads : s.reads = d.takes
  files : s.files = .of d.taken

section

variable {s : Sampling} {d : DoubleBuffer Sample} (h : s.Holds d)

include h

theorem Sampling.Holds.before (hinv : RecorderInv s.recorder) {channo : ℤ} {rxlin txlin : Int16}
    (horderly : Orderly s.recorder (.before channo rxlin txlin)) :
    (s.kernel (.before channo rxlin txlin)).Holds d := by
  by_cases hrec : s.recorder.tap.Records channo
  · have halign := hinv.aligned hrec.1
    have hempty := horderly hrec
    have hpointer := halign.pointer
    rw [if_pos hempty, Nat.add_zero] at hpointer
    obtain ⟨-, -, -, hstate, hsamples, hmem⟩ := halign.sampleEchoBefore hempty rxlin txlin
    have hother := Zaptap.readBuffer_ne h.recording
    have hread : ((s.recorder.tap.put txlin).put rxlin).sampleRead =
        s.recorder.tap.sampleRead := by
      apply Zaptap.sampleRead_congr hstate
      rw [Zaptap.mem_put_of_ne (Zaptap.psample_put hpointer txlin) rxlin hother,
        Zaptap.mem_put_of_ne hpointer txlin hother]
    have hnext : (s.kernel (.before channo rxlin txlin)).recorder.tap =
        (s.recorder.tap.put txlin).put rxlin :=
      congrArg Prod.fst (before_of_records hrec rxlin txlin)
    refine ⟨?_, ?_, ?_, ?_, h.swaps, h.reads, h.files⟩
    · rw [hnext, hstate]
      exact h.recording
    · rw [hnext, hsamples, h.samples]
    · rw [hnext, hsamples, hstate, ← h.filling]
      apply List.map_congr_left
      intro j hj
      have hj := List.mem_range.mp hj
      rw [hmem, if_neg (by omega), if_neg (by omega)]
    · rw [hnext, hread]
      exact h.full
  · have hnext : (s.kernel (.before channo rxlin txlin)).recorder.tap = s.recorder.tap :=
      congrArg Prod.fst (before_of_not_records hrec rxlin txlin)
    refine ⟨?_, ?_, ?_, ?_, h.swaps, h.reads, h.files⟩
    all_goals rw [hnext]
    · exact h.recording
    · exact h.samples
    · exact h.filling
    · exact h.full

theorem Sampling.Holds.after_skipped {channo : ℤ} {rxlin : Int16}
    (hrec : ¬ s.recorder.tap.Records channo) : (s.kernel (.after channo rxlin)).Holds d := by
  have hnext : (s.kernel (.after channo rxlin)).recorder.tap = s.recorder.tap :=
    congrArg Prod.fst (after_of_not_records hrec rxlin)
  have hswaps : (s.kernel (.after channo rxlin)).swaps = s.swaps :=
    if_pos (congrArg Zaptap.sampleState hnext)
  refine ⟨?_, ?_, ?_, ?_, hswaps.trans h.swaps, h.reads, h.files⟩
  all_goals rw [hnext]
  · exact h.recording
  · exact h.samples
  · exact h.filling
  · exact h.full

/-- What the current buffer holds once the third of the triple is written. -/
theorem Sampling.Holds.written (hinv : RecorderInv s.recorder) {channo : ℤ} {x : Started}
    (hx : s.recorder.inside channo = some x) (hunfinished : s.recorder.unfinished = some x.serial)
    (rxlin : Int16) :
    (List.range (3 * (s.recorder.tap.samples + 1))).map
        ((s.recorder.tap.put rxlin).mem s.recorder.tap.sampleState.buffer) =
      (d.filling ++ [Sample.mk channo x.txlin x.rxlin rxlin]).flatMap Sample.triple := by
  have hwritten := (hinv.aligned h.recording).written_put hx hunfinished rxlin
  rw [hwritten, h.filling, List.flatMap_append, List.flatMap_singleton]

/-- The last sample of a buffer swaps the two. -/
theorem Sampling.Holds.after_full (hinv : RecorderInv s.recorder) {channo : ℤ} {rxlin : Int16}
    (hrec : s.recorder.tap.Records channo) {x : Started} (hx : s.recorder.inside channo = some x)
    (hunfinished : s.recorder.unfinished = some x.serial)
    (hfull : sampleBufSz ≤ s.recorder.tap.samples + 1) :
    (s.kernel (.after channo rxlin)).Holds
      { d with filling := [], full := d.filling ++ [⟨channo, x.txlin, x.rxlin, rxlin⟩],
               swaps := d.swaps + 1 } := by
  have hwritten := h.written hinv hx hunfinished rxlin
  obtain ⟨hstate, -⟩ := s.recorder.tap.put_frame rxlin
  have hlt := (hinv.aligned hrec.1).samples_lt
  have hsize : s.recorder.tap.samples + 1 = sampleBufSz := by omega
  have hrecording : (s.recorder.tap.put rxlin).sampleState ≠ .idle := hstate.trans_ne h.recording
  have hnext : (s.kernel (.after channo rxlin)).recorder.tap =
      Zaptap.swap { s.recorder.tap.put rxlin with samples := s.recorder.tap.samples + 1 } :=
    congrArg Prod.fst (after_of_records hrec rxlin)
  obtain ⟨hzero, hmem, hflip, hidle⟩ := Zaptap.swap_of_full
    (z := { s.recorder.tap.put rxlin with samples := s.recorder.tap.samples + 1 }) hfull hrecording
  have hread := Zaptap.readBuffer_swap
    (z := { s.recorder.tap.put rxlin with samples := s.recorder.tap.samples + 1 }) hfull hrecording
  rw [← hnext] at hzero hmem hflip hidle hread
  dsimp only at hmem hflip hread
  rw [hstate] at hflip hread
  refine ⟨hidle, hzero, ?_, ?_, ?_, h.reads, h.files⟩
  · rw [hzero]
    rfl
  · intro _
    rw [Zaptap.sampleRead, hread, Zaptap.contents, hmem, ← hsize]
    exact hwritten
  · exact (if_neg hflip).trans (congrArg Nat.succ h.swaps)

/-- Every other sample is added to the buffer that is being filled. -/
theorem Sampling.Holds.after_lt (hinv : RecorderInv s.recorder) {channo : ℤ} {rxlin : Int16}
    (hrec : s.recorder.tap.Records channo) {x : Started} (hx : s.recorder.inside channo = some x)
    (hunfinished : s.recorder.unfinished = some x.serial)
    (hlt : s.recorder.tap.samples + 1 < sampleBufSz) :
    (s.kernel (.after channo rxlin)).Holds
      { d with filling := d.filling ++ [⟨channo, x.txlin, x.rxlin, rxlin⟩] } := by
  have hwritten := h.written hinv hx hunfinished rxlin
  have hpointer := (hinv.aligned hrec.1).pointer
  rw [if_neg (by rw [hunfinished]; exact Option.some_ne_none _)] at hpointer
  obtain ⟨hstate, -⟩ := s.recorder.tap.put_frame rxlin
  have hnext : (s.kernel (.after channo rxlin)).recorder.tap =
      Zaptap.swap { s.recorder.tap.put rxlin with samples := s.recorder.tap.samples + 1 } :=
    congrArg Prod.fst (after_of_records hrec rxlin)
  rw [Zaptap.swap_of_lt hlt] at hnext
  have hread : (s.kernel (.after channo rxlin)).recorder.tap.sampleRead =
      s.recorder.tap.sampleRead := by
    rw [hnext]
    apply Zaptap.sampleRead_congr hstate
    exact Zaptap.mem_put_of_ne hpointer rxlin (Zaptap.readBuffer_ne h.recording)
  have hkept : (s.kernel (.after channo rxlin)).recorder.tap.sampleState =
      s.recorder.tap.sampleState := by
    rw [hnext]
    exact hstate
  refine ⟨hkept.trans_ne h.recording, ?_, ?_, ?_, (if_pos hkept).trans h.swaps, h.reads, h.files⟩
  · rw [hnext, List.length_append, ← h.samples]
    rfl
  · rw [hkept, hnext]
    exact hwritten
  · rw [hread]
    exact h.full

theorem Sampling.Holds.after_recorded (hinv : RecorderInv s.recorder) {channo : ℤ} {rxlin : Int16}
    (hrec : s.recorder.tap.Records channo) {x : Started} (hx : s.recorder.inside channo = some x)
    (hunfinished : s.recorder.unfinished = some x.serial) :
    (s.kernel (.after channo rxlin)).Holds
      (d.push sampleBufSz ⟨channo, x.txlin, x.rxlin, rxlin⟩) := by
  rw [DoubleBuffer.push, ← h.samples]
  split
  case isTrue hfull => exact h.after_full hinv hrec hx hunfinished hfull
  case isFalse hfull => exact h.after_lt hinv hrec hx hunfinished (Nat.lt_of_not_le hfull)

theorem Sampling.Holds.setChannel (channo : ℤ) : (s.kernel (.setChannel channo)).Holds d :=
  ⟨h.recording, h.samples, h.filling, h.full, h.swaps, h.reads, h.files⟩

theorem Sampling.Holds.sleep : Sampling.Holds { s with asleep := true } d :=
  ⟨h.recording, h.samples, h.filling, h.full, h.swaps, h.reads, h.files⟩

/-- A read takes the full buffer apart. -/
theorem Sampling.Holds.copy (hlength : d.full.length = sampleBufSz) (hswaps : 0 < d.swaps) :
    s.copy.Holds d.take := by
  have hread := demultiplex_flatMap d.full
  rw [hlength, ← h.full hswaps] at hread
  refine ⟨h.recording, h.samples, h.filling, h.full, h.swaps, congrArg Nat.succ h.reads, ?_⟩
  change s.files.fwrite _ = _
  rw [hread, h.files, SampleFiles.fwrite_of]
  rfl

end

/-! ### The stream of one channel -/

theorem sampleCh_step (o : Recorder) {e : TapEvent} (he : e.channo?.isSome) :
    (recorder.step o e).1.tap.sampleCh = o.tap.sampleCh := by
  cases e with
  | before channo rxlin txlin =>
      change (o.tap.sampleEchoBefore channo rxlin txlin).1.sampleCh = _
      rw [Zaptap.sampleEchoBefore]
      split
      · rw [Zaptap.put_sampleCh, Zaptap.put_sampleCh]
      · rfl
  | after channo rxlin =>
      change (o.tap.sampleEchoAfter channo rxlin).1.sampleCh = _
      rw [Zaptap.sampleEchoAfter]
      split
      · exact (Zaptap.swap_sampleCh _).trans (Zaptap.put_sampleCh _ _)
      · rfl
  | _ => cases he

/-- The sampler is sound, and what it has recorded since the open are the last
samples of channel `c`. -/
structure Streams (c : ℤ) (opened : ℕ) (s : Sampling) : Prop where
  inv : RecorderInv s.recorder
  inStep : InStep s.recorder
  opened_le : opened ≤ s.recorder.history.length
  stream : ∃ d stream, s.Holds d ∧ d.Conserves sampleBufSz stream ∧
    stream <:+ (s.sinceOpen opened).filter (·.channo = c) ∧
    (s.recorder.tap.sampleCh ≠ c → stream = [])

section

variable {c : ℤ} {opened : ℕ} {s : Sampling} (h : Streams c opened s)

include h

theorem Streams.before {channo : ℤ} {rxlin txlin : Int16}
    (hadmissible : Admissible s (.kernel (.before channo rxlin txlin))) :
    Streams c opened (s.kernel (.before channo rxlin txlin)) := by
  have horderly := h.inStep.orderly hadmissible.1
  obtain ⟨d, stream, hholds, hconserves, hsuffix, hother⟩ := h.stream
  refine ⟨(h.inv.step horderly).1, h.inStep.step hadmissible.2, h.opened_le, d, stream,
    hholds.before h.inv horderly, hconserves, hsuffix, ?_⟩
  change (recorder.step s.recorder (.before channo rxlin txlin)).1.tap.sampleCh ≠ c → _
  rw [sampleCh_step s.recorder rfl]
  exact hother

theorem Streams.after {channo : ℤ} {rxlin : Int16}
    (hadmissible : Admissible s (.kernel (.after channo rxlin)))
    (hclean : channo = s.recorder.tap.sampleCh → s.recorder.tap.sampleCh = c) :
    Streams c opened (s.kernel (.after channo rxlin)) := by
  have horderly := h.inStep.orderly hadmissible.1
  obtain ⟨x, hx⟩ := Option.ne_none_iff_exists'.mp hadmissible.1
  have hhistory : (s.kernel (.after channo rxlin)).recorder.history =
      s.recorder.history ++ [⟨channo, x.txlin, x.rxlin, rxlin⟩] := by
    change s.recorder.history ++ ((s.recorder.inside channo).map _).toList = _
    rw [hx]
    rfl
  have hsince : (s.kernel (.after channo rxlin)).sinceOpen opened =
      s.sinceOpen opened ++ [⟨channo, x.txlin, x.rxlin, rxlin⟩] := by
    rw [Sampling.sinceOpen, hhistory, List.drop_append_of_le_length h.opened_le]
    rfl
  have hch : (s.kernel (.after channo rxlin)).recorder.tap.sampleCh = s.recorder.tap.sampleCh :=
    sampleCh_step s.recorder rfl
  obtain ⟨d, stream, hholds, hconserves, hsuffix, hother⟩ := h.stream
  refine ⟨(h.inv.step horderly).1, h.inStep.step hadmissible.2, ?_, ?_⟩
  · rw [hhistory, List.length_append]
    exact Nat.le_add_right_of_le h.opened_le
  rw [hsince, hch, List.filter_append]
  by_cases hrec : s.recorder.tap.Records channo
  · obtain ⟨y, hy, hunfinished⟩ := horderly hrec
    obtain rfl : x = y := Option.some.inj (hx.symm.trans hy)
    have hc : s.recorder.tap.sampleCh = c := hclean hrec.2
    refine ⟨_, _, hholds.after_recorded h.inv hrec hx hunfinished, hconserves.push _, ?_,
      fun hne => absurd hc hne⟩
    rw [List.filter_cons_of_pos (by simpa using hrec.2.trans hc), List.filter_nil]
    obtain ⟨older, hstream⟩ := hsuffix
    exact ⟨older, by rw [← hstream, List.append_assoc]⟩
  · refine ⟨d, stream, hholds.after_skipped hrec, hconserves, ?_, hother⟩
    by_cases hc : channo = c
    · -- a sample of `c` that is not recorded: nothing has been recorded so far
      have hne := Zaptap.ne_of_not_records hrec hholds.recording
      rw [hother (by rwa [← hc])]
      exact List.nil_suffix
    · rw [List.filter_cons_of_neg (by simpa using hc), List.filter_nil, List.append_nil]
      exact hsuffix

theorem Streams.setChannel (hadmissible : Admissible s (.kernel (.setChannel c))) :
    Streams c opened (s.kernel (.setChannel c)) := by
  obtain ⟨d, stream, hholds, hconserves, hsuffix, -⟩ := h.stream
  exact ⟨h.inv.fileOperation.2.2 c, h.inStep.step hadmissible.2, h.opened_le, d, stream,
    hholds.setChannel c, hconserves, hsuffix, fun hne => absurd rfl hne⟩

theorem Streams.copy (hadmissible : Admissible s .copy) : Streams c opened s.copy := by
  obtain ⟨d, stream, hholds, hconserves, hstream⟩ := h.stream
  have htime : d.InTime := by
    rw [DoubleBuffer.InTime, ← hholds.swaps, ← hholds.reads]
    exact hadmissible.2
  have hswaps : 0 < d.swaps := htime ▸ Nat.succ_pos _
  exact ⟨h.inv, h.inStep, h.opened_le, d.take, stream,
    hholds.copy (hconserves.length_full hswaps) hswaps, hconserves.take htime, hstream⟩

theorem Streams.sleep : Streams c opened { s with asleep := true } := by
  obtain ⟨d, stream, hholds, hstream⟩ := h.stream
  exact ⟨h.inv, h.inStep, h.opened_le, d, stream, hholds.sleep, hstream⟩

theorem Streams.roundTrip : RoundTrip c opened s := by
  obtain ⟨d, stream, hholds, hconserves, hsuffix, -⟩ := h.stream
  refine ⟨d.taken, ?_, hconserves.taken.isInfix.trans hsuffix.isInfix, hholds.files⟩
  rw [hconserves.length_taken, hholds.reads]

end

/-- Samples and reads while channel `q` is selected. -/
theorem Streams.run {c q : ℤ} {opened : ℕ} {s : Sampling} (h : Streams c opened s)
    (hq : s.recorder.tap.sampleCh = q) {as : List SamplingAction}
    (hcontinues : ∀ a ∈ as, a.Continues)
    (hclean : q = c ∨ ∀ e, .kernel e ∈ as → e.channo? ≠ some q)
    (hadmissible : ∀ t ∈ sampling.trace s as, Admissible t.before t.input) :
    Streams c opened (sampling.run s as) ∧ (sampling.run s as).recorder.tap.sampleCh = q := by
  refine sampling.run_invariant_of_trace
    (I := fun s => Streams c opened s ∧ s.recorder.tap.sampleCh = q)
    (G := fun s a => Admissible s a ∧ a ∈ as) ?_ ⟨h, hq⟩
    fun t ht => ⟨hadmissible t ht, sampling.input_mem_of_mem_trace ht⟩
  rintro s a ⟨hstreams, hq⟩ ⟨hadmissible, ha⟩
  have ha' := hcontinues a ha
  cases a with
  | kernel e =>
      refine ⟨?_, (sampleCh_step s.recorder ha').trans hq⟩
      cases e with
      | before channo rxlin txlin => exact hstreams.before hadmissible
      | after channo rxlin =>
          apply hstreams.after hadmissible
          intro hchanno
          rcases hclean with hclean | hclean
          · exact hq.trans hclean
          · exact absurd (congrArg some (hchanno.trans hq)) (hclean _ ha)
      | _ => cases ha'
  | sleep => exact ⟨hstreams.sleep, hq⟩
  | copy => exact ⟨hstreams.copy hadmissible, hq⟩

/-! ### The round trip -/

/-- What a program finds when it opens the device. -/
structure Unopened (s : Sampling) : Prop where
  inv : RecorderInv s.recorder
  inStep : InStep s.recorder
  reads : s.reads = 0
  files : s.files = .empty

theorem unopened_of_run {past : List TapEvent}
    (hadmissible : ∀ t ∈ sampling.trace Sampling.load (past.map .kernel),
      Admissible t.before t.input) :
    Unopened (sampling.run Sampling.load (past.map .kernel)) := by
  refine sampling.run_invariant_of_trace (I := Unopened)
    (G := fun s a => Admissible s a ∧ a ∈ past.map SamplingAction.kernel) ?_
    ⟨recorderInv_load, fun h => absurd rfl h, rfl, rfl⟩
    fun t ht => ⟨hadmissible t ht, sampling.input_mem_of_mem_trace ht⟩
  rintro s a h ⟨hadmissible, ha⟩
  obtain ⟨e, -, rfl⟩ := List.mem_map.mp ha
  exact ⟨(h.inv.step (h.inStep.orderly hadmissible.1)).1, h.inStep.step hadmissible.2, h.reads,
    h.files⟩

theorem recorder_run_kernel (s : Sampling) (events : List TapEvent) :
    (sampling.run s (events.map .kernel)).recorder = recorder.run s.recorder events := by
  induction events generalizing s with
  | nil => rfl
  | cons e events ih => exact ih (s.kernel e)

theorem Unopened.sampleOpen {s : Sampling} (h : Unopened s)
    (hadmissible : Admissible s (.kernel .sampleOpen)) (c : ℤ) :
    Streams c s.recorder.history.length (s.kernel .sampleOpen) := by
  refine ⟨h.inv.fileOperation.1, h.inStep.step hadmissible.2, Nat.le_refl _, .empty, [], ?_,
    DoubleBuffer.conserves_empty (by decide), List.nil_suffix, fun _ => rfl⟩
  exact ⟨nofun, rfl, rfl, fun hswaps => absurd hswaps (Nat.lt_irrefl 0), rfl, h.reads, h.files⟩

/-- Where no sample of the channel that was selected before comes between the
open and the `ioctl`, unless it is channel `c` itself, the files hold nothing
but consecutive samples of channel `c`. -/
theorem sampling_round_trip (past opened : List TapEvent) (c : ℤ) (rest : List SamplingAction)
    (hrun : ProgramRun past opened c rest)
    (hchannel : previousChannel past = c ∨ ∀ e ∈ opened, e.channo? ≠ some (previousChannel past)) :
    RoundTrip c (samplesBefore past)
      (sampling.run Sampling.load (samplingRun past opened c rest)) := by
  obtain ⟨hsamples, hcontinues, hadmissible⟩ := hrun
  rw [samplingRun, Mealy.trace_append, Mealy.trace_cons, Mealy.trace_append,
    Mealy.trace_cons] at hadmissible
  simp only [List.forall_mem_append, List.forall_mem_cons] at hadmissible
  obtain ⟨hpast, hopen, hopened, hioctl, hrest⟩ := hadmissible
  have hunopened := unopened_of_run hpast
  have hprevious : (sampling.run Sampling.load (past.map .kernel)).recorder.tap.sampleCh =
      previousChannel past := by
    rw [recorder_run_kernel]
    rfl
  have hbefore : (sampling.run Sampling.load (past.map .kernel)).recorder.history.length =
      samplesBefore past := by
    rw [recorder_run_kernel]
    rfl
  have hcontinues' : ∀ a ∈ opened.map SamplingAction.kernel, a.Continues := by
    intro a ha
    obtain ⟨e, he, rfl⟩ := List.mem_map.mp ha
    exact hsamples e he
  have hclean : previousChannel past = c ∨
      ∀ e, .kernel e ∈ opened.map SamplingAction.kernel →
        e.channo? ≠ some (previousChannel past) := by
    refine hchannel.imp_right fun hne e he => ?_
    obtain ⟨e', he', heq⟩ := List.mem_map.mp he
    cases heq
    exact hne e he'
  obtain ⟨hstreams, -⟩ := (hunopened.sampleOpen hopen c).run hprevious hcontinues' hclean hopened
  obtain ⟨hfinal, -⟩ := (hstreams.setChannel hioctl).run rfl hcontinues (Or.inl rfl) hrest
  rw [samplingRun, Mealy.run_append, Mealy.run_cons, Mealy.run_append, Mealy.run_cons]
  rw [← hbefore]
  exact hfinal.roundTrip

/-! ### A program that reads once -/

/-- One sample goes through. -/
def Sample.events (x : Sample) : List TapEvent :=
  [.before x.channo x.rxlin x.txlin, .after x.channo x.eclin]

/-- Between two samples, with channel `q` selected and `xs` through. -/
structure AtRest (q : ℤ) (d : DoubleBuffer Sample) (xs : List Sample) (s : Sampling) : Prop where
  inv : RecorderInv s.recorder
  inStep : InStep s.recorder
  inside : ∀ channo, s.recorder.inside channo = none
  sampleCh : s.recorder.tap.sampleCh = q
  history : s.recorder.history = xs
  holds : s.Holds d

/-- Inside the sample `x` of channel `q`, with `xs` through. -/
structure Midway (q : ℤ) (d : DoubleBuffer Sample) (xs : List Sample) (x : Sample)
    (s : Sampling) : Prop where
  inv : RecorderInv s.recorder
  inStep : InStep s.recorder
  inside : ∃ serial, s.recorder.inside =
    Function.update (fun _ => none) q (some ⟨serial, x.txlin, x.rxlin⟩)
  sampleCh : s.recorder.tap.sampleCh = q
  history : s.recorder.history = xs
  holds : s.Holds d

section

variable {q : ℤ} {d : DoubleBuffer Sample} {xs : List Sample} {x : Sample} {s : Sampling}

theorem AtRest.before (h : AtRest q d xs s) (hx : x.channo = q) :
    Midway q d xs x (s.kernel (.before x.channo x.rxlin x.txlin)) := by
  have horderly : Orderly s.recorder (.before x.channo x.rxlin x.txlin) :=
    h.inStep.orderly (h.inside x.channo)
  have hnone : s.recorder.inside = fun _ => none := funext h.inside
  refine ⟨(h.inv.step horderly).1, h.inStep.step trivial, ⟨s.recorder.serial, ?_⟩,
    (sampleCh_step s.recorder rfl).trans h.sampleCh, h.history, h.holds.before h.inv horderly⟩
  rw [← hnone, ← hx]
  rfl

theorem Midway.paired (h : Midway q d xs x s) (hx : x.channo = q) :
    Paired s.recorder (.after x.channo x.eclin) := by
  obtain ⟨serial, hinside⟩ := h.inside
  rw [Paired, hinside, hx, Function.update_self]
  exact Option.some_ne_none _

theorem Midway.after (h : Midway q d xs x s) (hx : x.channo = q) :
    AtRest q (d.push sampleBufSz x) (xs ++ [x]) (s.kernel (.after x.channo x.eclin)) := by
  obtain ⟨serial, hinside⟩ := h.inside
  have hself : s.recorder.inside x.channo = some ⟨serial, x.txlin, x.rxlin⟩ := by
    rw [hinside, hx, Function.update_self]
  have horderly := h.inStep.orderly (h.paired hx)
  have hrec : s.recorder.tap.Records x.channo := ⟨h.holds.recording, hx.trans h.sampleCh.symm⟩
  obtain ⟨y, hy, hunfinished⟩ := horderly hrec
  obtain rfl := Option.some.inj (hself.symm.trans hy)
  refine ⟨(h.inv.step horderly).1, h.inStep.step trivial, ?_,
    (sampleCh_step s.recorder rfl).trans h.sampleCh, ?_,
    h.holds.after_recorded h.inv hrec hself hunfinished⟩
  · intro channo
    change Function.update s.recorder.inside x.channo none channo = none
    rw [hinside, hx, Function.update_idem, Function.update_eq_self]
  · change s.recorder.history ++ ((s.recorder.inside x.channo).map _).toList = _
    rw [hself, h.history]
    rfl

theorem AtRest.sample (h : AtRest q d xs s) (hx : x.channo = q) :
    AtRest q (d.push sampleBufSz x) (xs ++ [x]) (sampling.run s (x.events.map .kernel)) ∧
      ∀ t ∈ sampling.trace s (x.events.map .kernel), Admissible t.before t.input := by
  have hmid := h.before hx
  refine ⟨hmid.after hx, ?_⟩
  rw [Sample.events, List.map_cons, List.map_singleton, Mealy.trace_cons, Mealy.trace_cons,
    List.forall_mem_cons, List.forall_mem_cons]
  exact ⟨⟨h.inside x.channo, trivial⟩, ⟨hmid.paired hx, trivial⟩, fun t ht => by cases ht⟩

end

theorem AtRest.samples {q : ℤ} {d : DoubleBuffer Sample} {xs : List Sample} {s : Sampling}
    (h : AtRest q d xs s) {ys : List Sample} (hys : ∀ y ∈ ys, y.channo = q) :
    AtRest q (ys.foldl (DoubleBuffer.push sampleBufSz) d) (xs ++ ys)
        (sampling.run s ((ys.flatMap Sample.events).map .kernel)) ∧
      ∀ t ∈ sampling.trace s ((ys.flatMap Sample.events).map .kernel),
        Admissible t.before t.input := by
  induction ys generalizing s d xs with
  | nil =>
      refine ⟨?_, fun t ht => by cases ht⟩
      rw [List.append_nil]
      exact h
  | cons y ys ih =>
      obtain ⟨hy, hys⟩ := List.forall_mem_cons.mp hys
      obtain ⟨hnext, hadmissible⟩ := h.sample hy
      obtain ⟨hlast, hrest⟩ := ih hnext hys
      rw [List.flatMap_cons, List.map_append, Mealy.run_append, Mealy.trace_append]
      refine ⟨?_, fun t ht => ?_⟩
      · rw [← List.append_cons] at hlast
        exact hlast
      · rcases List.mem_append.mp ht with ht | ht
        · exact hadmissible t ht
        · exact hrest t ht

theorem asleep_run_kernel (s : Sampling) (events : List TapEvent) :
    (sampling.run s (events.map .kernel)).asleep = s.asleep := by
  induction events generalizing s with
  | nil => rfl
  | cons e events ih => exact ih (s.kernel e)

theorem atRest_open : AtRest 1 .empty [] (Sampling.load.kernel .sampleOpen) where
  inv := recorderInv_load.fileOperation.1
  inStep := fun _ => rfl
  inside := fun _ => rfl
  sampleCh := rfl
  history := rfl
  holds := ⟨nofun, rfl, rfl, fun h => absurd h (Nat.lt_irrefl 0), rfl, rfl, rfl⟩

theorem AtRest.setChannel {q : ℤ} {d : DoubleBuffer Sample} {xs : List Sample} {s : Sampling}
    (h : AtRest q d xs s) (c : ℤ) : AtRest c d xs (s.kernel (.setChannel c)) where
  inv := h.inv.fileOperation.2.2 c
  inStep := h.inStep.step (e := .setChannel c) h.inside
  inside := h.inside
  sampleCh := rfl
  history := h.history
  holds := h.holds.setChannel c

theorem AtRest.sleep {q : ℤ} {d : DoubleBuffer Sample} {xs : List Sample} {s : Sampling}
    (h : AtRest q d xs s) : AtRest q d xs { s with asleep := true } :=
  ⟨h.inv, h.inStep, h.inside, h.sampleCh, h.history, h.holds.sleep⟩

theorem Sample.channo_events {xs : List Sample} :
    ∀ e ∈ xs.flatMap Sample.events, e.channo?.isSome := by
  intro e he
  obtain ⟨x, -, hx⟩ := List.mem_flatMap.mp he
  simp only [Sample.events, List.mem_cons, List.not_mem_nil, or_false] at hx
  rcases hx with rfl | rfl
  · rfl
  · rfl

/-- A program that reads one buffer of channel 2, which the samples `ys` fill. -/
def readOnce (ys : List Sample) : List SamplingAction :=
  .sleep :: ((ys.flatMap Sample.events).map .kernel ++ [.copy])

theorem readOnce_continues (ys : List Sample) : ∀ a ∈ readOnce ys, a.Continues := by
  intro a ha
  rcases List.mem_cons.mp ha with rfl | ha
  · trivial
  rcases List.mem_append.mp ha with ha | ha
  · obtain ⟨e, he, rfl⟩ := List.mem_map.mp ha
    exact Sample.channo_events e he
  · rw [List.mem_singleton.mp ha]
    trivial

/-- The read returns what has been sampled so far and the samples that complete
the buffer. -/
theorem AtRest.readOnce {first ys : List Sample} {y : Sample} {s : Sampling}
    (h : AtRest 2 ⟨first, [], 0, 0, []⟩ first s) (hawake : s.asleep = false)
    (hys : ∀ x ∈ ys ++ [y], x.channo = 2) (hlength : first.length + ys.length + 1 = sampleBufSz) :
    (∀ t ∈ sampling.trace s (readOnce (ys ++ [y])), Admissible t.before t.input) ∧
      (sampling.run s (readOnce (ys ++ [y]))).files = .of (first ++ (ys ++ [y])) ∧
      (sampling.run s (readOnce (ys ++ [y]))).recorder.history = first ++ (ys ++ [y]) := by
  obtain ⟨hread, hadmissible⟩ := h.sleep.samples hys
  have hasleep := asleep_run_kernel { s with asleep := true } ((ys ++ [y]).flatMap Sample.events)
  have hfull : (ys ++ [y]).foldl (DoubleBuffer.push sampleBufSz) ⟨first, [], 0, 0, []⟩ =
      ⟨[], first ++ (ys ++ [y]), 1, 0, []⟩ := DoubleBuffer.foldl_push_of_eq hlength
  rw [hfull] at hread
  have hlength' : (first ++ (ys ++ [y])).length = sampleBufSz := by
    simp only [List.length_append, List.length_singleton]
    omega
  have hcopy := hread.holds.copy hlength' (Nat.succ_pos _)
  have hrun : sampling.run s (Oslec.readOnce (ys ++ [y])) = Sampling.copy (sampling.run
      { s with asleep := true } (((ys ++ [y]).flatMap Sample.events).map .kernel)) := by
    rw [Oslec.readOnce, Mealy.run_cons, Mealy.run_concat]
    rfl
  rw [hrun]
  refine ⟨?_, hcopy.files, hread.history⟩
  rw [Oslec.readOnce, Mealy.trace_cons, Mealy.trace_concat]
  simp only [List.forall_mem_append, List.forall_mem_cons]
  refine ⟨⟨hawake, ?_⟩, hadmissible, ⟨hasleep, ?_⟩, fun t ht => by cases ht⟩
  · exact h.holds.swaps.trans_lt (Nat.succ_pos _)
  · exact hread.holds.swaps.trans (congrArg Nat.succ hread.holds.reads.symm)

/-- The first buffer begins with the samples that come between the open and the
`ioctl`. -/
theorem readOnce_files {first ys : List Sample} {y : Sample} (hfirst : ∀ x ∈ first, x.channo = 1)
    (hys : ∀ x ∈ ys ++ [y], x.channo = 2) (hlength : first.length + ys.length + 1 = sampleBufSz) :
    ProgramRun [] (first.flatMap Sample.events) 2 (readOnce (ys ++ [y])) ∧
      (sampling.run Sampling.load (samplingRun [] (first.flatMap Sample.events) 2
        (readOnce (ys ++ [y])))).files = .of (first ++ (ys ++ [y])) ∧
      (sampling.run Sampling.load (samplingRun [] (first.flatMap Sample.events) 2
        (readOnce (ys ++ [y])))).recorder.history = first ++ (ys ++ [y]) := by
  obtain ⟨hopened, hadmissible⟩ := atRest_open.samples hfirst
  have hbuffer : first.foldl (DoubleBuffer.push sampleBufSz) .empty = ⟨first, [], 0, 0, []⟩ :=
    DoubleBuffer.foldl_push_of_lt (by change 0 + first.length < sampleBufSz; omega)
  rw [hbuffer] at hopened
  have hawake := asleep_run_kernel (Sampling.load.kernel .sampleOpen)
    (first.flatMap Sample.events)
  obtain ⟨hadmissible', hfiles, hhistory⟩ := (hopened.setChannel 2).readOnce hawake hys hlength
  refine ⟨⟨Sample.channo_events, readOnce_continues _, ?_⟩, ?_, ?_⟩
  · rw [samplingRun, List.map_nil, List.nil_append, Mealy.trace_cons, Mealy.trace_append,
      Mealy.trace_cons]
    simp only [List.forall_mem_append, List.forall_mem_cons]
    exact ⟨⟨trivial, fun _ => rfl⟩, hadmissible, ⟨trivial, hopened.inside⟩, hadmissible'⟩
  · rw [samplingRun, List.map_nil, List.nil_append, Mealy.run_cons, Mealy.run_append,
      Mealy.run_cons]
    exact hfiles
  · rw [samplingRun, List.map_nil, List.nil_append, Mealy.run_cons, Mealy.run_append,
      Mealy.run_cons]
    exact hhistory

/-- A buffer of samples of the channel that has been asked for. -/
theorem sampling_round_trip_once :
    RoundTrip 2 0 (sampling.run Sampling.load (samplingRun [] [] 2
      (readOnce (List.replicate 999 ⟨2, 7, 5, 3⟩ ++ [⟨2, 7, 5, 3⟩])))) := by
  have hys : ∀ x ∈ List.replicate 999 (Sample.mk 2 7 5 3) ++ [⟨2, 7, 5, 3⟩], x.channo = 2 := by
    rw [← List.replicate_succ']
    exact fun x hx => congrArg Sample.channo (List.eq_of_mem_replicate hx)
  have hlength : ([] : List Sample).length + (List.replicate 999 (Sample.mk 2 7 5 3)).length + 1 =
      sampleBufSz := by
    rw [List.length_replicate]
    rfl
  obtain ⟨hrun, -⟩ := readOnce_files (fun x hx => by cases hx) hys hlength
  exact sampling_round_trip [] [] 2 _ hrun (Or.inr nofun)

/-- A sample of channel 1, which was selected before, opens the files of channel 2. -/
theorem sampling_starts_at_open :
    ProgramRun [] [.before 1 5 7, .after 1 3] 2
        (readOnce (List.replicate 998 ⟨2, 0, 0, 0⟩ ++ [⟨2, 0, 0, 0⟩])) ∧
      ¬ RoundTrip 2 0 (sampling.run Sampling.load (samplingRun [] [.before 1 5 7, .after 1 3] 2
        (readOnce (List.replicate 998 ⟨2, 0, 0, 0⟩ ++ [⟨2, 0, 0, 0⟩])))) := by
  have hys : ∀ x ∈ List.replicate 998 (Sample.mk 2 0 0 0) ++ [⟨2, 0, 0, 0⟩], x = ⟨2, 0, 0, 0⟩ := by
    rw [← List.replicate_succ']
    exact fun x hx => List.eq_of_mem_replicate hx
  have hlength : [Sample.mk 1 7 5 3].length + (List.replicate 998 (Sample.mk 2 0 0 0)).length + 1 =
      sampleBufSz := by
    rw [List.length_replicate]
    rfl
  have hfirst : ∀ x ∈ [Sample.mk 1 7 5 3], x.channo = 1 := by simp
  obtain ⟨hrun, hfiles, hhistory⟩ := readOnce_files hfirst
    (fun x hx => congrArg Sample.channo (hys x hx)) hlength
  have hevents : [Sample.mk 1 7 5 3].flatMap Sample.events = [.before 1 5 7, .after 1 3] := rfl
  rw [hevents] at hrun hfiles hhistory
  refine ⟨hrun, ?_⟩
  rintro ⟨ss, -, hconsecutive, hsame⟩
  rw [hfiles] at hsame
  rw [Sampling.sinceOpen, hhistory, List.drop_zero] at hconsecutive
  rw [SampleFiles.of, SampleFiles.mk.injEq] at hsame
  obtain ⟨hftx, -, -⟩ := hsame
  have htx : (7 : Int16) ∈ ss.map Sample.txlin := by
    rw [← hftx]
    exact List.mem_cons_self
  obtain ⟨x, hx, hseven⟩ := List.mem_map.mp htx
  obtain ⟨hmem, hchanno⟩ := List.mem_filter.mp (hconsecutive.subset hx)
  rcases List.mem_cons.mp hmem with rfl | hmem
  · cases of_decide_eq_true hchanno
  · rw [hys x hmem] at hseven
    cases hseven

end Oslec
