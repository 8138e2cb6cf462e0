import Oslec.Kernel.Channels
import Oslec.Kernel.RoundTrip

/-!
A recorded call and its replay. A developer records a call with the sampling
program, runs a new canceller over the `_tx` and the `_rx` file, and compares
what it returns with the `_ec` file. The two are the same where the program has
asked for the line before the call begins, keeps up with the driver, and nobody
writes to the `/proc` files of the call's canceller: the tx filter, which runs in
between, shares no field with the update.
-/

namespace Oslec

/-! ### The replay -/

/-- The loop of `speedtest` that dumps the returned samples. -/
def replay (ec : EchoCan) : List Int16 → List Int16 → List Int16
  | tx :: txs, rx :: rxs =>
      (echoCanUpdate ec tx rx).2 :: replay (echoCanUpdate ec tx rx).1 txs rxs
  | _, _ => []

/-- The canceller once the samples have passed it. -/
def EchoCan.after (ec : EchoCan) (ss : List Sample) : EchoCan :=
  ss.foldl (fun ec s => (echoCanUpdate ec s.txlin s.rxlin).1) ec

/-- What the replay of the samples returns. -/
def EchoCan.replayed (ec : EchoCan) (ss : List Sample) : List Int16 :=
  replay ec (ss.map Sample.txlin) (ss.map Sample.rxlin)

theorem EchoCan.replayed_append (ec : EchoCan) (ss ss' : List Sample) :
    ec.replayed (ss ++ ss') = ec.replayed ss ++ (ec.after ss).replayed ss' := by
  induction ss generalizing ec with
  | nil => rfl
  | cons s ss ih => exact congrArg (_ :: ·) (ih (echoCanUpdate ec s.txlin s.rxlin).1)

theorem EchoCan.after_append (ec : EchoCan) (ss ss' : List Sample) :
    ec.after (ss ++ ss') = (ec.after ss).after ss' := List.foldl_append

def EchoCan.withTxDc (ec : EchoCan) (f : DcFilter) : EchoCan := { ec with txDc := f }

theorem EchoCanCore.nonLinear_txDc (c : EchoCanCore) (f : DcFilter) :
    EchoCanCore.nonLinear { c with txDc := f } = { c.nonLinear with txDc := f } := by
  simp only [nonLinear]
  split
  · split
    · split
      · rfl
      · split <;> rfl
    · split <;> rfl
  · rfl

/-- The update neither reads nor writes the state of the tx filter. -/
theorem echoCanUpdate_withTxDc (ec : EchoCan) (f : DcFilter) (tx rx : Int16) :
    echoCanUpdate (ec.withTxDc f) tx rx =
      ((echoCanUpdate ec tx rx).1.withTxDc f, (echoCanUpdate ec tx rx).2) := by
  have htransfer : ((ec.withTxDc f).atTransfer tx rx).transfer =
      { (ec.atTransfer tx rx).transfer with txDc := f } := by
    rw [EchoCanCore.transfer_eq, EchoCanCore.transfer_eq]
    rfl
  rw [echoCanUpdate_eq, echoCanUpdate_eq, htransfer, EchoCanCore.nonLinear_txDc]
  rfl

theorem EchoCan.after_withTxDc (ec : EchoCan) (f : DcFilter) (ss : List Sample) :
    (ec.withTxDc f).after ss = (ec.after ss).withTxDc f := by
  induction ss generalizing ec with
  | nil => rfl
  | cons s ss ih =>
      rw [after, List.foldl_cons, echoCanUpdate_withTxDc]
      exact ih (echoCanUpdate ec s.txlin s.rxlin).1

theorem EchoCan.replayed_withTxDc (ec : EchoCan) (f : DcFilter) (ss : List Sample) :
    (ec.withTxDc f).replayed ss = ec.replayed ss := by
  induction ss generalizing ec with
  | nil => rfl
  | cons s ss ih =>
      rw [replayed, List.map_cons, List.map_cons, replay, echoCanUpdate_withTxDc]
      exact congrArg (_ :: ·) (ih (echoCanUpdate ec s.txlin s.rxlin).1)

/-- A transmitted chunk leaves a canceller that replays alike. -/
theorem hpfTxLoop_withTxDc (law : Law) (ec : EchoCan) (buf : List UInt8) :
    ∃ f, (hpfTxLoop law ec buf).1 = ec.withTxDc f := by
  induction buf generalizing ec with
  | nil => exact ⟨ec.txDc, rfl⟩
  | cons c buf ih =>
      obtain ⟨f, hf⟩ := ih (echoCanHpfTx ec (law.xlaw c)).1
      refine ⟨f, hf.trans ?_⟩
      rw [echoCanHpfTx_eq]
      rfl

/-! ### The samples of a chunk -/

def ecSamples (law : Law) (channo : ℤ) (ec : EchoCan) : List (UInt8 × UInt8) → List Sample
  | [] => []
  | (rx, tx) :: chunks =>
      ⟨channo, law.xlaw tx, law.xlaw rx, (echoCanUpdate ec (law.xlaw tx) (law.xlaw rx)).2⟩ ::
        ecSamples law channo (echoCanUpdate ec (law.xlaw tx) (law.xlaw rx)).1 chunks

/-- The samples of a chunk are those of one line, and replay to what they have
been answered with. -/
theorem ecSamples_spec (law : Law) (channo : ℤ) (ec : EchoCan) (chunks : List (UInt8 × UInt8)) :
    (∀ s ∈ ecSamples law channo ec chunks, s.channo = channo) ∧
      (ecSamples law channo ec chunks).map Sample.eclin =
        ec.replayed (ecSamples law channo ec chunks) ∧
      echoCan.run ec (law.updates chunks) = ec.after (ecSamples law channo ec chunks) := by
  induction chunks generalizing ec with
  | nil => exact ⟨nofun, rfl, rfl⟩
  | cons c chunks ih =>
      obtain ⟨rx, tx⟩ := c
      obtain ⟨hchanno, heclin, hrun⟩ := ih (echoCanUpdate ec (law.xlaw tx) (law.xlaw rx)).1
      refine ⟨?_, congrArg (_ :: ·) heclin, hrun⟩
      exact List.forall_mem_cons.mpr ⟨rfl, hchanno⟩

/-! ### The sampler between two samples -/

/-- No sample is between the two functions. -/
structure Resting (s : Sampling) : Prop where
  inv : RecorderInv s.recorder
  inStep : InStep s.recorder
  inside : ∀ channo, s.recorder.inside channo = none

/-- What samples that go through leave behind: all of them in the record, and
those of the sampled line in the double buffer. -/
structure Passed (s : Sampling) (ss : List Sample) (s' : Sampling) : Prop where
  resting : Resting s'
  sampleCh : s'.recorder.tap.sampleCh = s.recorder.tap.sampleCh
  history : s'.recorder.history = s.recorder.history ++ ss
  holds : ∀ d, s.Holds d →
    s'.Holds ((ss.filter (·.channo = s.recorder.tap.sampleCh)).foldl
      (DoubleBuffer.push sampleBufSz) d)

theorem Resting.sample {s : Sampling} (h : Resting s) (x : Sample) :
    Passed s [x] (sampling.run s (x.events.map .kernel)) := by
  obtain ⟨s₁, hs₁⟩ : ∃ s₁, s₁ = s.kernel (.before x.channo x.rxlin x.txlin) := ⟨_, rfl⟩
  have hrun : sampling.run s (x.events.map .kernel) = s₁.kernel (.after x.channo x.eclin) := by
    rw [hs₁]
    rfl
  have horderly : Orderly s.recorder (.before x.channo x.rxlin x.txlin) :=
    h.inStep.orderly (h.inside x.channo)
  have hinv : RecorderInv s₁.recorder := hs₁ ▸ (h.inv.step horderly).1
  have hinStep : InStep s₁.recorder :=
    hs₁ ▸ h.inStep.step (e := .before x.channo x.rxlin x.txlin) trivial
  have hinside : s₁.recorder.inside = Function.update s.recorder.inside x.channo
      (some ⟨s.recorder.serial, x.txlin, x.rxlin⟩) := by
    rw [hs₁]
    rfl
  have hself : s₁.recorder.inside x.channo = some ⟨s.recorder.serial, x.txlin, x.rxlin⟩ := by
    rw [hinside, Function.update_self]
  have hsampleCh : s₁.recorder.tap.sampleCh = s.recorder.tap.sampleCh :=
    hs₁ ▸ sampleCh_step s.recorder (e := .before x.channo x.rxlin x.txlin) rfl
  have hhistory : s₁.recorder.history = s.recorder.history := by
    rw [hs₁]
    rfl
  have horderly' : Orderly s₁.recorder (.after x.channo x.eclin) :=
    hinStep.orderly (hself.trans_ne (Option.some_ne_none _))
  rw [hrun]
  refine ⟨⟨(hinv.step horderly').1, hinStep.step trivial, ?_⟩, ?_, ?_, ?_⟩
  · intro channo
    change Function.update s₁.recorder.inside x.channo none channo = none
    rw [hinside, Function.update_idem, Function.update_apply, h.inside, ite_self]
  · exact (sampleCh_step s₁.recorder (e := .after x.channo x.eclin) rfl).trans hsampleCh
  · change s₁.recorder.history ++ ((s₁.recorder.inside x.channo).map _).toList = _
    rw [hself, hhistory]
    rfl
  · intro d hd
    have hd₁ : s₁.Holds d := hs₁ ▸ hd.before h.inv horderly
    by_cases hch : x.channo = s.recorder.tap.sampleCh
    · have hrec : s₁.recorder.tap.Records x.channo := ⟨hd₁.recording, hch.trans hsampleCh.symm⟩
      obtain ⟨y, hy, hunfinished⟩ := horderly' hrec
      obtain rfl := Option.some.inj (hself.symm.trans hy)
      rw [List.filter_cons_of_pos (by simpa using hch), List.filter_nil]
      exact hd₁.after_recorded hinv hrec hself hunfinished
    · have hrec : ¬ s₁.recorder.tap.Records x.channo := fun hrec => hch (hrec.2.trans hsampleCh)
      rw [List.filter_cons_of_neg (by simpa using hch), List.filter_nil]
      exact hd₁.after_skipped hrec

theorem Passed.trans {s s' s'' : Sampling} {ss ss' : List Sample} (h : Passed s ss s')
    (h' : Passed s' ss' s'') : Passed s (ss ++ ss') s'' := by
  refine ⟨h'.resting, h'.sampleCh.trans h.sampleCh, ?_, fun d hd => ?_⟩
  · rw [h'.history, h.history, List.append_assoc]
  · have hd' := h'.holds _ (h.holds d hd)
    rwa [h.sampleCh, ← List.foldl_append, ← List.filter_append] at hd'

theorem Resting.passed_nil {s : Sampling} (h : Resting s) : Passed s [] s :=
  ⟨h, rfl, (List.append_nil _).symm, fun _ hd => hd⟩

theorem Resting.samples {s : Sampling} (h : Resting s) (ss : List Sample) :
    Passed s ss (sampling.run s ((ss.flatMap Sample.events).map .kernel)) := by
  induction ss generalizing s with
  | nil => exact h.passed_nil
  | cons x ss ih =>
      have hfirst := h.sample x
      have hrest := ih hfirst.resting
      rw [List.flatMap_cons, List.map_append, Mealy.run_append]
      exact hfirst.trans hrest

/-! ### The session -/

/-- The driver, and the sampling program beside it. -/
structure Session where
  zaptel : Zaptel
  sampling : Sampling

def Session.load : Session := ⟨Zaptel.load, Sampling.load⟩

/-- An action of the driver, or one half of a `read` of the program. -/
inductive SessionAction
  | driver (a : ZaptelAction)
  | sleep
  | copy

/-- The samples that an action of the driver takes past the sampler. -/
def Zaptel.samples (z : Zaptel) : ZaptelAction → List Sample
  | .line channo (.receive law rxchunk txchunk) =>
      match z.ec channo with
      | none => []
      | some ec => ecSamples law channo ec (rxchunk.bytes.zip txchunk.bytes)
  | _ => []

/-- The file operations on the sampler. -/
def ZaptelAction.fileOperation? : ZaptelAction → Option TapEvent
  | .sampleOpen => some .sampleOpen
  | .sampleRelease => some .sampleRelease
  | .setChannel channo => some (.setChannel channo)
  | _ => none

/-- What an action of the driver asks of the sampler. -/
def Zaptel.tapEvents (z : Zaptel) (a : ZaptelAction) : List TapEvent :=
  (z.samples a).flatMap Sample.events ++ a.fileOperation?.toList

def session (lin2mu : ℤ → UInt8) : Mealy Session SessionAction Unit where
  step s
    | .driver a =>
        ({ zaptel := ((zaptel lin2mu).step s.zaptel a).1
           sampling := sampling.run s.sampling ((s.zaptel.tapEvents a).map .kernel) }, ())
    | .sleep => ({ s with sampling := (sampling.step s.sampling .sleep).1 }, ())
    | .copy => ({ s with sampling := (sampling.step s.sampling .copy).1 }, ())

def ZaptelAction.Writes : ZaptelAction → Prop
  | .procWriteMode _ | .procWriteReset => True
  | _ => False

/-- The program reads in time, and what is written to the `/proc` files does not
reach the canceller of line `c`. -/
def Undisturbed (c : ℤ) (s : Session) : SessionAction → Prop
  | .driver a => a.Writes → s.zaptel.monEc ≠ some c
  | .sleep => Admissible s.sampling .sleep
  | .copy => Admissible s.sampling .copy

/-- The samples of line `c` that have passed. -/
def Session.heard (c : ℤ) (s : Session) : List Sample :=
  s.sampling.recorder.history.filter (·.channo = c)

/-! ### One action -/

theorem Zaptel.filter_samples (z : Zaptel) {c : ℤ} {a : ZaptelAction}
    (h : z.ec c = none ∨ ∀ law rxchunk txchunk, a ≠ .line c (.receive law rxchunk txchunk)) :
    (z.samples a).filter (·.channo = c) = [] := by
  rw [List.filter_eq_nil_iff]
  intro s hs hsc
  have hc : s.channo = c := by simpa using hsc
  cases a with
  | line channo a =>
      cases a with
      | receive law rxchunk txchunk =>
          rw [samples] at hs
          cases hec : z.ec channo with
          | none =>
              rw [hec] at hs
              cases hs
          | some ec =>
              rw [hec] at hs
              have hchanno := (ecSamples_spec law channo ec _).1 s hs
              obtain rfl : channo = c := hchanno.symm.trans hc
              rcases h with h | h
              · cases hec.symm.trans h
              · exact h law rxchunk txchunk rfl
      | _ => cases hs
  | _ => cases hs

/-- A line action or a write changes the sampler by its samples only. -/
theorem Session.passed (lin2mu : ℤ → UInt8) {s : Session} (h : Resting s.sampling)
    {a : ZaptelAction} (ha : a.fileOperation? = none) :
    Passed s.sampling (s.zaptel.samples a) ((session lin2mu).step s (.driver a)).1.sampling := by
  have hevents : s.zaptel.tapEvents a = (s.zaptel.samples a).flatMap Sample.events := by
    rw [Zaptel.tapEvents, ha]
    exact List.append_nil _
  change Passed _ _ (Oslec.sampling.run s.sampling ((s.zaptel.tapEvents a).map .kernel))
  rw [hevents]
  exact h.samples _

theorem Session.heard_step (lin2mu : ℤ → UInt8) {s : Session} (h : Resting s.sampling)
    {a : ZaptelAction} (ha : a.fileOperation? = none) (c : ℤ) :
    ((session lin2mu).step s (.driver a)).1.heard c =
      s.heard c ++ (s.zaptel.samples a).filter (·.channo = c) := by
  rw [heard, (passed lin2mu h ha).history, List.filter_append]
  rfl

/-- The file operations come between two samples. -/
theorem Resting.fileOperation {s : Sampling} (h : Resting s) {a : ZaptelAction} {e : TapEvent}
    (he : a.fileOperation? = some e) :
    Resting (s.kernel e) ∧ (s.kernel e).recorder.history = s.recorder.history := by
  obtain ⟨hopen, hrelease, hset⟩ := h.inv.fileOperation
  cases a with
  | sampleOpen =>
      obtain rfl := Option.some.inj he
      exact ⟨⟨hopen, h.inStep.step (e := .sampleOpen) h.inside, h.inside⟩, rfl⟩
  | sampleRelease =>
      obtain rfl := Option.some.inj he
      exact ⟨⟨hrelease, h.inStep.step (e := .sampleRelease) trivial, h.inside⟩, rfl⟩
  | setChannel channo =>
      obtain rfl := Option.some.inj he
      exact ⟨⟨hset channo, h.inStep.step (e := .setChannel channo) h.inside, h.inside⟩, rfl⟩
  | _ => cases he

/-- There has not been a call on line `c` yet. -/
structure Uncalled (c : ℤ) (s : Session) : Prop where
  resting : Resting s.sampling
  ec : s.zaptel.ec c = none
  heard : s.heard c = []

/-- What an action on line `c` can do before the call. -/
theorem Zaptel.ec_step_none (lin2mu : ℤ → UInt8) {z : Zaptel} {c : ℤ} (h : z.ec c = none)
    {a : ZaptelAction} (ha : ∀ n, a ≠ .line c (.attach n)) :
    ((zaptel lin2mu).step z a).1.ec c = none := by
  cases a with
  | line channo a =>
      by_cases hc : channo = c
      · subst hc
        rw [(zaptel_line_step lin2mu z channo a).2, if_pos rfl, h]
        cases a with
        | attach n => exact absurd rfl (ha n)
        | _ => rfl
      · rw [(zaptel_line_step lin2mu z channo a).2, if_neg hc]
        exact h
  | procWriteMode mode =>
      change (z.procWrite _).ec c = none
      rw [ec_procWrite, h, Option.map_none, ite_self]
  | procWriteReset =>
      change (z.procWrite _).ec c = none
      rw [ec_procWrite, h, Option.map_none, ite_self]
  | _ => exact h

theorem Uncalled.driver (lin2mu : ℤ → UInt8) {c : ℤ} {s : Session} (h : Uncalled c s)
    {a : ZaptelAction} (ha : ∀ n, a ≠ .line c (.attach n)) :
    Uncalled c ((session lin2mu).step s (.driver a)).1 := by
  have hec := Zaptel.ec_step_none lin2mu h.ec ha
  cases hfile : a.fileOperation? with
  | none =>
      refine ⟨(Session.passed lin2mu h.resting hfile).resting, hec, ?_⟩
      rw [Session.heard_step lin2mu h.resting hfile, h.heard,
        Zaptel.filter_samples _ (Or.inl h.ec)]
      rfl
  | some e =>
      have hevents : s.zaptel.tapEvents a = [e] := by
        rw [Zaptel.tapEvents, hfile]
        cases a with
        | line channo a => cases hfile
        | _ => rfl
      have hsampling : ((session lin2mu).step s (.driver a)).1.sampling = s.sampling.kernel e := by
        change sampling.run s.sampling ((s.zaptel.tapEvents a).map .kernel) = _
        rw [hevents]
        rfl
      obtain ⟨hresting, hhistory⟩ := h.resting.fileOperation hfile
      refine ⟨hsampling ▸ hresting, hec, ?_⟩
      rw [Session.heard, hsampling, hhistory]
      exact h.heard

/-- The program records line `c`: what has passed is in the double buffer, or
has been taken from it. -/
structure Recording (c : ℤ) (s : Session) : Prop where
  resting : Resting s.sampling
  sampleCh : s.sampling.recorder.tap.sampleCh = c
  stream : ∃ d, s.sampling.Holds d ∧ d.Conserves sampleBufSz (s.heard c)

theorem Recording.step (lin2mu : ℤ → UInt8) {c : ℤ} {s : Session} (h : Recording c s)
    {a : SessionAction} (hfile : ∀ b, a = .driver b → b.fileOperation? = none)
    (hundisturbed : Undisturbed c s a) : Recording c ((session lin2mu).step s a).1 := by
  obtain ⟨d, hholds, hconserves⟩ := h.stream
  cases a with
  | driver a =>
      have hpassed := Session.passed lin2mu h.resting (hfile a rfl)
      have hheld := hpassed.holds d hholds
      rw [h.sampleCh] at hheld
      refine ⟨hpassed.resting, hpassed.sampleCh.trans h.sampleCh, _, hheld, ?_⟩
      rw [Session.heard_step lin2mu h.resting (hfile a rfl)]
      exact hconserves.foldl_push _
  | sleep =>
      exact ⟨⟨h.resting.inv, h.resting.inStep, h.resting.inside⟩, h.sampleCh, d, hholds.sleep,
        hconserves⟩
  | copy =>
      have htime : d.InTime := by
        rw [DoubleBuffer.InTime, ← hholds.swaps, ← hholds.reads]
        exact hundisturbed.2
      have hswaps : 0 < d.swaps := htime ▸ Nat.succ_pos _
      exact ⟨⟨h.resting.inv, h.resting.inStep, h.resting.inside⟩, h.sampleCh, d.take,
        hholds.copy (hconserves.length_full hswaps) hswaps, hconserves.take htime⟩

/-- The canceller of line `c`, as long as the call lasts, is that of a replay of
what has passed, the tx filter apart. -/
structure Replays (c : ℤ) (tapLength : ℕ) (s : Session) : Prop where
  ec : ∀ ec, s.zaptel.ec c = some ec →
    ∃ f, ec = ((echoCanCreate tapLength createMode).after (s.heard c)).withTxDc f
  eclin : (s.heard c).map Sample.eclin =
    (echoCanCreate tapLength createMode).replayed (s.heard c)

/-- A transmitted chunk leaves the canceller of its line as it is, the tx filter apart. -/
theorem Zaptel.ec_transmit (lin2mu : ℤ → UInt8) {z : Zaptel} {c : ℤ} {ec : EchoCan}
    (h : z.ec c = some ec) (law : Law) (confmode : Bool) (writechunk : Chunk) :
    ∃ f, ((zaptel lin2mu).step z (.line c (.transmit law confmode writechunk))).1.ec c =
      some (ec.withTxDc f) := by
  obtain ⟨f, hf⟩ := hpfTxLoop_withTxDc law ec
    (if confmode then writechunk.bytes else z.driver.ztTransmitChunk lin2mu writechunk.bytes)
  rw [hpfTxLoop_eq] at hf
  refine ⟨f, ?_⟩
  rw [(zaptel_line_step lin2mu z c _).2, if_pos rfl, h, ← hf]
  rfl

/-- An action that takes no sample of line `c` past the sampler leaves its canceller
to the replay if it changes no more of it than the tx filter, or frees it. -/
theorem Replays.unheard (lin2mu : ℤ → UInt8) {c : ℤ} {tapLength : ℕ} {s : Session}
    (h : Replays c tapLength s) (hresting : Resting s.sampling) {a : ZaptelAction}
    (hfile : a.fileOperation? = none)
    (hsamples : (s.zaptel.samples a).filter (·.channo = c) = [])
    (hec : ∀ ec, ((zaptel lin2mu).step s.zaptel a).1.ec c = some ec →
      ∃ ec' f, s.zaptel.ec c = some ec' ∧ ec = ec'.withTxDc f) :
    Replays c tapLength ((session lin2mu).step s (.driver a)).1 := by
  have hheard := Session.heard_step lin2mu hresting hfile c
  rw [hsamples, List.append_nil] at hheard
  refine ⟨?_, by rw [hheard, h.eclin]⟩
  intro ec hstep
  obtain ⟨ec', f, hec', rfl⟩ := hec ec hstep
  obtain ⟨g, rfl⟩ := h.ec ec' hec'
  exact ⟨f, by rw [hheard]; rfl⟩

/-- A received chunk. -/
theorem Replays.receive (lin2mu : ℤ → UInt8) {c : ℤ} {tapLength : ℕ} {s : Session}
    (h : Replays c tapLength s) (hresting : Resting s.sampling) {ec : EchoCan}
    (hec : s.zaptel.ec c = some ec) (law : Law) (rxchunk txchunk : Chunk) :
    Replays c tapLength
      ((session lin2mu).step s (.driver (.line c (.receive law rxchunk txchunk)))).1 := by
  have hheard := Session.heard_step lin2mu hresting
    (a := .line c (.receive law rxchunk txchunk)) rfl c
  obtain ⟨f, rfl⟩ := h.ec ec hec
  have hsamples : s.zaptel.samples (.line c (.receive law rxchunk txchunk)) =
      ecSamples law c (((echoCanCreate tapLength createMode).after (s.heard c)).withTxDc f)
        (rxchunk.bytes.zip txchunk.bytes) := by
    rw [Zaptel.samples, hec]
  obtain ⟨hchanno, hreplayed, hrun⟩ := ecSamples_spec law c
    (((echoCanCreate tapLength createMode).after (s.heard c)).withTxDc f)
    (rxchunk.bytes.zip txchunk.bytes)
  rw [← hsamples] at hchanno hreplayed hrun
  rw [EchoCan.after_withTxDc, ← EchoCan.after_append] at hrun
  rw [EchoCan.replayed_withTxDc] at hreplayed
  rw [List.filter_eq_self.mpr fun x hx => decide_eq_true (hchanno x hx)] at hheard
  refine ⟨?_, ?_⟩
  · intro ec' hec'
    change ((zaptel lin2mu).step s.zaptel _).1.ec c = some ec' at hec'
    rw [(zaptel_line_step lin2mu s.zaptel c _).2, if_pos rfl, hec] at hec'
    refine ⟨f, ?_⟩
    rw [hheard, ← hrun]
    exact (Option.some.inj hec').symm
  · rw [hheard, List.map_append, EchoCan.replayed_append, hreplayed, h.eclin]

theorem Replays.driver (lin2mu : ℤ → UInt8) {c : ℤ} {tapLength : ℕ} {s : Session}
    (h : Replays c tapLength s) (hresting : Resting s.sampling) {a : ZaptelAction}
    (hfile : a.fileOperation? = none) (hattach : ∀ n, a ≠ .line c (.attach n))
    (hwrites : a.Writes → s.zaptel.monEc ≠ some c) :
    Replays c tapLength ((session lin2mu).step s (.driver a)).1 := by
  -- what leaves the canceller of the line as it is
  have hkept : ((zaptel lin2mu).step s.zaptel a).1.ec c = s.zaptel.ec c →
      (∀ law rxchunk txchunk, a ≠ .line c (.receive law rxchunk txchunk)) →
      Replays c tapLength ((session lin2mu).step s (.driver a)).1 := by
    intro hsame hreceive
    refine h.unheard lin2mu hresting hfile (Zaptel.filter_samples _ (Or.inr hreceive)) ?_
    intro ec hec
    exact ⟨ec, ec.txDc, hsame ▸ hec, rfl⟩
  cases a with
  | line channo a =>
      by_cases hc : channo = c
      · subst hc
        cases hec : s.zaptel.ec channo with
        | none =>
            refine h.unheard lin2mu hresting hfile (Zaptel.filter_samples _ (Or.inl hec)) ?_
            intro ec hstep
            rw [Zaptel.ec_step_none lin2mu hec hattach] at hstep
            cases hstep
        | some ec =>
            cases a with
            | attach n => exact absurd rfl (hattach n)
            | detach =>
                refine h.unheard lin2mu hresting hfile
                  (Zaptel.filter_samples _ (Or.inr fun _ _ _ heq => by cases heq)) ?_
                intro ec' hstep
                rw [(zaptel_line_step lin2mu s.zaptel channo _).2, if_pos rfl] at hstep
                cases hstep
            | transmit law confmode writechunk =>
                refine h.unheard lin2mu hresting hfile
                  (Zaptel.filter_samples _ (Or.inr fun _ _ _ heq => by cases heq)) ?_
                intro ec' hstep
                obtain ⟨g, hg⟩ := Zaptel.ec_transmit lin2mu hec law confmode writechunk
                exact ⟨ec, g, hec, Option.some.inj (hstep.symm.trans hg)⟩
            | receive law rxchunk txchunk =>
                exact h.receive lin2mu hresting hec law rxchunk txchunk
      · refine hkept ?_ fun law rxchunk txchunk heq => ?_
        · rw [(zaptel_line_step lin2mu s.zaptel channo a).2, if_neg hc]
        · cases heq
          exact hc rfl
  | procWriteMode mode =>
      refine hkept ?_ nofun
      exact (s.zaptel.ec_procWrite c _).trans (if_neg (hwrites trivial))
  | procWriteReset =>
      refine hkept ?_ nofun
      exact (s.zaptel.ec_procWrite c _).trans (if_neg (hwrites trivial))
  | txImpulse => exact hkept rfl nofun
  | _ => cases hfile

/-! ### The run of a recorded call -/

/-- Nothing has been read yet. -/
structure Unread (s : Sampling) : Prop where
  reads : s.reads = 0
  files : s.files = .empty

theorem Unread.run {s : Sampling} (h : Unread s) (events : List TapEvent) :
    Unread (sampling.run s (events.map .kernel)) := by
  induction events generalizing s with
  | nil => exact h
  | cons e events ih => exact ih (s := s.kernel e) ⟨h.reads, h.files⟩

section

variable (lin2mu : ℤ → UInt8) {c : ℤ} {s : Session}

theorem Uncalled.past (h : Uncalled c s) (hunread : Unread s.sampling) {past : List ZaptelAction}
    (hpast : ∀ a ∈ past, ∀ n, a ≠ .line c (.attach n)) :
    Uncalled c ((session lin2mu).run s (past.map .driver)) ∧
      Unread ((session lin2mu).run s (past.map .driver)).sampling := by
  induction past generalizing s with
  | nil => exact ⟨h, hunread⟩
  | cons a past ih =>
      obtain ⟨ha, hpast⟩ := List.forall_mem_cons.mp hpast
      exact ih (h.driver lin2mu ha) (hunread.run _) hpast

theorem Uncalled.sampleOpen (h : Uncalled c s) (hunread : Unread s.sampling) :
    Uncalled c ((session lin2mu).step s (.driver .sampleOpen)).1 ∧
      ((session lin2mu).step s (.driver .sampleOpen)).1.sampling.Holds .empty ∧
      ((session lin2mu).step s (.driver .sampleOpen)).1.sampling.recorder.tap.sampleCh =
        s.sampling.recorder.tap.sampleCh := by
  refine ⟨h.driver lin2mu nofun, ?_, rfl⟩
  exact ⟨nofun, rfl, rfl, fun hswaps => absurd hswaps (Nat.lt_irrefl 0), rfl, hunread.reads,
    hunread.files⟩

theorem Uncalled.opened {q : ℤ} (h : Uncalled c s) (hholds : s.sampling.Holds .empty)
    (hq : s.sampling.recorder.tap.sampleCh = q) {opened : List ZaptelAction}
    (hfirst : ∀ a ∈ opened, ∀ n, a ≠ .line c (.attach n))
    (hfile : ∀ a ∈ opened, a.fileOperation? = none)
    (hprevious : q ≠ c → ∀ a ∈ opened, ∀ law rxchunk txchunk,
      a ≠ .line q (.receive law rxchunk txchunk)) :
    Uncalled c ((session lin2mu).run s (opened.map .driver)) ∧
      ((session lin2mu).run s (opened.map .driver)).sampling.Holds .empty := by
  induction opened generalizing s with
  | nil => exact ⟨h, hholds⟩
  | cons a opened ih =>
      obtain ⟨ha, hfirst⟩ := List.forall_mem_cons.mp hfirst
      obtain ⟨hafile, hfile⟩ := List.forall_mem_cons.mp hfile
      have hsilent : (s.zaptel.samples a).filter (·.channo = q) = [] := by
        by_cases hqc : q = c
        · exact Zaptel.filter_samples _ (Or.inl (hqc ▸ h.ec))
        · exact Zaptel.filter_samples _ (Or.inr (hprevious hqc a List.mem_cons_self))
      have hpassed := Session.passed lin2mu h.resting hafile
      have hheld := hpassed.holds .empty hholds
      rw [hq, hsilent] at hheld
      exact ih (h.driver lin2mu ha) hheld (hpassed.sampleCh.trans hq) hfirst hfile
        fun hqc b hb => hprevious hqc b (List.mem_cons_of_mem _ hb)

theorem Uncalled.setChannel (h : Uncalled c s) (hholds : s.sampling.Holds .empty) :
    Uncalled c ((session lin2mu).step s (.driver (.setChannel c))).1 ∧
      Recording c ((session lin2mu).step s (.driver (.setChannel c))).1 := by
  have huncalled := h.driver lin2mu (a := .setChannel c) nofun
  refine ⟨huncalled, huncalled.resting, rfl, .empty, hholds.setChannel c, ?_⟩
  rw [huncalled.heard]
  exact DoubleBuffer.conserves_empty (by decide)

theorem Uncalled.waiting (h : Uncalled c s) (hrecording : Recording c s)
    {waiting : List SessionAction} (hfirst : ∀ a ∈ waiting, ∀ n, a ≠ .driver (.line c (.attach n)))
    (hfile : ∀ a, .driver a ∈ waiting → a.fileOperation? = none)
    (hundisturbed : ∀ t ∈ (session lin2mu).trace s waiting, Undisturbed c t.before t.input) :
    Uncalled c ((session lin2mu).run s waiting) ∧ Recording c ((session lin2mu).run s waiting) := by
  refine (session lin2mu).run_invariant_of_trace (I := fun s => Uncalled c s ∧ Recording c s)
    (G := fun s a => Undisturbed c s a ∧ a ∈ waiting) ?_ ⟨h, hrecording⟩
    fun t ht => ⟨hundisturbed t ht, (session lin2mu).input_mem_of_mem_trace ht⟩
  rintro s a ⟨h, hrecording⟩ ⟨hundisturbed, ha⟩
  have hnext := hrecording.step lin2mu (fun b hb => hfile b (hb ▸ ha)) hundisturbed
  cases a with
  | driver a => exact ⟨h.driver lin2mu fun n hn => hfirst _ ha n (congrArg _ hn), hnext⟩
  | sleep => exact ⟨⟨hnext.resting, h.ec, h.heard⟩, hnext⟩
  | copy => exact ⟨⟨hnext.resting, h.ec, h.heard⟩, hnext⟩

theorem Uncalled.attach (h : Uncalled c s) (hrecording : Recording c s) (tapLength : ℕ) :
    Recording c ((session lin2mu).step s (.driver (.line c (.attach tapLength)))).1 ∧
      Replays c tapLength ((session lin2mu).step s (.driver (.line c (.attach tapLength)))).1 := by
  have hheard : ((session lin2mu).step s (.driver (.line c (.attach tapLength)))).1.heard c = [] := by
    rw [Session.heard_step lin2mu h.resting rfl, h.heard]
    rfl
  refine ⟨hrecording.step lin2mu (fun b hb => ?_) nofun, ?_, ?_⟩
  · cases hb
    rfl
  · intro ec hec
    rw [hheard]
    have hnew : some ec = some (echoCanCreate tapLength createMode) :=
      hec.symm.trans ((s.zaptel.ec_attach c c tapLength).trans (if_pos rfl))
    exact ⟨⟨0, 0⟩, Option.some.inj hnew⟩
  · rw [hheard]
    rfl

theorem Replays.call {tapLength : ℕ} (h : Replays c tapLength s) (hrecording : Recording c s)
    {call : List SessionAction}
    (honly : ∀ a ∈ call, ∀ n, a ≠ .driver (.line c (.attach n)))
    (hfile : ∀ a, .driver a ∈ call → a.fileOperation? = none)
    (hundisturbed : ∀ t ∈ (session lin2mu).trace s call, Undisturbed c t.before t.input) :
    Recording c ((session lin2mu).run s call) ∧
      Replays c tapLength ((session lin2mu).run s call) := by
  refine (session lin2mu).run_invariant_of_trace
    (I := fun s => Recording c s ∧ Replays c tapLength s)
    (G := fun s a => Undisturbed c s a ∧ a ∈ call) ?_ ⟨hrecording, h⟩
    fun t ht => ⟨hundisturbed t ht, (session lin2mu).input_mem_of_mem_trace ht⟩
  rintro s a ⟨hrecording, h⟩ ⟨hundisturbed, ha⟩
  refine ⟨hrecording.step lin2mu (fun b hb => hfile b (hb ▸ ha)) hundisturbed, ?_⟩
  cases a with
  | driver a =>
      exact h.driver lin2mu hrecording.resting (hfile a ha)
        (fun n hn => honly _ ha n (congrArg _ hn)) hundisturbed
  | sleep => exact ⟨h.ec, h.eclin⟩
  | copy => exact ⟨h.ec, h.eclin⟩

end

end Oslec
