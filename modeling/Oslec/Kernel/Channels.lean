import Oslec.Kernel.Impulse
import Oslec.Kernel.Monitor

/-!
The voice path that the Zaptel patch lays through the canceller: every line has
a canceller of its own or none, a chunk that leaves a line passes the tx filter,
and a chunk that arrives passes the canceller between the two functions of the
sampler. All lines share the sampler and the `/proc` files of the wrapper; a
call is isolated from the others nevertheless, unless it is the monitored one.

Zaptel itself is not part of the patch. Its conversions between linear samples
and the bytes of a line are a parameter of every chunk, and it keeps the order
that its own code has: a line's canceller is freed before the line gets another
one, and nothing is cancelled on a line that has none.
-/

namespace Oslec

/-! ### Chunks -/

/-- The conversions of a line, `ZT_XLAW` and `ZT_LIN2X`. -/
structure Law where
  xlaw : UInt8 → Int16
  lin2x : ℤ → UInt8

/-- A buffer of `ZT_CHUNKSIZE` bytes. -/
structure Chunk where
  bytes : List UInt8
  length_bytes : bytes.length = ztChunksize

/-- The loop that the patch adds to `__zt_real_transmit`. -/
def hpfTxLoop (law : Law) (ec : EchoCan) : List UInt8 → EchoCan × List UInt8
  | [] => (ec, [])
  | c :: writechunk =>
      let f := echoCanHpfTx ec (law.xlaw c)
      let r := hpfTxLoop law f.1 writechunk
      (r.1, law.lin2x f.2.toInt :: r.2)

/-- The loop of `__zt_ec_chunk`, over the bytes of the two chunks. -/
def ztEcLoop (law : Law) (channo : ℤ) (ec : EchoCan) (z : Zaptap) :
    List (UInt8 × UInt8) → EchoCan × Zaptap × List UInt8
  | [] => (ec, z, [])
  | (rx, tx) :: chunks =>
      let rxlin := law.xlaw rx
      let z := (z.sampleEchoBefore channo rxlin (law.xlaw tx)).1
      let u := echoCanUpdate ec (law.xlaw tx) rxlin
      let z := (z.sampleEchoAfter channo u.2).1
      let r := ztEcLoop law channo u.1 z chunks
      (r.1, r.2.1, law.lin2x u.2.toInt :: r.2.2)

/-! ### The driver -/

/-- What Zaptel does with one line. A chunk that is transmitted comes from the
line itself or, in `confmode`, from a conference. -/
inductive LineAction
  | attach (tapLength : ℕ)
  | detach
  | transmit (law : Law) (confmode : Bool) (writechunk : Chunk)
  | receive (law : Law) (rxchunk txchunk : Chunk)

/-- The actions of the driver: those of its lines, the file operations of the
sampler, and writes to the `/proc` files. -/
inductive ZaptelAction
  | line (channo : ℤ) (a : LineAction)
  | sampleOpen
  | sampleRelease
  | setChannel (channo : ℤ)
  | txImpulse
  | procWriteMode (mode : BitVec 32)
  | procWriteReset

/-- The cancellers of the lines, the line whose canceller `mon_ec` points to,
and the sampler. -/
structure Zaptel where
  ec : ℤ → Option EchoCan
  monEc : Option ℤ
  driver : ZaptapDriver

namespace Zaptel

def load : Zaptel := ⟨fun _ => none, none, ZaptapDriver.load⟩

/-- `echo_can_free` on the canceller of a line, if it has one. -/
def detach (z : Zaptel) (channo : ℤ) : Zaptel :=
  { z with
    ec := Function.update z.ec channo none
    monEc := if z.monEc = some channo then none else z.monEc }

def attach (z : Zaptel) (channo : ℤ) (tapLength : ℕ) : Zaptel :=
  let z := z.detach channo
  { z with
    ec := Function.update z.ec channo (some (echoCanCreate tapLength createMode))
    monEc := if z.monEc = none then some channo else z.monEc }

/-- `__zt_real_transmit`. -/
def ztRealTransmit (lin2mu : ℤ → UInt8) (z : Zaptel) (channo : ℤ) (law : Law) (confmode : Bool)
    (writechunk : List UInt8) : Zaptel × List UInt8 :=
  let buf := if confmode then writechunk else z.driver.ztTransmitChunk lin2mu writechunk
  match z.ec channo with
  | none => (z, buf)
  | some ec =>
      let r := hpfTxLoop law ec buf
      ({ z with ec := Function.update z.ec channo (some r.1) }, r.2)

/-- `__zt_ec_chunk`. -/
def ztEcChunk (z : Zaptel) (channo : ℤ) (law : Law) (rxchunk txchunk : List UInt8) :
    Zaptel × List UInt8 :=
  match z.ec channo with
  | none => (z, rxchunk)
  | some ec =>
      let r := ztEcLoop law channo ec z.driver.tap (rxchunk.zip txchunk)
      ({ z with
         ec := Function.update z.ec channo (some r.1)
         driver := { z.driver with tap := r.2.1 } }, r.2.2)

/-- A write through `/proc` changes the monitored canceller, if there is one. -/
def procWrite (z : Zaptel) (f : EchoCan → EchoCan) : Zaptel :=
  match z.monEc with
  | none => z
  | some channo => { z with ec := Function.update z.ec channo ((z.ec channo).map f) }

end Zaptel

/-- The driver as a machine that answers a chunk with what becomes of it. -/
def zaptel (lin2mu : ℤ → UInt8) : Mealy Zaptel ZaptelAction (Option (List UInt8)) where
  step z
    | .line channo (.attach tapLength) => (z.attach channo tapLength, none)
    | .line channo .detach => (z.detach channo, none)
    | .line channo (.transmit law confmode writechunk) =>
        let r := z.ztRealTransmit lin2mu channo law confmode writechunk.bytes
        (r.1, some r.2)
    | .line channo (.receive law rxchunk txchunk) =>
        let r := z.ztEcChunk channo law rxchunk.bytes txchunk.bytes
        (r.1, some r.2)
    | .sampleOpen => ({ z with driver := { z.driver with tap := z.driver.tap.sampleOpen } }, none)
    | .sampleRelease =>
        ({ z with driver := { tap := z.driver.tap.sampleRelease, sampleImpulse := false } }, none)
    | .setChannel channo =>
        ({ z with driver := { z.driver with tap := z.driver.tap.setChannel channo } }, none)
    | .txImpulse => ({ z with driver := { z.driver with sampleImpulse := true } }, none)
    | .procWriteMode mode => (z.procWrite (echoCanAdaptionMode · mode), none)
    | .procWriteReset => (z.procWrite echoCanFlush, none)

/-! ### One line by itself -/

/-- What a line alone sees of the driver. -/
inductive LineEvent
  | attach (tapLength : ℕ)
  | detach
  | transmit (law : Law) (buf : List UInt8)
  | receive (law : Law) (rxchunk txchunk : List UInt8)
  | control (c : Call)

/-- The canceller calls of a received chunk. -/
def Law.updates (law : Law) (chunks : List (UInt8 × UInt8)) : List Call :=
  chunks.map fun c => .update (law.xlaw c.2) (law.xlaw c.1)

/-- The calls of the canceller that process a chunk, sample by sample. -/
def LineEvent.calls : LineEvent → List Call
  | .transmit law buf => buf.map fun c => .hpfTx (law.xlaw c)
  | .receive law rxchunk txchunk => law.updates (rxchunk.zip txchunk)
  | .control c => [c]
  | _ => []

def Law.encode (law : Law) (xs : List (Option Int16)) : List UInt8 :=
  xs.reduceOption.map fun x => law.lin2x x.toInt

/-- A line with nothing else in the world: a chunk is a run of the canceller,
and passes unchanged where there is none. -/
def line : Mealy (Option EchoCan) LineEvent (Option (List UInt8)) where
  step
    | _, .attach tapLength => (some (echoCanCreate tapLength createMode), none)
    | _, .detach => (none, none)
    | none, .transmit _ buf => (none, some buf)
    | none, .receive _ rxchunk _ => (none, some rxchunk)
    | none, .control _ => (none, none)
    | some ec, .transmit law buf =>
        (some (echoCan.run ec (LineEvent.transmit law buf).calls),
          some (law.encode (echoCan.outputs ec (LineEvent.transmit law buf).calls)))
    | some ec, .receive law rxchunk txchunk =>
        (some (echoCan.run ec (LineEvent.receive law rxchunk txchunk).calls),
          some (law.encode (echoCan.outputs ec (LineEvent.receive law rxchunk txchunk).calls)))
    | some ec, .control c => (some (echoCan.step ec c).1, none)

/-- An action on the line, with what the sampler makes of a chunk that is transmitted. -/
def LineAction.event (replace : List UInt8 → List UInt8) : LineAction → LineEvent
  | .attach tapLength => .attach tapLength
  | .detach => .detach
  | .transmit law confmode writechunk =>
      .transmit law (if confmode then writechunk.bytes else replace writechunk.bytes)
  | .receive law rxchunk txchunk => .receive law rxchunk.bytes txchunk.bytes

/-- What line `c` notices of an action: the `/proc` files only where its own
canceller is the monitored one. -/
def Zaptel.notice (lin2mu : ℤ → UInt8) (c : ℤ) (z : Zaptel) : ZaptelAction → Option LineEvent
  | .line channo a => if channo = c then some (a.event (z.driver.ztTransmitChunk lin2mu)) else none
  | .procWriteMode mode => if z.monEc = some c then some (.control (.adaptionMode mode)) else none
  | .procWriteReset => if z.monEc = some c then some (.control .flush) else none
  | _ => none

/-- The actions on line `c` itself. -/
def ZaptelAction.onLine (c : ℤ) : ZaptelAction → Option LineEvent
  | .line channo a => if channo = c then some (a.event id) else none
  | _ => none

/-! ### The loops as runs -/

/-- The sampler calls of a chunk. -/
def ecEvents (law : Law) (channo : ℤ) (ec : EchoCan) : List (UInt8 × UInt8) → List TapEvent
  | [] => []
  | (rx, tx) :: chunks =>
      let u := echoCanUpdate ec (law.xlaw tx) (law.xlaw rx)
      .before channo (law.xlaw rx) (law.xlaw tx) :: .after channo u.2 ::
        ecEvents law channo u.1 chunks

@[simp] theorem Law.encode_nil (law : Law) : law.encode [] = [] := rfl

@[simp] theorem Law.encode_cons_some (law : Law) (x : Int16) (xs : List (Option Int16)) :
    law.encode (some x :: xs) = law.lin2x x.toInt :: law.encode xs := rfl

theorem hpfTxLoop_eq (law : Law) (ec : EchoCan) (buf : List UInt8) :
    hpfTxLoop law ec buf =
      (echoCan.run ec (LineEvent.transmit law buf).calls,
        law.encode (echoCan.outputs ec (LineEvent.transmit law buf).calls)) := by
  induction buf generalizing ec with
  | nil => rfl
  | cons c buf ih =>
      rw [hpfTxLoop, ih]
      rfl

theorem ztEcLoop_eq (law : Law) (channo : ℤ) (ec : EchoCan) (z : Zaptap)
    (chunks : List (UInt8 × UInt8)) :
    ztEcLoop law channo ec z chunks =
      (echoCan.run ec (law.updates chunks), zaptap.run z (ecEvents law channo ec chunks),
        law.encode (echoCan.outputs ec (law.updates chunks))) := by
  induction chunks generalizing ec z with
  | nil => rfl
  | cons c chunks ih =>
      obtain ⟨rx, tx⟩ := c
      rw [ztEcLoop, ih]
      rfl

/-! ### The lines of the driver -/

section

variable (lin2mu : ℤ → UInt8) (z : Zaptel)

theorem Zaptel.ec_attach (c channo : ℤ) (tapLength : ℕ) :
    (z.attach channo tapLength).ec c =
      if channo = c then some (echoCanCreate tapLength createMode) else z.ec c := by
  simp only [attach, detach, Function.update_apply, eq_comm (a := c)]
  split <;> rfl

theorem Zaptel.ec_detach (c channo : ℤ) :
    (z.detach channo).ec c = if channo = c then none else z.ec c := by
  simp only [detach, Function.update_apply, eq_comm (a := c)]

theorem Zaptel.ec_procWrite (c : ℤ) (f : EchoCan → EchoCan) :
    (z.procWrite f).ec c = if z.monEc = some c then (z.ec c).map f else z.ec c := by
  rw [procWrite]
  cases z.monEc with
  | none => rfl
  | some channo =>
      simp only [Function.update_apply, Option.some.injEq, eq_comm (a := c)]
      split
      case isTrue h => rw [h]
      case isFalse => rfl

theorem line_step_control (ec : Option EchoCan) (c : Call) :
    line.step ec (.control c) = (ec.map fun e => (echoCan.step e c).1, none) := by
  cases ec <;> rfl

theorem Zaptel.ztRealTransmit_spec (channo : ℤ) (law : Law) (confmode : Bool) (chunk : Chunk) :
    let event := (LineAction.transmit law confmode chunk).event (z.driver.ztTransmitChunk lin2mu)
    some (z.ztRealTransmit lin2mu channo law confmode chunk.bytes).2 =
        (line.step (z.ec channo) event).2 ∧
      ∀ c, (z.ztRealTransmit lin2mu channo law confmode chunk.bytes).1.ec c =
        if channo = c then (line.step (z.ec channo) event).1 else z.ec c := by
  intro event
  rw [ztRealTransmit]
  cases hec : z.ec channo with
  | none =>
      refine ⟨rfl, fun c => ?_⟩
      by_cases h : channo = c
      · rw [if_pos h, ← h]
        exact hec
      · rw [if_neg h]
  | some ec =>
      simp only [hpfTxLoop_eq, Function.update_apply, eq_comm (a := channo)]
      exact ⟨rfl, fun c => rfl⟩

theorem Zaptel.ztEcChunk_spec (channo : ℤ) (law : Law) (rxchunk txchunk : List UInt8) :
    some (z.ztEcChunk channo law rxchunk txchunk).2 =
        (line.step (z.ec channo) (.receive law rxchunk txchunk)).2 ∧
      ∀ c, (z.ztEcChunk channo law rxchunk txchunk).1.ec c =
        if channo = c then (line.step (z.ec channo) (.receive law rxchunk txchunk)).1
        else z.ec c := by
  rw [ztEcChunk]
  cases hec : z.ec channo with
  | none =>
      refine ⟨rfl, fun c => ?_⟩
      by_cases h : channo = c
      · rw [if_pos h, ← h]
        exact hec
      · rw [if_neg h]
  | some ec =>
      simp only [ztEcLoop_eq, Function.update_apply, eq_comm (a := channo)]
      exact ⟨rfl, fun c => rfl⟩

end

/-- What the driver does for a line is what the line would do by itself. -/
theorem zaptel_line_step (lin2mu : ℤ → UInt8) (z : Zaptel) (channo : ℤ) (a : LineAction) :
    ((zaptel lin2mu).step z (.line channo a)).2 =
        (line.step (z.ec channo) (a.event (z.driver.ztTransmitChunk lin2mu))).2 ∧
      ∀ c, ((zaptel lin2mu).step z (.line channo a)).1.ec c =
        if channo = c then
          (line.step (z.ec channo) (a.event (z.driver.ztTransmitChunk lin2mu))).1
        else z.ec c := by
  cases a with
  | attach tapLength => exact ⟨rfl, fun c => z.ec_attach c channo tapLength⟩
  | detach => exact ⟨rfl, fun c => z.ec_detach c channo⟩
  | transmit law confmode chunk => exact z.ztRealTransmit_spec lin2mu channo law confmode chunk
  | receive law rxchunk txchunk => exact z.ztEcChunk_spec channo law rxchunk.bytes txchunk.bytes

theorem zaptel_projects (lin2mu : ℤ → UInt8) (c : ℤ) :
    (zaptel lin2mu).Projects line (fun z => z.ec c) (Zaptel.notice lin2mu c) id where
  seen := by
    intro z a e hsee
    cases a with
    | line channo a =>
        obtain ⟨rfl, he⟩ := Option.ite_none_right_eq_some.mp hsee
        obtain rfl := Option.some.inj he
        rw [(zaptel_line_step lin2mu z channo a).2, if_pos rfl]
    | procWriteMode mode =>
        obtain ⟨hmon, he⟩ := Option.ite_none_right_eq_some.mp hsee
        obtain rfl := Option.some.inj he
        rw [line_step_control]
        exact (z.ec_procWrite c _).trans (if_pos hmon)
    | procWriteReset =>
        obtain ⟨hmon, he⟩ := Option.ite_none_right_eq_some.mp hsee
        obtain rfl := Option.some.inj he
        rw [line_step_control]
        exact (z.ec_procWrite c _).trans (if_pos hmon)
    | _ => cases hsee
  said := by
    intro z a e hsee
    cases a with
    | line channo a =>
        obtain ⟨rfl, he⟩ := Option.ite_none_right_eq_some.mp hsee
        obtain rfl := Option.some.inj he
        exact (zaptel_line_step lin2mu z channo a).1
    | procWriteMode mode =>
        obtain ⟨-, he⟩ := Option.ite_none_right_eq_some.mp hsee
        obtain rfl := Option.some.inj he
        exact (congrArg Prod.snd (line_step_control _ _)).symm
    | procWriteReset =>
        obtain ⟨-, he⟩ := Option.ite_none_right_eq_some.mp hsee
        obtain rfl := Option.some.inj he
        exact (congrArg Prod.snd (line_step_control _ _)).symm
    | _ => cases hsee
  unseen := by
    intro z a hsee
    cases a with
    | line channo a =>
        have hne : channo ≠ c := fun h => by simp [Zaptel.notice, h] at hsee
        exact ((zaptel_line_step lin2mu z channo a).2 c).trans (if_neg hne)
    | procWriteMode mode =>
        have hne : z.monEc ≠ some c := fun h => by simp [Zaptel.notice, h] at hsee
        exact (z.ec_procWrite c _).trans (if_neg hne)
    | procWriteReset =>
        have hne : z.monEc ≠ some c := fun h => by simp [Zaptel.notice, h] at hsee
        exact (z.ec_procWrite c _).trans (if_neg hne)
    | _ => rfl

/-! ### A call among others -/

section

variable (lin2mu : ℤ → UInt8) {c : ℤ} {z : Zaptel} {a : ZaptelAction}

theorem Zaptel.ztRealTransmit_frame (z : Zaptel) (channo : ℤ) (law : Law) (confmode : Bool)
    (writechunk : List UInt8) :
    (z.ztRealTransmit lin2mu channo law confmode writechunk).1.monEc = z.monEc ∧
      (z.ztRealTransmit lin2mu channo law confmode writechunk).1.driver = z.driver := by
  rw [ztRealTransmit]
  cases z.ec channo with
  | none => exact ⟨rfl, rfl⟩
  | some ec => exact ⟨rfl, rfl⟩

theorem Zaptel.ztEcChunk_frame (z : Zaptel) (channo : ℤ) (law : Law)
    (rxchunk txchunk : List UInt8) :
    (z.ztEcChunk channo law rxchunk txchunk).1.monEc = z.monEc ∧
      (z.ztEcChunk channo law rxchunk txchunk).1.driver.sampleImpulse =
        z.driver.sampleImpulse := by
  rw [ztEcChunk]
  cases z.ec channo with
  | none => exact ⟨rfl, rfl⟩
  | some ec => exact ⟨rfl, rfl⟩

theorem Zaptel.procWrite_frame (z : Zaptel) (f : EchoCan → EchoCan) :
    (z.procWrite f).monEc = z.monEc ∧ (z.procWrite f).driver = z.driver := by
  rw [procWrite]
  split
  · exact ⟨rfl, rfl⟩
  · exact ⟨rfl, rfl⟩

theorem Zaptel.monEc_detach_ne (h : z.monEc ≠ some c) (channo : ℤ) :
    (z.detach channo).monEc ≠ some c := by
  rw [detach]
  split
  · nofun
  · exact h

/-- Only the line that a canceller is created for can become the monitored one. -/
theorem Zaptel.monEc_attach_ne (h : z.monEc ≠ some c) {channo : ℤ}
    (hother : channo = c → z.monEc ≠ none) (tapLength : ℕ) :
    (z.attach channo tapLength).monEc ≠ some c := by
  rw [attach]
  dsimp only
  split
  case isTrue hnone =>
    intro hsome
    obtain rfl := Option.some.inj hsome
    rw [detach, if_neg h] at hnone
    exact hother rfl hnone
  case isFalse => exact monEc_detach_ne h channo

/-- A line that is not monitored stays so, unless its canceller is created while
none is. -/
theorem monEc_step_ne (h : z.monEc ≠ some c)
    (hattach : ∀ tapLength, a = .line c (.attach tapLength) → z.monEc ≠ none) :
    ((zaptel lin2mu).step z a).1.monEc ≠ some c := by
  cases a with
  | line channo a =>
      cases a with
      | attach tapLength =>
          exact Zaptel.monEc_attach_ne h (fun hc => hattach tapLength (by rw [hc])) tapLength
      | detach => exact Zaptel.monEc_detach_ne h channo
      | transmit law confmode writechunk =>
          exact (z.ztRealTransmit_frame lin2mu channo law confmode _).1.trans_ne h
      | receive law rxchunk txchunk => exact (z.ztEcChunk_frame channo law _ _).1.trans_ne h
  | procWriteMode mode => exact (z.procWrite_frame _).1.trans_ne h
  | procWriteReset => exact (z.procWrite_frame _).1.trans_ne h
  | _ => exact h

theorem sampleImpulse_step (h : z.driver.sampleImpulse = false) (ha : a ≠ .txImpulse) :
    ((zaptel lin2mu).step z a).1.driver.sampleImpulse = false := by
  cases a with
  | line channo a =>
      cases a with
      | transmit law confmode writechunk =>
          exact (congrArg ZaptapDriver.sampleImpulse
            (z.ztRealTransmit_frame lin2mu channo law confmode _).2).trans h
      | receive law rxchunk txchunk => exact (z.ztEcChunk_frame channo law _ _).2.trans h
      | _ => exact h
  | procWriteMode mode =>
      exact (congrArg ZaptapDriver.sampleImpulse (z.procWrite_frame _).2).trans h
  | procWriteReset => exact (congrArg ZaptapDriver.sampleImpulse (z.procWrite_frame _).2).trans h
  | txImpulse => exact absurd rfl ha
  | sampleRelease => rfl
  | _ => exact h

/-- Out of the reach of the `/proc` files and of the impulse mode, a line notices
what happens on the line. -/
theorem notice_eq_onLine (hmon : z.monEc ≠ some c) (himpulse : z.driver.sampleImpulse = false) :
    z.notice lin2mu c a = a.onLine c := by
  have hreplace : z.driver.ztTransmitChunk lin2mu = id := by
    funext buf
    simp [ZaptapDriver.ztTransmitChunk, himpulse]
  cases a with
  | line channo a => rw [Zaptel.notice, hreplace, ZaptelAction.onLine]
  | procWriteMode mode => exact if_neg hmon
  | procWriteReset => exact if_neg hmon
  | _ => rfl

end

/-- Whatever the other lines, the sampler and the `/proc` files do, a line whose
canceller is created while another one is monitored is served as if it were
alone. -/
theorem call_is_isolated (lin2mu : ℤ → UInt8) (c : ℤ) (actions : List ZaptelAction)
    (himpulse : .txImpulse ∉ actions)
    (hmonitored : ∀ t ∈ (zaptel lin2mu).trace Zaptel.load actions, ∀ tapLength,
      t.input = .line c (.attach tapLength) → t.before.monEc ≠ none) :
    ((zaptel lin2mu).run Zaptel.load actions).ec c =
        line.run none (actions.filterMap (ZaptelAction.onLine c)) ∧
      (zaptel lin2mu).answers (fun _ => ZaptelAction.onLine c) Zaptel.load actions =
        line.outputs none (actions.filterMap (ZaptelAction.onLine c)) := by
  have hmon : ∀ t ∈ (zaptel lin2mu).trace Zaptel.load actions, t.before.monEc ≠ some c := by
    refine (zaptel lin2mu).trace_invariant (I := fun z => z.monEc ≠ some c)
      (G := fun z a => ∀ tapLength, a = .line c (.attach tapLength) → z.monEc ≠ none) ?_
      (Option.some_ne_none c).symm hmonitored
    exact fun z a h hattach => monEc_step_ne lin2mu h hattach
  have hquiet : ∀ t ∈ (zaptel lin2mu).trace Zaptel.load actions,
      t.before.driver.sampleImpulse = false := by
    refine (zaptel lin2mu).trace_invariant (I := fun z => z.driver.sampleImpulse = false)
      (G := fun _ a => a ≠ .txImpulse) ?_ rfl fun t ht hinput => ?_
    · exact fun z a h ha => sampleImpulse_step lin2mu h ha
    · exact himpulse (hinput ▸ (zaptel lin2mu).input_mem_of_mem_trace ht)
  have hnotice : ∀ t ∈ (zaptel lin2mu).trace Zaptel.load actions,
      t.before.notice lin2mu c t.input = t.input.onLine c :=
    fun t ht => notice_eq_onLine lin2mu (hmon t ht) (hquiet t ht)
  have hobserved : (zaptel lin2mu).observed (Zaptel.notice lin2mu c) Zaptel.load actions =
      actions.filterMap (ZaptelAction.onLine c) :=
    (Mealy.observed_congr hnotice).trans (Mealy.observed_eq_filterMap _ _ _)
  have hsame : (zaptel lin2mu).answers (Zaptel.notice lin2mu c) Zaptel.load actions =
      (zaptel lin2mu).answers (fun _ => ZaptelAction.onLine c) Zaptel.load actions :=
    Mealy.answers_congr hnotice
  have hrun := (zaptel_projects lin2mu c).run Zaptel.load actions
  have hanswers := (zaptel_projects lin2mu c).answers_eq Zaptel.load actions
  rw [hobserved] at hrun hanswers
  rw [List.map_id, hsame] at hanswers
  exact ⟨hrun, hanswers⟩

def silentLaw : Law := ⟨fun _ => 0, fun _ => 0xFF⟩

def silentBytes : Chunk := ⟨(silentChunk 1).audio, (silentChunk 1).audio_length⟩

/-- A second call, and a reset that reaches the first one. -/
def secondCall : List ZaptelAction :=
  [.line 1 (.attach 32), .line 2 (.attach 32), .line 2 (.transmit silentLaw false silentBytes),
    .procWriteReset, .line 2 (.receive silentLaw silentBytes silentBytes)]

theorem call_is_isolated_second :
    ((zaptel impulseEncoding).run Zaptel.load secondCall).ec 2 =
        line.run none (secondCall.filterMap (ZaptelAction.onLine 2)) ∧
      (zaptel impulseEncoding).answers (fun _ => ZaptelAction.onLine 2) Zaptel.load secondCall =
        line.outputs none (secondCall.filterMap (ZaptelAction.onLine 2)) := by
  apply call_is_isolated impulseEncoding 2
  · simp [secondCall]
  · intro t ht tapLength hinput
    simp only [secondCall, Mealy.trace_cons, Mealy.trace_nil, List.mem_cons, List.not_mem_nil,
      or_false] at ht
    rcases ht with rfl | rfl | rfl | rfl | rfl
    · cases hinput
    · nofun
    · cases hinput
    · cases hinput
    · cases hinput

end Oslec
