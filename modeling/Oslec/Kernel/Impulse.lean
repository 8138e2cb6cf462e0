import Oslec.Kernel.Zaptap

/-!
The impulse mode of the sampler. It is to replace what the sampled channel
transmits by one impulse and silence up to the next swap. The code replaces a
chunk where no sample has been counted since the swap, and it does so on every
channel that is served then; the sampled channel goes on with its own audio
after the first chunk.
-/

namespace Oslec

/-! ### Chunks -/

/-- `ZT_CHUNKSIZE` of Zaptel. -/
def ztChunksize : ℕ := 8

/-- The globals of the sampler with the flag of the impulse mode. -/
structure ZaptapDriver where
  tap : Zaptap
  sampleImpulse : Bool

/-- What the two functions of the sampler see of one sample. -/
structure HookSample where
  rxlin : Int16
  txlin : Int16
  eclin : Int16

/-- One chunk of a channel: the audio that Zaptel has put into its buffer, and
the samples that the echo canceller hook then makes of it. -/
structure ChunkService where
  channo : ℤ
  audio : List UInt8
  hook : List HookSample
  audio_length : audio.length = ztChunksize
  hook_length : hook.length = ztChunksize

/-- The end of `__zt_transmit_chunk`, with the buffer as it is up to there. -/
def ZaptapDriver.ztTransmitChunk (lin2mu : ℤ → UInt8) (d : ZaptapDriver) (buf : List UInt8) :
    List UInt8 :=
  if d.sampleImpulse = true ∧ d.tap.samples = 0 then
    (List.range' 1 (ztChunksize - 1)).foldl (fun buf x => buf.set x (lin2mu 0))
      (buf.set 0 (lin2mu 10000))
  else buf

/-- The sampler calls of `__zt_ec_chunk`. -/
def Zaptap.ztEcChunk (z : Zaptap) (channo : ℤ) (hook : List HookSample) : Zaptap :=
  hook.foldl (fun z x =>
    ((z.sampleEchoBefore channo x.rxlin x.txlin).1.sampleEchoAfter channo x.eclin).1) z

inductive DriverAction
  | sampleOpen
  | sampleRelease
  | setChannel (channo : ℤ)
  | txImpulse
  | serve (v : ChunkService)

def ZaptapDriver.load : ZaptapDriver := ⟨Zaptap.load, false⟩

/-- The driver as a machine that answers a chunk with what is transmitted. -/
def zaptapDriver (lin2mu : ℤ → UInt8) : Mealy ZaptapDriver DriverAction (Option (List UInt8)) where
  step d
    | .sampleOpen => ({ d with tap := d.tap.sampleOpen }, none)
    | .sampleRelease => ({ tap := d.tap.sampleRelease, sampleImpulse := false }, none)
    | .setChannel channo => ({ d with tap := d.tap.setChannel channo }, none)
    | .txImpulse => ({ d with sampleImpulse := true }, none)
    | .serve v =>
        ({ d with tap := d.tap.ztEcChunk v.channo v.hook }, some (d.ztTransmitChunk lin2mu v.audio))

/-! ### What is transmitted between two swaps -/

/-- The driver with what the sampled channel has transmitted since the last swap
of the run. -/
structure Transmission where
  driver : ZaptapDriver
  sinceSwap : Option (List UInt8)

namespace Transmission

def Sampled (s : Transmission) (v : ChunkService) : Prop := v.channo = s.driver.tap.sampleCh

instance (s : Transmission) (v : ChunkService) : Decidable (s.Sampled v) :=
  inferInstanceAs (Decidable (_ = _))

def chunk (lin2mu : ℤ → UInt8) (s : Transmission) (v : ChunkService) : List UInt8 :=
  s.driver.ztTransmitChunk lin2mu v.audio

/-- The chunk completes the buffer of the sampler. -/
def Swaps (lin2mu : ℤ → UInt8) (s : Transmission) (v : ChunkService) : Prop :=
  ((zaptapDriver lin2mu).step s.driver (.serve v)).1.tap.sampleState ≠ s.driver.tap.sampleState

instance (lin2mu : ℤ → UInt8) (s : Transmission) (v : ChunkService) :
    Decidable (s.Swaps lin2mu v) :=
  inferInstanceAs (Decidable (_ ≠ _))

end Transmission

def transmission (lin2mu : ℤ → UInt8) : Mealy Transmission ChunkService (List UInt8) where
  step s v :=
    ({ driver := ((zaptapDriver lin2mu).step s.driver (.serve v)).1
       sinceSwap :=
        if s.Swaps lin2mu v then some []
        else if s.Sampled v then s.sinceSwap.map (· ++ s.chunk lin2mu v)
        else s.sinceSwap },
      s.chunk lin2mu v)

/-- One impulse and zeros, a buffer long. -/
def stimulus (lin2mu : ℤ → UInt8) : List UInt8 :=
  lin2mu 10000 :: List.replicate (sampleBufSz - 1) (lin2mu 0)

/-- The sampled channel transmits the stimulus, from one swap to the next, and
every other channel its audio. -/
structure Stimulates (lin2mu : ℤ → UInt8) (s : Transmission) (v : ChunkService) : Prop where
  sampled : s.Sampled v → ∀ xs, s.sinceSwap = some xs →
    xs ++ s.chunk lin2mu v <+: stimulus lin2mu
  complete : s.Sampled v → s.Swaps lin2mu v → ∀ xs, s.sinceSwap = some xs →
    xs ++ s.chunk lin2mu v = stimulus lin2mu
  others : ¬ s.Sampled v → s.chunk lin2mu v = v.audio

/-- The chunk that replaces the audio. -/
def impulseChunk (lin2mu : ℤ → UInt8) : List UInt8 :=
  lin2mu 10000 :: List.replicate (ztChunksize - 1) (lin2mu 0)

/-- The audio is silent on the sampled channel after the first chunk, and on
other channels no different from the impulse where it is replaced. -/
structure AudioAllows (lin2mu : ℤ → UInt8) (s : Transmission) (v : ChunkService) : Prop where
  sampled : s.Sampled v → s.sinceSwap ≠ none → s.driver.tap.samples ≠ 0 →
    v.audio = List.replicate ztChunksize (lin2mu 0)
  others : ¬ s.Sampled v → s.driver.tap.samples = 0 → v.audio = impulseChunk lin2mu

/-! ### The counter -/

/-- What `n` samples of the sampled channel do to the counter, up to the swap. -/
structure Zaptap.Advances (n : ℕ) (z z' : Zaptap) : Prop where
  sampleCh : z'.sampleCh = z.sampleCh
  recording : z'.sampleState ≠ .idle
  within : z.samples + n < sampleBufSz →
    z'.samples = z.samples + n ∧ z'.sampleState = z.sampleState
  full : z.samples + n = sampleBufSz → z'.samples = 0 ∧ z'.sampleState ≠ z.sampleState

/-- Only these three fields of the state before count. -/
theorem Zaptap.Advances.of_frame {n : ℕ} {z z' z'' : Zaptap} (h : z'.Advances n z'')
    (hch : z'.sampleCh = z.sampleCh) (hstate : z'.sampleState = z.sampleState)
    (hsamples : z'.samples = z.samples) : z.Advances n z'' := by
  obtain ⟨hch', hrecording, hwithin, hfull⟩ := h
  rw [hsamples, hstate] at hwithin hfull
  exact ⟨hch'.trans hch, hrecording, hwithin, hfull⟩

theorem Zaptap.advances_after {z : Zaptap} {channo : ℤ} (hrec : z.Records channo)
    (eclin : Int16) : z.Advances 1 (z.sampleEchoAfter channo eclin).1 := by
  have hafter : (z.sampleEchoAfter channo eclin).1 =
      swap { z.put eclin with samples := z.samples + 1 } :=
    congrArg Prod.fst (after_of_records hrec eclin)
  obtain ⟨hstate, -⟩ := z.put_frame eclin
  have hopen : (z.put eclin).sampleState ≠ .idle := hstate.trans_ne hrec.1
  rw [hafter]
  rcases Nat.lt_or_ge (z.samples + 1) sampleBufSz with hlt | hge
  · rw [swap_of_lt (z := { z.put eclin with samples := z.samples + 1 }) hlt]
    exact ⟨put_sampleCh z eclin, hopen, fun _ => ⟨rfl, hstate⟩,
      fun h => absurd h (Nat.ne_of_lt hlt)⟩
  · obtain ⟨hzero, -, hflip, hidle⟩ :=
      swap_of_full (z := { z.put eclin with samples := z.samples + 1 }) hge hopen
    refine ⟨(swap_sampleCh _).trans (put_sampleCh z eclin), hidle,
      fun h => absurd h (Nat.not_lt_of_le hge), fun _ => ⟨hzero, ?_⟩⟩
    exact fun hsame => hflip (hsame.trans hstate.symm)

theorem Zaptap.advances_one {z : Zaptap} {channo : ℤ} (hrec : z.Records channo)
    (rxlin txlin eclin : Int16) :
    z.Advances 1 ((z.sampleEchoBefore channo rxlin txlin).1.sampleEchoAfter channo eclin).1 := by
  have hbefore : (z.sampleEchoBefore channo rxlin txlin).1 = (z.put txlin).put rxlin :=
    congrArg Prod.fst (before_of_records hrec rxlin txlin)
  obtain ⟨hstate, hsamples⟩ := z.put_frame txlin
  obtain ⟨hstate', hsamples'⟩ := (z.put txlin).put_frame rxlin
  have hch : ((z.put txlin).put rxlin).sampleCh = z.sampleCh :=
    (put_sampleCh _ rxlin).trans (put_sampleCh z txlin)
  have hrec' : ((z.put txlin).put rxlin).Records channo :=
    ⟨(hstate'.trans hstate).trans_ne hrec.1, hrec.2.trans hch.symm⟩
  rw [hbefore]
  exact (advances_after hrec' eclin).of_frame hch (hstate'.trans hstate)
    (hsamples'.trans hsamples)

theorem Zaptap.ztEcChunk_of_records {z : Zaptap} {channo : ℤ} (hrec : z.Records channo)
    (hlt : z.samples < sampleBufSz) (hook : List HookSample)
    (hle : z.samples + hook.length ≤ sampleBufSz) :
    z.Advances hook.length (z.ztEcChunk channo hook) := by
  induction hook generalizing z with
  | nil =>
      exact ⟨rfl, hrec.1, fun _ => ⟨rfl, rfl⟩, fun h => absurd h (Nat.ne_of_lt hlt)⟩
  | cons x hook ih =>
      have hone := z.advances_one hrec x.rxlin x.txlin x.eclin
      rw [ztEcChunk, List.foldl_cons, ← ztEcChunk]
      rw [List.length_cons] at hle ⊢
      generalize ((z.sampleEchoBefore channo x.rxlin x.txlin).1.sampleEchoAfter channo
        x.eclin).1 = z' at hone ⊢
      have hrec' : z'.Records channo := ⟨hone.recording, hrec.2.trans hone.sampleCh.symm⟩
      rcases Nat.lt_or_ge (z.samples + 1) sampleBufSz with hnext | hlast
      · obtain ⟨hsamples, hstate⟩ := hone.within hnext
        have hrest := ih hrec' (by omega) (by omega)
        refine ⟨hrest.sampleCh.trans hone.sampleCh, hrest.recording, ?_, ?_⟩
        · intro hwithin
          obtain ⟨hsamples', hstate'⟩ := hrest.within (by omega)
          exact ⟨by omega, hstate'.trans hstate⟩
        · intro hfull
          obtain ⟨hzero, hflip⟩ := hrest.full (by omega)
          exact ⟨hzero, by rwa [hstate] at hflip⟩
      · -- the sample that swaps is the last of the chunk
        have hnil : hook = [] := List.eq_nil_of_length_eq_zero (by omega)
        subst hnil
        exact ⟨hone.sampleCh, hone.recording, fun h => absurd h (Nat.not_lt_of_le hlast), hone.full⟩

theorem Zaptap.ztEcChunk_of_not_records {z : Zaptap} {channo : ℤ} (hrec : ¬ z.Records channo)
    (hook : List HookSample) : z.ztEcChunk channo hook = z := by
  induction hook with
  | nil => rfl
  | cons x hook ih =>
      have hbefore : (z.sampleEchoBefore channo x.rxlin x.txlin).1 = z :=
        congrArg Prod.fst (before_of_not_records hrec x.rxlin x.txlin)
      have hafter : (z.sampleEchoAfter channo x.eclin).1 = z :=
        congrArg Prod.fst (after_of_not_records hrec x.eclin)
      rw [ztEcChunk, List.foldl_cons, hbefore, hafter]
      exact ih

/-- Between two chunks the counter is at a whole number of them. -/
structure WholeChunks (d : ZaptapDriver) : Prop where
  dvd : ztChunksize ∣ d.tap.samples
  lt : d.tap.samples < sampleBufSz

theorem WholeChunks.add_le {d : ZaptapDriver} (h : WholeChunks d) :
    d.tap.samples + ztChunksize ≤ sampleBufSz := by
  obtain ⟨⟨k, hk⟩, hlt⟩ := h
  simp only [ztChunksize, sampleBufSz] at hk hlt ⊢
  omega

theorem ChunkService.advances {d : ZaptapDriver} (h : WholeChunks d) {v : ChunkService}
    (hrec : d.tap.Records v.channo) :
    d.tap.Advances ztChunksize (d.tap.ztEcChunk v.channo v.hook) := by
  have hadvances := Zaptap.ztEcChunk_of_records hrec h.lt v.hook (by
    rw [v.hook_length]
    exact h.add_le)
  rwa [v.hook_length] at hadvances

theorem WholeChunks.step {d : ZaptapDriver} (h : WholeChunks d) (lin2mu : ℤ → UInt8)
    (a : DriverAction) : WholeChunks ((zaptapDriver lin2mu).step d a).1 := by
  have hzero : ztChunksize ∣ 0 ∧ 0 < sampleBufSz := ⟨Nat.dvd_zero _, Nat.zero_lt_succ 999⟩
  cases a with
  | sampleOpen => exact ⟨hzero.1, hzero.2⟩
  | sampleRelease => exact ⟨hzero.1, hzero.2⟩
  | setChannel channo => exact ⟨h.dvd, h.lt⟩
  | txImpulse => exact ⟨h.dvd, h.lt⟩
  | serve v =>
      change WholeChunks { d with tap := d.tap.ztEcChunk v.channo v.hook }
      by_cases hrec : d.tap.Records v.channo
      · have hadvances := v.advances h hrec
        rcases Nat.lt_or_eq_of_le h.add_le with hlt | heq
        · obtain ⟨hsamples, -⟩ := hadvances.within hlt
          constructor
          · rw [hsamples]
            exact Nat.dvd_add h.dvd (Nat.dvd_refl _)
          · rw [hsamples]
            exact hlt
        · obtain ⟨hsamples, -⟩ := hadvances.full heq
          constructor
          · rw [hsamples]
            exact hzero.1
          · rw [hsamples]
            exact hzero.2
      · rw [Zaptap.ztEcChunk_of_not_records hrec]
        exact ⟨h.dvd, h.lt⟩

theorem wholeChunks_of_run (lin2mu : ℤ → UInt8) (past : List DriverAction) :
    WholeChunks ((zaptapDriver lin2mu).run ZaptapDriver.load past) :=
  (zaptapDriver lin2mu).run_invariant (fun _ a h => h.step lin2mu a)
    ⟨Nat.dvd_zero _, Nat.zero_lt_succ 999⟩ past

/-! ### What a chunk is replaced by -/

theorem ZaptapDriver.ztTransmitChunk_impulse {d : ZaptapDriver} (himpulse : d.sampleImpulse = true)
    (hsamples : d.tap.samples = 0) (lin2mu : ℤ → UInt8) {buf : List UInt8}
    (hlength : buf.length = ztChunksize) : d.ztTransmitChunk lin2mu buf = impulseChunk lin2mu := by
  rw [ztTransmitChunk, if_pos ⟨himpulse, hsamples⟩]
  match buf, hlength with
  | [_, _, _, _, _, _, _, _], _ => rfl

theorem ZaptapDriver.ztTransmitChunk_audio {d : ZaptapDriver} (hsamples : d.tap.samples ≠ 0)
    (lin2mu : ℤ → UInt8) (buf : List UInt8) : d.ztTransmitChunk lin2mu buf = buf :=
  if_neg fun h => hsamples h.2

theorem Transmission.chunk_length {s : Transmission} (himpulse : s.driver.sampleImpulse = true)
    (lin2mu : ℤ → UInt8) (v : ChunkService) : (s.chunk lin2mu v).length = ztChunksize := by
  by_cases hsamples : s.driver.tap.samples = 0
  · rw [chunk, ZaptapDriver.ztTransmitChunk_impulse himpulse hsamples lin2mu v.audio_length]
    rfl
  · rw [chunk, ZaptapDriver.ztTransmitChunk_audio hsamples, v.audio_length]

theorem stimulus_length (lin2mu : ℤ → UInt8) : (stimulus lin2mu).length = sampleBufSz := by
  rw [stimulus, List.length_cons, List.length_replicate]
  rfl

theorem take_drop_stimulus (lin2mu : ℤ → UInt8) {k : ℕ} (hle : k + ztChunksize ≤ sampleBufSz) :
    ((stimulus lin2mu).drop k).take ztChunksize =
      if k = 0 then impulseChunk lin2mu else List.replicate ztChunksize (lin2mu 0) := by
  cases k with
  | zero =>
      rw [if_pos rfl, List.drop_zero, stimulus, ztChunksize, List.take_succ_cons,
        List.take_replicate]
      rfl
  | succ k =>
      have hmin : min ztChunksize (sampleBufSz - 1 - k) = ztChunksize := by omega
      rw [if_neg (Nat.succ_ne_zero k), stimulus, List.drop_succ_cons, List.drop_replicate,
        List.take_replicate, hmin]

theorem append_prefix_iff {α : Type*} {xs ys zs : List α} (h : xs <+: zs) :
    xs ++ ys <+: zs ↔ ys = (zs.drop xs.length).take ys.length := by
  obtain ⟨rest, rfl⟩ := h
  rw [List.prefix_append_right_inj, List.drop_left, List.prefix_iff_eq_take]

/-! ### The run -/

/-- The device is open in impulse mode, and what the sampled channel has
transmitted since the last swap is the head of the stimulus. -/
structure InStimulus (lin2mu : ℤ → UInt8) (s : Transmission) : Prop where
  whole : WholeChunks s.driver
  impulse : s.driver.sampleImpulse = true
  recording : s.driver.tap.sampleState ≠ .idle
  stream : ∀ xs, s.sinceSwap = some xs →
    xs <+: stimulus lin2mu ∧ xs.length = s.driver.tap.samples

section

variable {lin2mu : ℤ → UInt8} {s : Transmission} (h : InStimulus lin2mu s) (v : ChunkService)

include h

theorem InStimulus.prefix_iff {xs : List UInt8} (hxs : s.sinceSwap = some xs) :
    xs ++ s.chunk lin2mu v <+: stimulus lin2mu ↔
      s.chunk lin2mu v =
        if s.driver.tap.samples = 0 then impulseChunk lin2mu
        else List.replicate ztChunksize (lin2mu 0) := by
  obtain ⟨hhead, hlength⟩ := h.stream xs hxs
  rw [append_prefix_iff hhead, hlength, s.chunk_length h.impulse,
    take_drop_stimulus lin2mu h.whole.add_le]

theorem InStimulus.chunk_of_zero (hsamples : s.driver.tap.samples = 0) :
    s.chunk lin2mu v = impulseChunk lin2mu :=
  ZaptapDriver.ztTransmitChunk_impulse h.impulse hsamples lin2mu v.audio_length

theorem InStimulus.swaps_iff :
    s.Swaps lin2mu v ↔ s.Sampled v ∧ s.driver.tap.samples + ztChunksize = sampleBufSz := by
  have hnext : ((zaptapDriver lin2mu).step s.driver (.serve v)).1.tap =
      s.driver.tap.ztEcChunk v.channo v.hook := rfl
  rw [Transmission.Swaps, hnext]
  by_cases hsampled : s.Sampled v
  · have hadvances := v.advances h.whole ⟨h.recording, hsampled⟩
    rcases Nat.lt_or_eq_of_le h.whole.add_le with hlt | heq
    · constructor
      · intro hflip
        exact absurd (hadvances.within hlt).2 hflip
      · rintro ⟨-, heq⟩
        exact absurd heq (Nat.ne_of_lt hlt)
    · exact ⟨fun _ => ⟨hsampled, heq⟩, fun _ => (hadvances.full heq).2⟩
  · rw [Zaptap.ztEcChunk_of_not_records fun hrec => hsampled hrec.2]
    exact ⟨fun hflip => absurd rfl hflip, fun hswap => absurd hswap.1 hsampled⟩

theorem InStimulus.stimulates_iff : Stimulates lin2mu s v ↔ AudioAllows lin2mu s v := by
  have haudio : s.driver.tap.samples ≠ 0 → s.chunk lin2mu v = v.audio := fun hsamples =>
    ZaptapDriver.ztTransmitChunk_audio hsamples lin2mu v.audio
  constructor
  · intro hs
    constructor
    · intro hsampled hsome hsamples
      obtain ⟨xs, hxs⟩ := Option.ne_none_iff_exists'.mp hsome
      have hchunk := (h.prefix_iff v hxs).mp (hs.sampled hsampled xs hxs)
      rwa [if_neg hsamples, haudio hsamples] at hchunk
    · intro hother hsamples
      rw [← hs.others hother, h.chunk_of_zero v hsamples]
  · intro ha
    have hsampled : s.Sampled v → ∀ xs, s.sinceSwap = some xs →
        xs ++ s.chunk lin2mu v <+: stimulus lin2mu := by
      intro hsampled xs hxs
      rw [h.prefix_iff v hxs]
      by_cases hsamples : s.driver.tap.samples = 0
      · rw [if_pos hsamples, h.chunk_of_zero v hsamples]
      · rw [if_neg hsamples, haudio hsamples]
        exact ha.sampled hsampled (by rw [hxs]; exact Option.some_ne_none xs) hsamples
    refine ⟨hsampled, ?_, ?_⟩
    · intro hs hswap xs hxs
      apply (hsampled hs xs hxs).eq_of_length
      rw [List.length_append, (h.stream xs hxs).2, s.chunk_length h.impulse,
        ((h.swaps_iff v).mp hswap).2, stimulus_length]
    · intro hother
      by_cases hsamples : s.driver.tap.samples = 0
      · rw [h.chunk_of_zero v hsamples, ha.others hother hsamples]
      · exact haudio hsamples

theorem InStimulus.step (hs : Stimulates lin2mu s v) :
    InStimulus lin2mu ((transmission lin2mu).step s v).1 := by
  have hnext : ((transmission lin2mu).step s v).1 =
      { driver := { s.driver with tap := s.driver.tap.ztEcChunk v.channo v.hook }
        sinceSwap :=
          if s.Swaps lin2mu v then some []
          else if s.Sampled v then s.sinceSwap.map (· ++ s.chunk lin2mu v)
          else s.sinceSwap } := rfl
  have hwhole := h.whole.step lin2mu (.serve v)
  rw [hnext]
  by_cases hsampled : s.Sampled v
  · have hadvances := v.advances h.whole ⟨h.recording, hsampled⟩
    refine ⟨hwhole, h.impulse, hadvances.recording, ?_⟩
    rcases Nat.lt_or_eq_of_le h.whole.add_le with hlt | heq
    · have hswap : ¬ s.Swaps lin2mu v := fun hswap =>
        Nat.ne_of_lt hlt ((h.swaps_iff v).mp hswap).2
      intro xs hxs
      rw [if_neg hswap, if_pos hsampled] at hxs
      obtain ⟨ys, hys, rfl⟩ := Option.map_eq_some_iff.mp hxs
      refine ⟨hs.sampled hsampled ys hys, ?_⟩
      rw [List.length_append, (h.stream ys hys).2, s.chunk_length h.impulse]
      exact (hadvances.within hlt).1.symm
    · have hswap : s.Swaps lin2mu v := (h.swaps_iff v).mpr ⟨hsampled, heq⟩
      intro xs hxs
      rw [if_pos hswap] at hxs
      obtain rfl := Option.some.inj hxs
      exact ⟨List.nil_prefix, (hadvances.full heq).1.symm⟩
  · have hswap : ¬ s.Swaps lin2mu v := fun hswap => hsampled ((h.swaps_iff v).mp hswap).1
    rw [if_neg hswap, if_neg hsampled,
      Zaptap.ztEcChunk_of_not_records fun hrec => hsampled hrec.2]
    exact ⟨h.whole, h.impulse, h.recording, h.stream⟩

end

/-- In every run of an open device in impulse mode, the sampled channel plays
the stimulus and the other channels their audio exactly when the audio is what
the code leaves of it. -/
theorem impulse_stimulus_iff (lin2mu : ℤ → UInt8) (past : List DriverAction)
    (himpulse : ((zaptapDriver lin2mu).run ZaptapDriver.load past).sampleImpulse = true)
    (hopen : ((zaptapDriver lin2mu).run ZaptapDriver.load past).tap.sampleState ≠ .idle)
    (services : List ChunkService) :
    (∀ t ∈ (transmission lin2mu).trace
        ⟨(zaptapDriver lin2mu).run ZaptapDriver.load past, none⟩ services,
        Stimulates lin2mu t.before t.input) ↔
      ∀ t ∈ (transmission lin2mu).trace
        ⟨(zaptapDriver lin2mu).run ZaptapDriver.load past, none⟩ services,
        AudioAllows lin2mu t.before t.input := by
  have hstart : InStimulus lin2mu ⟨(zaptapDriver lin2mu).run ZaptapDriver.load past, none⟩ :=
    ⟨wholeChunks_of_run lin2mu past, himpulse, hopen, fun _ hxs => by cases hxs⟩
  exact (transmission lin2mu).trace_iff (I := InStimulus lin2mu) (fun _ v h => h.stimulates_iff v)
    (fun _ v h => h.step v) hstart services

/-- A chunk of silence in which nothing comes back. -/
def silentChunk (channo : ℤ) : ChunkService where
  channo := channo
  audio := List.replicate ztChunksize 0xFF
  hook := List.replicate ztChunksize ⟨0, 0, 0⟩
  audio_length := rfl
  hook_length := rfl

/-- The encodings that the impulse mode writes. -/
def impulseEncoding (x : ℤ) : UInt8 := if x = 0 then 0xFF else 0x9C

/-- The state after `n` chunks of silence on the sampled channel `channo`. -/
structure SilentFor (lin2mu : ℤ → UInt8) (channo : ℤ) (n : ℕ) (s : Transmission) : Prop where
  stimulus : InStimulus lin2mu s
  sampleCh : s.driver.tap.sampleCh = channo
  samples : s.driver.tap.samples = 8 * (n % 125)
  swapped : 125 ≤ n → s.sinceSwap ≠ none

theorem SilentFor.allows {lin2mu : ℤ → UInt8} {n : ℕ} {s : Transmission} {v : ChunkService}
    (h : SilentFor lin2mu v.channo n s) (haudio : v.audio = List.replicate ztChunksize (lin2mu 0)) :
    AudioAllows lin2mu s v :=
  ⟨fun _ _ _ => haudio, fun hother => absurd h.sampleCh.symm hother⟩

theorem SilentFor.step {lin2mu : ℤ → UInt8} {n : ℕ} {s : Transmission} {v : ChunkService}
    (h : SilentFor lin2mu v.channo n s) (haudio : v.audio = List.replicate ztChunksize (lin2mu 0)) :
    SilentFor lin2mu v.channo (n + 1) ((transmission lin2mu).step s v).1 := by
  have hsampled : s.Sampled v := h.sampleCh.symm
  have hadvances := v.advances h.stimulus.whole ⟨h.stimulus.recording, hsampled⟩
  have hswap := h.stimulus.swaps_iff v
  have hsamples := h.samples
  have hchunk : ztChunksize = 8 := rfl
  have hsize : sampleBufSz = 1000 := rfl
  have hsince : ((transmission lin2mu).step s v).1.sinceSwap =
      if s.Swaps lin2mu v then some [] else s.sinceSwap.map (· ++ s.chunk lin2mu v) :=
    if_congr Iff.rfl rfl (if_pos hsampled)
  refine ⟨h.stimulus.step v ((h.stimulus.stimulates_iff v).mpr (h.allows haudio)),
    hadvances.sampleCh.trans h.sampleCh, ?_, ?_⟩
  · show (s.driver.tap.ztEcChunk v.channo v.hook).samples = _
    rcases Nat.lt_or_eq_of_le h.stimulus.whole.add_le with hlt | heq
    · rw [(hadvances.within hlt).1]
      omega
    · rw [(hadvances.full heq).1]
      omega
  · intro hn
    rw [hsince]
    split
    · exact Option.some_ne_none _
    · rename_i hnot
      have hlt : ¬ s.driver.tap.samples + ztChunksize = sampleBufSz :=
        fun heq => hnot (hswap.mpr ⟨hsampled, heq⟩)
      have hsome := h.swapped (by omega)
      simpa using hsome

/-- Silence is played as the stimulus, buffer after buffer. -/
theorem SilentFor.run {lin2mu : ℤ → UInt8} {s : Transmission} {v : ChunkService}
    (h : SilentFor lin2mu v.channo 0 s) (haudio : v.audio = List.replicate ztChunksize (lin2mu 0))
    (n : ℕ) : SilentFor lin2mu v.channo n ((transmission lin2mu).run s (List.replicate n v)) ∧
      ∀ t ∈ (transmission lin2mu).trace s (List.replicate n v),
        AudioAllows lin2mu t.before t.input := by
  induction n with
  | zero => exact ⟨h, by simp⟩
  | succ n ih =>
      obtain ⟨hsilent, hallows⟩ := ih
      rw [List.replicate_succ', Mealy.run_concat, Mealy.trace_concat]
      refine ⟨hsilent.step haudio, fun t ht => ?_⟩
      rcases List.mem_append.mp ht with ht | ht
      · exact hallows t ht
      · obtain rfl := List.mem_singleton.mp ht
        exact hsilent.allows haudio

/-- Two buffers of silence: the second one is the stimulus from end to end. -/
theorem impulse_stimulus_iff_two_buffers :
    ∃ xs, ((transmission impulseEncoding).run
        ⟨(zaptapDriver impulseEncoding).run ZaptapDriver.load
          [.sampleOpen, .setChannel 1, .txImpulse], none⟩
        (List.replicate 249 (silentChunk 1))).sinceSwap = some xs ∧
      xs ++ ((transmission impulseEncoding).run
        ⟨(zaptapDriver impulseEncoding).run ZaptapDriver.load
          [.sampleOpen, .setChannel 1, .txImpulse], none⟩
        (List.replicate 249 (silentChunk 1))).chunk impulseEncoding (silentChunk 1) =
          stimulus impulseEncoding := by
  have hstart : SilentFor impulseEncoding 1 0
      ⟨(zaptapDriver impulseEncoding).run ZaptapDriver.load
        [.sampleOpen, .setChannel 1, .txImpulse], none⟩ :=
    ⟨⟨wholeChunks_of_run _ _, rfl, nofun, fun _ hxs => by cases hxs⟩, rfl, rfl,
      fun hn => absurd hn (by decide)⟩
  obtain ⟨hsilent, -⟩ := SilentFor.run (v := silentChunk 1) hstart rfl 249
  have hplays := (impulse_stimulus_iff impulseEncoding [.sampleOpen, .setChannel 1, .txImpulse] rfl
    nofun (List.replicate (249 + 1) (silentChunk 1))).mpr
    (SilentFor.run (v := silentChunk 1) hstart rfl (249 + 1)).2
  rw [List.replicate_succ', Mealy.trace_concat] at hplays
  generalize (transmission impulseEncoding).run _ (List.replicate 249 (silentChunk 1)) = s
    at hsilent hplays ⊢
  have hlast : Stimulates impulseEncoding s (silentChunk 1) :=
    hplays _ (List.mem_append_right _ List.mem_cons_self)
  obtain ⟨xs, hxs⟩ := Option.ne_none_iff_exists'.mp (hsilent.swapped (by decide))
  have hsampled : s.Sampled (silentChunk 1) := hsilent.sampleCh.symm
  have hswaps := (hsilent.stimulus.swaps_iff (silentChunk 1)).mpr
    ⟨hsampled, by rw [hsilent.samples]; rfl⟩
  exact ⟨xs, hxs, hlast.complete hsampled hswaps xs hxs⟩

/-- A silent channel that is not sampled gets the impulse. -/
theorem impulse_on_other_channel :
    ¬ ∀ t ∈ (transmission impulseEncoding).trace
        ⟨(zaptapDriver impulseEncoding).run ZaptapDriver.load
          [.sampleOpen, .setChannel 1, .txImpulse], none⟩ [silentChunk 2],
        Stimulates impulseEncoding t.before t.input := by
  intro h
  have hother := (h _ List.mem_cons_self).others (by decide)
  revert hother
  decide

end Oslec
