import Oslec.Canceller.Levels

/-!
A flushed canceller against a new one. The flush leaves the samples, the
residual, the adaption trace, the comfort noise generator and the snapshot
alone, none of which a returned sample reads before it is written again unless
comfort noise is on. It also leaves `cond_met`, which is read; but the first
update after the flush cannot qualify, and resets it.
-/

namespace Oslec

/-! ### The fields that outlast an update -/

/-- The canceller with every field cleared that the next update overwrites
before it reads it, and with the comfort noise generator and the snapshot cleared. -/
def EchoCan.lasting (ec : EchoCan) : EchoCan :=
  { ec with
    tx := 0, rx := 0, clean := 0, cleanNlp := 0, adapt := 0, factor := 0, shift := 0
    cngLevel := 0, cngRndnum := 0, cngFilter := 0, snapshot := [] }

/-- Without comfort noise the non-linear processor neither reads nor writes the
generator, and it overwrites the last sample it returned. -/
theorem EchoCanCore.nonLinear_of_not_cng (c : EchoCanCore)
    (hcng : hasFlag c.adaptionMode echoCanUseCng = false)
    (cleanNlp cngLevel cngRndnum cngFilter : ℤ) (snapshot : List ℤ) :
    EchoCanCore.nonLinear
        { c with
          cleanNlp := cleanNlp, cngLevel := cngLevel, cngRndnum := cngRndnum
          cngFilter := cngFilter, snapshot := snapshot } =
      { c.nonLinear with
        cngLevel := cngLevel, cngRndnum := cngRndnum, cngFilter := cngFilter
        snapshot := snapshot } := by
  simp only [EchoCanCore.nonLinear, hcng]
  split
  · split
    · show (if hasFlag c.adaptionMode echoCanUseClip then _ else _) = _
      split <;> rfl
    · split <;> rfl
  · rfl

theorem echoCanUpdate_lasting {ec : EchoCan}
    (hcng : hasFlag ec.adaptionMode echoCanUseCng = false) (tx rx : Int16) :
    (echoCanUpdate ec.lasting tx rx).1.lasting = (echoCanUpdate ec tx rx).1.lasting ∧
      (echoCanUpdate ec.lasting tx rx).2 = (echoCanUpdate ec tx rx).2 := by
  have htransfer : (ec.lasting.atTransfer tx rx).transfer =
      { (ec.atTransfer tx rx).transfer with
        cleanNlp := 0, cngLevel := 0, cngRndnum := 0, cngFilter := 0, snapshot := [] } := by
    rw [EchoCanCore.transfer_eq, EchoCanCore.transfer_eq]
    rfl
  have hcng' : hasFlag (ec.atTransfer tx rx).transfer.adaptionMode echoCanUseCng = false := by
    rw [ec.transfer_adaptionMode, hcng]
  rw [echoCanUpdate_eq, echoCanUpdate_eq, htransfer, EchoCanCore.nonLinear_of_not_cng _ hcng']
  exact ⟨rfl, rfl⟩

/-- An update that does not qualify resets the counter, whatever it was. -/
theorem echoCanUpdate_condMet {ec : EchoCan} {tx rx : Int16}
    (hq : ec.qualifies tx rx = false) (m : ℤ) :
    echoCanUpdate { ec with condMet := m } tx rx = echoCanUpdate ec tx rx := by
  have hq' : (EchoCan.atTransfer { ec with condMet := m } tx rx).transferQualifies = false := hq
  have htransfer : (EchoCan.atTransfer { ec with condMet := m } tx rx).transfer =
      (ec.atTransfer tx rx).transfer := by
    rw [EchoCanCore.transfer_eq, EchoCanCore.transfer_eq, hq',
      show (ec.atTransfer tx rx).transferQualifies = false from hq]
    rfl
  rw [echoCanUpdate_eq, echoCanUpdate_eq, htransfer]
  rfl

/-! ### Cancellers that cannot be told apart -/

/-- Equal on all that lasts, except that the counter may differ as long as the
next update will reset it. -/
def SameFuture (s t : EchoCan) : Prop :=
  ∃ m, s.lasting = { t with condMet := m }.lasting ∧ (m = t.condMet ∨ t.Blank)

/-- No update may run while comfort noise is selected. -/
def NoComfortNoise (ec : EchoCan) : Call → Prop
  | .update _ _ => hasFlag ec.adaptionMode echoCanUseCng = false
  | _ => True

theorem SameFuture.update {s t : EchoCan} (h : SameFuture s t)
    (hcng : hasFlag s.adaptionMode echoCanUseCng = false) (tx rx : Int16) :
    SameFuture (echoCanUpdate s tx rx).1 (echoCanUpdate t tx rx).1 ∧
      (echoCanUpdate s tx rx).2 = (echoCanUpdate t tx rx).2 := by
  obtain ⟨m, hlasting, hcount⟩ := h
  have hmode : s.adaptionMode = t.adaptionMode := by
    show s.lasting.adaptionMode = { t with condMet := m }.lasting.adaptionMode
    rw [hlasting]
  have hcng' : hasFlag { t with condMet := m }.adaptionMode echoCanUseCng = false := by
    rw [← hcng, hmode]
  -- either the counters agree, or this update resets both
  have hcount' : echoCanUpdate { t with condMet := m } tx rx = echoCanUpdate t tx rx := by
    rcases hcount with rfl | hblank
    · rfl
    · exact echoCanUpdate_condMet (hblank.not_qualifies tx rx) m
  obtain ⟨hs, hsout⟩ := echoCanUpdate_lasting hcng tx rx
  obtain ⟨ht, htout⟩ := echoCanUpdate_lasting hcng' tx rx
  rw [hcount', ← hlasting] at ht htout
  refine ⟨⟨(echoCanUpdate t tx rx).1.condMet, hs.symm.trans ht, Or.inl rfl⟩, ?_⟩
  exact hsout.symm.trans htout

theorem echoCanHpfTx_lasting (ec : EchoCan) (tx : Int16) :
    (echoCanHpfTx ec.lasting tx).1.lasting = (echoCanHpfTx ec tx).1.lasting ∧
      (echoCanHpfTx ec.lasting tx).2 = (echoCanHpfTx ec tx).2 := by
  have hmode : ec.lasting.adaptionMode = ec.adaptionMode := rfl
  rw [echoCanHpfTx, echoCanHpfTx, hmode]
  split
  · exact ⟨rfl, rfl⟩
  · exact ⟨rfl, rfl⟩

theorem SameFuture.hpfTx {s t : EchoCan} (h : SameFuture s t) (tx : Int16) :
    SameFuture (echoCanHpfTx s tx).1 (echoCanHpfTx t tx).1 ∧
      (echoCanHpfTx s tx).2 = (echoCanHpfTx t tx).2 := by
  obtain ⟨m, hlasting, hcount⟩ := h
  have hcount' : (echoCanHpfTx { t with condMet := m } tx).1 =
        { (echoCanHpfTx t tx).1 with condMet := m } ∧
      (echoCanHpfTx { t with condMet := m } tx).2 = (echoCanHpfTx t tx).2 := by
    simp only [echoCanHpfTx]
    split
    · exact ⟨rfl, rfl⟩
    · exact ⟨rfl, rfl⟩
  obtain ⟨hs, hsout⟩ := echoCanHpfTx_lasting s tx
  obtain ⟨ht, htout⟩ := echoCanHpfTx_lasting { t with condMet := m } tx
  rw [hcount'.1, ← hlasting] at ht
  rw [hcount'.2, ← hlasting] at htout
  refine ⟨⟨m, hs.symm.trans ht, ?_⟩, hsout.symm.trans htout⟩
  rw [echoCanHpfTx_eq]
  rcases hcount with hcount | hblank
  · exact Or.inl hcount
  · exact Or.inr (hblank.quiet _ t.adaptionMode t.snapshot)

theorem echoCanFlush_lasting (ec : EchoCan) :
    (echoCanFlush ec).lasting = (echoCanFlush ec.lasting).lasting := by
  rw [echoCanFlush_eq, echoCanFlush_eq]
  rfl

/-- Cancellers that cannot be told apart stay so under every call that does not
ask for comfort noise. -/
theorem sameFuture_simulates : echoCan.Simulates echoCan NoComfortNoise SameFuture := by
  constructor
  · rintro s t c h hguard
    cases c with
    | update tx rx => exact (h.update hguard tx rx).1
    | hpfTx tx => exact (h.hpfTx tx).1
    | flush =>
        obtain ⟨m, hlasting, -⟩ := h
        refine ⟨m, ?_, Or.inr (echoCanFlush_blank t)⟩
        have hs := echoCanFlush_lasting s
        rw [hlasting, ← echoCanFlush_lasting] at hs
        refine hs.trans ?_
        show _ = { echoCanFlush t with condMet := m }.lasting
        rw [echoCanFlush_eq, echoCanFlush_eq]
        rfl
    | adaptionMode mode =>
        obtain ⟨m, hlasting, hcount⟩ := h
        refine ⟨m, congrArg (fun ec : EchoCan => echoCanAdaptionMode ec mode) hlasting, ?_⟩
        exact hcount.imp_right fun hblank => hblank.quiet t.txDc mode t.snapshot
    | snapshot =>
        obtain ⟨m, hlasting, hcount⟩ := h
        refine ⟨m, hlasting, ?_⟩
        exact hcount.imp_right fun hblank => hblank.quiet t.txDc t.adaptionMode t.firTaps16Fg
  · rintro s t c h hguard
    cases c with
    | update tx rx => exact congrArg some (h.update hguard tx rx).2
    | hpfTx tx => exact congrArg some (h.hpfTx tx).2
    | flush => rfl
    | adaptionMode mode => rfl
    | snapshot => rfl

/-! ### The flush -/

theorem flush_sameFuture_create {len : ℕ} (hlen : 0 < len) (mode : BitVec 32)
    (calls : List Call) :
    SameFuture (echoCanFlush (echoCan.run (echoCanCreate len mode) calls))
      (echoCanCreate len (echoCan.run (echoCanCreate len mode) calls).adaptionMode) := by
  obtain ⟨r, hr, -⟩ := exists_ring_of_run hlen mode calls
  have hlog := echoCan_run_log2taps len mode calls
  generalize echoCan.run (echoCanCreate len mode) calls = ec at hr hlog
  refine ⟨ec.condMet, ?_, Or.inr (echoCanCreate_blank _ _)⟩
  rw [echoCanFlush_eq]
  simp only [EchoCan.lasting, EchoCanCore.flush, fir16Flush, echoCanCreate, EchoCanCore.create,
    fir16Create, hr.taps, hr.fir.taps, hr.firBg.taps, hlog]

/-- After a flush, as long as no update asks for comfort noise, the canceller
returns what a new one would. -/
theorem flush_is_fresh_start (len : ℕ) (hlen : 2 ≤ len) (mode : BitVec 32)
    (calls after : List Call)
    (hcng : ∀ t ∈ echoCan.trace (echoCanFlush (echoCan.run (echoCanCreate len mode) calls)) after,
      NoComfortNoise t.before t.input) :
    echoCan.outputs (echoCanFlush (echoCan.run (echoCanCreate len mode) calls)) after =
      echoCan.outputs
        (echoCanCreate len (echoCan.run (echoCanCreate len mode) calls).adaptionMode) after :=
  sameFuture_simulates.outputs_eq (flush_sameFuture_create (by omega) mode calls) hcng

/-- The flush after eleven samples of echo, with the counter at its maximum and
the foreground adapted. -/
theorem flush_is_fresh_start_after_convergence :
    echoCan.outputs (echoCanFlush (echoCan.run (echoCanCreate 2 echoCanUseAdaption)
        (List.replicate 11 (.update 32766 10000)))) [.update 400 100, .snapshot, .update (-3) 8] =
      echoCan.outputs (echoCanCreate 2 (echoCan.run (echoCanCreate 2 echoCanUseAdaption)
        (List.replicate 11 (.update 32766 10000))).adaptionMode)
        [.update 400 100, .snapshot, .update (-3) 8] := by
  refine flush_is_fresh_start 2 (by decide) echoCanUseAdaption _ _ ?_
  simp only [Mealy.trace_cons, Mealy.trace_nil, List.forall_mem_cons, List.not_mem_nil,
    false_imp_iff, implies_true, and_true]
  refine ⟨?_, trivial, ?_⟩
  · show hasFlag _ _ = false
    decide +kernel
  · show hasFlag _ _ = false
    decide +kernel

end Oslec
