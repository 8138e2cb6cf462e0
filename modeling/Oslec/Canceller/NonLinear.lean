import Oslec.Canceller.Update

/-!
What the last section of an update does: the branch it takes can be read off the
state the update leaves, since nothing behind the level averages changes the
levels or the mode.
-/

namespace Oslec

open TwosComplement

namespace EchoCanCore

/-- The branch `16*ec->Lclean < ec->Ltx` of the non-linear processor. -/
def suppresses (c : EchoCanCore) : Bool :=
  hasFlag c.adaptionMode echoCanUseNlp && decide (i32 (16 * c.lclean.level) < c.ltx.level)

/-- The branch that counts the residual as background noise. -/
def estimatesNoise (c : EchoCanCore) : Bool :=
  hasFlag c.adaptionMode echoCanUseNlp && !decide (i32 (16 * c.lclean.level) < c.ltx.level) &&
    decide (c.lclean.level < 40)

/-- The filtered random number that makes the comfort noise. -/
def nextFilter (c : EchoCanCore) : ℤ :=
  i32 (i32 (1664525 * c.cngRndnum + 1013904223) % 65536 - 32768 + 5 * c.cngFilter) >>> (3 : ℕ)

theorem nonLinear_lbgn (c : EchoCanCore) :
    c.nonLinear.lbgn =
      if c.estimatesNoise then c.lbgn.average 12 c.clean.natAbs else c.lbgn := by
  by_cases hnlp : hasFlag c.adaptionMode echoCanUseNlp
  · by_cases hlevel : i32 (16 * c.lclean.level) < c.ltx.level
    · simp only [nonLinear, estimatesNoise, hnlp, hlevel, if_true]
      split
      · rfl
      · split <;> rfl
    · by_cases hlow : c.lclean.level < 40
      · simp [nonLinear, estimatesNoise, hnlp, hlevel, hlow]
      · simp [nonLinear, estimatesNoise, hnlp, hlevel, hlow]
  · simp [nonLinear, estimatesNoise, hnlp]

theorem nonLinear_of_cng {c : EchoCanCore} (h : c.suppresses = true)
    (hcng : hasFlag c.adaptionMode echoCanUseCng = true) :
    c.nonLinear = comfortNoise { c with cleanNlp := c.clean } := by
  obtain ⟨hnlp, hlevel⟩ : hasFlag c.adaptionMode echoCanUseNlp = true ∧
      i32 (16 * c.lclean.level) < c.ltx.level := by simpa [suppresses] using h
  simp only [nonLinear, hnlp, hlevel, hcng, if_true]

theorem nonLinear_of_clip {c : EchoCanCore} (h : c.suppresses = true)
    (hcng : hasFlag c.adaptionMode echoCanUseCng = false)
    (hclip : hasFlag c.adaptionMode echoCanUseClip = true) :
    c.nonLinear = clip { c with cleanNlp := c.clean } := by
  obtain ⟨hnlp, hlevel⟩ : hasFlag c.adaptionMode echoCanUseNlp = true ∧
      i32 (16 * c.lclean.level) < c.ltx.level := by simpa [suppresses] using h
  simp only [nonLinear, hnlp, hlevel, hcng, hclip, if_true]
  rfl

theorem nonLinear_cngFilter (c : EchoCanCore) :
    c.nonLinear.cngFilter = c.cngFilter ∨ c.nonLinear.cngFilter = c.nextFilter := by
  simp only [nonLinear]
  split
  · split
    · split
      · exact Or.inr rfl
      · split <;> exact Or.inl rfl
    · split <;> exact Or.inl rfl
  · exact Or.inl rfl

/-- What decides the branch is still there at the end of the update. -/
theorem nonLinear_bypass_reads (c : EchoCanCore) (rx : ℤ) :
    (c.nonLinear.bypass rx).suppresses = c.suppresses ∧
      (c.nonLinear.bypass rx).estimatesNoise = c.estimatesNoise ∧
      (c.nonLinear.bypass rx).clean = c.clean := by
  rw [c.nonLinear_frame]
  exact ⟨rfl, rfl, rfl⟩

theorem nonLinear_bypass_output {c : EchoCanCore} (rx : ℤ)
    (hdis : hasFlag c.adaptionMode echoCanDisable = false) :
    (c.nonLinear.bypass rx).output = c.nonLinear.output := by
  have hmode : c.nonLinear.adaptionMode = c.adaptionMode := by
    rw [c.nonLinear_frame]
  simp [output, bypass, hmode, hdis]

/-- A clipped residual is at most the background level. -/
theorem clip_bounds (c : EchoCanCore) (hlo : 0 ≤ c.lbgn.level) (hhi : c.lbgn.level ≤ 32767) :
    -c.lbgn.level ≤ c.clip.cleanNlp ∧ c.clip.cleanNlp ≤ c.lbgn.level := by
  have hpos : i16 c.lbgn.level = c.lbgn.level := i16_of_bounds (by omega) hhi
  have hneg : i16 (-c.lbgn.level) = -c.lbgn.level := i16_of_bounds (by omega) (by omega)
  simp only [clip, hpos, hneg]
  split <;> split <;> omega

end EchoCanCore

/-- How an update treats the residual, its branch read off the state it leaves. -/
structure NonLinearSpec (ec : EchoCan) (ec' : EchoCan) (out : Int16) : Prop where
  lbgn : ec'.lbgn =
    if ec'.estimatesNoise then ec.lbgn.average 12 ec'.clean.natAbs else ec.lbgn
  cngFilter : ec'.cngFilter = ec.cngFilter ∨ ec'.cngFilter = ec.nextFilter
  cng : ec'.suppresses = true → hasFlag ec.adaptionMode echoCanUseCng = true →
    hasFlag ec.adaptionMode echoCanDisable = false →
    ec'.cngLevel = ec'.lbgn.level ∧
      ec'.cngRndnum = i32 (1664525 * ec.cngRndnum + 1013904223) ∧
      ec'.cngFilter = ec.nextFilter ∧
      out = Int16.ofInt (i16 (i32 (ec'.cngFilter * ec'.cngLevel * 8) >>> (14 : ℕ)) <<< (1 : ℕ))
  clip : ec'.suppresses = true → hasFlag ec.adaptionMode echoCanUseCng = false →
    hasFlag ec.adaptionMode echoCanUseClip = true →
    hasFlag ec.adaptionMode echoCanDisable = false →
    out = (EchoCanCore.clip { ec'.toEchoCanCore with cleanNlp := ec'.clean }).output

theorem EchoCan.transfer_frame (ec : EchoCan) (tx rx : Int16) :
    (ec.atTransfer tx rx).transfer.lbgn = ec.lbgn ∧
      (ec.atTransfer tx rx).transfer.cngFilter = ec.cngFilter ∧
      (ec.atTransfer tx rx).transfer.cngRndnum = ec.cngRndnum := by
  rw [EchoCanCore.transfer_eq]
  exact ⟨rfl, rfl, rfl⟩

theorem echoCanUpdate_nonLinear (ec : EchoCan) (tx rx : Int16) :
    NonLinearSpec ec (echoCanUpdate ec tx rx).1 (echoCanUpdate ec tx rx).2 := by
  obtain ⟨hlbgn, hfilter, hrnd⟩ := ec.transfer_frame tx rx
  have hmode := ec.transfer_adaptionMode tx rx
  rw [echoCanUpdate_eq]
  generalize (ec.atTransfer tx rx).transfer = c at hlbgn hfilter hrnd hmode ⊢
  have hnext : c.nextFilter = ec.nextFilter := by
    simp only [EchoCanCore.nextFilter, hfilter, hrnd]
  obtain ⟨hsuppresses, hestimates, hclean⟩ := c.nonLinear_bypass_reads (ec.rxIn rx)
  dsimp only
  constructor
  · dsimp only
    rw [hestimates, hclean, ← hlbgn]
    exact c.nonLinear_lbgn
  · change c.nonLinear.cngFilter = _ ∨ c.nonLinear.cngFilter = _
    rw [← hfilter, ← hnext]
    exact c.nonLinear_cngFilter
  · intro hs hcng hdis
    have hnoise := c.nonLinear_of_cng (hsuppresses.symm.trans hs) (by rw [hmode, hcng])
    rw [EchoCanCore.nonLinear_bypass_output _ (by rw [hmode, hdis])]
    change c.nonLinear.cngLevel = c.nonLinear.lbgn.level ∧ c.nonLinear.cngRndnum = _ ∧
      c.nonLinear.cngFilter = _ ∧ c.nonLinear.output =
        Int16.ofInt (i16 (i32 (c.nonLinear.cngFilter * c.nonLinear.cngLevel * 8) >>> (14 : ℕ)) <<<
          (1 : ℕ))
    rw [hnoise]
    refine ⟨rfl, ?_, hnext, rfl⟩
    rw [← hrnd]
    rfl
  · intro hs hcng hclip hdis
    have hnoise := c.nonLinear_of_clip (hsuppresses.symm.trans hs) (by rw [hmode, hcng])
      (by rw [hmode, hclip])
    rw [EchoCanCore.nonLinear_bypass_output _ (by rw [hmode, hdis])]
    change c.nonLinear.output = (EchoCanCore.clip
      { c.nonLinear.bypass (ec.rxIn rx) with
        cleanNlp := (c.nonLinear.bypass (ec.rxIn rx)).clean }).output
    rw [hnoise]
    rfl

end Oslec
