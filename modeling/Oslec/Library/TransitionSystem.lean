import Mathlib.Tactic.Common

/-!
Systems that move from state to state by labelled steps, several of which may
be enabled at once: an interleaving of any number of parties is a path of such
a system.
-/

/-- A set of initial states and a labelled step relation. -/
structure TransitionSystem (σ α : Type*) where
  init : σ → Prop
  step : σ → α → σ → Prop

namespace TransitionSystem

variable {σ τ α β : Type*} (S : TransitionSystem σ α)

/-- The states that some path of steps leads to. -/
inductive Reachable : σ → Prop
  | init {s : σ} : S.init s → Reachable s
  | step {s s' : σ} {a : α} : Reachable s → S.step s a s' → Reachable s'

variable {S}

/-- What holds initially and survives every step holds in every reachable state. -/
theorem Reachable.invariant {I : σ → Prop} (hinit : ∀ s, S.init s → I s)
    (hstep : ∀ s a s', I s → S.step s a s' → I s') {s : σ} (h : S.Reachable s) : I s := by
  induction h with
  | init hs => exact hinit _ hs
  | step _ hs ih => exact hstep _ _ _ ih hs

/-- `R` lets `T` follow `S`: where `S` takes a step, `T` takes one or rests. -/
structure Refines (T : TransitionSystem τ β) (R : σ → τ → Prop) : Prop where
  init : ∀ s, S.init s → ∃ t, T.init t ∧ R s t
  step : ∀ s t a s', T.Reachable t → R s t → S.step s a s' →
    ∃ t', (t' = t ∨ ∃ b, T.step t b t') ∧ R s' t'

/-- What `S` can reach, `T` can follow. -/
theorem Refines.reachable {T : TransitionSystem τ β} {R : σ → τ → Prop} (h : S.Refines T R)
    {s : σ} (hs : S.Reachable s) : ∃ t, T.Reachable t ∧ R s t := by
  induction hs with
  | init hs =>
      obtain ⟨t, ht, hR⟩ := h.init _ hs
      exact ⟨t, .init ht, hR⟩
  | step _ hstep ih =>
      obtain ⟨t, ht, hR⟩ := ih
      obtain ⟨t', hmove, hR'⟩ := h.step _ _ _ _ ht hR hstep
      rcases hmove with rfl | ⟨b, hb⟩
      · exact ⟨t', ht, hR'⟩
      · exact ⟨t', ht.step hb, hR'⟩

/-- The paths of `S` that never leave `P`. -/
def restrict (S : TransitionSystem σ α) (P : σ → Prop) : TransitionSystem σ α where
  init s := S.init s ∧ P s
  step s a s' := S.step s a s' ∧ P s'

theorem Reachable.of_restrict {P : σ → Prop} {s : σ} (h : (S.restrict P).Reachable s) :
    S.Reachable s ∧ P s := by
  induction h with
  | init hs => exact ⟨.init hs.1, hs.2⟩
  | step _ hs ih => exact ⟨ih.1.step hs.1, hs.2⟩

end TransitionSystem
