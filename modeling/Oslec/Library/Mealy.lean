import Mathlib.Data.List.Induction
import Mathlib.Tactic.Common

/-!
Machines that answer every input with an output and a new state, and the four
ways in which this development reasons about their runs: an invariant of one
machine, a simulation between two machines, an unwinding relation between two
runs of one machine that read different inputs, and the projection of a machine
onto a smaller one that is part of it.
-/

/-- A machine whose step consumes an input and returns the next state together
with an output. -/
structure Mealy (σ α β : Type*) where
  step : σ → α → σ × β

namespace Mealy

variable {σ τ α β γ : Type*} (M : Mealy σ α β)

/-- One step of a run, with the state before and after it. -/
structure Transition (σ α : Type*) where
  before : σ
  input : α
  after : σ

def run (s : σ) (as : List α) : σ := as.foldl (fun s a => (M.step s a).1) s

def outputs : σ → List α → List β
  | _, [] => []
  | s, a :: as => (M.step s a).2 :: outputs (M.step s a).1 as

/-- The steps of a run in the order in which they are taken. -/
def trace : σ → List α → List (Transition σ α)
  | _, [] => []
  | s, a :: as => ⟨s, a, (M.step s a).1⟩ :: trace (M.step s a).1 as

@[simp] theorem run_nil (s : σ) : M.run s [] = s := rfl

@[simp] theorem run_cons (s : σ) (a : α) (as : List α) :
    M.run s (a :: as) = M.run (M.step s a).1 as := rfl

theorem run_append (s : σ) (as bs : List α) :
    M.run s (as ++ bs) = M.run (M.run s as) bs := List.foldl_append

@[simp] theorem run_concat (s : σ) (as : List α) (a : α) :
    M.run s (as ++ [a]) = (M.step (M.run s as) a).1 := by
  rw [run_append]
  rfl

theorem outputs_append (s : σ) (as bs : List α) :
    M.outputs s (as ++ bs) = M.outputs s as ++ M.outputs (M.run s as) bs := by
  induction as generalizing s with
  | nil => rfl
  | cons a as ih => simp [outputs, ih]

@[simp] theorem trace_nil (s : σ) : M.trace s [] = [] := rfl

@[simp] theorem trace_cons (s : σ) (a : α) (as : List α) :
    M.trace s (a :: as) = ⟨s, a, (M.step s a).1⟩ :: M.trace (M.step s a).1 as := rfl

theorem trace_append (s : σ) (as bs : List α) :
    M.trace s (as ++ bs) = M.trace s as ++ M.trace (M.run s as) bs := by
  induction as generalizing s with
  | nil => rfl
  | cons a as ih => simp [ih]

@[simp] theorem trace_concat (s : σ) (as : List α) (a : α) :
    M.trace s (as ++ [a]) =
      M.trace s as ++ [⟨M.run s as, a, (M.step (M.run s as) a).1⟩] := by
  rw [trace_append]
  rfl

/-- A step of a run starts in the state that some prefix of the inputs reaches. -/
theorem exists_prefix_of_mem_trace {s : σ} {as : List α} {t : Transition σ α}
    (ht : t ∈ M.trace s as) :
    ∃ bs, t.before = M.run s bs ∧ t.after = (M.step t.before t.input).1 := by
  induction as generalizing s with
  | nil => simp at ht
  | cons a as ih =>
      rcases List.mem_cons.mp ht with rfl | ht
      · exact ⟨[], rfl, rfl⟩
      · obtain ⟨bs, hbefore, hafter⟩ := ih ht
        exact ⟨a :: bs, hbefore, hafter⟩

theorem input_mem_of_mem_trace {s : σ} {as : List α} {t : Transition σ α}
    (ht : t ∈ M.trace s as) : t.input ∈ as := by
  induction as generalizing s with
  | nil => simp at ht
  | cons a as ih =>
      rcases List.mem_cons.mp ht with rfl | ht
      · exact List.mem_cons_self
      · exact List.mem_cons_of_mem a (ih ht)

/-! ### Invariants -/

/-- What holds at the start and survives every step holds after every run. -/
theorem run_invariant {I : σ → Prop} (hstep : ∀ s a, I s → I (M.step s a).1)
    {s : σ} (hs : I s) (as : List α) : I (M.run s as) := by
  induction as generalizing s with
  | nil => exact hs
  | cons a as ih => exact ih (hstep s a hs)

/-- The invariant rule for statements about a state and the inputs that led to it. -/
theorem run_induction {P : List α → σ → Prop} {s : σ} (hnil : P [] s)
    (hstep : ∀ as a, P as (M.run s as) → P (as ++ [a]) (M.step (M.run s as) a).1)
    (as : List α) : P as (M.run s as) := by
  induction as using List.reverseRecOn with
  | nil => exact hnil
  | append_singleton as a ih =>
      rw [run_concat]
      exact hstep as a ih

/-- The invariant rule for runs that a guard has let take every step. -/
theorem trace_invariant {I : σ → Prop} {G : σ → α → Prop}
    (hstep : ∀ s a, I s → G s a → I (M.step s a).1) {s : σ} (hs : I s) {as : List α}
    (hG : ∀ t ∈ M.trace s as, G t.before t.input) : ∀ t ∈ M.trace s as, I t.before := by
  induction as generalizing s with
  | nil => simp
  | cons a as ih =>
      simp only [trace_cons, List.forall_mem_cons] at hG ⊢
      exact ⟨hs, ih (hstep s a hs hG.1) hG.2⟩

/-- What a guarded run preserves holds where it ends. -/
theorem run_invariant_of_trace {I : σ → Prop} {G : σ → α → Prop}
    (hstep : ∀ s a, I s → G s a → I (M.step s a).1) {s : σ} (hs : I s) {as : List α}
    (hG : ∀ t ∈ M.trace s as, G t.before t.input) : I (M.run s as) := by
  induction as generalizing s with
  | nil => exact hs
  | cons a as ih =>
      simp only [trace_cons, List.forall_mem_cons] at hG
      exact ih (hstep s a hs hG.1) hG.2

/-- Two demands on the steps of a run are the same where every step that meets
the first preserves an invariant under which they are. -/
theorem trace_iff {I : σ → Prop} {P Q : σ → α → Prop} (hiff : ∀ s a, I s → (P s a ↔ Q s a))
    (hstep : ∀ s a, I s → P s a → I (M.step s a).1) {s : σ} (hs : I s) (as : List α) :
    (∀ t ∈ M.trace s as, P t.before t.input) ↔ ∀ t ∈ M.trace s as, Q t.before t.input := by
  induction as generalizing s with
  | nil => simp
  | cons a as ih =>
      simp only [trace_cons, List.forall_mem_cons]
      rw [← hiff s a hs]
      exact and_congr_right fun hP => ih (hstep s a hs hP)

/-! ### Simulation -/

/-- Two machines that stay related, and answer alike, along every input that
the guard lets the left one take. -/
structure Simulates (N : Mealy τ α β) (G : σ → α → Prop) (R : σ → τ → Prop) : Prop where
  /-- Related states step to related states. -/
  rel : ∀ s t a, R s t → G s a → R (M.step s a).1 (N.step t a).1
  /-- Related states give the same output. -/
  out : ∀ s t a, R s t → G s a → (M.step s a).2 = (N.step t a).2

variable {M}

theorem Simulates.run {N : Mealy τ α β} {G : σ → α → Prop} {R : σ → τ → Prop}
    (h : M.Simulates N G R) {s : σ} {t : τ} (hst : R s t) {as : List α}
    (hG : ∀ u ∈ M.trace s as, G u.before u.input) : R (M.run s as) (N.run t as) := by
  induction as generalizing s t with
  | nil => exact hst
  | cons a as ih =>
      simp only [trace_cons, List.forall_mem_cons] at hG
      exact ih (h.rel s t a hst hG.1) hG.2

theorem Simulates.outputs_eq {N : Mealy τ α β} {G : σ → α → Prop} {R : σ → τ → Prop}
    (h : M.Simulates N G R) {s : σ} {t : τ} (hst : R s t) {as : List α}
    (hG : ∀ u ∈ M.trace s as, G u.before u.input) : M.outputs s as = N.outputs t as := by
  induction as generalizing s t with
  | nil => rfl
  | cons a as ih =>
      simp only [trace_cons, List.forall_mem_cons] at hG
      simp only [outputs]
      rw [h.out s t a hst hG.1, ih (h.rel s t a hst hG.1) hG.2]

variable (M)

/-! ### Unwinding -/

/-- The part of a run that an observer sees, `see` telling what it makes of one
input and `none` standing for an input it does not notice. -/
def observed (see : σ → α → Option γ) : σ → List α → List γ
  | _, [] => []
  | s, a :: as => (see s a).toList ++ observed see (M.step s a).1 as

/-- An unwinding relation: unnoticed inputs preserve it on either side, and
inputs that look alike preserve it when both sides take them. -/
structure Unwinds (see : σ → α → Option γ) (E : σ → σ → Prop) : Prop where
  left : ∀ s t a, E s t → see s a = none → E (M.step s a).1 t
  right : ∀ s t a, E s t → see t a = none → E s (M.step t a).1
  sync : ∀ s t a b c, E s t → see s a = some c → see t b = some c →
    E (M.step s a).1 (M.step t b).1

variable {M}

/-- Skipping the unnoticed inputs at the head of a run brings it to the first
input the observer sees. -/
theorem Unwinds.skip {see : σ → α → Option γ} {E : σ → σ → Prop} (h : M.Unwinds see E)
    {s t : σ} (hst : E s t) {bs : List α} {c : γ} {cs : List γ}
    (hobs : M.observed see t bs = c :: cs) :
    ∃ t' b bs', E s t' ∧ see t' b = some c ∧ M.observed see (M.step t' b).1 bs' = cs ∧
      M.run t bs = M.run (M.step t' b).1 bs' := by
  induction bs generalizing t with
  | nil => simp [observed] at hobs
  | cons b bs ih =>
      cases hsee : see t b with
      | none =>
          simp only [observed, hsee, Option.toList_none, List.nil_append] at hobs
          exact ih (h.right s t b hst hsee) hobs
      | some d =>
          simp only [observed, hsee, Option.toList_some, List.singleton_append,
            List.cons.injEq] at hobs
          obtain ⟨rfl, hobs⟩ := hobs
          exact ⟨t, b, bs, hst, hsee, hobs, rfl⟩

/-- Nothing in the tail of a run is noticed. -/
theorem Unwinds.quiet {see : σ → α → Option γ} {E : σ → σ → Prop} (h : M.Unwinds see E)
    {s t : σ} (hst : E s t) {bs : List α} (hobs : M.observed see t bs = []) :
    E s (M.run t bs) := by
  induction bs generalizing t with
  | nil => exact hst
  | cons b bs ih =>
      simp only [observed, List.append_eq_nil_iff, Option.toList_eq_nil_iff] at hobs
      exact ih (h.right s t b hst hobs.1) hobs.2

/-- Two runs that look alike to the observer end in related states. -/
theorem Unwinds.run {see : σ → α → Option γ} {E : σ → σ → Prop} (h : M.Unwinds see E)
    {s t : σ} (hst : E s t) {as bs : List α}
    (hobs : M.observed see s as = M.observed see t bs) : E (M.run s as) (M.run t bs) := by
  induction as generalizing s t bs with
  | nil => exact h.quiet hst hobs.symm
  | cons a as ih =>
      cases hsee : see s a with
      | none =>
          simp only [observed, hsee, Option.toList_none, List.nil_append] at hobs
          exact ih (h.left s t a hst hsee) hobs
      | some c =>
          simp only [observed, hsee, Option.toList_some, List.singleton_append] at hobs
          obtain ⟨t', b, bs', hst', hsee', hobs', hrun⟩ := h.skip hst hobs.symm
          rw [hrun]
          exact ih (h.sync s t' a b c hst' hsee hsee') hobs'.symm

/-! ### Projection -/

variable {δ : Type*}

/-- What the machine answers to the inputs that the observer notices. -/
def answers (M : Mealy σ α β) (see : σ → α → Option γ) : σ → List α → List β
  | _, [] => []
  | s, a :: as =>
      (see s a).toList.map (fun _ => (M.step s a).2) ++ answers M see (M.step s a).1 as

/-- One machine is part of another: an input that it notices is a step of its
own, and no other input changes it. -/
structure Projects (M : Mealy σ α β) (N : Mealy τ γ δ) (proj : σ → τ)
    (see : σ → α → Option γ) (say : β → δ) : Prop where
  seen : ∀ s a c, see s a = some c → proj (M.step s a).1 = (N.step (proj s) c).1
  said : ∀ s a c, see s a = some c → say (M.step s a).2 = (N.step (proj s) c).2
  unseen : ∀ s a, see s a = none → proj (M.step s a).1 = proj s

section

variable {N : Mealy τ γ δ} {proj : σ → τ} {see : σ → α → Option γ} {say : β → δ}
  (h : M.Projects N proj see say)

include h

theorem Projects.run (s : σ) (as : List α) :
    proj (M.run s as) = N.run (proj s) (M.observed see s as) := by
  induction as generalizing s with
  | nil => rfl
  | cons a as ih =>
      cases hsee : see s a with
      | none =>
          simp only [run_cons, observed, hsee, Option.toList_none, List.nil_append]
          rw [ih, h.unseen s a hsee]
      | some c =>
          simp only [run_cons, observed, hsee, Option.toList_some, List.singleton_append]
          rw [ih, h.seen s a c hsee]

theorem Projects.answers_eq (s : σ) (as : List α) :
    (M.answers see s as).map say = N.outputs (proj s) (M.observed see s as) := by
  induction as generalizing s with
  | nil => rfl
  | cons a as ih =>
      cases hsee : see s a with
      | none =>
          simp only [answers, observed, hsee, Option.toList_none, List.map_nil, List.nil_append]
          rw [ih, h.unseen s a hsee]
      | some c =>
          simp only [answers, observed, hsee, Option.toList_some, List.map_cons, List.map_nil,
            List.singleton_append, outputs]
          rw [ih, h.seen s a c hsee, h.said s a c hsee]

end

section

variable {see see' : σ → α → Option γ}

theorem observed_congr {s : σ} {as : List α}
    (h : ∀ t ∈ M.trace s as, see t.before t.input = see' t.before t.input) :
    M.observed see s as = M.observed see' s as := by
  induction as generalizing s with
  | nil => rfl
  | cons a as ih =>
      simp only [trace_cons, List.forall_mem_cons] at h
      rw [observed, observed, h.1, ih h.2]

theorem answers_congr {s : σ} {as : List α}
    (h : ∀ t ∈ M.trace s as, see t.before t.input = see' t.before t.input) :
    M.answers see s as = M.answers see' s as := by
  induction as generalizing s with
  | nil => rfl
  | cons a as ih =>
      simp only [trace_cons, List.forall_mem_cons] at h
      rw [answers, answers, h.1, ih h.2]

/-- An observer that does not look at the state sees a part of the inputs. -/
theorem observed_eq_filterMap (sel : α → Option γ) (s : σ) (as : List α) :
    M.observed (fun _ => sel) s as = as.filterMap sel := by
  induction as generalizing s with
  | nil => rfl
  | cons a as ih =>
      rw [observed, ih, List.filterMap_cons]
      cases sel a <;> rfl

end

end Mealy
