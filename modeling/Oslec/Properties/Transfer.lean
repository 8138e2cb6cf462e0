import Oslec.Canceller.Levels

/-!
Where the foreground taps come from. The counter `cond_met` is the length of
the current streak of qualifying updates, capped at six, from the first update
after a flush on; before it the counter is stale, but that update cannot
qualify and resets it.
-/

namespace Oslec

/-- The updates of a trace since its last flush, most recent first. -/
def updatesSinceFlush (ts : List (Mealy.Transition EchoCan Call)) :
    List (Mealy.Transition EchoCan Call) :=
  (ts.reverse.takeWhile (·.input ≠ .flush)).filter (·.input.tx?.isSome)

/-- The background taps as the most recent update with `adapt = 1` left them,
or zero taps where there is none. -/
def transferredTaps (len : ℕ) (us : List (Mealy.Transition EchoCan Call)) : List ℤ :=
  match us.find? (·.after.adapt = 1) with
  | some t => t.after.firTaps16Bg
  | none => List.replicate len 0

section

variable (ts : List (Mealy.Transition EchoCan Call)) (s s' : EchoCan)

@[simp] theorem updatesSinceFlush_update (tx rx : Int16) :
    updatesSinceFlush (ts ++ [⟨s, .update tx rx, s'⟩]) =
      ⟨s, .update tx rx, s'⟩ :: updatesSinceFlush ts := by
  simp [updatesSinceFlush, Call.tx?]

@[simp] theorem updatesSinceFlush_flush : updatesSinceFlush (ts ++ [⟨s, .flush, s'⟩]) = [] := by
  simp [updatesSinceFlush]

theorem updatesSinceFlush_quiet {c : Call} (hc : c.Quiet) :
    updatesSinceFlush (ts ++ [⟨s, c, s'⟩]) = updatesSinceFlush ts := by
  simp [updatesSinceFlush, hc.ne_flush, hc.tx?_eq]

end

/-- A streak is at least `m` long exactly when the first `m` entries exist and
belong to it. -/
theorem le_length_takeWhile_iff {α : Type*} (p : α → Bool) (l : List α) (m : ℕ) :
    m ≤ (l.takeWhile p).length ↔ m ≤ l.length ∧ ∀ a ∈ l.take m, p a = true := by
  induction l generalizing m with
  | nil => simp
  | cons a l ih =>
      cases m with
      | zero => simp
      | succ m =>
          cases hp : p a with
          | false => simp [hp]
          | true => simp [hp, ih]

/-- The counter and the foreground taps of a canceller whose updates since the
last flush are `us`. -/
structure Provenance (len : ℕ) (us : List (Mealy.Transition EchoCan Call)) (ec : EchoCan) :
    Prop where
  taps : ec.taps = len
  /-- Until the first update the counter means nothing. -/
  blank : us = [] → ec.Blank
  condMet : us ≠ [] → ec.condMet = min 6 (us.takeWhile (·.after.transferQualifies)).length
  tapsFg : ec.firTaps16Fg = transferredTaps len us

/-- An update transfers exactly when it is at least the seventh of its streak. -/
theorem Provenance.transfers_iff {len : ℕ} {us : List (Mealy.Transition EchoCan Call)}
    {ec : EchoCan} (h : Provenance len us ec) (tx rx : Int16) :
    (ec.qualifies tx rx ∧ ec.condMet = 6) ↔
      7 ≤ ((⟨ec, .update tx rx, (echoCanUpdate ec tx rx).1⟩ :: us).takeWhile
        (·.after.transferQualifies)).length := by
  rw [List.takeWhile_cons, (echoCanUpdate_spec ec tx rx).qualifies]
  cases hq : ec.qualifies tx rx with
  | false => simp
  | true =>
      -- a qualifying update is not the first one, so the counter is not stale
      have hne : us ≠ [] := by
        rintro rfl
        rw [(h.blank rfl).not_qualifies] at hq
        cases hq
      rw [h.condMet hne, if_pos rfl, List.length_cons]
      simp only [true_and]
      omega

theorem Provenance.update {len : ℕ} {us : List (Mealy.Transition EchoCan Call)} {ec : EchoCan}
    (h : Provenance len us ec) (tx rx : Int16) :
    Provenance len (⟨ec, .update tx rx, (echoCanUpdate ec tx rx).1⟩ :: us)
      (echoCanUpdate ec tx rx).1 := by
  have hspec := echoCanUpdate_spec ec tx rx
  exact {
    taps := hspec.taps.trans h.taps
    blank := by
      intro hnil
      cases hnil
    condMet := by
      intro _
      rw [List.takeWhile_cons, hspec.qualifies, hspec.condMet]
      cases hq : ec.qualifies tx rx with
      | false => rfl
      | true =>
          have hne : us ≠ [] := by
            rintro rfl
            rw [(h.blank rfl).not_qualifies] at hq
            cases hq
          rw [h.condMet hne, if_pos rfl, if_pos rfl, List.length_cons]
          split <;> omega
    tapsFg := by
      have hadapt := hspec.adapt
      rw [hspec.firTaps16Fg, transferredTaps, List.find?_cons]
      by_cases htransfer : ec.qualifies tx rx ∧ ec.condMet = 6
      · rw [if_pos htransfer] at hadapt ⊢
        simp only [hadapt, decide_true]
      · rw [if_neg htransfer] at hadapt ⊢
        simp only [hadapt]
        exact h.tapsFg
  }

theorem provenance_of_run (len : ℕ) (mode : BitVec 32) (calls : List Call) :
    Provenance len (updatesSinceFlush (echoCan.trace (echoCanCreate len mode) calls))
      (echoCan.run (echoCanCreate len mode) calls) := by
  refine echoCan_run_induction (P := fun calls ec => Provenance len
    (updatesSinceFlush (echoCan.trace (echoCanCreate len mode) calls)) ec) ?_ ?_ ?_ ?_ calls
  · exact ⟨rfl, fun _ => echoCanCreate_blank len mode, fun h => absurd rfl h, rfl⟩
  · intro calls tx rx h
    rw [Mealy.trace_concat, updatesSinceFlush_update]
    exact h.update tx rx
  · intro calls h
    rw [Mealy.trace_concat, updatesSinceFlush_flush]
    refine ⟨?_, fun _ => echoCanFlush_blank _, fun hne => absurd rfl hne, ?_⟩
    · rw [echoCanFlush_eq]
      exact h.taps
    · rw [echoCanFlush_eq]
      exact congrArg (List.replicate · 0) h.taps
  · intro calls c txDc mode snapshot hc h
    rw [Mealy.trace_concat, updatesSinceFlush_quiet _ _ _ hc]
    exact ⟨h.taps, fun hnil => (h.blank hnil).quiet txDc mode snapshot, h.condMet, h.tapsFg⟩

/-- The states that updates leave in a run have bounded levels. -/
theorem levelsBounded_of_mem_trace {len : ℕ} {mode : BitVec 32} {calls : List Call}
    {t : Mealy.Transition EchoCan Call}
    (ht : t ∈ echoCan.trace (echoCanCreate len mode) calls) : t.after.LevelsBounded := by
  obtain ⟨pre, hbefore, hafter⟩ := echoCan.exists_prefix_of_mem_trace ht
  rw [hafter, hbefore]
  have hrun := levelsBounded_of_run len mode (pre ++ [t.input])
  rwa [Mealy.run_concat] at hrun

theorem mem_trace_of_mem_updatesSinceFlush {ts : List (Mealy.Transition EchoCan Call)}
    {t : Mealy.Transition EchoCan Call} (ht : t ∈ updatesSinceFlush ts) : t ∈ ts := by
  have h := (List.takeWhile_sublist _).mem (List.mem_filter.mp ht).1
  exact List.mem_reverse.mp h

/-- The transfer happens at the seventh qualifying update in a row since the
last flush and at every later one of the streak, and nothing else ever reaches
the foreground taps. -/
theorem foreground_provenance (len : ℕ) (mode : BitVec 32) (calls : List Call) :
    (∀ tx rx,
        (echoCan.run (echoCanCreate len mode) (calls ++ [.update tx rx])).adapt = 1 ↔
          7 ≤ (updatesSinceFlush (echoCan.trace (echoCanCreate len mode)
              (calls ++ [.update tx rx]))).length ∧
            ∀ t ∈ (updatesSinceFlush (echoCan.trace (echoCanCreate len mode)
                (calls ++ [.update tx rx]))).take 7, TransferCondition t.after) ∧
      (echoCan.run (echoCanCreate len mode) calls).firTaps16Fg =
        transferredTaps len
          (updatesSinceFlush (echoCan.trace (echoCanCreate len mode) calls)) := by
  have h := provenance_of_run len mode calls
  refine ⟨fun tx rx => ?_, h.tapsFg⟩
  have hcondition : ∀ t ∈ updatesSinceFlush (echoCan.trace (echoCanCreate len mode)
      (calls ++ [.update tx rx])), t.after.transferQualifies = true ↔ TransferCondition t.after :=
    fun t ht => (levelsBounded_of_mem_trace
      (mem_trace_of_mem_updatesSinceFlush ht)).transferQualifies_iff
  have hadapt : (echoCan.run (echoCanCreate len mode) (calls ++ [.update tx rx])).adapt = 1 ↔
      (echoCan.run (echoCanCreate len mode) calls).qualifies tx rx ∧
        (echoCan.run (echoCanCreate len mode) calls).condMet = 6 := by
    rw [Mealy.run_concat]
    change (echoCanUpdate _ tx rx).1.adapt = 1 ↔ _
    rw [(echoCanUpdate_spec _ tx rx).adapt]
    split
    · exact ⟨fun _ => by assumption, fun _ => rfl⟩
    · exact ⟨fun hone => absurd hone (by decide), fun htransfer => absurd htransfer (by assumption)⟩
  rw [hadapt, h.transfers_iff, le_length_takeWhile_iff]
  rw [Mealy.trace_concat] at hcondition ⊢
  rw [updatesSinceFlush_update] at hcondition ⊢
  refine and_congr_right fun _ => forall₂_congr fun t ht => ?_
  exact hcondition t (List.mem_of_mem_take ht)

end Oslec
