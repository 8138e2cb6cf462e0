import Oslec.Properties.Transfer

/-!
The short term levels as averages of what they are fed. Each of the four
trackers of a run is the tracker of its own list of inputs, so the laws of such
a tracker are laws of the canceller: it stays below its largest input, it grows
with its inputs, and it settles exactly on a constant input.
-/

namespace Oslec

/-- Levels that a 32 bit accumulator can average without overflow. -/
def LevelInputs (as : List ℤ) : Prop := ∀ a ∈ as, 0 ≤ a ∧ a < 2 ^ 26

theorem track_eq_of_inputs {as : List ℤ} (h : LevelInputs as) :
    Level.track 5 as = ⟨LeakyAverage.run 5 as, LeakyAverage.part 5 (LeakyAverage.run 5 as)⟩ :=
  Level.track_eq (m := 2 ^ 26 - 1) (by norm_num) (by norm_num) (by norm_num) fun a ha =>
    ⟨(h a ha).1, Int.le_sub_one_of_lt (h a ha).2⟩

theorem track_nonneg {as : List ℤ} (h : LevelInputs as) : 0 ≤ (Level.track 5 as).level := by
  rw [track_eq_of_inputs h]
  exact LeakyAverage.part_nonneg (by norm_num)
    (LeakyAverage.run_nonneg (by norm_num) fun a ha => (h a ha).1)

theorem track_le {as : List ℤ} (h : LevelInputs as) {m : ℤ} (hm : 0 ≤ m) (hle : ∀ a ∈ as, a ≤ m) :
    (Level.track 5 as).level ≤ m := by
  rw [track_eq_of_inputs h]
  exact LeakyAverage.part_le (by norm_num) (LeakyAverage.run_le (by norm_num) hm hle)

/-- The level never exceeds the largest of its inputs. -/
theorem exists_track_le {as : List ℤ} (h : LevelInputs as) (hne : as ≠ []) :
    ∃ a ∈ as, (Level.track 5 as).level ≤ a := by
  obtain ⟨m, hmem, hmax⟩ := Finset.exists_max_image as.toFinset id (by simpa using hne)
  have hmem : m ∈ as := by simpa using hmem
  exact ⟨m, hmem, track_le h (h m hmem).1 fun a ha => hmax a (by simpa using ha)⟩

theorem track_mono {as bs : List ℤ} (has : LevelInputs as) (hbs : LevelInputs bs)
    (h : List.Forall₂ (· ≤ ·) as bs) : (Level.track 5 as).level ≤ (Level.track 5 bs).level := by
  rw [track_eq_of_inputs has, track_eq_of_inputs hbs]
  exact LeakyAverage.part_mono (LeakyAverage.run_mono h)

/-- What is left of a 31 bit distance after `1000` steps or more is less than one. -/
theorem leak_of_thousand {n : ℕ} (hn : 1000 ≤ n) {x : ℤ} (hx : x ≤ 2 ^ 31) :
    31 ^ n * x < 32 ^ n := by
  have hblock : (31 : ℤ) ^ 200 * 2 ^ 7 < 32 ^ 200 := by norm_num
  have hbase : (31 : ℤ) ^ 1000 * 2 ^ 31 < 32 ^ 1000 := by
    calc (31 : ℤ) ^ 1000 * 2 ^ 31 ≤ 31 ^ 1000 * 2 ^ 35 :=
          mul_le_mul_of_nonneg_left (by norm_num) (by positivity)
      _ = (31 ^ 200 * 2 ^ 7) ^ 5 := by rw [mul_pow, ← pow_mul, ← pow_mul]
      _ < (32 ^ 200) ^ 5 := pow_lt_pow_left₀ hblock (by positivity) (by norm_num)
      _ = 32 ^ 1000 := by rw [← pow_mul]
  exact LeakyAverage.rest_lt_of_base (by norm_num) (by norm_num) hn hx hbase

/-- After a thousand equal inputs the level reads the input, and goes on to. -/
theorem track_settles {as : List ℤ} (h : LevelInputs as) {a : ℤ} (ha : 0 ≤ a ∧ a < 2 ^ 26)
    {n : ℕ} (hn : 1000 ≤ n) : (Level.track 5 (List.replicate n a ++ as)).level = a := by
  have hall : LevelInputs (List.replicate n a ++ as) := by
    intro b hb
    rcases List.mem_append.mp hb with hb | hb
    · rwa [List.eq_of_mem_replicate hb]
    · exact h b hb
  have hlo := LeakyAverage.run_nonneg (k := 5) (by norm_num) fun b hb => (h b hb).1
  have hhi := LeakyAverage.run_le (k := 5) (m := 2 ^ 26 - 1) (by norm_num) (by norm_num)
    fun b hb => Int.le_sub_one_of_lt (h b hb).2
  have hup := leak_of_thousand hn
    (by omega : LeakyAverage.run 5 as - 2 ^ 5 * a - (2 ^ (5 - 1) - 1) ≤ 2 ^ 31)
  have hdown := leak_of_thousand hn
    (by omega : -(LeakyAverage.run 5 as - 2 ^ 5 * a + 2 ^ (5 - 1)) ≤ 2 ^ 31)
  rw [track_eq_of_inputs hall]
  refine LeakyAverage.part_run_replicate (by norm_num) ?_ ?_
  · norm_num at hup ⊢
    exact hup
  · norm_num at hdown ⊢
    linarith

/-! ### The trackers of the canceller -/

inductive Tracker
  | ltx | lrx | lclean | lcleanBg
deriving DecidableEq

namespace Tracker

def level (t : Tracker) (ec : EchoCan) : Level :=
  match t with
  | ltx => ec.ltx
  | lrx => ec.lrx
  | lclean => ec.lclean
  | lcleanBg => ec.lcleanBg

/-- What an update feeds the tracker. -/
def input (t : Tracker) (ec : EchoCan) (tx rx : Int16) : ℤ :=
  match t with
  | ltx => (txIn tx).natAbs
  | lrx => (ec.rxIn rx).natAbs
  | lclean => (i16 (ec.rxIn rx - ec.echoFg tx)).natAbs
  | lcleanBg => (ec.errorBg tx rx).natAbs

def limit : Tracker → ℤ
  | ltx => 16384
  | lrx => 16384
  | lclean => 32768
  | lcleanBg => 49151

def fed (t : Tracker) (u : Mealy.Transition EchoCan Call) : Option ℤ :=
  match u.input with
  | .update tx rx => some (t.input u.before tx rx)
  | _ => none

/-- The inputs since the last flush, most recent first. -/
def inputs (t : Tracker) (ts : List (Mealy.Transition EchoCan Call)) : List ℤ :=
  (updatesSinceFlush ts).filterMap t.fed

theorem input_bounds (t : Tracker) (ec : EchoCan) (tx rx : Int16) :
    0 ≤ t.input ec tx rx ∧ t.input ec tx rx ≤ t.limit := by
  obtain ⟨htxlo, htxhi⟩ := txIn_bounds tx
  obtain ⟨hrxlo, hrxhi⟩ := ec.rxIn_bounds rx
  obtain ⟨hbglo, hbghi⟩ : -32768 ≤ ec.echoBg tx ∧ ec.echoBg tx ≤ 32767 := i16_bounds _
  obtain ⟨hcleanlo, hcleanhi⟩ := i16_bounds (ec.rxIn rx - ec.echoFg tx)
  have herr : ec.errorBg tx rx = ec.rxIn rx - ec.echoBg tx := rfl
  cases t <;> simp only [input, limit] <;> omega

theorem level_update (t : Tracker) (ec : EchoCan) (tx rx : Int16) :
    t.level (echoCanUpdate ec tx rx).1 = (t.level ec).average 5 (t.input ec tx rx) := by
  have hspec := echoCanUpdate_spec ec tx rx
  cases t with
  | ltx => exact hspec.ltx
  | lrx => exact hspec.lrx
  | lclean => exact hspec.lclean
  | lcleanBg => exact hspec.lcleanBg

theorem level_flush (t : Tracker) (ec : EchoCan) : t.level (echoCanFlush ec) = ⟨0, 0⟩ := by
  rw [echoCanFlush_eq]
  cases t <;> rfl

end Tracker

/-- A tracker follows the inputs that the run has fed it since the last flush. -/
structure Tracked (t : Tracker) (ts : List (Mealy.Transition EchoCan Call)) (ec : EchoCan) :
    Prop where
  level : t.level ec = Level.track 5 (t.inputs ts)
  inputs : ∀ a ∈ t.inputs ts, 0 ≤ a ∧ a ≤ t.limit

theorem Tracked.levelInputs {t : Tracker} {ts : List (Mealy.Transition EchoCan Call)}
    {ec : EchoCan} (h : Tracked t ts ec) : LevelInputs (t.inputs ts) := by
  have hlimit : 0 ≤ t.limit ∧ t.limit < 2 ^ 26 := by cases t <;> decide
  intro a ha
  obtain ⟨hlo, hhi⟩ := h.inputs a ha
  exact ⟨hlo, by omega⟩

theorem Tracked.level_bounds {t : Tracker} {ts : List (Mealy.Transition EchoCan Call)}
    {ec : EchoCan} (h : Tracked t ts ec) :
    0 ≤ (t.level ec).level ∧ (t.level ec).level ≤ t.limit := by
  have hlimit : 0 ≤ t.limit := by cases t <;> decide
  rw [h.level]
  exact ⟨track_nonneg h.levelInputs, track_le h.levelInputs hlimit fun a ha => (h.inputs a ha).2⟩

theorem tracked_of_run (t : Tracker) (len : ℕ) (mode : BitVec 32) (calls : List Call) :
    Tracked t (echoCan.trace (echoCanCreate len mode) calls)
      (echoCan.run (echoCanCreate len mode) calls) := by
  refine echoCan_run_induction (P := fun calls ec =>
    Tracked t (echoCan.trace (echoCanCreate len mode) calls) ec) ?_ ?_ ?_ ?_ calls
  · refine ⟨?_, fun a ha => by cases ha⟩
    cases t <;> rfl
  · intro calls tx rx ih
    have hinputs : t.inputs (echoCan.trace (echoCanCreate len mode) (calls ++ [.update tx rx])) =
        t.input (echoCan.run (echoCanCreate len mode) calls) tx rx ::
          t.inputs (echoCan.trace (echoCanCreate len mode) calls) := by
      simp [Tracker.inputs, Tracker.fed]
    constructor
    · rw [hinputs, Level.track, ← ih.level, t.level_update]
    · rw [hinputs]
      intro a ha
      rcases List.mem_cons.mp ha with rfl | ha
      · exact t.input_bounds _ tx rx
      · exact ih.inputs a ha
  · intro calls _
    have hinputs : t.inputs (echoCan.trace (echoCanCreate len mode) (calls ++ [.flush])) = [] := by
      simp [Tracker.inputs]
    constructor
    · rw [hinputs, t.level_flush]
      rfl
    · rw [hinputs]
      intro a ha
      cases ha
  · intro calls c txDc mode' snapshot hc ih
    have hinputs : t.inputs (echoCan.trace (echoCanCreate len mode) (calls ++ [c])) =
        t.inputs (echoCan.trace (echoCanCreate len mode) calls) := by
      simp [Tracker.inputs, updatesSinceFlush_quiet _ _ _ hc]
    constructor
    · rw [hinputs, ← ih.level]
      cases t <;> rfl
    · rw [hinputs]
      exact ih.inputs

/-- The products of the levels in the transfer logic and the non-linear
processor are those of the integers. -/
structure ProductsExact (ec : EchoCan) : Prop where
  background : i32 (8 * ec.lcleanBg.level) = 8 * ec.lcleanBg.level
  foreground : i32 (7 * ec.lclean.level) = 7 * ec.lclean.level
  nonLinear : i32 (16 * ec.lclean.level) = 16 * ec.lclean.level

theorem productsExact_of_run (len : ℕ) (mode : BitVec 32) (calls : List Call) :
    ProductsExact (echoCan.run (echoCanCreate len mode) calls) := by
  obtain ⟨hfglo, hfghi⟩ := (tracked_of_run .lclean len mode calls).level_bounds
  obtain ⟨hbglo, hbghi⟩ := (tracked_of_run .lcleanBg len mode calls).level_bounds
  simp only [Tracker.level, Tracker.limit] at hfglo hfghi hbglo hbghi
  exact ⟨i32_of_bounds (by omega) (by omega), i32_of_bounds (by omega) (by omega),
    i32_of_bounds (by omega) (by omega)⟩

/-- The trackers of every run are bounded, monotone and unbiased. -/
theorem levels_follow_inputs :
    (∀ as, LevelInputs as → 0 ≤ (Level.track 5 as).level ∧
        (as ≠ [] → ∃ a ∈ as, (Level.track 5 as).level ≤ a)) ∧
      (∀ as bs, LevelInputs as → LevelInputs bs → List.Forall₂ (· ≤ ·) as bs →
        (Level.track 5 as).level ≤ (Level.track 5 bs).level) ∧
      (∀ as a n, LevelInputs as → 0 ≤ a → a ≤ 49151 → 1000 ≤ n →
        (Level.track 5 (List.replicate n a ++ as)).level = a) ∧
      ∀ len mode calls, ProductsExact (echoCan.run (echoCanCreate len mode) calls) ∧
        ∀ t : Tracker,
          t.level (echoCan.run (echoCanCreate len mode) calls) =
              Level.track 5 (t.inputs (echoCan.trace (echoCanCreate len mode) calls)) ∧
            LevelInputs (t.inputs (echoCan.trace (echoCanCreate len mode) calls)) ∧
            (t.level (echoCan.run (echoCanCreate len mode) calls)).level ≤ t.limit := by
  refine ⟨?_, ?_, ?_, ?_⟩
  · intro as h
    exact ⟨track_nonneg h, exists_track_le h⟩
  · intro as bs has hbs hle
    exact track_mono has hbs hle
  · intro as a n h hlo hhi hn
    exact track_settles h ⟨hlo, by omega⟩ hn
  · intro len mode calls
    refine ⟨productsExact_of_run len mode calls, fun t => ?_⟩
    have htracked := tracked_of_run t len mode calls
    exact ⟨htracked.level, htracked.levelInputs, htracked.level_bounds.2⟩

/-- Two loud samples, a quieter pair below them, and a long pause. -/
theorem levels_follow_inputs_pause :
    (∃ a ∈ [100, 2000], (Level.track 5 [100, 2000]).level ≤ a) ∧
      (Level.track 5 [90, 1500]).level ≤ (Level.track 5 [100, 2000]).level ∧
      (Level.track 5 (List.replicate 1000 0 ++ [100, 2000])).level = 0 := by
  have hloud : LevelInputs [100, 2000] := by simp [LevelInputs]
  have hquiet : LevelInputs [90, 1500] := by simp [LevelInputs]
  obtain ⟨hlargest, hmono, hsettles, -⟩ := levels_follow_inputs
  refine ⟨(hlargest _ hloud).2 (by simp), hmono _ _ hquiet hloud ?_, ?_⟩
  · exact .cons (by norm_num) (.cons (by norm_num) .nil)
  · exact hsettles _ 0 1000 hloud (le_refl 0) (by norm_num) (le_refl 1000)

end Oslec
