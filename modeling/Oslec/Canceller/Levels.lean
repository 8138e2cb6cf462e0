import Oslec.Canceller.Calls
import Oslec.Library.LeakyAverage

/-!
The level trackers. A tracker never leaves the range of the levels
it is fed, so the products that the transfer logic compares do not overflow;
and after a flush the two residual levels start equal, so the first update
cannot meet the transfer condition.
-/

namespace Oslec

open TwosComplement

/-! ### Trackers as averages that leak -/

theorem Level.average_eq {k : ℕ} {l : Level} {a : ℤ} (hl : l.level = LeakyAverage.part k l.acc)
    (hlo : 0 ≤ LeakyAverage.step k l.acc a)
    (hhi : LeakyAverage.step k l.acc a + 2 ^ (k - 1) < 2 ^ 31) :
    l.average k a =
      ⟨LeakyAverage.step k l.acc a, LeakyAverage.part k (LeakyAverage.step k l.acc a)⟩ := by
  have hpos : (0 : ℤ) < 2 ^ (k - 1) := by positivity
  have hacc : i32 (l.acc + (a - l.level)) = LeakyAverage.step k l.acc a := by
    rw [hl]
    exact i32_of_bounds (by unfold LeakyAverage.step at hlo; omega)
      (by unfold LeakyAverage.step at hhi; omega)
  have hround : i32 (LeakyAverage.step k l.acc a + 2 ^ (k - 1)) =
      LeakyAverage.step k l.acc a + 2 ^ (k - 1) := i32_of_bounds (by omega) (by omega)
  have hcast : ((2 ^ k : ℕ) : ℤ) = 2 ^ k := by push_cast; rfl
  simp only [Level.average, hacc, Int.shiftLeft_eq, one_mul, hround, Int.shiftRight_eq_div_pow,
    hcast]
  rfl

/-- A tracker that has only been fed levels between 0 and `m`. -/
structure Level.Within (k : ℕ) (m : ℤ) (l : Level) : Prop where
  nonneg : 0 ≤ l.acc
  le : l.acc ≤ 2 ^ k * m + (2 ^ (k - 1) - 1)
  level : l.level = LeakyAverage.part k l.acc

theorem Level.Within.level_bounds {k : ℕ} (hk : 1 ≤ k) {m : ℤ} {l : Level} (h : l.Within k m) :
    0 ≤ l.level ∧ l.level ≤ m := by
  rw [h.level]
  exact ⟨LeakyAverage.part_nonneg hk h.nonneg, LeakyAverage.part_le hk h.le⟩

section

variable {k : ℕ} (hk : 1 ≤ k) {m : ℤ} (hm : 2 ^ k * (m + 1) ≤ 2 ^ 31)

include hk

theorem Level.within_zero (hm : 0 ≤ m) : Level.Within k m ⟨0, 0⟩ := by
  have hpos : (0 : ℤ) < 2 ^ (k - 1) := by positivity
  have hmul : 0 ≤ 2 ^ k * m := mul_nonneg (by positivity) hm
  exact ⟨le_refl 0, by dsimp only; omega, (LeakyAverage.part_zero hk).symm⟩

include hm

/-- A 32 bit accumulator that is large enough for its inputs never overflows. -/
theorem Level.Within.average_eq {l : Level} (h : l.Within k m) {a : ℤ} (hlo : 0 ≤ a)
    (hhi : a ≤ m) :
    l.average k a =
      ⟨LeakyAverage.step k l.acc a, LeakyAverage.part k (LeakyAverage.step k l.acc a)⟩ := by
  have htwo := LeakyAverage.two_pow_eq hk
  have hle := LeakyAverage.step_le hk h.le hhi
  exact Level.average_eq h.level (LeakyAverage.step_nonneg hk h.nonneg hlo) (by linarith)

theorem Level.Within.average {l : Level} (h : l.Within k m) {a : ℤ} (hlo : 0 ≤ a) (hhi : a ≤ m) :
    (l.average k a).Within k m := by
  rw [h.average_eq hk hm hlo hhi]
  exact ⟨LeakyAverage.step_nonneg hk h.nonneg hlo, LeakyAverage.step_le hk h.le hhi, rfl⟩

end

/-- A tracker after its inputs, the last one at the head of the list. -/
def Level.track (k : ℕ) : List ℤ → Level
  | [] => ⟨0, 0⟩
  | a :: older => (Level.track k older).average k a

theorem Level.track_within {k : ℕ} (hk : 1 ≤ k) {m : ℤ} (hm : 2 ^ k * (m + 1) ≤ 2 ^ 31)
    (hnonneg : 0 ≤ m) {as : List ℤ} (h : ∀ a ∈ as, 0 ≤ a ∧ a ≤ m) :
    (Level.track k as).Within k m := by
  induction as with
  | nil => exact Level.within_zero hk hnonneg
  | cons a as ih =>
      obtain ⟨hlo, hhi⟩ := h a List.mem_cons_self
      exact (ih fun b hb => h b (List.mem_cons_of_mem a hb)).average hk hm hlo hhi

theorem Level.track_eq {k : ℕ} (hk : 1 ≤ k) {m : ℤ} (hm : 2 ^ k * (m + 1) ≤ 2 ^ 31)
    (hnonneg : 0 ≤ m) {as : List ℤ} (h : ∀ a ∈ as, 0 ≤ a ∧ a ≤ m) :
    Level.track k as = ⟨LeakyAverage.run k as, LeakyAverage.part k (LeakyAverage.run k as)⟩ := by
  induction as with
  | nil =>
      rw [LeakyAverage.run, LeakyAverage.part_zero hk]
      rfl
  | cons a as ih =>
      have htail : ∀ b ∈ as, 0 ≤ b ∧ b ≤ m := fun b hb => h b (List.mem_cons_of_mem a hb)
      obtain ⟨hlo, hhi⟩ := h a List.mem_cons_self
      rw [Level.track, (Level.track_within hk hm hnonneg htail).average_eq hk hm hlo hhi, ih htail]
      rfl

/-! ### The short term trackers -/

/-- A tracker that has only been fed levels between 0 and `m`. -/
structure Level.Bounded (m : ℤ) (l : Level) : Prop where
  nonneg : 0 ≤ l.acc
  le : l.acc ≤ 32 * m + 15
  level : l.level = (l.acc + 16) / 32

theorem Level.bounded_iff {m : ℤ} {l : Level} : l.Bounded m ↔ l.Within 5 m := by
  constructor
  · rintro ⟨hnonneg, hle, hlevel⟩
    exact ⟨hnonneg, hle, hlevel⟩
  · rintro ⟨hnonneg, hle, hlevel⟩
    exact ⟨hnonneg, hle, hlevel⟩

theorem Level.bounded_zero {m : ℤ} (hm : 0 ≤ m) : Level.Bounded m ⟨0, 0⟩ :=
  ⟨le_refl 0, by dsimp only; omega, rfl⟩

theorem Level.Bounded.level_bounds {m : ℤ} {l : Level} (h : l.Bounded m) :
    0 ≤ l.level ∧ l.level ≤ m :=
  (Level.bounded_iff.mp h).level_bounds (by norm_num)

theorem Level.Bounded.average {m : ℤ} (hm : m ≤ 65536) {l : Level} (h : l.Bounded m) {a : ℤ}
    (hlo : 0 ≤ a) (hhi : a ≤ m) : (l.average 5 a).Bounded m :=
  Level.bounded_iff.mpr
    ((Level.bounded_iff.mp h).average (by norm_num) (by norm_num; omega) hlo hhi)

/-- A level that stays low has been fed low values only. -/
theorem Level.Bounded.le_of_average_lt {m : ℤ} (hm : m ≤ 65536) {l : Level} (h : l.Bounded m)
    {a n : ℤ} (hlo : 0 ≤ a) (hhi : a ≤ m) (hlt : (l.average 5 a).level < n) : a ≤ 32 * n - 17 := by
  rw [(Level.bounded_iff.mp h).average_eq (by norm_num) (by norm_num; omega) hlo hhi] at hlt
  obtain ⟨hnonneg, hle, hlevel⟩ := h
  simp only [LeakyAverage.part, LeakyAverage.step] at hlt
  norm_num at hlt
  omega

/-! ### The levels in a run -/

theorem txIn_bounds (tx : Int16) : -16384 ≤ txIn tx ∧ txIn tx ≤ 16383 := by
  have hlo := Int16.le_toInt tx
  have hhi := Int16.toInt_lt tx
  rw [txIn, Int.shiftRight_eq_div_pow]
  norm_num at hlo hhi ⊢
  omega

/-- The high pass filters are hard limited. -/
theorem DcFilter.filter_bounds {limit : ℤ} (hlo : 0 ≤ limit) (hhi : limit ≤ 32767) (f : DcFilter)
    (x : ℤ) : -limit ≤ (f.filter limit x).2 ∧ (f.filter limit x).2 ≤ limit := by
  simp only [DcFilter.filter]
  generalize i32 (f.z1 + _) >>> (15 : ℕ) = y
  have hclip : -limit ≤ (if (if y > limit then limit else y) < -limit then -limit
        else if y > limit then limit else y) ∧
      (if (if y > limit then limit else y) < -limit then -limit
        else if y > limit then limit else y) ≤ limit := by
    split <;> split <;> omega
  rw [i16_of_bounds (by omega) (by omega)]
  exact hclip

theorem EchoCan.rxIn_bounds (ec : EchoCan) (rx : Int16) :
    -16384 ≤ ec.rxIn rx ∧ ec.rxIn rx ≤ 16383 := by
  simp only [EchoCan.rxIn, EchoCanCore.highPassRx]
  split
  · obtain ⟨hlo, hhi⟩ := DcFilter.filter_bounds (by norm_num : (0 : ℤ) ≤ 16383) (by norm_num)
      ec.rxDc (rx.toInt >>> (1 : ℕ))
    exact ⟨by omega, hhi⟩
  · exact txIn_bounds rx

theorem txHistory_bounds (calls : List Call) (i : ℕ) :
    -16384 ≤ (txHistory calls).getD i 0 ∧ (txHistory calls).getD i 0 ≤ 16383 := by
  have hmem : ∀ h ∈ txHistory calls, -16384 ≤ h ∧ h ≤ 16383 := by
    intro h hh
    obtain ⟨c, -, hc⟩ := List.mem_filterMap.mp hh
    cases c with
    | update tx rx =>
        obtain rfl := Option.some.inj hc
        exact txIn_bounds tx
    | _ => cases hc
  rw [List.getD_eq_getElem?_getD]
  cases hget : (txHistory calls)[i]? with
  | none => norm_num
  | some h => exact hmem h (List.mem_of_getElem? hget)

/-- A register holds halved samples. -/
theorem abs_register_le (calls : List Call) (tx : Int16) (i : ℕ) :
    |(txIn tx :: txHistory calls).getD i 0| ≤ 2 ^ 14 := by
  have hbounds := txHistory_bounds (calls ++ [.update tx 0]) i
  rw [txHistory_update] at hbounds
  exact abs_le.mpr ⟨by omega, by omega⟩

structure EchoCan.LevelsBounded (ec : EchoCan) : Prop where
  ltx : ec.ltx.Bounded 65536
  lrx : ec.lrx.Bounded 65536
  lclean : ec.lclean.Bounded 65536
  lcleanBg : ec.lcleanBg.Bounded 65536

theorem EchoCan.LevelsBounded.update {ec : EchoCan} (h : ec.LevelsBounded) (tx rx : Int16) :
    (echoCanUpdate ec tx rx).1.LevelsBounded := by
  have hspec := echoCanUpdate_spec ec tx rx
  obtain ⟨htxlo, htxhi⟩ := txIn_bounds tx
  obtain ⟨hrxlo, hrxhi⟩ := ec.rxIn_bounds rx
  obtain ⟨hbglo, hbghi⟩ : -32768 ≤ ec.echoBg tx ∧ ec.echoBg tx ≤ 32767 := i16_bounds _
  obtain ⟨hcleanlo, hcleanhi⟩ := i16_bounds (ec.rxIn rx - ec.echoFg tx)
  have herr : ec.errorBg tx rx = ec.rxIn rx - ec.echoBg tx := rfl
  exact {
    ltx := by
      rw [hspec.ltx]
      exact h.ltx.average (le_refl _) (by omega) (by omega)
    lrx := by
      rw [hspec.lrx]
      exact h.lrx.average (le_refl _) (by omega) (by omega)
    lclean := by
      rw [hspec.lclean]
      exact h.lclean.average (le_refl _) (by omega) (by omega)
    lcleanBg := by
      rw [hspec.lcleanBg]
      exact h.lcleanBg.average (le_refl _) (by omega) (by omega)
  }

theorem EchoCan.LevelsBounded.flush (ec : EchoCan) : (echoCanFlush ec).LevelsBounded := by
  have hzero : Level.Bounded 65536 ⟨0, 0⟩ := Level.bounded_zero (by decide)
  rw [echoCanFlush_eq]
  exact ⟨hzero, hzero, hzero, hzero⟩

theorem levelsBounded_of_run (len : ℕ) (mode : BitVec 32) (calls : List Call) :
    (echoCan.run (echoCanCreate len mode) calls).LevelsBounded := by
  have hzero : Level.Bounded 65536 ⟨0, 0⟩ := Level.bounded_zero (by decide)
  refine echoCan_run_induction (P := fun _ ec => ec.LevelsBounded) ⟨hzero, hzero, hzero, hzero⟩
    ?_ ?_ ?_ calls
  · intro calls tx rx h
    exact h.update tx rx
  · intro calls _
    exact EchoCan.LevelsBounded.flush _
  · intro calls c txDc mode snapshot _ h
    exact ⟨h.ltx, h.lrx, h.lclean, h.lcleanBg⟩

/-- The transfer condition over the integers. -/
structure TransferCondition (ec : EchoCan) : Prop where
  adaption : hasFlag ec.adaptionMode echoCanUseAdaption = true
  dwell : ec.nonupdateDwell = 0
  beatsForeground : 8 * ec.lcleanBg.level < 7 * ec.lclean.level
  beatsTx : 8 * ec.lcleanBg.level < ec.ltx.level

theorem EchoCan.LevelsBounded.transferQualifies_iff {ec : EchoCan} (h : ec.LevelsBounded) :
    ec.transferQualifies = true ↔ TransferCondition ec := by
  obtain ⟨hfglo, hfghi⟩ := h.lclean.level_bounds
  obtain ⟨hbglo, hbghi⟩ := h.lcleanBg.level_bounds
  have hfg : i32 (7 * ec.lclean.level) = 7 * ec.lclean.level :=
    i32_of_bounds (by omega) (by omega)
  have hbg : i32 (8 * ec.lcleanBg.level) = 8 * ec.lcleanBg.level :=
    i32_of_bounds (by omega) (by omega)
  simp only [EchoCanCore.transferQualifies, hfg, hbg, Bool.and_eq_true, decide_eq_true_eq]
  constructor
  · rintro ⟨⟨⟨hmode, hdwell⟩, hclean⟩, htx⟩
    exact ⟨hmode, hdwell, hclean, htx⟩
  · rintro ⟨hmode, hdwell, hclean, htx⟩
    exact ⟨⟨⟨hmode, hdwell⟩, hclean⟩, htx⟩

/-! ### The first update after a flush -/

/-- No tap has been set and no residual measured since the last flush. -/
structure EchoCan.Blank (ec : EchoCan) : Prop where
  tapsFg : ec.firTaps16Fg = List.replicate ec.taps 0
  tapsBg : ec.firTaps16Bg = List.replicate ec.taps 0
  lclean : ec.lclean = ⟨0, 0⟩
  lcleanBg : ec.lcleanBg = ⟨0, 0⟩

theorem echoCanCreate_blank (len : ℕ) (mode : BitVec 32) : (echoCanCreate len mode).Blank :=
  ⟨rfl, rfl, rfl, rfl⟩

theorem EchoCan.Blank.quiet {ec : EchoCan} (h : ec.Blank) (txDc : DcFilter) (mode : BitVec 32)
    (snapshot : List ℤ) :
    { ec with txDc := txDc, adaptionMode := mode, snapshot := snapshot }.Blank :=
  ⟨h.tapsFg, h.tapsBg, h.lclean, h.lcleanBg⟩

theorem echoCanFlush_blank (ec : EchoCan) : (echoCanFlush ec).Blank := by
  rw [echoCanFlush_eq]
  exact ⟨rfl, rfl, rfl, rfl⟩

/-- Zero taps estimate no echo, whatever the history. -/
theorem fir16_zero_taps (fir : Fir16State) (n : ℕ) (sample : ℤ) :
    (fir16 fir (List.replicate n 0) sample).2 = 0 := by
  have hmac : ∀ history ix, macLoop (List.replicate n 0) history ix = 0 := by
    intro history ix
    rw [macLoop, foldl_wrap_add_zero, List.sum_eq_zero, wrap_zero]
    intro y hy
    obtain ⟨p, -, rfl⟩ := List.mem_map.mp hy
    rw [getD_replicate_zero, zero_mul]
  simp only [fir16, hmac, Int.zero_shiftRight, wrap_zero]

/-- With the same zero taps on both paths the background is not better than the
foreground. -/
theorem EchoCan.Blank.not_qualifies {ec : EchoCan} (h : ec.Blank) (tx rx : Int16) :
    ec.qualifies tx rx = false := by
  obtain ⟨hlo, hhi⟩ := ec.rxIn_bounds rx
  have hfg : ec.echoFg tx = 0 := by rw [EchoCan.echoFg, h.tapsFg, fir16_zero_taps]
  have hbg : ec.echoBg tx = 0 := by rw [EchoCan.echoBg, h.tapsBg, fir16_zero_taps]
  -- both residuals are the received sample, which the 16 bit one can hold
  have hclean : i16 (ec.rxIn rx - ec.echoFg tx) = ec.errorBg tx rx := by
    rw [EchoCan.errorBg, hfg, hbg, sub_zero,
      i16_of_bounds (by omega) (by omega)]
  have hlevel := ((Level.bounded_zero (by decide : (0 : ℤ) ≤ 65536)).average (le_refl _)
    (by omega : 0 ≤ ((ec.errorBg tx rx).natAbs : ℤ))
    (by rw [EchoCan.errorBg, hbg]; omega)).level_bounds
  have hnext : ¬ i32 (8 * (Level.average 5 ⟨0, 0⟩ (ec.errorBg tx rx).natAbs).level) <
      i32 (7 * (Level.average 5 ⟨0, 0⟩ (ec.errorBg tx rx).natAbs).level) := by
    rw [i32_of_bounds (by omega) (by omega), i32_of_bounds (by omega) (by omega)]
    omega
  -- the two levels are equal, so `8 * Lclean_bg < 7 * Lclean` fails
  have hcompare : (ec.atTransfer tx rx).lcleanBg = (ec.atTransfer tx rx).lclean ∧
      (ec.atTransfer tx rx).lclean = Level.average 5 ⟨0, 0⟩ (ec.errorBg tx rx).natAbs := by
    simp only [EchoCan.atTransfer, EchoCanCore.detectDoubleTalk, hclean, h.lclean, h.lcleanBg,
      and_self]
  rw [EchoCan.qualifies, EchoCanCore.transferQualifies, hcompare.1, hcompare.2,
    decide_eq_false hnext]
  simp only [Bool.and_false, Bool.false_and]

end Oslec
