import Oslec.Kernel.RoundTrip
import Oslec.Library.CircularLog

/-!
`sample_read` word by word. The program may come as late as it likes, and the
sampler goes on while the buffer is being copied. Together the two buffers are
one memory into which the words are written round and round: as long as the
sampler does not overtake the copy, a read returns one whole buffer, and no
buffer is returned twice.
-/

namespace Oslec

/-! ### The two buffers as one memory -/

def bufferWords : ℕ := 3 * sampleBufSz

def SampleBuf.base : SampleBuf → ℕ
  | .ping => 0
  | .pong => bufferWords

/-- The buffer that is being filled once the buffers have been swapped `k` times. -/
def bufferOf (k : ℕ) : SampleBuf := if k % 2 = 0 then .ping else .pong

def Zaptap.memory (z : Zaptap) (a : ℕ) : Int16 :=
  if a < bufferWords then z.mem .ping a else z.mem .pong (a - bufferWords)

theorem Zaptap.memory_base (z : Zaptap) (b : SampleBuf) {j : ℕ} (hj : j < bufferWords) :
    z.memory (b.base + j) = z.mem b j := by
  cases b with
  | ping => simp [memory, SampleBuf.base, hj]
  | pong => simp [memory, SampleBuf.base]

theorem Zaptap.memory_put {z : Zaptap} {b : SampleBuf} {i : ℕ} (h : z.psample = some (b, i))
    (hi : i < bufferWords) (x : Int16) :
    (z.put x).memory = Function.update z.memory (b.base + i) x := by
  funext a
  rw [put_eq h, Function.update_apply]
  cases b with
  | ping =>
      simp only [memory, SampleBuf.base, Nat.zero_add, Function.update_self, ne_eq, reduceCtorEq,
        not_false_eq_true, Function.update_of_ne, Function.update_apply]
      grind
  | pong =>
      simp only [memory, SampleBuf.base, Function.update_self, ne_eq, reduceCtorEq,
        not_false_eq_true, Function.update_of_ne, Function.update_apply]
      grind

theorem base_bufferOf (k : ℕ) {i : ℕ} (hi : i < bufferWords) :
    (bufferOf k).base + i = (k * bufferWords + i) % (2 * bufferWords) := by
  have hwords : bufferWords = 3000 := rfl
  rw [hwords] at hi ⊢
  rw [bufferOf]
  split
  · change 0 + i = _
    omega
  · change 3000 + i = _
    omega

theorem SampleState.buffer_flip {a b : SampleState} (ha : a ≠ .idle) (hb : b ≠ .idle)
    (hne : b ≠ a) {k : ℕ} (hbuffer : a.buffer = bufferOf k) : b.buffer = bufferOf (k + 1) := by
  rw [bufferOf] at *
  cases a <;> cases b <;> simp_all [SampleState.buffer] <;> omega

/-! ### The sampler as the writer of a log -/

/-- The samples recorded since the open, and the words written: their triples and
what has been begun of the next. -/
structure Taped (o : Recorder) (swaps : ℕ) (ss : List Sample) (log : List Int16) : Prop where
  inv : RecorderInv o
  inStep : InStep o
  recording : o.tap.sampleState ≠ .idle
  buffer : o.tap.sampleState.buffer = bufferOf swaps
  length : ss.length = swaps * sampleBufSz + o.tap.samples
  words : ∃ begun, log = ss.flatMap Sample.triple ++ begun ∧
    begun.length = (if o.unfinished = none then 0 else 2) ∧
    ∀ channo x, o.inside channo = some x → o.unfinished = some x.serial →
      begun = [x.txlin, x.rxlin]
  keeps : Keeps (2 * bufferWords) o.tap.memory log

theorem length_flatMap_triple (ss : List Sample) :
    (ss.flatMap Sample.triple).length = 3 * ss.length := by
  induction ss with
  | nil => rfl
  | cons s ss ih =>
      rw [List.flatMap_cons, List.length_append, ih, List.length_cons]
      change 3 + _ = _
      omega

section

variable {o : Recorder} {swaps : ℕ} {ss : List Sample} {log : List Int16}
  (h : Taped o swaps ss log)

include h

/-- The pointer is where the log goes on. -/
theorem Taped.pointer : ∃ i < bufferWords, o.tap.psample = some (bufferOf swaps, i) ∧
    log.length = swaps * bufferWords + i ∧
    i = 3 * o.tap.samples + (if o.unfinished = none then 0 else 2) := by
  have halign := h.inv.aligned h.recording
  obtain ⟨begun, hlog, hbegun, -⟩ := h.words
  have hlt := halign.samples_lt
  have hlength := h.length
  have hpointer := halign.pointer
  rw [h.buffer] at hpointer
  have hwords : bufferWords = 3000 := rfl
  have hsize : sampleBufSz = 1000 := rfl
  rw [hsize] at hlt hlength
  rw [hwords]
  refine ⟨_, ?_, hpointer, ?_, rfl⟩
  · split <;> omega
  · rw [hlog, List.length_append, length_flatMap_triple, hbegun, hlength]
    omega

theorem Taped.keeps_put (x : Int16) :
    Keeps (2 * bufferWords) (o.tap.put x).memory (log ++ [x]) := by
  obtain ⟨i, hi, hpointer, hlength, -⟩ := h.pointer
  rw [Zaptap.memory_put hpointer hi, base_bufferOf swaps hi, ← hlength]
  exact h.keeps.push x

theorem Taped.before_skipped {channo : ℤ} (hrec : ¬ o.tap.Records channo) (rxlin txlin : Int16) :
    Taped (recorder.step o (.before channo rxlin txlin)).1 swaps ss log := by
  have htap : (recorder.step o (.before channo rxlin txlin)).1.tap = o.tap :=
    congrArg Prod.fst (before_of_not_records hrec rxlin txlin)
  have hunfinished : (recorder.step o (.before channo rxlin txlin)).1.unfinished = o.unfinished :=
    if_neg hrec
  obtain ⟨begun, hlog, hlength, hbegun⟩ := h.words
  refine ⟨(h.inv.before_skipped hrec).1, h.inStep.before channo rxlin txlin, ?_, ?_, ?_, ?_, ?_⟩
  · rw [htap]
    exact h.recording
  · rw [htap]
    exact h.buffer
  · rw [htap]
    exact h.length
  · rw [hunfinished]
    refine ⟨begun, hlog, hlength, ?_⟩
    intro channo' x hx hserial
    -- the new sample has begun no triple
    rcases h.inv.inside_update channo txlin rxlin channo' x hx with rfl | ⟨hold, -⟩
    · exact absurd (h.inv.unfinished _ hserial) (Nat.lt_irrefl _)
    · exact hbegun channo' x hold hserial
  · rw [htap]
    exact h.keeps

theorem Taped.after_skipped {channo : ℤ} (hrec : ¬ o.tap.Records channo) (rxlin : Int16) :
    Taped (recorder.step o (.after channo rxlin)).1 swaps ss log := by
  have htap : (recorder.step o (.after channo rxlin)).1.tap = o.tap :=
    congrArg Prod.fst (after_of_not_records hrec rxlin)
  have hunfinished : (recorder.step o (.after channo rxlin)).1.unfinished = o.unfinished :=
    if_neg hrec
  obtain ⟨begun, hlog, hlength, hbegun⟩ := h.words
  refine ⟨(h.inv.after_skipped hrec).1, h.inStep.after channo rxlin, ?_, ?_, ?_, ?_, ?_⟩
  · rw [htap]
    exact h.recording
  · rw [htap]
    exact h.buffer
  · rw [htap]
    exact h.length
  · rw [hunfinished]
    refine ⟨begun, hlog, hlength, ?_⟩
    intro channo' x hx hserial
    exact hbegun channo' x (inside_of_update_none hx) hserial
  · rw [htap]
    exact h.keeps

theorem Taped.before_recorded {channo : ℤ} (hrec : o.tap.Records channo)
    (hempty : o.unfinished = none) (rxlin txlin : Int16) :
    Taped (recorder.step o (.before channo rxlin txlin)).1 swaps ss (log ++ [txlin] ++ [rxlin]) := by
  have htap : (recorder.step o (.before channo rxlin txlin)).1.tap =
      (o.tap.put txlin).put rxlin := congrArg Prod.fst (before_of_records hrec rxlin txlin)
  have hunfinished : (recorder.step o (.before channo rxlin txlin)).1.unfinished =
      some o.serial := if_pos hrec
  obtain ⟨-, -, -, hstate, hsamples, -⟩ :=
    (h.inv.aligned h.recording).sampleEchoBefore hempty rxlin txlin
  obtain ⟨begun, hlog, hlength, -⟩ := h.words
  obtain ⟨i, hi, hpointer, hposition, hindex⟩ := h.pointer
  have hlt := (h.inv.aligned h.recording).samples_lt
  have hi' : i + 1 < bufferWords := by
    have hwords : bufferWords = 3 * sampleBufSz := rfl
    rw [if_pos hempty] at hindex
    omega
  rw [if_pos hempty] at hlength
  rw [List.length_eq_zero_iff.mp hlength, List.append_nil] at hlog
  refine ⟨(h.inv.before_recorded hrec hempty).1, h.inStep.before channo rxlin txlin, ?_, ?_, ?_,
    ?_, ?_⟩
  · rw [htap, hstate]
    exact h.recording
  · rw [htap, hstate]
    exact h.buffer
  · rw [htap, hsamples]
    exact h.length
  · refine ⟨[txlin, rxlin], by rw [hlog, List.append_assoc]; rfl, ?_, ?_⟩
    · rw [hunfinished, if_neg (Option.some_ne_none _)]
      rfl
    · intro channo' x hx hserial
      rw [hunfinished] at hserial
      rcases h.inv.inside_update channo txlin rxlin channo' x hx with rfl | ⟨-, hold⟩
      · rfl
      · exact absurd (Option.some.inj hserial) (Nat.ne_of_gt hold)
  · have hfirst := h.keeps_put txlin
    rw [htap, Zaptap.memory_put (Zaptap.psample_put hpointer txlin) hi', base_bufferOf swaps hi',
      ← Nat.add_assoc, ← hposition]
    have hnext : log.length + 1 = (log ++ [txlin]).length := by
      rw [List.length_append]
      rfl
    rw [hnext]
    exact hfirst.push rxlin

/-- The third word completes the triple, and the last triple swaps the buffers. -/
theorem Taped.after_recorded {channo : ℤ} (hrec : o.tap.Records channo) {x : Started}
    (hx : o.inside channo = some x) (hserial : o.unfinished = some x.serial) (rxlin : Int16) :
    Taped (recorder.step o (.after channo rxlin)).1
      (if (recorder.step o (.after channo rxlin)).1.tap.sampleState = o.tap.sampleState then swaps
        else swaps + 1)
      (ss ++ [Sample.mk channo x.txlin x.rxlin rxlin]) (log ++ [rxlin]) := by
  have hsome : o.unfinished ≠ none := by
    rw [hserial]
    exact Option.some_ne_none _
  have hstep := after_of_records hrec rxlin
  obtain ⟨hstate, hsamples⟩ := o.tap.put_frame rxlin
  obtain ⟨begun, hlog, -, hbegun⟩ := h.words
  have hlt := (h.inv.aligned h.recording).samples_lt
  have hlog' : log ++ [rxlin] =
      (ss ++ [Sample.mk channo x.txlin x.rxlin rxlin]).flatMap Sample.triple ++ [] := by
    rw [hlog, hbegun channo x hx hserial, List.flatMap_append, List.append_nil, List.append_assoc]
    rfl
  have hunfinished : (recorder.step o (.after channo rxlin)).1.unfinished = none := if_pos hrec
  have hlength := h.length
  have hkeeps := h.keeps_put rxlin
  have hinv : RecorderInv (recorder.step o (.after channo rxlin)).1 :=
    (h.inv.after_recorded hrec hx hserial).1
  have hin := h.inStep.after channo rxlin
  have hwords : ∃ begun, log ++ [rxlin] =
        (ss ++ [Sample.mk channo x.txlin x.rxlin rxlin]).flatMap Sample.triple ++ begun ∧
      begun.length = (if (recorder.step o (.after channo rxlin)).1.unfinished = none then 0 else 2) ∧
      ∀ channo' y, (recorder.step o (.after channo rxlin)).1.inside channo' = some y →
        (recorder.step o (.after channo rxlin)).1.unfinished = some y.serial →
        begun = [y.txlin, y.rxlin] := by
    refine ⟨[], hlog', by rw [hunfinished, if_pos rfl]; rfl, ?_⟩
    intro channo' y _ hy
    rw [hunfinished] at hy
    cases hy
  have htap : (recorder.step o (.after channo rxlin)).1.tap =
      Zaptap.swap { o.tap.put rxlin with samples := o.tap.samples + 1 } := congrArg Prod.fst hstep
  generalize (recorder.step o (.after channo rxlin)).1 = o' at *
  have hrecording : (o.tap.put rxlin).sampleState ≠ .idle := hstate.trans_ne h.recording
  rcases Nat.lt_or_ge (o.tap.samples + 1) sampleBufSz with hroom | hfull
  · rw [Zaptap.swap_of_lt hroom] at htap
    have hkept : o'.tap.sampleState = o.tap.sampleState := by
      rw [htap]
      exact hstate
    rw [if_pos hkept]
    refine ⟨hinv, hin, hkept.trans_ne h.recording, ?_, ?_, hwords, ?_⟩
    · rw [hkept]
      exact h.buffer
    · rw [List.length_append, List.length_singleton, hlength, htap, Nat.add_assoc]
    · rw [htap]
      exact hkeeps
  · obtain ⟨hzero, hmem, hflip, hidle⟩ := Zaptap.swap_of_full
      (z := { o.tap.put rxlin with samples := o.tap.samples + 1 }) hfull hrecording
    rw [← htap] at hzero hmem hflip hidle
    dsimp only at hmem hflip
    rw [hstate] at hflip
    rw [if_neg hflip]
    refine ⟨hinv, hin, hidle, ?_, ?_, hwords, ?_⟩
    · exact SampleState.buffer_flip h.recording hidle hflip h.buffer
    · have hsize : o.tap.samples + 1 = sampleBufSz := Nat.le_antisymm hlt hfull
      rw [List.length_append, List.length_singleton, hlength, hzero, Nat.succ_mul, Nat.add_assoc,
        hsize, Nat.add_zero]
    · have hmemory : o'.tap.memory = (o.tap.put rxlin).memory := by
        funext a
        rw [Zaptap.memory, Zaptap.memory, hmem]
      rw [hmemory]
      exact hkeeps

/-- A sample of any channel adds at most a triple to the log. -/
theorem Taped.step {e : TapEvent} (hpaired : Paired o e) (hsample : e.channo?.isSome) :
    ∃ new log', Taped (recorder.step o e).1
        (match e with
          | .after _ _ => if (recorder.step o e).1.tap.sampleState = o.tap.sampleState then swaps
              else swaps + 1
          | _ => swaps) (ss ++ new.filter (·.channo = o.tap.sampleCh)) log' ∧ log <+: log' ∧
      (recorder.step o e).1.history = o.history ++ new := by
  have horderly := h.inStep.orderly hpaired
  cases e with
  | before channo rxlin txlin =>
      have hhistory : (recorder.step o (.before channo rxlin txlin)).1.history = o.history ++ [] :=
        (List.append_nil _).symm
      by_cases hrec : o.tap.Records channo
      · refine ⟨[], log ++ [txlin] ++ [rxlin], ?_, ?_, hhistory⟩
        · rw [List.filter_nil, List.append_nil]
          exact h.before_recorded hrec (horderly hrec) rxlin txlin
        · rw [List.append_assoc]
          exact List.prefix_append _ _
      · refine ⟨[], log, ?_, List.prefix_refl _, hhistory⟩
        rw [List.filter_nil, List.append_nil]
        exact h.before_skipped hrec rxlin txlin
  | after channo rxlin =>
      obtain ⟨x, hx⟩ := Option.ne_none_iff_exists'.mp hpaired
      have hhistory : (recorder.step o (.after channo rxlin)).1.history =
          o.history ++ [Sample.mk channo x.txlin x.rxlin rxlin] := by
        change o.history ++ ((o.inside channo).map _).toList = _
        rw [hx]
        rfl
      by_cases hrec : o.tap.Records channo
      · obtain ⟨y, hy, hserial⟩ := horderly hrec
        obtain rfl : x = y := Option.some.inj (hx.symm.trans hy)
        refine ⟨_, log ++ [rxlin], ?_, List.prefix_append _ _, hhistory⟩
        rw [List.filter_cons_of_pos (by simpa using hrec.2), List.filter_nil]
        exact h.after_recorded hrec hx hserial rxlin
      · have htap : (recorder.step o (.after channo rxlin)).1.tap = o.tap :=
          congrArg Prod.fst (after_of_not_records hrec rxlin)
        have hne := Zaptap.ne_of_not_records hrec h.recording
        refine ⟨_, log, ?_, List.prefix_refl _, hhistory⟩
        dsimp only
        rw [List.filter_cons_of_neg (by simpa using Ne.symm hne), List.filter_nil,
          List.append_nil, if_pos (congrArg Zaptap.sampleState htap)]
        exact h.after_skipped hrec rxlin
  | _ => cases hsample

end

/-! ### The program -/

/-- A read, with the number of the buffer that it has chosen. -/
structure Read where
  block : ℕ
  words : List Int16
  /-- A word has been copied after the sampler had written over it. -/
  overtaken : Bool

/-- Where the program is in `sample_read`. -/
inductive Reader
  | idle
  | asleep (swaps : ℕ)
  | awake
  | copying (pread : SampleBuf) (r : Read)

structure Reading where
  recorder : Recorder
  /-- How often the buffers have been swapped since the open. -/
  swaps : ℕ
  reader : Reader
  reads : List Read

/-- What the kernel does, and the steps of `sample_read`: sleep, be woken, look
which buffer is full, copy one word after the other, return. -/
inductive ReadingAction
  | kernel (e : TapEvent)
  | sleep | wake | choose | word | done

namespace Reading

def kernel (s : Reading) (e : TapEvent) : Reading :=
  let o := (Oslec.recorder.step s.recorder e).1
  { s with
    recorder := o
    swaps :=
      match e with
      | .after _ _ =>
          if o.tap.sampleState = s.recorder.tap.sampleState then s.swaps else s.swaps + 1
      | _ => s.swaps }

/-- The sampler is past the next word of the copy: it has come round to the buffer
again, and its pointer is beyond the word. -/
def Overtakes (s : Reading) (r : Read) : Prop :=
  ¬ (s.swaps = r.block ∨
    s.swaps = r.block + 1 ∧ s.recorder.tap.psample.elim 0 Prod.snd ≤ r.words.length)

instance (s : Reading) (r : Read) : Decidable (s.Overtakes r) :=
  inferInstanceAs (Decidable (¬ _))

def copyWord (s : Reading) : Reader → Reader
  | .copying pread r => .copying pread
      { block := r.block
        words := r.words ++ [s.recorder.tap.mem pread r.words.length]
        overtaken := r.overtaken || decide (s.Overtakes r) }
  | reader => reader

def step (s : Reading) : ReadingAction → Reading
  | .kernel e => s.kernel e
  | .sleep => { s with reader := .asleep s.swaps }
  | .wake => { s with reader := .awake }
  | .choose => { s with reader := .copying s.recorder.tap.readBuffer ⟨s.swaps, [], false⟩ }
  | .word => { s with reader := s.copyWord s.reader }
  | .done =>
      match s.reader with
      | .copying _ r => { s with reader := .idle, reads := s.reads ++ [r] }
      | _ => s

/-- The program opens the device and asks for channel `c`. -/
def opened (past : List TapEvent) (c : ℤ) : Reading where
  recorder := Oslec.recorder.run Recorder.load (past ++ [.sampleOpen, .setChannel c])
  swaps := 0
  reader := .idle
  reads := []

end Reading

def reading : Mealy Reading ReadingAction Unit where
  step s a := (s.step a, ())

/-- The sampler wakes the program when it swaps the buffers. -/
def Possible (s : Reading) : ReadingAction → Prop
  | .kernel e => Paired s.recorder e ∧ e.channo?.isSome
  | .sleep => s.reader = .idle
  | .wake => ∃ n, s.reader = .asleep n ∧ n < s.swaps
  | .choose => s.reader = .awake
  | .word => ∃ pread r, s.reader = .copying pread r ∧ r.words.length < bufferWords
  | .done => ∃ pread r, s.reader = .copying pread r ∧ r.words.length = bufferWords

/-! ### What a copy holds -/

/-- The words of a read are those of its buffer, except that an overtaken copy may
have them from a later buffer in the same place. -/
structure Read.Faithful (r : Read) (log : List Int16) : Prop where
  pos : 0 < r.block
  length : r.words.length ≤ bufferWords
  rounds : ∀ j a, r.words[j]? = some a →
    ∃ k, log[(r.block - 1) * bufferWords + j + k * (2 * bufferWords)]? = some a
  exact : r.overtaken = false → ∀ j a, r.words[j]? = some a →
    log[(r.block - 1) * bufferWords + j]? = some a

theorem getElem?_of_prefix {α : Type*} {l l' : List α} (h : l <+: l') {i : ℕ} {a : α}
    (ha : l[i]? = some a) : l'[i]? = some a := by
  obtain ⟨rest, rfl⟩ := h
  have hlt := (List.getElem?_eq_some_iff.mp ha).1
  rw [List.getElem?_append_left hlt, ha]

theorem Read.Faithful.mono {r : Read} {log log' : List Int16} (h : r.Faithful log)
    (hlog : log <+: log') : r.Faithful log' where
  pos := h.pos
  length := h.length
  rounds := fun j a ha => by
    obtain ⟨k, hk⟩ := h.rounds j a ha
    exact ⟨k, getElem?_of_prefix hlog hk⟩
  exact := fun hfalse j a ha => getElem?_of_prefix hlog (h.exact hfalse j a ha)

/-- The buffer that the program looks for is the one that has just been filled. -/
theorem Taped.readBuffer_eq {o : Recorder} {swaps : ℕ} {ss : List Sample} {log : List Int16}
    (h : Taped o swaps ss log) (hswaps : 0 < swaps) : o.tap.readBuffer = bufferOf (swaps - 1) := by
  have hbuffer := h.buffer
  have hrecording := h.recording
  rw [bufferOf] at hbuffer ⊢
  rw [Zaptap.readBuffer]
  cases hstate : o.tap.sampleState with
  | idle => exact absurd hstate hrecording
  | ping =>
      rw [hstate] at hbuffer
      change SampleBuf.ping = _ at hbuffer
      have heven : swaps % 2 = 0 := by
        by_contra hodd
        rw [if_neg hodd] at hbuffer
        cases hbuffer
      rw [if_pos rfl, if_neg (by omega)]
  | pong =>
      rw [hstate] at hbuffer
      change SampleBuf.pong = _ at hbuffer
      have hodd : ¬ swaps % 2 = 0 := by
        intro heven
        rw [if_pos heven] at hbuffer
        cases hbuffer
      rw [if_neg (by decide), if_pos (by omega)]

theorem Read.Faithful.word {s : Reading} {ss : List Sample} {log : List Int16}
    (h : Taped s.recorder s.swaps ss log) {r : Read} (hr : r.Faithful log)
    (hblock : r.block ≤ s.swaps) (hroom : r.words.length < bufferWords) :
    Read.Faithful
      { block := r.block
        words := r.words ++ [s.recorder.tap.mem (bufferOf (r.block - 1)) r.words.length]
        overtaken := r.overtaken || decide (s.Overtakes r) } log := by
  obtain ⟨i, hi, hpointer, hlength, -⟩ := h.pointer
  have hpos := hr.pos
  have hwords : bufferWords = 3000 := rfl
  have hcell : s.recorder.tap.mem (bufferOf (r.block - 1)) r.words.length =
      s.recorder.tap.memory
        (((r.block - 1) * bufferWords + r.words.length) % (2 * bufferWords)) := by
    rw [← base_bufferOf _ hroom, Zaptap.memory_base _ _ hroom]
  have hlt : (r.block - 1) * bufferWords + r.words.length < log.length := by
    rw [hlength]
    rw [hwords] at hroom ⊢
    omega
  obtain ⟨k, hk, hzero⟩ := h.keeps.exists_round (by rw [hwords]; omega) hlt
  rw [← hcell] at hk
  -- a copy that is not overtaken reads within the last two buffers of the log
  have hlast : s.Overtakes r ∨ k = 0 := by
    by_cases hover : s.Overtakes r
    · exact Or.inl hover
    · refine Or.inr (hzero ?_)
      rw [Reading.Overtakes, not_not, hpointer] at hover
      change _ ∨ _ ∧ i ≤ _ at hover
      rw [hlength]
      rw [hwords] at hroom hi ⊢
      omega
  have hnew : ∀ {j a}, (r.words ++ [s.recorder.tap.mem (bufferOf (r.block - 1))
      r.words.length])[j]? = some a → r.words[j]? = some a ∨
        (j = r.words.length ∧ a = s.recorder.tap.mem (bufferOf (r.block - 1)) r.words.length) := by
    intro j a ha
    rcases Nat.lt_trichotomy j r.words.length with hj | hj | hj
    · rw [List.getElem?_append_left hj] at ha
      exact Or.inl ha
    · rw [hj, List.getElem?_concat_length] at ha
      exact Or.inr ⟨hj, (Option.some.inj ha).symm⟩
    · rw [List.getElem?_eq_none (by rw [List.length_append, List.length_singleton]; omega)] at ha
      cases ha
  refine ⟨hpos, ?_, ?_, ?_⟩
  · rw [List.length_append]
    exact hroom
  · intro j a ha
    rcases hnew ha with ha | ⟨rfl, rfl⟩
    · exact hr.rounds j a ha
    · exact ⟨k, hk⟩
  · intro hfalse j a ha
    obtain ⟨hfalse, hnot⟩ := Bool.or_eq_false_iff.mp hfalse
    rcases hnew ha with ha | ⟨rfl, rfl⟩
    · exact hr.exact hfalse j a ha
    · obtain rfl := hlast.resolve_left (of_decide_eq_false hnot)
      rwa [Nat.zero_mul, Nat.add_zero] at hk

/-! ### Runs -/

/-- How the number of the program's buffer lies between those of its earlier reads
and the swaps. -/
def Reader.Knows (reads : List Read) (swaps : ℕ) (log : List Int16) : Reader → Prop
  | .idle => ∀ q ∈ reads, q.block ≤ swaps
  | .asleep n => n ≤ swaps ∧ ∀ q ∈ reads, q.block ≤ n
  | .awake => 0 < swaps ∧ ∀ q ∈ reads, q.block < swaps
  | .copying pread r => r.Faithful log ∧ r.block ≤ swaps ∧ pread = bufferOf (r.block - 1) ∧
      ∀ q ∈ reads, q.block < r.block

theorem Reader.Knows.mono {reads : List Read} {swaps swaps' : ℕ} {log log' : List Int16}
    {reader : Reader} (h : reader.Knows reads swaps log) (hswaps : swaps ≤ swaps')
    (hlog : log <+: log') : reader.Knows reads swaps' log' := by
  cases reader with
  | idle => exact fun q hq => (h q hq).trans hswaps
  | asleep n => exact ⟨h.1.trans hswaps, h.2⟩
  | awake => exact ⟨h.1.trans_le hswaps, fun q hq => (h.2 q hq).trans_le hswaps⟩
  | copying pread r =>
      obtain ⟨hr, hblock, hpread, hreads⟩ := h
      exact ⟨hr.mono hlog, hblock.trans hswaps, hpread, hreads⟩

theorem Reader.Knows.block_le {reads : List Read} {swaps : ℕ} {log : List Int16} {reader : Reader}
    (h : reader.Knows reads swaps log) {q : Read} (hq : q ∈ reads) : q.block ≤ swaps := by
  cases reader with
  | idle => exact h q hq
  | asleep n => exact (h.2 q hq).trans h.1
  | awake => exact Nat.le_of_lt (h.2 q hq)
  | copying pread r => exact (Nat.le_of_lt (h.2.2.2 q hq)).trans h.2.1

/-- Since the open, when `past` was through, `ss` have been recorded and `log` has
been written. -/
structure ReadingInv (past : List Sample) (c : ℤ) (s : Reading) (ss : List Sample)
    (log : List Int16) : Prop where
  sampleCh : s.recorder.tap.sampleCh = c
  taped : Taped s.recorder s.swaps ss log
  recorded : ∃ new, s.recorder.history = past ++ new ∧ ss = new.filter (·.channo = c)
  knows : s.reader.Knows s.reads s.swaps log
  sorted : s.reads.Pairwise fun q q' => q.block < q'.block
  reads : ∀ q ∈ s.reads, q.Faithful log ∧ q.words.length = bufferWords

section

variable {past : List Sample} {c : ℤ} {s : Reading} {ss : List Sample} {log : List Int16}
  (h : ReadingInv past c s ss log)

include h

theorem ReadingInv.kernel {e : TapEvent} (hpaired : Paired s.recorder e)
    (hsample : e.channo?.isSome) : ∃ ss' log', ReadingInv past c (s.kernel e) ss' log' := by
  obtain ⟨new, log', htaped, hlog, hhistory⟩ := h.taped.step hpaired hsample
  have hswaps : s.swaps ≤ (s.kernel e).swaps := by
    cases e with
    | after channo rxlin =>
        change s.swaps ≤ if _ then _ else _
        split
        · exact le_refl _
        · exact Nat.le_succ _
    | _ => exact le_refl _
  rw [h.sampleCh] at htaped
  refine ⟨_, log', ?_, htaped, ?_, h.knows.mono hswaps hlog, h.sorted, ?_⟩
  · exact (sampleCh_step s.recorder hsample).trans h.sampleCh
  · obtain ⟨old, hold, rfl⟩ := h.recorded
    refine ⟨old ++ new, ?_, (List.filter_append _ _).symm⟩
    rw [← List.append_assoc, ← hold]
    exact hhistory
  · exact fun q hq => ⟨(h.reads q hq).1.mono hlog, (h.reads q hq).2⟩

theorem ReadingInv.sleep (hidle : s.reader = .idle) : ReadingInv past c (s.step .sleep) ss log := by
  have hknows := h.knows
  rw [hidle] at hknows
  exact ⟨h.sampleCh, h.taped, h.recorded, ⟨le_refl _, hknows⟩, h.sorted, h.reads⟩

theorem ReadingInv.wake {n : ℕ} (hasleep : s.reader = .asleep n) (hn : n < s.swaps) :
    ReadingInv past c (s.step .wake) ss log := by
  have hknows := h.knows
  rw [hasleep] at hknows
  exact ⟨h.sampleCh, h.taped, h.recorded,
    ⟨Nat.zero_lt_of_lt hn, fun q hq => (hknows.2 q hq).trans_lt hn⟩, h.sorted, h.reads⟩

theorem ReadingInv.choose (hawake : s.reader = .awake) :
    ReadingInv past c (s.step .choose) ss log := by
  have hknows := h.knows
  rw [hawake] at hknows
  obtain ⟨hswaps, hreads⟩ := hknows
  have hempty : Read.Faithful ⟨s.swaps, [], false⟩ log :=
    ⟨hswaps, Nat.zero_le _, fun j a ha => by simp at ha, fun _ j a ha => by simp at ha⟩
  exact ⟨h.sampleCh, h.taped, h.recorded, ⟨hempty, le_refl _, h.taped.readBuffer_eq hswaps, hreads⟩,
    h.sorted, h.reads⟩

theorem ReadingInv.word {pread : SampleBuf} {r : Read} (hcopying : s.reader = .copying pread r)
    (hroom : r.words.length < bufferWords) : ReadingInv past c (s.step .word) ss log := by
  have hknows := h.knows
  rw [hcopying] at hknows
  obtain ⟨hr, hblock, rfl, hreads⟩ := hknows
  refine ⟨h.sampleCh, h.taped, h.recorded, ?_, h.sorted, h.reads⟩
  change (s.copyWord s.reader).Knows s.reads s.swaps log
  rw [hcopying]
  exact ⟨Read.Faithful.word h.taped hr hblock hroom, hblock, rfl, hreads⟩

theorem ReadingInv.done {pread : SampleBuf} {r : Read} (hcopying : s.reader = .copying pread r)
    (hfull : r.words.length = bufferWords) : ReadingInv past c (s.step .done) ss log := by
  have hknows := h.knows
  rw [hcopying] at hknows
  obtain ⟨hr, hblock, -, hreads⟩ := hknows
  have hstep : s.step .done = { s with reader := .idle, reads := s.reads ++ [r] } := by
    rw [Reading.step, hcopying]
  rw [hstep]
  refine ⟨h.sampleCh, h.taped, h.recorded, ?_, ?_, ?_⟩
  · intro q hq
    rcases List.mem_append.mp hq with hq | hq
    · exact (Nat.le_of_lt (hreads q hq)).trans hblock
    · rw [List.mem_singleton.mp hq]
      exact hblock
  · refine List.pairwise_append.mpr ⟨h.sorted, List.pairwise_singleton _ _, ?_⟩
    intro q hq q' hq'
    rw [List.mem_singleton.mp hq']
    exact hreads q hq
  · intro q hq
    rcases List.mem_append.mp hq with hq | hq
    · exact h.reads q hq
    · rw [List.mem_singleton.mp hq]
      exact ⟨hr, hfull⟩

end

theorem ReadingInv.step {past : List Sample} {c : ℤ} {s : Reading}
    (h : ∃ ss log, ReadingInv past c s ss log) {a : ReadingAction} (hpossible : Possible s a) :
    ∃ ss log, ReadingInv past c (s.step a) ss log := by
  obtain ⟨ss, log, h⟩ := h
  cases a with
  | kernel e => exact h.kernel hpossible.1 hpossible.2
  | sleep => exact ⟨ss, log, h.sleep hpossible⟩
  | wake =>
      obtain ⟨n, hasleep, hn⟩ := hpossible
      exact ⟨ss, log, h.wake hasleep hn⟩
  | choose => exact ⟨ss, log, h.choose hpossible⟩
  | word =>
      obtain ⟨pread, r, hcopying, hroom⟩ := hpossible
      exact ⟨ss, log, h.word hcopying hroom⟩
  | done =>
      obtain ⟨pread, r, hcopying, hfull⟩ := hpossible
      exact ⟨ss, log, h.done hcopying hfull⟩

theorem readingInv_opened (past : List TapEvent) {c : ℤ}
    (hpast : ∀ t ∈ recorder.trace Recorder.load (past ++ [.sampleOpen, .setChannel c]),
      Paired t.before t.input ∧ BetweenSamples t.before t.input) :
    ReadingInv (recorder.run Recorder.load past).history c (Reading.opened past c) [] [] := by
  rw [Mealy.trace_append, List.forall_mem_append, Mealy.trace_cons, Mealy.trace_cons,
    List.forall_mem_cons, List.forall_mem_cons] at hpast
  obtain ⟨hold, ⟨-, hopen⟩, ⟨-, hset⟩, -⟩ := hpast
  obtain ⟨hinv, hin⟩ := recorder.run_invariant_of_trace
    (I := fun o => RecorderInv o ∧ InStep o) (G := fun o e => Paired o e ∧ BetweenSamples o e)
    (fun o e ho he => ⟨(ho.1.step (ho.2.orderly he.1)).1, ho.2.step he.2⟩)
    ⟨recorderInv_load, fun h => absurd rfl h⟩ hold
  have hopened : (Reading.opened past c).recorder =
      (recorder.step (recorder.step (recorder.run Recorder.load past) .sampleOpen).1
        (.setChannel c)).1 := Mealy.run_append _ _ _ _
  have htaped : Taped (Reading.opened past c).recorder 0 [] [] := by
    rw [hopened]
    refine ⟨hinv.fileOperation.1.fileOperation.2.2 c, (hin.step hopen).step hset, nofun, rfl, rfl,
      ⟨[], rfl, rfl, fun _ _ _ hserial => by cases hserial⟩, keeps_nil⟩
  refine ⟨?_, htaped, ⟨[], ?_, rfl⟩, nofun, List.Pairwise.nil, nofun⟩
  · rw [hopened]
    rfl
  · rw [hopened, List.append_nil]
    rfl

/-! ### Whole buffers -/

theorem drop_flatMap_triple (ss : List Sample) (n : ℕ) :
    (ss.flatMap Sample.triple).drop (3 * n) = (ss.drop n).flatMap Sample.triple := by
  induction n generalizing ss with
  | zero => rfl
  | succ n ih =>
      cases ss with
      | nil => rfl
      | cons s ss =>
          rw [List.drop_succ_cons, ← ih ss, List.flatMap_cons, Nat.mul_succ, Nat.add_comm,
            ← List.drop_drop]
          rfl

theorem take_flatMap_triple (ss : List Sample) (n : ℕ) :
    (ss.flatMap Sample.triple).take (3 * n) = (ss.take n).flatMap Sample.triple := by
  induction n generalizing ss with
  | zero => rfl
  | succ n ih =>
      cases ss with
      | nil => rfl
      | cons s ss =>
          have hlength : s.triple.length = 3 := rfl
          rw [List.take_succ_cons, List.flatMap_cons, List.flatMap_cons, ← ih ss, Nat.mul_succ,
            Nat.add_comm, ← hlength, List.take_length_add_append]

/-- The samples that fill the buffers for the `k`th time. -/
def blockOf (ss : List Sample) (k : ℕ) : List Sample :=
  (ss.drop ((k - 1) * sampleBufSz)).take sampleBufSz

theorem getElem?_blockOf (ss : List Sample) (begun : List Int16) {k j : ℕ} (hpos : 0 < k)
    (hk : k * sampleBufSz ≤ ss.length) (hj : j < bufferWords) :
    (ss.flatMap Sample.triple ++ begun)[(k - 1) * bufferWords + j]? =
      ((blockOf ss k).flatMap Sample.triple)[j]? := by
  have hposition : (k - 1) * bufferWords = 3 * ((k - 1) * sampleBufSz) := by
    rw [bufferWords, Nat.mul_left_comm]
  have hlast : (k - 1) * bufferWords + j < (ss.flatMap Sample.triple).length := by
    have hsucc : k * sampleBufSz = (k - 1) * sampleBufSz + sampleBufSz := by
      rw [← Nat.succ_mul, Nat.succ_eq_add_one, Nat.sub_add_cancel hpos]
    rw [length_flatMap_triple, hposition]
    rw [bufferWords] at hj
    omega
  rw [List.getElem?_append_left hlast, blockOf, ← take_flatMap_triple, ← drop_flatMap_triple,
    ← hposition, List.getElem?_take_of_lt, List.getElem?_drop]
  exact hj

theorem length_blockOf {ss : List Sample} {k : ℕ} (hpos : 0 < k)
    (hk : k * sampleBufSz ≤ ss.length) : (blockOf ss k).length = sampleBufSz := by
  have hsucc : k * sampleBufSz = (k - 1) * sampleBufSz + sampleBufSz := by
    rw [← Nat.succ_mul, Nat.succ_eq_add_one, Nat.sub_add_cancel hpos]
  rw [blockOf, List.length_take, List.length_drop]
  omega

/-- The samples of channel `c` since the open. -/
def Reading.since (past : List TapEvent) (c : ℤ) (s : Reading) : List Sample :=
  (s.recorder.history.drop (Oslec.recorder.run Recorder.load past).history.length).filter
    (·.channo = c)

/-- What has been promised of a read. -/
structure Read.Whole (ss : List Sample) (begun : List Int16) (q : Read) : Prop where
  /-- Its buffer had been filled with samples of the channel. -/
  filled : 0 < q.block ∧ q.block * sampleBufSz ≤ ss.length
  length : q.words.length = bufferWords
  exact : q.overtaken = false → q.words = (blockOf ss q.block).flatMap Sample.triple
  /-- Torn or not, every word has been written, a whole number of rounds later at
  most, in the place of the word that it stands for. -/
  rounds : ∀ j < bufferWords, ∃ k, q.words[j]? =
    (ss.flatMap Sample.triple ++ begun)[(q.block - 1) * bufferWords + j + k * (2 * bufferWords)]?

theorem Read.Faithful.whole {q : Read} {ss : List Sample} {begun : List Int16}
    (h : q.Faithful (ss.flatMap Sample.triple ++ begun)) (hlength : q.words.length = bufferWords)
    (hblock : q.block * sampleBufSz ≤ ss.length) : q.Whole ss begun := by
  have hsome : ∀ j (hj : j < bufferWords), ∃ a, q.words[j]? = some a :=
    fun j hj => ⟨_, List.getElem?_eq_getElem (hlength ▸ hj)⟩
  refine ⟨⟨h.pos, hblock⟩, hlength, fun hfalse => ?_, fun j hj => ?_⟩
  · have hwords : ((blockOf ss q.block).flatMap Sample.triple).length = bufferWords := by
      rw [length_flatMap_triple, length_blockOf h.pos hblock, bufferWords]
    refine List.ext_getElem? fun j => ?_
    rcases Nat.lt_or_ge j bufferWords with hj | hj
    · obtain ⟨a, ha⟩ := hsome j hj
      rw [← getElem?_blockOf ss begun h.pos hblock hj, ha]
      exact (h.exact hfalse j a ha).symm
    · rw [List.getElem?_eq_none (by rwa [hlength]), List.getElem?_eq_none (by rwa [hwords])]
  · obtain ⟨a, ha⟩ := hsome j hj
    obtain ⟨k, hk⟩ := h.rounds j a ha
    exact ⟨k, ha.trans hk.symm⟩

/-! ### One read -/

theorem reading_step (s : Reading) (a : ReadingAction) : (reading.step s a).1 = s.step a := rfl

/-- Between two samples. -/
def Reading.Quiet (s : Reading) : Prop := ∀ channo, s.recorder.inside channo = none

/-- One sample goes through. -/
theorem Reading.Quiet.sample {s : Reading} (h : s.Quiet) (x : Sample) :
    (∀ t ∈ reading.trace s (x.events.map .kernel), Possible t.before t.input) ∧
      (reading.run s (x.events.map .kernel)).Quiet ∧
      (reading.run s (x.events.map .kernel)).recorder.history = s.recorder.history ++ [x] ∧
      (reading.run s (x.events.map .kernel)).reader = s.reader ∧
      (reading.run s (x.events.map .kernel)).reads = s.reads := by
  have hnone : s.recorder.inside = fun _ => none := funext h
  have hinside : (s.kernel (.before x.channo x.rxlin x.txlin)).recorder.inside =
      Function.update (fun _ => none) x.channo (some ⟨s.recorder.serial, x.txlin, x.rxlin⟩) := by
    rw [← hnone]
    rfl
  have hself := congrFun hinside x.channo
  rw [Function.update_self] at hself
  have hrun : reading.run s (x.events.map .kernel) =
      (s.kernel (.before x.channo x.rxlin x.txlin)).kernel (.after x.channo x.eclin) := rfl
  have hhistory : (s.kernel (.before x.channo x.rxlin x.txlin)).recorder.history =
      s.recorder.history := rfl
  have hreader : (s.kernel (.before x.channo x.rxlin x.txlin)).reader = s.reader := rfl
  have hreads : (s.kernel (.before x.channo x.rxlin x.txlin)).reads = s.reads := rfl
  rw [hrun, ← hhistory, ← hreader, ← hreads, Sample.events, List.map_cons, List.map_singleton,
    Mealy.trace_cons, Mealy.trace_cons, List.forall_mem_cons, List.forall_mem_cons]
  change (_ ∧ (Paired (s.kernel (.before x.channo x.rxlin x.txlin)).recorder _ ∧ _) ∧ _) ∧ _
  generalize s.kernel (.before x.channo x.rxlin x.txlin) = s' at hinside hself ⊢
  refine ⟨⟨⟨h x.channo, rfl⟩, ⟨hself.trans_ne (Option.some_ne_none _), rfl⟩,
    List.forall_mem_nil _⟩, ?_, ?_, rfl, rfl⟩
  · intro channo
    change Function.update s'.recorder.inside x.channo none channo = none
    rw [hinside, Function.update_idem, Function.update_eq_self]
  · change s'.recorder.history ++ ((s'.recorder.inside x.channo).map _).toList = _
    rw [hself]
    rfl

theorem Reading.Quiet.samples {s : Reading} (h : s.Quiet) (ys : List Sample) :
    (∀ t ∈ reading.trace s ((ys.flatMap Sample.events).map .kernel), Possible t.before t.input) ∧
      (reading.run s ((ys.flatMap Sample.events).map .kernel)).recorder.history =
        s.recorder.history ++ ys ∧
      (reading.run s ((ys.flatMap Sample.events).map .kernel)).reader = s.reader ∧
      (reading.run s ((ys.flatMap Sample.events).map .kernel)).reads = s.reads := by
  induction ys generalizing s with
  | nil => exact ⟨List.forall_mem_nil _, (List.append_nil _).symm, rfl, rfl⟩
  | cons y ys ih =>
      obtain ⟨hpossible, hquiet, hhistory, hreader, hreads⟩ := h.sample y
      obtain ⟨hrest, hlast, hreader', hreads'⟩ := ih hquiet
      rw [List.flatMap_cons, List.map_append, Mealy.trace_append, Mealy.run_append,
        List.forall_mem_append, hlast, hhistory, List.append_assoc]
      exact ⟨⟨hpossible, hrest⟩, rfl, hreader'.trans hreader, hreads'.trans hreads⟩

theorem copy_words {s : Reading} {pread : SampleBuf} {r : Read} (n : ℕ)
    (h : s.reader = .copying pread r) (hroom : r.words.length + n ≤ bufferWords)
    (hblock : s.swaps = r.block) (hfalse : r.overtaken = false) :
    (∀ t ∈ reading.trace s (List.replicate n .word), Possible t.before t.input) ∧
      ∃ words, (reading.run s (List.replicate n .word)) =
          { s with reader := .copying pread ⟨r.block, words, false⟩ } ∧
        words.length = r.words.length + n := by
  induction n generalizing s r with
  | zero =>
      refine ⟨List.forall_mem_nil _, r.words, ?_, rfl⟩
      rw [List.replicate_zero, Mealy.run_nil, ← hfalse, ← h]
  | succ n ih =>
      have hstep : (s.step .word).reader = .copying pread
          ⟨r.block, r.words ++ [s.recorder.tap.mem pread r.words.length],
            r.overtaken || decide (s.Overtakes r)⟩ := by
        change s.copyWord s.reader = _
        rw [h]
        rfl
      have hnot : (r.overtaken || decide (s.Overtakes r)) = false := by
        rw [hfalse, Bool.false_or, decide_eq_false_iff_not, Reading.Overtakes, not_not]
        exact Or.inl hblock
      obtain ⟨hpossible, words, hrun, hlength⟩ := ih hstep (by
        rw [List.length_append, List.length_singleton]
        omega) hblock hnot
      rw [List.length_append, List.length_singleton] at hlength
      rw [List.replicate_succ, Mealy.trace_cons, List.forall_mem_cons]
      exact ⟨⟨⟨pread, r, h, by omega⟩, hpossible⟩, words, hrun, by omega⟩

/-- A program that reads one buffer, which the samples `ys` fill while it sleeps. -/
def lateRead (ys : List Sample) : List ReadingAction :=
  .sleep :: ((ys.flatMap Sample.events).map .kernel ++
    (.wake :: .choose :: (List.replicate bufferWords .word ++ [.done])))

theorem lateRead_run (ys : List Sample) (hys : ∀ y ∈ ys, y.channo = 2)
    (hlength : ys.length = sampleBufSz) :
    (∀ t ∈ reading.trace (Reading.opened [] 2) (lateRead ys), Possible t.before t.input) ∧
      (reading.run (Reading.opened [] 2) (lateRead ys)).recorder.history = ys ∧
      ∃ words, (reading.run (Reading.opened [] 2) (lateRead ys)).reads = [⟨1, words, false⟩] := by
  obtain ⟨hpossible, hhistory, hreader, hreads⟩ := Reading.Quiet.samples
    (s := (Reading.opened [] 2).step .sleep) (fun _ => rfl) ys
  have hopened : ReadingInv [] 2 (Reading.opened [] 2) [] [] := by
    apply readingInv_opened []
    rw [List.nil_append, Mealy.trace_cons, Mealy.trace_cons, List.forall_mem_cons,
      List.forall_mem_cons]
    exact ⟨⟨trivial, fun _ => rfl⟩, ⟨trivial, fun _ => rfl⟩, List.forall_mem_nil _⟩
  obtain ⟨ss, log, hinv⟩ := reading.run_invariant_of_trace
    (I := fun s => ∃ ss log, ReadingInv [] 2 s ss log) (fun s a h ha => ReadingInv.step h ha)
    ⟨[], [], hopened.sleep rfl⟩ hpossible
  rw [lateRead, Mealy.trace_cons, Mealy.trace_append, List.forall_mem_cons,
    List.forall_mem_append, Mealy.run_cons, Mealy.run_append, reading_step, and_assoc, and_assoc]
  refine ⟨rfl, hpossible, ?_⟩
  generalize reading.run ((Reading.opened [] 2).step .sleep)
    ((ys.flatMap Sample.events).map .kernel) = s at hhistory hreader hreads hinv ⊢
  -- a thousand samples swap the buffers once
  have hswaps : s.swaps = 1 := by
    obtain ⟨new, hnew, rfl⟩ := hinv.recorded
    obtain rfl : ys = new := hhistory.symm.trans hnew
    have hcount := hinv.taped.length
    have hlt := (hinv.taped.inv.aligned hinv.taped.recording).samples_lt
    have hsize : sampleBufSz = 1000 := rfl
    rw [List.filter_eq_self.mpr (by simpa using hys), hlength] at hcount
    rw [hsize] at hcount hlt
    omega
  have hchosen : ((s.step .wake).step .choose).reader =
      .copying s.recorder.tap.readBuffer ⟨s.swaps, [], false⟩ := rfl
  obtain ⟨hwords, words, hcopied, hfull⟩ :=
    copy_words bufferWords hchosen (Nat.le_of_eq (Nat.zero_add _)) rfl rfl
  rw [Mealy.trace_cons, Mealy.trace_cons, Mealy.trace_append, List.forall_mem_cons,
    List.forall_mem_cons, List.forall_mem_append, Mealy.trace_cons, List.forall_mem_cons,
    Mealy.run_cons, Mealy.run_cons, Mealy.run_concat, reading_step, reading_step, reading_step,
    hcopied]
  refine ⟨⟨⟨0, hreader, hswaps ▸ Nat.zero_lt_one⟩, rfl, hwords, ⟨_, _, rfl, ?_⟩,
    List.forall_mem_nil _⟩, hhistory, words, ?_⟩
  · exact hfull.trans (Nat.zero_add _)
  · change s.reads ++ [⟨s.swaps, words, false⟩] = _
    rw [hreads, hswaps]
    rfl

/-! ### Late reads -/

/-- However late the program comes and however long it copies, it reads whole
buffers, each at most once and in order; a copy that the sampler does not overtake
holds the block of samples that filled the buffer. -/
theorem reads_are_whole_buffers (past : List TapEvent) (c : ℤ) (as : List ReadingAction)
    (hpast : ∀ t ∈ recorder.trace Recorder.load (past ++ [.sampleOpen, .setChannel c]),
      Paired t.before t.input ∧ BetweenSamples t.before t.input)
    (hpossible : ∀ t ∈ reading.trace (Reading.opened past c) as, Possible t.before t.input) :
    ((reading.run (Reading.opened past c) as).reads.Pairwise fun q q' => q.block < q'.block) ∧
      ∃ begun : List Int16, begun.length ≤ 2 ∧
        ∀ q ∈ (reading.run (Reading.opened past c) as).reads,
          q.Whole ((reading.run (Reading.opened past c) as).since past c) begun := by
  obtain ⟨ss, log, h⟩ := reading.run_invariant_of_trace
    (I := fun s => ∃ ss log, ReadingInv (recorder.run Recorder.load past).history c s ss log)
    (fun s a h ha => ReadingInv.step h ha) ⟨[], [], readingInv_opened past hpast⟩ hpossible
  obtain ⟨begun, hlog, hbegun, -⟩ := h.taped.words
  obtain ⟨new, hhistory, rfl⟩ := h.recorded
  have hsince : (reading.run (Reading.opened past c) as).since past c =
      new.filter (·.channo = c) := by
    rw [Reading.since, hhistory, List.drop_left]
  refine ⟨h.sorted, begun, ?_, fun q hq => ?_⟩
  · rw [hbegun]
    split <;> decide
  · obtain ⟨hfaithful, hlength⟩ := h.reads q hq
    rw [hlog] at hfaithful
    rw [hsince]
    refine hfaithful.whole hlength ?_
    calc q.block * sampleBufSz
        ≤ (reading.run (Reading.opened past c) as).swaps * sampleBufSz :=
          Nat.mul_le_mul_right _ (h.knows.block_le hq)
      _ ≤ _ := by
          rw [h.taped.length]
          exact Nat.le_add_right _ _

/-- One read returns the first buffer. -/
theorem reads_are_whole_buffers_once :
    ∃ q : Read, (reading.run (Reading.opened [] 2)
        (lateRead (List.replicate sampleBufSz ⟨2, 5, 7, 3⟩))).reads = [q] ∧
      q.words = (List.replicate sampleBufSz ⟨2, 5, 7, 3⟩).flatMap Sample.triple := by
  obtain ⟨hpossible, hhistory, words, hreads⟩ :=
    lateRead_run (List.replicate sampleBufSz ⟨2, 5, 7, 3⟩)
      (fun y hy => by rw [List.eq_of_mem_replicate hy]) List.length_replicate
  obtain ⟨-, begun, -, hwhole⟩ := reads_are_whole_buffers [] 2
    (lateRead (List.replicate sampleBufSz ⟨2, 5, 7, 3⟩)) (by
      rw [List.nil_append, Mealy.trace_cons, Mealy.trace_cons, List.forall_mem_cons,
        List.forall_mem_cons]
      exact ⟨⟨trivial, fun _ => rfl⟩, ⟨trivial, fun _ => rfl⟩, List.forall_mem_nil _⟩) hpossible
  rw [hreads] at hwhole ⊢
  refine ⟨_, rfl, ?_⟩
  rw [(hwhole _ (List.mem_singleton_self _)).exact rfl]
  change (blockOf (((reading.run (Reading.opened [] 2) _).recorder.history.drop 0).filter _)
    1).flatMap _ = _
  rw [hhistory, List.drop_zero, List.filter_eq_self.mpr fun y hy => by
    rw [List.eq_of_mem_replicate hy]; rfl]
  change (List.take sampleBufSz (List.drop 0 _)).flatMap _ = _
  rw [List.drop_zero, List.take_of_length_le (Nat.le_of_eq List.length_replicate)]

end Oslec
