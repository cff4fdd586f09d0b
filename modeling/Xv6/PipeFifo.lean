import Xv6.PipeProtocol

/-!
# A pipe is a lossless queue

The bytes delivered so far, followed by the bytes in the ring, are the bytes
accepted so far. The counters are those of the source, 32 bits wide and free to
wrap; the ring never holds more than `PIPESIZE` bytes.
-/

namespace Xv6.PipeProtocol

open FreeRunningCounters Function TransitionRuns

theorem pipeSize_dvd : pipeSize ∣ 2 ^ 32 := ⟨2 ^ 23, rfl⟩

theorem pipeSize_lt : pipeSize < 2 ^ 32 := by decide

variable {ι : Type} {s t : State ι} {p : ι}

theorem full_iff : s.nwrite = s.nread + BitVec.ofNat 32 pipeSize ↔
    fill s.nread s.nwrite = pipeSize := (fill_eq_iff pipeSize_lt).symm

theorem Mutex.stay [DecidableEq ι] (h : Mutex s) {x : Place} (hp : (s.place p).holds = true)
    (hx : x.holds = true) (ht : t.place = update s.place p x) (hl : t.lock = s.lock) :
    Mutex t := by
  intro q
  rw [ht, hl, ← h q]
  by_cases hq : q = p
  · subst hq
    rw [update_self, hp, hx]
  · rw [update_of_ne hq]

theorem Mutex.acquire [DecidableEq ι] (h : Mutex s) {x : Place} (hs : s.lock = none)
    (hx : x.holds = true) :
    Mutex { s with lock := some p, place := update s.place p x } := by
  intro q
  have hold := h q
  rw [hs] at hold
  by_cases hq : q = p
  · subst hq
    simp [hx]
  · simpa [hq, Ne.symm hq] using hold

theorem Mutex.release [DecidableEq ι] (h : Mutex s) {x : Place} (hp : (s.place p).holds = true)
    (hx : x.holds = false) : Mutex (s.release p x) := by
  intro q
  have hold := h q
  rw [(h p).mp hp] at hold
  by_cases hq : q = p
  · subst hq
    simp [State.release, hx]
  · simpa [State.release, hq, Ne.symm hq] using hold

theorem Mutex.outside (h : Mutex s) (ho : ∀ q, (t.place q).holds = (s.place q).holds)
    (hl : t.lock = s.lock) : Mutex t := by
  intro q
  rw [ho q, hl]
  exact h q

theorem Mutex.enter [DecidableEq ι] (h : Mutex s) {x : Place} (hp : (s.place p).holds = false)
    (hx : x.holds = false) : Mutex (s.goto p x) := by
  refine h.outside ?_ rfl
  intro q
  by_cases hq : q = p
  · simp [State.goto, hq, hp, hx]
  · simp [State.goto, hq]

theorem Mutex.wakeupNread (h : Mutex s) : Mutex s.wakeupNread :=
  h.outside (fun q => (s.place q).holds_wakeReader) rfl

theorem Mutex.wakeupNwrite (h : Mutex s) : Mutex s.wakeupNwrite :=
  h.outside (fun q => (s.place q).holds_wakeWriter) rfl

variable [DecidableEq ι]

theorem mutex_turn (h : Mutex s) (ht : Turn s p t) : Mutex t := by
  cases ht with
  | writeAcquire c hp hl | readAcquire c hp hl => exact h.acquire hl rfl
  | writeRefused c hp | readKilled c hp | readSleep c hp => exact h.release (by rw [hp]; rfl) rfl
  | writeEnter c hp | writeDone c hp | writeFault c hp | writeByte c ch hp | readBlock c hp
  | readReady c hp | readEmpty c hp | readByte c hp | readFault c hp | readDone c hp =>
    exact h.stay (by rw [hp]; rfl) rfl rfl rfl
  | writeFull c hp | writeExit c hp =>
    exact h.wakeupNread.release ((Place.holds_wakeReader _).trans (by rw [hp]; rfl)) rfl
  | readExit c hp =>
    exact h.wakeupNwrite.release ((Place.holds_wakeWriter _).trans (by rw [hp]; rfl)) rfl

theorem lock_turn (h : Mutex s) (ht : Turn s p t) : t.lock = none ∨ t.lock = some p := by
  have hlock (hp : (s.place p).holds = true) : s.lock = none ∨ s.lock = some p :=
    Or.inr ((h p).mp hp)
  cases ht with
  | writeAcquire c hp hl => exact Or.inr rfl
  | writeRefused c hp | writeFull c hp | writeExit c hp | readKilled c hp | readSleep c hp
  | readExit c hp => exact Or.inl rfl
  | writeEnter c hp | writeDone c hp | writeFault c hp | writeByte c ch hp | readBlock c hp
  | readReady c hp | readEmpty c hp | readByte c hp | readFault c hp | readDone c hp =>
    exact hlock (by rw [hp]; rfl)
  | readAcquire c hp hl => exact Or.inr rfl

theorem step_cases {a : Action ι} (h : step s a = some t) :
    match a with
    | .callWrite p src n => (s.place p).holds = false ∧
        (∀ c, s.place p ≠ .readAsleep c) ∧ (∀ c, s.place p ≠ .writeAsleep c) ∧
        t = s.goto p (.writeAcquire ⟨src, n, 0, 0⟩)
    | .callRead p dst n => (s.place p).holds = false ∧
        (∀ c, s.place p ≠ .readAsleep c) ∧ (∀ c, s.place p ≠ .writeAsleep c) ∧
        t = s.goto p (.readAcquire ⟨dst, n, 0⟩)
    | .run p => Turn s p t
    | .close writable => s.lock = none ∧ t = pipeclose s writable
    | .kill p => t = kill s p := by
  cases a with
  | callWrite p src n | callRead p dst n =>
    simp only [step] at h ⊢
    split at h <;> cases h
    all_goals
      rename_i hp
      simp [hp, Place.holds]
  | run p =>
    simp only [step] at h
    split at h
    · cases h
    · exact turn_of_run h
  | close writable =>
    simp only [step] at h
    split at h
    · cases h
    · rename_i hc
      simp only [not_or, not_not] at hc
      exact ⟨hc.2, (Option.some.inj h).symm⟩
  | kill p => exact (Option.some.inj h).symm

theorem mutex_step {a : Action ι} (h : Mutex s) (hs : step s a = some t) : Mutex t := by
  have hcase := step_cases hs
  cases a with
  | callWrite p src n | callRead p dst n =>
    obtain ⟨hp, _, _, rfl⟩ := hcase
    exact h.enter hp rfl
  | run p => exact mutex_turn h hcase
  | close writable =>
    obtain ⟨_, rfl⟩ := hcase
    cases writable with
    | true => exact h.wakeupNread
    | false => exact h.wakeupNwrite
  | kill p =>
    rw [show t = kill s p from hcase]
    refine h.outside ?_ rfl
    intro q
    by_cases hq : q = p <;> simp [kill, hq]

theorem fill_turn (h : fill s.nread s.nwrite ≤ pipeSize) (ht : Turn s p t) :
    fill t.nread t.nwrite ≤ pipeSize := by
  cases ht with
  | writeByte c ch hp hroom =>
    have hlt : fill s.nread s.nwrite < pipeSize := lt_of_le_of_ne h (fun he => hroom (full_iff.mpr he))
    change fill s.nread (s.nwrite + 1) ≤ pipeSize
    rw [fill_succ_right (by have := pipeSize_lt; omega)]
    exact hlt
  | readByte c hp hi hsome | readFault c hp hi hsome =>
    have := fill_succ_left hsome
    change fill (s.nread + 1) s.nwrite ≤ pipeSize
    omega
  | _ => exact h

theorem ring_step {a : Action ι} (hs : step s a = some t) (ha : ∀ q, a ≠ .run q) :
    t.data = s.data ∧ t.nread = s.nread ∧ t.nwrite = s.nwrite ∧ t.accepted = s.accepted ∧
      t.delivered = s.delivered := by
  have hcase := step_cases hs
  cases a with
  | callWrite p src n | callRead p dst n =>
    obtain ⟨_, _, _, rfl⟩ := hcase
    exact ⟨rfl, rfl, rfl, rfl, rfl⟩
  | run p => exact absurd rfl (ha p)
  | close writable =>
    obtain ⟨_, rfl⟩ := hcase
    cases writable <;> exact ⟨rfl, rfl, rfl, rfl, rfl⟩
  | kill p =>
    rw [show t = kill s p from hcase]
    exact ⟨rfl, rfl, rfl, rfl, rfl⟩

/-- The outcome of the `copyout` that the next step of a process makes, if it makes one. -/
def copyoutResult (s : State ι) (p : ι) : Option Bool :=
  match s.place p with
  | .readCopy c => if c.i < c.n ∧ s.nread ≠ s.nwrite then some (c.dst c.i) else none
  | _ => none

/-- Every `copyout` of `piperead` succeeds. -/
def CopyoutSucceeds (s : State ι) : Action ι → Prop
  | .run p => copyoutResult s p ≠ some false
  | _ => True

instance (s : State ι) (a : Action ι) : Decidable (CopyoutSucceeds s a) := by
  cases a <;> unfold CopyoutSucceeds <;> infer_instance

/-- What the reader that holds the lock knows while it has copied nothing. -/
def ReaderKnows (s : State ι) : Place → Prop
  | .readCopy c => c.i = 0 → s.nread ≠ s.nwrite ∨ s.writeopen = false
  | .readExit c => c.i = 0 → 0 < c.n → s.nread = s.nwrite ∧ s.writeopen = false
  | _ => True

structure Fifo (s : State ι) : Prop where
  mutex : Mutex s
  bound : fill s.nread s.nwrite ≤ pipeSize
  bytes : s.accepted = s.delivered ++ window s.data pipeSize s.nread s.nwrite
  holder : ∀ p, s.lock = some p → ReaderKnows s (s.place p)

omit [DecidableEq ι] in
theorem fifo_pipealloc : Fifo (pipealloc : State ι) where
  mutex := by simp [Mutex, pipealloc, Place.holds]
  bound := by simp [pipealloc]
  bytes := by simp [pipealloc, window_self]
  holder := by simp [pipealloc]

theorem bytes_turn (h : Fifo s) (ht : Turn s p t) (hc : copyoutResult s p ≠ some false) :
    t.accepted = t.delivered ++ window t.data pipeSize t.nread t.nwrite := by
  have hold := h.bytes
  cases ht with
  | writeByte c ch hp hroom =>
    have hlt : fill s.nread s.nwrite < pipeSize :=
      lt_of_le_of_ne h.bound (fun he => hroom (full_iff.mpr he))
    change s.accepted ++ [ch] = s.delivered ++ window (update s.data
      (place pipeSize s.nwrite) ch) pipeSize s.nread (s.nwrite + 1)
    rw [window_push pipeSize_dvd s.data ch hlt pipeSize_lt, hold, List.append_assoc]
  | readByte c hp hi hsome =>
    change s.accepted = (s.delivered ++ [s.data (place pipeSize s.nread)]) ++
      window s.data pipeSize (s.nread + 1) s.nwrite
    rw [hold, window_pop s.data pipeSize hsome, List.append_assoc, List.singleton_append]
  | readFault c hp hi hsome hdst => simp [copyoutResult, hp, hi, hsome, hdst] at hc
  | _ => exact hold

theorem readerKnows_turn (h : Fifo s) (ht : Turn s p t) (hc : copyoutResult s p ≠ some false) :
    ReaderKnows t (t.place p) := by
  cases ht with
  | readReady c hp hready =>
    simp only [State.goto, update_self]
    intro _
    by_cases he : s.nread = s.nwrite
    · exact Or.inr (by simpa [he] using hready)
    · exact Or.inl he
  | readEmpty c hp hi hempty =>
    have hk := h.holder p ((h.mutex p).mp (by rw [hp]; rfl))
    rw [hp] at hk
    simp only [State.goto, update_self]
    intro h0 _
    exact ⟨hempty, (hk h0).resolve_left (not_not.mpr hempty)⟩
  | readByte c hp hi hsome hdst =>
    simp only [update_self]
    intro h0
    simp at h0
  | readFault c hp hi hsome hdst => simp [copyoutResult, hp, hi, hsome, hdst] at hc
  | readDone c hp hi =>
    simp only [State.goto, update_self]
    intro h0 hn
    rw [h0] at hi
    exact absurd (by simpa using hn) hi
  | writeAcquire c hp hl | writeByte c ch hp | readAcquire c hp hl => simp [ReaderKnows]
  | writeRefused c hp | writeFull c hp | writeExit c hp | readKilled c hp | readSleep c hp
  | readExit c hp => simp [State.release, ReaderKnows]
  | writeEnter c hp | writeDone c hp | writeFault c hp | readBlock c hp =>
    simp [State.goto, ReaderKnows]

omit [DecidableEq ι] in
theorem Place.wake_of_holds {x : Place} (h : x.holds = true) : x.wakeReader.wakeWriter = x := by
  cases x <;> first | rfl | cases h

theorem holder_step {a : Action ι} (hm : Mutex s) (hs : step s a = some t) (ha : ∀ q, a ≠ .run q)
    (hl : s.lock = some p) : t.place p = s.place p ∧ t.writeopen = s.writeopen := by
  have hcase := step_cases hs
  have hp : (s.place p).holds = true := (hm p).mpr hl
  cases a with
  | callWrite q src n | callRead q dst n =>
    obtain ⟨hq, _, _, rfl⟩ := hcase
    have hne : p ≠ q := by
      rintro rfl
      simp [hp] at hq
    exact ⟨update_of_ne hne _ _, rfl⟩
  | run q => exact absurd rfl (ha q)
  | close writable =>
    rw [hcase.1] at hl
    cases hl
  | kill q =>
    rw [show t = kill s q from hcase]
    refine ⟨?_, rfl⟩
    by_cases hpq : p = q
    · subst hpq
      simp [kill, Place.wake_of_holds hp]
    · simp [kill, hpq]

theorem lock_step {a : Action ι} (hs : step s a = some t) (ha : ∀ q, a ≠ .run q) :
    t.lock = s.lock := by
  have hcase := step_cases hs
  cases a with
  | callWrite q src n =>
    obtain ⟨_, _, _, rfl⟩ := hcase
    rfl
  | callRead q dst n =>
    obtain ⟨_, _, _, rfl⟩ := hcase
    rfl
  | run q => exact absurd rfl (ha q)
  | close writable =>
    obtain ⟨_, rfl⟩ := hcase
    cases writable <;> rfl
  | kill q =>
    rw [show t = kill s q from hcase]
    rfl

theorem fifo_turn (h : Fifo s) (ht : Turn s p t) (hc : copyoutResult s p ≠ some false) :
    Fifo t := by
  refine ⟨mutex_turn h.mutex ht, fill_turn h.bound ht, bytes_turn h ht hc, ?_⟩
  intro q hl
  rcases lock_turn h.mutex ht with hn | hn
  · simp [hn] at hl
  · rw [hn, Option.some.injEq] at hl
    subst hl
    exact readerKnows_turn h ht hc

theorem fifo_quiet {a : Action ι} (h : Fifo s) (hs : step s a = some t) (ha : ∀ q, a ≠ .run q) :
    Fifo t := by
  obtain ⟨hd, hr, hw, hacc, hdel⟩ := ring_step hs ha
  refine ⟨mutex_step h.mutex hs, ?_, ?_, ?_⟩
  · rw [hr, hw]
    exact h.bound
  · rw [hd, hr, hw, hacc, hdel]
    exact h.bytes
  · intro q hl
    rw [lock_step hs ha] at hl
    obtain ⟨hplace, hopen⟩ := holder_step h.mutex hs ha hl
    have hold := h.holder q hl
    rw [hplace]
    cases hx : s.place q <;> rw [hx] at hold <;> simp_all [ReaderKnows]

theorem fifo_step {a : Action ι} (h : Fifo s) (hc : CopyoutSucceeds s a)
    (hs : step s a = some t) : Fifo t := by
  cases a with
  | run p => exact fifo_turn h (step_cases hs) hc
  | _ => exact fifo_quiet h hs (by simp)

theorem fifo_run {as : List (Action ι)} (h : Run step CopyoutSucceeds pipealloc as s) : Fifo s :=
  h.invariant fifo_pipealloc (fun _ _ _ hi hc hs => fifo_step hi hc hs)

/-- A `piperead` that has just returned 0 although bytes were asked for left the pipe
empty and found its write end closed. -/
theorem Fifo.read_zero (h : Fifo s) {n : ℤ} (hn : 0 < n) (ht : Turn s p t)
    (hret : t.place p = .readReturn n 0) : t.nread = t.nwrite ∧ t.writeopen = false := by
  cases ht with
  | readExit c hp =>
    have hk := h.holder p ((h.mutex p).mp (by rw [hp]; rfl))
    rw [hp] at hk
    simp only [State.release, update_self, Place.readReturn.injEq] at hret
    exact hk (by exact_mod_cast hret.2) (hret.1 ▸ hn)
  | readKilled c hp => simp [State.release] at hret
  | writeAcquire c hp | writeByte c ch hp | readAcquire c hp | readByte c hp | readFault c hp =>
    simp at hret
  | _ => simp [State.release, State.goto] at hret

/-- A pipe is a lossless FIFO, in every state of every interleaving in which the
copies to user memory succeed. -/
theorem pipe_fifo {as : List (Action ι)} (h : Run step CopyoutSucceeds pipealloc as s) :
    s.accepted = s.delivered ++ window s.data pipeSize s.nread s.nwrite ∧
    (s.nwrite - s.nread).toNat ≤ pipeSize ∧
    ∀ p n t, 0 < n → step s (.run p) = some t → t.place p = .readReturn n 0 →
      t.nread = t.nwrite ∧ t.writeopen = false := by
  have hi := fifo_run h
  exact ⟨hi.bytes, hi.bound, fun p n t hn hs hret => hi.read_zero hn (step_cases hs) hret⟩

/-- A writer sends two bytes and a reader takes the first of them. -/
def oneOfTwo : List (Action (Fin 2)) :=
  (.callWrite 0 (fun i => [104#8, 105#8][i]?) 2 : Action (Fin 2)) :: List.replicate 7 (.run 0 : Action (Fin 2)) ++
    (.callRead 1 (fun _ => true) 1 : Action (Fin 2)) :: List.replicate 5 (.run 1 : Action (Fin 2))

theorem pipe_fifo_oneOfTwo : ∃ s : State (Fin 2), Run step CopyoutSucceeds pipealloc oneOfTwo s ∧
    s.delivered = [104#8] ∧
    s.accepted = s.delivered ++ window s.data pipeSize s.nread s.nwrite := by
  have hrun : ∃ s : State (Fin 2), Run step CopyoutSucceeds pipealloc oneOfTwo s ∧
      s.delivered = [104#8] := exists_run (by decide +kernel)
  obtain ⟨s, h, hd⟩ := hrun
  exact ⟨s, h, hd, (pipe_fifo h).1⟩

end Xv6.PipeProtocol
