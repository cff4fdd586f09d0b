import Xv6.PipeFifo

/-!
# Who sleeps on a pipe

A reader may sleep only on an empty pipe that can still be written, a writer only
on a full one that can still be read. `pipewrite` breaks this on one path: when
it finds itself killed between two bytes it returns without the
`wakeup(&pi->nread)` that its other paths make.
-/

namespace Xv6.PipeProtocol

open FreeRunningCounters Function TransitionRuns

variable {ι : Type} {s t : State ι} {p q : ι}

/-- While `pi->lock` is free nobody sleeps through an event it waits for. -/
def NoneLeftAsleep (s : State ι) : Prop :=
  s.lock = none →
    (∀ p c, s.place p = .readAsleep c → s.nread = s.nwrite ∧ s.writeopen = true) ∧
    (∀ p c, s.place p = .writeAsleep c →
      s.nwrite = s.nread + BitVec.ofNat 32 pipeSize ∧ s.readopen = true)

/-- The early return of `pipewrite` is not taken behind a byte that a sleeping reader
has not been told of. -/
def ReturnsToldBytes (s : State ι) : Action ι → Prop
  | .run p => ∀ c, s.place p = .writeTest c → c.i < c.n →
      s.readopen = false ∨ s.killed p = true → 0 < c.fresh → ∀ q r, s.place q ≠ .readAsleep r
  | _ => True

/-- A writer in its critical section that still owes the readers a wakeup. -/
def Place.owesReaders : Place → Prop
  | .writeTest c => 0 < c.fresh
  | .writeBody c => 0 < c.fresh
  | .writeExit _ => True
  | _ => False

/-- A reader that will wake the writers on its way out. -/
def Place.owesWriters : Place → Prop
  | .readCopy _ => True
  | .readExit _ => True
  | _ => False

/-- What the holder of the lock knows about the ring. -/
def HolderKnows (s : State ι) : Place → Prop
  | .writeTest c => c.fresh ≤ fill s.nread s.nwrite
  | .writeBody c => c.fresh ≤ fill s.nread s.nwrite ∧ s.readopen = true
  | .readSleep _ => s.nread = s.nwrite ∧ s.writeopen = true
  | _ => True

structure Watch (s : State ι) : Prop where
  mutex : Mutex s
  bound : fill s.nread s.nwrite ≤ pipeSize
  holder : ∀ p, s.lock = some p → HolderKnows s (s.place p)
  readers : ∀ p c, s.place p = .readAsleep c → s.writeopen = true ∧
    (s.nread = s.nwrite ∨ ∃ q, s.lock = some q ∧ (s.place q).owesReaders)
  writers : ∀ p c, s.place p = .writeAsleep c → s.readopen = true ∧
    (s.nwrite = s.nread + BitVec.ofNat 32 pipeSize ∨ ∃ q, s.lock = some q ∧
      (s.place q).owesWriters)

theorem watch_pipealloc : Watch (pipealloc : State ι) where
  mutex := by simp [Mutex, pipealloc, Place.holds]
  bound := by simp [pipealloc]
  holder := by simp [pipealloc]
  readers := by simp [pipealloc]
  writers := by simp [pipealloc]

theorem Watch.noneLeftAsleep (h : Watch s) : NoneLeftAsleep s := by
  intro hl
  constructor
  · intro p c hp
    obtain ⟨hw, hr⟩ := h.readers p c hp
    exact ⟨hr.resolve_right (by simp [hl]), hw⟩
  · intro p c hp
    obtain ⟨hr, hw⟩ := h.writers p c hp
    exact ⟨hw.resolve_right (by simp [hl]), hr⟩

/-- What holds of a sleeping reader when the process at `x` has the lock. -/
theorem Watch.reader_while (h : Watch s) {x : Place} {c : ReadCall} (hp : s.place p = x)
    (hx : x.holds = true) (hq : s.place q = .readAsleep c) :
    s.writeopen = true ∧ (s.nread = s.nwrite ∨ x.owesReaders) := by
  obtain ⟨hw, hr⟩ := h.readers q c hq
  refine ⟨hw, hr.imp_right ?_⟩
  rintro ⟨r, hl, hr⟩
  rw [(h.mutex p).mp (by rw [hp, hx]), Option.some.injEq] at hl
  rwa [← hl, hp] at hr

theorem Watch.writer_while (h : Watch s) {x : Place} {c : WriteCall} (hp : s.place p = x)
    (hx : x.holds = true) (hq : s.place q = .writeAsleep c) :
    s.readopen = true ∧ (s.nwrite = s.nread + BitVec.ofNat 32 pipeSize ∨ x.owesWriters) := by
  obtain ⟨hr, hw⟩ := h.writers q c hq
  refine ⟨hr, hw.imp_right ?_⟩
  rintro ⟨r, hl, hr⟩
  rw [(h.mutex p).mp (by rw [hp, hx]), Option.some.injEq] at hl
  rwa [← hl, hp] at hr

variable [DecidableEq ι]

theorem holderKnows_turn (h : Watch s) (ht : Turn s p t) : HolderKnows t (t.place p) := by
  have hknow {x : Place} (hp : s.place p = x) (hx : x.holds = true) : HolderKnows s x :=
    hp ▸ h.holder p ((h.mutex p).mp (by rw [hp, hx]))
  cases ht with
  | writeAcquire c hp hl | readAcquire c hp hl | readByte c hp | readFault c hp => simp [HolderKnows]
  | writeRefused c hp | writeFull c hp | writeExit c hp | readKilled c hp | readSleep c hp
  | readExit c hp => simp [State.release, HolderKnows]
  | writeEnter c hp hi hr =>
    have hk := hknow hp rfl
    simp only [State.goto, update_self]
    exact ⟨hk, hr⟩
  | writeDone c hp | writeFault c hp | readReady c hp | readEmpty c hp | readDone c hp =>
    simp [State.goto, HolderKnows]
  | writeByte c ch hp hroom =>
    have hk := hknow hp rfl
    have hlt : fill s.nread s.nwrite < pipeSize :=
      lt_of_le_of_ne h.bound (fun he => hroom (full_iff.mpr he))
    simp only [update_self, HolderKnows]
    rw [fill_succ_right (by have := pipeSize_lt; omega)]
    exact Nat.succ_le_succ hk.1
  | readBlock c hp hempty hw =>
    simp only [State.goto, update_self]
    exact ⟨hempty, hw⟩

omit [DecidableEq ι] in
theorem Place.wakeReader_ne (x : Place) (c : ReadCall) : x.wakeReader ≠ .readAsleep c := by
  cases x <;> simp [Place.wakeReader]

omit [DecidableEq ι] in
theorem Place.wakeWriter_ne (x : Place) (c : WriteCall) : x.wakeWriter ≠ .writeAsleep c := by
  cases x <;> simp [Place.wakeWriter]

omit [DecidableEq ι] in
theorem Place.wakeReader_eq_writeAsleep {x : Place} {c : WriteCall}
    (h : x.wakeReader = .writeAsleep c) : x = .writeAsleep c := by
  cases x <;> simp_all [Place.wakeReader]

omit [DecidableEq ι] in
theorem Place.wakeWriter_eq_readAsleep {x : Place} {c : ReadCall}
    (h : x.wakeWriter = .readAsleep c) : x = .readAsleep c := by
  cases x <;> simp_all [Place.wakeWriter]

theorem of_update {f : ι → Place} {x y : Place} (h : update f p x q = y) (hxy : x ≠ y) :
    f q = y := by
  by_cases hq : q = p
  · subst hq
    rw [update_self] at h
    exact absurd h hxy
  · rwa [update_of_ne hq] at h

theorem Watch.readers_goto (h : Watch s) {x y : Place} {c : ReadCall} (hp : s.place p = x)
    (hx : x.holds = true) (howe : x.owesReaders → y.owesReaders) (hy : y ≠ .readAsleep c)
    (hq : (s.goto p y).place q = .readAsleep c) :
    s.writeopen = true ∧ (s.nread = s.nwrite ∨
      ∃ r, (s.goto p y).lock = some r ∧ ((s.goto p y).place r).owesReaders) := by
  obtain ⟨hw, hr⟩ := h.reader_while hp hx (of_update hq hy)
  refine ⟨hw, hr.imp_right ?_⟩
  intro ho
  exact ⟨p, (h.mutex p).mp (by rw [hp, hx]), by simpa [State.goto] using howe ho⟩

theorem readers_turn (h : Watch s) (ht : Turn s p t) (hg : ReturnsToldBytes s (.run p))
    (c : ReadCall) (hq : t.place q = .readAsleep c) :
    t.writeopen = true ∧
      (t.nread = t.nwrite ∨ ∃ r, t.lock = some r ∧ (t.place r).owesReaders) := by
  have hknow {x : Place} (hp : s.place p = x) (hx : x.holds = true) : HolderKnows s x :=
    hp ▸ h.holder p ((h.mutex p).mp (by rw [hp, hx]))
  cases ht with
  | writeAcquire d hp hl | readAcquire d hp hl =>
    obtain ⟨hw, hr⟩ := h.readers q c (of_update hq (by simp))
    exact ⟨hw, Or.inl (hr.resolve_right (by simp [hl]))⟩
  | writeRefused d hp hi hr =>
    -- the one path without a wakeup: the guard says that nothing new was written
    have hold := of_update hq (by simp)
    obtain ⟨hw, hr'⟩ := h.reader_while hp rfl hold
    refine ⟨hw, Or.inl (hr'.resolve_right ?_)⟩
    intro hfresh
    exact hg d hp hi hr hfresh q c hold
  | writeEnter d hp => exact h.readers_goto hp rfl id (by simp) hq
  | writeDone d hp | writeFault d hp => exact h.readers_goto hp rfl (fun _ => trivial) (by simp) hq
  | writeFull d hp | writeExit d hp => exact absurd (of_update hq (by simp)) (Place.wakeReader_ne _ c)
  | writeByte d ch hp =>
    obtain ⟨hw, _⟩ := h.reader_while hp rfl (of_update hq (by simp))
    refine ⟨hw, Or.inr ⟨p, (h.mutex p).mp (by rw [hp]; rfl), ?_⟩⟩
    simp [Place.owesReaders]
  | readKilled d hp =>
    obtain ⟨hw, hr⟩ := h.reader_while hp rfl (of_update hq (by simp))
    exact ⟨hw, Or.inl (hr.resolve_right id)⟩
  | readBlock d hp | readReady d hp | readEmpty d hp | readDone d hp =>
    exact h.readers_goto hp rfl False.elim (by simp) hq
  | readSleep d hp =>
    obtain ⟨hempty, hw⟩ := hknow hp rfl
    exact ⟨hw, Or.inl hempty⟩
  | readByte d hp hi hsome | readFault d hp hi hsome =>
    obtain ⟨_, hr⟩ := h.reader_while hp rfl (of_update hq (by simp))
    exact absurd (hr.resolve_right id) hsome
  | readExit d hp =>
    have hwake := of_update hq (by simp)
    have hold := Place.wakeWriter_eq_readAsleep hwake
    obtain ⟨hw, hr⟩ := h.reader_while hp rfl hold
    exact ⟨hw, Or.inl (hr.resolve_right id)⟩

theorem Watch.writers_goto (h : Watch s) {x y : Place} {c : WriteCall} (hp : s.place p = x)
    (hx : x.holds = true) (howe : x.owesWriters → y.owesWriters) (hy : y ≠ .writeAsleep c)
    (hq : (s.goto p y).place q = .writeAsleep c) :
    s.readopen = true ∧ (s.nwrite = s.nread + BitVec.ofNat 32 pipeSize ∨
      ∃ r, (s.goto p y).lock = some r ∧ ((s.goto p y).place r).owesWriters) := by
  obtain ⟨hw, hr⟩ := h.writer_while hp hx (of_update hq hy)
  refine ⟨hw, hr.imp_right ?_⟩
  intro ho
  exact ⟨p, (h.mutex p).mp (by rw [hp, hx]), by simpa [State.goto] using howe ho⟩

theorem writers_turn (h : Watch s) (ht : Turn s p t) (c : WriteCall)
    (hq : t.place q = .writeAsleep c) :
    t.readopen = true ∧ (t.nwrite = t.nread + BitVec.ofNat 32 pipeSize ∨
      ∃ r, t.lock = some r ∧ (t.place r).owesWriters) := by
  have hknow {x : Place} (hp : s.place p = x) (hx : x.holds = true) : HolderKnows s x :=
    hp ▸ h.holder p ((h.mutex p).mp (by rw [hp, hx]))
  have hlock {x : Place} (hp : s.place p = x) (hx : x.holds = true) : s.lock = some p :=
    (h.mutex p).mp (by rw [hp, hx])
  cases ht with
  | writeAcquire d hp hl | readAcquire d hp hl =>
    obtain ⟨hr, hw⟩ := h.writers q c (of_update hq (by simp))
    exact ⟨hr, Or.inl (hw.resolve_right (by simp [hl]))⟩
  | writeRefused d hp | readKilled d hp | readSleep d hp =>
    obtain ⟨hr, hw⟩ := h.writer_while hp rfl (of_update hq (by simp))
    exact ⟨hr, Or.inl (hw.resolve_right id)⟩
  | writeEnter d hp | writeDone d hp | writeFault d hp | readBlock d hp | readReady d hp =>
    exact h.writers_goto hp rfl False.elim (by simp) hq
  | writeFull d hp hfull => exact ⟨(hknow hp rfl).2, Or.inl hfull⟩
  | writeByte d ch hp hroom =>
    obtain ⟨_, hw⟩ := h.writer_while hp rfl (of_update hq (by simp))
    exact absurd (hw.resolve_right id) hroom
  | writeExit d hp =>
    have hwake := of_update hq (by simp)
    have hold := Place.wakeReader_eq_writeAsleep hwake
    obtain ⟨hr, hw⟩ := h.writer_while hp rfl hold
    exact ⟨hr, Or.inl (hw.resolve_right id)⟩
  | readEmpty d hp | readDone d hp => exact h.writers_goto hp rfl id (by simp) hq
  | readByte d hp | readFault d hp =>
    obtain ⟨hr, _⟩ := h.writer_while hp rfl (of_update hq (by simp))
    exact ⟨hr, Or.inr ⟨p, hlock hp rfl, by simp [Place.owesWriters]⟩⟩
  | readExit d hp => exact absurd (of_update hq (by simp)) (Place.wakeWriter_ne _ c)

theorem watch_turn (h : Watch s) (ht : Turn s p t) (hg : ReturnsToldBytes s (.run p)) :
    Watch t := by
  refine ⟨mutex_turn h.mutex ht, fill_turn h.bound ht, ?_, ?_, ?_⟩
  · intro q hl
    rcases lock_turn h.mutex ht with hn | hn
    · simp [hn] at hl
    · rw [hn, Option.some.injEq] at hl
      subst hl
      exact holderKnows_turn h ht
  · exact fun q c hq => readers_turn h ht hg c hq
  · exact fun q c hq => writers_turn h ht c hq

omit [DecidableEq ι] in
/-- Closing an end wakes the other side, which is then not asleep any more. -/
theorem watch_close (h : Watch s) (hl : s.lock = none) (writable : Bool) :
    Watch (pipeclose s writable) := by
  have hnone (u : State ι) (hu : u.lock = none) (p : ι) (hp : u.lock = some p) :
      HolderKnows u (u.place p) := by
    rw [hu] at hp
    cases hp
  cases writable with
  | true =>
    refine ⟨h.mutex.wakeupNread, h.bound, hnone (pipeclose s true) hl, ?_, ?_⟩
    · intro p c hp
      exact absurd hp (Place.wakeReader_ne _ c)
    · intro p c hp
      obtain ⟨hr, hw⟩ := h.writers p c (Place.wakeReader_eq_writeAsleep hp)
      exact ⟨hr, Or.inl (hw.resolve_right (by simp [hl]))⟩
  | false =>
    refine ⟨h.mutex.wakeupNwrite, h.bound, hnone (pipeclose s false) hl, ?_, ?_⟩
    · intro p c hp
      obtain ⟨hw, hr⟩ := h.readers p c (Place.wakeWriter_eq_readAsleep hp)
      exact ⟨hw, Or.inl (hr.resolve_right (by simp [hl]))⟩
    · intro p c hp
      exact absurd hp (Place.wakeWriter_ne _ c)

theorem watch_outside (h : Watch s) {x : Place} {f : ι → Bool} (hp : (s.place p).holds = false)
    (hx : x.holds = false) (hr : ∀ c, x ≠ .readAsleep c) (hw : ∀ c, x ≠ .writeAsleep c) :
    Watch { s with place := update s.place p x, killed := f } := by
  have hne {r : ι} (hl : s.lock = some r) : r ≠ p := by
    rintro rfl
    simp [(h.mutex r).mpr hl] at hp
  refine ⟨h.mutex.enter hp hx, h.bound, ?_, ?_, ?_⟩
  · intro r hl
    simp only [update_of_ne (hne hl)]
    have hold := h.holder r hl
    cases hy : s.place r <;> rw [hy] at hold <;> exact hold
  · intro r c hrs
    obtain ⟨hopen, hrest⟩ := h.readers r c (of_update hrs (hr c))
    refine ⟨hopen, hrest.imp_right ?_⟩
    rintro ⟨u, hl, hu⟩
    exact ⟨u, hl, by simpa only [update_of_ne (hne hl)] using hu⟩
  · intro r c hrs
    obtain ⟨hopen, hrest⟩ := h.writers r c (of_update hrs (hw c))
    refine ⟨hopen, hrest.imp_right ?_⟩
    rintro ⟨u, hl, hu⟩
    exact ⟨u, hl, by simpa only [update_of_ne (hne hl)] using hu⟩

theorem watch_kill (h : Watch s) (p : ι) : Watch (kill s p) := by
  by_cases hp : (s.place p).holds = true
  · -- the holder of the lock only gets its flag set
    have hsame : kill s p = { s with killed := update s.killed p true } := by
      rw [kill, Place.wake_of_holds hp, update_eq_self]
    rw [hsame]
    refine ⟨h.mutex, h.bound, ?_, h.readers, h.writers⟩
    intro r hl
    have hold := h.holder r hl
    simp only
    cases hy : s.place r <;> rw [hy] at hold <;> exact hold
  · rw [Bool.not_eq_true] at hp
    refine watch_outside h hp (by simpa using hp) ?_ (fun c => Place.wakeWriter_ne _ c)
    intro c hc
    exact absurd (Place.wakeWriter_eq_readAsleep hc) (Place.wakeReader_ne _ c)

theorem watch_step {a : Action ι} (h : Watch s) (hg : ReturnsToldBytes s a)
    (hs : step s a = some t) : Watch t := by
  have hcase := step_cases hs
  cases a with
  | callWrite p src n | callRead p dst n =>
    obtain ⟨hp, _, _, rfl⟩ := hcase
    exact watch_outside h hp rfl (by simp) (by simp)
  | run p => exact watch_turn h hcase hg
  | close writable =>
    obtain ⟨hl, rfl⟩ := hcase
    exact watch_close h hl writable
  | kill p =>
    rw [show t = kill s p from hcase]
    exact watch_kill h p

/-- The guard is exact: the step that breaks it leaves a reader asleep on a byte. -/
theorem Watch.left_asleep (h : Watch s) {a : Action ι} (hs : step s a = some t)
    (hg : ¬ ReturnsToldBytes s a) : ¬ NoneLeftAsleep t := by
  cases a with
  | run p =>
    simp only [ReturnsToldBytes, not_forall, not_not] at hg
    obtain ⟨c, hp, hi, hr, hfresh, q, d, hq⟩ := hg
    have ht : t = s.release p (.writeReturn (-1)) := by
      simp only [step] at hs
      split at hs
      · cases hs
      · simpa [run, hp, hi, hr] using hs.symm
    subst ht
    have hk := h.holder p ((h.mutex p).mp (by rw [hp]; rfl))
    rw [hp] at hk
    intro hall
    have hne : q ≠ p := by
      rintro rfl
      rw [hp] at hq
      cases hq
    obtain ⟨hempty, _⟩ := (hall rfl).1 q d (by simpa [State.release, hne] using hq)
    have hzero : fill s.nread s.nwrite = 0 := fill_eq_zero_iff.mpr hempty
    exact absurd (lt_of_lt_of_le hfresh hk) (by omega)
  | _ => exact absurd trivial hg

/-- In every run in which no `pipewrite` takes its early return behind a byte that a
sleeping reader has not been told of, nobody is left asleep in any state; and the
first step that does so leaves a reader asleep. -/
theorem noneLeftAsleep_run {as : List (Action ι)}
    (h : Run step ReturnsToldBytes pipealloc as s) :
    NoneLeftAsleep s ∧ ∀ a t, step s a = some t → (NoneLeftAsleep t ↔ ReturnsToldBytes s a) := by
  have hw : Watch s := h.invariant watch_pipealloc (fun _ _ _ hi hg hs => watch_step hi hg hs)
  refine ⟨hw.noneLeftAsleep, ?_⟩
  intro a t hs
  constructor
  · intro ht
    by_contra hg
    exact hw.left_asleep hs hg ht
  · intro hg
    exact (watch_step hw hg hs).noneLeftAsleep

/-- A reader falls asleep on the empty pipe; then a writer of two bytes is let up to
the second turn of its loop. -/
def firstOfTwo : List (Action (Fin 2)) :=
  (.callRead 0 (fun _ => true) 1 : Action (Fin 2)) :: List.replicate 3 (.run 0 : Action (Fin 2)) ++
    (.callWrite 1 (fun i => [104#8, 105#8][i]?) 2 : Action (Fin 2)) :: List.replicate 3 (.run 1 : Action (Fin 2))

/-- The writer is killed there and returns, and the reader sleeps on a non-empty pipe. -/
theorem firstOfTwo_killed : ∃ s : State (Fin 2),
    Run step unguarded pipealloc (firstOfTwo ++ [.kill 1, .run 1]) s ∧ s.lock = none ∧
      s.nread ≠ s.nwrite ∧ ∃ c, s.place 0 = .readAsleep c :=
  ⟨_, Run.of_execute rfl, rfl, by decide, _, rfl⟩

theorem noneLeftAsleep_firstOfTwo : ∃ s : State (Fin 2),
    Run step ReturnsToldBytes pipealloc (firstOfTwo ++ List.replicate 4 (.run 1)) s ∧
      s.nread ≠ s.nwrite ∧ NoneLeftAsleep s := by
  have hrun : ∃ s : State (Fin 2), Run step (fun s _ => s.readopen = true ∧ ∀ p, s.killed p = false)
      pipealloc (firstOfTwo ++ List.replicate 4 (.run 1)) s ∧ s.nread ≠ s.nwrite :=
    exists_run (by decide +kernel)
  obtain ⟨s, h, hne⟩ := hrun
  have hguard : Run step ReturnsToldBytes pipealloc (firstOfTwo ++ List.replicate 4 (.run 1)) s := by
    apply h.weaken
    rintro v a ⟨hr, hk⟩
    cases a with
    | run p => simp [ReturnsToldBytes, hr, hk p]
    | _ => trivial
  exact ⟨s, hguard, hne, (noneLeftAsleep_run hguard).1⟩

end Xv6.PipeProtocol
