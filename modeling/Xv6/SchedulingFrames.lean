import Xv6.SchedulingRuns

/-!
# What a step leaves alone

A step of one CPU does not move the threads of others, takes no spin lock from them and puts
nobody else to sleep.
-/

namespace Xv6.Scheduling

open Function HeldLocks ProcessTable TransitionRuns

variable {n : ℕ} {Λ γ : Type} {s t u : State n Λ γ} {c : γ} {p q np initproc : Fin n} {x y : Pc n Λ}
  {v w : Proc n} {l : SpinLock Λ} {ok : Bool}

/-- What the thread of `p` on CPU `c` leaves alone before it moves on. -/
structure Quiet (c : γ) (p : Fin n) (s t : State n Λ γ) : Prop where
  pc : t.pc = s.pc
  saved : t.saved = s.saved
  calls : t.calls = s.calls
  wakeups : ∀ q, q ≠ p → t.wakeups q = s.wakeups q
  calm : ∀ q, Calm (s.proc q) (t.proc q)
  lk : ∀ l c', c' ≠ c → s.lk l = some c' → t.lk l = some c'
  exec : ∀ c', c' ≠ c → t.exec c' = s.exec c'

theorem Quiet.refl (c : γ) (p : Fin n) (s : State n Λ γ) : Quiet c p s s :=
  ⟨rfl, rfl, rfl, fun _ _ => rfl, fun _ => .refl _, fun _ _ _ hl => hl, fun _ _ => rfl⟩

theorem Quiet.trans (h : Quiet c p s t) (h' : Quiet c p t u) : Quiet c p s u where
  pc := h'.pc.trans h.pc
  saved := h'.saved.trans h.saved
  calls := h'.calls.trans h.calls
  wakeups := fun q hq => (h'.wakeups q hq).trans (h.wakeups q hq)
  calm := fun q => (h.calm q).trans (h'.calm q)
  lk := fun l c' hc hl => h'.lk l c' hc (h.lk l c' hc hl)
  exec := fun c' hc => (h'.exec c' hc).trans (h.exec c' hc)

theorem Calm.setProc (hv : Calm (s.proc q) v) (q' : Fin n) : Calm (s.proc q') ((s.setProc q v).proc q') := by
  rcases eq_or_ne q' q with rfl | hne
  · simpa [State.setProc] using hv
  · simpa [State.setProc, hne] using Calm.refl (s.proc q')

theorem Quiet.setProc (hv : Calm (s.proc q) v) : Quiet c p s (s.setProc q v) :=
  ⟨rfl, rfl, rfl, fun _ _ => rfl, hv.setProc, fun _ _ _ hl => hl, fun _ _ => rfl⟩

theorem Quiet.setMe (s : State n Λ γ) (me : Fin n → Fin n) : Quiet c p s { s with me := me } :=
  ⟨rfl, rfl, rfl, fun _ _ => rfl, fun _ => .refl _, fun _ _ _ hl => hl, fun _ _ => rfl⟩

theorem Quiet.setPid (s : State n Λ γ) (k : BitVec 32) : Quiet c p s { s with nextpid := k } :=
  ⟨rfl, rfl, rfl, fun _ _ => rfl, fun _ => .refl _, fun _ _ _ hl => hl, fun _ _ => rfl⟩

theorem Quiet.countWakeup (s : State n Λ γ) (m : ℕ) :
    Quiet c p s { s with wakeups := update s.wakeups p m } :=
  ⟨rfl, rfl, rfl, fun _ hq => update_of_ne hq _ _, fun _ => .refl _, fun _ _ _ hl => hl, fun _ _ => rfl⟩

section Locks

variable [DecidableEq γ]

theorem Quiet.acquireProc (hacq : s.acquireProc c q = some t) : Quiet c p s t := by
  obtain ⟨-, rfl⟩ := State.acquireProc_eq hacq
  exact ⟨rfl, rfl, rfl, fun _ _ => rfl, fun _ => .refl _, fun _ _ _ hl => hl, fun _ _ => rfl⟩

theorem Quiet.releaseProc (hrel : s.releaseProc c q = some t) : Quiet c p s t := by
  obtain ⟨-, rfl⟩ := State.releaseProc_eq hrel
  exact ⟨rfl, rfl, rfl, fun _ _ => rfl, fun _ => .refl _, fun _ _ _ hl => hl, fun _ _ => rfl⟩

variable [DecidableEq Λ]

theorem Quiet.acquire (hacq : s.acquire c l = some t) : Quiet c p s t := by
  rw [State.acquire] at hacq
  split at hacq
  · rename_i hfree
    cases hacq
    refine ⟨rfl, rfl, rfl, fun _ _ => rfl, fun _ => .refl _, fun l' c' _ hl => ?_, fun _ _ => rfl⟩
    have hne : l' ≠ l := by
      rintro rfl
      rw [hfree] at hl
      cases hl
    simpa [hne] using hl
  · cases hacq

theorem Quiet.release (hrel : s.release c l = some t) : Quiet c p s t := by
  rw [State.release] at hrel
  split at hrel
  · rename_i hheld
    cases hrel
    refine ⟨rfl, rfl, rfl, fun _ _ => rfl, fun _ => .refl _, fun l' c' hc hl => ?_, fun _ _ => rfl⟩
    have hne : l' ≠ l := by
      rintro rfl
      rw [hheld] at hl
      exact hc (Option.some.inj hl).symm
    simpa [hne] using hl
  · cases hrel

end Locks

/-- A process whose thread the CPU does not execute: it stays where it is, or its slot was free
and `fork` takes it. -/
structure Kept (s t : State n Λ γ) (q : Fin n) : Prop where
  pc : (t.pc q = s.pc q ∧ t.saved q = s.saved q) ∨
    (t.pc q = .forkret ∧ t.saved q = none ∧ (s.proc q).state = .unused)
  calls : t.calls q = s.calls q
  wakeups : t.wakeups q = s.wakeups q

/-- The process that a CPU executes sets `p->chan` and becomes `SLEEPING`. -/
def FallsAsleep (c : γ) (s t : State n Λ γ) (q : Fin n) : Prop :=
  s.exec c = .thread q ∧ ∃ chan l ret, s.pc q = .sleepSet chan l ret ∧
    t.pc q = .sched (.sleep chan l ret) ∧ (t.proc q).chan = some chan ∧ (t.proc q).state = .sleeping

structure Beside (c : γ) (s t : State n Λ γ) : Prop where
  kept : ∀ q, s.exec c ≠ .thread q → Kept s t q
  calm : ∀ q, Calm (s.proc q) (t.proc q) ∨ FallsAsleep c s t q
  lk : ∀ l c', c' ≠ c → s.lk l = some c' → t.lk l = some c'
  exec : ∀ c', c' ≠ c → t.exec c' = s.exec c'

/-- The thread of `p` goes to `y` and calls neither `sleep` nor a handler. -/
structure Goes (s t : State n Λ γ) (p : Fin n) (y : Pc n Λ) : Prop where
  pc : t.pc p = y
  saved : t.saved p = s.saved p
  calls : t.calls p = s.calls p

/-- A step of the thread of `p` from `x`: it leads to a place that follows, or it is a call of
`sleep`. -/
structure Advances (c : γ) (p : Fin n) (x : Pc n Λ) (s t : State n Λ γ) : Prop where
  beside : Beside c s t
  own : (∃ y, Goes s t p y ∧ y.follows x) ∨ (t.calls p = s.calls p + 1 ∧ x.plain = true)

theorem Quiet.goto (h : Quiet c p s u) (hc : s.exec c = .thread p) (hy : y.follows x) :
    Advances c p x s (u.goto p y) := by
  refine ⟨⟨fun q hq => ?_, fun q => .inl (h.calm q), h.lk, h.exec⟩,
    .inl ⟨y, ⟨by simp [State.goto], by rw [← h.saved]; rfl, by rw [← h.calls]; rfl⟩, hy⟩⟩
  have hne : q ≠ p := by
    rintro rfl
    exact hq hc
  refine ⟨.inl ⟨?_, by rw [← h.saved]; rfl⟩, by rw [← h.calls]; rfl, h.wakeups q hne⟩
  rw [← h.pc]
  exact update_of_ne hne _ _

theorem Quiet.stay (h : Quiet c p s t) (hc : s.exec c = .thread p) (hy : (s.pc p).follows x) :
    Advances c p x s t := by
  have hgoto := h.goto hc hy
  rwa [State.goto, ← h.pc, update_eq_self] at hgoto

theorem Quiet.callSleep (h : Quiet c p s u) (hc : s.exec c = .thread p) (hx : x.plain = true) (chan : Chan n)
    (l : SpinLock Λ) (ret : Ret) : Advances c p x s (u.callSleep p chan l ret) := by
  refine ⟨⟨fun q hq => ?_, fun q => .inl (h.calm q), h.lk, h.exec⟩, .inr ⟨?_, hx⟩⟩
  · have hne : q ≠ p := by
      rintro rfl
      exact hq hc
    refine ⟨.inl ⟨?_, by rw [← h.saved]; rfl⟩, ?_, h.wakeups q hne⟩
    · rw [← h.pc]
      exact update_of_ne hne _ _
    · rw [← h.calls]
      exact update_of_ne hne _ _
  · rw [← h.calls]
    exact update_self _ _ _

theorem advances_asleep {chan : Chan n} {ret : Ret} (hc : s.exec c = .thread p)
    (hpc : s.pc p = .sleepSet chan l ret) : Advances c p (.sleepSet chan l ret) s
      ((s.setProc p { s.proc p with chan := some chan, state := .sleeping }).goto p
        (.sched (.sleep chan l ret))) := by
  refine ⟨⟨fun q hq => ?_, fun q => ?_, fun _ _ _ hl => hl, fun _ _ => rfl⟩,
    .inl ⟨_, ⟨by simp [State.goto], rfl, rfl⟩, rfl⟩⟩
  · have hne : q ≠ p := by
      rintro rfl
      exact hq hc
    exact ⟨.inl ⟨by simp [State.goto, State.setProc, hne], rfl⟩, rfl, rfl⟩
  · rcases eq_or_ne q p with rfl | hne
    · exact .inr ⟨hc, chan, l, ret, hpc, by simp [State.goto], by simp [State.goto, State.setProc],
        by simp [State.goto, State.setProc]⟩
    · refine .inl ?_
      simpa [State.goto, State.setProc, hne] using Calm.refl (s.proc q)

variable [DecidableEq γ]

theorem advances_forked (h : Inv s) (hc : s.exec c = .thread p) (hpc : s.pc p = .forkHold np)
    (hunused : (s.proc np).state = .unused)
    (hu : ({ (s.setProc np { s.proc np with state := .used, pid := s.nextpid }).goto np .forkret with
      saved := update s.saved np none
      nextpid := s.nextpid + 1 } : State n Λ γ).releaseProc c np = some t) :
    Advances c p (.forkHold np) s (t.goto p (.forkWait np)) := by
  have hrunning := h.running_of_thread hc (by rw [hpc]; rfl)
  obtain ⟨-, rfl⟩ := State.releaseProc_eq hu
  have hpnp : p ≠ np := by
    rintro rfl
    rw [hrunning] at hunused
    cases hunused
  refine ⟨⟨fun q hq => ?_, fun q => .inl ?_, fun _ _ _ hl => hl, fun _ _ => rfl⟩,
    .inl ⟨.forkWait np, ⟨by simp [State.goto], by simp [State.goto, hpnp], rfl⟩, rfl⟩⟩
  · have hne : q ≠ p := by
      rintro rfl
      exact hq hc
    rcases eq_or_ne q np with rfl | hnp
    · exact ⟨.inr ⟨by simp [State.goto, hne], by simp [State.goto], hunused⟩, rfl, rfl⟩
    · exact ⟨.inl ⟨by simp [State.goto, State.setProc, hne, hnp], by simp [State.goto, hnp]⟩, rfl, rfl⟩
  · have hused : Calm (s.proc np) { s.proc np with state := .used, pid := s.nextpid } :=
      .of_ne (by rintro ⟨⟩) (by rintro ⟨⟩) rfl
    exact hused.setProc q

variable [DecidableEq Λ]

theorem Change.advances (hd : Change c p x s t) (h : Inv s) (hc : s.exec c = .thread p) (hpc : s.pc p = x) :
    Advances c p x s t := by
  cases hd with
  | goto step next =>
    subst step
    exact (Quiet.refl c p s).goto hc next.follows
  | @wakeup q v chan ret step next _ state same =>
    subst step
    have hset : Quiet c p s (s.setProc q v) := .setProc (.of_eq state same)
    exact (hset.trans (.countWakeup _ _)).goto hc next.follows
  | acquireProc step next =>
    obtain ⟨u, hu, rfl⟩ := Option.map_eq_some_iff.1 step
    exact (Quiet.acquireProc hu).goto hc next.follows
  | @releaseProc q v k y step next _ _ calm =>
    obtain ⟨u, hu, rfl⟩ := Option.map_eq_some_iff.1 step
    have hset : Quiet c p s (s.setProc q v) := .setProc calm
    exact ((hset.trans (.setPid _ k)).trans (.releaseProc hu)).goto hc next.follows
  | acquire step next =>
    obtain ⟨u, hu, rfl⟩ := Option.map_eq_some_iff.1 step
    exact (Quiet.acquire hu).goto hc next.follows
  | @release l q v y step next _ state same =>
    obtain ⟨u, hu, rfl⟩ := Option.map_eq_some_iff.1 step
    have hset : Quiet c p s (s.setProc q v) := .setProc (.of_eq state same)
    exact (hset.trans (.release hu)).goto hc next.follows
  | yield place step =>
    subst place step
    have hset : Quiet c p s (s.setState p .runnable) := .setProc (.of_ne (by rintro ⟨⟩) (by rintro ⟨⟩) rfl)
    exact hset.goto hc rfl
  | asleep place step =>
    subst place step
    exact advances_asleep hc hpc
  | zombie place step =>
    subst place
    obtain ⟨u, hu, rfl⟩ := Option.map_eq_some_iff.1 step
    have hset : Quiet c p s (s.setState p .zombie) := .setProc (.of_ne (by rintro ⟨⟩) (by rintro ⟨⟩) rfl)
    exact (hset.trans (.release hu)).goto hc rfl
  | sched place step =>
    subst place step
    have hexec : Quiet c p s { s with exec := update s.exec c (.leaving p) } :=
      ⟨rfl, rfl, rfl, fun _ _ => rfl, fun _ => .refl _, fun _ _ _ hl => hl, fun c' hne => update_of_ne hne _ _⟩
    exact hexec.goto hc rfl
  | forked place unused step =>
    subst place
    obtain ⟨u, hu, rfl⟩ := Option.map_eq_some_iff.1 step
    exact advances_forked h hc hpc unused hu
  | sleep place step =>
    subst place
    obtain ⟨u, hu, rfl⟩ := Option.map_eq_some_iff.1 step
    exact (Quiet.releaseProc hu).callSleep hc rfl _ _ _

theorem stepThread_advances (h : Inv s) (hc : s.exec c = .thread p) (hpc : s.pc p = x)
    (hstep : stepThread initproc s c p ok x = some t) : Advances c p x s t :=
  (stepThread_change h hc hpc hstep).advances h hc hpc

omit [DecidableEq Λ] [DecidableEq γ] in
theorem Beside.of_scheduler (hpc : t.pc = s.pc) (hsaved : t.saved = s.saved) (hcalls : t.calls = s.calls)
    (hwakeups : t.wakeups = s.wakeups) (hlk : t.lk = s.lk) (hexec : ∀ c', c' ≠ c → t.exec c' = s.exec c')
    (hcalm : ∀ q, Calm (s.proc q) (t.proc q)) : Beside c s t := by
  refine ⟨fun q _ => ⟨.inl ⟨?_, ?_⟩, ?_, ?_⟩, fun q => .inl (hcalm q), fun l c' _ hl => ?_, hexec⟩
  · rw [hpc]
  · rw [hsaved]
  · rw [hcalls]
  · rw [hwakeups]
  · rwa [hlk]

omit [DecidableEq Λ] in
theorem Beside.schedGoto (z : SchedPc n) : Beside c s (s.schedGoto c z) :=
  .of_scheduler rfl rfl rfl rfl rfl (fun _ _ => rfl) (fun _ => .refl _)

omit [DecidableEq Λ] in
theorem stepScheduler_beside {z : SchedPc n} (hstep : stepScheduler s c z = some t) : Beside c s t := by
  have hacquire : ∀ {q z}, (s.acquireProc c q).map (·.schedGoto c z) = some t → Beside c s t := by
    intro q z hstep
    obtain ⟨u, hu, rfl⟩ := Option.map_eq_some_iff.1 hstep
    obtain ⟨-, rfl⟩ := State.acquireProc_eq hu
    exact .of_scheduler rfl rfl rfl rfl rfl (fun _ _ => rfl) (fun _ => .refl _)
  cases z with
  | loop i =>
    rw [stepScheduler] at hstep
    split at hstep
    · exact hacquire hstep
    · cases hstep
      exact .schedGoto _
  | test q =>
    rw [stepScheduler] at hstep
    split at hstep
    · cases hstep
      exact .of_scheduler rfl rfl rfl rfl rfl (fun _ _ => rfl)
        (Calm.setProc (.of_ne (by rintro ⟨⟩) (by rintro ⟨⟩) rfl))
    · cases hstep
      exact .schedGoto _
  | switch q =>
    cases hstep
    exact .of_scheduler rfl rfl rfl rfl rfl (fun _ hne => update_of_ne hne _ _) (fun _ => .refl _)
  | away q => cases hstep
  | back q =>
    cases hstep
    exact .of_scheduler rfl rfl rfl rfl rfl (fun _ _ => rfl) (fun _ => .refl _)
  | unlock q =>
    obtain ⟨u, hu, rfl⟩ := Option.map_eq_some_iff.1 hstep
    obtain ⟨-, rfl⟩ := State.releaseProc_eq hu
    exact .of_scheduler rfl rfl rfl rfl rfl (fun _ _ => rfl) (fun _ => .refl _)
  | handler i => cases hstep
  | wake chan j i =>
    rw [stepScheduler] at hstep
    split at hstep
    · split at hstep
      · cases hstep
        exact .schedGoto _
      · exact hacquire hstep
    · cases hstep
      exact .schedGoto _
  | wakeHold chan q i =>
    obtain ⟨u, hu, rfl⟩ := Option.map_eq_some_iff.1 hstep
    obtain ⟨-, rfl⟩ := State.releaseProc_eq hu
    exact .of_scheduler rfl rfl rfl rfl rfl (fun _ _ => rfl) (Calm.setProc (.wake _ chan))

def Action.cpu : Action n Λ γ → γ
  | .go c _ | .call c _ | .trap c | .ret c => c

theorem stepCall_advances {f : Call n Λ} (hc : s.exec c = .thread p) (hpc : s.pc p = .kernel)
    (hstep : stepCall initproc s c p f = some t) : Advances c p .kernel s t := by
  have hkernel : (s.pc p).follows .kernel := by
    rw [hpc]
    rfl
  have hentry : ∀ {y : Pc n Λ}, y.plain = true →
      (s.current c).map (fun q => { s.goto p y with me := update s.me p q }) = some t →
      Advances c p .kernel s t := by
    intro y hy hstep
    obtain ⟨q, -, rfl⟩ := Option.map_eq_some_iff.1 hstep
    exact (Quiet.setMe s (update s.me p q)).goto hc (x := .kernel) hy
  cases f with
  | acquire l => exact (Quiet.acquire hstep).stay hc hkernel
  | release l => exact (Quiet.release hstep).stay hc hkernel
  | wakeup chan =>
    cases hstep
    exact (Quiet.countWakeup s _).goto hc rfl
  | yield => exact hentry rfl hstep
  | kill pid =>
    obtain ⟨-, hstep⟩ := Option.ite_none_right_eq_some.1 hstep
    cases hstep
    exact (Quiet.refl c p s).goto hc rfl
  | sleep chan l =>
    obtain ⟨-, hstep⟩ := Option.ite_none_right_eq_some.1 hstep
    obtain ⟨q, -, rfl⟩ := Option.map_eq_some_iff.1 hstep
    exact (Quiet.setMe s (update s.me p q)).callSleep hc (x := .kernel) rfl chan l .kernel
  | fork | exit | wait =>
    obtain ⟨-, hstep⟩ := Option.ite_none_right_eq_some.1 hstep
    exact hentry rfl hstep

omit [DecidableEq Λ] in
theorem stepTrap_beside (hstep : stepTrap s c = some t) : Beside c s t := by
  simp only [stepTrap] at hstep
  split at hstep
  · rename_i p hc
    split at hstep
    · cases hstep
      refine ⟨fun q hq => ⟨.inl ⟨?_, ?_⟩, rfl, rfl⟩, fun _ => .inl (.refl _), fun _ _ _ hl => hl, fun _ _ => rfl⟩
      all_goals
        have hne : q ≠ p := by
          rintro rfl
          exact hq hc
        simp [State.goto, hne]
    · cases hstep
  · split at hstep
    · cases hstep
      exact .schedGoto _
    · cases hstep
  · cases hstep

omit [DecidableEq Λ] in
theorem stepRet_beside (hstep : stepRet s c = some t) : Beside c s t := by
  simp only [stepRet] at hstep
  split at hstep
  · rename_i p hc
    split at hstep
    · cases hstep
      refine ⟨fun q hq => ⟨.inl ⟨?_, ?_⟩, rfl, rfl⟩, fun _ => .inl (.refl _), fun _ _ _ hl => hl, fun _ _ => rfl⟩
      all_goals
        have hne : q ≠ p := by
          rintro rfl
          exact hq hc
        simp [State.goto, hne]
    · cases hstep
  · cases hstep
    exact .schedGoto _
  · cases hstep

theorem step_beside {a : Action n Λ γ} (h : Inv s) (hstep : step initproc s a = some t) :
    Beside a.cpu s t := by
  cases a with
  | go c ok =>
    simp only [step] at hstep
    split at hstep
    · rename_i p hc
      exact (stepThread_advances h hc rfl hstep).beside
    · rename_i p hc
      rw [stepLeave, (h.exec c p).1 (by rw [hc]; rfl)] at hstep
      cases hstep
      exact .of_scheduler rfl rfl rfl rfl rfl (fun _ hne => update_of_ne hne _ _) (fun _ => .refl _)
    · exact stepScheduler_beside hstep
  | call c f =>
    simp only [step] at hstep
    split at hstep
    · rename_i p hc
      obtain ⟨hpc, hstep⟩ := Option.ite_none_right_eq_some.1 hstep
      exact (stepCall_advances hc hpc hstep).beside
    · rename_i i hc hspc
      cases f with
      | acquire l =>
        have hlk := (Quiet.acquire (p := initproc) hstep).lk
        simp only [stepHandler, State.acquire] at hstep
        split at hstep
        · cases hstep
          exact ⟨fun q _ => ⟨.inl ⟨rfl, rfl⟩, rfl, rfl⟩, fun _ => .inl (.refl _), hlk, fun _ _ => rfl⟩
        · cases hstep
      | release l =>
        have hlk := (Quiet.release (p := initproc) hstep).lk
        simp only [stepHandler, State.release] at hstep
        split at hstep
        · cases hstep
          exact ⟨fun q _ => ⟨.inl ⟨rfl, rfl⟩, rfl, rfl⟩, fun _ => .inl (.refl _), hlk, fun _ _ => rfl⟩
        · cases hstep
      | wakeup chan =>
        cases hstep
        exact .schedGoto _
      | _ => cases hstep
    · cases hstep
  | trap c => exact stepTrap_beside hstep
  | ret c => exact stepRet_beside hstep

end Xv6.Scheduling
