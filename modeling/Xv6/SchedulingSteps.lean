import Xv6.SchedulingSwitch

/-!
# Every step keeps the discipline

What a step of a thread can change is said once, in `Change`, and what it keeps is drawn from
that.
-/

namespace Xv6.Scheduling

open Function HeldLocks ProcessTable

variable {n : ℕ} {Λ γ : Type} {s t : State n Λ γ} {c c' : γ} {p q np initproc : Fin n} {x y : Pc n Λ}
  {v w : Proc n} {ok : Bool}

/-- A process is not put to sleep and gets no channel, and one that stays asleep does so on
its channel. -/
structure Calm (v w : Proc n) : Prop where
  sleeping : w.state = .sleeping → v.state = .sleeping ∧ w.chan = v.chan
  chan : w.chan = v.chan ∨ w.chan = none
  unused : w.state = .unused → v.state = .unused ∨ w.chan = none

theorem Calm.refl (v : Proc n) : Calm v v := ⟨fun hsleep => ⟨hsleep, rfl⟩, .inl rfl, .inl⟩

theorem Calm.trans (h : Calm v w) {z : Proc n} (h' : Calm w z) : Calm v z where
  sleeping := fun hsleep => by
    obtain ⟨hmid, hchan⟩ := h'.sleeping hsleep
    obtain ⟨hold, hchan'⟩ := h.sleeping hmid
    exact ⟨hold, hchan.trans hchan'⟩
  chan := by
    rcases h'.chan with hsame | hnone
    · rw [hsame]
      exact h.chan
    · exact .inr hnone
  unused := fun hunused => by
    rcases h'.unused hunused with hmid | hnone
    · rcases h.unused hmid with hold | hnone
      · exact .inl hold
      · rcases h'.chan with hsame | hnone'
        · exact .inr (hsame.trans hnone)
        · exact .inr hnone'
    · exact .inr hnone

theorem Calm.of_ne (hsleep : w.state ≠ .sleeping) (hunused : w.state ≠ .unused) (hchan : w.chan = v.chan) :
    Calm v w :=
  ⟨fun h => absurd h hsleep, .inl hchan, fun h => absurd h hunused⟩

theorem Calm.of_eq (hstate : w.state = v.state) (hchan : w.chan = v.chan) : Calm v w :=
  ⟨fun hsleep => ⟨hstate ▸ hsleep, hchan⟩, .inl hchan, fun hunused => .inl (hstate ▸ hunused)⟩

theorem Calm.free (v : Proc n) : Calm v freeproc := ⟨by rintro ⟨⟩, .inr rfl, fun _ => .inr rfl⟩

theorem Calm.wake (v : Proc n) (chan : Option (Chan n)) : Calm v (v.wake chan) := by
  rw [Proc.wake]
  split
  · exact .of_ne (by rintro ⟨⟩) (by rintro ⟨⟩) rfl
  · exact .refl v

theorem Calm.kill (v : Proc n) : Calm v v.kill := by
  refine ⟨fun hsleep => ?_, .inl rfl, fun hunused => ?_⟩
  · simp only [Proc.kill] at hsleep
    split at hsleep
    · cases hsleep
    · rename_i hnot
      exact absurd hsleep hnot
  · simp only [Proc.kill] at hunused
    split at hunused
    · cases hunused
    · exact .inl hunused

/-- Away from `sleep` and `sched`. -/
def Pc.plain : Pc n Λ → Bool
  | .sleepAcquire .. | .sleepRelease .. | .sleepSet .. | .sched _ | .back _ => false
  | _ => true

/-- Where a thread goes from a place, unless it calls `sleep`. -/
def Pc.follows (y : Pc n Λ) : Pc n Λ → Prop
  | .sleepAcquire chan l ret => y = .sleepRelease chan l ret
  | .sleepRelease chan l ret => y = .sleepSet chan l ret
  | .sleepSet chan l ret => y = .sched (.sleep chan l ret)
  | .yieldSet => y = .sched .yield
  | .exitZombie => y = .sched .exit
  | .sched k => y = .back k
  | _ => y.plain = true

theorem Ret.plain_pc (ret : Ret) : (ret.pc : Pc n Λ).plain = true := by
  cases ret <;> rfl

theorem WakeRet.plain_pc (ret : WakeRet) : (ret.pc : Pc n Λ).plain = true := by
  cases ret <;> rfl

theorem Ret.locked_pc (ret : Ret) : (ret.pc : Pc n Λ).locked p = none ∧ (ret.pc : Pc n Λ).child = none := by
  cases ret <;> exact ⟨rfl, rfl⟩

theorem WakeRet.locked_pc (ret : WakeRet) :
    (ret.pc : Pc n Λ).locked p = none ∧ (ret.pc : Pc n Λ).child = none := by
  cases ret <;> exact ⟨rfl, rfl⟩

theorem Proc.wake_state (v : Proc n) (chan : Option (Chan n)) :
    ((v.wake chan).state = .running ↔ v.state = .running) ∧
      (v.state = .used → (v.wake chan).state = .used) := by
  rw [Proc.wake]
  split
  · rename_i hsleep
    simp [hsleep.1]
  · exact ⟨Iff.rfl, id⟩

theorem Proc.kill_state (v : Proc n) :
    (v.kill.state = .running ↔ v.state = .running) ∧ (v.state = .used → v.kill.state = .used) := by
  simp only [Proc.kill]
  split
  · rename_i hsleep
    simp [hsleep]
  · exact ⟨Iff.rfl, id⟩

theorem Inv.myproc (h : Inv s) (hc : s.exec c = .thread p) : s.current c = some p := by
  rw [h.current, (h.exec c p).1 (by rw [hc]; rfl)]
  rfl

theorem State.setProc_self (s : State n Λ γ) (q : Fin n) : s.setProc q (s.proc q) = s := by
  rw [State.setProc, update_eq_self]

/-- Where a thread goes on from `x`, unless it gives up the CPU. -/
structure Pc.Next (x y : Pc n Λ) : Prop where
  follows : y.follows x
  same : x.changed = false
  still : y.changed = false
  hand : x.inHandler = true → y.inHandler = true
  child : y.child = none ∨ y.child = x.child

variable [DecidableEq γ]

/-- What a step of the thread of `p` on CPU `c` changes, from its place `x`. -/
inductive Change [DecidableEq Λ] (c : γ) (p : Fin n) (x : Pc n Λ) (s t : State n Λ γ) : Prop
  | goto {y : Pc n Λ} (step : s.goto p y = t) (next : x.Next y) (locked : y.locked p = x.locked p)
  | wakeup {q : Fin n} {v : Proc n} {chan : Option (Chan n)} {ret : WakeRet}
      (step : (s.setProc q v).callWakeup p chan ret = t) (next : x.Next (.wake chan 0 ret))
      (free : x.locked p = none) (state : v.state = (s.proc q).state) (chan : v.chan = (s.proc q).chan)
  | acquireProc {q : Fin n} {y : Pc n Λ} (step : (s.acquireProc c q).map (·.goto p y) = some t)
      (next : x.Next y) (free : x.locked p = none) (locked : y.locked p = some q)
  | releaseProc {q : Fin n} {v : Proc n} {k : BitVec 32} {y : Pc n Λ}
      (step : (({ s.setProc q v with nextpid := k } : State n Λ γ).releaseProc c q).map (·.goto p y) = some t)
      (next : x.Next y) (held : x.locked p = some q) (locked : y.locked p = none)
      (calm : Calm (s.proc q) v) (run : v.state = .running ↔ (s.proc q).state = .running)
      (used : ∀ p', t.child p' = some q → (s.proc q).state = .used → v.state = .used)
  | acquire {l : SpinLock Λ} {y : Pc n Λ} (step : (s.acquire c l).map (·.goto p y) = some t)
      (next : x.Next y) (locked : y.locked p = x.locked p)
  | release {l : SpinLock Λ} {q : Fin n} {v : Proc n} {y : Pc n Λ}
      (step : ((s.setProc q v).release c l).map (·.goto p y) = some t)
      (next : x.Next y) (locked : y.locked p = x.locked p)
      (state : v.state = (s.proc q).state) (chan : v.chan = (s.proc q).chan)
  | yield (place : x = .yieldSet) (step : (s.setState p .runnable).goto p (.sched .yield) = t)
  | asleep {chan : Chan n} {l : SpinLock Λ} {ret : Ret} (place : x = .sleepSet chan l ret)
      (step : (s.setProc p { s.proc p with chan := some chan, state := .sleeping }).goto p
        (.sched (.sleep chan l ret)) = t)
  | zombie (place : x = .exitZombie)
      (step : ((s.setState p .zombie).release c .waitLock).map (·.goto p (.sched .exit)) = some t)
  | sched {k : After n Λ} (place : x = .sched k)
      (step : { s.goto p (.back k) with exec := update s.exec c (.leaving p) } = t)
  | forked {np : Fin n} (place : x = .forkHold np) (unused : (s.proc np).state = .unused)
      (step : (({ (s.setProc np { s.proc np with state := .used, pid := s.nextpid }).goto np .forkret with
        saved := update s.saved np none
        nextpid := s.nextpid + 1 } : State n Λ γ).releaseProc c np).map (·.goto p (.forkWait np)) = some t)
  | sleep (place : x = .waitKilled)
      (step : (s.releaseProc c p).map (·.callSleep p (.proc p) .waitLock .wait) = some t)

theorem State.acquireProc_eq (hacq : s.acquireProc c q = some t) :
    s.lock q = none ∧ t = { s with
      lock := update s.lock q (some c), noff := update s.noff c (s.noff c + 1) } := by
  rw [State.acquireProc] at hacq
  split at hacq
  · rename_i hlock
    cases hacq
    exact ⟨hlock, rfl⟩
  · cases hacq

theorem State.releaseProc_eq (hrel : s.releaseProc c q = some t) :
    s.lock q = some c ∧ t = { s with
      lock := update s.lock q none, noff := update s.noff c (s.noff c - 1) } := by
  rw [State.releaseProc] at hrel
  split at hrel
  · rename_i hlock
    cases hrel
    exact ⟨hlock, rfl⟩
  · cases hrel

variable [DecidableEq Λ]

theorem Change.releaseProc_same (hstep : (s.releaseProc c q).map (·.goto p y) = some t) (hnext : x.Next y)
    (hheld : x.locked p = some q) (hlocked : y.locked p = none) : Change c p x s t := by
  rw [← s.setProc_self q] at hstep
  exact .releaseProc (k := s.nextpid) hstep hnext hheld hlocked (.refl _) Iff.rfl (fun _ _ hu => hu)

theorem Change.release_same {l : SpinLock Λ} (hstep : (s.release c l).map (·.goto p y) = some t)
    (hnext : x.Next y) (hlocked : y.locked p = x.locked p) : Change c p x s t := by
  rw [← s.setProc_self p] at hstep
  exact .release hstep hnext hlocked rfl rfl

theorem stepForkHold_change (hstep : stepForkHold s c p np ok = some t) :
    Change c p (.forkHold np) s t := by
  rw [stepForkHold] at hstep
  split at hstep
  · rename_i hunused
    split at hstep
    · exact .forked rfl hunused hstep
    · refine .releaseProc (v := freeproc) hstep ⟨rfl, rfl, rfl, by rintro ⟨⟩, .inl rfl⟩ rfl rfl (.free _)
        (iff_of_false (by rintro ⟨⟩) ?_) (fun _ _ hused => ?_)
      · rw [hunused]
        rintro ⟨⟩
      · rw [hunused] at hused
        cases hused
  · exact .releaseProc_same hstep ⟨rfl, rfl, rfl, by rintro ⟨⟩, .inl rfl⟩ rfl rfl

theorem stepWaitHold_change (hstep : stepWaitHold s c p q ok = some t) :
    Change c p (.waitHold q) s t := by
  rw [stepWaitHold] at hstep
  split at hstep
  · rename_i hzombie
    split at hstep
    · refine .releaseProc (v := freeproc) (k := s.nextpid) hstep ⟨rfl, rfl, rfl, by rintro ⟨⟩, .inl rfl⟩ rfl rfl
        (.free _) (iff_of_false (by rintro ⟨⟩) ?_) (fun _ _ hused => ?_)
      · rw [hzombie]
        rintro ⟨⟩
      · rw [hzombie] at hused
        cases hused
    · exact .releaseProc_same hstep ⟨rfl, rfl, rfl, by rintro ⟨⟩, .inl rfl⟩ rfl rfl
  · exact .releaseProc_same hstep ⟨rfl, rfl, rfl, by rintro ⟨⟩, .inl rfl⟩ rfl rfl

theorem stepReparent_change {i : ℕ} : Change c p (.exitReparent i) s (stepReparent initproc s p i) := by
  rw [stepReparent]
  split
  · split
    · exact .wakeup rfl ⟨rfl, rfl, rfl, by rintro ⟨⟩, .inl rfl⟩ rfl rfl rfl
    · exact .goto rfl ⟨rfl, rfl, rfl, by rintro ⟨⟩, .inl rfl⟩ rfl
  · have hstep : (s.setProc p (s.proc p)).callWakeup p ((s.proc (s.me p)).parent.map .proc) .exitLock =
        s.callWakeup p ((s.proc (s.me p)).parent.map .proc) .exitLock := by rw [s.setProc_self]
    exact .wakeup hstep ⟨rfl, rfl, rfl, by rintro ⟨⟩, .inl rfl⟩ rfl rfl rfl

theorem stepForkRunnable_change (h : Inv s) (hpc : s.pc p = .forkRunnable np)
    (hstep : ((s.setState np .runnable).releaseProc c np).map (·.goto p .kernel) = some t) :
    Change c p (.forkRunnable np) s t := by
  have hchild : s.child p = some np := by
    rw [State.child, hpc]
    rfl
  have hsaved : s.saved p = none := by
    refine Option.eq_none_iff_forall_ne_some.2 (fun z hz => ?_)
    have hh := (h.saved p z hz).2.2
    rw [hpc] at hh
    cases hh
  have hstate := h.child p np hchild
  refine .releaseProc (k := s.nextpid) hstep ⟨rfl, rfl, rfl, by rintro ⟨⟩, .inl rfl⟩ rfl rfl
    (.of_ne (by rintro ⟨⟩) (by rintro ⟨⟩) rfl) (iff_of_false (by rintro ⟨⟩) ?_) (fun p' hp' => ?_)
  · rw [hstate]
    rintro ⟨⟩
  · -- No other process has this child, and `p` has it no more.
    obtain ⟨u, hu, rfl⟩ := Option.map_eq_some_iff.1 hstep
    obtain ⟨-, rfl⟩ := State.releaseProc_eq hu
    rcases eq_or_ne p' p with rfl | hne
    · simp [State.child, State.goto, State.setState, State.setProc, Pc.child, hsaved] at hp'
    · refine absurd (h.parents p' p np ?_ hchild) hne
      simpa [State.child, State.goto, State.setState, State.setProc, hne] using hp'

theorem stepThread_change (h : Inv s) (hc : s.exec c = .thread p) (hpc : s.pc p = x)
    (hstep : stepThread initproc s c p ok x = some t) : Change c p x s t := by
  have hown := h.me p
  cases x with
  | kernel => cases hstep
  | forkret =>
    rw [stepThread, h.myproc hc, Option.bind_some] at hstep
    exact .releaseProc_same hstep ⟨rfl, rfl, rfl, fun _ => rfl, .inl rfl⟩ rfl rfl
  | yieldAcquire =>
    rw [stepThread, hown] at hstep
    exact .acquireProc hstep ⟨rfl, rfl, rfl, fun _ => rfl, .inl rfl⟩ rfl rfl
  | sleepAcquire _ _ _ | exitLock =>
    rw [stepThread, hown] at hstep
    exact .acquireProc hstep ⟨rfl, rfl, rfl, by rintro ⟨⟩, .inl rfl⟩ rfl rfl
  | yieldSet =>
    rw [stepThread, hown] at hstep
    exact .yield rfl (Option.some.inj hstep)
  | sleepSet _ _ _ =>
    rw [stepThread, hown] at hstep
    exact .asleep rfl (Option.some.inj hstep)
  | exitZombie =>
    rw [stepThread, hown] at hstep
    exact .zombie rfl hstep
  | sleepRelease _ _ _ => exact .release_same hstep ⟨rfl, rfl, rfl, by rintro ⟨⟩, .inl rfl⟩ rfl
  | waitReturn => exact .release_same hstep ⟨rfl, rfl, rfl, fun _ => rfl, .inl rfl⟩ rfl
  | forkParent np => exact .release hstep ⟨rfl, rfl, rfl, by rintro ⟨⟩, .inr rfl⟩ rfl rfl rfl
  | sleepReturn _ ret =>
    obtain ⟨hlocked, hchild⟩ := ret.locked_pc (Λ := Λ) (p := p)
    exact .acquire hstep ⟨ret.plain_pc, rfl, Pc.changed_of_locked hlocked, by rintro ⟨⟩, .inl hchild⟩ hlocked
  | exitAcquire | waitAcquire => exact .acquire hstep ⟨rfl, rfl, rfl, by rintro ⟨⟩, .inl rfl⟩ rfl
  | forkWait np => exact .acquire hstep ⟨rfl, rfl, rfl, by rintro ⟨⟩, .inr rfl⟩ rfl
  | forkAcquire np => exact .acquireProc hstep ⟨rfl, rfl, rfl, by rintro ⟨⟩, .inr rfl⟩ rfl rfl
  | forkHold np => exact stepForkHold_change hstep
  | forkRunnable np => exact stepForkRunnable_change h hpc hstep
  | waitHold q => exact stepWaitHold_change hstep
  | exitReparent i =>
    cases hstep
    exact stepReparent_change
  | sched k =>
    rw [stepThread, stepSched, h.myproc hc] at hstep
    exact .sched rfl (Option.some.inj (Option.ite_none_right_eq_some.1 hstep).2)
  | back k =>
    cases k with
    | exit => cases hstep
    | yield =>
      rw [stepThread, stepBack, hown] at hstep
      exact .releaseProc_same hstep ⟨rfl, rfl, rfl, fun _ => rfl, .inl rfl⟩ rfl rfl
    | sleep chan l ret =>
      have hrunning := h.running_of_thread hc (by rw [hpc]; rfl)
      rw [stepThread, stepBack, hown] at hstep
      refine .releaseProc (k := s.nextpid) hstep ⟨rfl, rfl, rfl, by rintro ⟨⟩, .inl rfl⟩ rfl rfl
        ⟨fun hsleep => ?_, .inr rfl, fun _ => .inr rfl⟩ Iff.rfl (fun _ _ hu => hu)
      change (s.proc p).state = .sleeping at hsleep
      rw [hrunning] at hsleep
      cases hsleep
  | wake chan i ret =>
    rw [stepThread] at hstep
    split at hstep
    · split at hstep
      · refine .goto (Option.some.inj hstep) ⟨rfl, rfl, rfl, ?_, .inl rfl⟩ rfl
        cases ret <;> exact id
      · refine .acquireProc hstep ⟨rfl, rfl, rfl, ?_, .inl rfl⟩ rfl rfl
        cases ret <;> exact id
    · obtain ⟨hlocked, hchild⟩ := ret.locked_pc (Λ := Λ) (p := p)
      refine .goto (Option.some.inj hstep)
        ⟨ret.plain_pc, rfl, Pc.changed_of_locked hlocked, ?_, .inl hchild⟩ hlocked
      cases ret <;> exact id
  | wakeHold chan q ret =>
    obtain ⟨hrun, hused⟩ := (s.proc q).wake_state chan
    refine .releaseProc (k := s.nextpid) hstep ⟨rfl, rfl, rfl, ?_, .inl rfl⟩ rfl rfl (.wake _ chan) hrun
      (fun _ _ => hused)
    cases ret <;> exact id
  | kill pid i | forkScan i =>
    rw [stepThread] at hstep
    split at hstep
    · exact .acquireProc hstep ⟨rfl, rfl, rfl, by rintro ⟨⟩, .inl rfl⟩ rfl rfl
    · exact .goto (Option.some.inj hstep) ⟨rfl, rfl, rfl, fun _ => rfl, .inl rfl⟩ rfl
  | killHold pid q =>
    obtain ⟨hrun, hused⟩ := (s.proc q).kill_state
    rw [stepThread] at hstep
    split at hstep
    · exact .releaseProc (k := s.nextpid) hstep ⟨rfl, rfl, rfl, fun _ => rfl, .inl rfl⟩ rfl rfl (.kill _) hrun
        (fun _ _ => hused)
    · exact .releaseProc_same hstep ⟨rfl, rfl, rfl, by rintro ⟨⟩, .inl rfl⟩ rfl rfl
  | waitScan i havekids =>
    rw [stepThread, hown] at hstep
    split at hstep
    · split at hstep
      · exact .acquireProc hstep ⟨rfl, rfl, rfl, by rintro ⟨⟩, .inl rfl⟩ rfl rfl
      · exact .goto (Option.some.inj hstep) ⟨rfl, rfl, rfl, by rintro ⟨⟩, .inl rfl⟩ rfl
    · split at hstep
      · exact .acquireProc hstep ⟨rfl, rfl, rfl, by rintro ⟨⟩, .inl rfl⟩ rfl rfl
      · exact .goto (Option.some.inj hstep) ⟨rfl, rfl, rfl, by rintro ⟨⟩, .inl rfl⟩ rfl
  | waitKilled =>
    rw [stepThread, hown] at hstep
    split at hstep
    · exact .releaseProc_same hstep ⟨rfl, rfl, rfl, by rintro ⟨⟩, .inl rfl⟩ rfl rfl
    · exact .sleep rfl hstep

omit [DecidableEq γ] [DecidableEq Λ] in
theorem Inv.reset (h : Inv s) (hoff : ∀ c, (s.exec c).proc ≠ some np) :
    Inv { s.goto np .forkret with saved := Function.update s.saved np none } := by
  have hne : ∀ {c q}, s.exec c = .thread q → q ≠ np := by
    rintro c q hc rfl
    refine hoff c ?_
    rw [hc]
    rfl
  have hholds : State.holds { s.goto np .forkret with saved := Function.update s.saved np none } =
      s.holds := by
    funext c
    simp only [State.holds]
    cases hc : s.exec c with
    | thread q => simp [State.goto, hc, hne hc]
    | _ => simp [State.goto, hc]
  have hruns : State.runs { s.goto np .forkret with saved := Function.update s.saved np none } =
      s.runs := by
    funext c
    simp only [State.runs]
    cases hc : s.exec c with
    | thread q => simp [State.goto, hc, hne hc]
    | _ => simp [State.goto, hc]
  have hchild : ∀ {q q'}, State.child { s.goto np .forkret with
      saved := Function.update s.saved np none } q = some q' → s.child q = some q' := by
    intro q q' hq
    rcases eq_or_ne q np with rfl | hq'
    · simp [State.child, State.goto, Pc.child] at hq
    · simpa [State.child, State.goto, hq'] using hq
  refine ⟨h.me, h.current, h.exec, h.engaged, ?_, ?_, fun q => ?_, fun q hq => ?_, fun q z hz => ?_,
    fun q q' hq => h.child q q' (hchild hq), fun q q' x hq hq' => h.parents q q' x (hchild hq) (hchild hq')⟩
  · rw [hholds]
    exact h.lock
  · rw [hholds]
    exact h.depth
  · rw [hruns]
    exact h.running q
  · rcases eq_or_ne q np with rfl | hq'
    · simp [State.goto, Pc.parked]
    · simpa [State.goto, hq'] using h.parked q hq
  · rcases eq_or_ne q np with rfl | hq'
    · simp at hz
    · simp only [Function.update_of_ne hq'] at hz
      simpa [State.goto, hq'] using h.saved q z hz

omit [DecidableEq Λ] in
theorem Inv.forked (h : Inv s) (hc : s.exec c = .thread p) (hpc : s.pc p = .forkHold np)
    (hunused : (s.proc np).state = .unused)
    (hu : ({ (s.setProc np { s.proc np with state := .used, pid := s.nextpid }).goto np .forkret with
      saved := Function.update s.saved np none
      nextpid := s.nextpid + 1 } : State n Λ γ).releaseProc c np = some t) : Inv (t.goto p (.forkWait np)) := by
  have hnot : (s.proc np).state ≠ .running := by
    rw [hunused]
    rintro ⟨⟩
  have hne : p ≠ np := by
    rintro rfl
    exact hnot (h.running_of_thread hc (by rw [hpc]; rfl))
  have hnew : ∀ p', s.child p' ≠ some np := by
    intro p' hp'
    have hused := h.child p' np hp'
    rw [hunused] at hused
    cases hused
  have hoff : ∀ c', (s.exec c').proc ≠ some np := by
    refine h.exec_ne ((State.holds_thread hc).trans (by rw [hpc]; rfl)) ?_ hnot
    rw [hc]
    exact fun heq => hne (Option.some.inj heq)
  have hsaved : s.saved p = none := by
    refine Option.eq_none_iff_forall_ne_some.2 (fun z hz => ?_)
    have hh := (h.saved p z hz).2.2
    rw [hpc] at hh
    cases hh
  -- The release takes `p` to the kernel, and from there it has a child.
  have hreset := (h.reset hoff).ghosts (s.nextpid + 1) s.calls s.wakeups
  have hrel := hreset.goto_releaseProc (y := .kernel) (v := { s.proc np with state := .used, pid := s.nextpid })
    hc (by simpa [State.goto, hne] using hpc) hu rfl rfl rfl (iff_of_false (by rintro ⟨⟩) hnot) (fun _ => rfl)
    (.inl rfl) (fun _ _ _ => rfl)
  obtain ⟨-, rfl⟩ := State.releaseProc_eq hu
  have hchild := hrel.goto_forkWait np hc (by simp [State.goto])
    (by simpa [State.goto, State.setProc, hne] using hsaved) (by simp [State.goto, State.setProc])
    (fun p' hp' => hnew p' ?_)
  · simpa [State.goto] using hchild
  · rcases eq_or_ne p' p with rfl | hp
    · simp [State.child, State.goto, State.setProc, Pc.child, hne, hsaved] at hp'
    · rcases eq_or_ne p' np with rfl | hp2
      · simp [State.child, State.goto, State.setProc, Pc.child, hp] at hp'
      · simpa [State.child, State.goto, State.setProc, hp, hp2] using hp'

omit [DecidableEq Λ] in
theorem Inv.callWakeup {chan : Option (Chan n)} {ret : WakeRet} (h : Inv s) (hc : s.exec c = .thread p)
    (hpc : s.pc p = x) (hfree : x.locked p = none)
    (hhand : x.inHandler = true → (Pc.wake chan 0 ret : Pc n Λ).inHandler = true) :
    Inv (s.callWakeup p chan ret) :=
  (h.goto (y := .wake chan 0 ret) hc hpc hfree.symm (Pc.changed_of_locked hfree) rfl hhand
    (.inl rfl)).ghosts _ _ _

variable {l : SpinLock Λ}

theorem Inv.goto_acquire (h : Inv s) (hc : s.exec c = .thread p) (hpc : s.pc p = x) (hacq : s.acquire c l = some t)
    (hlocked : y.locked p = x.locked p) (hsame : x.changed = false)
    (hy : y.changed = false) (hhand : x.inHandler = true → y.inHandler = true)
    (hchild : y.child = none ∨ y.child = x.child) : Inv (t.goto p y) := by
  subst hpc
  have ht := h.acquire hacq
  rw [State.acquire] at hacq
  split at hacq
  · cases hacq
    exact ht.goto hc rfl hlocked hsame hy hhand hchild
  · cases hacq

theorem Inv.goto_release (h : Inv s) (hc : s.exec c = .thread p) (hpc : s.pc p = x) (hrel : s.release c l = some t)
    (hlocked : y.locked p = x.locked p) (hsame : x.changed = false)
    (hy : y.changed = false) (hhand : x.inHandler = true → y.inHandler = true)
    (hchild : y.child = none ∨ y.child = x.child) : Inv (t.goto p y) := by
  subst hpc
  have ht := h.release hrel
  rw [State.release] at hrel
  split at hrel
  · cases hrel
    exact ht.goto hc rfl hlocked hsame hy hhand hchild
  · cases hrel

theorem Change.inv (hd : Change c p x s t) (h : Inv s) (hc : s.exec c = .thread p) (hpc : s.pc p = x) :
    Inv t := by
  cases hd with
  | goto step next locked =>
    subst step
    exact h.goto hc hpc locked next.same next.still next.hand next.child
  | wakeup step next free state =>
    subst step
    exact Inv.callWakeup (h.setProc state) hc hpc free next.hand
  | acquireProc step next free locked =>
    obtain ⟨u, hu, rfl⟩ := Option.map_eq_some_iff.1 step
    exact h.goto_acquireProc hc hpc hu free locked next.still next.hand next.child
  | @releaseProc q v k y step next held locked _ run used =>
    obtain ⟨u, hu, rfl⟩ := Option.map_eq_some_iff.1 step
    exact (h.ghosts k s.calls s.wakeups).goto_releaseProc hc hpc hu held next.same locked run next.hand
      next.child used
  | acquire step next locked =>
    obtain ⟨u, hu, rfl⟩ := Option.map_eq_some_iff.1 step
    exact h.goto_acquire hc hpc hu locked next.same next.still next.hand next.child
  | release step next locked state =>
    obtain ⟨u, hu, rfl⟩ := Option.map_eq_some_iff.1 step
    exact (h.setProc state).goto_release hc hpc hu locked next.same next.still next.hand next.child
  | yield place step =>
    subst place step
    exact h.goto_sched hc hpc rfl rfl (by rintro ⟨⟩) (fun _ => rfl)
  | asleep place step =>
    subst place step
    exact h.goto_sched hc hpc rfl rfl (by rintro ⟨⟩) (by rintro ⟨⟩)
  | zombie place step =>
    subst place
    obtain ⟨u, hu, rfl⟩ := Option.map_eq_some_iff.1 step
    -- The state is given up first, and `wait_lock` released after.
    have hzombie := h.goto_sched (k := .exit) (v := { s.proc p with state := .zombie }) hc hpc rfl rfl
      (by rintro ⟨⟩) (by rintro ⟨⟩)
    obtain ⟨hl, hu⟩ := Option.ite_none_right_eq_some.1 hu
    cases hu
    refine hzombie.release (c := c) (l := .waitLock) ?_
    rw [State.release]
    exact if_pos hl
  | sched place step =>
    subst place step
    exact h.save hc hpc
  | forked place unused step =>
    subst place
    obtain ⟨u, hu, rfl⟩ := Option.map_eq_some_iff.1 step
    exact h.forked hc hpc unused hu
  | sleep place step =>
    subst place
    obtain ⟨u, hu, rfl⟩ := Option.map_eq_some_iff.1 step
    exact (h.goto_releaseProc_same hc hpc hu rfl rfl rfl (by rintro ⟨⟩) (.inl rfl)).ghosts _ _ _

theorem stepThread_inv (h : Inv s) (hc : s.exec c = .thread p) (hpc : s.pc p = x)
    (hstep : stepThread initproc s c p ok x = some t) : Inv t :=
  (stepThread_change h hc hpc hstep).inv h hc hpc

end Xv6.Scheduling
