import Xv6.SchedulingSteps
import Xv6.TransitionRuns

/-!
# One CPU per process

What holds in every state that CPUs, schedulers and processes can reach, whatever the order
of their steps.
-/

namespace Xv6.Scheduling

open Function HeldLocks ProcessTable TransitionRuns

variable {n : ℕ} {Λ γ : Type} [DecidableEq Λ] [DecidableEq γ] {s t : State n Λ γ} {c : γ}
  {p q initproc : Fin n} {z : SchedPc n}

omit [DecidableEq Λ] in
theorem stepScheduler_inv (h : Inv s) (hc : s.exec c = .scheduler) (hspc : s.spc c = z)
    (hstep : stepScheduler s c z = some t) : Inv t := by
  cases z with
  | loop i =>
    rw [stepScheduler] at hstep
    split at hstep
    · obtain ⟨u, hu, rfl⟩ := Option.map_eq_some_iff.1 hstep
      exact h.schedGoto_acquireProc hc hu (by rw [hspc]; rfl) (by rw [hspc]; rfl) rfl rfl
    · cases hstep
      exact h.schedGoto hc (by rw [hspc]; rfl) rfl (by rw [hspc]; rfl)
  | test q =>
    rw [stepScheduler] at hstep
    split at hstep
    · rename_i hstate
      exact h.choose hc hspc hstate (Option.some.inj hstep).symm
    · cases hstep
      exact h.schedGoto hc (by rw [hspc]; rfl) rfl (by rw [hspc]; rfl)
  | switch q =>
    cases hstep
    exact h.enter hc hspc
  | away q => cases hstep
  | back q =>
    cases hstep
    exact h.clear hc hspc
  | unlock q =>
    rw [stepScheduler] at hstep
    obtain ⟨u, hu, rfl⟩ := Option.map_eq_some_iff.1 hstep
    have hself : s.setProc q (s.proc q) = s := by
      rw [State.setProc, update_eq_self]
    rw [← hself] at hu
    exact h.schedGoto_releaseProc hc hu (by rw [hspc]; rfl) (by rw [hspc]; rfl) rfl rfl Iff.rfl id
  | handler i => cases hstep
  | wake chan j i =>
    rw [stepScheduler] at hstep
    split at hstep
    · split at hstep
      · cases hstep
        exact h.schedGoto hc (by rw [hspc]; rfl) rfl (by rw [hspc]; rfl)
      · obtain ⟨u, hu, rfl⟩ := Option.map_eq_some_iff.1 hstep
        exact h.schedGoto_acquireProc hc hu (by rw [hspc]; rfl) (by rw [hspc]; rfl) rfl rfl
    · cases hstep
      exact h.schedGoto hc (by rw [hspc]; rfl) rfl (by rw [hspc]; rfl)
  | wakeHold chan q i =>
    rw [stepScheduler] at hstep
    obtain ⟨u, hu, rfl⟩ := Option.map_eq_some_iff.1 hstep
    obtain ⟨hrun, hused⟩ := (s.proc q).wake_state chan
    exact h.schedGoto_releaseProc hc hu (by rw [hspc]; rfl) (by rw [hspc]; rfl) rfl rfl hrun hused

omit [DecidableEq Λ] in
/-- A thread calls a function. Those that a handler does not call are called outside one. -/
theorem Inv.goto_call {y : Pc n Λ} (h : Inv s) (hc : s.exec c = .thread p) (hpc : s.pc p = .kernel)
    (hlocked : y.locked p = none) (hchild : y.child = none)
    (hhand : s.saved p = none ∨ y.inHandler = true) : Inv (s.goto p y) := by
  have hm : Moved s (s.goto p y) p y := ⟨rfl, rfl, rfl, rfl⟩
  have hholds : Function.update s.holds c (y.locked p) = s.holds := by
    rw [update_eq_self_iff, State.holds_thread hc, hpc, hlocked]
    rfl
  have hold : ∀ {q np}, (s.goto p y).child q = some np → s.child q = some np :=
    fun hq => h.child_moved hm rfl (.inl hchild) hq
  refine h.thread_step hc hm h.me ?_ ?_ (fun q => ?_) (fun q x hx => ?_)
    (fun q np hq => h.child q np (hold hq)) (fun q q' np hq hq' => h.parents q q' np (hold hq) (hold hq'))
  · rw [hholds]
    exact h.lock
  · rw [hholds]
    exact h.depth
  · rw [State.runs_update hc (by rw [hpc]; rfl) (Pc.changed_of_locked hlocked)]
    exact h.running q
  · obtain ⟨hfree, hown, hhandler⟩ := h.saved q x hx
    refine ⟨hfree, hown, ?_⟩
    rcases eq_or_ne q p with rfl | hne
    · rw [hm.pc_self]
      rcases hhand with hnone | hhand
      · rw [State.goto, hnone] at hx
        cases hx
      · exact hhand
    · rwa [hm.pc_of_ne hne]

omit [DecidableEq Λ] [DecidableEq γ] in
theorem Inv.update_me (h : Inv s) (hc : s.exec c = .thread p) (hq : s.current c = some q) :
    Function.update s.me p q = s.me := by
  rw [h.myproc hc] at hq
  cases hq
  exact update_eq_self_iff.2 (h.me p).symm

theorem stepCall_inv {f : Call n Λ} (h : Inv s) (hc : s.exec c = .thread p) (hpc : s.pc p = .kernel)
    (hstep : stepCall initproc s c p f = some t) : Inv t := by
  cases f with
  | acquire l => exact h.acquire hstep
  | release l => exact h.release hstep
  | wakeup chan =>
    cases hstep
    exact h.callWakeup hc hpc rfl (fun _ => rfl)
  | yield =>
    obtain ⟨q, hq, rfl⟩ := Option.map_eq_some_iff.1 hstep
    rw [h.update_me hc hq]
    exact h.goto_call hc hpc rfl rfl (.inr rfl)
  | kill pid =>
    rw [stepCall] at hstep
    split at hstep
    · rename_i hsaved
      cases hstep
      exact h.goto_call hc hpc rfl rfl (.inl hsaved)
    · cases hstep
  | sleep chan l =>
    rw [stepCall] at hstep
    split at hstep
    · rename_i hsaved
      obtain ⟨q, hq, rfl⟩ := Option.map_eq_some_iff.1 hstep
      rw [h.update_me hc hq]
      exact (h.goto_call (y := .sleepAcquire chan l .kernel) hc hpc rfl rfl (.inl hsaved)).ghosts _ _ _
    · cases hstep
  | exit =>
    rw [stepCall] at hstep
    split at hstep
    · rename_i hsaved
      obtain ⟨q, hq, rfl⟩ := Option.map_eq_some_iff.1 hstep
      rw [h.update_me hc hq]
      exact h.goto_call hc hpc rfl rfl (.inl hsaved.1)
    · cases hstep
  | fork | wait =>
    rw [stepCall] at hstep
    split at hstep
    · rename_i hsaved
      obtain ⟨q, hq, rfl⟩ := Option.map_eq_some_iff.1 hstep
      rw [h.update_me hc hq]
      exact h.goto_call hc hpc rfl rfl (.inl hsaved)
    · cases hstep

theorem stepHandler_inv {f : Call n Λ} {i : ℕ} (h : Inv s) (hc : s.exec c = .scheduler)
    (hspc : s.spc c = .handler i) (hstep : stepHandler s c i f = some t) : Inv t := by
  cases f with
  | acquire l => exact h.acquire hstep
  | release l => exact h.release hstep
  | wakeup chan =>
    cases hstep
    exact h.schedGoto hc (by rw [hspc]; rfl) rfl (by rw [hspc]; rfl)
  | _ => cases hstep

omit [DecidableEq Λ] in
theorem stepTrap_inv (h : Inv s) (hstep : stepTrap s c = some t) : Inv t := by
  simp only [stepTrap] at hstep
  split at hstep
  · rename_i p hc
    split at hstep
    · rename_i hfree
      cases hstep
      have hnone : (s.pc p).locked p = none := by
        rw [← State.holds_thread hc]
        exact h.depth.holds_eq_none hfree.1
      have hholds : update s.holds c ((Pc.kernel : Pc n Λ).locked p) = s.holds := by
        rw [update_eq_self_iff, State.holds_thread hc, hnone]
        rfl
      have hchild : ∀ q, State.child { s.goto p .kernel with
          saved := update s.saved p (some (s.pc p, s.me p)) } q = s.child q := by
        intro q
        rcases eq_or_ne q p with rfl | hne
        · simp [State.child, State.goto, hfree.2, Pc.child]
        · simp [State.child, State.goto, hne]
      refine h.thread_step hc ⟨rfl, rfl, rfl, rfl⟩ h.me ?_ ?_ (fun q => ?_) (fun q z hz => ?_)
        (fun q np hq => ?_) (fun q q' np hq hq' => ?_)
      · rw [hholds]
        exact h.lock
      · rw [hholds]
        exact h.depth
      · rw [State.runs_update hc (Pc.changed_of_locked hnone) rfl]
        exact h.running q
      · rcases eq_or_ne q p with rfl | hne
        · simp only [update_self, Option.some.injEq] at hz
          subst hz
          exact ⟨hnone, h.me q, by simp [State.goto, Pc.inHandler]⟩
        · simp only [update_of_ne hne] at hz
          simpa [State.goto, hne] using h.saved q z hz
      · exact h.child q np ((hchild q) ▸ hq)
      · exact h.parents q q' np ((hchild q) ▸ hq) ((hchild q') ▸ hq')
    · cases hstep
  · rename_i i hc hspc
    split at hstep
    · cases hstep
      exact h.schedGoto hc (by rw [hspc]; rfl) rfl (by rw [hspc]; rfl)
    · cases hstep
  · cases hstep

omit [DecidableEq Λ] in
theorem stepRet_inv (h : Inv s) (hstep : stepRet s c = some t) : Inv t := by
  simp only [stepRet] at hstep
  split at hstep
  · rename_i p hc
    split at hstep
    · rename_i x q hpc hsaved
      cases hstep
      obtain ⟨hnone, hown, -⟩ := h.saved p _ hsaved
      have hholds : update s.holds c (x.locked p) = s.holds := by
        rw [update_eq_self_iff, State.holds_thread hc, hpc, hnone]
        rfl
      have hchild : ∀ q', State.child { s.goto p x with
          me := update s.me p q, saved := update s.saved p none } q' = s.child q' := by
        intro q'
        rcases eq_or_ne q' p with rfl | hne
        · simp [State.child, State.goto, hpc, hsaved, Pc.child]
        · simp [State.child, State.goto, hne]
      refine h.thread_step hc ⟨rfl, rfl, rfl, rfl⟩ (fun q' => ?_) ?_ ?_ (fun q' => ?_) (fun q' z hz => ?_)
        (fun q' np hq => ?_) (fun q' q'' np hq hq' => ?_)
      · rcases eq_or_ne q' p with rfl | hne
        · simpa using hown
        · simpa [hne] using h.me q'
      · rw [hholds]
        exact h.lock
      · rw [hholds]
        exact h.depth
      · rw [State.runs_update hc (by rw [hpc]; rfl) (Pc.changed_of_locked hnone)]
        exact h.running q'
      · rcases eq_or_ne q' p with rfl | hne
        · simp at hz
        · simp only [update_of_ne hne] at hz
          simpa [State.goto, hne] using h.saved q' z hz
      · exact h.child q' np ((hchild q') ▸ hq)
      · exact h.parents q' q'' np ((hchild q') ▸ hq) ((hchild q'') ▸ hq')
    · cases hstep
  · rename_i i hc hspc
    cases hstep
    exact h.schedGoto hc (by rw [hspc]; rfl) rfl (by rw [hspc]; rfl)
  · cases hstep

theorem step_inv {a : Action n Λ γ} (h : Inv s) (hstep : step initproc s a = some t) : Inv t := by
  cases a with
  | go c ok =>
    simp only [step] at hstep
    split at hstep
    · rename_i p hc
      exact stepThread_inv h hc rfl hstep
    · rename_i p hc
      exact h.leave hc hstep
    · rename_i hc
      exact stepScheduler_inv h hc rfl hstep
  | call c f =>
    simp only [step] at hstep
    split at hstep
    · rename_i p hc
      split at hstep
      · rename_i hpc
        exact stepCall_inv h hc hpc hstep
      · cases hstep
    · rename_i i hc hspc
      exact stepHandler_inv h hc hspc hstep
    · cases hstep
  | trap c => exact stepTrap_inv h hstep
  | ret c => exact stepRet_inv h hstep

theorem Inv.of_run {as : List (Action n Λ γ)} (hrun : Run (step initproc) unguarded (start initproc) as t) :
    Inv t :=
  hrun.invariant (start_inv initproc) (fun _ _ _ hv _ hnext => step_inv hv hnext)

/-- One CPU per process. A CPU at `swtch` to a process finds it where its saved context
leads, with no other CPU on its stack. -/
structure OneCpu (s : State n Λ γ) : Prop where
  current : ∀ c c' p, s.current c = some p → s.current c' = some p → c = c'
  running : ∀ p, s.lock p = none → ((s.proc p).state = .running ↔ ∃! c, s.current c = some p)
  stack : ∀ c c' p, (s.exec c).proc = some p → (s.exec c').proc = some p → c = c'
  switch : ∀ c p, s.spc c = .switch p → (s.pc p).parked = true ∧ ∀ c', (s.exec c').proc ≠ some p

omit [DecidableEq Λ] [DecidableEq γ] in
/-- A CPU that has a process in `c->proc`, while its lock is free, runs it. -/
theorem Inv.runs_of_engaged (h : Inv s) (hlock : s.lock p = none) (hc : (s.spc c).engaged = some p) :
    s.runs c = some p := by
  have hfree : s.holds c ≠ some p := by
    rw [Ne, ← h.lock p c, hlock]
    exact nofun
  cases hspc : s.spc c with
  | away q =>
    rw [hspc] at hc
    cases hc
    have hproc := (h.exec c p).2 hspc
    cases hexec : s.exec c with
    | scheduler =>
      rw [hexec] at hproc
      cases hproc
    | thread q =>
      rw [hexec] at hproc
      cases hproc
      rw [State.holds_thread hexec] at hfree
      have hsame : (s.pc p).changed ≠ true := fun hchanged => hfree (Pc.locked_of_changed hchanged)
      rw [State.runs_thread hexec, if_neg hsame]
    | leaving q =>
      rw [hexec] at hproc
      cases hproc
      simp [State.holds, hexec] at hfree
  | switch q | back q =>
    rw [hspc] at hc
    cases hc
    have hexec := h.exec_scheduler (c := c) (by simp [hspc])
    rw [State.holds_scheduler hexec, hspc] at hfree
    exact absurd rfl hfree
  | _ =>
    rw [hspc] at hc
    cases hc

theorem oneCpu_run {as : List (Action n Λ γ)} (hrun : Run (step initproc) unguarded (start initproc) as t) :
    OneCpu t := by
  have h := Inv.of_run hrun
  refine ⟨fun c c' p hc hc' => ?_, fun p hlock => ⟨fun hstate => ?_, fun hex => ?_⟩,
    fun c c' p hc hc' => h.exec_unique hc hc', fun c p hspc => (h.parked_of_switch hspc).symm⟩
  · rw [h.current] at hc hc'
    exact h.engaged c c' p hc hc'
  · obtain ⟨c, hc⟩ := (h.running p).1 hstate
    refine ⟨c, (h.current c).trans (h.engaged_of_runs hc), fun c' hc' => ?_⟩
    exact h.engaged c' c p ((h.current c').symm.trans hc') (h.engaged_of_runs hc)
  · obtain ⟨c, hc, -⟩ := hex
    exact (h.running p).2 ⟨c, h.runs_of_engaged hlock ((h.current c).symm.trans hc)⟩

/-- Locks are held across `swtch`. -/
theorem locks_run {as : List (Action n Λ γ)} (hrun : Run (step initproc) unguarded (start initproc) as t)
    (p : Fin n) : (∀ c, t.lock p = some c ↔ t.holds c = some p) ∧ ((∀ c, t.exec c ≠ .thread p) → (t.pc p).parked) ∧
      ((t.proc p).state = .running ↔ ∃ c, t.runs c = some p) := by
  have h := Inv.of_run hrun
  exact ⟨h.lock p, h.parked p, h.running p⟩

section Example

def goes (c : Fin 2) (k : ℕ) : List (Action 2 Unit (Fin 2)) := List.replicate k (.go c true)

/-- Process 0 starts on CPU 0 and forks; its child starts on CPU 1. -/
def forked : List (Action 2 Unit (Fin 2)) :=
  goes 0 4 ++ [.call 0 .fork] ++ goes 0 8 ++ goes 1 7

/-- The child is between `release(lk)` and `swtch` when process 0 scans the table. -/
def sleptAndWoken : List (Action 2 Unit (Fin 2)) :=
  [.call 1 (.acquire (.other ())), .call 1 (.sleep (.other 7) (.other ()))] ++ goes 1 2 ++
    [.call 0 (.acquire (.other ())), .call 0 (.wakeup (some (.other 7)))] ++ goes 0 1 ++ goes 1 5 ++
    goes 0 3 ++ [.call 0 (.release (.other ()))] ++ goes 1 9

theorem oneCpu_run_sleptAndWoken : ∃ t : State 2 Unit (Fin 2),
    Run (step 0) unguarded (start 0) (forked ++ sleptAndWoken) t ∧
      t.current 0 = some 0 ∧ t.current 1 = some 1 ∧ t.pc 1 = .kernel ∧ OneCpu t := by
  obtain ⟨t, hrun, hfirst, hsecond, hpc⟩ : ∃ t : State 2 Unit (Fin 2),
      Run (step 0) unguarded (start 0) (forked ++ sleptAndWoken) t ∧ t.current 0 = some 0 ∧
      t.current 1 = some 1 ∧ t.pc 1 = .kernel := exists_run (by decide +kernel)
  exact ⟨t, hrun, hfirst, hsecond, hpc, oneCpu_run hrun⟩

theorem locks_run_forked : ∃ t, Run (step 0) unguarded (start 0) forked t ∧ ∃ c, t.runs c = some 1 := by
  obtain ⟨t, h, hp⟩ : ∃ t, Run (step 0) unguarded (start 0) forked t ∧ (t.proc 1).state = .running :=
    exists_run (by decide +kernel)
  exact ⟨t, h, (locks_run h 1).2.2.1 hp⟩

end Example

end Xv6.Scheduling
