import Xv6.SchedulingInvariant

/-!
# Sections of the locks

The steps of a thread by what they do to the lock of a process: nothing, taking it, releasing
it with a new state, and giving up `RUNNING` under it.
-/

namespace Xv6.Scheduling

open Function HeldLocks ProcessTable

variable {n : ℕ} {Λ γ : Type} {s t : State n Λ γ} {c c' : γ} {p q np : Fin n} {x y : Pc n Λ}
  {v : Proc n} {l : SpinLock Λ}

theorem Inv.engaged_of_runs (h : Inv s) (hc : s.runs c = some q) : (s.spc c).engaged = some q := by
  cases hexec : s.exec c with
  | scheduler =>
    simp only [State.runs, hexec] at hc
    split at hc
    · rename_i hspc
      cases hc
      rw [hspc]
      rfl
    · cases hc
  | thread p =>
    rw [State.runs_thread hexec] at hc
    split at hc
    · cases hc
    · cases hc
      rw [(h.exec c q).1 (by rw [hexec]; rfl)]
      rfl
  | leaving p =>
    simp [State.runs, hexec] at hc

theorem Inv.runs_unique (h : Inv s) (hc : s.runs c = some q) (hc' : s.runs c' = some q) : c = c' :=
  h.engaged c c' q (h.engaged_of_runs hc) (h.engaged_of_runs hc')

theorem Inv.running_of_thread (h : Inv s) (hc : s.exec c = .thread p) (hsame : (s.pc p).changed = false) :
    (s.proc p).state = .running := by
  refine (h.running p).2 ⟨c, ?_⟩
  simp [State.runs_thread hc, hsame]

theorem Pc.changed_of_locked (h : x.locked p = none) : x.changed = false := by
  cases x <;> first | rfl | cases h

theorem Inv.setProc (h : Inv s) (hv : v.state = (s.proc q).state) : Inv (s.setProc q v) := by
  have hstate : ∀ q', ((s.setProc q v).proc q').state = (s.proc q').state := by
    intro q'
    rcases eq_or_ne q' q with rfl | hne
    · simp [State.setProc, hv]
    · simp [State.setProc, hne]
  refine ⟨h.me, h.current, h.exec, h.engaged, h.lock, h.depth, fun q' => ?_, h.parked, h.saved,
    fun p' np hp' => ?_, h.parents⟩
  · rw [hstate]
    exact h.running q'
  · rw [hstate]
    exact h.child p' np hp'

theorem Inv.ghosts (h : Inv s) (nextpid : BitVec 32) (calls wakeups : Fin n → ℕ) :
    Inv { s with nextpid := nextpid, calls := calls, wakeups := wakeups } :=
  ⟨h.me, h.current, h.exec, h.engaged, h.lock, h.depth, h.running, h.parked, h.saved, h.child, h.parents⟩

section SpinLocks

variable [DecidableEq Λ] [DecidableEq γ]

theorem Inv.acquire (h : Inv s) (hacq : s.acquire c l = some t) : Inv t := by
  rw [State.acquire] at hacq
  split at hacq
  · rename_i hl
    cases hacq
    exact ⟨h.me, h.current, h.exec, h.engaged, h.lock, h.depth.acquire hl, h.running, h.parked, h.saved,
      h.child, h.parents⟩
  · cases hacq

theorem Inv.release (h : Inv s) (hrel : s.release c l = some t) : Inv t := by
  rw [State.release] at hrel
  split at hrel
  · rename_i hl
    cases hrel
    exact ⟨h.me, h.current, h.exec, h.engaged, h.lock, h.depth.release hl, h.running, h.parked, h.saved,
      h.child, h.parents⟩
  · cases hrel

end SpinLocks

section ProcessLocks

variable [DecidableEq γ]

theorem State.runs_update (hc : s.exec c = .thread p) (hsame : (s.pc p).changed = false)
    (hy : y.changed = false) :
    update s.runs c (if y.changed then none else some p) = s.runs := by
  rw [update_eq_self_iff, State.runs_thread hc, hsame, hy]

theorem Inv.goto (h : Inv s) (hc : s.exec c = .thread p) (hpc : s.pc p = x) (hlocked : y.locked p = x.locked p)
    (hsame : x.changed = false) (hy : y.changed = false)
    (hhand : x.inHandler = true → y.inHandler = true)
    (hchild : y.child = none ∨ y.child = x.child) : Inv (s.goto p y) := by
  subst hpc
  have hholds : Function.update s.holds c (y.locked p) = s.holds := by
    rw [update_eq_self_iff, State.holds_thread hc, hlocked]
  refine h.moved hc ⟨rfl, rfl, rfl, rfl⟩ rfl rfl ?_ ?_ (fun q' => ?_) hhand hchild (fun _ _ _ hu => hu)
  · rw [hholds]
    exact h.lock
  · rw [hholds]
    exact h.depth
  · rw [State.runs_update hc hsame hy]
    exact h.running q'

theorem Inv.goto_acquireProc (h : Inv s) (hc : s.exec c = .thread p) (hpc : s.pc p = x)
    (hacq : s.acquireProc c q = some t)
    (hfree : x.locked p = none) (hlocked : y.locked p = some q) (hy : y.changed = false)
    (hhand : x.inHandler = true → y.inHandler = true)
    (hchild : y.child = none ∨ y.child = x.child) : Inv (t.goto p y) := by
  subst hpc
  rw [State.acquireProc] at hacq
  split at hacq
  · rename_i hq
    cases hacq
    have hnone : s.holds c = none := (State.holds_thread hc).trans hfree
    refine h.moved hc ⟨rfl, rfl, rfl, rfl⟩ rfl rfl ?_ ?_ (fun q' => ?_) hhand hchild
      (fun _ _ _ hu => hu)
    · rw [hlocked]
      exact h.lock.acquire hq hnone
    · rw [hlocked]
      exact h.depth.enter hnone
    · rw [State.runs_update hc (Pc.changed_of_locked hfree) hy]
      exact h.running q'
  · cases hacq

theorem Inv.goto_releaseProc (h : Inv s) (hc : s.exec c = .thread p) (hpc : s.pc p = x)
    (hrel : (s.setProc q v).releaseProc c q = some t) (hheld : x.locked p = some q)
    (hsame : x.changed = false) (hlocked : y.locked p = none)
    (hrun : v.state = .running ↔ (s.proc q).state = .running)
    (hhand : x.inHandler = true → y.inHandler = true)
    (hchild : y.child = none ∨ y.child = x.child)
    (hused : ∀ p', (t.goto p y).child p' = some q → (s.proc q).state = .used → v.state = .used) :
    Inv (t.goto p y) := by
  subst hpc
  rw [State.releaseProc] at hrel
  split at hrel
  · cases hrel
    have hsome : s.holds c = some q := (State.holds_thread hc).trans hheld
    refine h.moved hc ⟨rfl, rfl, rfl, rfl⟩ rfl rfl ?_ ?_ (fun q' => ?_) hhand hchild
      (fun p' q' hp' hu => ?_)
    · rw [hlocked]
      exact h.lock.release hsome
    · rw [hlocked]
      exact h.depth.leave hsome
    · rw [State.runs_update hc hsame (Pc.changed_of_locked hlocked), ← h.running q']
      rcases eq_or_ne q' q with rfl | hne
      · simp [State.goto, State.setProc, hrun]
      · simp [State.goto, State.setProc, hne]
    · rcases eq_or_ne q' q with rfl | hne
      · simpa [State.goto, State.setProc] using hused p' hp' hu
      · simpa [State.goto, State.setProc, hne] using hu
  · cases hrel

theorem Inv.goto_releaseProc_same (h : Inv s) (hc : s.exec c = .thread p) (hpc : s.pc p = x)
    (hrel : s.releaseProc c q = some t) (hheld : x.locked p = some q)
    (hsame : x.changed = false) (hlocked : y.locked p = none)
    (hhand : x.inHandler = true → y.inHandler = true)
    (hchild : y.child = none ∨ y.child = x.child) : Inv (t.goto p y) := by
  subst hpc
  have hself : s.setProc q (s.proc q) = s := by
    rw [State.setProc, Function.update_eq_self]
  rw [← hself] at hrel
  exact h.goto_releaseProc hc rfl hrel hheld hsame hlocked Iff.rfl hhand hchild (fun _ _ hu => hu)

theorem Inv.goto_sched {k : After n Λ} (h : Inv s) (hc : s.exec c = .thread p) (hpc : s.pc p = x)
    (hheld : x.locked p = some p) (hsame : x.changed = false) (hv : v.state ≠ .running)
    (hhand : x.inHandler = true → (Pc.sched k).inHandler = true) :
    Inv ((s.setProc p v).goto p (.sched k)) := by
  subst hpc
  have hholds : Function.update s.holds c ((Pc.sched k : Pc n Λ).locked p) = s.holds := by
    rw [update_eq_self_iff, State.holds_thread hc, hheld]
    rfl
  have hruns : s.runs c = some p := by
    simp [State.runs_thread hc, hsame]
  refine h.moved hc ⟨rfl, rfl, rfl, rfl⟩ rfl rfl ?_ ?_ (fun q' => ?_) hhand (.inl rfl)
    (fun p' q' _ hu => ?_)
  · rw [hholds]
    exact h.lock
  · rw [hholds]
    exact h.depth
  · rcases eq_or_ne q' p with rfl | hne
    · refine iff_of_false (by simpa [State.goto, State.setProc] using hv) ?_
      rintro ⟨c', hc'⟩
      rcases eq_or_ne c' c with rfl | hne'
      · rw [Function.update_self] at hc'
        cases hc'
      · rw [Function.update_of_ne hne'] at hc'
        exact hne' (h.runs_unique hc' hruns)
    · have hstate : ((s.setProc p v).goto p (.sched k)).proc q' = s.proc q' := by
        simp [State.goto, State.setProc, hne]
      rw [hstate, h.running q']
      refine exists_congr (fun c' => ?_)
      rcases eq_or_ne c' c with rfl | hne'
      · rw [Function.update_self, hruns]
        simp [Pc.changed, Ne.symm hne]
      · rw [Function.update_of_ne hne']
  · have hne : q' ≠ p := by
      rintro rfl
      rw [h.running_of_thread hc hsame] at hu
      cases hu
    simpa [State.goto, State.setProc, hne] using hu

theorem Inv.goto_forkWait (h : Inv s) (np : Fin n) (hc : s.exec c = .thread p) (hpc : s.pc p = .kernel)
    (hsaved : s.saved p = none) (hstate : (s.proc np).state = .used)
    (hnew : ∀ p', s.child p' ≠ some np) : Inv (s.goto p (.forkWait np)) := by
  have hm : Moved s (s.goto p (.forkWait np)) p (.forkWait np) := ⟨rfl, rfl, rfl, rfl⟩
  have hholds : Function.update s.holds c ((Pc.forkWait np : Pc n Λ).locked p) = s.holds := by
    rw [update_eq_self_iff, State.holds_thread hc, hpc]
    rfl
  have hsame : (s.pc p).changed = false := by
    rw [hpc]
    rfl
  have hother : ∀ {q q'}, (s.goto p (.forkWait np)).child q = some q' →
      (q = p ∧ q' = np) ∨ (q ≠ p ∧ s.child q = some q') := by
    intro q q' hq
    rcases eq_or_ne q p with rfl | hne
    · rw [State.child, hm.pc_self] at hq
      cases hq
      exact .inl ⟨rfl, rfl⟩
    · rw [State.child, hm.pc_of_ne hne] at hq
      exact .inr ⟨hne, hq⟩
  refine h.thread_step hc hm h.me ?_ ?_ (fun q => ?_) (fun q z hz => ?_) (fun q q' hq => ?_)
    (fun q q' np' hq hq' => ?_)
  · rw [hholds]
    exact h.lock
  · rw [hholds]
    exact h.depth
  · rw [State.runs_update hc hsame rfl]
    exact h.running q
  · have hne : q ≠ p := by
      rintro rfl
      rw [State.goto, hsaved] at hz
      cases hz
    rw [hm.pc_of_ne hne]
    exact h.saved q z hz
  · rcases hother hq with ⟨-, rfl⟩ | ⟨-, hq⟩
    · exact hstate
    · exact h.child q q' hq
  · rcases hother hq with ⟨rfl, rfl⟩ | ⟨-, hold⟩
    · rcases hother hq' with ⟨rfl, -⟩ | ⟨-, hold'⟩
      · rfl
      · exact absurd hold' (hnew q')
    · rcases hother hq' with ⟨rfl, rfl⟩ | ⟨-, hold'⟩
      · exact absurd hold (hnew q)
      · exact h.parents q q' np' hold hold'

end ProcessLocks

end Xv6.Scheduling
