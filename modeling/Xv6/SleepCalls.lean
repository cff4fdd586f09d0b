import Xv6.SchedulingFrames

/-!
# A process on its way through `sleep`

From the call up to `SLEEPING` a process passes three places, in order and without an
interrupt; nothing but a call of `sleep` leads to the first.
-/

namespace Xv6.Scheduling

open HeldLocks ProcessTable TransitionRuns

variable {n : ℕ} {Λ γ : Type} {s t u : State n Λ γ} {c : γ} {p q np initproc : Fin n} {x y : Pc n Λ}
  {v : Proc n} {l : SpinLock Λ} {ch : Chan n} {ok : Bool}

/-- In `sleep`, before the process is `SLEEPING`. -/
def Pc.before : Pc n Λ → Bool
  | .sleepAcquire .. | .sleepRelease .. | .sleepSet .. => true
  | _ => false

section Steps

variable [DecidableEq Λ] [DecidableEq γ]

/-- What a process does on its CPU: it calls `sleep`, goes on, is interrupted, or returns from
a handler. -/
theorem step_own {a : Action n Λ γ} (h : Inv s) (hc : s.exec a.cpu = .thread p)
    (hstep : step initproc s a = some t) :
    (t.calls p = s.calls p + 1 ∧ (s.pc p).plain = true) ∨ (∃ y, Goes s t p y ∧ y.follows (s.pc p)) ∨
      (s.noff a.cpu = 0 ∧ t.pc p = .kernel ∧ t.saved p = some (s.pc p, s.me p) ∧ t.calls p = s.calls p) ∨
      ∃ x, s.saved p = some x ∧ t.pc p = x.1 ∧ t.saved p = none ∧ t.calls p = s.calls p := by
  cases a with
  | go c ok =>
    simp only [step, show s.exec c = .thread p from hc] at hstep
    exact (stepThread_advances h hc rfl hstep).own.elim (fun hgoes => .inr (.inl hgoes)) .inl
  | call c f =>
    simp only [step, show s.exec c = .thread p from hc] at hstep
    obtain ⟨hpc, hstep⟩ := Option.ite_none_right_eq_some.1 hstep
    rw [hpc]
    exact (stepCall_advances hc hpc hstep).own.elim (fun hgoes => .inr (.inl hgoes)) .inl
  | trap c =>
    simp only [step, stepTrap, show s.exec c = .thread p from hc] at hstep
    split at hstep
    · rename_i hfree
      cases hstep
      exact .inr (.inr (.inl ⟨hfree.1, by simp [State.goto], by simp, rfl⟩))
    · cases hstep
  | ret c =>
    simp only [step, stepRet, show s.exec c = .thread p from hc] at hstep
    split at hstep
    · rename_i x q _ hsaved
      cases hstep
      exact .inr (.inr (.inr ⟨_, hsaved, by simp [State.goto], by simp, rfl⟩))
    · cases hstep

/-- The places of a thread: where it is, and what a handler will return to. -/
def State.places (s : State n Λ γ) (p : Fin n) : List (Pc n Λ) :=
  s.pc p :: ((s.saved p).map Prod.fst).toList

omit [DecidableEq Λ] [DecidableEq γ] in
theorem State.mem_places (s : State n Λ γ) (p : Fin n) (x : Pc n Λ) :
    x ∈ s.places p ↔ x = s.pc p ∨ ∃ y, s.saved p = some y ∧ y.1 = x := by
  simp [State.places]

end Steps

/-- The channel of a process that is in `sleep` past `release(lk)`. -/
def Pc.sleepsOn : Pc n Λ → Option (Chan n)
  | .sleepSet chan _ _ | .sched (.sleep chan _ _) | .back (.sleep chan _ _) => some chan
  | _ => none

theorem Pc.locked_of_sleepsOn (h : x.sleepsOn = some ch) : x.locked p = some p := by
  cases x <;> first | rfl | cases h

theorem Pc.plain_of_sleepsOn (h : x.sleepsOn = some ch) : x.plain = false := by
  cases x <;> first | rfl | cases h

theorem Pc.inHandler_of_sleepsOn (h : x.sleepsOn = some ch) : x.inHandler = false := by
  cases x with
  | sched k | back k => cases k <;> first | rfl | cases h
  | _ => first | rfl | cases h

/-- A process has a channel from `p->chan = chan` to `p->chan = 0`. -/
structure Asleep (s : State n Λ γ) : Prop where
  sleeping : ∀ p, (s.proc p).state = .sleeping → ∃ ch, (s.proc p).chan = some ch
  chan : ∀ p ch, (s.proc p).chan = some ch → (s.pc p).sleepsOn = some ch
  unused : ∀ p, (s.proc p).state = .unused → (s.proc p).chan = none

theorem start_asleep (initproc : Fin n) : Asleep (start initproc : State n Λ γ) := by
  refine ⟨fun p hp => ?_, fun p ch hp => ?_, fun p _ => rfl⟩
  · simp only [start] at hp
    split at hp <;> cases hp
  · cases hp

theorem sleepsOn_of_follows (hx : x.sleepsOn = some ch) (hy : y.follows x) :
    y.sleepsOn = some ch ∨ ∃ l ret, x = .back (.sleep ch l ret) := by
  cases x with
  | sleepSet chan l ret =>
    cases hx
    exact .inl (by rw [show y = _ from hy]; rfl)
  | sched k =>
    refine .inl ?_
    rw [show y = .back k from hy]
    cases k <;> exact hx
  | back k =>
    cases k with
    | sleep chan l ret =>
      cases hx
      exact .inr ⟨l, ret, rfl⟩
    | _ => cases hx
  | _ => cases hx

section Channels

variable [DecidableEq Λ] [DecidableEq γ] {a : Action n Λ γ}

theorem step_go (hc : s.exec a.cpu = .thread p) (hpc : s.pc p ≠ .kernel) (hnoff : 0 < s.noff a.cpu)
    (hstep : step initproc s a = some t) : ∃ ok, stepThread initproc s a.cpu p ok (s.pc p) = some t := by
  cases a with
  | go c ok =>
    simp only [step, show s.exec c = .thread p from hc] at hstep
    exact ⟨ok, hstep⟩
  | call c f =>
    simp only [step, show s.exec c = .thread p from hc, if_neg hpc] at hstep
    cases hstep
  | trap c =>
    have hne : ¬ (s.noff c = 0 ∧ s.saved p = none) := fun hfree => (Nat.ne_of_gt hnoff) hfree.1
    simp only [step, stepTrap, show s.exec c = .thread p from hc, if_neg hne] at hstep
    cases hstep
  | ret c =>
    simp only [step, stepRet, show s.exec c = .thread p from hc] at hstep
    split at hstep
    · rename_i hkernel _
      exact absurd hkernel hpc
    · cases hstep

omit [DecidableEq Λ] [DecidableEq γ] in
theorem Inv.noff_pos (h : Inv s) (hc : s.exec c = .thread p) (hlocked : (s.pc p).locked p = some q) :
    0 < s.noff c := by
  refine Nat.pos_of_ne_zero (fun hzero => ?_)
  have hnone := h.depth.holds_eq_none hzero
  rw [State.holds_thread hc, hlocked] at hnone
  cases hnone

theorem step_back_chan {ret : Ret} (h : Inv s) (hc : s.exec a.cpu = .thread p)
    (hpc : s.pc p = .back (.sleep ch l ret)) (hstep : step initproc s a = some t) :
    (t.proc p).chan = none := by
  have hnoff : 0 < s.noff a.cpu := h.noff_pos (q := p) hc (by rw [hpc]; rfl)
  obtain ⟨ok, hgo⟩ := step_go hc (by rw [hpc]; exact nofun) hnoff hstep
  rw [hpc, stepThread, stepBack, h.me] at hgo
  obtain ⟨u, hu, rfl⟩ := Option.map_eq_some_iff.1 hgo
  obtain ⟨-, rfl⟩ := State.releaseProc_eq hu
  simp [State.goto, State.setProc]

theorem step_asleep (h : Inv s) (hs : Asleep s) (hstep : step initproc s a = some t) :
    Asleep t := by
  have hb := step_beside h hstep
  refine ⟨fun p hp => ?_, fun p ch hp => ?_, fun p hp => ?_⟩
  · rcases hb.calm p with hcalm | ⟨-, chan, l, ret, -, -, hchan, -⟩
    · obtain ⟨hold, hsame⟩ := hcalm.sleeping hp
      rw [hsame]
      exact hs.sleeping p hold
    · exact ⟨chan, hchan⟩
  · rcases hb.calm p with hcalm | ⟨-, chan, l, ret, -, hpc, hchan, -⟩
    · have hold : (s.proc p).chan = some ch := by
        rcases hcalm.chan with hsame | hnone
        · rwa [hsame] at hp
        · rw [hnone] at hp
          cases hp
      have hon := hs.chan p ch hold
      by_cases hc : s.exec a.cpu = .thread p
      · rcases step_own h hc hstep with ⟨-, hplain⟩ | ⟨y, hgoes, hy⟩ | ⟨hfree, -⟩ | ⟨x, hsaved, -⟩
        · rw [Pc.plain_of_sleepsOn hon] at hplain
          cases hplain
        · rcases sleepsOn_of_follows hon hy with hon' | ⟨l, ret, hback⟩
          · rw [hgoes.pc]
            exact hon'
          · rw [step_back_chan h hc hback hstep] at hp
            cases hp
        · have hpos := h.noff_pos (q := p) hc (Pc.locked_of_sleepsOn hon)
          omega
        · have hhand := (h.saved p x hsaved).2.2
          rw [Pc.inHandler_of_sleepsOn hon] at hhand
          cases hhand
      · rcases (hb.kept p hc).pc with ⟨hsame, -⟩ | ⟨-, -, hunused⟩
        · rw [hsame]
          exact hon
        · rw [hs.unused p hunused] at hold
          cases hold
    · rw [hchan] at hp
      cases hp
      rw [hpc]
      rfl
  · rcases hb.calm p with hcalm | ⟨-, chan, l, ret, -, -, -, hstate⟩
    · rcases hcalm.unused hp with hold | hnone
      · rcases hcalm.chan with hsame | hnone
        · rw [hsame]
          exact hs.unused p hold
        · exact hnone
      · exact hnone
    · rw [hstate] at hp
      cases hp

end Channels

end Xv6.Scheduling
