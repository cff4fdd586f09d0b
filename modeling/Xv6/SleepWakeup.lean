import Xv6.SleepCalls

/-!
# No wakeup is lost

A process that has called `sleep(chan, lk)` holds `lk` until it holds its own lock. A caller
of `wakeup(chan)` that holds `lk` therefore finds it past that point, and when it has its
lock, asleep.
-/

namespace Xv6.Scheduling

open HeldLocks ProcessTable TransitionRuns

variable {n : ℕ} {Λ γ : Type} {s t u : State n Λ γ} {c : γ} {p q P Q initproc : Fin n} {x y : Pc n Λ}
  {l : SpinLock Λ} {m : ℕ} {ch : Chan n}

/-- In `sleep`, with `lk` still held. -/
def Pc.early : Pc n Λ → Bool
  | .sleepAcquire .. | .sleepRelease .. => true
  | _ => false

section Steps

variable [DecidableEq Λ] [DecidableEq γ] {a : Action n Λ γ}

/-- Of its calls up to number `m`, process `P` is at none of the places `B`. -/
def Clear (B : Pc n Λ → Bool) (P : Fin n) (m : ℕ) (s : State n Λ γ) : Prop :=
  m ≤ s.calls P ∧ (s.calls P = m → ∀ x ∈ s.places P, B x = false)

theorem Clear.step {B : Pc n Λ → Bool} (hB : ∀ x y : Pc n Λ, y.follows x → B x = false → B y = false)
    (hkernel : B .kernel = false) (hforkret : B .forkret = false) (h : Inv s) (hclear : Clear B P m s)
    (hstep : step initproc s a = some t) : Clear B P m t := by
  obtain ⟨hle, hplaces⟩ := hclear
  by_cases hc : s.exec a.cpu = .thread P
  · rcases step_own h hc hstep with ⟨hcalls, -⟩ | ⟨y, ⟨hpc, hsaved, hcalls⟩, hy⟩ |
      ⟨-, hpc, hsaved, hcalls⟩ | ⟨x, hold, hpc, hsaved, hcalls⟩
    · rw [Clear, hcalls]
      exact ⟨by omega, fun heq => by omega⟩
    · refine ⟨by omega, fun heq x hx => ?_⟩
      have hclear := hplaces (by omega)
      rcases (State.mem_places t P x).1 hx with rfl | ⟨z, hz, rfl⟩
      · rw [hpc]
        exact hB _ y hy (hclear _ ((State.mem_places s P _).2 (.inl rfl)))
      · exact hclear _ ((State.mem_places s P _).2 (.inr ⟨z, hsaved ▸ hz, rfl⟩))
    · refine ⟨by omega, fun heq x hx => ?_⟩
      have hclear := hplaces (by omega)
      rcases (State.mem_places t P x).1 hx with rfl | ⟨z, hz, rfl⟩
      · rw [hpc]
        exact hkernel
      · rw [hsaved] at hz
        cases hz
        exact hclear _ ((State.mem_places s P _).2 (.inl rfl))
    · refine ⟨by omega, fun heq y hy => ?_⟩
      have hclear := hplaces (by omega)
      rcases (State.mem_places t P y).1 hy with rfl | ⟨z, hz, -⟩
      · rw [hpc]
        exact hclear _ ((State.mem_places s P _).2 (.inr ⟨x, hold, rfl⟩))
      · rw [hsaved] at hz
        cases hz
  · have hkept := (step_beside h hstep).kept P hc
    rw [Clear, hkept.calls]
    refine ⟨hle, fun heq x hx => ?_⟩
    rcases hkept.pc with ⟨hpc, hsaved⟩ | ⟨hpc, hsaved, -⟩
    · rw [State.places, hpc, hsaved] at hx
      exact hplaces heq x hx
    · rw [State.places, hpc, hsaved] at hx
      cases List.mem_singleton.1 hx
      exact hforkret

omit [DecidableEq Λ] [DecidableEq γ] in
theorem early_of_follows (x y : Pc n Λ) (hy : y.follows x) (hx : x.early = false) : y.early = false := by
  cases x with
  | sleepAcquire | sleepRelease => cases hx
  | sleepSet | yieldSet | exitZombie | sched =>
    rw [show y = _ from hy]
    rfl
  | _ =>
    have hplain : y.plain = true := hy
    cases y <;> first | rfl | cases hplain

omit [DecidableEq Λ] [DecidableEq γ] in
theorem before_of_follows (x y : Pc n Λ) (hy : y.follows x) (hx : x.before = false) : y.before = false := by
  cases x with
  | sleepAcquire | sleepRelease | sleepSet => cases hx
  | yieldSet | exitZombie | sched =>
    rw [show y = _ from hy]
    rfl
  | _ =>
    have hplain : y.plain = true := hy
    cases y <;> first | rfl | cases hplain

/-- Call number `m` of `sleep` by `P`, on channel `ch`, has released `lk`. -/
def Released (ch : Chan n) (P : Fin n) (m : ℕ) (s : State n Λ γ) : Prop :=
  Clear Pc.early P m s ∧ (s.calls P = m → ∀ ch', (s.pc P).sleepsOn = some ch' → ch' = ch)

/-- `P` is not `SLEEPING` from call number `m` and will not be. -/
def Woken (P : Fin n) (m : ℕ) (s : State n Λ γ) : Prop :=
  Clear Pc.before P m s ∧ (s.calls P = m → (s.proc P).state ≠ .sleeping)

theorem step_calls_le (h : Inv s) (hstep : step initproc s a = some t) (P : Fin n) :
    s.calls P ≤ t.calls P := by
  by_cases hc : s.exec a.cpu = .thread P
  · rcases step_own h hc hstep with ⟨hcalls, -⟩ | ⟨y, ⟨-, -, hcalls⟩, -⟩ | ⟨-, -, -, hcalls⟩ |
      ⟨x, -, -, -, hcalls⟩ <;> omega
  · exact ((step_beside h hstep).kept P hc).calls.ge

theorem Woken.step (h : Inv s) (hw : Woken P m s) (hstep : step initproc s a = some t) : Woken P m t := by
  refine ⟨Clear.step before_of_follows rfl rfl h hw.1 hstep, fun heq hsleep => ?_⟩
  have hle := hw.1.1
  have hmono := step_calls_le h hstep P
  have hcalls : s.calls P = m := by omega
  rcases (step_beside h hstep).calm P with hcalm | ⟨-, chan, l, ret, hpc, -⟩
  · exact hw.2 hcalls (hcalm.sleeping hsleep).1
  · have hplace := hw.1.2 hcalls (s.pc P) ((State.mem_places s P _).2 (.inl rfl))
    rw [hpc] at hplace
    cases hplace

omit [DecidableEq Λ] [DecidableEq γ] in
theorem sleepsOn_before (hy : y.follows x) (hon : y.sleepsOn = some ch) :
    x.sleepsOn = some ch ∨ ∃ l ret, x = .sleepRelease ch l ret := by
  cases x with
  | sleepAcquire chan l ret | yieldSet | exitZombie =>
    rw [show y = _ from hy] at hon
    cases hon
  | sleepRelease chan l ret =>
    rw [show y = _ from hy] at hon
    cases hon
    exact .inr ⟨l, ret, rfl⟩
  | sleepSet chan l ret =>
    rw [show y = _ from hy] at hon
    exact .inl hon
  | sched k =>
    rw [show y = .back k from hy] at hon
    cases k <;> exact .inl hon
  | _ =>
    have hplain : y.plain = true := hy
    rw [Pc.plain_of_sleepsOn hon] at hplain
    cases hplain

theorem Released.step (h : Inv s) (hr : Released ch P m s) (hstep : step initproc s a = some t) :
    Released ch P m t := by
  refine ⟨Clear.step early_of_follows rfl rfl h hr.1 hstep, fun heq ch' hon => ?_⟩
  have hle := hr.1.1
  have hmono := step_calls_le h hstep P
  have hcalls : s.calls P = m := by omega
  have hplace := hr.1.2 hcalls (s.pc P) ((State.mem_places s P _).2 (.inl rfl))
  by_cases hc : s.exec a.cpu = .thread P
  · rcases step_own h hc hstep with ⟨hcalls', -⟩ | ⟨y, ⟨hpc, -, -⟩, hy⟩ | ⟨-, hpc, -, -⟩ |
      ⟨x, hsaved, hpc, -, -⟩
    · omega
    · rw [hpc] at hon
      rcases sleepsOn_before hy hon with hold | ⟨l, ret, hearly⟩
      · exact hr.2 hcalls ch' hold
      · rw [hearly] at hplace
        cases hplace
    · rw [hpc] at hon
      cases hon
    · have hfree := (h.saved P x hsaved).1
      rw [← hpc, Pc.locked_of_sleepsOn hon] at hfree
      cases hfree
  · rcases ((step_beside h hstep).kept P hc).pc with ⟨hpc, -⟩ | ⟨hpc, -, -⟩
    · rw [hpc] at hon
      exact hr.2 hcalls ch' hon
    · rw [hpc] at hon
      cases hon

/-- `P` has made its call number `m`, of `sleep(ch, lk)`, and holds `lk`. -/
def Entering (ch : Chan n) (l : SpinLock Λ) (P : Fin n) (m : ℕ) (s : State n Λ γ) : Prop :=
  s.calls P = m ∧ (∃ ret, s.pc P = .sleepAcquire ch l ret ∨ s.pc P = .sleepRelease ch l ret) ∧
    ∃ c, s.exec c = .thread P ∧ s.lk l = some c

omit [DecidableEq Λ] [DecidableEq γ] in
theorem Inv.not_unused (h : Inv s) (hc : s.exec c = .thread p) (hsame : (s.pc p).changed = false) :
    (s.proc p).state ≠ .unused := by
  rw [h.running_of_thread hc hsame]
  exact nofun

theorem step_other (h : Inv s) (hc : s.exec c = .thread p) (hsame : (s.pc p).changed = false)
    (hne : a.cpu ≠ c) (hstep : step initproc s a = some t) :
    t.exec c = .thread p ∧ t.pc p = s.pc p ∧ t.saved p = s.saved p ∧ t.calls p = s.calls p ∧
      t.wakeups p = s.wakeups p ∧ ∀ l, s.lk l = some c → t.lk l = some c := by
  have hb := step_beside h hstep
  have hexec : s.exec a.cpu ≠ .thread p := fun hc' => hne (h.thread_unique hc' hc)
  obtain ⟨hpc, hcalls, hwakeups⟩ := hb.kept p hexec
  obtain ⟨hpc, hsaved⟩ := hpc.resolve_right (fun hreset => h.not_unused hc hsame hreset.2.2)
  exact ⟨(hb.exec c hne.symm).trans hc, hpc, hsaved, hcalls, hwakeups, fun l hl => hb.lk l c hne.symm hl⟩

theorem Entering.step (h : Inv s) (he : Entering ch l P m s) (hstep : step initproc s a = some t) :
    Entering ch l P m t ∨ Released ch P m t := by
  obtain ⟨hcalls, ⟨ret, hpc⟩, c, hc, hl⟩ := he
  have hsame : (s.pc P).changed = false := by
    rcases hpc with hpc | hpc <;> rw [hpc] <;> rfl
  by_cases hcpu : a.cpu = c
  · subst hcpu
    have hsaved : s.saved P = none := by
      refine Option.eq_none_iff_forall_ne_some.2 (fun z hz => ?_)
      have hhand := (h.saved P z hz).2.2
      rcases hpc with hpc | hpc <;> rw [hpc] at hhand <;> cases hhand
    obtain ⟨ok, hgo⟩ := step_go hc (by rcases hpc with hpc | hpc <;> rw [hpc] <;> exact nofun)
      (h.depth.pos hl) hstep
    rcases hpc with hpc | hpc
    · rw [hpc, stepThread] at hgo
      obtain ⟨u, hu, rfl⟩ := Option.map_eq_some_iff.1 hgo
      obtain ⟨-, rfl⟩ := State.acquireProc_eq hu
      exact .inl ⟨hcalls, ⟨ret, .inr (by simp [State.goto])⟩, a.cpu, hc, hl⟩
    · rw [hpc] at hgo
      obtain ⟨y, ⟨hpc', hsaved', hcalls'⟩, rfl⟩ := (stepThread_advances h hc hpc hgo).own.resolve_right
        (by rintro ⟨-, ⟨⟩⟩)
      refine .inr ⟨⟨(hcalls'.trans hcalls).ge, fun _ x hx => ?_⟩, fun _ ch' hon => ?_⟩
      · rw [State.places, hpc', hsaved', hsaved] at hx
        cases List.mem_singleton.1 hx
        rfl
      · rw [hpc'] at hon
        cases hon
        rfl
  · obtain ⟨hexec', hpc', -, hcalls', -, hlk'⟩ := step_other h hc hsame hcpu hstep
    refine .inl ⟨hcalls'.trans hcalls, ⟨ret, ?_⟩, c, hexec', hlk' l hl⟩
    rw [hpc']
    exact hpc

/-- `Q` is in its call number `w` of `wakeup(ch)`, with `lk` held, and has not yet dealt with `P`. -/
def Scanning (ch : Chan n) (l : SpinLock Λ) (P Q : Fin n) (w : ℕ) (s : State n Λ γ) : Prop :=
  s.wakeups Q = w ∧ (∃ ret, (∃ i, i ≤ P.val ∧ s.pc Q = .wake (some ch) i ret) ∨
    ∃ q, q ≤ P ∧ s.pc Q = .wakeHold (some ch) q ret) ∧ ∃ c, s.exec c = .thread Q ∧ s.lk l = some c

theorem wakeHold_woken {ret : WakeRet} {ok : Bool} (h : Inv s) (hs : Asleep s) (hr : Released ch P m s)
    (hne : Q ≠ P) (hc : s.exec c = .thread Q) (hpc : s.pc Q = .wakeHold (some ch) P ret)
    (hgo : stepThread initproc s c Q ok (s.pc Q) = some t) : Woken P m t := by
  have hheld : s.holds c = some P := by
    rw [State.holds_thread hc, hpc]
    rfl
  have hplace : ∀ x ∈ s.places P, s.calls P = m → x.before = false := by
    intro x hx hcalls
    have hearly := hr.1.2 hcalls x hx
    -- At `sleepSet` the process has its own lock, and this CPU holds it.
    cases x with
    | sleepSet chan l ret =>
      exfalso
      rcases (State.mem_places s P _).1 hx with hself | ⟨y, hy, hself⟩
      · have hrun : ∃ c', s.exec c' = .thread P := by
          by_contra hnone
          have hparked := h.parked P (fun c' hc' => hnone ⟨c', hc'⟩)
          rw [← hself] at hparked
          cases hparked
        obtain ⟨c', hc'⟩ := hrun
        have hheld' : s.holds c' = some P := by
          rw [State.holds_thread hc', ← hself]
          rfl
        have heq := h.lock.unique hheld' hheld
        rw [heq, hc] at hc'
        exact hne (Exec.thread.inj hc')
      · have hfree := (h.saved P y hy).1
        rw [hself] at hfree
        cases hfree
    | sleepAcquire | sleepRelease => cases hearly
    | _ => rfl
  rw [hpc, stepThread] at hgo
  obtain ⟨u, hu, rfl⟩ := Option.map_eq_some_iff.1 hgo
  obtain ⟨-, rfl⟩ := State.releaseProc_eq hu
  refine ⟨⟨hr.1.1, fun hcalls x hx => hplace x ?_ hcalls⟩, fun hcalls => ?_⟩
  · simpa [State.places, State.goto, State.setProc, hne.symm] using hx
  · have hwake : (((s.proc P).wake (some ch)).state) ≠ .sleeping := by
      rw [Proc.wake]
      split
      · rintro ⟨⟩
      · rename_i hnot
        intro hsleep
        obtain ⟨ch', hchan⟩ := hs.sleeping P hsleep
        have heq := hr.2 hcalls ch' (hs.chan P ch' hchan)
        rw [heq] at hchan
        exact hnot ⟨hsleep, hchan⟩
    simpa [State.goto, State.setProc] using hwake

theorem Scanning.step {w : ℕ} (h : Inv s) (hs : Asleep s) (hr : Released ch P m s) (hne : Q ≠ P)
    (hscan : Scanning ch l P Q w s) (hstep : step initproc s a = some t) :
    Woken P m t ∨ Scanning ch l P Q w t := by
  obtain ⟨hw, ⟨ret, hpc⟩, c, hc, hl⟩ := hscan
  have hplace : (s.pc Q).changed = false ∧ s.pc Q ≠ .kernel := by
    rcases hpc with ⟨i, -, hpc⟩ | ⟨q, -, hpc⟩ <;> rw [hpc] <;> exact ⟨rfl, nofun⟩
  by_cases hcpu : a.cpu = c
  · subst hcpu
    obtain ⟨ok, hgo⟩ := step_go hc hplace.2 (h.depth.pos hl) hstep
    rcases hpc with ⟨i, hi, hpc⟩ | ⟨q, hq, hpc⟩
    · have hlt : i < n := lt_of_le_of_lt hi P.isLt
      rw [hpc, stepThread, dif_pos hlt] at hgo
      split at hgo
      · rename_i hself
        cases hgo
        rw [h.myproc hc] at hself
        have hval : i ≠ P.val := by
          rintro rfl
          exact hne (Option.some.inj hself)
        exact .inr ⟨hw, ⟨ret, .inl ⟨i + 1, by omega, by simp [State.goto]⟩⟩, a.cpu, hc, hl⟩
      · obtain ⟨u, hu, rfl⟩ := Option.map_eq_some_iff.1 hgo
        obtain ⟨-, rfl⟩ := State.acquireProc_eq hu
        exact .inr ⟨hw, ⟨ret, .inr ⟨⟨i, hlt⟩, hi, by simp [State.goto]⟩⟩, a.cpu, hc, hl⟩
    · rcases eq_or_ne q P with rfl | hqP
      · exact .inl (wakeHold_woken h hs hr hne hc hpc hgo)
      · rw [hpc, stepThread] at hgo
        obtain ⟨u, hu, rfl⟩ := Option.map_eq_some_iff.1 hgo
        obtain ⟨-, rfl⟩ := State.releaseProc_eq hu
        have hlt : q.val < P.val := lt_of_le_of_ne hq (fun heq => hqP (Fin.ext heq))
        exact .inr ⟨hw, ⟨ret, .inl ⟨q + 1, hlt, by simp [State.goto]⟩⟩, a.cpu, hc, hl⟩
  · obtain ⟨hexec', hpc', -, -, hwakeups', hlk'⟩ := step_other h hc hplace.1 hcpu hstep
    refine .inr ⟨hwakeups'.trans hw, ⟨ret, ?_⟩, c, hexec', hlk' l hl⟩
    rw [hpc']
    exact hpc

end Steps

/-- `P` is `SLEEPING` on a channel from its call number `m` of `sleep`. -/
def State.asleep (s : State n Λ γ) (P : Fin n) (ch : Chan n) (m : ℕ) : Prop :=
  (s.proc P).state = .sleeping ∧ (s.proc P).chan = some ch ∧ s.calls P = m

/-- `Q` has not returned from its call number `w` of `wakeup`. -/
def State.inWakeup (s : State n Λ γ) (Q : Fin n) (w : ℕ) : Prop :=
  s.wakeups Q = w ∧ ∃ chan ret, (∃ i, s.pc Q = .wake chan i ret) ∨ ∃ q, s.pc Q = .wakeHold chan q ret

variable [DecidableEq Λ] [DecidableEq γ]

/-- A `wakeup` that starts with `lk` held by another CPU wakes `P`. -/
theorem wakeup_woken {u : State n Λ γ} {c' : γ} {ret : WakeRet} {cs : List (Action n Λ γ)} (h : Inv u)
    (hs : Asleep u) (hu : Entering ch l P m u ∨ Released ch P m u) (hne : Q ≠ P)
    (hc : u.exec c' = .thread Q) (hpc : u.pc Q = .wake (some ch) 0 ret) (hl : u.lk l = some c')
    (hrun : Run (step initproc) unguarded u cs t) (hret : ¬ t.inWakeup Q (u.wakeups Q)) : Woken P m t := by
  have hr : Released ch P m u := by
    refine hu.resolve_left (fun hentering => ?_)
    obtain ⟨-, -, c, hcP, hlP⟩ := hentering
    rw [hl] at hlP
    cases hlP
    rw [hc] at hcP
    exact hne (Exec.thread.inj hcP)
  have hinv : Inv t ∧ Asleep t ∧ (Woken P m t ∨ Released ch P m t ∧ Scanning ch l P Q (u.wakeups Q) t) := by
    refine hrun.invariant (I := fun v => Inv v ∧ Asleep v ∧
      (Woken P m v ∨ Released ch P m v ∧ Scanning ch l P Q (u.wakeups Q) v))
        ⟨h, hs, .inr ⟨hr, rfl, ⟨ret, .inl ⟨0, Nat.zero_le _, hpc⟩⟩, c', hc, hl⟩⟩ ?_
    rintro v a w ⟨hv, hsv, hscan⟩ - hnext
    refine ⟨step_inv hv hnext, step_asleep hv hsv hnext, ?_⟩
    rcases hscan with hwoken | ⟨hreleased, hscan⟩
    · exact .inl (hwoken.step hv hnext)
    · exact (hscan.step hv hsv hreleased hne hnext).imp_right (fun hscan' => ⟨hreleased.step hv hnext, hscan'⟩)
  refine hinv.2.2.resolve_right (fun hscan => hret ?_)
  obtain ⟨-, hw, ⟨ret', hpc'⟩, -⟩ := hscan
  exact ⟨hw, some ch, ret', hpc'.imp (fun ⟨i, _, hi⟩ => ⟨i, hi⟩) (fun ⟨q, _, hq⟩ => ⟨q, hq⟩)⟩

theorem sleep_entering {bs : List (Action n Λ γ)} {ret : Ret} (h : Inv s) (hs : Asleep s)
    (hc : s.exec c = .thread P) (hpc : s.pc P = .sleepAcquire ch l ret) (hl : s.lk l = some c)
    (hrun : Run (step initproc) unguarded s bs u) :
    Inv u ∧ Asleep u ∧ (Entering ch l P (s.calls P) u ∨ Released ch P (s.calls P) u) := by
  refine hrun.invariant (I := fun v => Inv v ∧ Asleep v ∧
    (Entering ch l P (s.calls P) v ∨ Released ch P (s.calls P) v))
      ⟨h, hs, .inl ⟨rfl, ⟨ret, .inl hpc⟩, c, hc, hl⟩⟩ ?_
  rintro v a w ⟨hv, hsv, hcall⟩ - hnext
  refine ⟨step_inv hv hnext, step_asleep hv hsv hnext, ?_⟩
  rcases hcall with hentering | hreleased
  · exact hentering.step hv hnext
  · exact .inr (hreleased.step hv hnext)

theorem sleepReturn_chan {ret : Ret} {ok : Bool} (hs : Asleep s) (hc : s.exec c = .thread P)
    (hpc : s.pc P = .sleepReturn l ret) (hstep : step initproc s (.go c ok) = some t) :
    t.lk l = some c ∧ t.exec c = .thread P ∧ (t.proc P).chan = none ∧ t.pc P = ret.pc := by
  have hchan : (s.proc P).chan = none := by
    refine Option.eq_none_iff_forall_ne_some.2 (fun ch hch => ?_)
    have hon := hs.chan P ch hch
    rw [hpc] at hon
    cases hon
  simp only [step, hc, hpc, stepThread] at hstep
  obtain ⟨u, hu, rfl⟩ := Option.map_eq_some_iff.1 hstep
  rw [State.acquire] at hu
  split at hu
  · cases hu
    exact ⟨by simp [State.goto], hc, hchan, by simp [State.goto]⟩
  · cases hu

theorem sleepWakeup_run {as : List (Action n Λ γ)} (hrun : Run (step initproc) unguarded (start initproc) as s) :
    (∀ P c ch l ret, s.exec c = .thread P → s.pc P = .sleepAcquire ch l ret → s.lk l = some c →
      ∀ bs u, Run (step initproc) unguarded s bs u →
      ∀ Q c' ret', Q ≠ P → u.exec c' = .thread Q → u.pc Q = .wake (some ch) 0 ret' → u.lk l = some c' →
      ∀ cs t, Run (step initproc) unguarded u cs t → ¬ t.inWakeup Q (u.wakeups Q) →
        ¬ t.asleep P ch (s.calls P)) ∧
    ∀ P c l ret ok t, s.exec c = .thread P → s.pc P = .sleepReturn l ret →
      step initproc s (.go c ok) = some t →
        t.lk l = some c ∧ t.exec c = .thread P ∧ (t.proc P).chan = none ∧ t.pc P = ret.pc := by
  obtain ⟨h, hs⟩ : Inv s ∧ Asleep s :=
    hrun.invariant (I := fun v => Inv v ∧ Asleep v) ⟨start_inv initproc, start_asleep initproc⟩
      (fun _ _ _ hv _ hnext => ⟨step_inv hv.1 hnext, step_asleep hv.1 hv.2 hnext⟩)
  refine ⟨fun P c ch l ret hc hpc hl bs u hbs Q c' ret' hne hcQ hpcQ hlQ cs t hcs hret hasleep => ?_,
    fun P c l ret ok t hc hpc hstep => sleepReturn_chan hs hc hpc hstep⟩
  obtain ⟨hu, hsu, hcall⟩ := sleep_entering h hs hc hpc hl hbs
  have hwoken := wakeup_woken hu hsu hcall hne hcQ hpcQ hlQ hcs hret
  exact hwoken.2 hasleep.2.2 hasleep.1

/-- The child calls `sleep`; the parent scans the table while the child is on its way. -/
theorem sleepWakeup_run_child : ∃ s u t : State 2 Unit (Fin 2),
    Run (step 0) unguarded (start 0)
      (forked ++ [.call 1 (.acquire (.other ())), .call 1 (.sleep (.other 7) (.other ()))]) s ∧
    Run (step 0) unguarded s
      (goes 1 2 ++ [.call 0 (.acquire (.other ())), .call 0 (.wakeup (some (.other 7)))]) u ∧
    Run (step 0) unguarded u (goes 0 1 ++ goes 1 5 ++ goes 0 3) t ∧
    (t.proc 1).state = .runnable ∧ ¬ t.asleep 1 (.other 7) (s.calls 1) := by
  have hsome : ((execute (step 0) unguarded (start 0)
      (forked ++ [.call 1 (.acquire (.other ())), .call 1 (.sleep (.other 7) (.other ()))])).bind (fun s =>
      (execute (step 0) unguarded s
        (goes 1 2 ++ [.call 0 (.acquire (.other ())), .call 0 (.wakeup (some (.other 7)))])).bind (fun u =>
        (execute (step 0) unguarded u (goes 0 1 ++ goes 1 5 ++ goes 0 3)).map (fun t =>
          decide ((s.exec 1 = .thread 1 ∧ s.pc 1 = .sleepAcquire (.other 7) (.other ()) .kernel ∧
            s.lk (.other ()) = some 1) ∧
            (u.exec 0 = .thread 0 ∧ u.pc 0 = .wake (some (.other 7)) 0 .kernel ∧ u.lk (.other ()) = some 0) ∧
            t.pc 0 = .kernel ∧ (t.proc 1).state = .runnable))))) = some true := by
    decide +kernel
  obtain ⟨s, hs, hsome⟩ := Option.bind_eq_some_iff.1 hsome
  obtain ⟨u, hu, hsome⟩ := Option.bind_eq_some_iff.1 hsome
  obtain ⟨t, ht, hfacts⟩ := Option.map_eq_some_iff.1 hsome
  obtain ⟨⟨hexec, hpc, hlk⟩, ⟨hexec', hpc', hlk'⟩, hkernel, hstate⟩ := of_decide_eq_true hfacts
  have hrun := Run.of_execute hs
  have hret : ¬ t.inWakeup 0 (u.wakeups 0) := by
    rintro ⟨-, chan, ret, ⟨i, hi⟩ | ⟨q, hq⟩⟩
    · rw [hkernel] at hi
      cases hi
    · rw [hkernel] at hq
      cases hq
  exact ⟨s, u, t, hrun, .of_execute hu, .of_execute ht, hstate,
    (sleepWakeup_run hrun).1 1 1 (.other 7) (.other ()) .kernel hexec hpc hlk _ u (.of_execute hu) 0 0 .kernel
      (by decide) hexec' hpc' hlk' _ t (.of_execute ht) hret⟩

end Xv6.Scheduling
