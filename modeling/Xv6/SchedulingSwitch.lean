import Xv6.SchedulingSections

/-!
# Context switches

The steps of a scheduler, the two halves of the switch from a process to it, and handlers.
-/

namespace Xv6.Scheduling

open Function HeldLocks ProcessTable

variable {n : ℕ} {Λ γ : Type} {s t : State n Λ γ} {c c' : γ} {p q np : Fin n} {x y : Pc n Λ}
  {v : Proc n} {z : SchedPc n}

theorem Inv.exec_scheduler (h : Inv s) (hspc : ∀ p, s.spc c ≠ .away p) : s.exec c = .scheduler := by
  cases hexec : s.exec c with
  | scheduler => rfl
  | thread p | leaving p => exact absurd ((h.exec c p).1 (by rw [hexec]; rfl)) (hspc p)

/-- A process whose lock a CPU holds, and which is not `RUNNING`, is chosen by no other. -/
theorem Inv.not_engaged (h : Inv s) (hheld : s.holds c = some q) (hself : (s.exec c).proc ≠ some q)
    (hstate : (s.proc q).state ≠ .running) (hne : c' ≠ c) : (s.spc c').engaged ≠ some q := by
  intro heng
  have hnot : s.holds c' ≠ some q := fun hheld' => hne (h.lock.unique hheld' hheld)
  cases hspc : s.spc c' with
  | away p =>
    rw [hspc] at heng
    cases heng
    exact h.exec_ne hheld hself hstate c' ((h.exec c' q).2 hspc)
  | switch p | back p =>
    rw [hspc] at heng
    cases heng
    have hexec := h.exec_scheduler (c := c') (by simp [hspc])
    simp [State.holds, hexec, hspc, SchedPc.locked] at hnot
  | _ =>
    rw [hspc] at heng
    cases heng

theorem Inv.parked_of_switch (h : Inv s) (hspc : s.spc c = .switch q) :
    (∀ c', (s.exec c').proc ≠ some q) ∧ (s.pc q).parked = true := by
  have hoff : ∀ c', (s.exec c').proc ≠ some q := by
    intro c' hc'
    have haway := (h.exec c' q).1 hc'
    have heq := h.engaged c' c q (by rw [haway]; rfl) (by rw [hspc]; rfl)
    rw [heq, hspc] at haway
    cases haway
  refine ⟨hoff, h.parked q (fun c' hc' => hoff c' ?_)⟩
  rw [hc']
  rfl

section Steps

variable [DecidableEq γ]

theorem Inv.save {k : After n Λ} (h : Inv s) (hc : s.exec c = .thread p) (hpc : s.pc p = .sched k) :
    Inv { s.goto p (.back k) with exec := Function.update s.exec c (.leaving p) } := by
  have hother : ∀ {c' q}, c' ≠ c → s.exec c' = .thread q → q ≠ p := by
    rintro c' q hne hq rfl
    exact hne (h.thread_unique hq hc)
  have hproc : ∀ c', (Function.update s.exec c (.leaving p) c').proc = (s.exec c').proc := by
    intro c'
    rcases eq_or_ne c' c with rfl | hne
    · rw [Function.update_self, hc]
      rfl
    · rw [Function.update_of_ne hne]
  have hholds : State.holds { s.goto p (.back k) with exec := Function.update s.exec c (.leaving p) } =
      s.holds := by
    funext c'
    rcases eq_or_ne c' c with rfl | hne
    · simp [State.holds, hc, hpc, Pc.locked]
    · simp only [State.holds, Function.update_of_ne hne]
      cases hexec : s.exec c' with
      | thread q => simp only [State.goto, Function.update_of_ne (hother hne hexec)]
      | _ => rfl
  have hruns : State.runs { s.goto p (.back k) with exec := Function.update s.exec c (.leaving p) } =
      s.runs := by
    funext c'
    rcases eq_or_ne c' c with rfl | hne
    · simp [State.runs, hc, hpc, Pc.changed]
    · simp only [State.runs, Function.update_of_ne hne]
      cases hexec : s.exec c' with
      | thread q => simp only [State.goto, Function.update_of_ne (hother hne hexec)]
      | _ => rfl
  have hchild : ∀ q, State.child { s.goto p (.back k) with
      exec := Function.update s.exec c (.leaving p) } q = s.child q := by
    intro q
    rcases eq_or_ne q p with rfl | hne
    · simp [State.child, State.goto, hpc, Pc.child]
    · simp [State.child, State.goto, hne]
  refine ⟨h.me, h.current, fun c' q => ?_, h.engaged, ?_, ?_, fun q => ?_, fun q hq => ?_,
    fun q z hz => ?_, fun q np hq => ?_, fun q q' np hq hq' => ?_⟩
  · exact (hproc c') ▸ h.exec c' q
  · rw [hholds]
    exact h.lock
  · rw [hholds]
    exact h.depth
  · rw [hruns]
    exact h.running q
  · rcases eq_or_ne q p with rfl | hne
    · simp [State.goto, Pc.parked]
    · have hold : (s.pc q).parked = true := by
        refine h.parked q (fun c' hc' => hq c' ?_)
        have hne' : c' ≠ c := by
          rintro rfl
          rw [hc] at hc'
          cases hc'
          exact hne rfl
        simpa [hne'] using hc'
      simpa [State.goto, hne] using hold
  · obtain ⟨hlocked, hown, hhandler⟩ := h.saved q z hz
    refine ⟨hlocked, hown, ?_⟩
    rcases eq_or_ne q p with rfl | hne
    · rw [hpc] at hhandler
      cases k with
      | yield => simp [State.goto, Pc.inHandler]
      | _ => cases hhandler
    · simpa [State.goto, hne] using hhandler
  · exact h.child q np ((hchild q) ▸ hq)
  · exact h.parents q q' np ((hchild q) ▸ hq) ((hchild q') ▸ hq')

/-- A CPU changes what it executes; what locks and processes do is open. -/
structure Switched (s t : State n Λ γ) (c : γ) : Prop where
  pc : t.pc = s.pc
  me : t.me = s.me
  saved : t.saved = s.saved
  exec : ∀ c', c' ≠ c → t.exec c' = s.exec c'
  spc : ∀ c', c' ≠ c → t.spc c' = s.spc c'
  current : ∀ c', c' ≠ c → t.current c' = s.current c'

theorem Switched.holds (hm : Switched s t c) : t.holds = update s.holds c (t.holds c) := by
  funext c'
  rcases eq_or_ne c' c with rfl | hne
  · rw [update_self]
  · rw [update_of_ne hne, State.holds, State.holds, hm.pc, hm.exec c' hne, hm.spc c' hne]

theorem Switched.runs (hm : Switched s t c) : t.runs = update s.runs c (t.runs c) := by
  funext c'
  rcases eq_or_ne c' c with rfl | hne
  · rw [update_self]
  · rw [update_of_ne hne, State.runs, State.runs, hm.pc, hm.exec c' hne, hm.spc c' hne]

theorem Inv.cpu_step (h : Inv s) (hm : Switched s t c) (hcur : t.current c = (t.spc c).engaged)
    (hexec : ∀ p, (t.exec c).proc = some p ↔ t.spc c = .away p)
    (heng : ∀ q, (t.spc c).engaged = some q → ∀ c', c' ≠ c → (s.spc c').engaged ≠ some q)
    (hlock : Held t.lock (Function.update s.holds c (t.holds c)))
    (hdepth : Depth t.lk (Function.update s.holds c (t.holds c)) t.noff)
    (hrun : ∀ q, (t.proc q).state = .running ↔ ∃ c', Function.update s.runs c (t.runs c) c' = some q)
    (hpark : ∀ p, (∀ c', t.exec c' ≠ .thread p) → (s.pc p).parked = true)
    (hused : ∀ q, (s.proc q).state = .used → (t.proc q).state = .used) : Inv t := by
  have hchild : ∀ p, t.child p = s.child p := by
    intro p
    rw [State.child, State.child, hm.pc, hm.saved]
  refine ⟨fun p => ?_, fun c' => ?_, fun c' p => ?_, fun c1 c2 q h1 h2 => ?_, ?_, ?_, ?_, fun p hp => ?_,
    ?_, fun p np hp => ?_, fun p p' np hp hp' => ?_⟩
  · rw [hm.me]
    exact h.me p
  · rcases eq_or_ne c' c with rfl | hne
    · exact hcur
    · rw [hm.current c' hne, hm.spc c' hne]
      exact h.current c'
  · rcases eq_or_ne c' c with rfl | hne
    · exact hexec p
    · rw [hm.exec c' hne, hm.spc c' hne]
      exact h.exec c' p
  · rcases eq_or_ne c1 c with rfl | hne1
    · rcases eq_or_ne c2 c1 with rfl | hne2
      · rfl
      · rw [hm.spc c2 hne2] at h2
        exact absurd h2 (heng q h1 c2 hne2)
    · rw [hm.spc c1 hne1] at h1
      rcases eq_or_ne c2 c with rfl | hne2
      · exact absurd h1 (heng q h2 c1 hne1)
      · rw [hm.spc c2 hne2] at h2
        exact h.engaged c1 c2 q h1 h2
  · rw [hm.holds]
    exact hlock
  · rw [hm.holds]
    exact hdepth
  · rw [hm.runs]
    exact hrun
  · rw [hm.pc]
    exact hpark p hp
  · rw [hm.saved, hm.pc]
    exact h.saved
  · rw [hchild] at hp
    exact hused np (h.child p np hp)
  · rw [hchild] at hp hp'
    exact h.parents p p' np hp hp'

omit [DecidableEq γ] in
theorem State.runs_scheduler (hc : s.exec c = .scheduler) (hs : (s.spc c).engaged = none) :
    s.runs c = none := by
  simp only [State.runs, hc]
  cases hspc : s.spc c with
  | switch q =>
    rw [hspc] at hs
    cases hs
  | _ => rfl

omit [DecidableEq γ] in
theorem State.holds_scheduler (hc : s.exec c = .scheduler) : s.holds c = (s.spc c).locked := by
  simp only [State.holds, hc]

theorem Inv.sched_moved (h : Inv s) (hc : s.exec c = .scheduler) (hs : (s.spc c).engaged = none)
    (hm : Switched s t c) (hexec : t.exec c = s.exec c) (hcur : t.current c = s.current c)
    (hspc : t.spc c = z) (hz : z.engaged = none)
    (hlock : Held t.lock (Function.update s.holds c z.locked))
    (hdepth : Depth t.lk (Function.update s.holds c z.locked) t.noff)
    (hstate : ∀ q, (t.proc q).state = .running ↔ (s.proc q).state = .running)
    (hused : ∀ q, (s.proc q).state = .used → (t.proc q).state = .used) : Inv t := by
  have hc' : t.exec c = .scheduler := hexec.trans hc
  have hz' : (t.spc c).engaged = none := by rw [hspc, hz]
  have hholds : t.holds c = z.locked := by rw [State.holds_scheduler hc', hspc]
  have hsame : ∀ c', t.exec c' = s.exec c' := by
    intro c'
    rcases eq_or_ne c' c with rfl | hne
    · exact hexec
    · exact hm.exec c' hne
  refine h.cpu_step hm ?_ (fun p => ?_) (fun q hq => ?_) ?_ ?_ (fun q => ?_) (fun p hp => ?_) hused
  · rw [hcur, h.current, hs, hz']
  · refine iff_of_false ?_ ?_
    · rw [hc']
      exact nofun
    · intro haway
      rw [haway] at hz'
      cases hz'
  · rw [hz'] at hq
    cases hq
  · rw [hholds]
    exact hlock
  · rw [hholds]
    exact hdepth
  · have hruns : Function.update s.runs c (t.runs c) = s.runs := by
      rw [update_eq_self_iff, State.runs_scheduler hc' hz', State.runs_scheduler hc hs]
    rw [hruns, hstate]
    exact h.running q
  · exact h.parked p (fun c' hc' => hp c' ((hsame c').trans hc'))

theorem State.schedGoto_spc (s : State n Λ γ) (c : γ) (z : SchedPc n) : (s.schedGoto c z).spc c = z := by
  simp [State.schedGoto]

theorem State.schedGoto_spc_of_ne (s : State n Λ γ) (z : SchedPc n) (hne : c' ≠ c) :
    (s.schedGoto c z).spc c' = s.spc c' := by
  simp [State.schedGoto, hne]

theorem Inv.schedGoto (h : Inv s) (hc : s.exec c = .scheduler) (hs : (s.spc c).engaged = none)
    (hz : z.engaged = none) (hlocked : z.locked = (s.spc c).locked) : Inv (s.schedGoto c z) := by
  have hholds : Function.update s.holds c z.locked = s.holds := by
    rw [update_eq_self_iff, State.holds_scheduler hc, hlocked]
  refine h.sched_moved hc hs ⟨rfl, rfl, rfl, fun _ _ => rfl, fun c' hne => ?_, fun _ _ => rfl⟩ rfl rfl
    (State.schedGoto_spc _ c z) hz ?_ ?_ (fun _ => Iff.rfl) (fun _ hq => hq)
  · exact State.schedGoto_spc_of_ne s z hne
  · rw [hholds]
    exact h.lock
  · rw [hholds]
    exact h.depth

theorem Inv.schedGoto_acquireProc (h : Inv s) (hc : s.exec c = .scheduler)
    (hacq : s.acquireProc c q = some t) (hs : (s.spc c).engaged = none)
    (hfree : (s.spc c).locked = none) (hz : z.engaged = none) (hlocked : z.locked = some q) :
    Inv (t.schedGoto c z) := by
  rw [State.acquireProc] at hacq
  split at hacq
  · rename_i hq
    cases hacq
    have hnone : s.holds c = none := (State.holds_scheduler hc).trans hfree
    refine h.sched_moved hc hs ⟨rfl, rfl, rfl, fun _ _ => rfl, fun c' hne => ?_, fun _ _ => rfl⟩ rfl rfl
      (State.schedGoto_spc _ c z) hz ?_ ?_ (fun _ => Iff.rfl) (fun _ hq => hq)
    · exact State.schedGoto_spc_of_ne _ z hne
    · rw [hlocked]
      exact h.lock.acquire hq hnone
    · rw [hlocked]
      exact h.depth.enter hnone
  · cases hacq

theorem Inv.schedGoto_releaseProc (h : Inv s) (hc : s.exec c = .scheduler)
    (hrel : (s.setProc q v).releaseProc c q = some t) (hs : (s.spc c).engaged = none)
    (hheld : (s.spc c).locked = some q) (hz : z.engaged = none) (hlocked : z.locked = none)
    (hrun : v.state = .running ↔ (s.proc q).state = .running)
    (hused : (s.proc q).state = .used → v.state = .used) : Inv (t.schedGoto c z) := by
  rw [State.releaseProc] at hrel
  split at hrel
  · cases hrel
    have hsome : s.holds c = some q := (State.holds_scheduler hc).trans hheld
    refine h.sched_moved hc hs ⟨rfl, rfl, rfl, fun _ _ => rfl, fun c' hne => ?_, fun _ _ => rfl⟩ rfl rfl
      (State.schedGoto_spc _ c z) hz ?_ ?_ (fun q' => ?_) (fun q' hq' => ?_)
    · exact State.schedGoto_spc_of_ne _ z hne
    · rw [hlocked]
      exact h.lock.release hsome
    · rw [hlocked]
      exact h.depth.leave hsome
    · rcases eq_or_ne q' q with rfl | hne
      · simp [State.schedGoto, State.setProc, hrun]
      · simp [State.schedGoto, State.setProc, hne]
    · rcases eq_or_ne q' q with rfl | hne
      · simpa [State.schedGoto, State.setProc] using hused hq'
      · simpa [State.schedGoto, State.setProc, hne] using hq'
  · cases hrel

theorem Inv.choose (h : Inv s) (hc : s.exec c = .scheduler) (hspc : s.spc c = .test q)
    (hstate : (s.proc q).state = .runnable)
    (ht : t = { (s.setState q .running).schedGoto c (.switch q) with
      current := Function.update s.current c (some q) }) : Inv t := by
  have hheld : s.holds c = some q := by
    rw [State.holds_scheduler hc, hspc]
    rfl
  have hself : (s.exec c).proc ≠ some q := by
    rw [hc]
    rintro ⟨⟩
  have hnot : (s.proc q).state ≠ .running := by
    rw [hstate]
    rintro ⟨⟩
  have hm : Switched s t c := by
    subst ht
    exact ⟨rfl, rfl, rfl, fun _ _ => rfl, fun c' hne => State.schedGoto_spc_of_ne _ _ hne,
      fun c' hne => Function.update_of_ne hne _ _⟩
  have hc' : t.exec c = .scheduler := by
    subst ht
    exact hc
  have hspc' : t.spc c = .switch q := by
    subst ht
    exact State.schedGoto_spc _ c _
  have hcur : t.current c = some q := by
    subst ht
    exact Function.update_self ..
  have hself' : (t.proc q).state = .running := by
    subst ht
    simp [State.schedGoto, State.setState, State.setProc]
  have hother : ∀ q' ≠ q, t.proc q' = s.proc q' := by
    intro q' hne
    subst ht
    simp [State.schedGoto, State.setState, State.setProc, hne]
  have hlk : t.lock = s.lock ∧ t.lk = s.lk ∧ t.noff = s.noff ∧ t.exec = s.exec := by
    subst ht
    exact ⟨rfl, rfl, rfl, rfl⟩
  have hholds : Function.update s.holds c (t.holds c) = s.holds := by
    rw [update_eq_self_iff, hheld, State.holds_scheduler hc', hspc']
    rfl
  have hruns : t.runs c = some q := by
    simp [State.runs, hc', hspc']
  refine h.cpu_step hm ?_ (fun p => ?_) (fun q' hq' c' hne => ?_) ?_ ?_ (fun q' => ?_) (fun p hp => ?_)
    (fun q' hq' => ?_)
  · rw [hcur, hspc']
    rfl
  · rw [hc', hspc']
    exact ⟨by rintro ⟨⟩, by rintro ⟨⟩⟩
  · rw [hspc'] at hq'
    cases hq'
    exact h.not_engaged hheld hself hnot hne
  · rw [hholds, hlk.1]
    exact h.lock
  · rw [hholds, hlk.2.1, hlk.2.2.1]
    exact h.depth
  · rw [hruns]
    rcases eq_or_ne q' q with rfl | hne
    · exact iff_of_true hself' ⟨c, Function.update_self c _ s.runs⟩
    · rw [hother q' hne, h.running q']
      refine exists_congr (fun c' => ?_)
      rcases eq_or_ne c' c with rfl | hne'
      · rw [Function.update_self, State.runs_scheduler hc (by rw [hspc]; rfl)]
        simp [Ne.symm hne]
      · rw [Function.update_of_ne hne']
  · rw [hlk.2.2.2] at hp
    exact h.parked p hp
  · have hne : q' ≠ q := by
      rintro rfl
      rw [hstate] at hq'
      cases hq'
    rw [hother q' hne]
    exact hq'

theorem Inv.cpu_same (h : Inv s) (hm : Switched s t c) (hcur : t.current c = (t.spc c).engaged)
    (hexec : ∀ p, (t.exec c).proc = some p ↔ t.spc c = .away p)
    (heng : (t.spc c).engaged = none ∨ (t.spc c).engaged = (s.spc c).engaged)
    (hlocks : t.lock = s.lock ∧ t.lk = s.lk ∧ t.noff = s.noff ∧ t.proc = s.proc)
    (hholds : t.holds c = s.holds c) (hruns : t.runs c = s.runs c)
    (hpark : ∀ p, (∀ c', t.exec c' ≠ .thread p) → (s.pc p).parked = true) : Inv t := by
  refine h.cpu_step hm hcur hexec (fun q hq c' hne hq' => ?_) ?_ ?_ (fun q => ?_) hpark (fun q hq => ?_)
  · rcases heng with hnone | hsame
    · rw [hnone] at hq
      cases hq
    · exact hne (h.engaged c' c q hq' (hsame.symm.trans hq))
  · rw [hholds, Function.update_eq_self, hlocks.1]
    exact h.lock
  · rw [hholds, Function.update_eq_self, hlocks.2.1, hlocks.2.2.1]
    exact h.depth
  · rw [hruns, Function.update_eq_self, hlocks.2.2.2]
    exact h.running q
  · rwa [hlocks.2.2.2]

theorem Inv.enter (h : Inv s) (hc : s.exec c = .scheduler) (hspc : s.spc c = .switch q) :
    Inv { s.schedGoto c (.away q) with exec := Function.update s.exec c (.thread q) } := by
  obtain ⟨-, hparked⟩ := h.parked_of_switch hspc
  have hnone : (s.exec c).proc = none := by
    rw [hc]
    rfl
  refine h.cpu_same (c := c) ⟨rfl, rfl, rfl, fun c' hne => ?_, fun c' hne => ?_, fun _ _ => rfl⟩ ?_
    (fun p => ?_) (.inr ?_) ⟨rfl, rfl, rfl, rfl⟩ ?_ ?_ (fun p hp => h.parked p (fun c' hc' => hp c' ?_))
  · exact Function.update_of_ne hne _ _
  · exact State.schedGoto_spc_of_ne _ _ hne
  · simp [State.schedGoto, h.current, hspc, SchedPc.engaged]
  · simp [State.schedGoto, Exec.proc]
  · simp [State.schedGoto, hspc, SchedPc.engaged]
  · simp [State.holds, State.schedGoto, hc, hspc, SchedPc.locked, Pc.locked_of_parked hparked]
  · simp [State.runs, State.schedGoto, hc, hspc, Pc.changed_of_parked hparked]
  · have hne : c' ≠ c := by
      rintro rfl
      rw [hc] at hc'
      cases hc'
    simpa [State.schedGoto, hne] using hc'

theorem Inv.leave (h : Inv s) (hc : s.exec c = .leaving p) (hstep : stepLeave s c = some t) : Inv t := by
  have haway := (h.exec c p).1 (by rw [hc]; rfl)
  simp only [stepLeave, haway, Option.some.injEq] at hstep
  subst hstep
  refine h.cpu_same (c := c) ⟨rfl, rfl, rfl, fun c' hne => ?_, fun c' hne => ?_, fun _ _ => rfl⟩ ?_
    (fun q => ?_) (.inr ?_) ⟨rfl, rfl, rfl, rfl⟩ ?_ ?_ (fun q hq => h.parked q (fun c' hc' => hq c' ?_))
  · exact Function.update_of_ne hne _ _
  · exact State.schedGoto_spc_of_ne _ _ hne
  · simp [State.schedGoto, h.current, haway, SchedPc.engaged]
  · simp [State.schedGoto, Exec.proc]
  · simp [State.schedGoto, haway, SchedPc.engaged]
  · simp [State.holds, State.schedGoto, hc, SchedPc.locked]
  · simp [State.runs, State.schedGoto, hc]
  · have hne : c' ≠ c := by
      rintro rfl
      rw [hc] at hc'
      cases hc'
    simpa [State.schedGoto, hne] using hc'

theorem Inv.clear (h : Inv s) (hc : s.exec c = .scheduler) (hspc : s.spc c = .back q) :
    Inv { s.schedGoto c (.unlock q) with current := Function.update s.current c none } := by
  refine h.cpu_same (c := c) ⟨rfl, rfl, rfl, fun _ _ => rfl, fun c' hne => ?_, fun c' hne => ?_⟩ ?_
    (fun p => ?_) (.inl ?_) ⟨rfl, rfl, rfl, rfl⟩ ?_ ?_ (fun p hp => h.parked p hp)
  · exact State.schedGoto_spc_of_ne _ _ hne
  · exact Function.update_of_ne hne _ _
  · simp [State.schedGoto, SchedPc.engaged]
  · simp [State.schedGoto, hc, Exec.proc]
  · simp [State.schedGoto, SchedPc.engaged]
  · simp [State.holds, State.schedGoto, hc, hspc, SchedPc.locked]
  · simp [State.runs, State.schedGoto, hc, hspc]

end Steps

end Xv6.Scheduling
