import Xv6.ProcessTreeFork

/-!
# `exit` and `wait` keep the process tree

`exit` hands its children to `initproc` and wakes both parents before it is a zombie;
`wait` sleeps only after a scan without a zombie. Then every step keeps the tree.
-/

namespace Xv6.ProcessTable

open CriticalSections Function TransitionRuns

variable {n : ℕ} {initproc p q r : Fin n} {s t : State n} {x : Place n}

theorem Tree.reparent {status : ℤ} {pp : Fin n} (h : Tree initproc s)
    (hrun : (s.proc p).state = .running) (hp : s.place p = .exitReparent status pp.val)
    (hchild : s.parent pp = some p) (hkind : t.kind = s.kind)
    (hparent : t.parent = update s.parent pp (some initproc))
    (hawake : ¬ t.AsleepInWait initproc)
    (hsleeping : ∀ q, (t.proc q).state = .sleeping →
      (s.proc q).state = .sleeping ∧ (t.proc q).chan = (s.proc q).chan)
    (htp : t.place = update s.place p (.exitReparent status (pp.val + 1)))
    (htl : t.waitLock = s.waitLock) : Tree initproc t := by
  have hk := h.knows p
  rw [hp] at hk
  have hholds : (s.place p).holds = true := by rw [hp]; rfl
  have hplace := place_of_update htp
  have hself : t.place p = .exitReparent status (pp.val + 1) := by rw [htp, update_self]
  have hnotinit : pp ≠ initproc := by
    rintro rfl
    simp [h.init.2] at hchild
  have hembryo (q : Fin n) (hq : q ≠ p) : (s.place q).embryo ≠ some pp := by
    -- the parent of an embryo is the process that forks it
    intro he
    have hkq := h.knows q
    cases hx : s.place q <;> rw [hx] at he hkq <;> cases he
    · simp [hkq.2] at hchild
    · exact hq (Option.some.inj (hkq.2.symm.trans hchild))
  exact h.change (p := p) (r := pp) {
    kind := fun q _ => congrFun hkind q
    parent := fun q hq => by rw [hparent, update_of_ne hq]
    place := hplace
    mutex := by
      rw [htp, htl]
      exact h.mutex.move (by rw [hp]; rfl)
    notInit := hnotinit
    free := fun hf => by
      rw [hkind] at hf
      simp [h.free pp hf] at hchild
    newParent := fun q hq => by
      rw [hparent, update_self] at hq
      rw [hkind, ← Option.some.inj hq]
      exact h.init.1
    children := by
      rcases eq_or_ne (t.kind pp) .active with hact | hact
      · exact Or.inl hact
      · rw [hkind] at hact
        exact Or.inr (fun q hq => hact (h.parent q pp hq))
    orphan := fun _ hq => by simp [hparent] at hq
    adopted := by simp [hp]
    forker := by simp [hself, Place.embryo]
    alone := hembryo
    busy := fun _ => by rw [hkind, kind_running hrun]
    resting := by
      rcases eq_or_ne (s.kind pp) .active with hact | hact
      · exact Or.inl (by rw [hkind, hact])
      · exact Or.inr (Or.inr (h.place_of_kind hact))
    knows := by
      rw [hself]
      refine ⟨hk.1, ?_⟩
      intro q hq
      rcases eq_or_ne q pp with rfl | hne
      · rw [hparent, update_self] at hq
        exact absurd (Option.some.inj hq).symm hk.1
      · rw [hparent, update_of_ne hne] at hq
        have hle := hk.2 q hq
        have hval : q.val ≠ pp.val := fun he => hne (Fin.ext he)
        omega
    holder := fun q hq hin => absurd (h.mutex.eq hin hholds) hq
    asleep := asleep_of hsleeping hplace hrun
    awake := fun q ha hq => by
      rw [hparent, update_self] at hq
      exact absurd (Option.some.inj hq ▸ ha) hawake }

/-- The end of `exit`: no child is left, and the parent has been woken. -/
theorem Tree.exit {status : ℤ} {y : Proc n} (h : Tree initproc s)
    (hrun : (s.proc p).state = .running) (hp : s.place p = .exitZombie status)
    (hy : y.state = .zombie) (hpar : y.parent = s.parent p)
    (ht : t.proc = update s.proc p y) (htp : t.place = update s.place p .user)
    (htl : t.waitLock = none) : Tree initproc t := by
  have hk := h.knows p
  rw [hp] at hk
  obtain ⟨hnotinit, hchildless, hparentAwake⟩ := hk
  have hholds : (s.place p).holds = true := by rw [hp]; rfl
  have hkind : t.kind = update s.kind p .zombie := by
    rw [kind_of_update ht, hy]
    rfl
  have hparent := parent_of_same ht hpar
  have hplace := place_of_update htp
  have hself : t.place p = .user := by rw [htp, update_self]
  have hasleep := asleep_of (sleeping_of_update ht (by rw [hy]; decide)) hplace hrun
  have hembryo (q : Fin n) : (s.place q).embryo ≠ some p := fun he => by
    have hk := h.embryo_kind he
    rw [kind_running hrun] at hk
    cases hk
  exact h.change (p := p) (r := p) {
    kind := fun q hq => by rw [hkind, update_of_ne hq]
    parent := fun q _ => congrFun hparent q
    place := hplace
    mutex := by
      rw [htp, htl]
      exact h.mutex.release hholds rfl
    notInit := hnotinit
    free := fun hf => by simp [hkind] at hf
    newParent := fun q hq => by
      rw [hparent] at hq
      have hne : q ≠ p := fun he => hchildless p (he ▸ hq)
      rw [hkind, update_of_ne hne]
      exact h.parent p q hq
    children := Or.inr hchildless
    orphan := fun _ hq => by
      rw [hparent] at hq
      obtain ⟨u, hu⟩ := h.orphan p hnotinit (by simp [kind_running hrun]) hq
      exact absurd (by rw [hu]; rfl) (hembryo u)
    adopted := by simp [hp]
    forker := by simp [hself, Place.embryo]
    alone := fun q _ => hembryo q
    busy := fun hu => absurd hself hu
    resting := Or.inr (Or.inl rfl)
    knows := by
      rw [hself]
      trivial
    holder := fun q hq hin => absurd (h.mutex.eq hin hholds) hq
    asleep := hasleep
    awake := fun q ha hq => absurd (hasleep q ha).1 (hparentAwake q (hparent ▸ hq)) }

theorem Tree.reap {pp : Fin n} {y : Proc n} (h : Tree initproc s)
    (hrun : (s.proc p).state = .running) (hholds : (s.place p).holds = true)
    (hzombie : s.kind pp = .zombie) (hy : y.state = .unused) (hpar : y.parent = none)
    (ht : t.proc = update s.proc pp y) (htp : t.place = update s.place p .user)
    (htl : t.waitLock = none) : Tree initproc t := by
  have hinactive : s.kind pp ≠ .active := by rw [hzombie]; decide
  have hkind : t.kind = update s.kind pp .free := by
    rw [kind_of_update ht, hy]
    rfl
  have hparent : t.parent = update s.parent pp none := by
    rw [parent_of_update ht, hpar]
  have hplace := place_of_update htp
  have hself : t.place p = .user := by rw [htp, update_self]
  exact h.change (p := p) (r := pp) {
    kind := fun q hq => by rw [hkind, update_of_ne hq]
    parent := fun q hq => by rw [hparent, update_of_ne hq]
    place := hplace
    mutex := by
      rw [htp, htl]
      exact h.mutex.release hholds rfl
    notInit := h.ne_initproc hinactive
    free := fun _ => by rw [hparent, update_self]
    newParent := by simp [hparent]
    children := Or.inr (fun q hq => hinactive (h.parent q pp hq))
    orphan := fun hf => by simp [hkind] at hf
    adopted := fun q hq => by
      rw [hq] at hholds
      cases hholds
    forker := by simp [hself, Place.embryo]
    alone := fun q _ he => by simp [h.embryo_kind he] at hzombie
    busy := fun hu => absurd hself hu
    resting := Or.inr (Or.inr (h.place_of_kind hinactive))
    knows := by
      rw [hself]
      trivial
    holder := fun q hq hin => absurd (h.mutex.eq hin hholds) hq
    asleep := asleep_of (sleeping_of_update ht (by rw [hy]; decide)) hplace hrun
    awake := fun _ _ _ => by simp [hkind] }

theorem sleeping_of_wakeup {c : Option (Chan n)}
    (h : ((wakeup s p c).proc q).state = .sleeping) :
    ((s.proc q).state = .sleeping ∧ ((wakeup s p c).proc q).chan = (s.proc q).chan) ∧
      (q ≠ p → (s.proc q).chan ≠ c) := by
  simp only [wakeup] at h ⊢
  split at h
  · rename_i hq
    rw [if_pos hq]
    exact ⟨⟨h, rfl⟩, fun hne => absurd hq hne⟩
  · rename_i hq
    rw [if_neg hq]
    obtain ⟨hs, hc⟩ := Proc.asleep_of_wake h
    refine ⟨⟨hs, ?_⟩, fun _ => hc⟩
    rw [Proc.wake, if_neg (fun hand => hc hand.2)]

theorem tree_reparentTurn {status : ℤ} (h : Tree initproc s) (hrun : (s.proc p).state = .running)
    (pp : Fin n) (hp : s.place p = .exitReparent status pp.val) :
    Tree initproc ((reparentTurn initproc s p pp).goto p (.exitReparent status (pp.val + 1))) := by
  have hk := h.knows p
  rw [hp] at hk
  rw [reparentTurn]
  split
  · rename_i hchild
    have hinitp : initproc ≠ p := Ne.symm hk.1
    have hsame (q : Fin n) : (((s.setProc pp { s.proc pp with parent := some initproc }).proc q).state =
        (s.proc q).state) ∧ ((s.setProc pp { s.proc pp with parent := some initproc }).proc q).chan =
        (s.proc q).chan := by
      rcases eq_or_ne q pp with rfl | hne <;> simp [State.setProc, *]
    refine h.reparent hrun hp hchild ?_ ?_ ?_ ?_ rfl rfl
    · change (wakeup (s.setProc pp _) p _).kind = s.kind
      rw [kind_wakeup, kind_setProc]
      exact update_eq_self pp s.kind
    · change (wakeup (s.setProc pp _) p _).parent = _
      rw [parent_wakeup, parent_setProc]
    · rintro ⟨hs, addr, hq⟩
      obtain ⟨⟨hold, _⟩, hchan⟩ := sleeping_of_wakeup hs
      rw [(hsame initproc).1] at hold
      rw [(hsame initproc).2] at hchan
      refine hchan hinitp (h.chan initproc ⟨hold, addr, ?_⟩)
      exact (update_of_ne hinitp _ _).symm.trans hq
    · intro q hq
      obtain ⟨⟨hold, hchan⟩, _⟩ := sleeping_of_wakeup hq
      rw [(hsame q).1] at hold
      rw [(hsame q).2] at hchan
      exact ⟨hold, hchan⟩
  · rename_i hother
    apply h.goto hrun (by rw [hp]; rfl) rfl (by rw [hp]; rfl)
    refine ⟨hk.1, ?_⟩
    intro q hq
    have hle := hk.2 q hq
    have hne : q.val ≠ pp.val := fun he => hother (Fin.ext he ▸ hq)
    omega

theorem tree_exitWakeup {status : ℤ} (h : Tree initproc s) (hrun : (s.proc p).state = .running)
    (hp : s.place p = .exitWakeup status) : Tree initproc
      ((wakeup s p ((s.proc p).parent.map .proc)).goto p (.exitZombie status)) := by
  have hk := h.knows p
  rw [hp] at hk
  generalize ht : (wakeup s p ((s.proc p).parent.map .proc)).goto p (.exitZombie status) = t
  have hplace : ∀ q, q ≠ p → t.place q = s.place q := fun q hq => by
    rw [← ht]
    exact update_of_ne hq _ _
  have hself : t.place p = .exitZombie status := by
    rw [← ht]
    exact update_self p _ s.place
  have hkind : t.kind = s.kind := ht ▸ kind_wakeup s p _
  have hparent : t.parent = s.parent := ht ▸ parent_wakeup s p _
  have hslept : ∀ q, (t.proc q).state = .sleeping →
      ((s.proc q).state = .sleeping ∧ (t.proc q).chan = (s.proc q).chan) ∧
        (q ≠ p → (s.proc q).chan ≠ (s.proc p).parent.map .proc) := by
    intro q hq
    rw [← ht] at hq ⊢
    exact sleeping_of_wakeup hq
  have hasleep := asleep_of (fun q hq => (hslept q hq).1) hplace hrun
  apply h.move hkind hparent hplace ?_ (kind_running hrun) (by rw [hp]; rfl) (by rw [hself]; rfl)
  · rw [hself]
    refine ⟨hk.1, fun q hq => hk.2 q (hparent ▸ hq), ?_⟩
    intro q hq ha
    rw [hparent] at hq
    have hne : q ≠ p := fun he => hk.2 p (he ▸ hq)
    apply (hslept q ha.1).2 hne
    rw [h.chan q (hasleep q ha).1, show (s.proc p).parent = some q from hq]
    rfl
  · exact fun q ha => Or.inl (hasleep q ha)
  · rw [← ht]
    exact h.mutex.move (by rw [hp]; rfl)

theorem tree_scanTurn {addr havekids : Bool} (h : Tree initproc s)
    (hrun : (s.proc p).state = .running) (pp : Fin n)
    (hp : s.place p = .waitScan addr pp.val havekids) (ok : Bool) :
    Tree initproc (scanTurn s p pp addr ok havekids) := by
  have hk := h.knows p
  rw [hp] at hk
  have hemb : (s.place p).embryo = none := by rw [hp]; rfl
  have hholds : (s.place p).holds = true := by rw [hp]; rfl
  have hnext (hpp : s.parent pp = some p → s.kind pp ≠ .zombie) (hk' : Bool) :
      Knows initproc s p (.waitScan addr (pp.val + 1) hk') := by
    intro q hq hi
    rcases eq_or_ne q pp with rfl | hne
    · exact hpp hq
    · have hval : q.val ≠ pp.val := fun he => hne (Fin.ext he)
      exact hk q hq (by omega)
  rw [scanTurn]
  split
  · split
    · rename_i hzombie
      split
      · exact h.release hrun hemb hholds
      · have hz : s.kind pp = .zombie := by rw [State.kind, hzombie]; rfl
        refine h.reap hrun hholds hz ?_ ?_ rfl rfl rfl <;> rfl
    · rename_i hnot
      refine h.goto hrun hemb rfl (by rw [hholds]; rfl) (hnext (fun _ hz => hnot ?_) _)
      rw [State.kind] at hz
      cases hs : (s.proc pp).state <;> rw [hs] at hz <;> first | rfl | cases hz
  · rename_i hother
    exact h.goto hrun hemb rfl (by rw [hholds]; rfl) (hnext (fun hq => absurd hq hother) _)

/-- `sleep(p, &wait_lock)` after a scan that has found no zombie. -/
theorem tree_waitSleep {addr : Bool} (h : Tree initproc s) (hrun : (s.proc p).state = .running)
    (hp : s.place p = .waitSleep addr) : Tree initproc (waitSleep s p addr) := by
  have hk := h.knows p
  rw [hp] at hk
  have hholds : (s.place p).holds = true := by rw [hp]; rfl
  have hplace : ∀ q, q ≠ p → (waitSleep s p addr).place q = s.place q := fun q hq =>
    update_of_ne hq _ _
  have hself : (waitSleep s p addr).place p = .waitAcquire addr := by
    simp [waitSleep, State.release, State.setProc]
  have hkind : (waitSleep s p addr).kind = s.kind := by
    change (s.setProc p _).kind = s.kind
    rw [kind_setProc, ← update_eq_self p s.kind, kind_running hrun]
    simp [ProcState.kind]
  have hparent : (waitSleep s p addr).parent = s.parent := by
    change (s.setProc p _).parent = s.parent
    rw [parent_setProc]
    exact update_eq_self p s.parent
  apply h.move hkind hparent hplace (h.mutex.release hholds rfl) (kind_running hrun)
    (by rw [hp]; rfl) (by rw [hself]; rfl)
  · rw [hself]
    trivial
  · rintro q ⟨hs, a, hq⟩
    rcases eq_or_ne q p with rfl | hne
    · exact Or.inr ⟨rfl, hholds, by simp [waitSleep, State.release, State.setProc], hk⟩
    · have hsame : (waitSleep s p addr).proc q = s.proc q := update_of_ne hne _ _
      rw [hsame] at hs
      exact Or.inl ⟨⟨hs, a, (hplace q hne).symm.trans hq⟩, by rw [hsame]⟩

theorem tree_run {ok : Bool} (h : Tree initproc s) (hrun : (s.proc p).state = .running)
    (hs : run initproc s p ok = some t) : Tree initproc t := by
  rw [run] at hs
  split at hs <;> rename_i hp
  · cases hs
  · split at hs <;> cases Option.some.inj hs
    · exact tree_forkTurn h hrun hp _ ok
    · exact h.goto hrun (by rw [hp]; rfl) rfl (by rw [hp]; rfl) trivial
  · split at hs
    · cases Option.some.inj hs
      refine h.adopt hrun hp ‹_› ?_ ?_ rfl rfl rfl <;> rfl
    · cases hs
  · cases Option.some.inj hs
    refine h.start hrun hp ?_ ?_ rfl rfl rfl <;> rfl
  · have hk := h.knows p
    rw [hp] at hk
    split at hs
    · cases Option.some.inj hs
      exact h.acquire hrun ‹_› (by rw [hp]; rfl) rfl rfl ⟨hk, fun _ _ => Nat.zero_le _⟩
    · cases hs
  · have hk := h.knows p
    rw [hp] at hk
    split at hs <;> cases Option.some.inj hs
    · exact tree_reparentTurn h hrun ⟨_, ‹_›⟩ hp
    · rename_i hend
      refine h.goto hrun (by rw [hp]; rfl) rfl (by rw [hp]; rfl) ⟨hk.1, ?_⟩
      exact fun q hq => hend (Nat.lt_of_le_of_lt (hk.2 q hq) q.isLt)
  · cases Option.some.inj hs
    exact tree_exitWakeup h hrun hp
  · cases Option.some.inj hs
    refine h.exit hrun hp ?_ ?_ rfl rfl rfl <;> rfl
  · split at hs
    · cases Option.some.inj hs
      refine h.acquire hrun ‹_› (by rw [hp]; rfl) rfl rfl ?_
      exact fun _ _ hi => absurd hi (Nat.not_lt_zero _)
    · cases hs
  · have hk := h.knows p
    rw [hp] at hk
    split at hs <;> cases Option.some.inj hs
    · exact tree_scanTurn h hrun ⟨_, ‹_›⟩ hp ok
    · rename_i hend
      refine h.goto hrun (by rw [hp]; rfl) rfl (by rw [hp]; rfl) ?_
      exact fun q hq => hk q hq (by omega)
  · have hk := h.knows p
    rw [hp] at hk
    split at hs <;> cases Option.some.inj hs
    · exact h.release hrun (by rw [hp]; rfl) (by rw [hp]; rfl)
    · exact h.goto hrun (by rw [hp]; rfl) rfl (by rw [hp]; rfl) hk
  · cases Option.some.inj hs
    exact tree_waitSleep h hrun hp

/-- Scheduling, killing, and sleeping elsewhere: one process changes its state among
those of a started process, and does not fall asleep in `wait`. -/
theorem Tree.setState {y : Proc n} (h : Tree initproc s)
    (hkind : y.state.kind = s.kind q) (hparent : y.parent = s.parent q)
    (hasleep : y.state = .sleeping → (s.place q) ≠ .user →
      (s.proc q).state = .sleeping ∧ y.chan = (s.proc q).chan) : Tree initproc (s.setProc q y) := by
  apply h.restate
  · rw [kind_setProc, hkind, update_eq_self]
  · rw [parent_setProc, hparent, update_eq_self]
  · rfl
  · rfl
  · rintro r ⟨hs, addr, hr⟩
    rcases eq_or_ne r q with rfl | hne
    · have hself : (s.setProc r y).proc r = y := by simp [State.setProc]
      rw [hself] at hs
      have hplace : s.place r = .waitAcquire addr := hr
      obtain ⟨hold, hchan⟩ := hasleep hs (by simp [hplace])
      exact ⟨⟨hold, addr, hr⟩, by rw [hself, hchan]⟩
    · have hsame : (s.setProc q y).proc r = s.proc r := update_of_ne hne _ _
      rw [hsame] at hs
      exact ⟨⟨hs, addr, hr⟩, by rw [hsame]⟩

theorem call_eq_some {u : State n} (h : call s p u = some t) :
    ((s.proc p).state = .running ∧ s.place p = .user) ∧ u = t := by
  rw [call] at h
  split at h
  · exact ⟨‹_›, Option.some.inj h⟩
  · cases h

theorem tree_step {a : Action n} (h : Tree initproc s) (hs : step initproc s a = some t) :
    Tree initproc t := by
  rw [step.eq_def] at hs
  split at hs
  · cases hs
  cases a with
  | fork p | wait p addr =>
    obtain ⟨⟨hrun, hp⟩, rfl⟩ := call_eq_some hs
    exact h.goto hrun (by rw [hp]; rfl) rfl (by rw [hp]; rfl) trivial
  | exit p status =>
    obtain ⟨⟨hrun, hp⟩, rfl⟩ := call_eq_some hs
    rw [exitCall]
    split
    · exact h.restate rfl rfl rfl rfl (fun q ha => ⟨ha, rfl⟩)
    · exact h.goto hrun (by rw [hp]; rfl) rfl (by rw [hp]; rfl) ‹_›
  | run p ok =>
    simp only [Option.ite_none_right_eq_some] at hs
    exact tree_run h hs.1 hs.2
  | kill pid p =>
    obtain ⟨_, rfl⟩ := of_ite_some hs
    refine h.setState ?_ rfl ?_
    · simp only [State.kind]
      split
      · rename_i hsleep
        rw [hsleep]
        rfl
      · rfl
    · simp only
      split
      · exact fun hc => absurd hc (by decide)
      · exact fun hc => absurd hc ‹_›
  | schedule p =>
    obtain ⟨hrunnable, rfl⟩ := of_ite_some hs
    refine h.setState ?_ rfl (fun hc => absurd hc (by simp))
    rw [State.kind, hrunnable]
    rfl
  | yield p =>
    obtain ⟨⟨hrun, _⟩, rfl⟩ := of_ite_some hs
    exact h.setState (kind_running hrun).symm rfl (fun hc => absurd hc (by simp))
  | sleep p k =>
    obtain ⟨⟨hrun, hp⟩, rfl⟩ := call_eq_some hs
    exact h.setState (kind_running hrun).symm rfl (fun _ hu => absurd hp hu)
  | wakeup p k =>
    obtain ⟨⟨hrun, hp⟩, rfl⟩ := call_eq_some hs
    apply h.restate (kind_wakeup s p _) (parent_wakeup s p _) rfl rfl
    rintro q ⟨hq, hplace⟩
    obtain ⟨⟨hold, hchan⟩, _⟩ := sleeping_of_wakeup hq
    exact ⟨⟨hold, hplace⟩, hchan⟩

theorem tree_userinit (initproc : Fin n) : Tree initproc (userinit initproc) where
  mutex := fun q => by simp [userinit, Place.holds]
  init := by simp [State.kind, State.parent, userinit, ProcState.kind]
  free q _ := by
    simp only [State.parent, userinit]
    split <;> rfl
  parent q r hq := by
    simp only [State.parent, userinit] at hq
    split at hq <;> cases hq
  orphan q hq hk := by simp [State.kind, userinit, hq, ProcState.kind] at hk
  forker p q np hp := by simp [userinit, Place.embryo] at hp
  busy p hp := by simp [userinit] at hp
  knows p := trivial
  awake q r ha := by simp [State.AsleepInWait, userinit] at ha
  chan q ha := by simp [State.AsleepInWait, userinit] at ha

end Xv6.ProcessTable
