import Mathlib.Data.List.Nodup
import Xv6.ProcessSlots

/-!
# Exactly-once reaping

The history records who has exited and what `wait` has returned. A process is in it as
exited from the moment it is a zombie, and as reaped at most once, with the pid and the
status that it exited with.
-/

namespace Xv6.ProcessTable

open Function TransitionRuns

variable {n : ℕ} {initproc p q : Fin n} {s t : State n}

def Event.exited : Event → Option ℕ
  | .exit p _ _ => some p
  | .wait _ _ _ _ => none

def Event.reaped : Event → Option ℕ
  | .exit _ _ _ => none
  | .wait _ child _ _ => some child

structure Ledger (s : State n) : Prop where
  below : ∀ q, s.kind q ≠ .free → (s.proc q).uid < s.births
  distinct : ∀ q r, s.kind q ≠ .free → s.kind r ≠ .free →
    (s.proc q).uid = (s.proc r).uid → q = r
  old : ∀ e ∈ s.history, ∀ u, e.exited = some u ∨ e.reaped = some u → u < s.births
  unreaped : ∀ q, s.kind q ≠ .free → ∀ e ∈ s.history, e.reaped ≠ some (s.proc q).uid
  unexited : ∀ q, s.kind q ≠ .free → s.kind q ≠ .zombie →
    ∀ e ∈ s.history, e.exited ≠ some (s.proc q).uid
  zombies : ∀ q, s.kind q = .zombie →
    .exit (s.proc q).uid (s.proc q).pid (s.proc q).xstate ∈ s.history
  exitedOnce : (s.history.filterMap Event.exited).Nodup
  reapedOnce : (s.history.filterMap Event.reaped).Nodup
  reapedExited : ∀ p c pid x, .wait p c pid x ∈ s.history →
    ∃ status, .exit c pid status ∈ s.history ∧ ∀ y, x = some y → y = status

/-- A change of a slot that the record does not see. -/
structure Unseen (x y : Proc n) : Prop where
  free : y.state.kind = .free ↔ x.state.kind = .free
  zombie : y.state.kind = .zombie ↔ x.state.kind = .zombie
  uid : x.state.kind ≠ .free → y.uid = x.uid
  pid : x.state.kind ≠ .free → y.pid = x.pid
  xstate : x.state.kind ≠ .free → y.xstate = x.xstate

theorem ProcState.kind_eq_free {x : ProcState} : x.kind = .free ↔ x = .unused := by
  cases x <;> simp [ProcState.kind]

theorem ProcState.kind_eq_zombie {x : ProcState} : x.kind = .zombie ↔ x = .zombie := by
  cases x <;> simp [ProcState.kind]

theorem SameLife.unseen {x y : Proc n} (h : SameLife x y) : Unseen x y where
  free := by rw [ProcState.kind_eq_free, ProcState.kind_eq_free, h.unused]
  zombie := by rw [ProcState.kind_eq_zombie, ProcState.kind_eq_zombie, h.zombie]
  uid := fun _ => h.uid
  pid := fun _ => h.pid
  xstate := fun _ => h.xstate

theorem unseen_update {y : Proc n} (ht : t.proc = update s.proc p y) (h : Unseen (s.proc p) y) (q : Fin n) :
    Unseen (s.proc q) (t.proc q) := by
  rw [ht]
  rcases eq_or_ne q p with rfl | hne
  · rwa [update_self]
  · rw [update_of_ne hne]
    exact (SameLife.refl _).unseen

theorem unseen_kill (s : State n) (p q : Fin n) : Unseen (s.proc q) ((kill s p).proc q) := by
  have hkind : (if (s.proc p).state = .sleeping then ProcState.runnable else (s.proc p).state).kind =
      (s.proc p).state.kind := by
    split
    · rename_i hsleep
      rw [hsleep]
      rfl
    · rfl
  have ht : (kill s p).proc = update s.proc p { s.proc p with
      killed := true
      state := if (s.proc p).state = .sleeping then .runnable else (s.proc p).state } := rfl
  exact unseen_update ht ⟨by rw [hkind], by rw [hkind], fun _ => rfl, fun _ => rfl, fun _ => rfl⟩ q

theorem Ledger.unseen (h : Ledger s) (hu : ∀ q, Unseen (s.proc q) (t.proc q))
    (hh : t.history = s.history) (hb : t.births = s.births) : Ledger t := by
  have hlive {q : Fin n} (hq : t.kind q ≠ .free) : s.kind q ≠ .free :=
    fun hc => hq ((hu q).free.mpr hc)
  have huid {q : Fin n} (hq : t.kind q ≠ .free) : (t.proc q).uid = (s.proc q).uid :=
    (hu q).uid (hlive hq)
  constructor
  · intro q hq
    rw [huid hq, hb]
    exact h.below q (hlive hq)
  · intro q r hq hr heq
    rw [huid hq, huid hr] at heq
    exact h.distinct q r (hlive hq) (hlive hr) heq
  · rw [hh, hb]
    exact h.old
  · intro q hq
    rw [hh, huid hq]
    exact h.unreaped q (hlive hq)
  · intro q hq hz
    rw [hh, huid hq]
    exact h.unexited q (hlive hq) (fun hc => hz ((hu q).zombie.mpr hc))
  · intro q hz
    have hq : s.kind q ≠ .free := fun hc => by
      have hzs := (hu q).zombie.mp hz
      rw [State.kind, hzs] at hc
      cases hc
    rw [hh, (hu q).uid hq, (hu q).pid hq, (hu q).xstate hq]
    exact h.zombies q ((hu q).zombie.mp hz)
  · rw [hh]
    exact h.exitedOnce
  · rw [hh]
    exact h.reapedOnce
  · rw [hh]
    exact h.reapedExited

/-- A new process has a `uid` that nothing in the history mentions. -/
theorem Ledger.birth {np : Fin n} {y : Proc n} (h : Ledger s) (hy : y.state = .used)
    (hu : y.uid = s.births) (ht : t.proc = update s.proc np y)
    (hh : t.history = s.history) (hb : t.births = s.births + 1) : Ledger t := by
  have hkind : t.kind = update s.kind np .embryo := by
    rw [kind_of_update ht, hy]
    rfl
  have hself : (t.proc np).uid = s.births := by rw [ht, update_self, hu]
  have hother {q : Fin n} (hne : q ≠ np) : t.proc q = s.proc q ∧ t.kind q = s.kind q := by
    rw [ht, hkind, update_of_ne hne, update_of_ne hne]
    exact ⟨rfl, rfl⟩
  have hfresh {e : Event} (he : e ∈ s.history) (hm : e.exited = some s.births ∨
      e.reaped = some s.births) : False := Nat.lt_irrefl _ (h.old e he _ hm)
  constructor
  · intro q hq
    rcases eq_or_ne q np with rfl | hne
    · rw [hself, hb]
      exact Nat.lt_succ_self _
    · rw [(hother hne).2] at hq
      rw [(hother hne).1, hb]
      exact Nat.lt_succ_of_lt (h.below q hq)
  · intro q r hq hr heq
    rcases eq_or_ne q np with hqn | hqn <;> rcases eq_or_ne r np with hrn | hrn
    · exact hqn.trans hrn.symm
    · rw [(hother hrn).2] at hr
      rw [hqn, hself, (hother hrn).1] at heq
      exact absurd heq (Nat.ne_of_gt (h.below r hr))
    · rw [(hother hqn).2] at hq
      rw [hrn, hself, (hother hqn).1] at heq
      exact absurd heq (Nat.ne_of_lt (h.below q hq))
    · rw [(hother hqn).2] at hq
      rw [(hother hrn).2] at hr
      rw [(hother hqn).1, (hother hrn).1] at heq
      exact h.distinct q r hq hr heq
  · intro e he u hu
    rw [hh] at he
    rw [hb]
    exact Nat.lt_succ_of_lt (h.old e he u hu)
  · intro q hq e he
    rw [hh] at he
    rcases eq_or_ne q np with rfl | hne
    · rw [hself]
      exact fun hc => hfresh he (Or.inr hc)
    · rw [(hother hne).2] at hq
      rw [(hother hne).1]
      exact h.unreaped q hq e he
  · intro q hq hz e he
    rw [hh] at he
    rcases eq_or_ne q np with rfl | hne
    · rw [hself]
      exact fun hc => hfresh he (Or.inl hc)
    · rw [(hother hne).2] at hq hz
      rw [(hother hne).1]
      exact h.unexited q hq hz e he
  · intro q hz
    have hne : q ≠ np := by
      rintro rfl
      simp [hkind] at hz
    rw [(hother hne).2] at hz
    rw [hh, (hother hne).1]
    exact h.zombies q hz
  · rw [hh]
    exact h.exitedOnce
  · rw [hh]
    exact h.reapedOnce
  · rw [hh]
    exact h.reapedExited

theorem Ledger.exit {status : ℤ} (h : Ledger s) (hactive : s.kind p = .active)
    (ht : t.proc = update s.proc p { s.proc p with xstate := status, state := .zombie })
    (hh : t.history = s.history ++ [.exit (s.proc p).uid (s.proc p).pid status])
    (hb : t.births = s.births) : Ledger t := by
  have hlive : s.kind p ≠ .free := by rw [hactive]; decide
  have hnotz : s.kind p ≠ .zombie := by rw [hactive]; decide
  have hkind : t.kind = update s.kind p .zombie := by
    rw [kind_of_update ht]
    rfl
  have huid (q : Fin n) : (t.proc q).uid = (s.proc q).uid := by
    rw [ht]
    rcases eq_or_ne q p with rfl | hne <;> simp [*]
  have hfree {q : Fin n} (hq : t.kind q ≠ .free) : s.kind q ≠ .free := by
    rcases eq_or_ne q p with rfl | hne
    · exact hlive
    · rwa [hkind, update_of_ne hne] at hq
  constructor
  · intro q hq
    rw [huid, hb]
    exact h.below q (hfree hq)
  · intro q r hq hr heq
    rw [huid, huid] at heq
    exact h.distinct q r (hfree hq) (hfree hr) heq
  · intro e he u hu
    rw [hh, List.mem_append, List.mem_singleton] at he
    rw [hb]
    rcases he with he | rfl
    · exact h.old e he u hu
    · simp only [Event.exited, Event.reaped, Option.some.injEq, reduceCtorEq, or_false] at hu
      exact hu ▸ h.below p hlive
  · intro q hq e he
    rw [hh, List.mem_append, List.mem_singleton] at he
    rw [huid]
    rcases he with he | rfl
    · exact h.unreaped q (hfree hq) e he
    · simp [Event.reaped]
  · intro q hq hz e he
    have hne : q ≠ p := by
      rintro rfl
      simp [hkind] at hz
    rw [hkind, update_of_ne hne] at hz
    rw [hh, List.mem_append, List.mem_singleton] at he
    rw [huid]
    rcases he with he | rfl
    · exact h.unexited q (hfree hq) hz e he
    · intro hc
      exact hne (h.distinct p q hlive (hfree hq) (Option.some.inj hc)).symm
  · intro q hz
    rw [hh, List.mem_append]
    rcases eq_or_ne q p with rfl | hne
    · simp [ht]
    · rw [hkind, update_of_ne hne] at hz
      have hsame : t.proc q = s.proc q := by rw [ht, update_of_ne hne]
      rw [hsame]
      exact Or.inl (h.zombies q hz)
  · rw [hh, List.filterMap_append]
    refine List.Nodup.append h.exitedOnce (List.nodup_singleton _) ?_
    intro u hu hmem
    obtain ⟨e, he, hex⟩ := List.mem_filterMap.mp hu
    rw [List.mem_singleton.mp hmem] at hex
    exact h.unexited p hlive hnotz e he hex
  · rw [hh, List.filterMap_append, List.filterMap_cons_none rfl, List.filterMap_nil,
      List.append_nil]
    exact h.reapedOnce
  · intro w c pid x hw
    rw [hh, List.mem_append] at hw
    obtain ⟨status, hex, hx⟩ := h.reapedExited w c pid x (hw.resolve_right (by simp))
    exact ⟨status, hh ▸ List.mem_append_left _ hex, hx⟩

theorem Ledger.reap {pp : Fin n} {addr : Bool} {w : ℕ} (h : Ledger s) (hz : s.kind pp = .zombie)
    (ht : t.proc = update s.proc pp (freeproc (s.proc pp)))
    (hh : t.history = s.history ++ [.wait w (s.proc pp).uid (s.proc pp).pid
      (if addr then some (s.proc pp).xstate else none)])
    (hb : t.births = s.births) : Ledger t := by
  have hlive : s.kind pp ≠ .free := by rw [hz]; decide
  have hkind : t.kind = update s.kind pp .free := by
    rw [kind_of_update ht]
    rfl
  have hne {q : Fin n} (hq : t.kind q ≠ .free) : q ≠ pp := by
    rintro rfl
    simp [hkind] at hq
  have hsame {q : Fin n} (hq : q ≠ pp) : t.proc q = s.proc q ∧ t.kind q = s.kind q := by
    rw [ht, hkind, update_of_ne hq, update_of_ne hq]
    exact ⟨rfl, rfl⟩
  constructor
  · intro q hq
    rw [(hsame (hne hq)).1, hb]
    exact h.below q ((hsame (hne hq)).2 ▸ hq)
  · intro q r hq hr heq
    rw [(hsame (hne hq)).1, (hsame (hne hr)).1] at heq
    exact h.distinct q r ((hsame (hne hq)).2 ▸ hq) ((hsame (hne hr)).2 ▸ hr) heq
  · intro e he u hu
    rw [hh, List.mem_append, List.mem_singleton] at he
    rw [hb]
    rcases he with he | rfl
    · exact h.old e he u hu
    · simp only [Event.exited, Event.reaped, Option.some.injEq, reduceCtorEq, false_or] at hu
      exact hu ▸ h.below pp hlive
  · intro q hq e he
    have hold : s.kind q ≠ .free := (hsame (hne hq)).2 ▸ hq
    rw [hh, List.mem_append, List.mem_singleton] at he
    rw [(hsame (hne hq)).1]
    rcases he with he | rfl
    · exact h.unreaped q hold e he
    · intro hc
      exact hne hq (h.distinct pp q hlive hold (Option.some.inj hc)).symm
  · intro q hq hnz e he
    have hold := (hsame (hne hq)).2
    rw [hh, List.mem_append, List.mem_singleton] at he
    rw [(hsame (hne hq)).1]
    rcases he with he | rfl
    · exact h.unexited q (hold ▸ hq) (hold ▸ hnz) e he
    · simp [Event.exited]
  · intro q hq
    have hqp : q ≠ pp := hne (by rw [hq]; decide)
    rw [hh, (hsame hqp).1]
    exact List.mem_append_left _ (h.zombies q ((hsame hqp).2 ▸ hq))
  · rw [hh, List.filterMap_append, List.filterMap_cons_none rfl, List.filterMap_nil,
      List.append_nil]
    exact h.exitedOnce
  · rw [hh, List.filterMap_append]
    refine List.Nodup.append h.reapedOnce (List.nodup_singleton _) ?_
    intro u hu hmem
    obtain ⟨e, he, hre⟩ := List.mem_filterMap.mp hu
    rw [List.mem_singleton.mp hmem] at hre
    exact h.unreaped pp hlive e he hre
  · intro w' c pid x hw
    rw [hh, List.mem_append, List.mem_singleton] at hw
    rcases hw with hw | hw
    · obtain ⟨status, hex, hx⟩ := h.reapedExited w' c pid x hw
      exact ⟨status, hh ▸ List.mem_append_left _ hex, hx⟩
    · cases hw
      refine ⟨(s.proc pp).xstate, hh ▸ List.mem_append_left _ (h.zombies pp hz), ?_⟩
      intro y hy
      split at hy <;> cases hy
      rfl

theorem Ledger.step {a : Action n} (h : Ledger s) (he : SlotEffect s t a) : Ledger t := by
  cases he with
  | same slots _ births history _ _ _ => exact h.unseen (fun q => (slots q).unseen) history births
  | failed _ np _ unused proc _ births history _ _ _ =>
    refine h.unseen (unseen_update proc ?_) history births
    constructor <;> simp [freeproc, unused, ProcState.kind]
  | birth _ _ _ _ proc _ births history _ _ _ => exact h.birth rfl rfl proc history births
  | exit _ _ running proc _ births history _ _ _ =>
    exact h.exit (kind_running running) proc history births
  | reap _ _ _ _ zombie proc _ births history _ _ _ =>
    exact h.reap (ProcState.kind_eq_zombie.2 zombie) proc history births
  | kill _ p _ _ result _ _ =>
    subst result
    exact h.unseen (unseen_kill s p) rfl rfl

theorem ledger_userinit (initproc : Fin n) : Ledger (userinit initproc) := by
  have honly {q : Fin n} (hq : (userinit initproc).kind q ≠ .free) : q = initproc := by
    by_contra hne
    simp [State.kind, userinit, hne, ProcState.kind] at hq
  constructor
  · intro q hq
    rw [honly hq]
    simp [userinit]
  · exact fun q r hq hr _ => (honly hq).trans (honly hr).symm
  · simp [userinit]
  · simp [userinit]
  · simp [userinit]
  · intro q hq
    have hq' := honly (q := q) (by rw [hq]; decide)
    simp [State.kind, userinit, hq', ProcState.kind] at hq
  · simp [userinit]
  · simp [userinit]
  · simp [userinit]

/-- Once `fork` has set `np->parent`, every process but the first has a live parent. -/
def ParentsAlive (initproc : Fin n) (s : State n) : Prop :=
  ∀ q, q ≠ initproc → (s.proc q).state ≠ .unused → (∃ p, s.place p = .forkParent q) ∨
    ∃ r, (s.proc q).parent = some r ∧ (s.proc r).state ≠ .unused ∧ (s.proc r).state ≠ .zombie

/-- No process is returned by two calls of `wait`, and each is returned with the pid and,
if asked for, the status of its own exit. -/
def ReapedOnce (s : State n) : Prop :=
  (s.history.filterMap Event.reaped).Nodup ∧ (s.history.filterMap Event.exited).Nodup ∧
    ∀ p c pid x, .wait p c pid x ∈ s.history →
      ∃ status, .exit c pid status ∈ s.history ∧ ∀ y, x = some y → y = status

/-- A `wait` that returns a child returns a zombie whose parent it is at that moment. -/
def ReapsOwnChild (initproc : Fin n) (s : State n) : Prop :=
  ∀ a t p c pid x, step initproc s a = some t → t.history = s.history ++ [.wait p c pid x] →
    ∃ q pp, p = (s.proc q).uid ∧ c = (s.proc pp).uid ∧ (s.proc pp).parent = some q ∧
      (s.proc pp).state = .zombie ∧ pid = (s.proc pp).pid ∧
      ∀ y, x = some y → y = (s.proc pp).xstate

/-- A `wait` whose `copyout` fails leaves the process table, and so the zombie, as it is. -/
def FailedWaitKeepsZombie (initproc : Fin n) (s : State n) : Prop :=
  ∀ p pp havekids t, s.place p = .waitScan true pp.val havekids → (s.proc pp).parent = some p →
    (s.proc pp).state = .zombie → step initproc s (.run p false) = some t →
      t.proc = s.proc ∧ t.place p = .user

def NoneSleepsOverZombie (s : State n) : Prop :=
  ∀ q r, s.AsleepInWait q → (s.proc r).parent = some q → (s.proc r).state ≠ .zombie

theorem Tree.parentsAlive (h : Tree initproc s) : ParentsAlive initproc s := by
  intro q hq hu
  have hlive : s.kind q ≠ .free := by
    rw [State.kind]
    cases hs : (s.proc q).state <;> simp_all [ProcState.kind]
  rcases hp : s.parent q with _ | r
  · exact Or.inl (h.orphan q hq hlive hp)
  · have hr := h.parent q r hp
    refine Or.inr ⟨r, hp, ?_, ?_⟩ <;>
    · intro hs
      rw [State.kind, hs] at hr
      cases hr

theorem reapsOwnChild (h : Tree initproc s) : ReapsOwnChild initproc s := by
  intro a t p c pid x hs hh
  cases slotEffect_step h hs with
  | same _ _ _ hh' _ _ _ | failed _ _ _ _ _ _ _ hh' _ _ _ | birth _ _ _ _ _ _ _ hh' _ _ _
  | exit _ _ _ _ _ _ hh' _ _ _ => simp [hh'] at hh
  | kill _ _ _ _ result _ _ => simp [result, ProcessTable.kill, State.setProc] at hh
  | reap q pp addr hparent hstate _ _ _ hh' _ _ _ =>
    rw [hh', List.append_cancel_left_eq, List.singleton_inj] at hh
    injection hh with hp hc hpid hx
    refine ⟨q, pp, hp.symm, hc.symm, hparent, hstate, hpid.symm, ?_⟩
    intro y hy
    rw [← hx] at hy
    split at hy <;> cases hy
    rfl

theorem failedWaitKeepsZombie (initproc : Fin n) (s : State n) :
    FailedWaitKeepsZombie initproc s := by
  intro p pp havekids t hp hparent hzombie hs
  rw [step.eq_def] at hs
  split at hs
  · cases hs
  · simp only [Option.ite_none_right_eq_some] at hs
    have hturn : run initproc s p false = some (s.release p .user) := by
      simp [run, hp, scanTurn, hparent, hzombie]
    cases Option.some.inj (hturn.symm.trans hs.2)
    exact ⟨rfl, by simp [State.release]⟩

/-- The process tree and exactly-once reaping, in every state of every interleaving. The
last part holds whether or not `wait_lock` is free. -/
theorem processTree_run {as : List (Action n)}
    (h : Run (step initproc) unguarded (userinit initproc) as s) :
    ParentsAlive initproc s ∧ ReapedOnce s ∧ ReapsOwnChild initproc s ∧
      FailedWaitKeepsZombie initproc s ∧ NoneSleepsOverZombie s := by
  have hi : Tree initproc s ∧ Ledger s :=
    h.invariant (I := fun s => Tree initproc s ∧ Ledger s)
      ⟨tree_userinit initproc, ledger_userinit initproc⟩
      (fun _ _ _ hi _ hs => ⟨tree_step hi.1 hs, hi.2.step (slotEffect_step hi.1 hs)⟩)
  obtain ⟨htree, hledger⟩ := hi
  refine ⟨htree.parentsAlive, ⟨hledger.reapedOnce, hledger.exitedOnce, hledger.reapedExited⟩,
    reapsOwnChild htree, failedWaitKeepsZombie initproc s, ?_⟩
  intro q r ha hr hz
  exact htree.awake q r ha hr (ProcState.kind_eq_zombie.2 hz)

/-- The first process forks, the child exits with status 7, and the parent waits. -/
def forkExitWait : List (Action 2) :=
  ([.schedule 0, .fork 0] : List (Action 2)) ++ List.replicate 4 (.run 0 true : Action 2) ++
    ([.schedule 1, .exit 1 7] : List (Action 2)) ++ List.replicate 6 (.run 1 true : Action 2) ++
    [(.wait 0 true : Action 2)] ++ List.replicate 3 (.run 0 true : Action 2)

theorem processTree_forkExitWait : ∃ s : State 2,
    Run (step 0) unguarded (userinit 0) forkExitWait s ∧
      s.history = [.exit 1 2 7, .wait 0 1 2 (some 7)] ∧ ParentsAlive 0 s ∧ ReapedOnce s := by
  have hrun : ∃ s : State 2, Run (step 0) unguarded (userinit 0) forkExitWait s ∧
      s.history = [.exit 1 2 7, .wait 0 1 2 (some 7)] := exists_run (by decide +kernel)
  obtain ⟨s, h, hh⟩ := hrun
  have htree := processTree_run h
  exact ⟨s, h, hh, htree.1, htree.2.1⟩

end Xv6.ProcessTable
