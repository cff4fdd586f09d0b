import Mathlib.Data.Fin.Basic
import Xv6.CriticalSections
import Xv6.ProcessTable

/-!
# The process tree

Parents are alive, and no parent sleeps in `wait` over a zombie child. What a process
has established at each of its places is stated once, in `Knows`; the other clauses of
`Tree` say what holds of the table at any time.
-/

namespace Xv6.ProcessTable

open CriticalSections

variable {n : ℕ} {initproc p q : Fin n} {s t : State n}

/-- The states of a slot, with the three of a process that has been started put together. -/
inductive Kind
  | free
  | embryo
  | active
  | zombie
  deriving DecidableEq

def ProcState.kind : ProcState → Kind
  | .unused => .free
  | .used => .embryo
  | .sleeping => .active
  | .runnable => .active
  | .running => .active
  | .zombie => .zombie

def State.kind (s : State n) (q : Fin n) : Kind := (s.proc q).state.kind

def State.parent (s : State n) (q : Fin n) : Option (Fin n) := (s.proc q).parent

def State.AsleepInWait (s : State n) (q : Fin n) : Prop :=
  (s.proc q).state = .sleeping ∧ ∃ addr, s.place q = .waitAcquire addr

/-- The slot that a process in `fork` is filling. -/
def Place.embryo : Place n → Option (Fin n)
  | .forkParent np => some np
  | .forkRunnable np => some np
  | _ => none

/-- What a process at a place has established. -/
def Knows (initproc : Fin n) (s : State n) (p : Fin n) : Place n → Prop
  | .forkParent np => s.kind np = .embryo ∧ s.parent np = none
  | .forkRunnable np => s.kind np = .embryo ∧ s.parent np = some p
  | .exitAcquire _ => p ≠ initproc
  | .exitReparent _ i => p ≠ initproc ∧ ∀ q, s.parent q = some p → i ≤ q.val
  | .exitWakeup _ => p ≠ initproc ∧ ∀ q, s.parent q ≠ some p
  | .exitZombie _ => p ≠ initproc ∧ (∀ q, s.parent q ≠ some p) ∧
      ∀ q, s.parent p = some q → ¬ s.AsleepInWait q
  | .waitScan _ i _ => ∀ q, s.parent q = some p → q.val < i → s.kind q ≠ .zombie
  | .waitCheck _ _ => ∀ q, s.parent q = some p → s.kind q ≠ .zombie
  | .waitSleep _ => ∀ q, s.parent q = some p → s.kind q ≠ .zombie
  | _ => True

structure Tree (initproc : Fin n) (s : State n) : Prop where
  mutex : Exclusive Place.holds s.place s.waitLock
  init : s.kind initproc = .active ∧ s.parent initproc = none
  free : ∀ q, s.kind q = .free → s.parent q = none
  parent : ∀ q r, s.parent q = some r → s.kind r = .active
  orphan : ∀ q, q ≠ initproc → s.kind q ≠ .free → s.parent q = none →
    ∃ p, s.place p = .forkParent q
  forker : ∀ p q np, (s.place p).embryo = some np → (s.place q).embryo = some np → p = q
  busy : ∀ p, s.place p ≠ .user → s.kind p = .active
  knows : ∀ p, Knows initproc s p (s.place p)
  awake : ∀ q r, s.AsleepInWait q → s.parent r = some q → s.kind r ≠ .zombie
  chan : ∀ q, s.AsleepInWait q → (s.proc q).chan = some (.proc q)

theorem kind_running (h : (s.proc p).state = .running) : s.kind p = .active := by
  rw [State.kind, h]
  rfl

/-- Knowledge concerns the slot that is being filled, and the children under `wait_lock`. -/
theorem Knows.frame {x : Place n} (h : Knows initproc s p x)
    (hembryo : ∀ np, x.embryo = some np → t.kind np = s.kind np ∧ t.parent np = s.parent np)
    (hchild : x.holds = true → ∀ q, t.parent q = some p → s.parent q = some p)
    (hzombie : x.holds = true → ∀ q, t.parent q = some p → t.kind q = .zombie →
      s.kind q = .zombie)
    (hparent : x.holds = true → ∀ q, t.parent p = some q → t.AsleepInWait q →
      s.parent p = some q ∧ s.AsleepInWait q) : Knows initproc t p x := by
  cases x with
  | forkParent np | forkRunnable np =>
    obtain ⟨hk, hp⟩ := hembryo np rfl
    exact ⟨hk.trans h.1, hp.trans h.2⟩
  | exitAcquire status => exact h
  | exitReparent status i | exitWakeup status => exact ⟨h.1, fun q hq => h.2 q (hchild rfl q hq)⟩
  | exitZombie status =>
    refine ⟨h.1, fun q hq => h.2.1 q (hchild rfl q hq), ?_⟩
    intro q hq ha
    obtain ⟨hq, ha⟩ := hparent rfl q hq ha
    exact h.2.2 q hq ha
  | waitScan addr i havekids =>
    exact fun q hq hi hz => h q (hchild rfl q hq) hi (hzombie rfl q hq hz)
  | waitCheck addr havekids | waitSleep addr =>
    exact fun q hq hz => h q (hchild rfl q hq) (hzombie rfl q hq hz)
  | _ => trivial

@[simp] theorem kind_setProc (s : State n) (q : Fin n) (x : Proc n) :
    (s.setProc q x).kind = Function.update s.kind q x.state.kind := by
  funext r
  rcases eq_or_ne r q with rfl | hne <;> simp [State.kind, State.setProc, *]

@[simp] theorem parent_setProc (s : State n) (q : Fin n) (x : Proc n) :
    (s.setProc q x).parent = Function.update s.parent q x.parent := by
  funext r
  rcases eq_or_ne r q with rfl | hne <;> simp [State.parent, State.setProc, *]

theorem Proc.wake_kind (x : Proc n) (c : Option (Chan n)) :
    (x.wake c).state.kind = x.state.kind := by
  rw [Proc.wake]
  split
  · rename_i h
    rw [h.1]
    rfl
  · rfl

theorem Proc.wake_parent (x : Proc n) (c : Option (Chan n)) : (x.wake c).parent = x.parent := by
  rw [Proc.wake]
  split <;> rfl

theorem Proc.asleep_of_wake {x : Proc n} {c : Option (Chan n)}
    (h : (x.wake c).state = .sleeping) : x.state = .sleeping ∧ x.chan ≠ c := by
  rw [Proc.wake] at h
  split at h
  · cases h
  · rename_i hne
    exact ⟨h, fun hc => hne ⟨h, hc⟩⟩

@[simp] theorem kind_wakeup (s : State n) (p : Fin n) (c : Option (Chan n)) :
    (wakeup s p c).kind = s.kind := by
  funext q
  simp only [State.kind, wakeup]
  split
  · rfl
  · exact Proc.wake_kind _ _

@[simp] theorem parent_wakeup (s : State n) (p : Fin n) (c : Option (Chan n)) :
    (wakeup s p c).parent = s.parent := by
  funext q
  simp only [State.parent, wakeup]
  split
  · rfl
  · exact Proc.wake_parent _ _

/-- Asleep in `wait` before and after the step. -/
def SleptOn (s t : State n) (q : Fin n) : Prop :=
  s.AsleepInWait q ∧ (t.proc q).chan = (s.proc q).chan

/-- Steps that move processes between `SLEEPING`, `RUNNABLE` and `RUNNING` and put nobody
to sleep in `wait`. -/
theorem Tree.restate (h : Tree initproc s) (hkind : t.kind = s.kind)
    (hparent : t.parent = s.parent) (hplace : t.place = s.place) (hlock : t.waitLock = s.waitLock)
    (hasleep : ∀ q, t.AsleepInWait q → SleptOn s t q) : Tree initproc t where
  mutex := by
    rw [hplace, hlock]
    exact h.mutex
  init := by
    rw [hkind, hparent]
    exact h.init
  free := by
    rw [hkind, hparent]
    exact h.free
  parent := by
    rw [hkind, hparent]
    exact h.parent
  orphan := by
    rw [hkind, hparent, hplace]
    exact h.orphan
  forker := by
    rw [hplace]
    exact h.forker
  busy := by
    rw [hkind, hplace]
    exact h.busy
  knows q := by
    rw [hplace]
    apply (h.knows q).frame
    · exact fun np _ => ⟨congrFun hkind np, congrFun hparent np⟩
    · exact fun _ r hr => hparent ▸ hr
    · exact fun _ r _ hz => hkind ▸ hz
    · exact fun _ r hr ha => ⟨hparent ▸ hr, (hasleep r ha).1⟩
  awake q r ha hr := by
    rw [hkind]
    exact h.awake q r (hasleep q ha).1 (hparent ▸ hr)
  chan q ha := (hasleep q ha).2.trans (h.chan q (hasleep q ha).1)

theorem Tree.move (h : Tree initproc s) (hkind : t.kind = s.kind) (hparent : t.parent = s.parent)
    (hplace : ∀ q, q ≠ p → t.place q = s.place q)
    (hmutex : Exclusive Place.holds t.place t.waitLock) (hactive : s.kind p = .active)
    (hold : (s.place p).embryo = none) (hnew : (t.place p).embryo = none)
    (hknows : Knows initproc t p (t.place p))
    (hasleep : ∀ q, t.AsleepInWait q → SleptOn s t q ∨ q = p ∧ (s.place p).holds = true ∧
      (t.proc p).chan = some (.proc p) ∧ ∀ r, s.parent r = some p → s.kind r ≠ .zombie) :
    Tree initproc t where
  mutex := hmutex
  init := by
    rw [hkind, hparent]
    exact h.init
  free := by
    rw [hkind, hparent]
    exact h.free
  parent := by
    rw [hkind, hparent]
    exact h.parent
  orphan q hq hk hp := by
    rw [hkind] at hk
    rw [hparent] at hp
    obtain ⟨r, hr⟩ := h.orphan q hq hk hp
    refine ⟨r, (hplace r ?_).trans hr⟩
    rintro rfl
    rw [hr] at hold
    cases hold
  forker q r np hq hr := by
    have hne {u : Fin n} (hu : (t.place u).embryo = some np) : u ≠ p := by
      rintro rfl
      rw [hnew] at hu
      cases hu
    rw [hplace q (hne hq)] at hq
    rw [hplace r (hne hr)] at hr
    exact h.forker q r np hq hr
  busy q hu := by
    rw [hkind]
    rcases eq_or_ne q p with rfl | hne
    · exact hactive
    · rw [hplace q hne] at hu
      exact h.busy q hu
  knows q := by
    rcases eq_or_ne q p with rfl | hne
    · exact hknows
    rw [hplace q hne]
    apply (h.knows q).frame
    · exact fun np _ => ⟨congrFun hkind np, congrFun hparent np⟩
    · exact fun _ r hr => hparent ▸ hr
    · exact fun _ r _ hz => hkind ▸ hz
    · intro hin r hr ha
      refine ⟨hparent ▸ hr, ((hasleep r ha).resolve_right ?_).1⟩
      -- two processes would be inside the critical section
      rintro ⟨_, hp, _⟩
      exact hne (h.mutex.eq hin hp)
  awake q r ha hr := by
    rw [hkind]
    rw [hparent] at hr
    rcases hasleep q ha with hs | ⟨rfl, _, _, hnone⟩
    · exact h.awake q r hs.1 hr
    · exact hnone r hr
  chan q ha := by
    rcases hasleep q ha with hs | ⟨rfl, _, hchan, _⟩
    · exact hs.2.trans (h.chan q hs.1)
    · exact hchan

/-- A step of `p` that changes the slot `r`: what has to be checked. -/
structure Change (initproc : Fin n) (s t : State n) (p r : Fin n) : Prop where
  kind : ∀ q, q ≠ r → t.kind q = s.kind q
  parent : ∀ q, q ≠ r → t.parent q = s.parent q
  place : ∀ q, q ≠ p → t.place q = s.place q
  mutex : Exclusive Place.holds t.place t.waitLock
  notInit : r ≠ initproc
  free : t.kind r = .free → t.parent r = none
  newParent : ∀ q, t.parent r = some q → t.kind q = .active
  children : t.kind r = .active ∨ ∀ q, s.parent q ≠ some r
  orphan : t.kind r ≠ .free → t.parent r = none → t.place p = .forkParent r
  adopted : ∀ q, s.place p = .forkParent q → q = r
  forker : ∀ np, (t.place p).embryo = some np → np = r
  alone : ∀ q, q ≠ p → (s.place q).embryo ≠ some r
  busy : t.place p ≠ .user → t.kind p = .active
  resting : t.kind r = .active ∨ r = p ∨ s.place r = .user
  knows : Knows initproc t p (t.place p)
  holder : ∀ q, q ≠ p → (s.place q).holds = true → t.parent r = s.parent r ∧ t.kind r ≠ .zombie
  asleep : ∀ q, t.AsleepInWait q → SleptOn s t q
  awake : ∀ q, t.AsleepInWait q → t.parent r = some q → t.kind r ≠ .zombie

theorem Tree.change {r : Fin n} (h : Tree initproc s) (c : Change initproc s t p r) :
    Tree initproc t where
  mutex := c.mutex
  init := by
    rw [c.kind _ (Ne.symm c.notInit), c.parent _ (Ne.symm c.notInit)]
    exact h.init
  free q hk := by
    rcases eq_or_ne q r with rfl | hne
    · exact c.free hk
    · rw [c.parent q hne]
      exact h.free q (c.kind q hne ▸ hk)
  parent q u hq := by
    rcases eq_or_ne q r with rfl | hne
    · exact c.newParent u hq
    rw [c.parent q hne] at hq
    rcases eq_or_ne u r with rfl | hu
    · exact c.children.resolve_right (fun hnone => hnone q hq)
    · rw [c.kind u hu]
      exact h.parent q u hq
  orphan q hq hk hp := by
    rcases eq_or_ne q r with rfl | hne
    · exact ⟨p, c.orphan hk hp⟩
    rw [c.kind q hne] at hk
    rw [c.parent q hne] at hp
    obtain ⟨u, hu⟩ := h.orphan q hq hk hp
    refine ⟨u, (c.place u ?_).trans hu⟩
    rintro rfl
    exact hne (c.adopted q hu)
  forker q u np hq hu := by
    have hother {v : Fin n} (hv : v ≠ p) (hnp : (t.place v).embryo = some np) :
        (t.place p).embryo ≠ some np := by
      intro hp
      rw [c.place v hv, c.forker np hp] at hnp
      exact c.alone v hv hnp
    rcases eq_or_ne q p with rfl | hqp
    · rcases eq_or_ne u q with rfl | hup
      · rfl
      · exact absurd hq (hother hup hu)
    · rcases eq_or_ne u p with rfl | hup
      · exact absurd hu (hother hqp hq)
      · rw [c.place q hqp] at hq
        rw [c.place u hup] at hu
        exact h.forker q u np hq hu
  busy q hq := by
    rcases eq_or_ne q p with rfl | hqp
    · exact c.busy hq
    rw [c.place q hqp] at hq
    rcases eq_or_ne q r with rfl | hne
    · rcases c.resting with hact | rfl | huser
      · exact hact
      · exact absurd rfl hqp
      · exact absurd huser hq
    · rw [c.kind q hne]
      exact h.busy q hq
  knows q := by
    rcases eq_or_ne q p with rfl | hqp
    · exact c.knows
    rw [c.place q hqp]
    apply (h.knows q).frame
    · intro np hnp
      have hne : np ≠ r := fun he => c.alone q hqp (he ▸ hnp)
      exact ⟨c.kind np hne, c.parent np hne⟩
    · intro hin u hu
      rcases eq_or_ne u r with rfl | hne
      · exact (c.holder q hqp hin).1 ▸ hu
      · exact c.parent u hne ▸ hu
    · intro hin u _ hz
      rcases eq_or_ne u r with rfl | hne
      · exact absurd hz (c.holder q hqp hin).2
      · exact c.kind u hne ▸ hz
    · intro hin u hu ha
      refine ⟨?_, (c.asleep u ha).1⟩
      rcases eq_or_ne q r with rfl | hne
      · exact (c.holder q hqp hin).1 ▸ hu
      · exact c.parent q hne ▸ hu
  awake q u ha hu := by
    rcases eq_or_ne u r with rfl | hne
    · exact c.awake q ha hu
    · rw [c.kind u hne]
      exact h.awake q u (c.asleep q ha).1 (c.parent u hne ▸ hu)
  chan q ha := (c.asleep q ha).2.trans (h.chan q (c.asleep q ha).1)

end Xv6.ProcessTable
