import Xv6.HeldLocks
import Xv6.Scheduling

/-!
# Who holds the lock of a process

The lock of a process is taken on one side of a context switch and released on the other.
A CPU has a process in `c->proc` from the switch to it until after the switch away from it,
and between the two the process is `RUNNING` unless it is on its way into `swtch` with its
own lock held.
-/

namespace Xv6.Scheduling

open Function HeldLocks ProcessTable

variable {n : ℕ} {Λ γ : Type}

/-- The lock of a process that the thread of `p` holds when it is executed. -/
def Pc.locked (p : Fin n) : Pc n Λ → Option (Fin n)
  | .forkret | .yieldSet | .sleepRelease .. | .sleepSet .. | .sched _ | .back _ | .exitZombie
  | .waitKilled => some p
  | .wakeHold _ q _ | .killHold _ q | .forkHold q | .forkRunnable q | .waitHold q => some q
  | _ => none

/-- The process has given up `RUNNING` and not yet called `swtch`. -/
def Pc.changed : Pc n Λ → Bool
  | .sched _ => true
  | _ => false

/-- The places that a saved context leads to. -/
def Pc.parked : Pc n Λ → Bool
  | .forkret | .back _ => true
  | _ => false

/-- The process that `fork` has allocated and not yet made `RUNNABLE`. -/
def Pc.child : Pc n Λ → Option (Fin n)
  | .forkWait np | .forkParent np | .forkAcquire np | .forkRunnable np => some np
  | _ => none

/-- The places of a handler. -/
def Pc.inHandler : Pc n Λ → Bool
  | .kernel | .yieldAcquire | .yieldSet | .sched .yield | .back .yield | .wake _ _ .kernel
  | .wakeHold _ _ .kernel => true
  | _ => false

def SchedPc.locked : SchedPc n → Option (Fin n)
  | .test q | .switch q | .back q | .unlock q | .wakeHold _ q _ => some q
  | _ => none

/-- The process that the scheduler has chosen. -/
def SchedPc.engaged : SchedPc n → Option (Fin n)
  | .switch q | .away q | .back q => some q
  | _ => none

/-- The process whose stack a CPU is on. -/
def Exec.proc : Exec n → Option (Fin n)
  | .scheduler => none
  | .thread p | .leaving p => some p

/-- The lock of a process that a CPU holds. -/
def State.holds (s : State n Λ γ) (c : γ) : Option (Fin n) :=
  match s.exec c with
  | .thread p => (s.pc p).locked p
  | .leaving p => some p
  | .scheduler => (s.spc c).locked

/-- The process that is `RUNNING` on a CPU. -/
def State.runs (s : State n Λ γ) (c : γ) : Option (Fin n) :=
  match s.exec c with
  | .thread p => if (s.pc p).changed then none else some p
  | .leaving _ => none
  | .scheduler =>
    match s.spc c with
    | .switch q => some q
    | _ => none

/-- The child that `fork` has under way, also below a handler. -/
def State.child (s : State n Λ γ) (p : Fin n) : Option (Fin n) :=
  (s.pc p).child.or ((s.saved p).bind (fun x => x.1.child))

structure Inv (s : State n Λ γ) : Prop where
  me : ∀ p, s.me p = p
  current : ∀ c, s.current c = (s.spc c).engaged
  exec : ∀ c p, (s.exec c).proc = some p ↔ s.spc c = .away p
  engaged : ∀ c c' q, (s.spc c).engaged = some q → (s.spc c').engaged = some q → c = c'
  lock : Held s.lock s.holds
  depth : Depth s.lk s.holds s.noff
  running : ∀ q, (s.proc q).state = .running ↔ ∃ c, s.runs c = some q
  parked : ∀ p, (∀ c, s.exec c ≠ .thread p) → (s.pc p).parked = true
  saved : ∀ p x, s.saved p = some x → x.1.locked p = none ∧ x.2 = p ∧ (s.pc p).inHandler = true
  child : ∀ p np, s.child p = some np → (s.proc np).state = .used
  parents : ∀ p p' np, s.child p = some np → s.child p' = some np → p = p'

variable {s t : State n Λ γ} {c c' : γ} {p q np : Fin n} {x y : Pc n Λ} {z : SchedPc n}

theorem start_inv (initproc : Fin n) : Inv (start initproc : State n Λ γ) where
  me := fun _ => rfl
  current := fun _ => rfl
  exec := fun c p => by simp [start, Exec.proc]
  engaged := fun c c' q hc => by simp [start, SchedPc.engaged] at hc
  lock := fun q c => by simp [start, State.holds, SchedPc.locked]
  depth := fun c => ⟨∅, by simp [start], by simp [start, State.holds, SchedPc.locked]⟩
  running := fun q => by
    simp only [start, State.runs]
    split <;> simp
  parked := fun p _ => rfl
  saved := fun p x hx => by simp [start] at hx
  child := fun p np hp => by simp [start, State.child, Pc.child] at hp
  parents := fun p p' np hp => by simp [start, State.child, Pc.child] at hp

theorem Inv.exec_unique (h : Inv s) (hc : (s.exec c).proc = some p) (hc' : (s.exec c').proc = some p) :
    c = c' := by
  refine h.engaged c c' p ?_ ?_
  · rw [(h.exec c p).1 hc]
    rfl
  · rw [(h.exec c' p).1 hc']
    rfl

theorem Inv.thread_unique (h : Inv s) (hc : s.exec c = .thread p) (hc' : s.exec c' = .thread p) :
    c = c' :=
  h.exec_unique (by rw [hc]; rfl) (by rw [hc']; rfl)

theorem Pc.locked_of_changed (h : x.changed = true) : x.locked p = some p := by
  cases x <;> first | rfl | cases h

theorem Pc.locked_of_parked (h : x.parked = true) : x.locked p = some p := by
  cases x <;> first | rfl | cases h

theorem Pc.changed_of_parked (h : x.parked = true) : x.changed = false := by
  cases x <;> first | rfl | cases h

theorem Pc.child_of_inHandler (h : x.inHandler = true) : x.child = none := by
  cases x <;> first | rfl | cases h

theorem State.holds_thread (hc : s.exec c = .thread p) : s.holds c = (s.pc p).locked p := by
  simp only [State.holds, hc]

theorem State.runs_thread (hc : s.exec c = .thread p) :
    s.runs c = if (s.pc p).changed then none else some p := by
  simp only [State.runs, hc]

/-- A CPU that holds the lock of another process, which is not `RUNNING`, keeps every CPU off
that process. -/
theorem Inv.exec_ne (h : Inv s) (hheld : s.holds c = some q) (hself : (s.exec c).proc ≠ some q)
    (hstate : (s.proc q).state ≠ .running) (c' : γ) : (s.exec c').proc ≠ some q := by
  intro hc'
  have hne : c' ≠ c := by
    rintro rfl
    exact hself hc'
  have hnot : s.holds c' ≠ some q := fun hlocked => hne (h.lock.unique hlocked hheld)
  cases hexec : s.exec c' with
  | scheduler =>
    rw [hexec] at hc'
    cases hc'
  | thread p =>
    rw [hexec] at hc'
    cases hc'
    cases hpc : (s.pc q).changed with
    | false =>
      refine hstate ((h.running q).2 ⟨c', ?_⟩)
      simp [State.runs_thread hexec, hpc]
    | true =>
      rw [State.holds_thread hexec] at hnot
      exact hnot (Pc.locked_of_changed hpc)
  | leaving p =>
    rw [hexec] at hc'
    cases hc'
    simp [State.holds, hexec] at hnot

/-- The thread of `p` goes to `y`; what locks and processes do is open. -/
structure Moved (s t : State n Λ γ) (p : Fin n) (y : Pc n Λ) : Prop where
  exec : t.exec = s.exec
  spc : t.spc = s.spc
  current : t.current = s.current
  pc : t.pc = update s.pc p y

theorem Moved.pc_self (hm : Moved s t p y) : t.pc p = y := by
  rw [hm.pc, update_self]

theorem Moved.pc_of_ne (hm : Moved s t p y) (hq : q ≠ p) : t.pc q = s.pc q := by
  rw [hm.pc, update_of_ne hq]

theorem Inv.child_moved (h : Inv s) (hm : Moved s t p y) (hsaved : t.saved = s.saved)
    (hchild : y.child = none ∨ y.child = (s.pc p).child) (hq : t.child q = some np) :
    s.child q = some np := by
  rcases eq_or_ne q p with rfl | hne
  · rw [State.child, hm.pc_self, hsaved] at hq
    rw [State.child]
    rcases hchild with hnone | hsame
    · rw [hnone, Option.none_or] at hq
      obtain ⟨x, hx, -⟩ := Option.bind_eq_some_iff.1 hq
      rw [Pc.child_of_inHandler (h.saved q x hx).2.2, Option.none_or]
      exact hq
    · rwa [hsame] at hq
  · rwa [State.child, hm.pc_of_ne hne, hsaved] at hq

section Threads

variable [DecidableEq γ]

theorem Inv.holds_moved (h : Inv s) (hc : s.exec c = .thread p) (hm : Moved s t p y) :
    t.holds = Function.update s.holds c (y.locked p) := by
  funext c'
  rcases eq_or_ne c' c with rfl | hne
  · have hc' : t.exec c' = .thread p := by rw [hm.exec, hc]
    rw [State.holds_thread hc', hm.pc_self, Function.update_self]
  · rw [Function.update_of_ne hne]
    simp only [State.holds, hm.exec, hm.spc]
    cases hexec : s.exec c' with
    | thread q =>
      have hq : q ≠ p := by
        rintro rfl
        exact hne (h.thread_unique hexec hc)
      simp only [hm.pc_of_ne hq]
    | _ => rfl

theorem Inv.runs_moved (h : Inv s) (hc : s.exec c = .thread p) (hm : Moved s t p y) :
    t.runs = Function.update s.runs c (if y.changed then none else some p) := by
  funext c'
  rcases eq_or_ne c' c with rfl | hne
  · have hc' : t.exec c' = .thread p := by rw [hm.exec, hc]
    rw [State.runs_thread hc', hm.pc_self, Function.update_self]
  · rw [Function.update_of_ne hne]
    simp only [State.runs, hm.exec, hm.spc]
    cases hexec : s.exec c' with
    | thread q =>
      have hq : q ≠ p := by
        rintro rfl
        exact hne (h.thread_unique hexec hc)
      simp only [hm.pc_of_ne hq]
    | _ => rfl

/-- A step of a thread, for what it does to locks, states and children. -/
theorem Inv.thread_step (h : Inv s) (hc : s.exec c = .thread p) (hm : Moved s t p y)
    (hme : ∀ q, t.me q = q)
    (hlock : Held t.lock (Function.update s.holds c (y.locked p)))
    (hdepth : Depth t.lk (Function.update s.holds c (y.locked p)) t.noff)
    (hrun : ∀ q, (t.proc q).state = .running ↔
      ∃ c', Function.update s.runs c (if y.changed then none else some p) c' = some q)
    (hsaved : ∀ q x, t.saved q = some x → x.1.locked q = none ∧ x.2 = q ∧ (t.pc q).inHandler = true)
    (hchild : ∀ q np, t.child q = some np → (t.proc np).state = .used)
    (hparents : ∀ q q' np, t.child q = some np → t.child q' = some np → q = q') : Inv t where
  me := hme
  current := by
    rw [hm.current, hm.spc]
    exact h.current
  exec := by
    rw [hm.exec, hm.spc]
    exact h.exec
  engaged := by
    rw [hm.spc]
    exact h.engaged
  lock := by
    rw [h.holds_moved hc hm]
    exact hlock
  depth := by
    rw [h.holds_moved hc hm]
    exact hdepth
  running := by
    rw [h.runs_moved hc hm]
    exact hrun
  parked := fun q hq => by
    rw [hm.exec] at hq
    have hne : q ≠ p := by
      rintro rfl
      exact hq c hc
    rw [hm.pc_of_ne hne]
    exact h.parked q hq
  saved := hsaved
  child := hchild
  parents := hparents

theorem Inv.moved (h : Inv s) (hc : s.exec c = .thread p) (hm : Moved s t p y) (hme : t.me = s.me)
    (hsaved : t.saved = s.saved)
    (hlock : Held t.lock (Function.update s.holds c (y.locked p)))
    (hdepth : Depth t.lk (Function.update s.holds c (y.locked p)) t.noff)
    (hrun : ∀ q, (t.proc q).state = .running ↔
      ∃ c', Function.update s.runs c (if y.changed then none else some p) c' = some q)
    (hhand : (s.pc p).inHandler = true → y.inHandler = true)
    (hchild : y.child = none ∨ y.child = (s.pc p).child)
    (hused : ∀ q np, t.child q = some np → (s.proc np).state = .used → (t.proc np).state = .used) :
    Inv t := by
  refine h.thread_step hc hm (fun q => ?_) hlock hdepth hrun (fun q z hz => ?_) (fun q np hq => ?_)
    (fun q q' np hq hq' => ?_)
  · rw [hme]
    exact h.me q
  · rw [hsaved] at hz
    obtain ⟨hlocked, hown, hhandler⟩ := h.saved q z hz
    refine ⟨hlocked, hown, ?_⟩
    rcases eq_or_ne q p with rfl | hne
    · rw [hm.pc_self]
      exact hhand hhandler
    · rwa [hm.pc_of_ne hne]
  · exact hused q np hq (h.child q np (h.child_moved hm hsaved hchild hq))
  · exact h.parents q q' np (h.child_moved hm hsaved hchild hq) (h.child_moved hm hsaved hchild hq')

end Threads

end Xv6.Scheduling
