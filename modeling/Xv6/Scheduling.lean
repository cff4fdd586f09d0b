import Xv6.ProcessTable

/-!
# Scheduling over many CPUs

`scheduler`, `sched`, `yield`, `forkret`, `sleep`, `wakeup` and `kill` of `kernel/proc.c`, with
the sections of `p->lock` in `fork`, `exit` and `wait`. Every CPU runs the thread of its
scheduler or the kernel thread of a process; a thread that does not run is at the place its
saved context leads to. A step takes a lock, or does what is done under it up to the next
`acquire`, `release` or `swtch`.

A CPU that waits for a lock has no step, and neither has one that has called `panic`.
An interrupt handler runs as part of the interrupted thread; interrupts come only while the
CPU holds no spin lock, and not inside a handler.
-/

namespace Xv6.Scheduling

open Function

open ProcessTable (ProcState Chan)

variable {n : ℕ} {Λ γ : Type}

/-- The spin locks other than those of processes. -/
inductive SpinLock (Λ : Type)
  | waitLock
  | other (l : Λ)
  deriving DecidableEq

inductive Ret
  | kernel
  | wait
  deriving DecidableEq

inductive After (n : ℕ) (Λ : Type)
  | yield
  | sleep (chan : Chan n) (lk : SpinLock Λ) (ret : Ret)
  | exit
  deriving DecidableEq

inductive WakeRet
  | kernel
  | reparent (i : ℕ)
  | exitLock
  deriving DecidableEq

inductive Pc (n : ℕ) (Λ : Type)
  | forkret
  | kernel
  | yieldAcquire
  | yieldSet
  | sleepAcquire (chan : Chan n) (lk : SpinLock Λ) (ret : Ret)
  | sleepRelease (chan : Chan n) (lk : SpinLock Λ) (ret : Ret)
  | sleepSet (chan : Chan n) (lk : SpinLock Λ) (ret : Ret)
  | sleepReturn (lk : SpinLock Λ) (ret : Ret)
  | sched (k : After n Λ)
  /-- at the return from `swtch` in `sched` -/
  | back (k : After n Λ)
  | wake (chan : Option (Chan n)) (i : ℕ) (ret : WakeRet)
  | wakeHold (chan : Option (Chan n)) (q : Fin n) (ret : WakeRet)
  | kill (pid : BitVec 32) (i : ℕ)
  | killHold (pid : BitVec 32) (q : Fin n)
  | forkScan (i : ℕ)
  | forkHold (np : Fin n)
  | forkWait (np : Fin n)
  | forkParent (np : Fin n)
  | forkAcquire (np : Fin n)
  | forkRunnable (np : Fin n)
  | exitAcquire
  | exitReparent (i : ℕ)
  | exitLock
  | exitZombie
  | waitAcquire
  | waitScan (i : ℕ) (havekids : Bool)
  | waitHold (pp : Fin n)
  | waitKilled
  | waitReturn
  deriving DecidableEq

inductive SchedPc (n : ℕ)
  | loop (i : ℕ)
  | test (q : Fin n)
  | switch (q : Fin n)
  /-- inside `swtch`, its context saved -/
  | away (q : Fin n)
  | back (q : Fin n)
  | unlock (q : Fin n)
  | handler (i : ℕ)
  | wake (chan : Option (Chan n)) (j i : ℕ)
  | wakeHold (chan : Option (Chan n)) (q : Fin n) (i : ℕ)
  deriving DecidableEq

inductive Exec (n : ℕ)
  | scheduler
  | thread (p : Fin n)
  | leaving (p : Fin n)
  deriving DecidableEq

/-- The fields of `struct proc` that `p->lock` and `wait_lock` protect. -/
structure Proc (n : ℕ) where
  state : ProcState
  chan : Option (Chan n)
  pid : BitVec 32
  killed : Bool
  parent : Option (Fin n)

/-- `lock` and `lk` say which CPU holds a lock. `me` is the local variable `p` that a thread
has set to `myproc()`, and `current` is `c->proc`. A thread in an interrupt handler has
`saved` what it was doing. The ghosts `calls` and `wakeups` count the calls of `sleep` and
`wakeup` by a process. -/
structure State (n : ℕ) (Λ γ : Type) where
  proc : Fin n → Proc n
  lock : Fin n → Option γ
  lk : SpinLock Λ → Option γ
  pc : Fin n → Pc n Λ
  me : Fin n → Fin n
  saved : Fin n → Option (Pc n Λ × Fin n)
  exec : γ → Exec n
  spc : γ → SchedPc n
  current : γ → Option (Fin n)
  noff : γ → ℕ
  nextpid : BitVec 32
  calls : Fin n → ℕ
  wakeups : Fin n → ℕ

inductive Call (n : ℕ) (Λ : Type)
  | acquire (lk : SpinLock Λ)
  | release (lk : SpinLock Λ)
  | yield
  | sleep (chan : Chan n) (lk : SpinLock Λ)
  | wakeup (chan : Option (Chan n))
  | kill (pid : BitVec 32)
  | fork
  | exit
  | wait

inductive Action (n : ℕ) (Λ γ : Type)
  /-- the next step of what a CPU executes; `ok` answers for memory -/
  | go (c : γ) (ok : Bool)
  | call (c : γ) (f : Call n Λ)
  | trap (c : γ)
  | ret (c : γ)

/-- After `userinit`, with every CPU at the start of its loop. -/
def start (initproc : Fin n) : State n Λ γ where
  proc := fun p => ⟨if p = initproc then .runnable else .unused, none, if p = initproc then 1 else 0, false, none⟩
  lock := fun _ => none
  lk := fun _ => none
  pc := fun _ => .forkret
  me := id
  saved := fun _ => none
  exec := fun _ => .scheduler
  spc := fun _ => .loop 0
  current := fun _ => none
  noff := fun _ => 0
  nextpid := 2
  calls := fun _ => 0
  wakeups := fun _ => 0

section Primitives

variable [DecidableEq Λ] [DecidableEq γ] (s : State n Λ γ) (c : γ) (p q : Fin n)

def State.goto (x : Pc n Λ) : State n Λ γ := { s with pc := update s.pc p x }

def State.schedGoto (x : SchedPc n) : State n Λ γ := { s with spc := update s.spc c x }

def State.setProc (x : Proc n) : State n Λ γ := { s with proc := update s.proc q x }

def State.setState (x : ProcState) : State n Λ γ := s.setProc q { s.proc q with state := x }

def State.acquireProc : Option (State n Λ γ) :=
  if s.lock q = none then
    some { s with lock := update s.lock q (some c), noff := update s.noff c (s.noff c + 1) }
  else none

def State.releaseProc : Option (State n Λ γ) :=
  if s.lock q = some c then
    some { s with lock := update s.lock q none, noff := update s.noff c (s.noff c - 1) }
  else none

def State.acquire (l : SpinLock Λ) : Option (State n Λ γ) :=
  if s.lk l = none then
    some { s with lk := update s.lk l (some c), noff := update s.noff c (s.noff c + 1) }
  else none

def State.release (l : SpinLock Λ) : Option (State n Λ γ) :=
  if s.lk l = some c then
    some { s with lk := update s.lk l none, noff := update s.noff c (s.noff c - 1) }
  else none

end Primitives

def freeproc : Proc n := ⟨.unused, none, 0, false, none⟩

def Proc.wake (x : Proc n) (chan : Option (Chan n)) : Proc n :=
  if x.state = .sleeping ∧ x.chan = chan then { x with state := .runnable } else x

/-- The body of the loop of `kill`, for the process with the given pid. -/
def Proc.kill (x : Proc n) : Proc n :=
  { x with killed := true, state := if x.state = .sleeping then .runnable else x.state }

def Ret.pc : Ret → Pc n Λ
  | .kernel => .kernel
  | .wait => .waitScan 0 false

def WakeRet.pc : WakeRet → Pc n Λ
  | .kernel => .kernel
  | .reparent i => .exitReparent i
  | .exitLock => .exitLock

section Steps

variable [DecidableEq Λ] [DecidableEq γ]

def State.callSleep (s : State n Λ γ) (p : Fin n) (chan : Chan n) (l : SpinLock Λ) (ret : Ret) :
    State n Λ γ :=
  { s.goto p (.sleepAcquire chan l ret) with calls := update s.calls p (s.calls p + 1) }

def State.callWakeup (s : State n Λ γ) (p : Fin n) (chan : Option (Chan n)) (ret : WakeRet) :
    State n Λ γ :=
  { s.goto p (.wake chan 0 ret) with wakeups := update s.wakeups p (s.wakeups p + 1) }

/-- The checks of `sched`, and the first half of `swtch(&p->context, &mycpu()->context)`. -/
def stepSched (s : State n Λ γ) (c : γ) (p : Fin n) (k : After n Λ) : Option (State n Λ γ) :=
  match s.current c with
  | some q =>
    if s.lock q = some c ∧ s.noff c = 1 ∧ (s.proc q).state ≠ .running then
      some { s.goto p (.back k) with exec := update s.exec c (.leaving p) }
    else none
  | none => none

def stepBack (s : State n Λ γ) (c : γ) (p : Fin n) : After n Λ → Option (State n Λ γ)
  | .yield => (s.releaseProc c (s.me p)).map (·.goto p .kernel)
  | .sleep _ l ret =>
    ((s.setProc (s.me p) { s.proc (s.me p) with chan := none }).releaseProc c (s.me p)).map
      (·.goto p (.sleepReturn l ret))
  | .exit => none

/-- A turn of the loop of `allocproc`, with the rest of the section of `np->lock` in `fork`.
The new context leads to `forkret` with an empty stack. -/
def stepForkHold (s : State n Λ γ) (c : γ) (p np : Fin n) (ok : Bool) : Option (State n Λ γ) :=
  if (s.proc np).state = .unused then
    if ok then
      let t := s.setProc np { s.proc np with state := .used, pid := s.nextpid }
      let t := { t.goto np .forkret with
        saved := update s.saved np none, nextpid := s.nextpid + 1 }
      (t.releaseProc c np).map (·.goto p (.forkWait np))
    else
      let t := { s.setProc np freeproc with nextpid := s.nextpid + 1 }
      (t.releaseProc c np).map (·.goto p .kernel)
  else (s.releaseProc c np).map (·.goto p (.forkScan (np + 1)))

def stepWaitHold (s : State n Λ γ) (c : γ) (p pp : Fin n) (ok : Bool) : Option (State n Λ γ) :=
  if (s.proc pp).state = .zombie then
    if ok then ((s.setProc pp freeproc).releaseProc c pp).map (·.goto p .waitReturn)
    else (s.releaseProc c pp).map (·.goto p .waitReturn)
  else (s.releaseProc c pp).map (·.goto p (.waitScan (pp + 1) true))

def stepReparent (initproc : Fin n) (s : State n Λ γ) (p : Fin n) (i : ℕ) : State n Λ γ :=
  if h : i < n then
    if (s.proc ⟨i, h⟩).parent = some (s.me p) then
      (s.setProc ⟨i, h⟩ { s.proc ⟨i, h⟩ with parent := some initproc }).callWakeup p
        (some (.proc initproc)) (.reparent (i + 1))
    else s.goto p (.exitReparent (i + 1))
  else s.callWakeup p ((s.proc (s.me p)).parent.map .proc) .exitLock

def stepThread (initproc : Fin n) (s : State n Λ γ) (c : γ) (p : Fin n) (ok : Bool) :
    Pc n Λ → Option (State n Λ γ)
  | .forkret => (s.current c).bind (fun q => (s.releaseProc c q).map (·.goto p .kernel))
  | .kernel => none
  | .yieldAcquire => (s.acquireProc c (s.me p)).map (·.goto p .yieldSet)
  | .yieldSet => some ((s.setState (s.me p) .runnable).goto p (.sched .yield))
  | .sleepAcquire chan l ret => (s.acquireProc c (s.me p)).map (·.goto p (.sleepRelease chan l ret))
  | .sleepRelease chan l ret => (s.release c l).map (·.goto p (.sleepSet chan l ret))
  | .sleepSet chan l ret =>
    some ((s.setProc (s.me p) { s.proc (s.me p) with chan := some chan, state := .sleeping }).goto p
      (.sched (.sleep chan l ret)))
  | .sleepReturn l ret => (s.acquire c l).map (·.goto p ret.pc)
  | .sched k => stepSched s c p k
  | .back k => stepBack s c p k
  | .wake chan i ret =>
    if h : i < n then
      if s.current c = some ⟨i, h⟩ then some (s.goto p (.wake chan (i + 1) ret))
      else (s.acquireProc c ⟨i, h⟩).map (·.goto p (.wakeHold chan ⟨i, h⟩ ret))
    else some (s.goto p ret.pc)
  | .wakeHold chan q ret =>
    ((s.setProc q ((s.proc q).wake chan)).releaseProc c q).map (·.goto p (.wake chan (q + 1) ret))
  | .kill pid i =>
    if h : i < n then (s.acquireProc c ⟨i, h⟩).map (·.goto p (.killHold pid ⟨i, h⟩))
    else some (s.goto p .kernel)
  | .killHold pid q =>
    if (s.proc q).pid = pid then ((s.setProc q (s.proc q).kill).releaseProc c q).map (·.goto p .kernel)
    else (s.releaseProc c q).map (·.goto p (.kill pid (q + 1)))
  | .forkScan i =>
    if h : i < n then (s.acquireProc c ⟨i, h⟩).map (·.goto p (.forkHold ⟨i, h⟩))
    else some (s.goto p .kernel)
  | .forkHold np => stepForkHold s c p np ok
  | .forkWait np => (s.acquire c .waitLock).map (·.goto p (.forkParent np))
  | .forkParent np =>
    ((s.setProc np { s.proc np with parent := some (s.me p) }).release c .waitLock).map
      (·.goto p (.forkAcquire np))
  | .forkAcquire np => (s.acquireProc c np).map (·.goto p (.forkRunnable np))
  | .forkRunnable np => ((s.setState np .runnable).releaseProc c np).map (·.goto p .kernel)
  | .exitAcquire => (s.acquire c .waitLock).map (·.goto p (.exitReparent 0))
  | .exitReparent i => some (stepReparent initproc s p i)
  | .exitLock => (s.acquireProc c (s.me p)).map (·.goto p .exitZombie)
  | .exitZombie => ((s.setState (s.me p) .zombie).release c .waitLock).map (·.goto p (.sched .exit))
  | .waitAcquire => (s.acquire c .waitLock).map (·.goto p (.waitScan 0 false))
  | .waitScan i havekids =>
    if h : i < n then
      if (s.proc ⟨i, h⟩).parent = some (s.me p) then
        (s.acquireProc c ⟨i, h⟩).map (·.goto p (.waitHold ⟨i, h⟩))
      else some (s.goto p (.waitScan (i + 1) havekids))
    else if havekids then (s.acquireProc c (s.me p)).map (·.goto p .waitKilled)
    else some (s.goto p .waitReturn)
  | .waitHold pp => stepWaitHold s c p pp ok
  | .waitKilled =>
    if (s.proc (s.me p)).killed then (s.releaseProc c (s.me p)).map (·.goto p .waitReturn)
    else (s.releaseProc c (s.me p)).map (·.callSleep p (.proc (s.me p)) .waitLock .wait)
  | .waitReturn => (s.release c .waitLock).map (·.goto p .kernel)

def stepScheduler (s : State n Λ γ) (c : γ) : SchedPc n → Option (State n Λ γ)
  | .loop i =>
    if h : i < n then (s.acquireProc c ⟨i, h⟩).map (·.schedGoto c (.test ⟨i, h⟩))
    else some (s.schedGoto c (.loop 0))
  | .test q =>
    if (s.proc q).state = .runnable then
      some { (s.setState q .running).schedGoto c (.switch q) with
        current := update s.current c (some q) }
    else some (s.schedGoto c (.unlock q))
  | .switch q => some { s.schedGoto c (.away q) with exec := update s.exec c (.thread q) }
  | .away _ => none
  | .back q => some { s.schedGoto c (.unlock q) with current := update s.current c none }
  | .unlock q => (s.releaseProc c q).map (·.schedGoto c (.loop (q + 1)))
  | .wake chan j i =>
    if h : j < n then
      if s.current c = some ⟨j, h⟩ then some (s.schedGoto c (.wake chan (j + 1) i))
      else (s.acquireProc c ⟨j, h⟩).map (·.schedGoto c (.wakeHold chan ⟨j, h⟩ i))
    else some (s.schedGoto c (.handler i))
  | .handler _ => none
  | .wakeHold chan q i =>
    ((s.setProc q ((s.proc q).wake chan)).releaseProc c q).map (·.schedGoto c (.wake chan (q + 1) i))

/-- The second half of the `swtch` of `sched`: the scheduler's context is loaded. -/
def stepLeave (s : State n Λ γ) (c : γ) : Option (State n Λ γ) :=
  match s.spc c with
  | .away q => some { s.schedGoto c (.back q) with exec := update s.exec c .scheduler }
  | _ => none

/-- The thread of `p` calls a function, whose first statement is `p = myproc()`. A handler
takes and releases locks and calls `wakeup` and `yield`. -/
def stepCall (initproc : Fin n) (s : State n Λ γ) (c : γ) (p : Fin n) :
    Call n Λ → Option (State n Λ γ)
  | .acquire l => s.acquire c l
  | .release l => s.release c l
  | .wakeup chan => some (s.callWakeup p chan .kernel)
  | .yield => (s.current c).map (fun q => { s.goto p .yieldAcquire with me := update s.me p q })
  | .kill pid => if s.saved p = none then some (s.goto p (.kill pid 0)) else none
  | .sleep chan l =>
    if s.saved p = none then
      (s.current c).map (fun q => { s.callSleep p chan l .kernel with me := update s.me p q })
    else none
  | .fork =>
    if s.saved p = none then
      (s.current c).map (fun q => { s.goto p (.forkScan 0) with me := update s.me p q })
    else none
  | .exit =>
    if s.saved p = none ∧ s.current c ≠ some initproc then
      (s.current c).map (fun q => { s.goto p .exitAcquire with me := update s.me p q })
    else none
  | .wait =>
    if s.saved p = none then
      (s.current c).map (fun q => { s.goto p .waitAcquire with me := update s.me p q })
    else none

/-- The calls of a handler that has interrupted a scheduler. -/
def stepHandler (s : State n Λ γ) (c : γ) (i : ℕ) : Call n Λ → Option (State n Λ γ)
  | .acquire l => s.acquire c l
  | .release l => s.release c l
  | .wakeup chan => some (s.schedGoto c (.wake chan 0 i))
  | _ => none

def stepTrap (s : State n Λ γ) (c : γ) : Option (State n Λ γ) :=
  match s.exec c, s.spc c with
  | .thread p, _ =>
    if s.noff c = 0 ∧ s.saved p = none then
      some { s.goto p .kernel with saved := update s.saved p (some (s.pc p, s.me p)) }
    else none
  | .scheduler, .loop i => if s.noff c = 0 then some (s.schedGoto c (.handler i)) else none
  | _, _ => none

def stepRet (s : State n Λ γ) (c : γ) : Option (State n Λ γ) :=
  match s.exec c, s.spc c with
  | .thread p, _ =>
    match s.pc p, s.saved p with
    | .kernel, some (x, q) => some { s.goto p x with
        me := update s.me p q
        saved := update s.saved p none }
    | _, _ => none
  | .scheduler, .handler i => some (s.schedGoto c (.loop i))
  | _, _ => none

def step (initproc : Fin n) (s : State n Λ γ) : Action n Λ γ → Option (State n Λ γ)
  | .go c ok =>
    match s.exec c with
    | .thread p => stepThread initproc s c p ok (s.pc p)
    | .leaving _ => stepLeave s c
    | .scheduler => stepScheduler s c (s.spc c)
  | .call c f =>
    match s.exec c, s.spc c with
    | .thread p, _ => if s.pc p = .kernel then stepCall initproc s c p f else none
    | .scheduler, .handler i => stepHandler s c i f
    | _, _ => none
  | .trap c => stepTrap s c
  | .ret c => stepRet s c

end Steps

end Xv6.Scheduling
