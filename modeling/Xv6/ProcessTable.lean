import Xv6.TransitionRuns

/-!
# The process table

`fork`, `exit`, `wait`, `reparent`, `kill`, `sleep` and `wakeup` of `kernel/proc.c`.
A step is a critical section of one `p->lock`. `wait_lock` has a holder, and the loops
that run under it take one turn at a time, so sections of other processes' locks and
`kill` may come in between.

Memory and files are left out: whether `allocproc` and `uvmcopy` find memory and
whether `copyout` succeeds is an argument of the step.
-/

namespace Xv6.ProcessTable

open Function

variable {n : ℕ}

inductive ProcState
  | unused
  | used
  | sleeping
  | runnable
  | running
  | zombie
  deriving DecidableEq

/-- What a process sleeps on: `wait` sleeps on the address of the process itself. -/
inductive Chan (n : ℕ)
  | proc (p : Fin n)
  | other (k : ℕ)
  deriving DecidableEq

/-- The fields of `struct proc` that `wait_lock` and `p->lock` protect. `uid` is a ghost
that tells apart the processes that use one slot after the other. -/
structure Proc (n : ℕ) where
  state : ProcState
  pid : BitVec 32
  parent : Option (Fin n)
  chan : Option (Chan n)
  killed : Bool
  xstate : ℤ
  uid : ℕ

/-- Where the code of a process is. `addr` says whether `wait` was given an address. -/
inductive Place (n : ℕ)
  | user
  | forkScan (i : ℕ)
  | forkParent (np : Fin n)
  | forkRunnable (np : Fin n)
  | exitAcquire (status : ℤ)
  | exitReparent (status : ℤ) (i : ℕ)
  | exitWakeup (status : ℤ)
  | exitZombie (status : ℤ)
  | waitAcquire (addr : Bool)
  | waitScan (addr : Bool) (i : ℕ) (havekids : Bool)
  | waitCheck (addr : Bool) (havekids : Bool)
  | waitSleep (addr : Bool)
  deriving DecidableEq

/-- A process has become a zombie, or a `wait` has returned the pid of a child and, if it
was asked for, the exit status. Processes are named by their `uid`. -/
inductive Event
  | exit (p : ℕ) (pid : BitVec 32) (status : ℤ)
  | wait (p child : ℕ) (pid : BitVec 32) (xstate : Option ℤ)
  deriving DecidableEq

structure State (n : ℕ) where
  proc : Fin n → Proc n
  place : Fin n → Place n
  waitLock : Option (Fin n)
  nextpid : BitVec 32
  panicked : Bool
  births : ℕ
  history : List Event

inductive Action (n : ℕ)
  | fork (p : Fin n)
  | exit (p : Fin n) (status : ℤ)
  | wait (p : Fin n) (addr : Bool)
  /-- the next step of a running process; `ok` answers for memory -/
  | run (p : Fin n) (ok : Bool)
  | kill (pid : BitVec 32) (p : Fin n)
  | schedule (p : Fin n)
  | yield (p : Fin n)
  | sleep (p : Fin n) (k : ℕ)
  | wakeup (p : Fin n) (k : ℕ)

def State.setProc (s : State n) (q : Fin n) (x : Proc n) : State n :=
  { s with proc := update s.proc q x }

def State.goto (s : State n) (p : Fin n) (x : Place n) : State n :=
  { s with place := update s.place p x }

def State.release (s : State n) (p : Fin n) (x : Place n) : State n :=
  { s with waitLock := none, place := update s.place p x }

def freeproc (x : Proc n) : Proc n :=
  { state := .unused, pid := 0, parent := none, chan := none, killed := false, xstate := 0,
    uid := x.uid }

def Proc.wake (x : Proc n) (chan : Option (Chan n)) : Proc n :=
  if x.state = .sleeping ∧ x.chan = chan then { x with state := .runnable } else x

def wakeup (s : State n) (p : Fin n) (chan : Option (Chan n)) : State n :=
  { s with proc := fun q => if q = p then s.proc q else (s.proc q).wake chan }

/-- The turn of the loop of `allocproc` at slot `np`, with the rest of the section of
`np->lock` in `fork` when the slot is free. -/
def forkTurn (s : State n) (p np : Fin n) (ok : Bool) : State n :=
  if (s.proc np).state = .unused then
    if ok then
      { s with
        proc := update s.proc np
          { s.proc np with state := .used, pid := s.nextpid, uid := s.births }
        place := update s.place p (.forkParent np)
        nextpid := s.nextpid + 1
        births := s.births + 1 }
    else { (s.setProc np (freeproc (s.proc np))).goto p .user with nextpid := s.nextpid + 1 }
  else s.goto p (.forkScan (np.val + 1))

def reparentTurn (initproc : Fin n) (s : State n) (p pp : Fin n) : State n :=
  if (s.proc pp).parent = some p then
    wakeup (s.setProc pp { s.proc pp with parent := some initproc }) p (some (.proc initproc))
  else s

/-- `wait` has found the zombie `pp` and copied its status out. -/
def reap (s : State n) (p pp : Fin n) (addr : Bool) : State n :=
  { (s.setProc pp (freeproc (s.proc pp))).release p .user with
    history := s.history ++ [.wait (s.proc p).uid (s.proc pp).uid (s.proc pp).pid
      (if addr then some (s.proc pp).xstate else none)] }

def scanTurn (s : State n) (p pp : Fin n) (addr ok havekids : Bool) : State n :=
  if (s.proc pp).parent = some p then
    if (s.proc pp).state = .zombie then
      if addr = true ∧ ok = false then s.release p .user else reap s p pp addr
    else s.goto p (.waitScan addr (pp.val + 1) true)
  else s.goto p (.waitScan addr (pp.val + 1) havekids)

/-- The end of `exit`: the section of `p->lock` that releases `wait_lock`. The next process
to run in this slot is a new one. -/
def becomeZombie (s : State n) (p : Fin n) (status : ℤ) : State n :=
  { (s.setProc p { s.proc p with xstate := status, state := .zombie }).release p .user with
    history := s.history ++ [.exit (s.proc p).uid (s.proc p).pid status] }

def waitSleep (s : State n) (p : Fin n) (addr : Bool) : State n :=
  (s.setProc p { s.proc p with chan := some (.proc p), state := .sleeping }).release p
    (.waitAcquire addr)

/-- The next step of a process in `fork`, `exit` or `wait`. -/
def run (initproc : Fin n) (s : State n) (p : Fin n) (ok : Bool) : Option (State n) :=
  match s.place p with
  | .user => none
  | .forkScan i =>
    if h : i < n then some (forkTurn s p ⟨i, h⟩ ok) else some (s.goto p .user)
  | .forkParent np =>
    if s.waitLock = none then
      some ((s.setProc np { s.proc np with parent := some p }).goto p (.forkRunnable np))
    else none
  | .forkRunnable np => some ((s.setProc np { s.proc np with state := .runnable }).goto p .user)
  | .exitAcquire status =>
    if s.waitLock = none then some { s.goto p (.exitReparent status 0) with waitLock := some p }
    else none
  | .exitReparent status i =>
    if h : i < n then
      some ((reparentTurn initproc s p ⟨i, h⟩).goto p (.exitReparent status (i + 1)))
    else some (s.goto p (.exitWakeup status))
  | .exitWakeup status =>
    some ((wakeup s p ((s.proc p).parent.map .proc)).goto p (.exitZombie status))
  | .exitZombie status => some (becomeZombie s p status)
  | .waitAcquire addr =>
    if s.waitLock = none then some { s.goto p (.waitScan addr 0 false) with waitLock := some p }
    else none
  | .waitScan addr i havekids =>
    if h : i < n then some (scanTurn s p ⟨i, h⟩ addr ok havekids)
    else some (s.goto p (.waitCheck addr havekids))
  | .waitCheck addr havekids =>
    if havekids = false ∨ (s.proc p).killed = true then some (s.release p .user)
    else some (s.goto p (.waitSleep addr))
  | .waitSleep addr => some (waitSleep s p addr)

/-- `kill` finds the process in its section of `p->lock`. -/
def kill (s : State n) (p : Fin n) : State n :=
  s.setProc p { s.proc p with
    killed := true
    state := if (s.proc p).state = .sleeping then .runnable else (s.proc p).state }

def Place.holds : Place n → Bool
  | .exitReparent _ _ => true
  | .exitWakeup _ => true
  | .exitZombie _ => true
  | .waitScan _ _ _ => true
  | .waitCheck _ _ => true
  | .waitSleep _ => true
  | _ => false

def call (s : State n) (p : Fin n) (t : State n) : Option (State n) :=
  if (s.proc p).state = .running ∧ s.place p = .user then some t else none

/-- `initproc` does not exit: the machine would stop. -/
def exitCall (initproc : Fin n) (s : State n) (p : Fin n) (status : ℤ) : State n :=
  if p = initproc then { s with panicked := true } else s.goto p (.exitAcquire status)

/-- The scheduler and the process it switches to hold `p->lock` until `sleep` has
cleared `p->chan`. -/
def schedule (s : State n) (p : Fin n) : State n :=
  s.setProc p { s.proc p with state := .running, chan := none }

def step (initproc : Fin n) (s : State n) (a : Action n) : Option (State n) :=
  if s.panicked then none
  else match a with
  | .fork p => call s p (s.goto p (.forkScan 0))
  | .exit p status => call s p (exitCall initproc s p status)
  | .wait p addr => call s p (s.goto p (.waitAcquire addr))
  | .run p ok => if (s.proc p).state = .running then run initproc s p ok else none
  | .kill pid p => if (s.proc p).pid = pid then some (kill s p) else none
  | .schedule p => if (s.proc p).state = .runnable then some (schedule s p) else none
  | .yield p =>
    -- a timer interrupt is not taken under a spinlock
    if (s.proc p).state = .running ∧ (s.place p).holds = false then
      some (s.setProc p { s.proc p with state := .runnable })
    else none
  | .sleep p k =>
    call s p (s.setProc p { s.proc p with chan := some (.other k), state := .sleeping })
  | .wakeup p k => call s p (wakeup s p (some (.other k)))

/-- After `userinit`: the first process is runnable and all other slots are free. -/
def userinit (initproc : Fin n) : State n where
  proc q :=
    if q = initproc then
      { state := .runnable, pid := 1, parent := none, chan := none, killed := false, xstate := 0,
        uid := 0 }
    else
      { state := .unused, pid := 0, parent := none, chan := none, killed := false, xstate := 0,
        uid := 0 }
  place _ := .user
  waitLock := none
  nextpid := 2
  panicked := false
  births := 1
  history := []

end Xv6.ProcessTable
