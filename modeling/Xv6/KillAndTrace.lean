import Xv6.ProcessSlots

/-!
# `kill` and `trace`

`kill` and `setkilled` of `kernel/proc.c`, `sys_trace` of `kernel/sysproc.c` and the test in
`syscall`, over the process table. `kill` takes the lock of one slot after the other, and any
other step may come between two of them. `freeproc` and `allocproc` do not touch
`tracemask`.
-/

namespace Xv6.KillAndTrace

open Function TransitionRuns

variable {n : ℕ}

/-- A call of `kill` that has come to the slot `next`. `births` is a ghost: the number of
processes that had been created when it began. -/
structure Scan where
  pid : BitVec 32
  next : ℕ
  births : ℕ
  deriving DecidableEq

/-- `marked` and `traced` are ghosts. A process is marked from the moment that its pid is
passed to `kill`, or that it takes a fatal trap; it is traced if it or an ancestor has called
`trace`. -/
structure State (n : ℕ) where
  table : ProcessTable.State n
  killing : Fin n → Option Scan
  tracemask : Fin n → BitVec 64
  marked : Fin n → Bool
  traced : Fin n → Bool

inductive Action (n : ℕ)
  /-- a step of `fork`, `exit`, `wait` or the scheduler -/
  | table (a : ProcessTable.Action n)
  | kill (p : Fin n) (pid : BitVec 32)
  /-- the next turn of the loop of `kill` -/
  | killTurn (p : Fin n)
  /-- `usertrap` calls `setkilled` -/
  | trap (p : Fin n)
  | trace (p : Fin n) (mask : BitVec 32)
  | exec (p : Fin n)

def State.proc (s : State n) (q : Fin n) : ProcessTable.Proc n := s.table.proc q

def State.Live (s : State n) (q : Fin n) : Prop := (s.proc q).state ≠ .unused

instance (s : State n) (q : Fin n) : Decidable (s.Live q) := inferInstanceAs (Decidable (_ ≠ _))

def State.Running (s : State n) (p : Fin n) : Prop :=
  s.table.panicked = false ∧ (s.proc p).state = .running

def State.Idle (s : State n) (p : Fin n) : Prop :=
  s.Running p ∧ s.table.place p = .user ∧ s.killing p = none

instance (s : State n) (p : Fin n) : Decidable (s.Running p) := inferInstanceAs (Decidable (_ ∧ _))

instance (s : State n) (p : Fin n) : Decidable (s.Idle p) :=
  have : Decidable (s.killing p = none) := decidable_of_iff _ Option.isNone_iff_eq_none
  inferInstanceAs (Decidable (_ ∧ _ ∧ _))

/-- The process that takes a step in the kernel. -/
def caller : ProcessTable.Action n → Option (Fin n)
  | .fork p => some p
  | .exit p _ => some p
  | .wait p _ => some p
  | .run p _ => some p
  | .sleep p _ => some p
  | .wakeup p _ => some p
  | _ => none

/-- Whether the step is one of `kill`, or is taken by a process that is in `kill`. -/
def busy (s : State n) : ProcessTable.Action n → Bool
  | .kill _ _ => true
  | a => (caller a).any (fun p => (s.killing p).isSome)

/-- The ghosts of a new process: calls of `kill` that are under way may have its pid. -/
def State.setTable (s : State n) (a : ProcessTable.Action n) (t : ProcessTable.State n) : State n :=
  match ProcessTable.newborn s.table a with
  | none => { s with table := t }
  | some (p, np) => { s with
      table := t
      marked := update s.marked np
        (decide (∃ q, (s.killing q).map Scan.pid = some s.table.nextpid))
      traced := update s.traced np (s.traced p) }

def setkilled (s : ProcessTable.State n) (p : Fin n) : ProcessTable.State n :=
  s.setProc p { s.proc p with killed := true }

/-- What the next turn of `kill` returns, if it returns. -/
def killReturn (s : State n) (c : Scan) : Option ℤ :=
  if h : c.next < n then if (s.proc ⟨c.next, h⟩).pid = c.pid then some 0 else none else some (-1)

def killTurn (s : State n) (p : Fin n) (c : Scan) : State n :=
  if h : c.next < n then
    if (s.proc ⟨c.next, h⟩).pid = c.pid then
      { s with
        table := ProcessTable.kill s.table ⟨c.next, h⟩
        killing := update s.killing p none }
    else { s with killing := update s.killing p (some { c with next := c.next + 1 }) }
  else { s with killing := update s.killing p none }

def step (initproc : Fin n) (s : State n) : Action n → Option (State n)
  | .table a =>
    if busy s a then none else (ProcessTable.step initproc s.table a).map (s.setTable a)
  | .kill p pid =>
    if s.Idle p then some { s with
      killing := update s.killing p (some ⟨pid, 0, s.table.births⟩)
      marked := fun q => s.marked q || decide (s.Live q ∧ (s.proc q).pid = pid) }
    else none
  | .killTurn p => if s.Running p then (s.killing p).map (killTurn s p) else none
  | .trap p =>
    if s.Idle p then some { s with
      table := setkilled s.table p
      marked := update s.marked p true }
    else none
  | .trace p mask =>
    if s.Idle p then some { s with
      tracemask := update s.tracemask p (mask.signExtend 64)
      traced := update s.traced p true }
    else none
  | .exec p => if s.Idle p then some s else none

def start (initproc : Fin n) : State n where
  table := ProcessTable.userinit initproc
  killing _ := none
  tracemask _ := 0
  marked _ := false
  traced _ := false

/-- The test in `syscall`: `p->tracemask & (1 << num)`. -/
def printsTrace (mask : BitVec 64) (num : ℕ) : Bool :=
  mask &&& ((1 : BitVec 32) <<< num).signExtend 64 ≠ 0

end Xv6.KillAndTrace
