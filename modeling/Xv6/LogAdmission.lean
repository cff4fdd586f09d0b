import Xv6.KernelParameters
import Xv6.TransitionRuns

/-!
# Admission to the log and group commit

`begin_op`, `log_write`, `end_op` and `commit` of `kernel/log.c` for any number of
processes. One step is one critical section of `log.lock`, or one of the two
writes to the header that `commit` makes without the lock; so `log.lock` is free
in every state. The disk contents are not part of this model.
-/

namespace Xv6.LogAdmission

open Function

/-- What one operation has logged since its `begin_op`. The three fields are
ghosts: no branch of the code reads them. -/
structure Op where
  epoch : ℕ
  blocks : List ℕ
  appended : ℕ
  deriving DecidableEq, Repr

inductive Proc
  | idle
  | asleep
  | woken
  | inOp (op : Op)
  /-- `end_op` has released the lock with `do_commit = 1` -/
  | commit
  /-- `write_head` has made the transaction durable, `install_trans` is running -/
  | install
  | committed
  deriving DecidableEq, Repr

inductive Panic
  | tooBig
  | outsideTrans
  | logCommitting
  deriving DecidableEq, Repr

/-- `struct log` with the entries of `lh.block[0..n)` as a list, and the processes.
`durable` collects the headers that commits have written and `finished` the
operations that have ended; both are ghosts. -/
structure State (ι : Type) where
  size : ℕ
  outstanding : ℤ
  committing : Bool
  lh : List ℕ
  proc : ι → Proc
  durable : List (List ℕ)
  finished : List Op
  panicked : Option Panic

inductive Action (ι : Type)
  | beginOp (p : ι)
  | logWrite (p : ι) (b : ℕ)
  | endOp (p : ι)
  | writeHead (p : ι)
  | clearHead (p : ι)
  | finishCommit (p : ι)
  | kill (p : ι)
  deriving DecidableEq, Repr

variable {ι : Type} [DecidableEq ι]

def State.setProc (s : State ι) (p : ι) (x : Proc) : State ι :=
  { s with proc := update s.proc p x }

def State.panic (s : State ι) (m : Panic) : State ι := { s with panicked := some m }

def Proc.wakeup : Proc → Proc
  | .asleep => .woken
  | x => x

/-- `wakeup(&log)`: every process sleeping on the log becomes runnable. -/
def State.wakeup (s : State ι) : State ι := { s with proc := fun q => (s.proc q).wakeup }

/-- `initlog`, after `recover_from_log` has left `log.lh.n = 0`. -/
def initlog (sb : Superblock) : State ι where
  size := sb.nlog
  outstanding := 0
  committing := false
  lh := []
  proc := fun _ => .idle
  durable := []
  finished := []
  panicked := none

/-- The test that makes `begin_op` wait: this op might exhaust log space. -/
def State.exhausts (s : State ι) : Prop :=
  (s.lh.length : ℤ) + (s.outstanding + 1) * maxOpBlocks > logSize

instance (s : State ι) : Decidable s.exhausts := by unfold State.exhausts; infer_instance

/-- One turn of the loop of `begin_op`. -/
def beginOp (s : State ι) (p : ι) : State ι :=
  if s.committing then s.setProc p .asleep
  else if s.exhausts then s.setProc p .asleep
  else { s with
    outstanding := s.outstanding + 1
    proc := update s.proc p (.inOp ⟨s.durable.length, [], 0⟩) }

/-- The loop of `log_write` over `log.lh.block[0..n)`: an entry equal to `b` is
written again (log absorption), otherwise `b` is put behind the last one. -/
def absorb (b : ℕ) : List ℕ → List ℕ
  | [] => [b]
  | c :: cs => if c = b then b :: cs else c :: absorb b cs

def Op.record (op : Op) (b : ℕ) (fresh : Bool) : Op :=
  ⟨op.epoch, b :: op.blocks, if fresh then op.appended + 1 else op.appended⟩

def logWrite (s : State ι) (p : ι) (op : Op) (b : ℕ) : State ι :=
  if logSize ≤ s.lh.length ∨ (s.size : ℤ) - 1 ≤ s.lh.length then s.panic .tooBig
  else if s.outstanding < 1 then s.panic .outsideTrans
  else { s with
    lh := absorb b s.lh
    proc := update s.proc p (.inOp (op.record b (b ∉ s.lh))) }

/-- The first critical section of `end_op`. -/
def endOp (s : State ι) (p : ι) (op : Op) : State ι :=
  if s.committing then { s with outstanding := s.outstanding - 1 }.panic .logCommitting
  else if s.outstanding - 1 = 0 then
    { s with
      outstanding := s.outstanding - 1
      committing := true
      finished := op :: s.finished
      proc := update s.proc p .commit }
  else
    { s with
      outstanding := s.outstanding - 1
      finished := op :: s.finished
      proc := update s.proc p .idle }.wakeup

/-- `commit` up to and with its first `write_head`. Nothing is written when the
header is empty, and the transaction is recorded as an empty one. -/
def writeHead (s : State ι) (p : ι) : State ι :=
  { s with
    durable := s.durable ++ [s.lh]
    proc := update s.proc p (if 0 < s.lh.length then .install else .committed) }

/-- The rest of `commit`: `install_trans(0)`, `log.lh.n = 0` and `write_head`. -/
def clearHead (s : State ι) (p : ι) : State ι :=
  { s with lh := [], proc := update s.proc p .committed }

/-- The second critical section of `end_op`. -/
def finishCommit (s : State ι) (p : ι) : State ι :=
  { s with committing := false, proc := update s.proc p .idle }.wakeup

/-- `none` when the process is not at the code the action stands for. A panic
stops the kernel, so nothing is enabled after one. -/
def step (s : State ι) (a : Action ι) : Option (State ι) :=
  if s.panicked.isSome then none
  else match a with
  | .beginOp p => match s.proc p with
    | .idle => some (beginOp s p)
    | .woken => some (beginOp s p)
    | _ => none
  | .logWrite p b => match s.proc p with
    | .inOp op => some (logWrite s p op b)
    | _ => none
  | .endOp p => match s.proc p with
    | .inOp op => some (endOp s p op)
    | _ => none
  | .writeHead p => if s.proc p = .commit then some (writeHead s p) else none
  | .clearHead p => if s.proc p = .install then some (clearHead s p) else none
  | .finishCommit p => if s.proc p = .committed then some (finishCommit s p) else none
  -- `kill` makes a sleeping process runnable; `begin_op` does not look at `killed`
  | .kill p => some (s.setProc p (s.proc p).wakeup)

def Proc.appended : Proc → ℕ
  | .inOp op => op.appended
  | _ => 0

def Proc.blocks : Proc → List ℕ
  | .inOp op => op.blocks
  | _ => []

/-- Each operation appends at most `MAXOPBLOCKS` new entries to `log.lh`. -/
def AppendBound (s : State ι) : Action ι → Prop
  | .logWrite p b => b ∉ s.lh → (s.proc p).appended < maxOpBlocks
  | _ => True

/-- Each operation logs at most `MAXOPBLOCKS` distinct blocks. -/
def DistinctBound (s : State ι) : Action ι → Prop
  | .logWrite p b => (b :: (s.proc p).blocks).toFinset.card ≤ maxOpBlocks
  | _ => True

instance (s : State ι) (a : Action ι) : Decidable (AppendBound s a) := by
  cases a <;> unfold AppendBound <;> infer_instance

instance (s : State ι) (a : Action ι) : Decidable (DistinctBound s a) := by
  cases a <;> unfold DistinctBound <;> infer_instance

theorem absorb_of_mem {b : ℕ} {cs : List ℕ} (h : b ∈ cs) : absorb b cs = cs := by
  induction cs with
  | nil => cases h
  | cons c cs ih =>
    by_cases hc : c = b
    · simp [absorb, hc]
    · rw [absorb, if_neg hc, ih ((List.mem_cons.mp h).resolve_left (Ne.symm hc))]

theorem absorb_of_notMem {b : ℕ} {cs : List ℕ} (h : b ∉ cs) : absorb b cs = cs ++ [b] := by
  induction cs with
  | nil => rfl
  | cons c cs ih =>
    simp only [List.mem_cons, not_or] at h
    obtain ⟨hc, hcs⟩ := h
    rw [absorb, if_neg (Ne.symm hc), ih hcs, List.cons_append]

theorem subset_absorb (b : ℕ) (cs : List ℕ) : cs ⊆ absorb b cs := by
  by_cases h : b ∈ cs
  · rw [absorb_of_mem h]
    exact List.Subset.refl cs
  · rw [absorb_of_notMem h]
    exact List.subset_append_left cs [b]

theorem mem_absorb (b : ℕ) (cs : List ℕ) : b ∈ absorb b cs := by
  by_cases h : b ∈ cs
  · rwa [absorb_of_mem h]
  · simp [absorb_of_notMem h]

theorem absorb_nodup {b : ℕ} {cs : List ℕ} (h : cs.Nodup) : (absorb b cs).Nodup := by
  by_cases hb : b ∈ cs
  · rwa [absorb_of_mem hb]
  · rw [absorb_of_notMem hb, ← List.concat_eq_append]
    exact List.Nodup.concat hb h

/-- Absorption is the insertion of a set, as long as the entries are distinct. -/
theorem absorb_toFinset (b : ℕ) (cs : List ℕ) :
    (absorb b cs).toFinset = insert b cs.toFinset := by
  by_cases h : b ∈ cs
  · rw [absorb_of_mem h, Finset.insert_eq_of_mem (List.mem_toFinset.mpr h)]
  · rw [absorb_of_notMem h]
    ext x
    simp

end Xv6.LogAdmission
