import Xv6.KernelParameters
import Xv6.TransitionRuns

/-!
# The redo log on the disk

`commit`, `write_log`, `write_head`, `install_trans`, `read_head` and
`recover_from_log` of `kernel/log.c` over the buffer cache of `kernel/bio.c`, one
step for each block write. The machine may stop between any two steps. What is
left then is the disk, and the next boot runs `recover_from_log` on it.
-/

namespace Xv6.RedoLog

open Function

abbrev BlockNo := BitVec 32

def wordsPerBlock : ℕ := bSize / 4

/-- A disk block, as the 32-bit words that `struct logheader` reads it by. -/
abbrev Block := Fin wordsPerBlock → BitVec 32

abbrev Disk := BlockNo → Block

instance : NeZero wordsPerBlock := ⟨by decide⟩

/-- The fields `start` and `size` of `struct log`, from the superblock. -/
structure Geometry where
  start : ℕ
  size : ℕ
  pos : 0 < size
  fits : start + size ≤ 2 ^ 32

/-- Block `i` of the log area. Block 0 is the header. -/
def Geometry.block (g : Geometry) (i : ℕ) : BlockNo := BitVec.ofNat 32 (g.start + i)

def Geometry.Inside (g : Geometry) (b : BlockNo) : Prop :=
  g.start ≤ b.toNat ∧ b.toNat < g.start + g.size

instance (g : Geometry) (b : BlockNo) : Decidable (g.Inside b) :=
  inferInstanceAs (Decidable (_ ∧ _))

/-- The header as `read_head` takes it from a block: `n` is a signed word, and the
loop runs `n` times. -/
def readHeader (x : Block) : List BlockNo :=
  (List.range (x 0).toInt.toNat).map (fun i => x (Fin.ofNat wordsPerBlock (i + 1)))

/-- The block that `write_head` makes of the header's old content: entries behind `n`
stay as they are. -/
def writeHeader (x : Block) (lh : List BlockNo) : Block := fun w =>
  if w = 0 then BitVec.ofNat 32 lh.length else (lh[w.val - 1]?).getD (x w)

/-- The blocks a transaction has passed to `log_write`, with the data they had then. -/
abbrev Txn := List (BlockNo × Block)

def applyTxn (d : Disk) (txn : Txn) : Disk :=
  txn.foldl (fun d w => update d w.1 w.2) d

inductive Place
  | running
  | writeLog (tail : ℕ)
  | writeHead
  | installTrans (tail : ℕ)
  | eraseHead
  /-- the machine is off or about to call `recover_from_log` -/
  | down
  | recoverTrans (tail : ℕ)
  | recoverHead
  | recovered
  deriving DecidableEq

/-- The disk, the valid buffers of the cache with the references that `bpin` holds, and
`log.lh`. The last three fields are ghosts: the log writes since the last commit, the
transactions handed to `commit` so far, and how many of these calls have returned. -/
structure State where
  disk : Disk
  cache : BlockNo → Option Block
  pins : BlockNo → ℕ
  lh : List BlockNo
  place : Place
  pending : Txn
  issued : List Txn
  returned : ℕ

inductive Action
  /-- `bread(b)`, a change of the buffer to `data`, and `log_write` -/
  | logWrite (b : BlockNo) (data : Block)
  | commit
  | run
  | load (b : BlockNo)
  | evict (b : BlockNo)
  | crash

/-- What `bread(b)` finds in the buffer it returns. -/
def State.buffer (s : State) (b : BlockNo) : Block := (s.cache b).getD (s.disk b)

def State.bread (s : State) (b : BlockNo) : State :=
  { s with cache := update s.cache b (some (s.buffer b)) }

def State.setBuffer (s : State) (b : BlockNo) (data : Block) : State :=
  { s with cache := update s.cache b (some data) }

/-- `bwrite` of the buffer of `b` after it got the content `data`. -/
def State.bwrite (s : State) (b : BlockNo) (data : Block) : State :=
  { s.setBuffer b data with disk := update s.disk b data }

def State.bpin (s : State) (b : BlockNo) : State :=
  { s with pins := update s.pins b (s.pins b + 1) }

def State.bunpin (s : State) (b : BlockNo) : State :=
  { s with pins := update s.pins b (s.pins b - 1) }

def State.crash (s : State) : State :=
  { s with cache := fun _ => none, pins := fun _ => 0, lh := [], place := .down, pending := [] }

variable (g : Geometry)

/-- `log_write` of a buffer that holds `data`. `panic` stops the machine, so what
follows it is what follows a crash. -/
def logWrite (s : State) (b : BlockNo) (data : Block) : State :=
  if logSize ≤ s.lh.length ∨ g.size - 1 ≤ s.lh.length then s.crash
  else
    let s := { s.setBuffer b data with pending := s.pending ++ [(b, data)] }
    if b ∈ s.lh then s else { s.bpin b with lh := s.lh ++ [b] }

def writeLogTurn (s : State) (tail : ℕ) (b : BlockNo) : State :=
  { (s.bread b).bwrite (g.block (tail + 1)) (s.buffer b) with place := .writeLog (tail + 1) }

/-- One turn of the loop of `install_trans`, up to `bwrite`. -/
def installTurn (s : State) (tail : ℕ) (b : BlockNo) : State :=
  (s.bread (g.block (tail + 1))).bwrite b (s.buffer (g.block (tail + 1)))

def writeHead (s : State) : State :=
  s.bwrite (g.block 0) (writeHeader (s.buffer (g.block 0)) s.lh)

def run (s : State) : Option State :=
  match s.place with
  | .writeLog tail => match s.lh[tail]? with
    | some b => some (writeLogTurn g s tail b)
    | none => some { s with place := .writeHead }
  | .writeHead => some { writeHead g s with place := .installTrans 0 }
  | .installTrans tail => match s.lh[tail]? with
    | some b => some { (installTurn g s tail b).bunpin b with place := .installTrans (tail + 1) }
    | none => some { s with lh := [], place := .eraseHead }
  | .eraseHead =>
    some { writeHead g s with place := .running, pending := [], returned := s.returned + 1 }
  | .down =>
    some { s.bread (g.block 0) with
      lh := readHeader (s.buffer (g.block 0)), place := .recoverTrans 0 }
  | .recoverTrans tail => match s.lh[tail]? with
    | some b => some { installTurn g s tail b with place := .recoverTrans (tail + 1) }
    | none => some { s with lh := [], place := .recoverHead }
  | .recoverHead => some { writeHead g s with place := .recovered }
  | .running => none
  | .recovered => none

/-- `commit` is called; an empty transaction returns at once. -/
def commit (s : State) : State :=
  if 0 < s.lh.length then { s with place := .writeLog 0, issued := s.issued ++ [s.pending] }
  else { s with issued := s.issued ++ [s.pending], pending := [], returned := s.returned + 1 }

def step (s : State) (a : Action) : Option State :=
  match a with
  | .logWrite b data => if s.place = .running then some (logWrite g s b data) else none
  | .commit => if s.place = .running then some (commit s) else none
  | .run => run g s
  | .load b => some (s.bread b)
  | .evict b =>
    if s.pins b = 0 then some { s with cache := update s.cache b none } else none
  | .crash => some s.crash

def booted (d : Disk) : State where
  disk := d
  cache := fun _ => none
  pins := fun _ => 0
  lh := []
  place := .running
  pending := []
  issued := []
  returned := 0

end Xv6.RedoLog
