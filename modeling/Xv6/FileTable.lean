import Xv6.FileSystem
import Xv6.ReferenceCounts

/-!
# The file table

`filealloc`, `filedup` and `fileclose` of `kernel/file.c`, `pipealloc` and `pipeclose` of
`kernel/pipe.c`, the system calls of `kernel/sysfile.c` that move descriptors, and what `fork`
and `exit` of `kernel/proc.c` do with them. One call runs at a time.

Inodes are named by their entries in the inode table and pipes by their pages. What the rest
of the kernel answers is an argument of a call: the inode that `create` or `namei` finds, the
page that `kalloc` returns, and whether `copyout`, `allocproc` and `uvmcopy` succeed.
-/

namespace Xv6.FileTable

open Function PanicPrograms ReferenceCounts
open FileSystem (FileType)

inductive FdType
  | none
  | pipe
  | inode
  | device
  deriving DecidableEq

/-- `struct file`. The pointers keep their values when the structure is given back. -/
structure File (ι π : Type) where
  type : FdType
  ref : ℤ
  readable : Bool
  writable : Bool
  pipe : Option π
  ip : Option ι
  off : ℕ
  major : ℤ

structure Pipe where
  readopen : ℕ
  writeopen : ℕ
  deriving DecidableEq

/-- `USED` stands for all states of a live process. -/
inductive ProcState
  | unused
  | used
  | zombie
  deriving DecidableEq

abbrev Index := Fin nFile

abbrev Fd (n : ℕ) := Fin n × Fin nOfile

/-- `pipe` is `none` for a page that is not in use as a pipe; `iref` is `ip->ref`. -/
structure State (n : ℕ) (ι π : Type) where
  file : Index → File ι π
  ofile : Fd n → Option Index
  cwd : Fin n → Option ι
  proc : Fin n → ProcState
  pipe : π → Option Pipe
  iref : ι → ℤ

/-- The panics of these functions, and the use of an inode without a reference to it or of a
page that is not a pipe. -/
inductive Fault
  | filedup
  | fileclose
  | initExiting
  | inode
  | pipe
  deriving DecidableEq

variable {n : ℕ} {ι π : Type} [DecidableEq ι] [DecidableEq π]

abbrev M (n : ℕ) (ι π α : Type) := Program (State n ι π) Fault α

def State.setFile (s : State n ι π) (f : Index) (x : File ι π) : State n ι π :=
  { s with file := update s.file f x }

def State.setOfile (s : State n ι π) (x : Fd n) (f : Option Index) : State n ι π :=
  { s with ofile := update s.ofile x f }

def State.setPipe (s : State n ι π) (pi : π) (x : Option Pipe) : State n ι π :=
  { s with pipe := update s.pipe pi x }

def State.setRef (s : State n ι π) (ip : ι) (k : ℤ) : State n ι π :=
  { s with iref := update s.iref ip k }

def State.setProc (s : State n ι π) (p : Fin n) (x : ProcState) : State n ι π :=
  { s with proc := update s.proc p x }

def State.setCwd (s : State n ι π) (p : Fin n) (ip : Option ι) : State n ι π :=
  { s with cwd := update s.cwd p ip }

def idup : Option ι → M n ι π Unit
  | none => throw .inode
  | some ip => do
    let s ← get
    if s.iref ip < 1 then throw .inode else modify (fun s => s.setRef ip (s.iref ip + 1))

def iput : Option ι → M n ι π Unit
  | none => throw .inode
  | some ip => do
    let s ← get
    if s.iref ip < 1 then throw .inode else modify (fun s => s.setRef ip (s.iref ip - 1))

def filealloc : M n ι π (Option Index) := do
  let s ← get
  match (List.finRange nFile).find? (fun f => (s.file f).ref = 0) with
  | none => pure none
  | some f =>
    modify (fun s => s.setFile f { s.file f with ref := 1 })
    pure (some f)

def filedup (f : Index) : M n ι π Unit := do
  let s ← get
  if (s.file f).ref < 1 then throw .filedup
  else modify (fun s => s.setFile f { s.file f with ref := (s.file f).ref + 1 })

def Pipe.close (x : Pipe) (writable : Bool) : Pipe :=
  if writable then { x with writeopen := 0 } else { x with readopen := 0 }

/-- The page goes back to `kfree` when both ends are closed. -/
def pipeclose (pi : Option π) (writable : Bool) : M n ι π Unit := do
  let s ← get
  match pi with
  | none => throw .pipe
  | some pi =>
    match s.pipe pi with
    | none => throw .pipe
    | some x =>
      let y := x.close writable
      if y.readopen = 0 ∧ y.writeopen = 0 then modify (fun s => s.setPipe pi none)
      else modify (fun s => s.setPipe pi (some y))

/-- `ff` is the structure as it was before the last reference went. -/
def fileclose (f : Index) : M n ι π Unit := do
  let s ← get
  let ff := s.file f
  if ff.ref < 1 then throw .fileclose
  else if 0 < ff.ref - 1 then modify (fun s => s.setFile f { s.file f with ref := ff.ref - 1 })
  else
    modify (fun s => s.setFile f { s.file f with ref := 0, type := .none })
    match ff.type with
    | .none => pure ()
    | .pipe => pipeclose ff.pipe ff.writable
    | .inode => iput ff.ip
    | .device => iput ff.ip

/-- `pipealloc`; `page` is what `kalloc` returns. -/
def pipealloc (page : Option π) : M n ι π (Option (Index × Index)) := do
  match ← filealloc with
  | none => pure none
  | some f0 =>
    match ← filealloc with
    | none =>
      fileclose f0
      pure none
    | some f1 =>
      match page with
      | none =>
        fileclose f0
        fileclose f1
        pure none
      | some pi =>
        modify (fun s => s.setPipe pi (some ⟨1, 1⟩))
        modify (fun s => s.setFile f0
          { s.file f0 with type := .pipe, readable := true, writable := false, pipe := some pi })
        modify (fun s => s.setFile f1
          { s.file f1 with type := .pipe, readable := false, writable := true, pipe := some pi })
        pure (some (f0, f1))

def argfd (p : Fin n) (fd : ℤ) : M n ι π (Option (Fin nOfile × Index)) := do
  let s ← get
  if h : 0 ≤ fd ∧ fd < nOfile then
    let k : Fin nOfile := ⟨fd.toNat, by omega⟩
    pure ((s.ofile (p, k)).map (fun f => (k, f)))
  else pure none

/-- The first free descriptor, which takes over the reference of the caller. -/
def fdalloc (p : Fin n) (f : Index) : M n ι π (Option (Fin nOfile)) := do
  let s ← get
  match (List.finRange nOfile).find? (fun fd => s.ofile (p, fd) = none) with
  | none => pure none
  | some fd =>
    modify (fun s => s.setOfile (p, fd) (some f))
    pure (some fd)

def sysDup (p : Fin n) (fd : ℤ) : M n ι π ℤ := do
  match ← argfd p fd with
  | none => pure (-1)
  | some (_, f) =>
    match ← fdalloc p f with
    | none => pure (-1)
    | some fd' =>
      filedup f
      pure fd'.val

def sysClose (p : Fin n) (fd : ℤ) : M n ι π ℤ := do
  match ← argfd p fd with
  | none => pure (-1)
  | some (fd, f) =>
    modify (fun s => s.setOfile (p, fd) none)
    fileclose f
    pure 0

/-- `copyout` answers for the two descriptors. -/
def sysPipe (p : Fin n) (page : Option π) (copyout : Bool × Bool) : M n ι π ℤ := do
  match ← pipealloc page with
  | none => pure (-1)
  | some (rf, wf) =>
    match ← fdalloc p rf with
    | none =>
      fileclose rf
      fileclose wf
      pure (-1)
    | some fd0 =>
      match ← fdalloc p wf with
      | none =>
        modify (fun s => s.setOfile (p, fd0) none)
        fileclose rf
        fileclose wf
        pure (-1)
      | some fd1 =>
        if copyout.1 = false ∨ copyout.2 = false then
          modify (fun s => s.setOfile (p, fd0) none)
          modify (fun s => s.setOfile (p, fd1) none)
          fileclose rf
          fileclose wf
          pure (-1)
        else pure 0

/-- The inode that `create` or `namei` returns, referenced. -/
structure Found (ι : Type) where
  ip : ι
  type : FileType
  major : ℤ

def oRdonly : ℕ := 0x000

def oWronly : ℕ := 0x001

def oRdwr : ℕ := 0x002

def oCreate : ℕ := 0x200

/-- Whether `sys_open` gives up on the inode: a directory that is not opened for reading only,
or a device with no driver. -/
def Found.refused (x : Found ι) (omode : ℕ) : Prop :=
  (omode &&& oCreate = 0 ∧ x.type = .dir ∧ omode ≠ oRdonly) ∨
    (x.type = .device ∧ (x.major < 0 ∨ nDev ≤ x.major))

instance (x : Found ι) (omode : ℕ) : Decidable (x.refused omode) :=
  inferInstanceAs (Decidable (_ ∨ _))

/-- What `sys_open` writes to the file structure. -/
def File.fill (x : File ι π) (found : Found ι) (omode : ℕ) : File ι π :=
  { x with
    type := if found.type = .device then .device else .inode
    major := if found.type = .device then found.major else x.major
    off := if found.type = .device then x.off else 0
    ip := some found.ip
    readable := omode &&& oWronly = 0
    writable := omode &&& oWronly ≠ 0 ∨ omode &&& oRdwr ≠ 0 }

def sysOpen (p : Fin n) (omode : ℕ) (found : Option (Found ι)) : M n ι π ℤ := do
  match found with
  | none => pure (-1)
  | some x =>
    modify (fun s => s.setRef x.ip (s.iref x.ip + 1))
    if x.refused omode then
      iput (some x.ip)
      pure (-1)
    else
      match ← filealloc with
      | none =>
        iput (some x.ip)
        pure (-1)
      | some f =>
        match ← fdalloc p f with
        | none =>
          fileclose f
          iput (some x.ip)
          pure (-1)
        | some fd =>
          modify (fun s => s.setFile f ((s.file f).fill x omode))
          pure fd.val

/-- One turn of the loop of `fork` over the descriptors. -/
def forkFile (p np : Fin n) (fd : Fin nOfile) : M n ι π Unit := do
  let s ← get
  match s.ofile (p, fd) with
  | none => pure ()
  | some f =>
    filedup f
    modify (fun s => s.setOfile (np, fd) (some f))

/-- `fork`, up to the child. `memory` answers for `allocproc` and for `uvmcopy`; where one
fails, `freeproc` gives the process back. -/
def fork (p : Fin n) (memory : Bool × Bool) : M n ι π (Option (Fin n)) := do
  let s ← get
  match (List.finRange n).find? (fun np => s.proc np = .unused) with
  | none => pure none
  | some np =>
    modify (fun s => s.setProc np .used)
    if memory.1 = false ∨ memory.2 = false then
      modify (fun s => s.setProc np .unused)
      pure none
    else
      (List.finRange nOfile).forM (forkFile p np)
      let s ← get
      idup (s.cwd p)
      modify (fun s => s.setCwd np (s.cwd p))
      pure (some np)

/-- One turn of the loop of `exit` over the descriptors. -/
def exitFile (p : Fin n) (fd : Fin nOfile) : M n ι π Unit := do
  let s ← get
  match s.ofile (p, fd) with
  | none => pure ()
  | some f =>
    fileclose f
    modify (fun s => s.setOfile (p, fd) none)

def exit (init p : Fin n) : M n ι π Unit :=
  if p = init then throw .initExiting
  else do
    (List.finRange nOfile).forM (exitFile p)
    let s ← get
    iput (s.cwd p)
    modify (fun s => s.setCwd p none)
    modify (fun s => s.setProc p .zombie)

inductive Call (n : ℕ) (ι π : Type)
  | «open» (omode : ℕ) (found : Option (Found ι))
  | dup (fd : ℤ)
  | pipe (page : Option π) (copyout : Bool × Bool)
  | close (fd : ℤ)
  | fork (memory : Bool × Bool)
  | exit
  /-- `wait` finds the zombie `np` and gives it back -/
  | wait (np : Fin n)

/-- A live process calls, `kalloc` returns a page that is not in use, and `wait` finds a
zombie. -/
def enabled (s : State n ι π) (p : Fin n) : Call n ι π → Prop
  | .pipe (some pi) _ => s.proc p = .used ∧ s.pipe pi = none
  | .wait np => s.proc p = .used ∧ s.proc np = .zombie
  | _ => s.proc p = .used

instance (s : State n ι π) (p : Fin n) : (c : Call n ι π) → Decidable (enabled s p c)
  | .pipe (some _) _ | .wait _ => inferInstanceAs (Decidable (_ ∧ _))
  | .open .. | .dup _ | .pipe none _ | .close _ | .fork _ | .exit => inferInstanceAs (Decidable (_ = _))

/-- The value of the call does not matter to the table. -/
def ignore {α : Type} (m : M n ι π α) : M n ι π Unit := (fun _ => ()) <$> m

def perform (init p : Fin n) : Call n ι π → M n ι π Unit
  | .open omode found => ignore (sysOpen p omode found)
  | .dup fd => ignore (sysDup p fd)
  | .pipe page copyout => ignore (sysPipe p page copyout)
  | .close fd => ignore (sysClose p fd)
  | .fork memory => ignore (fork p memory)
  | .exit => exit init p
  | .wait np => modify (fun s => s.setProc np .unused)

def step (init : Fin n) (s : State n ι π) (a : Fin n × Call n ι π) : Option (State n ι π) :=
  if enabled s a.1 a.2 then
    match perform init a.1 a.2 s with
    | .ok (_, t) => some t
    | .error _ => none
  else none

/-- The first process is in the root directory and has no file open. -/
def start (init : Fin n) (root : ι) : State n ι π where
  file := fun _ =>
    { type := .none, ref := 0, readable := false, writable := false, pipe := none, ip := none, off := 0,
      major := 0 }
  ofile := fun _ => none
  cwd := update (fun _ => none) init (some root)
  proc := update (fun _ => .unused) init .used
  pipe := fun _ => none
  iref := update (fun _ => 0) root 1

end Xv6.FileTable
