import Xv6.Directories
import Xv6.TransitionRuns

/-!
# System calls on the namespace

`create`, `sys_link`, `sys_unlink`, `sys_open`, `sys_mkdir`, `sys_mknod`, `sys_chdir` and
`sys_close` of `kernel/sysfile.c`, with the file table of `kernel/file.c`. A state holds
the file system and what the processes keep of it; a call that panics has no next state.
-/

namespace Xv6.FileSystem

open ByteBlocks Function PanicPrograms

variable (sb : Superblock)

def dot : Name := [46]

def dotdot : Name := [46, 46]

def setNlink (i : ℕ) (f : ℤ → ℤ) : M Unit := do
  modify (fun s => s.setBody i { s.body i with nlink := short (f (s.body i).nlink) })
  iupdate sb i

def linkBad (ip : ℕ) : M ℤ := do
  ilock ip
  setNlink sb ip (· - 1)
  iput sb ip
  pure (-1)

def sysLink (cwd : ℕ) (old new : Name) : M ℤ := do
  match ← namei sb cwd old with
  | none => pure (-1)
  | some ip => do
    ilock ip
    let s ← get
    if (s.body ip).type = .dir then
      iput sb ip
      pure (-1)
    else
      setNlink sb ip (· + 1)
      match ← nameiparent sb cwd new with
      | none => linkBad sb ip
      | some (dp, name) => do
        ilock dp
        let r ← dirlink sb dp name ip
        iput sb dp
        if r < 0 then linkBad sb ip
        else
          iput sb ip
          pure 0

def unlinkBad (dp : ℕ) : M ℤ := do
  iput sb dp
  pure (-1)

/-- `sys_unlink` behind its checks: the entry is at `off` of `dp`. -/
def unlinkEntry (dp ip off : ℕ) : M ℤ := do
  let n ← writei sb dp (fromKernel (List.replicate direntSize 0)) off direntSize
  if n ≠ direntSize then throw .unlinkWritei
  else
    let s ← get
    if (s.body ip).type = .dir then setNlink sb dp (· - 1) else pure ()
    iput sb dp
    setNlink sb ip (· - 1)
    iput sb ip
    pure 0

def sysUnlink (cwd : ℕ) (path : Name) : M ℤ := do
  match ← nameiparent sb cwd path with
  | none => pure (-1)
  | some (dp, name) => do
    ilock dp
    if namecmp name dot ∨ namecmp name dotdot then unlinkBad sb dp
    else
      match ← dirlookup sb dp name with
      | none => unlinkBad sb dp
      | some (ip, off) => do
        ilock ip
        let s ← get
        if (s.body ip).nlink < 1 then throw .unlinkNlink
        else
          let full ← if (s.body ip).type = .dir then (!·) <$> isdirempty sb ip else pure false
          if full then
            iput sb ip
            unlinkBad sb dp
          else unlinkEntry sb dp ip off

def createFail (dp ip : ℕ) : M (Option ℕ) := do
  setNlink sb ip (fun _ => 0)
  iput sb ip
  iput sb dp
  pure none

/-- The entries `.` and `..` of a new directory; false when there is no room. -/
def createDots (dp ip : ℕ) : M Bool := do
  let r ← dirlink sb ip dot ip
  if r < 0 then pure false
  else
    let r ← dirlink sb ip dotdot dp
    pure (0 ≤ r)

def createNode (dp ip : ℕ) (name : Name) (type : FileType) (major minor : ℤ) :
    M (Option ℕ) := do
  ilock ip
  modify (fun s => s.setBody ip { s.body ip with major := major, minor := minor, nlink := 1 })
  iupdate sb ip
  let ok ← if type = .dir then createDots sb dp ip else pure true
  if ok = false then createFail sb dp ip
  else
    let r ← dirlink sb dp name ip
    if r < 0 then createFail sb dp ip
    else
      if type = .dir then setNlink sb dp (· + 1) else pure ()
      iput sb dp
      pure (some ip)

def create (cwd : ℕ) (path : Name) (type : FileType) (major minor : ℤ) : M (Option ℕ) := do
  match ← nameiparent sb cwd path with
  | none => pure none
  | some (dp, name) => do
    ilock dp
    match ← dirlookup sb dp name with
    | some (ip, _) => do
      iput sb dp
      ilock ip
      let s ← get
      if type = .file ∧ ((s.body ip).type = .file ∨ (s.body ip).type = .device) then
        pure (some ip)
      else
        iput sb ip
        pure none
    | none => do
      match ← ialloc sb type with
      | none => do
        iput sb dp
        pure none
      | some ip => createNode sb dp ip name type major minor

/-- `sys_mkdir` and `sys_mknod` put the inode that `create` returns. -/
def makeNode (cwd : ℕ) (path : Name) (type : FileType) (major minor : ℤ) : M ℤ := do
  match ← create sb cwd path type major minor with
  | none => pure (-1)
  | some ip => do
    iput sb ip
    pure 0

def sysMkdir (cwd : ℕ) (path : Name) : M ℤ := makeNode sb cwd path .dir 0 0

def sysMknod (cwd : ℕ) (path : Name) (major minor : ℤ) : M ℤ :=
  makeNode sb cwd path .device (short major) (short minor)

def chdirInode (cwd : ℕ) (path : Name) : M (Option ℕ) := do
  match ← namei sb cwd path with
  | none => pure none
  | some ip => do
    ilock ip
    let s ← get
    if (s.body ip).type ≠ .dir then
      iput sb ip
      pure none
    else
      iput sb cwd
      pure (some ip)

/-- The bits of `omode`; `other` says whether one is set that has no name. -/
structure OpenMode where
  wronly : Bool
  rdwr : Bool
  create : Bool
  trunc : Bool
  other : Bool
  deriving DecidableEq

def OpenMode.notReadOnly (m : OpenMode) : Bool := m.wronly || m.rdwr || m.create || m.trunc || m.other

/-- `sys_open` up to `filealloc`: the inode, referenced and locked. -/
def openInode (cwd : ℕ) (path : Name) (mode : OpenMode) : M (Option ℕ) := do
  let r ← if mode.create then create sb cwd path .file 0 0
    else do
      match ← namei sb cwd path with
      | none => pure none
      | some ip => do
        ilock ip
        let s ← get
        if (s.body ip).type = .dir ∧ mode.notReadOnly then
          iput sb ip
          pure none
        else pure (some ip)
  match r with
  | none => pure none
  | some ip => do
    let s ← get
    if (s.body ip).type = .device ∧ ((s.body ip).major < 0 ∨ nDev ≤ (s.body ip).major) then
      iput sb ip
      pure none
    else pure (some ip)

inductive FdType
  | none
  | inode
  | device
  deriving DecidableEq

structure File where
  ref : ℕ
  type : FdType
  writable : Bool
  ip : ℕ

/-- The file system, the file table, and the part of each process that refers to them. -/
structure Sys (ι : Type) where
  fs : FS
  file : ℕ → File
  cwd : ι → ℕ
  ofile : ι → ℕ → Option ℕ

abbrev S (ι α : Type) := Program (Sys ι) Panic α

variable {ι : Type}

def onFS {α : Type} (m : M α) : S ι α := zoom Sys.fs (fun s fs => { s with fs := fs }) m

theorem ends_onFS {α : Type} {m : M α} {s : Sys ι} {Q : α → Sys ι → Prop} {E : Panic → Prop} :
    Ends (onFS m) s Q E ↔ Ends m s.fs (fun a fs => Q a { s with fs := fs }) E := ends_zoom

def Sys.setFile (s : Sys ι) (f : ℕ) (x : File) : Sys ι :=
  { s with file := update s.file f x }

theorem Sys.setFile_setFile {s : Sys ι} {f : ℕ} {x y : File} :
    (s.setFile f x).setFile f y = s.setFile f y := by
  simp [Sys.setFile]

variable [DecidableEq ι]

def Sys.setOfile (s : Sys ι) (p : ι) (fd : ℕ) (x : Option ℕ) : Sys ι :=
  { s with ofile := update s.ofile p (update (s.ofile p) fd x) }

def filealloc : S ι (Option ℕ) := do
  let s ← get
  match firstFree (fun f => (s.file f).ref ≠ 0) nFile 0 with
  | none => pure none
  | some f =>
    modify (fun s => s.setFile f { s.file f with ref := 1 })
    pure (some f)

def fdalloc (p : ι) (f : ℕ) : S ι (Option ℕ) := do
  let s ← get
  match firstFree (fun fd => (s.ofile p fd).isSome) nOfile 0 with
  | none => pure none
  | some fd =>
    modify (fun s => s.setOfile p fd (some f))
    pure (some fd)

def fileclose (f : ℕ) : S ι Unit := do
  let s ← get
  if (s.file f).ref < 1 then throw .fileclose
  else if 0 < (s.file f).ref - 1 then
    modify (fun s => s.setFile f { s.file f with ref := (s.file f).ref - 1 })
  else
    modify (fun s => s.setFile f { s.file f with ref := 0, type := .none })
    if (s.file f).type ≠ .none then onFS (iput sb (s.file f).ip) else pure ()

/-- `sys_open` once the inode and the file structure are there. -/
def openFile (f ip : ℕ) (mode : OpenMode) : S ι Unit := do
  let s ← get
  let d := s.fs.body ip
  modify (fun s => s.setFile f
    { s.file f with
      type := if d.type = .device then .device else .inode
      writable := mode.wronly || mode.rdwr
      ip := ip })
  if mode.trunc ∧ d.type = .file then onFS (itrunc sb ip) else pure ()

def sysOpen (p : ι) (path : Name) (mode : OpenMode) : S ι ℤ := do
  let s ← get
  match ← onFS (openInode sb (s.cwd p) path mode) with
  | none => pure (-1)
  | some ip => do
    match ← filealloc with
    | none => do
      onFS (iput sb ip)
      pure (-1)
    | some f => do
      match ← fdalloc p f with
      | none => do
        fileclose sb f
        onFS (iput sb ip)
        pure (-1)
      | some fd => do
        openFile sb f ip mode
        pure fd

def sysChdir (p : ι) (path : Name) : S ι ℤ := do
  let s ← get
  match ← onFS (chdirInode sb (s.cwd p) path) with
  | none => pure (-1)
  | some ip => do
    modify (fun s => { s with cwd := update s.cwd p ip })
    pure 0

def argfd (p : ι) (fd : ℕ) : S ι (Option ℕ) := do
  let s ← get
  pure (if fd < nOfile then s.ofile p fd else none)

def sysClose (p : ι) (fd : ℕ) : S ι ℤ := do
  match ← argfd p fd with
  | none => pure (-1)
  | some f => do
    modify (fun s => s.setOfile p fd none)
    fileclose sb f
    pure 0

/-- One turn of the loop of `filewrite`, at any offset. A device is no part of the file
system. -/
def filewrite (f off n : ℕ) (src : ℕ → Option Byte) : S ι ℤ := do
  let s ← get
  if (s.file f).writable = false then pure (-1)
  else
    match (s.file f).type with
    | .none => throw .filewrite
    | .device => pure n
    | .inode => do
      onFS (ilock (s.file f).ip)
      let r ← onFS (writei sb (s.file f).ip src off n)
      pure (if r = n then n else -1)

def sysWrite (p : ι) (fd off n : ℕ) (src : ℕ → Option Byte) : S ι ℤ := do
  match ← argfd p fd with
  | none => pure (-1)
  | some f => filewrite sb f off n src

/-- A string argument: the bytes at the user's pointer up to the NUL, which must come
within `MAXPATH` bytes. -/
def argstr (mem : List Byte) : Option Name :=
  if 0 ∈ mem.take maxPath then some (mem.takeWhile (· ≠ 0)) else none

inductive Call
  | sysOpen (path : List Byte) (mode : OpenMode)
  | sysMkdir (path : List Byte)
  | sysMknod (path : List Byte) (major minor : ℤ)
  | sysLink (old new : List Byte)
  | sysUnlink (path : List Byte)
  | sysChdir (path : List Byte)
  | sysClose (fd : ℕ)
  | sysWrite (fd off n : ℕ) (src : ℕ → Option Byte)

def syscall (p : ι) : Call → S ι ℤ
  | .sysOpen path mode =>
    match argstr path with
    | none => pure (-1)
    | some path => sysOpen sb p path mode
  | .sysMkdir path =>
    match argstr path with
    | none => pure (-1)
    | some path => do
      let s ← get
      onFS (sysMkdir sb (s.cwd p) path)
  | .sysMknod path major minor =>
    match argstr path with
    | none => pure (-1)
    | some path => do
      let s ← get
      onFS (sysMknod sb (s.cwd p) path major minor)
  | .sysLink old new =>
    match argstr old, argstr new with
    | some old, some new => do
      let s ← get
      onFS (sysLink sb (s.cwd p) old new)
    | _, _ => pure (-1)
  | .sysUnlink path =>
    match argstr path with
    | none => pure (-1)
    | some path => do
      let s ← get
      onFS (sysUnlink sb (s.cwd p) path)
  | .sysChdir path =>
    match argstr path with
    | none => pure (-1)
    | some path => sysChdir sb p path
  | .sysClose fd => sysClose sb p fd
  | .sysWrite fd off n src => sysWrite sb p fd off n src

/-- The state after a call; a call that panics leaves none. -/
def step (s : Sys ι) (a : ι × Call) : Option (Sys ι) :=
  match syscall sb a.1 a.2 s with
  | .ok (_, t) => some t
  | .error _ => none

end Xv6.FileSystem
