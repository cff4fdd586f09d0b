import Xv6.ByteBlocks
import Xv6.KernelParameters
import Xv6.PanicPrograms

/-!
# Blocks and inodes

The block allocator and the inode layer of `kernel/fs.c`, over the content that the
buffer cache shows: the bitmap, the inodes and the data blocks. One system call runs at
a time, so the locks are left out, and `iunlock` with them. An inode is named by its
number, also in the inode table, where the source has at most one entry for it.
-/

namespace Xv6.FileSystem

open ByteBlocks Function PanicPrograms

/-- `other` are the values of `short type` that no constant stands for. -/
inductive FileType
  | none
  | dir
  | file
  | device
  | other (code : Fin 65532)
  deriving DecidableEq

/-- The fields that `struct dinode` and `struct inode` share. -/
structure Dinode where
  type : FileType
  major : ℤ
  minor : ℤ
  nlink : ℤ
  size : ℕ
  addrs : ℕ → ℕ

structure Inode where
  ref : ℕ
  valid : Bool
  body : Dinode

/-- `active` counts the entries of the inode table in use, `logged` the blocks passed to
`log_write`. -/
structure FS where
  bitmap : ℕ → Bool
  dinode : ℕ → Dinode
  data : ℕ → Block
  inode : ℕ → Inode
  active : ℕ
  logged : List ℕ

inductive Panic
  | freeingFreeBlock
  | igetNoInodes
  | ilock
  | ilockNoType
  | bmapOutOfRange
  | dirlookupNotDir
  | dirlookupRead
  | dirlinkRead
  | isdiremptyReadi
  | unlinkNlink
  | unlinkWritei
  | filedup
  | fileclose
  | fileread
  | filewrite
  deriving DecidableEq

abbrev M (α : Type) := Program FS Panic α

def short (x : ℤ) : ℤ := Int.bmod x (2 ^ 16)

def Dinode.setAddr (d : Dinode) (k b : ℕ) : Dinode :=
  { d with addrs := update d.addrs k b }

def FS.body (s : FS) (i : ℕ) : Dinode := (s.inode i).body

def FS.setBit (s : FS) (b : ℕ) (x : Bool) : FS :=
  { s with bitmap := update s.bitmap b x }

def FS.setBlock (s : FS) (b : ℕ) (x : Block) : FS :=
  { s with data := update s.data b x }

def FS.setInode (s : FS) (i : ℕ) (x : Inode) : FS :=
  { s with inode := update s.inode i x }

def FS.setBody (s : FS) (i : ℕ) (d : Dinode) : FS := s.setInode i { s.inode i with body := d }

def FS.setDinode (s : FS) (i : ℕ) (d : Dinode) : FS :=
  { s with dinode := update s.dinode i d }

def logWrite (b : ℕ) : M Unit := modify (fun s => { s with logged := s.logged ++ [b] })

/-- The first of `n` numbers from `b` on for which `used` is false. -/
def firstFree (used : ℕ → Bool) : ℕ → ℕ → Option ℕ
  | 0, _ => none
  | n + 1, b => if used b then firstFree used n (b + 1) else some b

def bzero (b : ℕ) : M Unit := do
  modify (fun s => s.setBlock b zeros)
  logWrite b

variable (sb : Superblock)

/-- `balloc` returns 0 when there is no free block. -/
def balloc : M ℕ := do
  let s ← get
  match firstFree s.bitmap sb.size 0 with
  | none => pure 0
  | some b =>
    modify (fun s => s.setBit b true)
    logWrite (sb.bblock b)
    bzero b
    pure b

def bfree (b : ℕ) : M Unit := do
  let s ← get
  if s.bitmap b = false then throw .freeingFreeBlock
  else
    modify (fun s => s.setBit b false)
    logWrite (sb.bblock b)

def iupdate (i : ℕ) : M Unit := do
  modify (fun s => s.setDinode i (s.body i))
  logWrite (sb.iblock i)

/-- A full table is a panic. -/
def iget (i : ℕ) : M ℕ := do
  let s ← get
  if 0 < (s.inode i).ref then
    modify (fun s => s.setInode i { s.inode i with ref := (s.inode i).ref + 1 })
    pure i
  else if nInode ≤ s.active then throw .igetNoInodes
  else
    modify (fun s => { s.setInode i { s.inode i with ref := 1, valid := false } with
      active := s.active + 1 })
    pure i

def idup (i : ℕ) : M ℕ := do
  modify (fun s => s.setInode i { s.inode i with ref := (s.inode i).ref + 1 })
  pure i

/-- What `memset` and the assignment of the type leave in a new inode. -/
def newDinode (type : FileType) : Dinode :=
  { type := type, major := 0, minor := 0, nlink := 0, size := 0, addrs := fun _ => 0 }

def ialloc (type : FileType) : M (Option ℕ) := do
  let s ← get
  match firstFree (fun i => (s.dinode i).type ≠ .none) (sb.ninodes - 1) 1 with
  | none => pure none
  | some i =>
    modify (fun s => s.setDinode i (newDinode type))
    logWrite (sb.iblock i)
    some <$> iget i

def ilock (i : ℕ) : M Unit := do
  let s ← get
  if (s.inode i).ref < 1 then throw .ilock
  else if (s.inode i).valid then pure ()
  else
    modify (fun s => s.setInode i { s.inode i with valid := true, body := s.dinode i })
    if (s.dinode i).type = .none then throw .ilockNoType else pure ()

/-- A block number that is read from a slot, or, where the slot holds 0, allocated and
stored there. -/
def orAlloc (addr : ℕ) (store : ℕ → M Unit) : M ℕ :=
  if addr ≠ 0 then pure addr
  else do
    let b ← balloc sb
    if b ≠ 0 then store b else pure ()
    pure b

/-- `bmap` changes `addrs` in the table only; its callers write the inode back. -/
def bmap (i bn : ℕ) : M ℕ := do
  let s ← get
  if bn < nDirect then
    orAlloc sb ((s.body i).addrs bn) (fun b => modify (fun s => s.setBody i ((s.body i).setAddr bn b)))
  else if bn - nDirect < nIndirect then
    let ind ← orAlloc sb ((s.body i).addrs nDirect)
      (fun b => modify (fun s => s.setBody i ((s.body i).setAddr nDirect b)))
    if ind = 0 then pure 0
    else
      let s ← get
      orAlloc sb (word (s.data ind) (bn - nDirect)) (fun b => do
        modify (fun s => s.setBlock ind (setWord (s.data ind) (bn - nDirect) b))
        logWrite ind)
  else throw .bmapOutOfRange

/-- One turn of the first loop of `itrunc`. -/
def truncDirect (i k : ℕ) : M Unit := do
  let s ← get
  if (s.body i).addrs k ≠ 0 then
    bfree sb ((s.body i).addrs k)
    modify (fun s => s.setBody i ((s.body i).setAddr k 0))
  else pure ()

/-- One turn of its second loop, over the entries of the indirect block. -/
def truncIndirect (ind j : ℕ) : M Unit := do
  let s ← get
  if word (s.data ind) j ≠ 0 then bfree sb (word (s.data ind) j) else pure ()

def itrunc (i : ℕ) : M Unit := do
  (List.range nDirect).forM (truncDirect sb i)
  let s ← get
  if (s.body i).addrs nDirect ≠ 0 then
    (List.range nIndirect).forM (truncIndirect sb ((s.body i).addrs nDirect))
    bfree sb ((s.body i).addrs nDirect)
    modify (fun s => s.setBody i ((s.body i).setAddr nDirect 0))
  else pure ()
  modify (fun s => s.setBody i { s.body i with size := 0 })
  iupdate sb i

/-- The last reference to an inode without links frees it. -/
def iput (i : ℕ) : M Unit := do
  let s ← get
  if (s.inode i).ref = 1 ∧ (s.inode i).valid = true ∧ (s.body i).nlink = 0 then
    itrunc sb i
    modify (fun s => s.setBody i { s.body i with type := .none })
    iupdate sb i
    modify (fun s => s.setInode i { s.inode i with valid := false })
  else pure ()
  modify (fun s => { s.setInode i { s.inode i with ref := (s.inode i).ref - 1 } with
    active := if (s.inode i).ref = 1 then s.active - 1 else s.active })

/-- The loop of `readi`, with `n` bytes to go; `fuel` is at least `n`. It returns the
count, or -1 when `copyout` fails, and the bytes it has copied. -/
def readiLoop (i : ℕ) (copyout : ℕ → ℕ → Bool) : ℕ → ℕ → ℕ → ℕ → List Byte → M (ℤ × List Byte)
  | 0, _, _, tot, bs => pure (tot, bs)
  | fuel + 1, off, n, tot, bs =>
    if n = 0 then pure (tot, bs)
    else do
      let addr ← bmap sb i (off / bSize)
      if addr = 0 then pure (tot, bs)
      else
        let s ← get
        let m := min n (bSize - off % bSize)
        if copyout tot m then
          readiLoop i copyout fuel (off + m) (n - m) (tot + m)
            (bs ++ slice (s.data addr) (off % bSize) m)
        else pure (-1, bs)

/-- `readi`. `off` and `n` are 32-bit, and their sum may wrap. `copyout tot m` answers for
the copy of `m` bytes at `dst + tot`. -/
def readi (i : ℕ) (copyout : ℕ → ℕ → Bool) (off n : ℕ) : M (ℤ × List Byte) := do
  let s ← get
  if (s.body i).size < off ∨ (off + n) % 2 ^ 32 < off then pure (0, [])
  else
    let n := if (s.body i).size < off + n then (s.body i).size - off else n
    readiLoop sb i copyout n off n 0 []

/-- What `either_copyin` finds at `src + tot`: the readable bytes among the next `m`. -/
def copyin (src : ℕ → Option Byte) (tot m : ℕ) : List Byte :=
  ((List.range m).map (fun j => src (tot + j))).takeWhile Option.isSome |>.reduceOption

/-- The loop of `writei`. It returns the offset and the count it has reached. Where the
copy fails, the buffer keeps the bytes copied so far, without `log_write`. -/
def writeiLoop (i : ℕ) (src : ℕ → Option Byte) : ℕ → ℕ → ℕ → ℕ → M (ℕ × ℕ)
  | 0, off, _, tot => pure (off, tot)
  | fuel + 1, off, n, tot =>
    if n = 0 then pure (off, tot)
    else do
      let addr ← bmap sb i (off / bSize)
      if addr = 0 then pure (off, tot)
      else
        let m := min n (bSize - off % bSize)
        let bs := copyin src tot m
        modify (fun s => s.setBlock addr (splice (s.data addr) (off % bSize) bs))
        if bs.length < m then pure (off, tot)
        else
          logWrite addr
          writeiLoop i src fuel (off + m) (n - m) (tot + m)

def writei (i : ℕ) (src : ℕ → Option Byte) (off n : ℕ) : M ℤ := do
  let s ← get
  if (s.body i).size < off ∨ (off + n) % 2 ^ 32 < off then pure (-1)
  else if maxFile * bSize < off + n then pure (-1)
  else
    let (off', tot) ← writeiLoop sb i src n off n 0
    modify (fun s =>
      if (s.body i).size < off' then s.setBody i { s.body i with size := off' } else s)
    iupdate sb i
    pure tot

end Xv6.FileSystem
