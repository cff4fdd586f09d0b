import Xv6.FileSystem

/-!
# Directories and path names

`dirlookup`, `dirlink`, `skipelem` and `namex` of `kernel/fs.c`, and `isdirempty` of
`kernel/sysfile.c`. A directory is a file of 16-byte entries, an inode number of two
bytes and a name of 14.
-/

namespace Xv6.FileSystem

open ByteBlocks PanicPrograms

/-- A path element or the text of a path, without its final NUL. -/
abbrev Name := List Byte

def direntSize : ℕ := 2 + dirSiz

structure Dirent where
  inum : ℕ
  name : List Byte
  deriving DecidableEq

def decodeDirent (bs : List Byte) : Dirent where
  inum := (bs.getD 0 0).toNat + 2 ^ 8 * (bs.getD 1 0).toNat
  name := (bs.drop 2).take dirSiz

/-- The entry that `dirlink` writes: `strncpy` pads the name with NULs, and `inum` is cut
to a `ushort`. -/
def encodeDirent (inum : ℕ) (name : Name) : List Byte :=
  [BitVec.ofNat 8 inum, BitVec.ofNat 8 (inum / 2 ^ 8)] ++ name.take dirSiz ++
    List.replicate (dirSiz - name.length) 0

/-- The part of a name that `strncmp` compares. -/
def cutName (name : List Byte) : List Byte := (name.take dirSiz).takeWhile (fun c => c ≠ 0)

def namecmp (s t : List Byte) : Bool := cutName s = cutName t

/-- Kernel memory can always be read and written. -/
def toKernel (_ _ : ℕ) : Bool := true

def fromKernel (bs : List Byte) (j : ℕ) : Option Byte := bs[j]?

variable (sb : Superblock)

/-- The loops over the entries of a directory: `readi` of each entry from `off` on, up to
the first that satisfies `found`, with the offset reached. A short read is a panic.
`fuel` is at least the number of entries. -/
def dirSearch (dp : ℕ) (found : Dirent → Bool) (short : Panic) :
    ℕ → ℕ → M (ℕ × Option Dirent)
  | 0, off => pure (off, none)
  | fuel + 1, off => do
    let s ← get
    if off < (s.body dp).size then
      let (n, bs) ← readi sb dp toKernel off direntSize
      if n ≠ direntSize then throw short
      else if found (decodeDirent bs) then pure (off, some (decodeDirent bs))
      else dirSearch dp found short fuel (off + direntSize)
    else pure (off, none)

def dirlookup (dp : ℕ) (name : Name) : M (Option (ℕ × ℕ)) := do
  let s ← get
  if (s.body dp).type ≠ .dir then throw .dirlookupNotDir
  else
    match ← dirSearch sb dp (fun de => de.inum ≠ 0 ∧ namecmp name de.name) .dirlookupRead
        (s.body dp).size 0 with
    | (_, none) => pure none
    | (off, some de) => do
      let i ← iget de.inum
      pure (some (i, off))

def dirlink (dp : ℕ) (name : Name) (inum : ℕ) : M ℤ := do
  match ← dirlookup sb dp name with
  | some (i, _) => do
    iput sb i
    pure (-1)
  | none => do
    let s ← get
    let (off, _) ← dirSearch sb dp (fun de => de.inum = 0) .dirlinkRead (s.body dp).size 0
    let n ← writei sb dp (fromKernel (encodeDirent inum name)) off direntSize
    if n ≠ direntSize then pure (-1) else pure 0

def isdirempty (dp : ℕ) : M Bool := do
  let s ← get
  match ← dirSearch sb dp (fun de => de.inum ≠ 0) .isdiremptyReadi (s.body dp).size
      (2 * direntSize) with
  | (_, none) => pure true
  | (_, some _) => pure false

def slash : Byte := 47

/-- The next path element, cut to `DIRSIZ`, and the rest of the path without leading
slashes. -/
def skipelem (path : Name) : Option (Name × Name) :=
  match path.dropWhile (· = slash) with
  | [] => none
  | c :: rest =>
    some (((c :: rest).takeWhile (· ≠ slash)).take dirSiz,
      ((c :: rest).dropWhile (· ≠ slash)).dropWhile (· = slash))

/-- The end of `namex`, when there is no further element. -/
def namexEnd (nameiparent : Bool) (ip : ℕ) : M (Option (ℕ × Name)) :=
  if nameiparent then do
    iput sb ip
    pure none
  else pure (some (ip, []))

/-- The loop of `namex`; `fuel` is at least the length of the path. -/
def namexLoop (nameiparent : Bool) : ℕ → ℕ → Name → M (Option (ℕ × Name))
  | 0, ip, _ => namexEnd sb nameiparent ip
  | fuel + 1, ip, path =>
    match skipelem path with
    | none => namexEnd sb nameiparent ip
    | some (name, rest) => do
      ilock ip
      let s ← get
      if (s.body ip).type ≠ .dir then
        iput sb ip
        pure none
      else if nameiparent = true ∧ rest = [] then pure (some (ip, name))
      else
        match ← dirlookup sb ip name with
        | none => do
          iput sb ip
          pure none
        | some (next, _) => do
          iput sb ip
          namexLoop nameiparent fuel next rest

/-- `namex`, called by a process with the current directory `cwd`. It returns the inode and
the last element. -/
def namex (cwd : ℕ) (path : Name) (nameiparent : Bool) : M (Option (ℕ × Name)) := do
  let ip ← if path.head? = some slash then iget rootIno else idup cwd
  namexLoop sb nameiparent path.length ip path

def namei (cwd : ℕ) (path : Name) : M (Option ℕ) := do
  let r ← namex sb cwd path false
  pure (r.map Prod.fst)

def nameiparent (cwd : ℕ) (path : Name) : M (Option (ℕ × Name)) := namex sb cwd path true

end Xv6.FileSystem
