import Xv6.PageTables
import Xv6.TransitionRuns

/-!
# Address spaces

`exec` of `kernel/exec.c`, and what `userinit`, `growproc`, `fork`, `exit` and `wait` of
`kernel/proc.c` and `pipealloc` and `pipeclose` do with memory. One call runs at a time. What
the file system and the user memory hold is an argument of a call.
-/

namespace Xv6.VirtualMemory

open ByteBlocks PanicPrograms RadixTables

variable {F : Type} [DecidableEq F]

/-- `MAXARG`: max exec arguments. -/
def maxArg : ℕ := 32

def sub64 (a b : ℕ) : ℕ := (a + (2 ^ 64 - b % 2 ^ 64)) % 2 ^ 64

def procPagetable (tf : F) : M F (Option (PageTable F)) := do
  match ← uvmcreate with
  | none => pure none
  | some pt =>
    let (pt, ok) ← mappages pt trampoline pgSize (fun _ => .trampoline) ⟨true, false, true, false⟩
    if ok = false then
      uvmfree pt 0
      pure none
    else
      let (pt, ok) ← mappages pt trapframe pgSize (fun _ => .frame tf) ⟨true, true, false, false⟩
      if ok = false then
        let pt ← uvmunmap pt trampoline 1 false
        uvmfree pt 0
        pure none
      else pure (some pt)

def procFreepagetable (pt : PageTable F) (sz : ℕ) : M F Unit := do
  let pt ← uvmunmap pt trampoline 1 false
  let pt ← uvmunmap pt trapframe 1 false
  uvmfree pt sz

def walkaddr (pt : PageTable F) (va : ℕ) : M F (Option (Page F)) :=
  if maxVa ≤ va then pure none
  else do
    match ← walk pt va with
    | some (some leaf) => pure (if leaf.perm.u then some leaf.page else none)
    | _ => pure none

def Mem.write (s : Mem F) (page : Page F) (off : ℕ) (bs : List Byte) : Mem F :=
  match page with
  | .frame f => s.setContent f (splice (s.content f) off bs)
  | .trampoline => s

/-- The loop of `copyout`; `fuel` is at least the number of bytes. -/
def copyoutLoop (pt : PageTable F) : ℕ → ℕ → List Byte → M F Bool
  | 0, _, _ => pure true
  | fuel + 1, dstva, bs =>
    if bs = [] then pure true
    else
      let va0 := pgRoundDown dstva
      if maxVa ≤ va0 then pure false
      else do
        match ← walk pt va0 with
        | some (some leaf) =>
          if leaf.perm.u = false ∨ leaf.perm.w = false then pure false
          else
            let n := min (pgSize - (dstva - va0)) bs.length
            modify (fun s => s.write leaf.page (dstva - va0) (bs.take n))
            copyoutLoop pt fuel (va0 + pgSize) (bs.drop n)
        | _ => pure false

def copyout (pt : PageTable F) (dstva : ℕ) (bs : List Byte) : M F Bool :=
  copyoutLoop pt bs.length dstva bs

/-- `struct proghdr`, as far as `exec` reads it. The addresses and sizes are 64-bit. -/
structure Proghdr where
  type : ℕ
  flags : ℕ
  off : ℕ
  vaddr : ℕ
  filesz : ℕ
  memsz : ℕ
  vaddr_lt : vaddr < 2 ^ 64
  filesz_lt : filesz < 2 ^ 64
  memsz_lt : memsz < 2 ^ 64

/-- The file as `exec` reads it: whether it starts with an ELF header, the program headers,
`none` for one that cannot be read, and the bytes that `readi` finds, `none` if they are too
few. -/
structure Image where
  magic : Bool
  headers : List (Option Proghdr)
  read : ℕ → ℕ → Option (List Byte)

/-- The loop of `loadseg`, with the turns to go. The size and the offset are 32-bit. -/
def loadsegLoop (img : Image) (pt : PageTable F) (va offset sz : ℕ) : ℕ → ℕ → M F Bool
  | 0, _ => pure true
  | turns + 1, i => do
    match ← walkaddr pt (va + i) with
    | none => throw .loadseg
    | some page =>
      match img.read ((offset + i) % 2 ^ 32) (min (sz - i) pgSize) with
      | none => pure false
      | some bs =>
        modify (fun s => s.write page 0 bs)
        loadsegLoop img pt va offset sz turns (i + pgSize)

def loadseg (img : Image) (pt : PageTable F) (va offset sz : ℕ) : M F Bool :=
  let sz := sz % 2 ^ 32
  loadsegLoop img pt va (offset % 2 ^ 32) sz ((sz + pgSize - 1) / pgSize) 0

/-- The loop of `exec` over the program headers. It returns the table, the size, and whether
all segments are loaded. -/
def loadImage (img : Image) : List (Option Proghdr) → PageTable F → ℕ → M F (PageTable F × ℕ × Bool)
  | [], pt, sz => pure (pt, sz, true)
  | none :: _, pt, sz => pure (pt, sz, false)
  | some ph :: rest, pt, sz =>
    if ph.type ≠ 1 then loadImage img rest pt sz
    else if ph.memsz < ph.filesz then pure (pt, sz, false)
    else if (ph.vaddr + ph.memsz) % 2 ^ 64 < ph.vaddr then pure (pt, sz, false)
    else if ph.vaddr % pgSize ≠ 0 then pure (pt, sz, false)
    else do
      -- `flags2perm`
      let (pt, sz1) ← uvmalloc pt sz ((ph.vaddr + ph.memsz) % 2 ^ 64) (ph.flags.testBit 1) (ph.flags.testBit 0)
      if sz1 = 0 then pure (pt, sz, false)
      else if ← loadseg img pt ph.vaddr ph.off ph.filesz then loadImage img rest pt sz1
      else pure (pt, sz1, false)

/-- The loop of `exec` that pushes the argument strings. It returns the stack pointer and
`ustack`, or `none` if there is no room. -/
def pushArgs (pt : PageTable F) (stackbase : ℕ) :
    List (List Byte) → ℕ → List ℕ → M F (Option (ℕ × List ℕ))
  | [], sp, ustack => pure (some (sp, ustack))
  | arg :: rest, sp, ustack =>
    if maxArg ≤ ustack.length then pure none
    else
      let sp := sub64 sp (arg.length + 1)
      let sp := sp - sp % 16
      if sp < stackbase then pure none
      else do
        if ← copyout pt sp (arg ++ [0]) then pushArgs pt stackbase rest sp (ustack ++ [sp]) else pure none

def wordBytes (ws : List ℕ) : List Byte :=
  ws.flatMap (fun w => (List.range 8).map (fun k => BitVec.ofNat 8 (w / 2 ^ (8 * k))))

/-- The stack of the new image: the argument strings and the array of their addresses. -/
def pushStack (pt : PageTable F) (sz : ℕ) (args : List (List Byte)) : M F (Option ℕ) := do
  let stackbase := sub64 sz pgSize
  match ← pushArgs pt stackbase args sz [] with
  | none => pure none
  | some (sp, ustack) =>
    let sp := sub64 sp ((ustack.length + 1) * 8)
    let sp := sp - sp % 16
    if sp < stackbase then pure none
    else if ← copyout pt sp (wordBytes (ustack ++ [0])) then pure (some sp) else pure none

/-- `exec` up to the commit: the new table with its size, or nothing. -/
def execImage (tf : F) (img : Image) (args : List (List Byte)) : M F (Option (PageTable F × ℕ)) := do
  if img.magic = false then pure none
  else
    match ← procPagetable tf with
    | none => pure none
    | some pt =>
      let (pt, sz, ok) ← loadImage img img.headers pt 0
      if ok = false then
        procFreepagetable pt sz
        pure none
      else
        let sz := pgRoundUp sz
        let (pt, sz1) ← uvmalloc pt sz ((sz + 2 * pgSize) % 2 ^ 64) true false
        if sz1 = 0 then
          procFreepagetable pt sz
          pure none
        else
          let pt ← uvmclear pt (sz1 - 2 * pgSize)
          match ← pushStack pt sz1 args with
          | none =>
            procFreepagetable pt sz1
            pure none
          | some _ => pure (some (pt, sz1))

/-- What `sys_exec` finds in `argv`: an address that cannot be read, one of a string that
cannot be read, or a string. -/
inductive Arg
  | badAddr
  | badStr
  | str (bs : List Byte)

/-- The loop of `sys_exec`. It returns the pages that it has allocated and the strings, or
`none` if it gives up. -/
def fetchArgs : List Arg → List F → List (List Byte) → M F (List F × Option (List (List Byte)))
  | [], pages, strs => pure (pages, if maxArg ≤ pages.length then none else some strs)
  | arg :: rest, pages, strs =>
    if maxArg ≤ pages.length then pure (pages, none)
    else
      match arg with
      | .badAddr => pure (pages, none)
      | .badStr => do
        match ← kalloc with
        | none => pure (pages, none)
        | some f => pure (pages ++ [f], none)
      | .str bs => do
        match ← kalloc with
        | none => pure (pages, none)
        | some f => fetchArgs rest (pages ++ [f]) (strs ++ [bs])

/-- `USED` stands for all states of a live process. -/
inductive ProcState
  | unused
  | used
  | zombie
  deriving DecidableEq

/-- The memory of a process. `guard` is a ghost: the number of the page below the stack that
the last `exec` has taken from the user. -/
structure Proc (F : Type) where
  state : ProcState
  pagetable : Option (PageTable F)
  sz : ℕ
  trapframe : Option F
  guard : Option ℕ

/-- `pipes` are the pages of the open pipes. -/
structure State (n : ℕ) (F : Type) where
  proc : Fin n → Proc F
  initproc : Option (Fin n)
  pipes : List F
  mem : Mem F

variable {n : ℕ}

abbrev S (n : ℕ) (F α : Type) := Program (State n F) Panic α

def onMem {α : Type} (m : M F α) : S n F α := zoom State.mem (fun s mem => { s with mem := mem }) m

def State.setProc (s : State n F) (p : Fin n) (x : Proc F) : State n F :=
  { s with proc := Function.update s.proc p x }

def Proc.free : Proc F := ⟨.unused, none, 0, none, none⟩

def freeproc (p : Fin n) : S n F Unit := do
  let s ← get
  match (s.proc p).trapframe with
  | none => pure ()
  | some tf => onMem (kfree (.frame tf))
  match (s.proc p).pagetable with
  | none => pure ()
  | some pt => onMem (procFreepagetable pt (s.proc p).sz)
  modify (fun s => s.setProc p .free)

def allocproc : S n F (Option (Fin n)) := do
  let s ← get
  match (List.finRange n).find? (fun p => (s.proc p).state = .unused) with
  | none => pure none
  | some p =>
    modify (fun s => s.setProc p { s.proc p with state := .used })
    match ← onMem kalloc with
    | none =>
      freeproc p
      pure none
    | some tf =>
      modify (fun s => s.setProc p { s.proc p with trapframe := some tf })
      match ← onMem (procPagetable tf) with
      | none =>
        freeproc p
        pure none
      | some pt =>
        modify (fun s => s.setProc p { s.proc p with pagetable := some pt })
        pure (some p)

/-- `uvmfirst`, which does not test what `kalloc` and `mappages` return. -/
def uvmfirst (pt : PageTable F) (src : List Byte) : M F (PageTable F) :=
  if pgSize ≤ src.length then throw .uvmfirst
  else do
    match ← kalloc with
    | none => throw .userinit
    | some f =>
      modify (fun s => s.setContent f (fill 0))
      let (pt, ok) ← mappages pt 0 pgSize (fun _ => .frame f) ⟨true, true, true, true⟩
      if ok = false then throw .userinit
      else
        modify (fun s => s.write (.frame f) 0 src)
        pure pt

/-- The program that calls `exec` of `/init`. -/
def initcode : List Byte :=
  [0x17, 0x05, 0x00, 0x00, 0x13, 0x05, 0x45, 0x02, 0x97, 0x05, 0x00, 0x00, 0x93, 0x85, 0x35, 0x02,
    0x93, 0x08, 0x70, 0x00, 0x73, 0x00, 0x00, 0x00, 0x93, 0x08, 0x20, 0x00, 0x73, 0x00, 0x00, 0x00,
    0xef, 0xf0, 0x9f, 0xff, 0x2f, 0x69, 0x6e, 0x69, 0x74, 0x00, 0x00, 0x24, 0x00, 0x00, 0x00, 0x00,
    0x00, 0x00, 0x00, 0x00]

def userinit : S n F Unit := do
  match ← allocproc with
  | none => throw .userinit
  | some p =>
    let s ← get
    match (s.proc p).pagetable with
    | some pt =>
      let pt ← onMem (uvmfirst pt initcode)
      modify (fun s => { s.setProc p { s.proc p with pagetable := some pt, sz := pgSize } with
        initproc := some p })
    | none => throw .userinit

/-- `growproc`; `k` is a 32-bit integer, and the sum is on 64 bits. -/
def growproc (p : Fin n) (k : ℤ) : S n F ℤ := do
  let s ← get
  let sz := (s.proc p).sz
  let newsz := ((sz + k) % 2 ^ 64).toNat
  match (s.proc p).pagetable with
  | none => throw .noTable
  | some pt =>
    if 0 < k then
      let (pt, sz1) ← onMem (uvmalloc pt sz newsz true false)
      modify (fun s => s.setProc p { s.proc p with pagetable := some pt })
      if sz1 = 0 then pure (-1)
      else
        modify (fun s => s.setProc p { s.proc p with sz := sz1 })
        pure 0
    else if k < 0 then
      let (pt, sz1) ← onMem (uvmdealloc pt sz newsz)
      modify (fun s => s.setProc p { s.proc p with pagetable := some pt, sz := sz1 })
      pure 0
    else pure 0

def fork (p : Fin n) : S n F (Option (Fin n)) := do
  match ← allocproc with
  | none => pure none
  | some np =>
    let s ← get
    match (s.proc p).pagetable, (s.proc np).pagetable with
    | some old, some new =>
      let (new, ok) ← onMem (uvmcopy old new (s.proc p).sz)
      modify (fun s => s.setProc np { s.proc np with pagetable := some new })
      if ok = false then
        freeproc np
        pure none
      else
        modify (fun s => s.setProc np { s.proc np with sz := (s.proc p).sz, guard := (s.proc p).guard })
        pure (some np)
    | _, _ => throw .noTable

/-- `exec`; `file` is what the path names. -/
def exec (p : Fin n) (file : Option Image) (args : List (List Byte)) : S n F Unit := do
  let s ← get
  match file with
  | none => pure ()
  | some img =>
    match (s.proc p).pagetable, (s.proc p).trapframe with
    | some old, some tf =>
      match ← onMem (execImage tf img args) with
      | none => pure ()
      | some (pt, sz) =>
        modify (fun s => s.setProc p
          { s.proc p with pagetable := some pt, sz := sz, guard := some (sz / pgSize - 2) })
        onMem (procFreepagetable old (s.proc p).sz)
    | _, _ => throw .noTable

def sysExec (p : Fin n) (file : Option Image) (argv : List Arg) : S n F Unit := do
  let (pages, args) ← onMem (fetchArgs argv [] [])
  match args with
  | none => pure ()
  | some args => exec p file args
  pages.forM (fun f => onMem (kfree (.frame f)))

inductive Call (n : ℕ) (F : Type)
  | exec (file : Option Image) (argv : List Arg)
  | fork
  | sbrk (k : ℤ)
  | exit
  /-- `wait` finds the zombie `np` and frees it -/
  | wait (np : Fin n)
  /-- `pipealloc` asks for a page -/
  | pipe
  /-- `pipeclose` gives it back -/
  | close (f : F)

def perform (p : Fin n) : Call n F → S n F Unit
  | .exec file argv => sysExec p file argv
  | .fork => (fun _ => ()) <$> fork p
  | .sbrk k => (fun _ => ()) <$> growproc p k
  | .exit => do
    let s ← get
    if s.initproc = some p then throw .initExiting
    else modify (fun s => s.setProc p { s.proc p with state := .zombie })
  | .wait np => freeproc np
  | .pipe => do
    match ← onMem kalloc with
    | none => pure ()
    | some f => modify (fun s => { s with pipes := f :: s.pipes })
  | .close f => do
    modify (fun s => { s with pipes := s.pipes.erase f })
    onMem (kfree (.frame f))

/-- A live process calls; `wait` finds a zombie, and a pipe is closed that is open. -/
def enabled (s : State n F) (p : Fin n) : Call n F → Prop
  | .wait np => (s.proc p).state = .used ∧ (s.proc np).state = .zombie
  | .close f => (s.proc p).state = .used ∧ f ∈ s.pipes
  | _ => (s.proc p).state = .used

inductive Action (n : ℕ) (F : Type)
  | userinit
  /-- `luck` is for the calls of `kalloc` -/
  | call (p : Fin n) (luck : List Bool) (c : Call n F)

instance (s : State n F) (p : Fin n) : (c : Call n F) → Decidable (enabled s p c)
  | .wait _ | .close _ => inferInstanceAs (Decidable (_ ∧ _))
  | .exec .. | .fork | .sbrk _ | .exit | .pipe => inferInstanceAs (Decidable (_ = _))

def State.setLuck (s : State n F) (luck : List Bool) : State n F := { s with mem := { s.mem with luck := luck } }

def step (s : State n F) : Action n F → Option (State n F)
  | .userinit =>
    if s.initproc = none then
      match userinit s with
      | .ok (_, t) => some t
      | .error _ => none
    else none
  | .call p luck c =>
    if enabled s p c then
      match perform p c (s.setLuck luck) with
      | .ok (_, t) => some t
      | .error _ => none
    else none

/-- No process yet; the frames that are not free hold the structures made at boot. -/
def start (freelist : List F) (content : F → Block) : State n F where
  proc := fun _ => .free
  initproc := none
  pipes := []
  mem := ⟨freelist, [], content⟩

end Xv6.VirtualMemory
