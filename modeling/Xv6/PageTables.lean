import Xv6.ByteBlocks
import Xv6.PanicPrograms
import Xv6.RadixTables

/-!
# Page tables

`kernel/kalloc.c` and the functions of `kernel/vm.c` that build user page tables. `F` is the
type of the page frames between `end` and `PHYSTOP`. A page table is the tree of its pages:
each of them is reached through one entry only, so that a write through `walk` is a change of
one place in the tree. The functions return the table that they leave behind.
-/

namespace Xv6.VirtualMemory

open ByteBlocks PanicPrograms RadixTables

def pgSize : ℕ := 4096

/-- `MAXVA`, one bit less than Sv39 allows. -/
def maxVa : ℕ := 2 ^ 38

def trampoline : ℕ := maxVa - pgSize

def trapframe : ℕ := trampoline - pgSize

/-- The page frames that the kernel has at most: `KERNBASE` to `PHYSTOP`. -/
def maxFrames : ℕ := 128 * 1024 * 1024 / pgSize

def pgRoundUp (a : ℕ) : ℕ := (a + pgSize - 1) % 2 ^ 64 / pgSize * pgSize

def pgRoundDown (a : ℕ) : ℕ := a / pgSize * pgSize

/-- `PTE_R`, `PTE_W`, `PTE_X` and `PTE_U`. -/
structure Perm where
  r : Bool
  w : Bool
  x : Bool
  u : Bool
  deriving DecidableEq

/-- The page that a leaf maps: a frame, or the page of the trampoline code, which is part of
the kernel. -/
inductive Page (F : Type)
  | frame (f : F)
  | trampoline
  deriving DecidableEq

structure Leaf (F : Type) where
  page : Page F
  perm : Perm

instance neZeroEntries : NeZero 512 := ⟨by decide⟩

abbrev PageTable (F : Type) := Tree 512 F (Leaf F)

inductive Panic
  | kfree
  | walk
  | mappagesVa
  | mappagesSizeAligned
  | mappagesSize
  | mappagesRemap
  | uvmunmapAligned
  | uvmunmapWalk
  | uvmunmapNotMapped
  | uvmunmapNotLeaf
  | freewalkLeaf
  /-- `freewalk` takes a page without permissions for a table -/
  | freewalkTable
  | uvmcopyExist
  | uvmcopyPresent
  | uvmclear
  | loadseg
  | initExiting
  | uvmfirst
  /-- `userinit` without the memory for the first process -/
  | userinit
  /-- a process without a page table or a trapframe -/
  | noTable
  deriving DecidableEq

/-- `kmem.freelist` and the contents of the frames. `luck` tells of the calls of `kalloc` to
come which of them fail; those behind its end fail only when no frame is free. -/
structure Mem (F : Type) where
  freelist : List F
  luck : List Bool
  content : F → Block

variable {F : Type} [DecidableEq F]

abbrev M (F α : Type) := Program (Mem F) Panic α

/-- What `memset` leaves. -/
def fill (x : Byte) : Block := fun _ => x

def Mem.setContent (s : Mem F) (f : F) (x : Block) : Mem F :=
  { s with content := Function.update s.content f x }

def kalloc : M F (Option F) := do
  let s ← get
  modify (fun s => { s with luck := s.luck.tail })
  if s.luck.head? = some true then pure none
  else
    match s.freelist with
    | [] => pure none
    | f :: rest =>
      modify (fun s => { s with freelist := rest }.setContent f (fill 5))
      pure (some f)

def kfree : Page F → M F Unit
  | .trampoline => throw .kfree
  | .frame f => modify (fun s => { s with freelist := f :: s.freelist }.setContent f (fill 1))

def kfmemory : M F ℕ := do
  let s ← get
  pure (s.freelist.foldl (fun sum _ => sum + pgSize) 0)

/-- The indices `PX(2, va)`, `PX(1, va)` and `PX(0, va)`. -/
def px (va : ℕ) : Digits 512 := digits 512 (va / pgSize)

/-- The table below an entry; a missing one is allocated and cleared. -/
def orTable {α : Type} : Option (Table 512 F α) → M F (Option (Table 512 F α))
  | some t => pure (some t)
  | none => do
    match ← kalloc with
    | none => pure none
    | some f => pure (some (.empty 512 f))

/-- `walk` with `alloc`: the tables on the way to `va`, and whether they are all there. -/
def walkAlloc (pt : PageTable F) (va : ℕ) : M F (PageTable F × Bool) :=
  if maxVa ≤ va then throw .walk
  else do
    let i := px va
    match ← orTable (pt.entry i.1) with
    | none => pure (pt, false)
    | some t1 =>
      match ← orTable (t1.entry i.2.1) with
      | none => pure (pt.set i.1 (some t1), false)
      | some t0 => pure (pt.set i.1 (some (t1.set i.2.1 (some t0))), true)

/-- `walk` without `alloc`; the entry, if the tables exist. -/
def walk (pt : PageTable F) (va : ℕ) : M F (Option (Option (Leaf F))) :=
  if maxVa ≤ va then throw .walk else pure (pt.find (px va))

/-- The loop of `mappages`; `pa k` is the page `k` pages behind the first. -/
def mapPages (perm : Perm) : ℕ → PageTable F → ℕ → (ℕ → Page F) → M F (PageTable F × Bool)
  | 0, pt, _, _ => pure (pt, true)
  | n + 1, pt, a, pa => do
    let (pt, ok) ← walkAlloc pt a
    if ok = false then pure (pt, false)
    else
      match (pt.find (px a)).join with
      | some _ => throw .mappagesRemap
      | none => mapPages perm n (pt.put (px a) (some ⟨pa 0, perm⟩)) (a + pgSize) (fun k => pa (k + 1))

def mappages (pt : PageTable F) (va size : ℕ) (pa : ℕ → Page F) (perm : Perm) :
    M F (PageTable F × Bool) :=
  if va % pgSize ≠ 0 then throw .mappagesVa
  else if size % pgSize ≠ 0 then throw .mappagesSizeAligned
  else if size = 0 then throw .mappagesSize
  else mapPages perm (size / pgSize) pt va pa

def unmapPages (doFree : Bool) : ℕ → PageTable F → ℕ → M F (PageTable F)
  | 0, pt, _ => pure pt
  | n + 1, pt, a => do
    match ← walk pt a with
    | none => throw .uvmunmapWalk
    | some none => throw .uvmunmapNotMapped
    | some (some leaf) =>
      if leaf.perm = ⟨false, false, false, false⟩ then throw .uvmunmapNotLeaf
      else
        if doFree then kfree leaf.page else pure ()
        unmapPages doFree n (pt.put (px a) none) (a + pgSize)

def uvmunmap (pt : PageTable F) (va npages : ℕ) (doFree : Bool) : M F (PageTable F) :=
  if va % pgSize ≠ 0 then throw .uvmunmapAligned else unmapPages doFree npages pt va

def uvmcreate : M F (Option (PageTable F)) := do
  match ← kalloc with
  | none => pure none
  | some f => pure (some (.empty 512 f))

def uvmdealloc (pt : PageTable F) (oldsz newsz : ℕ) : M F (PageTable F × ℕ) :=
  if oldsz ≤ newsz then pure (pt, oldsz)
  else if pgRoundUp newsz < pgRoundUp oldsz then do
    let pt ← uvmunmap pt (pgRoundUp newsz) ((pgRoundUp oldsz - pgRoundUp newsz) / pgSize) true
    pure (pt, newsz)
  else pure (pt, newsz)

/-- `PTE_R|PTE_U|xperm`. -/
def userPerm (w x : Bool) : Perm := ⟨true, w, x, true⟩

/-- The loop of `uvmalloc`, with the turns to go. -/
def uvmallocLoop (oldsz : ℕ) (perm : Perm) : ℕ → PageTable F → ℕ → M F (PageTable F × Bool)
  | 0, pt, _ => pure (pt, true)
  | n + 1, pt, a => do
    match ← kalloc with
    | none =>
      let (pt, _) ← uvmdealloc pt a oldsz
      pure (pt, false)
    | some mem =>
      modify (fun s => s.setContent mem (fill 0))
      let (pt, ok) ← mappages pt a pgSize (fun _ => .frame mem) perm
      if ok then uvmallocLoop oldsz perm n pt (a + pgSize)
      else
        kfree (.frame mem)
        let (pt, _) ← uvmdealloc pt a oldsz
        pure (pt, false)

/-- `uvmalloc` returns the new size, or 0. `w` and `x` are the bits of `xperm`. -/
def uvmalloc (pt : PageTable F) (oldsz newsz : ℕ) (w x : Bool) : M F (PageTable F × ℕ) :=
  if newsz < oldsz then pure (pt, oldsz)
  else do
    let oldsz := pgRoundUp oldsz
    let turns := (newsz - oldsz + pgSize - 1) / pgSize
    let (pt, ok) ← uvmallocLoop oldsz (userPerm w x) turns pt oldsz
    pure (pt, if ok then newsz else 0)

/-- `freewalk` at the last level: a leaf is a panic. -/
def freeLeaf (leaf : Leaf F) : M F Unit :=
  if leaf.perm.r = false ∧ leaf.perm.w = false ∧ leaf.perm.x = false then throw .freewalkTable
  else throw .freewalkLeaf

/-- `freewalk` on one table, given what it does below an entry. -/
def freeTable {α : Type} (below : α → M F Unit) (t : Table 512 F α) : M F Unit := do
  (List.finRange 512).forM (fun i =>
    match t.entry i with
    | none => pure ()
    | some x => below x)
  kfree (.frame t.frame)

def freewalk (pt : PageTable F) : M F Unit := freeTable (freeTable (freeTable freeLeaf)) pt

def uvmfree (pt : PageTable F) (sz : ℕ) : M F Unit := do
  let pt ← if 0 < sz then uvmunmap pt 0 (pgRoundUp sz / pgSize) true else pure pt
  freewalk pt

/-- What `memmove` reads from a page. -/
def Mem.read (s : Mem F) : Page F → Block
  | .frame f => s.content f
  | .trampoline => zeros

def uvmcopyLoop (old : PageTable F) : ℕ → PageTable F → ℕ → M F (PageTable F × Bool)
  | 0, new, _ => pure (new, true)
  | n + 1, new, i => do
    match ← walk old i with
    | none => throw .uvmcopyExist
    | some none => throw .uvmcopyPresent
    | some (some leaf) =>
      match ← kalloc with
      | none =>
        let new ← uvmunmap new 0 (i / pgSize) true
        pure (new, false)
      | some mem =>
        modify (fun s => s.setContent mem (s.read leaf.page))
        let (new, ok) ← mappages new i pgSize (fun _ => .frame mem) leaf.perm
        if ok then uvmcopyLoop old n new (i + pgSize)
        else
          kfree (.frame mem)
          let new ← uvmunmap new 0 (i / pgSize) true
          pure (new, false)

def uvmcopy (old new : PageTable F) (sz : ℕ) : M F (PageTable F × Bool) :=
  uvmcopyLoop old ((sz + pgSize - 1) / pgSize) new 0

/-- `uvmclear`: an entry that is not valid stays so. -/
def uvmclear (pt : PageTable F) (va : ℕ) : M F (PageTable F) := do
  match ← walk pt va with
  | none => throw .uvmclear
  | some leaf =>
    pure (pt.put (px va) (leaf.map (fun leaf => { leaf with perm := { leaf.perm with u := false } })))

end Xv6.VirtualMemory
