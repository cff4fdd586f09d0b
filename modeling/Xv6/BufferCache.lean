import Mathlib.Data.Fintype.Basic
import Xv6.KernelParameters
import Xv6.LinkedRings
import Xv6.TransitionRuns

/-!
# The buffer cache

`binit`, `bget`, `brelse`, `bpin` and `bunpin` of `kernel/bio.c`, for any number of callers.
What a function does while it holds `bcache.lock` is one step; the sleep lock of a buffer is
taken and released outside of these steps. The content of buffers is not part of this model,
and a reference count is a number without bound.
-/

namespace Xv6.BufferCache

open Function LinkedRings

abbrev Buf := Fin nBuf

structure Bcache where
  links : Links Buf
  dev : Buf → BitVec 32
  blockno : Buf → BitVec 32
  valid : Buf → Bool
  refcnt : Buf → ℕ

def binit : Bcache where
  links := (List.finRange nBuf).foldl Links.pushFront ⟨fun _ => none, fun _ => none⟩
  dev := fun _ => 0
  blockno := fun _ => 0
  valid := fun _ => false
  refcnt := fun _ => 0

variable (s : Bcache) (dev blockno : BitVec 32) (b : Buf)

def Bcache.cached : Bool := s.dev b = dev ∧ s.blockno b = blockno

/-- The first loop of `bget`. -/
def Bcache.lookup : Option Buf :=
  scan s.links.next (s.cached dev blockno) nBuf (s.links.next none)

/-- The second loop of `bget`. -/
def Bcache.unused : Option Buf :=
  scan s.links.prev (fun b => s.refcnt b = 0) nBuf (s.links.prev none)

def bpin : Bcache := { s with refcnt := update s.refcnt b (s.refcnt b + 1) }

def bunpin : Bcache := { s with refcnt := update s.refcnt b (s.refcnt b - 1) }

def Bcache.recycle : Bcache :=
  { s with
    dev := update s.dev b dev
    blockno := update s.blockno b blockno
    valid := update s.valid b false
    refcnt := update s.refcnt b 1 }

/-- `bget` up to the sleep lock; it panics if every buffer is in use. -/
def bget : Option (Buf × Bcache) :=
  match s.lookup dev blockno with
  | some b => some (b, bpin s b)
  | none => s.unused.map (fun b => (b, s.recycle dev blockno b))

/-- `brelse` behind the sleep lock. -/
def brelse : Bcache :=
  let s := bunpin s b
  if s.refcnt b = 0 then { s with links := (s.links.unlink b).pushFront b } else s

/-- Where a caller of `bget` is: it waits for the sleep lock, holds it, or has released it in
`brelse`. -/
inductive Phase
  | idle
  | waiting (b : Buf)
  | holding (b : Buf)
  | releasing (b : Buf)
  deriving DecidableEq

def Phase.buf : Phase → Option Buf
  | .idle => none
  | .waiting b => some b
  | .holding b => some b
  | .releasing b => some b

/-- The cache, the sleep locks and the callers. `pins`, `clock` and `released` are ghosts: the
calls of `bpin` that are not undone, the number of steps, and for every buffer the time of
its last release to a reference count of 0, which is 0 if there was none. -/
structure State (κ : Type) where
  cache : Bcache
  lock : Buf → Option κ
  phase : κ → Phase
  pins : Buf → ℕ
  clock : ℕ
  released : Buf → ℕ

inductive Action (κ : Type)
  | bget (k : κ) (dev blockno : BitVec 32)
  | acquiresleep (k : κ)
  | releasesleep (k : κ)
  | brelse (k : κ)
  | bpin (b : Buf)
  | bunpin (b : Buf)

variable {κ : Type} [DecidableEq κ]

def start : State κ where
  cache := binit
  lock := fun _ => none
  phase := fun _ => .idle
  pins := fun _ => 0
  clock := 0
  released := fun _ => 0

/-- What an action does, time apart. The callers of `brelse` have passed its check that they
hold the sleep lock. -/
def act (s : State κ) : Action κ → Option (State κ)
  | .bget k dev blockno =>
    if s.phase k = .idle then
      (bget s.cache dev blockno).map (fun (b, cache) =>
        { s with cache := cache, phase := update s.phase k (.waiting b) })
    else none
  | .acquiresleep k =>
    match s.phase k with
    | .waiting b =>
      if s.lock b = none then
        some { s with
          lock := update s.lock b (some k)
          phase := update s.phase k (.holding b) }
      else none
    | _ => none
  | .releasesleep k =>
    match s.phase k with
    | .holding b =>
      if s.lock b = some k then
        some { s with
          lock := update s.lock b none
          phase := update s.phase k (.releasing b) }
      else none
    | _ => none
  | .brelse k =>
    match s.phase k with
    | .releasing b =>
      some { s with
        cache := brelse s.cache b
        phase := update s.phase k .idle
        released := if (brelse s.cache b).refcnt b = 0 then
          update s.released b (s.clock + 1) else s.released }
    | _ => none
  | .bpin b => some { s with cache := bpin s.cache b, pins := update s.pins b (s.pins b + 1) }
  | .bunpin b =>
    some { s with cache := bunpin s.cache b, pins := update s.pins b (s.pins b - 1) }

def step (s : State κ) (a : Action κ) : Option (State κ) :=
  (act s a).map (fun t => { t with clock := s.clock + 1 })

/-- A call of `bunpin` undoes a call of `bpin`, and its caller holds the buffer. -/
def matched (s : State κ) : Action κ → Prop
  | .bunpin b => 0 < s.pins b ∧ ∃ k, s.phase k = .holding b
  | _ => True

end Xv6.BufferCache
