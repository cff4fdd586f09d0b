import Xv6.FreeRunningCounters
import Xv6.TransitionRuns

/-!
# Pipes

`pipewrite`, `piperead` and `pipeclose` of `kernel/pipe.c` on one pipe, for any
number of processes, with `sleep`, `wakeup` and `kill` of `kernel/proc.c`.

The model is finer than the critical sections of `pi->lock`: the lock has a
holder, every turn of a loop is a step of its own, and `kill`, which does not take
`pi->lock`, may come between any two of them. User memory is an argument of the
call: `src` is `none` where `copyin` fails and `dst` is false where `copyout` fails.
-/

namespace Xv6.PipeProtocol

open FreeRunningCounters Function

abbrev Byte := BitVec 8

def pipeSize : ℕ := 512

/-- A call `pipewrite(pi, addr, n)` that has written `i` bytes. `fresh` counts those
since it last took the lock; it is a ghost. -/
structure WriteCall where
  src : ℕ → Option Byte
  n : ℤ
  i : ℕ
  fresh : ℕ

/-- A call `piperead(pi, addr, n)` that has read `i` bytes. -/
structure ReadCall where
  dst : ℕ → Bool
  n : ℤ
  i : ℕ

/-- Where a process is. All places but `idle`, the three that wait for the lock and the
returns hold `pi->lock`. -/
inductive Place
  | idle
  /-- about to `acquire(&pi->lock)`, on entry or in the end of `sleep` -/
  | writeAcquire (c : WriteCall)
  | writeTest (c : WriteCall)
  | writeBody (c : WriteCall)
  | writeExit (c : WriteCall)
  | writeAsleep (c : WriteCall)
  | writeReturn (ret : ℤ)
  | readAcquire (c : ReadCall)
  | readWait (c : ReadCall)
  | readSleep (c : ReadCall)
  | readAsleep (c : ReadCall)
  | readCopy (c : ReadCall)
  | readExit (c : ReadCall)
  | readReturn (n ret : ℤ)

/-- `struct pipe`, the lock's holder and the processes. `accepted` and `delivered`
are the ghost histories of the bytes that went in and out. -/
structure State (ι : Type) where
  data : ℕ → Byte
  nread : BitVec 32
  nwrite : BitVec 32
  readopen : Bool
  writeopen : Bool
  freed : Bool
  lock : Option ι
  killed : ι → Bool
  place : ι → Place
  accepted : List Byte
  delivered : List Byte

inductive Action (ι : Type)
  | callWrite (p : ι) (src : ℕ → Option Byte) (n : ℤ)
  | callRead (p : ι) (dst : ℕ → Bool) (n : ℤ)
  | run (p : ι)
  | close (writable : Bool)
  | kill (p : ι)

variable {ι : Type} [DecidableEq ι]

/-- `pipealloc`: an empty pipe with both ends open, in a page that `kalloc` has filled
with 5. -/
def pipealloc : State ι where
  data := fun _ => 5
  nread := 0
  nwrite := 0
  readopen := true
  writeopen := true
  freed := false
  lock := none
  killed := fun _ => false
  place := fun _ => .idle
  accepted := []
  delivered := []

def State.goto (s : State ι) (p : ι) (x : Place) : State ι :=
  { s with place := update s.place p x }

/-- Leaves the critical section for a place outside of it. -/
def State.release (s : State ι) (p : ι) (x : Place) : State ι :=
  { s with lock := none, place := update s.place p x }

def Place.wakeReader : Place → Place
  | .readAsleep c => .readAcquire c
  | x => x

def Place.wakeWriter : Place → Place
  | .writeAsleep c => .writeAcquire c
  | x => x

def State.wakeupNread (s : State ι) : State ι :=
  { s with place := fun q => (s.place q).wakeReader }

def State.wakeupNwrite (s : State ι) : State ι :=
  { s with place := fun q => (s.place q).wakeWriter }

/-- The turn of the loop of `pipewrite` behind its first test. -/
def writeBody (s : State ι) (p : ι) (c : WriteCall) : State ι :=
  if s.nwrite = s.nread + BitVec.ofNat 32 pipeSize then
    s.wakeupNread.release p (.writeAsleep c)
  else match c.src c.i with
    | none => s.goto p (.writeExit c)
    | some ch =>
      { s with
        data := update s.data (place pipeSize s.nwrite) ch
        nwrite := s.nwrite + 1
        place := update s.place p
          (.writeTest { c with i := c.i + 1, fresh := c.fresh + 1 })
        accepted := s.accepted ++ [ch] }

/-- One turn of the copy loop of `piperead`. When `copyout` fails the byte is gone. -/
def readCopy (s : State ι) (p : ι) (c : ReadCall) : State ι :=
  if c.i < c.n then
    if s.nread = s.nwrite then s.goto p (.readExit c)
    else if c.dst c.i then
      { s with
        nread := s.nread + 1
        place := update s.place p (.readCopy { c with i := c.i + 1 })
        delivered := s.delivered ++ [s.data (place pipeSize s.nread)] }
    else
      { s with
        nread := s.nread + 1
        place := update s.place p (.readExit c) }
  else s.goto p (.readExit c)

def run (s : State ι) (p : ι) : Option (State ι) :=
  match s.place p with
  | .writeAcquire c =>
    if s.lock = none then
      some { s with lock := some p
                    place := update s.place p (.writeTest { c with fresh := 0 }) }
    else none
  | .writeTest c =>
    if c.i < c.n then
      if s.readopen = false ∨ s.killed p = true then some (s.release p (.writeReturn (-1)))
      else some (s.goto p (.writeBody c))
    else some (s.goto p (.writeExit c))
  | .writeBody c => some (writeBody s p c)
  | .writeExit c => some (s.wakeupNread.release p (.writeReturn c.i))
  | .readAcquire c =>
    if s.lock = none then
      some { s with lock := some p, place := update s.place p (.readWait c) }
    else none
  | .readWait c =>
    if s.nread = s.nwrite ∧ s.writeopen = true then
      if s.killed p = true then some (s.release p (.readReturn c.n (-1)))
      else some (s.goto p (.readSleep c))
    else some (s.goto p (.readCopy c))
  | .readSleep c => some (s.release p (.readAsleep c))
  | .readCopy c => some (readCopy s p c)
  | .readExit c => some (s.wakeupNwrite.release p (.readReturn c.n c.i))
  | _ => none

/-- `pipeclose`. The page goes back to the allocator with the second end. -/
def pipeclose (s : State ι) (writable : Bool) : State ι :=
  if writable then { s.wakeupNread with writeopen := false, freed := !s.readopen }
  else { s.wakeupNwrite with readopen := false, freed := !s.writeopen }

/-- `kill`: the flag is set, and a sleeping process is made runnable. -/
def kill (s : State ι) (p : ι) : State ι :=
  { s with
    killed := update s.killed p true
    place := update s.place p (s.place p).wakeReader.wakeWriter }

def step (s : State ι) (a : Action ι) : Option (State ι) :=
  match a with
  | .callWrite p src n => match s.place p with
    | .idle => some (s.goto p (.writeAcquire ⟨src, n, 0, 0⟩))
    | .writeReturn _ => some (s.goto p (.writeAcquire ⟨src, n, 0, 0⟩))
    | .readReturn _ _ => some (s.goto p (.writeAcquire ⟨src, n, 0, 0⟩))
    | _ => none
  | .callRead p dst n => match s.place p with
    | .idle => some (s.goto p (.readAcquire ⟨dst, n, 0⟩))
    | .writeReturn _ => some (s.goto p (.readAcquire ⟨dst, n, 0⟩))
    | .readReturn _ _ => some (s.goto p (.readAcquire ⟨dst, n, 0⟩))
    | _ => none
  | .run p => if s.freed then none else run s p
  | .close writable => if s.freed ∨ s.lock ≠ none then none else some (pipeclose s writable)
  | .kill p => some (kill s p)

/-- Everything a process can do inside a call, with the tests that lead there. -/
inductive Turn (s : State ι) (p : ι) : State ι → Prop
  | writeAcquire (c : WriteCall) (hp : s.place p = .writeAcquire c) (hl : s.lock = none) :
      Turn s p { s with lock := some p
                        place := update s.place p (.writeTest { c with fresh := 0 }) }
  | writeRefused (c : WriteCall) (hp : s.place p = .writeTest c) (hi : c.i < c.n)
      (hr : s.readopen = false ∨ s.killed p = true) : Turn s p (s.release p (.writeReturn (-1)))
  | writeEnter (c : WriteCall) (hp : s.place p = .writeTest c) (hi : c.i < c.n)
      (hr : s.readopen = true) (hk : s.killed p = false) : Turn s p (s.goto p (.writeBody c))
  | writeDone (c : WriteCall) (hp : s.place p = .writeTest c) (hi : ¬ (c.i < c.n)) :
      Turn s p (s.goto p (.writeExit c))
  | writeFull (c : WriteCall) (hp : s.place p = .writeBody c)
      (hfull : s.nwrite = s.nread + BitVec.ofNat 32 pipeSize) :
      Turn s p (s.wakeupNread.release p (.writeAsleep c))
  | writeFault (c : WriteCall) (hp : s.place p = .writeBody c)
      (hroom : s.nwrite ≠ s.nread + BitVec.ofNat 32 pipeSize) (hsrc : c.src c.i = none) :
      Turn s p (s.goto p (.writeExit c))
  | writeByte (c : WriteCall) (ch : Byte) (hp : s.place p = .writeBody c)
      (hroom : s.nwrite ≠ s.nread + BitVec.ofNat 32 pipeSize) (hsrc : c.src c.i = some ch) :
      Turn s p { s with
        data := update s.data (place pipeSize s.nwrite) ch
        nwrite := s.nwrite + 1
        place := update s.place p
          (.writeTest { c with i := c.i + 1, fresh := c.fresh + 1 })
        accepted := s.accepted ++ [ch] }
  | writeExit (c : WriteCall) (hp : s.place p = .writeExit c) :
      Turn s p (s.wakeupNread.release p (.writeReturn c.i))
  | readAcquire (c : ReadCall) (hp : s.place p = .readAcquire c) (hl : s.lock = none) :
      Turn s p { s with lock := some p, place := update s.place p (.readWait c) }
  | readKilled (c : ReadCall) (hp : s.place p = .readWait c) (hempty : s.nread = s.nwrite)
      (hw : s.writeopen = true) (hk : s.killed p = true) :
      Turn s p (s.release p (.readReturn c.n (-1)))
  | readBlock (c : ReadCall) (hp : s.place p = .readWait c) (hempty : s.nread = s.nwrite)
      (hw : s.writeopen = true) (hk : s.killed p = false) : Turn s p (s.goto p (.readSleep c))
  | readReady (c : ReadCall) (hp : s.place p = .readWait c)
      (hready : ¬ (s.nread = s.nwrite ∧ s.writeopen = true)) : Turn s p (s.goto p (.readCopy c))
  | readSleep (c : ReadCall) (hp : s.place p = .readSleep c) :
      Turn s p (s.release p (.readAsleep c))
  | readEmpty (c : ReadCall) (hp : s.place p = .readCopy c) (hi : c.i < c.n)
      (hempty : s.nread = s.nwrite) : Turn s p (s.goto p (.readExit c))
  | readByte (c : ReadCall) (hp : s.place p = .readCopy c) (hi : c.i < c.n)
      (hsome : s.nread ≠ s.nwrite) (hdst : c.dst c.i = true) :
      Turn s p { s with
        nread := s.nread + 1
        place := update s.place p (.readCopy { c with i := c.i + 1 })
        delivered := s.delivered ++ [s.data (place pipeSize s.nread)] }
  | readFault (c : ReadCall) (hp : s.place p = .readCopy c) (hi : c.i < c.n)
      (hsome : s.nread ≠ s.nwrite) (hdst : c.dst c.i = false) :
      Turn s p { s with
        nread := s.nread + 1
        place := update s.place p (.readExit c) }
  | readDone (c : ReadCall) (hp : s.place p = .readCopy c) (hi : ¬ (c.i < c.n)) :
      Turn s p (s.goto p (.readExit c))
  | readExit (c : ReadCall) (hp : s.place p = .readExit c) :
      Turn s p (s.wakeupNwrite.release p (.readReturn c.n c.i))

theorem turn_writeBody (s : State ι) (p : ι) (c : WriteCall) (hp : s.place p = .writeBody c) :
    Turn s p (writeBody s p c) := by
  rw [writeBody]
  split
  · exact .writeFull c hp ‹_›
  · split
    · exact .writeFault c hp ‹_› ‹_›
    · exact .writeByte c _ hp ‹_› ‹_›

theorem turn_readCopy (s : State ι) (p : ι) (c : ReadCall) (hp : s.place p = .readCopy c) :
    Turn s p (readCopy s p c) := by
  rw [readCopy]
  split
  · split
    · exact .readEmpty c hp ‹_› ‹_›
    · split
      · exact .readByte c hp ‹_› ‹_› ‹_›
      · exact .readFault c hp ‹_› ‹_› (Bool.eq_false_iff.mpr ‹_›)
  · exact .readDone c hp ‹_›

theorem turn_of_run {s t : State ι} {p : ι} (h : run s p = some t) : Turn s p t := by
  rw [run] at h
  split at h
  · split at h
    · cases Option.some.inj h
      exact .writeAcquire _ ‹_› ‹_›
    · cases h
  · rename_i c hp
    split at h
    · split at h
      · cases Option.some.inj h
        exact .writeRefused c hp ‹_› ‹_›
      · rename_i hr
        cases Option.some.inj h
        simp only [not_or, Bool.not_eq_false, Bool.not_eq_true] at hr
        exact .writeEnter c hp ‹_› hr.1 hr.2
    · cases Option.some.inj h
      exact .writeDone c hp ‹_›
  · cases Option.some.inj h
    exact turn_writeBody s p _ ‹_›
  · cases Option.some.inj h
    exact .writeExit _ ‹_›
  · split at h
    · cases Option.some.inj h
      exact .readAcquire _ ‹_› ‹_›
    · cases h
  · rename_i c hp
    split at h
    · rename_i hr
      split at h
      · cases Option.some.inj h
        exact .readKilled c hp hr.1 hr.2 ‹_›
      · cases Option.some.inj h
        exact .readBlock c hp hr.1 hr.2 (Bool.eq_false_iff.mpr ‹_›)
    · cases Option.some.inj h
      exact .readReady c hp ‹_›
  · cases Option.some.inj h
    exact .readSleep _ ‹_›
  · cases Option.some.inj h
    exact turn_readCopy s p _ ‹_›
  · cases Option.some.inj h
    exact .readExit _ ‹_›
  · cases h

def Place.holds : Place → Bool
  | .writeTest _ => true
  | .writeBody _ => true
  | .writeExit _ => true
  | .readWait _ => true
  | .readSleep _ => true
  | .readCopy _ => true
  | .readExit _ => true
  | _ => false

@[simp] theorem Place.holds_wakeReader (x : Place) : x.wakeReader.holds = x.holds := by
  cases x <;> rfl

@[simp] theorem Place.holds_wakeWriter (x : Place) : x.wakeWriter.holds = x.holds := by
  cases x <;> rfl

/-- `pi->lock` is held by exactly the process that is inside a critical section. -/
def Mutex (s : State ι) : Prop := ∀ q, (s.place q).holds = true ↔ s.lock = some q

end Xv6.PipeProtocol
