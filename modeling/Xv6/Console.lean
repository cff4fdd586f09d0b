import Xv6.FreeRunningCounters
import Xv6.TransitionRuns

/-!
# Console input

`consoleintr` and `consoleread` of `kernel/console.c`, for any number of processes. Both
hold `cons.lock`, so what happens between taking the lock and releasing it, or going to
sleep, is one step. A reader is asleep between two of them; it may go on at any time,
since `kill` wakes it as well as `wakeup(&cons.r)`.
-/

namespace Xv6.Console

open FreeRunningCounters Function

abbrev Byte := BitVec 8

def inputBufSize : ℕ := 128

def newline : Byte := 10

def carriageReturn : Byte := 13

/-- `C('D')`: end of file. -/
def ctrlD : Byte := 4

/-- `C('H')`: backspace. -/
def ctrlH : Byte := 8

/-- `C('P')`: print the process list. -/
def ctrlP : Byte := 16

/-- `C('U')`: kill the line. -/
def ctrlU : Byte := 21

def delete : Byte := 127

/-- `cons`, and the bytes that `consputc` has sent to the uart. -/
structure Cons where
  buf : ℕ → Byte
  r : BitVec 32
  w : BitVec 32
  e : BitVec 32
  uart : List Byte

/-- `consputc(BACKSPACE)`: the last character is overwritten with a space. -/
def putBackspace : List Byte := [8, 32, 8]

/-- The characters that are committed and not read. -/
def Cons.pending (s : Cons) : List Byte := window s.buf inputBufSize s.r s.w

/-- The characters of the line being edited. -/
def Cons.editing (s : Cons) : List Byte := window s.buf inputBufSize s.w s.e

def backspace (s : Cons) : Cons := { s with e := s.e - 1, uart := s.uart ++ putBackspace }

/-- The loop of `C('U')`, for at most the given number of turns. -/
def killLine : ℕ → Cons → Cons
  | 0, s => s
  | n + 1, s =>
    if s.e ≠ s.w ∧ s.buf (place inputBufSize (s.e - 1)) ≠ newline then killLine n (backspace s)
    else s

/-- `consoleintr` for a character that goes into the buffer. -/
def store (c : Byte) (s : Cons) : Cons :=
  let s := { s with
    buf := update s.buf (place inputBufSize s.e) c
    e := s.e + 1
    uart := s.uart ++ [c] }
  if c = newline ∨ c = ctrlD ∨ fill s.r s.e = inputBufSize then { s with w := s.e } else s

def consoleintr (c : Byte) (s : Cons) : Cons :=
  if c = ctrlP then s
  else if c = ctrlU then killLine (fill s.w s.e) s
  else if c = ctrlH ∨ c = delete then if s.e ≠ s.w then backspace s else s
  else if c ≠ 0 ∧ fill s.r s.e < inputBufSize then
    store (if c = carriageReturn then newline else c) s
  else s

/-- How a section of `consoleread` ends: asleep with `n` bytes to go, or with a result. -/
inductive Outcome
  | asleep (n : ℕ)
  | returned (ret : ℤ)
  deriving DecidableEq

/-- What a section of `consoleread` does: the state it leaves, what it took from the buffer
(`none` is an end of file, which is not copied out), and how it ends. -/
structure Section where
  cons : Cons
  taken : List (Option Byte)
  outcome : Outcome

/-- The loop of `consoleread`, with `n` of `target` bytes to go. `fault` is the first byte of
the destination that cannot be written. -/
def readLoop (killed : Bool) (target : ℕ) (fault : Option ℕ) : ℕ → Cons → Section
  | 0, s => ⟨s, [], .returned target⟩
  | n + 1, s =>
    if s.r = s.w then ⟨s, [], if killed then .returned (-1) else .asleep (n + 1)⟩
    else
      let c := s.buf (place inputBufSize s.r)
      let s := { s with r := s.r + 1 }
      let done : ℕ := target - (n + 1)
      if c = ctrlD then
        if n + 1 < target then ⟨{ s with r := s.r - 1 }, [], .returned done⟩
        else ⟨s, [none], .returned done⟩
      else if fault = some done then ⟨s, [], .returned done⟩
      else if c = newline then ⟨s, [some c], .returned (done + 1)⟩
      else
        let x := readLoop killed target fault n s
        { x with taken := some c :: x.taken }

/-- A call of `consoleread` in progress. `id` numbers the calls; it is a ghost. -/
structure Read where
  id : ℕ
  target : ℕ
  n : ℕ
  fault : Option ℕ

/-- The console and its readers. `calls`, `committed`, `consumed` and `results` are ghosts:
the number of calls so far, the characters committed, what calls have taken from the
buffer, and their results. -/
structure State (ι : Type) where
  cons : Cons
  reader : ι → Option Read
  calls : ℕ
  committed : List Byte
  consumed : List (ℕ × Option Byte)
  results : List (ℕ × ℤ)

inductive Action (ι : Type)
  | input (c : Byte)
  | read (p : ι) (n : ℤ) (fault : Option ℕ) (killed : Bool)
  | resume (p : ι) (killed : Bool)

variable {ι : Type} [DecidableEq ι]

/-- An interrupt; what it commits lies between the old and the new write index. -/
def State.input (s : State ι) (c : Byte) : State ι :=
  let t := consoleintr c s.cons
  { s with cons := t, committed := s.committed ++ window t.buf inputBufSize s.cons.w t.w }

/-- A section of the call `x` of process `p`. -/
def State.readSection (s : State ι) (p : ι) (x : Read) (killed : Bool) : State ι :=
  let y := readLoop killed x.target x.fault x.n s.cons
  let t := { s with cons := y.cons, consumed := s.consumed ++ y.taken.map (x.id, ·) }
  match y.outcome with
  | .asleep n => { t with reader := update s.reader p (some { x with n := n }) }
  | .returned ret =>
    { t with reader := update s.reader p none, results := s.results ++ [(x.id, ret)] }

def Action.call (s : State ι) : Action ι → Option (ι × Read × Bool)
  | .input _ => none
  | .read p n fault killed =>
    if (s.reader p).isSome then none else some (p, ⟨s.calls, n.toNat, n.toNat, fault⟩, killed)
  | .resume p killed => (s.reader p).map (fun x => (p, x, killed))

def Action.starts : Action ι → Bool
  | .read .. => true
  | _ => false

def step (s : State ι) (a : Action ι) : Option (State ι) :=
  match a with
  | .input c => some (s.input c)
  | a =>
    (a.call s).map (fun (p, x, killed) =>
      { s with calls := if a.starts then s.calls + 1 else s.calls }.readSection p x killed)

/-- Reads whose copies to user memory succeed. -/
def copies (_ : State ι) : Action ι → Prop
  | .read _ _ fault _ => fault = none
  | _ => True

instance (s : State ι) : (a : Action ι) → Decidable (copies s a)
  | .input _ => inferInstanceAs (Decidable True)
  | .read _ _ fault _ => inferInstanceAs (Decidable (fault = none))
  | .resume _ _ => inferInstanceAs (Decidable True)

/-- No input yet and no reader; the indices may be anywhere. -/
structure Started (s : State ι) : Prop where
  w_eq : s.cons.w = s.cons.r
  e_eq : s.cons.e = s.cons.r
  reader : ∀ p, s.reader p = none
  committed : s.committed = []
  consumed : s.consumed = []
  results : s.results = []

end Xv6.Console
