import Xv6.PrimeSieve
import Xv6.TransitionRuns
import Mathlib.Data.Finset.Insert
import Mathlib.Data.Finset.Prod

/-!
# The pipeline of primes

`user/primes.c` from the `fork` of `main` on, with `N` for 35. Process 0 is `main`; every other one
runs `primes`. A process and a pipe are known by their place in the order in which they were made.
A pipe holds any number of integers, so that more runs are possible than with the pipes of the
kernel, and a line is printed at once.
-/

namespace Xv6.Primes

open Function PrimeSieve TransitionRuns

inductive End
  | read
  | write
  deriving DecidableEq

inductive Pc
  | mainClose (p child : ℕ)
  | feed (i p child : ℕ)
  | mainDone (p child : ℕ)
  /-- a child behind `fork`: `close(p[1])`, and then `primes(p[0])` -/
  | child (p : ℕ)
  | first (p0 : ℕ)
  | giveUp (p0 : ℕ)
  | print (p0 prime : ℕ)
  | pipe (p0 prime : ℕ)
  | fork (p0 prime p : ℕ)
  | closeRead (p0 prime p child : ℕ)
  /-- `read(p0, &n, sizeof(n))`, and the test of `n % prime` -/
  | loop (p0 prime p child : ℕ)
  | write (p0 prime p child n : ℕ)
  | closeWrite (p0 p child : ℕ)
  | closeIn (p0 child : ℕ)
  | wait (child : ℕ)
  | exit
  | exited
  deriving DecidableEq

structure Proc where
  pc : Pc
  fds : Finset (ℕ × End)

structure State where
  procs : List Proc
  pipes : List (List ℕ)
  out : List ℕ

variable {N : ℕ} {s t : State}

def State.isOpen (s : State) (k : ℕ) (e : End) : Bool := s.procs.any (fun q => (k, e) ∈ q.fds)

/-- `read`: it waits if the pipe is empty and can still be written to. The result is `none` at the
end of the file. -/
def State.read (s : State) (k : ℕ) : Option (Option ℕ × List (List ℕ)) :=
  match s.pipes[k]? with
  | some (n :: q) => some (some n, s.pipes.set k q)
  | _ => if s.isOpen k .write then none else some (none, s.pipes)

def State.write (s : State) (k n : ℕ) : List (List ℕ) :=
  if s.isOpen k .read then s.pipes.modify k (· ++ [n]) else s.pipes

def State.goto (s : State) (i : ℕ) (pc : Pc) (fds : Finset (ℕ × End)) : State :=
  { s with procs := s.procs.set i ⟨pc, fds⟩ }

def step (N : ℕ) (s : State) (i : ℕ) : Option State :=
  match s.procs[i]? with
  | none => none
  | some ⟨pc, fds⟩ =>
    match pc with
    | .mainClose p child => some (s.goto i (.feed 2 p child) (fds.erase (p, .read)))
    | .feed k p child =>
      if k ≤ N then some { s.goto i (.feed (k + 1) p child) fds with pipes := s.write p k }
      else some (s.goto i (.mainDone p child) fds)
    | .mainDone p child => some (s.goto i (.wait child) (fds.erase (p, .write)))
    | .child p => some (s.goto i (.first p) (fds.erase (p, .write)))
    | .first p0 =>
      match s.read p0 with
      | none => none
      | some (none, _) => some (s.goto i (.giveUp p0) fds)
      | some (some prime, pipes) => some { s.goto i (.print p0 prime) fds with pipes := pipes }
    | .giveUp p0 => some (s.goto i .exit (fds.erase (p0, .read)))
    | .print p0 prime => some { s.goto i (.pipe p0 prime) fds with out := s.out ++ [prime] }
    | .pipe p0 prime =>
      let p := s.pipes.length
      some { s.goto i (.fork p0 prime p) (insert (p, .read) (insert (p, .write) fds)) with
        pipes := s.pipes ++ [[]] }
    | .fork p0 prime p =>
      let t := s.goto i (.closeRead p0 prime p s.procs.length) fds
      some { t with procs := t.procs ++ [⟨.child p, fds⟩] }
    | .closeRead p0 prime p child => some (s.goto i (.loop p0 prime p child) (fds.erase (p, .read)))
    | .loop p0 prime p child =>
      match s.read p0 with
      | none => none
      | some (none, _) => some (s.goto i (.closeWrite p0 p child) fds)
      | some (some n, pipes) =>
        let pc := if n % prime ≠ 0 then .write p0 prime p child n else .loop p0 prime p child
        some { s.goto i pc fds with pipes := pipes }
    | .write p0 prime p child n => some { s.goto i (.loop p0 prime p child) fds with pipes := s.write p n }
    | .closeWrite p0 p child => some (s.goto i (.closeIn p0 child) (fds.erase (p, .write)))
    | .closeIn p0 child => some (s.goto i (.wait child) (fds.erase (p0, .read)))
    | .wait child =>
      if (s.procs[child]?).map Proc.pc = some .exited then some (s.goto i .exit fds) else none
    | .exit => some (s.goto i .exited ∅)
    | .exited => none

def start : State where
  procs := [⟨.mainClose 0 1, {(0, .read), (0, .write)}⟩, ⟨.child 0, {(0, .read), (0, .write)}⟩]
  pipes := [[]]
  out := []

/-- All that reaches the stage has been read, and all that it passes on has been written. -/
def Done (N i : ℕ) (c w : List ℕ) : Prop := c = stream N i ∧ w = stream N (i + 1)

/-- The last stage has not made its child yet; `j` numbers have been printed. -/
structure Last (N i : ℕ) (procs pipes : ℕ) (out : List ℕ) (k j : ℕ) : Prop where
  last : i + 2 = procs
  pipes : pipes = k
  out : out = heads N j
  ne_nil : ∀ k < j, stream N k ≠ []

/-- What holds of stage `i`, which is process `i + 1`, reads pipe `i` and writes to pipe `i + 1`. It
has read `c` and written `w`. -/
def StageOk (N procs pipes : ℕ) (out : List ℕ) (i : ℕ) (pr : Proc) (c w : List ℕ) : Prop :=
  match pr.pc with
  | .child p => p = i ∧ (i, .read) ∈ pr.fds ∧ c = [] ∧ w = [] ∧ Last N i procs pipes out (i + 1) i
  | .first p0 => p0 = i ∧ (i, .read) ∈ pr.fds ∧ c = [] ∧ w = [] ∧ Last N i procs pipes out (i + 1) i
  | .giveUp _ => c = [] ∧ Done N i c w ∧ Last N i procs pipes out (i + 1) i
  | .print p0 prime =>
    p0 = i ∧ (i, .read) ∈ pr.fds ∧ c = [prime] ∧ w = [] ∧ Last N i procs pipes out (i + 1) i
  | .pipe p0 prime =>
    p0 = i ∧ (i, .read) ∈ pr.fds ∧ c = [prime] ∧ w = [] ∧ Last N i procs pipes out (i + 1) (i + 1)
  | .fork p0 prime p =>
    p0 = i ∧ p = i + 1 ∧ (i, .read) ∈ pr.fds ∧ (i + 1, .read) ∈ pr.fds ∧ (i + 1, .write) ∈ pr.fds ∧
      c = [prime] ∧ w = [] ∧ Last N i procs pipes out (i + 2) (i + 1)
  | .closeRead p0 prime p _ | .loop p0 prime p _ =>
    p0 = i ∧ p = i + 1 ∧ (i, .read) ∈ pr.fds ∧ (i + 1, .write) ∈ pr.fds ∧ i + 2 < procs ∧
      ∃ cs, c = prime :: cs ∧ w = cs.filter (fun n => n % prime ≠ 0)
  | .write p0 prime p _ n =>
    p0 = i ∧ p = i + 1 ∧ (i, .read) ∈ pr.fds ∧ (i + 1, .write) ∈ pr.fds ∧ i + 2 < procs ∧ n % prime ≠ 0 ∧
      ∃ cs, c = prime :: (cs ++ [n]) ∧ w = cs.filter (fun n => n % prime ≠ 0)
  | .closeWrite .. | .closeIn .. | .wait _ => Done N i c w ∧ i + 2 < procs
  | .exit | .exited => Done N i c w ∧ (i + 2 = procs → c = [] ∧ Last N i procs pipes out (i + 1) i)
  | .mainClose .. | .feed .. | .mainDone .. => False

def MainOk (N : ℕ) (pr : Proc) (w : List ℕ) : Prop :=
  match pr.pc with
  | .mainClose p _ => p = 0 ∧ (0, .write) ∈ pr.fds ∧ w = []
  | .feed k p _ => p = 0 ∧ (0, .write) ∈ pr.fds ∧ 2 ≤ k ∧ k ≤ N + 1 ∧ w = List.range' 2 (k - 2)
  | .mainDone .. | .wait _ | .exit | .exited => w = stream N 0
  | _ => False

/-- `C k` has been read from pipe `k`, and `W k` has been written to it. -/
structure Inv (N : ℕ) (C W : ℕ → List ℕ) (s : State) : Prop where
  queue : ∀ k, W k = C k ++ (s.pipes[k]?).getD []
  sent : ∀ k, W k <+: stream N k
  main : ∃ pr, s.procs[0]? = some pr ∧ MainOk N pr (W 0)
  stage : ∀ i pr, s.procs[i + 1]? = some pr → StageOk N s.procs.length s.pipes.length s.out i pr (C i) (W (i + 1))
  two : 2 ≤ s.procs.length
  pipes : s.procs.length ≤ s.pipes.length + 1
  fresh : ∀ k, s.pipes.length ≤ k → C k = []

section Facts

variable {C W : ℕ → List ℕ} {i : ℕ}

theorem StageOk.older {procs pipes procs' pipes' : ℕ} {out out' c w : List ℕ} {pr : Proc}
    (h : StageOk N procs pipes out i pr c w) (hi : i + 2 < procs) (hle : procs ≤ procs') :
    StageOk N procs' pipes' out' i pr c w := by
  obtain ⟨pc, fds⟩ := pr
  cases pc with
  | child | first | print | pipe => exact absurd h.2.2.2.2.last hi.ne
  | giveUp => exact absurd h.2.2.last hi.ne
  | fork => exact absurd h.2.2.2.2.2.2.2.last hi.ne
  | closeRead | loop | write => exact ⟨h.1, h.2.1, h.2.2.1, h.2.2.2.1, hi.trans_le hle, h.2.2.2.2.2⟩
  | closeWrite | closeIn | wait => exact ⟨h.1, hi.trans_le hle⟩
  | exit | exited => exact ⟨h.1, fun heq => by omega⟩
  | mainClose | feed | mainDone => exact h.elim

/-- A pipe that nobody can write to any more has got all its numbers. -/
theorem Inv.closed (h : Inv N C W s) (hi : i + 1 < s.procs.length) (hclosed : s.isOpen i .write = false) :
    W i = stream N i := by
  have hnone : ∀ pr ∈ s.procs, (i, End.write) ∉ pr.fds := by
    intro pr hpr hmem
    rw [State.isOpen, List.any_eq_false] at hclosed
    exact hclosed pr hpr (decide_eq_true hmem)
  cases i with
  | zero =>
    obtain ⟨⟨pc, fds⟩, hpr, hmain⟩ := h.main
    have hfds := hnone _ (List.mem_of_getElem? hpr)
    cases pc with
    | mainClose | feed => exact absurd hmain.2.1 hfds
    | mainDone | wait | exit | exited => exact hmain
    | _ => exact hmain.elim
  | succ i =>
    obtain ⟨⟨pc, fds⟩, hpr⟩ : ∃ pr, s.procs[i + 1]? = some pr := ⟨_, List.getElem?_eq_getElem (by omega)⟩
    have hok := h.stage i _ hpr
    have hfds := hnone _ (List.mem_of_getElem? hpr)
    cases pc with
    | child | first | print | pipe => exact absurd hok.2.2.2.2.last (by omega)
    | giveUp => exact absurd hok.2.2.last (by omega)
    | fork => exact absurd hok.2.2.2.2.2.2.2.last (by omega)
    | closeRead | loop | write => exact absurd hok.2.2.2.1 hfds
    | closeWrite | closeIn | wait | exit | exited => exact hok.1.2
    | mainClose | feed | mainDone => exact hok.elim

theorem Inv.complete (h : Inv N C W s) (hC : C i = stream N i) : W i = stream N i ∧ (s.pipes[i]?).getD [] = [] := by
  have hqueue := h.queue i
  obtain ⟨rest, hrest⟩ := h.sent i
  rw [hqueue, hC, List.append_assoc] at hrest
  obtain ⟨hq, -⟩ := List.append_eq_nil_iff.1 (List.append_right_eq_self.1 hrest)
  rw [hq, List.append_nil] at hqueue
  exact ⟨hqueue.trans hC, hq⟩

theorem Inv.reader (h : Inv N C W s) (hi : i + 1 < s.procs.length) (hW : W i ≠ stream N i) :
    s.isOpen i .read = true := by
  obtain ⟨⟨pc, fds⟩, hpr⟩ : ∃ pr, s.procs[i + 1]? = some pr := ⟨_, List.getElem?_eq_getElem hi⟩
  have hok := h.stage i _ hpr
  have hopen : (i, End.read) ∈ fds → s.isOpen i .read = true := by
    intro hmem
    rw [State.isOpen, List.any_eq_true]
    exact ⟨_, List.mem_of_getElem? hpr, decide_eq_true hmem⟩
  cases pc with
  | child | first | print | pipe => exact hopen hok.2.1
  | fork | closeRead | loop | write => exact hopen hok.2.2.1
  | giveUp => exact absurd (h.complete hok.2.1.1).1 hW
  | closeWrite | closeIn | wait | exit | exited => exact absurd (h.complete hok.1.1).1 hW
  | mainClose | feed | mainDone => exact hok.elim

theorem Inv.update {C' W' : ℕ → List ℕ} {pr : Proc} {pipes : List (List ℕ)} (h : Inv N C W s)
    (hi : i + 1 < s.procs.length) (hC : ∀ k ≠ i, C' k = C k) (hW : ∀ k ≠ i + 1, W' k = W k)
    (hqueue : ∀ k, W' k = C' k ++ (pipes[k]?).getD []) (hsent : ∀ k, W' k <+: stream N k)
    (hlen : pipes.length = s.pipes.length)
    (hok : StageOk N s.procs.length s.pipes.length s.out i pr (C' i) (W' (i + 1))) :
    Inv N C' W' { s with procs := s.procs.set (i + 1) pr, pipes := pipes } where
  queue := hqueue
  sent := hsent
  main := by
    obtain ⟨pr₀, hpr₀, hmain⟩ := h.main
    refine ⟨pr₀, ?_, ?_⟩
    · rw [List.getElem?_set_ne (Nat.succ_ne_zero i)]
      exact hpr₀
    · rw [hW 0 (Nat.succ_ne_zero i).symm]
      exact hmain
  stage := by
    intro j pr' hpr'
    rw [List.length_set, hlen]
    by_cases hj : j = i
    · subst hj
      rw [List.getElem?_set_self hi] at hpr'
      cases hpr'
      exact hok
    · rw [List.getElem?_set_ne (by omega)] at hpr'
      rw [hC j hj, hW (j + 1) (by omega)]
      exact h.stage j pr' hpr'
  two := by
    rw [List.length_set]
    exact h.two
  pipes := by
    rw [List.length_set, hlen]
    exact h.pipes
  fresh := by
    intro k hk
    change pipes.length ≤ k at hk
    have := h.pipes
    rw [hC k (by omega)]
    exact h.fresh k (by omega)

theorem Inv.goto {pc : Pc} {fds : Finset (ℕ × End)} (h : Inv N C W s) (hi : i + 1 < s.procs.length)
    (hok : StageOk N s.procs.length s.pipes.length s.out i ⟨pc, fds⟩ (C i) (W (i + 1))) :
    Inv N C W (s.goto (i + 1) pc fds) :=
  h.update hi (fun _ _ => rfl) (fun _ _ => rfl) h.queue h.sent rfl hok

theorem Inv.read {pc : Pc} {fds : Finset (ℕ × End)} {n : ℕ} {pipes : List (List ℕ)} (h : Inv N C W s)
    (hi : i + 1 < s.procs.length) (hread : s.read i = some (some n, pipes))
    (hok : StageOk N s.procs.length s.pipes.length s.out i ⟨pc, fds⟩ (C i ++ [n]) (W (i + 1))) :
    Inv N (Function.update C i (C i ++ [n])) W { s.goto (i + 1) pc fds with pipes := pipes } := by
  obtain ⟨q, hq, rfl⟩ : ∃ q, s.pipes[i]? = some (n :: q) ∧ pipes = s.pipes.set i q := by
    rw [State.read] at hread
    split at hread
    · rename_i m q hq
      cases hread
      exact ⟨q, hq, rfl⟩
    · split at hread <;> cases hread
  refine h.update hi (fun k hk => Function.update_of_ne hk _ _) (fun _ _ => rfl) ?_ h.sent List.length_set ?_
  · intro k
    by_cases hk : k = i
    · subst hk
      rw [Function.update_self, List.getElem?_set_self (List.getElem?_eq_some_iff.1 hq).1, h.queue k, hq]
      simp only [Option.getD_some, List.append_assoc, List.singleton_append]
    · rw [Function.update_of_ne hk, List.getElem?_set_ne (Ne.symm hk)]
      exact h.queue k
  · rw [Function.update_self]
    exact hok

theorem Inv.eof {pipes : List (List ℕ)} (h : Inv N C W s) (hi : i + 1 < s.procs.length)
    (hread : s.read i = some (none, pipes)) : C i = stream N i := by
  rw [State.read] at hread
  split at hread
  · cases hread
  · rename_i hempty
    split at hread
    · cases hread
    · rename_i hclosed
      have hq : (s.pipes[i]?).getD [] = [] := by
        rcases hpipe : s.pipes[i]? with _ | _ | ⟨n, q⟩
        · rfl
        · rfl
        · exact absurd hpipe (hempty n q)
      have hqueue := h.queue i
      rw [hq, List.append_nil, h.closed hi (Bool.eq_false_iff.2 hclosed)] at hqueue
      exact hqueue.symm

theorem Inv.written {n k : ℕ} (h : Inv N C W s) (hk : k + 1 < s.procs.length) (hn : W k ++ [n] <+: stream N k) :
    (s.write k n).length = s.pipes.length ∧
    ∀ j, Function.update W k (W k ++ [n]) j = C j ++ ((s.write k n)[j]?).getD [] := by
  have hW : W k ≠ stream N k := by
    intro heq
    rw [heq] at hn
    have := hn.length_le
    rw [List.length_append, List.length_singleton] at this
    omega
  have hpipes := h.pipes
  obtain ⟨q, hq⟩ : ∃ q, s.pipes[k]? = some q := ⟨_, List.getElem?_eq_getElem (by omega)⟩
  rw [State.write, if_pos (h.reader hk hW)]
  refine ⟨List.length_modify .., fun j => ?_⟩
  rw [List.getElem?_modify]
  by_cases hj : j = k
  · subst hj
    rw [Function.update_self, h.queue j, hq]
    simp
  · rw [Function.update_of_ne hj, h.queue j]
    simp [Ne.symm hj]

theorem Inv.write {pc : Pc} {fds : Finset (ℕ × End)} {n : ℕ} (h : Inv N C W s) (hi : i + 2 < s.procs.length)
    (hn : W (i + 1) ++ [n] <+: stream N (i + 1))
    (hok : StageOk N s.procs.length s.pipes.length s.out i ⟨pc, fds⟩ (C i) (W (i + 1) ++ [n])) :
    Inv N C (Function.update W (i + 1) (W (i + 1) ++ [n]))
      { s.goto (i + 1) pc fds with pipes := s.write (i + 1) n } := by
  obtain ⟨hlen, hqueue⟩ := h.written hi hn
  refine h.update (by omega) (fun _ _ => rfl) (fun k hk => Function.update_of_ne hk _ _) hqueue ?_ hlen ?_
  · intro k
    by_cases hk : k = i + 1
    · rw [hk, Function.update_self]
      exact hn
    · rw [Function.update_of_ne hk]
      exact h.sent k
  · rw [Function.update_self]
    exact hok

end Facts

end Xv6.Primes
