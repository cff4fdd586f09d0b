import Xv6.Console
import Xv6.FileArrays
import Xv6.PageTables
import Xv6.PipeReads

/-!
# `fileread`

`fileread` of `kernel/file.c` with the three functions it goes through, `piperead`,
`consoleread` and `readi`, and `copyout` of `kernel/vm.c` into the memory of the caller. The
length is an `int` for the first two and becomes a `uint` for the third.

A call that sleeps finds what others have left when it goes on: the wait of a call is an
argument, which gives the pipe or the console at its end, or `none` for a process that was
killed.
-/

namespace Xv6.FileReads

open ByteBlocks FileSystem FreeRunningCounters Function PanicPrograms TransitionRuns
open VirtualMemory (pgSize maxVa pgRoundDown)
open Console (Cons inputBufSize ctrlD newline)
open PipeProtocol (pipeSize exit_run run_cons run_copy_end run_copy_byte run_copy_fault)

/-- The memory of a process, by virtual address. `writable` tells of each page whether its
entry has `PTE_V`, `PTE_U` and `PTE_W`. -/
structure UserMem where
  writable : ℕ → Bool
  byte : ℕ → Byte

def UserMem.store (mem : UserMem) (a : ℕ) (bs : List Byte) : UserMem :=
  { mem with byte := fun x => if a ≤ x then bs[x - a]?.getD (mem.byte x) else mem.byte x }

/-- The loop of `copyout`; `fuel` is at least the number of bytes. -/
def copyoutLoop : ℕ → ℕ → List Byte → UserMem → Bool × UserMem
  | 0, _, _, mem => (true, mem)
  | fuel + 1, dstva, bs, mem =>
    if bs = [] then (true, mem)
    else
      let va0 := pgRoundDown dstva
      if maxVa ≤ va0 ∨ mem.writable (va0 / pgSize) = false then (false, mem)
      else
        let n := min (pgSize - (dstva - va0)) bs.length
        copyoutLoop fuel (va0 + pgSize) (bs.drop n) (mem.store dstva (bs.take n))

def copyout (dstva : ℕ) (bs : List Byte) (mem : UserMem) : Bool × UserMem :=
  copyoutLoop bs.length dstva bs mem

/-- `struct pipe`, as far as `piperead` reads and changes it. -/
structure Pipe where
  data : ℕ → Byte
  nread : BitVec 32
  nwrite : BitVec 32

/-- The second loop of `piperead`, from its `i`-th turn on; `fuel` is at least the number of
turns. -/
def pipereadLoop (addr : BitVec 64) (n : BitVec 32) : ℕ → ℕ → Pipe → UserMem → ℕ × Pipe × UserMem
  | 0, i, pi, mem => (i, pi, mem)
  | fuel + 1, i, pi, mem =>
    if n.toInt ≤ i ∨ pi.nread = pi.nwrite then (i, pi, mem)
    else
      let ch := pi.data (place pipeSize pi.nread)
      let pi := { pi with nread := pi.nread + 1 }
      let x := copyout (addr + BitVec.ofNat 64 i).toNat [ch] mem
      if x.1 = false then (i, pi, x.2) else pipereadLoop addr n fuel (i + 1) pi x.2

def piperead (wait : Pipe → Option Pipe) (addr : BitVec 64) (n : BitVec 32) (pi : Pipe)
    (mem : UserMem) : ℤ × Pipe × UserMem :=
  match wait pi with
  | none => (-1, pi, mem)
  | some pi =>
    let x := pipereadLoop addr n n.toInt.toNat 0 pi mem
    (x.1, x.2)

/-- The loop of `consoleread`. `n` is compared with `target`, which is unsigned; `fuel` is at
least the number of turns. -/
def consolereadLoop (wait : Cons → Option Cons) (target : BitVec 32) :
    ℕ → BitVec 64 → BitVec 32 → Cons → UserMem → ℤ × Cons × UserMem
  | 0, _, n, cons, mem => ((target - n).toInt, cons, mem)
  | fuel + 1, dst, n, cons, mem =>
    if n.toInt ≤ 0 then ((target - n).toInt, cons, mem)
    else
      match wait cons with
      | none => (-1, cons, mem)
      | some cons =>
        let c := cons.buf (place inputBufSize cons.r)
        let next := { cons with r := cons.r + 1 }
        if c = ctrlD then ((target - n).toInt, if n < target then cons else next, mem)
        else
          let x := copyout dst.toNat [c] mem
          if x.1 = false then ((target - n).toInt, next, x.2)
          else if c = newline then ((target - (n - 1)).toInt, next, x.2)
          else consolereadLoop wait target fuel (dst + 1) (n - 1) next x.2

def consoleread (wait : Cons → Option Cons) (dst : BitVec 64) (n : BitVec 32) (cons : Cons)
    (mem : UserMem) : ℤ × Cons × UserMem :=
  consolereadLoop wait n n.toNat dst n cons mem

variable (sb : Superblock)

/-- The loop of `readi` with the memory it copies to: `n` bytes to go, of which the first goes
to `dst`. -/
def readiLoop (i : ℕ) : ℕ → BitVec 64 → ℕ → ℕ → ℕ → UserMem → M (ℤ × UserMem)
  | 0, _, _, _, tot, mem => pure (tot, mem)
  | fuel + 1, dst, off, n, tot, mem =>
    if n = 0 then pure (tot, mem)
    else do
      let addr ← bmap sb i (off / bSize)
      if addr = 0 then pure (tot, mem)
      else
        let s ← get
        let m := min n (bSize - off % bSize)
        let x := copyout dst.toNat (slice (s.data addr) (off % bSize) m) mem
        if x.1 then readiLoop i fuel (dst + BitVec.ofNat 64 m) (off + m) (n - m) (tot + m) x.2
        else pure (-1, x.2)

/-- `readi` with `user_dst = 1`; `off` and `n` are 32-bit. -/
def readi (i : ℕ) (dst : BitVec 64) (off n : ℕ) (mem : UserMem) : M (ℤ × UserMem) := do
  let s ← get
  if (s.body i).size < off ∨ (off + n) % 2 ^ 32 < off then pure (0, mem)
  else
    let n := if (s.body i).size < off + n then (s.body i).size - off else n
    readiLoop sb i n dst off n 0 mem

inductive FdType
  | none
  | pipe
  | inode
  | device
  deriving DecidableEq

structure File where
  type : FdType
  readable : Bool
  ip : ℕ
  off : BitVec 32
  major : ℤ

structure State where
  file : File
  fs : FS
  pipe : Pipe
  cons : Cons
  mem : UserMem

/-- How the waits of a call end. -/
structure Waits where
  pipe : Pipe → Option Pipe
  cons : Cons → Option Cons

/-- `CONSOLE`, the one device that has a `read` in `devsw`. -/
def console : ℤ := 1

def onFS {α : Type} (m : M α) : Program State Panic α :=
  zoom State.fs (fun s fs => { s with fs := fs }) m

/-- `fileread`. `n` is an `int`; for `readi` its bits are those of a `uint`. -/
def fileread (waits : Waits) (addr : BitVec 64) (n : BitVec 32) : Program State Panic ℤ := do
  let s ← get
  if s.file.readable = false then pure (-1)
  else
    match s.file.type with
    | .pipe => do
      let x := piperead waits.pipe addr n s.pipe s.mem
      modify (fun s => { s with pipe := x.2.1, mem := x.2.2 })
      pure x.1
    | .device =>
      if s.file.major < 0 ∨ nDev ≤ s.file.major ∨ s.file.major ≠ console then pure (-1)
      else do
        let x := consoleread waits.cons addr n s.cons s.mem
        modify (fun s => { s with cons := x.2.1, mem := x.2.2 })
        pure x.1
    | .inode => do
      onFS (ilock s.file.ip)
      let x ← onFS (readi sb s.file.ip addr s.file.off.toNat n.toNat s.mem)
      modify (fun s => { s with mem := x.2 })
      if 0 < x.1 then
        modify (fun s => { s with file := { s.file with off := s.file.off + BitVec.ofInt 32 x.1 } })
      else pure ()
      pure x.1
    | .none => throw .fileread

variable {mem mem' mem'' : UserMem} {a b dstva len n k fuel : ℕ} {bs : List Byte}

/-- `mem'` differs from `mem` in the `len` bytes from `a` on at most. -/
structure UserMem.Within (mem mem' : UserMem) (a len : ℕ) : Prop where
  writable : mem'.writable = mem.writable
  byte : ∀ x, mem'.byte x ≠ mem.byte x → a ≤ x ∧ x < a + len

namespace UserMem

theorem Within.refl : Within mem mem a len := ⟨rfl, fun _ h => absurd rfl h⟩

theorem Within.trans (h : Within mem mem' a len) (h' : Within mem' mem'' b k) (hab : a ≤ b)
    (hlen : b + k ≤ a + len) : Within mem mem'' a len := by
  refine ⟨h'.writable.trans h.writable, fun x hx => ?_⟩
  by_cases hsame : mem''.byte x = mem'.byte x
  · rw [hsame] at hx
    exact h.byte x hx
  · have := h'.byte x hsame
    omega

theorem Within.mono (h : Within mem mem' b k) (hab : a ≤ b) (hlen : b + k ≤ a + len) :
    Within mem mem' a len := (Within.refl : Within mem mem a len).trans h hab hlen

theorem within_store (mem : UserMem) (a : ℕ) (bs : List Byte) :
    Within mem (mem.store a bs) a bs.length := by
  refine ⟨rfl, fun x hx => ?_⟩
  simp only [store] at hx
  split at hx
  · rename_i hle
    by_contra hout
    rw [List.getElem?_eq_none (by omega)] at hx
    exact hx rfl
  · exact absurd rfl hx

end UserMem

open UserMem

theorem pgRoundDown_le (a : ℕ) : pgRoundDown a ≤ a := Nat.div_mul_le_self a pgSize

theorem lt_pgRoundDown (a : ℕ) : a < pgRoundDown a + pgSize :=
  Nat.lt_div_mul_add (by decide)

theorem pgRoundDown_add_le (h : pgRoundDown a < maxVa) : pgRoundDown a + pgSize ≤ maxVa := by
  have hmul : maxVa = maxVa / pgSize * pgSize := by decide
  rw [pgRoundDown, hmul, Nat.mul_lt_mul_right (by decide)] at h
  rw [pgRoundDown, hmul, ← Nat.succ_mul]
  exact Nat.mul_le_mul_right pgSize h

@[simp] theorem store_nil (mem : UserMem) (a : ℕ) : mem.store a [] = mem := by
  simp [store]

theorem store_append (mem : UserMem) (a : ℕ) (bs cs : List Byte) :
    (mem.store a bs).store (a + bs.length) cs = mem.store a (bs ++ cs) := by
  simp only [store, UserMem.mk.injEq, true_and]
  funext x
  rcases Nat.lt_or_ge x a with hx | hx
  · rw [if_neg (by omega), if_neg (by omega), if_neg (by omega)]
  obtain ⟨y, rfl⟩ := Nat.exists_eq_add_of_le hx
  rw [if_pos hx, if_pos hx, Nat.add_sub_cancel_left]
  split
  · have hnone : bs[y]? = none := List.getElem?_eq_none (by omega)
    rw [List.getElem?_append_right (by omega), Nat.add_sub_add_left, hnone]
    rfl
  · rw [List.getElem?_append_left (by omega)]

/-- `copyout` of a byte to `a` succeeds. -/
def UserMem.takes (mem : UserMem) (a : ℕ) : Bool :=
  pgRoundDown a < maxVa && mem.writable (pgRoundDown a / pgSize)

/-- `copyout` stops at the first address that cannot be written to. -/
theorem copyoutLoop_stores (hfuel : bs.length ≤ fuel) : ∃ m ≤ bs.length,
    copyoutLoop fuel dstva bs mem = (decide (m = bs.length), mem.store dstva (bs.take m)) ∧
    (∀ i < m, mem.takes (dstva + i) = true) ∧ (m < bs.length → mem.takes (dstva + m) = false) := by
  induction fuel generalizing dstva bs mem with
  | zero =>
    obtain rfl : bs = [] := List.eq_nil_of_length_eq_zero (by omega)
    exact ⟨0, le_rfl, by simp [copyoutLoop], by simp, by simp⟩
  | succ fuel ih =>
    rw [copyoutLoop]
    split
    · rename_i hnil
      subst hnil
      exact ⟨0, le_rfl, by simp, by simp, by simp⟩
    rename_i hne
    have hpos := List.length_pos_of_ne_nil hne
    have hle := pgRoundDown_le dstva
    have hlt := lt_pgRoundDown dstva
    dsimp only
    split
    · rename_i hbad
      refine ⟨0, Nat.zero_le _, by simp [hpos.ne], by simp, fun _ => ?_⟩
      rw [UserMem.takes, Nat.add_zero]
      rcases hbad with hbad | hbad
      · simp [Nat.not_lt.2 hbad]
      · simp [hbad]
    rename_i hok
    generalize hn : min (pgSize - (dstva - pgRoundDown dstva)) bs.length = n
    have hlen : (bs.take n).length = n := by
      rw [List.length_take]
      omega
    have hfirst : ∀ i < n, mem.takes (dstva + i) = true := by
      intro i hi
      have hsame : pgRoundDown (dstva + i) = pgRoundDown dstva := by
        simp only [pgRoundDown, pgSize] at hn ⊢
        omega
      rw [UserMem.takes, hsame]
      simpa using hok
    obtain ⟨m, hm, hloop, htakes, hstop⟩ := @ih (mem.store dstva (bs.take n))
      (pgRoundDown dstva + pgSize) (bs.drop n) (by rw [List.length_drop]; omega)
    rw [List.length_drop] at hm hstop hloop
    have hall : n + m ≤ bs.length := by omega
    rcases Nat.lt_or_ge n bs.length with hmore | hlast
    · have hnext : pgRoundDown dstva + pgSize = dstva + n := by omega
      rw [hnext] at hloop htakes hstop
      refine ⟨n + m, hall, ?_, fun i hi => ?_, fun hlt => ?_⟩
      · have hend : m = bs.length - n ↔ n + m = bs.length := by omega
        rw [hnext, hloop, List.take_add, ← store_append, hlen, decide_eq_decide.2 hend]
      · rcases Nat.lt_or_ge i n with hin | hin
        · exact hfirst i hin
        · have htake := htakes (i - n) (by omega)
          rwa [Nat.add_assoc, Nat.add_sub_cancel' hin] at htake
      · rw [← Nat.add_assoc]
        exact hstop (by omega)
    · obtain rfl : m = 0 := by omega
      have hend : n = bs.length := by omega
      refine ⟨n, hend.le, ?_, hfirst, fun hlt => absurd hend hlt.ne⟩
      rw [hloop, List.take_zero, store_nil]
      simp [hend]

theorem copyout_within (dstva : ℕ) (bs : List Byte) (mem : UserMem) :
    Within mem (copyout dstva bs mem).2 dstva bs.length := by
  obtain ⟨m, hm, hloop, -⟩ := @copyoutLoop_stores mem dstva bs.length bs le_rfl
  rw [copyout, hloop]
  refine (within_store mem dstva (bs.take m)).mono le_rfl ?_
  rw [List.length_take]
  omega

/-- The bytes that are copied lie below `MAXVA`. -/
theorem copyout_le (h : (copyout dstva bs mem).1 = true) (hne : bs ≠ []) :
    dstva + bs.length ≤ maxVa := by
  obtain ⟨m, -, hloop, htakes, -⟩ := @copyoutLoop_stores mem dstva bs.length bs le_rfl
  rw [copyout, hloop, decide_eq_true_iff] at h
  have hpos := List.length_pos_of_ne_nil hne
  have hlast := htakes (bs.length - 1) (by omega)
  rw [UserMem.takes, Bool.and_eq_true_iff, decide_eq_true_iff] at hlast
  have hmax := pgRoundDown_add_le hlast.1
  have hlt := lt_pgRoundDown (dstva + (bs.length - 1))
  omega

theorem toNat_add_of_copyout {dst : BitVec 64} (h : (copyout dst.toNat bs mem).1 = true)
    (hne : bs ≠ []) : (dst + BitVec.ofNat 64 bs.length).toNat = dst.toNat + bs.length := by
  have hle := copyout_le h hne
  have hmax : maxVa < 2 ^ 64 := by decide
  rw [BitVec.toNat_add, BitVec.toNat_ofNat]
  omega

theorem copyout_byte (a : ℕ) (ch : Byte) (mem : UserMem) :
    copyout a [ch] mem = if mem.takes a then (true, mem.store a [ch]) else (false, mem) := by
  obtain ⟨m, hm, hloop, htakes, hstop⟩ := @copyoutLoop_stores mem a 1 [ch] le_rfl
  rw [copyout, List.length_singleton, hloop]
  rw [List.length_singleton] at hm hstop
  rcases Nat.lt_or_ge m 1 with h | h
  · obtain rfl : m = 0 := by omega
    have htake := hstop h
    rw [Nat.add_zero] at htake
    simp [htake]
  · obtain rfl : m = 1 := by omega
    have htake := htakes 0 h
    rw [Nat.add_zero] at htake
    simp [htake]

section Protocol

variable {ι : Type} [DecidableEq ι] {s : PipeProtocol.State ι} {p : ι} {addr : BitVec 64} {n : BitVec 32}

def ring (s : PipeProtocol.State ι) : Pipe := ⟨s.data, s.nread, s.nwrite⟩

/-- The second loop of `piperead` is what a reader of the pipe's protocol does, and the bytes that
are delivered are those that are stored. -/
theorem pipereadLoop_run {dst : ℕ → Bool} {i : ℕ} (hfuel : n.toInt ≤ i + fuel)
    (hp : s.place p = .readCopy ⟨dst, n.toInt, i⟩) (hfreed : s.freed = false)
    (hdst : ∀ j, dst j = mem.takes (addr + BitVec.ofNat 64 j).toNat)
    (haddr : (addr + BitVec.ofNat 64 i).toNat = addr.toNat + i) :
    ∃ k bs t, Run PipeProtocol.step unguarded s (List.replicate k (.run p)) t ∧
      t.place p = .readReturn n.toInt (i + bs.length : ℕ) ∧ t.delivered = s.delivered ++ bs ∧
      (i + bs.length : ℤ) ≤ max n.toInt i ∧
      pipereadLoop addr n fuel i (ring s) mem = (i + bs.length, ring t, mem.store (addr.toNat + i) bs) := by
  induction fuel generalizing s i mem with
  | zero =>
    refine ⟨2, [], _, run_cons hfreed (run_copy_end hp (.inl (by simpa using hfuel)))
      (exit_run (update_self ..) hfreed), update_self .., (List.append_nil _).symm, by simp, ?_⟩
    rw [store_nil]
    rfl
  | succ fuel ih =>
    rw [pipereadLoop]
    by_cases hend : n.toInt ≤ i ∨ (ring s).nread = (ring s).nwrite
    · rw [if_pos hend]
      refine ⟨2, [], _, run_cons hfreed (run_copy_end hp hend) (exit_run (update_self ..) hfreed),
        update_self .., (List.append_nil _).symm, by simp, ?_⟩
      rw [store_nil]
      rfl
    rw [if_neg hend]
    obtain ⟨hi, hsome⟩ := not_or.1 hend
    dsimp only
    rw [copyout_byte, ← hdst]
    cases hok : dst i with
    | false =>
      refine ⟨2, [], _, run_cons hfreed (run_copy_fault hp (by simpa using hi) hsome hok)
        (exit_run (update_self ..) hfreed), update_self .., (List.append_nil _).symm, by simp, ?_⟩
      rw [store_nil]
      rfl
    | true =>
      have hnext : (addr + BitVec.ofNat 64 (i + 1)).toNat = addr.toNat + (i + 1) := by
        have hcopy : (copyout (addr + BitVec.ofNat 64 i).toNat [0] mem).1 = true := by
          rw [copyout_byte, ← hdst, hok]
          rfl
        have hsucc := toNat_add_of_copyout hcopy (List.cons_ne_nil _ _)
        rw [haddr, List.length_singleton, BitVec.add_assoc, ← BitVec.ofNat_add] at hsucc
        exact hsucc
      obtain ⟨k, bs, t, hrun, hret, hdel, hle, hloop⟩ := @ih
        (mem.store (addr.toNat + i) [s.data (place pipeSize s.nread)])
        { s with
          nread := s.nread + 1
          place := update s.place p (.readCopy ⟨dst, n.toInt, i + 1⟩)
          delivered := s.delivered ++ [s.data (place pipeSize s.nread)] } (i + 1)
        (by push_cast; omega) (update_self ..) hfreed hdst hnext
      refine ⟨k + 1, s.data (place pipeSize s.nread) :: bs, t,
        run_cons hfreed (run_copy_byte hp (by simpa using hi) hsome hok) hrun, ?_, ?_, ?_, ?_⟩
      · rw [hret, List.length_cons, Nat.add_right_comm, Nat.add_assoc]
      · rw [hdel, List.append_assoc, List.singleton_append]
      · rw [List.length_cons]
        push_cast at hle ⊢
        omega
      · have hcount : i + (bs.length + 1) = i + 1 + bs.length := by omega
        have hstore := store_append mem (addr.toNat + i) [s.data (place pipeSize s.nread)] bs
        rw [List.length_singleton, Nat.add_assoc, List.singleton_append] at hstore
        rw [hstore] at hloop
        rw [List.length_cons, hcount, haddr]
        exact hloop

end Protocol

theorem piperead_within (wait : Pipe → Option Pipe) (addr : BitVec 64) (n : BitVec 32) (pi : Pipe)
    (mem : UserMem) :
    (piperead wait addr n pi mem).1 ≤ max n.toInt 0 ∧
      Within mem (piperead wait addr n pi mem).2.2 addr.toNat n.toInt.toNat := by
  rw [piperead]
  cases wait pi with
  | none => exact ⟨by dsimp only; omega, .refl⟩
  | some pi =>
    let s : PipeProtocol.State Unit := { PipeProtocol.pipealloc with
      data := pi.data, nread := pi.nread, nwrite := pi.nwrite
      place := fun _ => .readCopy ⟨fun j => mem.takes (addr + BitVec.ofNat 64 j).toNat, n.toInt, 0⟩ }
    have hfuel : n.toInt ≤ (0 : ℕ) + n.toInt.toNat := by omega
    obtain ⟨k, bs, t, -, -, -, hle, hloop⟩ :=
      pipereadLoop_run (s := s) (p := ()) hfuel rfl rfl (fun _ => rfl) (by simp)
    have hpi : ring s = pi := rfl
    rw [hpi, Nat.zero_add, Nat.add_zero] at hloop
    dsimp only
    rw [hloop]
    exact ⟨by simpa using hle, (within_store mem addr.toNat bs).mono le_rfl (by omega)⟩

theorem toInt_sub {target n : BitVec 32} (h : n.toNat ≤ target.toNat) (htarget : target.toNat < 2 ^ 31) :
    (target - n).toInt = target.toNat - n.toNat := by
  have hsub := BitVec.toNat_sub_of_le (x := target) (y := n) h
  rw [BitVec.toInt_eq_toNat_of_lt (by omega), hsub]
  omega

theorem consolereadLoop_within {wait : Cons → Option Cons} {target n : BitVec 32} {dst : BitVec 64}
    {cons : Cons} (h : n.toNat ≤ target.toNat) (htarget : target.toNat < 2 ^ 31) :
    (consolereadLoop wait target fuel dst n cons mem).1 ≤ target.toNat ∧
      Within mem (consolereadLoop wait target fuel dst n cons mem).2.2 dst.toNat n.toNat := by
  induction fuel generalizing dst n cons mem with
  | zero =>
    refine ⟨?_, .refl⟩
    rw [consolereadLoop, toInt_sub h htarget]
    omega
  | succ fuel ih =>
    have hret := toInt_sub h htarget
    have hn : n.toInt = n.toNat := BitVec.toInt_eq_toNat_of_lt (by omega)
    rw [consolereadLoop]
    split
    · exact ⟨by dsimp only; omega, .refl⟩
    rename_i hpos
    have hone : (n - 1).toNat = n.toNat - 1 := by
      rw [BitVec.toNat_sub_of_le (by rw [BitVec.le_def]; simp; omega)]
      rfl
    have hret' := toInt_sub (n := n - 1) (by omega) htarget
    cases wait cons with
    | none => exact ⟨by dsimp only; omega, .refl⟩
    | some cons =>
      dsimp only
      have hcopy := copyout_within dst.toNat [cons.buf (place inputBufSize cons.r)] mem
      rw [List.length_singleton] at hcopy
      have hcopy : Within mem _ dst.toNat n.toNat := hcopy.mono le_rfl (by omega)
      split
      · exact ⟨by dsimp only; omega, .refl⟩
      split
      · exact ⟨by dsimp only; omega, hcopy⟩
      rename_i hok
      split
      · exact ⟨by dsimp only; omega, hcopy⟩
      · have hnext := toNat_add_of_copyout (by simpa using hok) (List.cons_ne_nil _ _)
        rw [List.length_singleton] at hnext
        have hnext : (dst + 1).toNat = dst.toNat + 1 := hnext
        obtain ⟨hle, hrest⟩ := @ih (copyout dst.toNat [cons.buf (place inputBufSize cons.r)] mem).2
          (n - 1) (dst + 1) { cons with r := cons.r + 1 } (by omega)
        exact ⟨hle, hcopy.trans hrest (by omega) (by omega)⟩

theorem consoleread_within (wait : Cons → Option Cons) (dst : BitVec 64) (n : BitVec 32)
    (cons : Cons) (mem : UserMem) : (consoleread wait dst n cons mem).1 ≤ max n.toInt 0 ∧
      Within mem (consoleread wait dst n cons mem).2.2 dst.toNat n.toInt.toNat := by
  rcases lt_or_ge n.toInt 0 with hneg | hpos
  · -- The loop is not entered.
    rw [consoleread]
    cases n.toNat with
    | zero => exact ⟨by simp [consolereadLoop], .refl⟩
    | succ k =>
      rw [consolereadLoop, if_pos hneg.le]
      exact ⟨by simp, .refl⟩
  · have hn : n.toInt = n.toNat := by
      rw [BitVec.toInt_eq_toNat_cond] at hpos ⊢
      split at hpos <;> omega
    have hlt : n.toNat < 2 ^ 31 := by
      have := BitVec.toInt_lt (x := n)
      omega
    have h : (consoleread wait dst n cons mem).1 ≤ n.toNat ∧
        Within mem (consoleread wait dst n cons mem).2.2 dst.toNat n.toNat :=
      consolereadLoop_within le_rfl hlt
    rw [hn]
    exact ⟨h.1.trans (le_max_left _ _), h.2⟩

section Inode

variable {sb : Superblock} {s t : FS} {i off tot : ℕ} {dst : BitVec 64} {E : Panic → Prop}

theorem orAlloc_returns {addr : ℕ} {store : ℕ → M Unit}
    (h : ∀ b t, Ends (store b) t (fun _ _ => True) E) :
    Ends (orAlloc sb addr store) s (fun _ _ => True) E := by
  rw [orAlloc]
  refine ends_ite (fun _ => trivial) (fun _ => ?_)
  rw [ends_bind]
  have halloc : Ends (balloc sb) s (fun _ _ => True) E := by
    simp only [balloc, ends_bind, ends_get]
    cases firstFree s.bitmap sb.size 0 <;> trivial
  refine halloc.imp ?_
  intro b t _
  refine ends_ite (fun _ => ?_) (fun _ => trivial)
  rw [ends_bind]
  exact (h b t).mono (fun _ _ _ => trivial) (fun _ h => h)

theorem bmap_returns {bn : ℕ} (hE : ∀ e, maxFile ≤ bn → E e) :
    Ends (bmap sb i bn) s (fun _ _ => True) E := by
  simp only [bmap, ends_bind, ends_get]
  refine ends_ite (fun _ => orAlloc_returns (fun _ _ => trivial)) (fun hdirect => ?_)
  refine ends_ite (fun _ => ?_) (fun hind => hE _ ?_)
  · rw [ends_bind]
    have hind : Ends (orAlloc sb ((s.body i).addrs nDirect) (fun b =>
        modify (fun s => s.setBody i ((s.body i).setAddr nDirect b)))) s (fun _ _ => True) E :=
      orAlloc_returns (fun _ _ => trivial)
    refine hind.imp ?_
    intro ind t _
    refine ends_ite (fun _ => trivial) (fun _ => ?_)
    simp only [ends_bind, ends_get]
    exact orAlloc_returns (fun _ _ => trivial)
  · rw [maxFile]
    omega

theorem readiLoop_within (hE : ∀ e, maxFile * bSize < off + n → E e) :
    Ends (readiLoop sb i fuel dst off n tot mem) s (fun x _ =>
      x.1 ≤ tot + n ∧ Within mem x.2 dst.toNat n) E := by
  induction fuel generalizing dst off n tot mem s with
  | zero => exact ⟨by dsimp only; omega, .refl⟩
  | succ fuel ih =>
    rw [readiLoop]
    refine ends_ite (fun _ => ⟨by dsimp only; omega, .refl⟩) (fun hn => ?_)
    have hb : 0 < bSize := by decide
    have hmod := Nat.mod_lt off hb
    have hdiv := Nat.div_add_mod off bSize
    refine (bmap_returns (fun e hbn => hE e ?_)).bind ?_
    · have := Nat.mul_le_mul_left bSize hbn
      rw [Nat.mul_comm] at this
      omega
    intro addr t _
    refine ends_ite (fun _ => ⟨by dsimp only; omega, .refl⟩) (fun _ => ?_)
    simp only [ends_bind, ends_get]
    have hcopy := copyout_within dst.toNat
      (slice (t.data addr) (off % bSize) (min n (bSize - off % bSize))) mem
    rw [length_slice] at hcopy
    have hcopy : Within mem _ dst.toNat n := hcopy.mono le_rfl (by omega)
    refine ends_ite (fun hok => ?_) (fun _ => ⟨by dsimp only; omega, hcopy⟩)
    have hne : slice (t.data addr) (off % bSize) (min n (bSize - off % bSize)) ≠ [] := by
      refine List.ne_nil_of_length_pos ?_
      rw [length_slice]
      omega
    have hnext := toNat_add_of_copyout hok hne
    rw [length_slice] at hnext
    refine (ih (fun e hlt => hE e (by omega))).imp ?_
    rintro ⟨r, mem'⟩ u ⟨hle, hrest⟩
    refine ⟨?_, hcopy.trans hrest (by omega) (by omega)⟩
    push_cast at hle
    dsimp only at hle ⊢
    omega

theorem readi_within (hoff : off < 2 ^ 32) (hn : n < 2 ^ 32)
    (hlen : n ≤ len ∨ (s.body i).size ≤ off ∨ 2 ^ 32 ≤ off + n)
    (hE : ∀ e, maxFile * bSize < (s.body i).size → E e) :
    Ends (readi sb i dst off n mem) s (fun x _ => x.1 ≤ len ∧ Within mem x.2 dst.toNat len) E := by
  simp only [readi, ends_bind, ends_get]
  refine ends_ite (fun _ => ⟨by dsimp only; omega, .refl⟩) (fun hpass => ?_)
  have hle : (if (s.body i).size < off + n then (s.body i).size - off else n) ≤ len := by
    split <;> omega
  have hfit : off + (if (s.body i).size < off + n then (s.body i).size - off else n) ≤
      (s.body i).size := by
    split <;> omega
  refine (readiLoop_within (fun e hlt => hE e (by omega))).imp ?_
  rintro ⟨r, mem'⟩ u ⟨hr, hwithin⟩
  refine ⟨?_, hwithin.mono le_rfl (by omega)⟩
  dsimp only at hr ⊢
  omega

end Inode

end Xv6.FileReads
