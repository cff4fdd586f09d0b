import Mathlib.Data.BitVec
import Mathlib.Logic.Function.Basic

/-!
# Moving memory

`memmove` of `kernel/string.c` and `memmove` of `user/ulib.c`, over the bytes at 64-bit addresses.
Pointers wrap around like the machine's; a range of bytes lies below the end of the address space.
-/

namespace Xv6.MemoryMoves

open Function

abbrev Addr := BitVec 64

abbrev Memory := Addr → BitVec 8

/-- `while(n-- > 0) *d++ = *s++`, of which `k` turns are left. -/
def copyUp (m : Memory) (d s : Addr) : ℕ → Memory
  | 0 => m
  | k + 1 => copyUp (update m d (m s)) (d + 1) (s + 1) k

/-- `while(n-- > 0) *--d = *--s`, of which `k` turns are left. -/
def copyDown (m : Memory) (d s : Addr) : ℕ → Memory
  | 0 => m
  | k + 1 => copyDown (update m (d - 1) (m (s - 1))) (d - 1) (s - 1) k

/-- The kernel's `memmove`; `n` is a `uint`. -/
def kernelMemmove (m : Memory) (dst src : Addr) (n : BitVec 32) : Memory × Addr :=
  if n = 0 then (m, dst)
  else if src < dst ∧ src + n.zeroExtend 64 > dst then
    (copyDown m (dst + n.zeroExtend 64) (src + n.zeroExtend 64) n.toNat, dst)
  else (copyUp m dst src n.toNat, dst)

/-- The `memmove` of user programs; `n` is an `int`, and below 1 nothing is copied. -/
def userMemmove (m : Memory) (dst src : Addr) (n : BitVec 32) : Memory × Addr :=
  if src > dst then (copyUp m dst src n.toInt.toNat, dst)
  else (copyDown m (dst + n.signExtend 64) (src + n.signExtend 64) n.toInt.toNat, dst)

/-- `m'` has the `n` bytes from `s` on of `m` at `d`, and is `m` elsewhere. -/
structure Moved (m m' : Memory) (d s : Addr) (n : ℕ) : Prop where
  copied : ∀ i < n, m' (d + BitVec.ofNat 64 i) = m (s + BitVec.ofNat 64 i)
  other : ∀ a, (∀ i < n, a ≠ d + BitVec.ofNat 64 i) → m' a = m a

variable {m m' : Memory} {d s : Addr} {n k : ℕ}

theorem Moved.unique {m'' : Memory} (h : Moved m m' d s n) (h' : Moved m m'' d s n) : m' = m'' := by
  funext a
  by_cases ha : ∃ i < n, a = d + BitVec.ofNat 64 i
  · obtain ⟨i, hi, rfl⟩ := ha
    rw [h.copied i hi, h'.copied i hi]
  · have hout : ∀ i < n, a ≠ d + BitVec.ofNat 64 i := fun i hi heq => ha ⟨i, hi, heq⟩
    rw [h.other a hout, h'.other a hout]

theorem add_succ (a : Addr) (i : ℕ) : a + 1 + BitVec.ofNat 64 i = a + BitVec.ofNat 64 (i + 1) := by
  rw [BitVec.add_assoc, BitVec.ofNat_add, BitVec.add_comm 1]
  rfl

theorem add_ne {i j : ℕ} (a : Addr) (hne : i ≠ j) (hi : i < 2 ^ 64) (hj : j < 2 ^ 64) :
    a + BitVec.ofNat 64 i ≠ a + BitVec.ofNat 64 j := by
  intro h
  have hnat := congrArg BitVec.toNat (add_left_cancel h)
  rw [BitVec.toNat_ofNat, BitVec.toNat_ofNat, Nat.mod_eq_of_lt hi, Nat.mod_eq_of_lt hj] at hnat
  exact hne hnat

/-- Upwards, no byte is overwritten before it has been read. -/
theorem copyUp_moved (hk : k ≤ 2 ^ 64)
    (hread : ∀ i j, i < j → j < k → s + BitVec.ofNat 64 j ≠ d + BitVec.ofNat 64 i) :
    Moved m (copyUp m d s k) d s k := by
  induction k generalizing m d s with
  | zero => exact ⟨by simp, fun _ _ => rfl⟩
  | succ k ih =>
    have hrest : Moved (update m d (m s)) (copyUp m d s (k + 1)) (d + 1) (s + 1) k := by
      apply ih (by omega)
      intro i j hij hj
      rw [add_succ, add_succ]
      exact hread (i + 1) (j + 1) (by omega) (by omega)
    constructor
    · intro i hi
      cases i with
      | zero =>
        rw [hrest.other, BitVec.add_zero, BitVec.add_zero, update_self]
        intro j hj
        rw [add_succ]
        exact add_ne d (by omega) (by omega) (by omega)
      | succ i =>
        rw [← add_succ, hrest.copied i (by omega), add_succ, update_of_ne]
        simpa using hread 0 (i + 1) (by omega) hi
    · intro a ha
      rw [hrest.other, update_of_ne]
      · simpa using ha 0 (by omega)
      · intro i hi
        rw [add_succ]
        exact ha (i + 1) (by omega)

theorem copyDown_moved (hk : k ≤ 2 ^ 64)
    (hread : ∀ i j, i < j → j < k → s + BitVec.ofNat 64 i ≠ d + BitVec.ofNat 64 j) :
    Moved m (copyDown m (d + BitVec.ofNat 64 k) (s + BitVec.ofNat 64 k) k) d s k := by
  induction k generalizing m with
  | zero => exact ⟨by simp, fun _ _ => rfl⟩
  | succ k ih =>
    have hpred : ∀ a : Addr, a + BitVec.ofNat 64 (k + 1) - 1 = a + BitVec.ofNat 64 k := by
      intro a
      rw [← add_succ, BitVec.add_assoc, BitVec.add_comm 1, ← BitVec.add_assoc]
      exact BitVec.add_sub_cancel _ _
    rw [copyDown, hpred, hpred]
    have hrest := ih (m := update m (d + BitVec.ofNat 64 k) (m (s + BitVec.ofNat 64 k))) (by omega)
      (fun i j hij hj => hread i j hij (by omega))
    constructor
    · intro i hi
      by_cases hik : i = k
      · subst hik
        rw [hrest.other, update_self]
        exact fun j hj => add_ne d (by omega) (by omega) (by omega)
      · rw [hrest.copied i (by omega), update_of_ne]
        exact hread i k (by omega) (by omega)
    · intro a ha
      rw [hrest.other a (fun i hi => ha i (by omega)), update_of_ne]
      exact ha k (by omega)

theorem up_reads (hs : s.toNat + n ≤ 2 ^ 64)
    (h : d ≤ s ∨ s.toNat + n ≤ d.toNat) (i j : ℕ) (hij : i < j) (hj : j < n) :
    s + BitVec.ofNat 64 j ≠ d + BitVec.ofNat 64 i := by
  bv_omega

theorem down_reads (hd : d.toNat + n ≤ 2 ^ 64) (h : s ≤ d) (i j : ℕ) (hij : i < j) (hj : j < n) :
    s + BitVec.ofNat 64 i ≠ d + BitVec.ofNat 64 j := by
  bv_omega

theorem kernelMemmove_moved {n : BitVec 32} (hs : s.toNat + n.toNat ≤ 2 ^ 64)
    (hd : d.toNat + n.toNat ≤ 2 ^ 64) : Moved m (kernelMemmove m d s n).1 d s n.toNat := by
  have hn : n.toNat ≤ 2 ^ 64 := by omega
  have hext : n.zeroExtend 64 = BitVec.ofNat 64 n.toNat := (BitVec.ofNat_toNat 64 n).symm
  rw [kernelMemmove]
  split
  · rename_i hzero
    subst hzero
    exact ⟨by simp, fun _ _ => rfl⟩
  · split
    · rename_i hlt
      rw [hext]
      exact copyDown_moved hn (down_reads hd (BitVec.le_of_lt hlt.1))
    · rename_i hlt
      apply copyUp_moved hn (up_reads hs ?_)
      -- The sum does not wrap: the source ends before the destination does.
      by_cases hle : d ≤ s
      · exact .inl hle
      · refine .inr ?_
        rw [hext] at hlt
        bv_omega

theorem toNat_toInt {n : BitVec 32} (h : 0 ≤ n.toInt) : n.toInt.toNat = n.toNat := by
  rw [BitVec.toInt_eq_toNat_cond] at h ⊢
  split at h
  · rw [if_pos ‹_›, Int.toNat_natCast]
  · omega

theorem userMemmove_moved {n : BitVec 32} (hs : s.toNat + n.toInt.toNat ≤ 2 ^ 64)
    (hd : d.toNat + n.toInt.toNat ≤ 2 ^ 64) :
    Moved m (userMemmove m d s n).1 d s n.toInt.toNat := by
  have hn : n.toInt.toNat ≤ 2 ^ 64 := by omega
  rw [userMemmove]
  split
  · rename_i hlt
    exact copyUp_moved hn (up_reads hs (.inl (BitVec.le_of_lt hlt)))
  · rename_i hle
    by_cases hneg : n.toInt ≤ 0
    · rw [Int.toNat_of_nonpos hneg]
      exact ⟨by simp, fun _ _ => rfl⟩
    · have hext : n.signExtend 64 = BitVec.ofNat 64 n.toInt.toNat := by
        rw [BitVec.signExtend, ← BitVec.ofInt_natCast, Int.toNat_of_nonneg (by omega)]
      rw [hext]
      exact copyDown_moved hn (down_reads hd (BitVec.not_lt.1 hle))

/-- Whichever way two ranges of the address space overlap, the bytes at `d` are afterwards those that
were at `s`, and no other byte has changed. A `uint` that is an `int` as well gives the same with
both functions. -/
theorem memmove_snapshot (m : Memory) (d s : Addr) (n : BitVec 32) :
    (s.toNat + n.toNat ≤ 2 ^ 64 → d.toNat + n.toNat ≤ 2 ^ 64 →
      Moved m (kernelMemmove m d s n).1 d s n.toNat ∧ (kernelMemmove m d s n).2 = d) ∧
    (s.toNat + n.toInt.toNat ≤ 2 ^ 64 → d.toNat + n.toInt.toNat ≤ 2 ^ 64 →
      Moved m (userMemmove m d s n).1 d s n.toInt.toNat ∧ (userMemmove m d s n).2 = d) ∧
    (0 ≤ n.toInt → s.toNat + n.toNat ≤ 2 ^ 64 → d.toNat + n.toNat ≤ 2 ^ 64 →
      kernelMemmove m d s n = userMemmove m d s n) := by
  have hkernel : (kernelMemmove m d s n).2 = d := by
    rw [kernelMemmove]
    split
    · rfl
    · split <;> rfl
  have huser : (userMemmove m d s n).2 = d := by
    rw [userMemmove]
    split <;> rfl
  refine ⟨fun hs hd => ⟨kernelMemmove_moved hs hd, hkernel⟩,
    fun hs hd => ⟨userMemmove_moved hs hd, huser⟩, fun hn hs hd => ?_⟩
  have hmoved := kernelMemmove_moved (m := m) hs hd
  rw [← toNat_toInt hn] at hs hd hmoved
  exact Prod.ext (hmoved.unique (userMemmove_moved hs hd)) (hkernel.trans huser.symm)

/-- Four bytes two to the right, over themselves. -/
theorem memmove_snapshot_overlap :
    kernelMemmove (BitVec.setWidth 8) 2 0 4 = userMemmove (BitVec.setWidth 8) 2 0 4 ∧
      (kernelMemmove (BitVec.setWidth 8) 2 0 4).1 5 = 3 := by
  obtain ⟨hkernel, -, hagree⟩ := memmove_snapshot (BitVec.setWidth 8) 2 0 4
  exact ⟨hagree (by decide) (by decide) (by decide), (hkernel (by decide) (by decide)).1.copied 3 (by decide)⟩

end Xv6.MemoryMoves
