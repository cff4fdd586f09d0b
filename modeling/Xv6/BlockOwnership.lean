import Xv6.SyscallWalks

/-!
# Block ownership over runs of system calls

From a started kernel on a disk where every data block is free or at one place of one
inode, the same holds after any calls of any processes, whether or not they find room on
the disk and whether or not they can copy from their memory.
-/

namespace Xv6.FileSystem

open ByteBlocks Function PanicPrograms SlotOwnership TransitionRuns

/-- The block number at a place of an allocated inode, on the disk. -/
def FS.diskSlot (sb : Superblock) (s : FS) (x : ℕ × ℕ) : ℕ :=
  if x.1 < sb.ninodes ∧ (s.dinode x.1).type ≠ .none then place s.data (s.dinode x.1) x.2 else 0

/-- A data block is marked in the bitmap exactly when it is at one place, no block is at two
places, and a place holds 0 or a data block. -/
structure BlockOwnership (sb : Superblock) (s : FS) : Prop where
  marked : ∀ b, sb.dataStart ≤ b → b < sb.size → (s.bitmap b = true ↔ ∃! x, s.diskSlot sb x = b)
  once : ∀ x y, s.diskSlot sb x ≠ 0 → s.diskSlot sb x = s.diskSlot sb y → x = y
  range : ∀ x, s.diskSlot sb x ≠ 0 → sb.dataStart ≤ s.diskSlot sb x ∧ s.diskSlot sb x < sb.size

/-- What a disk must satisfy beyond block ownership: the blocks below the data are marked, a
directory has a block for every byte below its size, and it names inodes that exist. -/
structure Intact (sb : Superblock) (s : FS) : Prop where
  reserved : ∀ b < sb.dataStart, s.bitmap b = true
  filled : ∀ i < sb.ninodes, (s.dinode i).type = .dir →
    ∀ p < (s.dinode i).size, byteAt s.data (s.dinode i) p ≠ none
  named : ∀ i < sb.ninodes, ∀ e ∈ entries s.data (s.dinode i), e.inum < sb.ninodes

variable {ι : Type} [Fintype ι]

/-- A kernel that has started: processes have current directories and no open files, and no
inode has been read. -/
structure Booted (sb : Superblock) (s : Sys ι) : Prop where
  ref_eq : ∀ i, (s.fs.inode i).ref = s.refs.count i
  invalid : ∀ i, (s.fs.inode i).valid = false
  cwd_lt : ∀ p, s.cwd p < sb.ninodes
  file : ∀ f, (s.file f).ref = 0 ∧ (s.file f).type = .none
  ofile : ∀ p fd, s.ofile p fd = none

variable {sb : Superblock} {s t : Sys ι} {fs : FS} {T : Multiset ℕ}

theorem blockOwnership_iff (hpos : 0 < sb.dataStart) :
    BlockOwnership sb fs ↔ Owned sb.dataStart sb.size fs.bitmap (fs.diskSlot sb) := by
  constructor
  · intro h
    refine ⟨h.range, h.once, fun b hlo hhi => (h.marked b hlo hhi).trans ⟨ExistsUnique.exists, ?_⟩⟩
    rintro ⟨x, rfl⟩
    exact ⟨x, rfl, fun y hy => h.once y x (by omega) hy⟩
  · intro h
    refine ⟨fun b hlo hhi => (h.marked b hlo hhi).trans ⟨?_, ExistsUnique.exists⟩, h.inj, h.range⟩
    rintro ⟨x, rfl⟩
    exact ⟨x, rfl, fun y hy => h.inj y x (by omega) hy⟩

/-- Between calls the table agrees with the disk. -/
theorem Sound.diskSlot_eq (h : Sound sb T fs) : fs.diskSlot sb = fs.slot sb := by
  funext x
  rw [FS.diskSlot, FS.slot, h.current_eq]

theorem Booted.current_eq (h : Booted sb s) (i : ℕ) : s.fs.current i = s.fs.dinode i := by
  refine FS.current_of_not_live (fun hl => ?_)
  rw [FS.live, h.invalid] at hl
  cases hl.2

theorem Booted.mem_refs (h : Booted sb s) {i : ℕ} (hi : i ∈ s.refs) : ∃ p, i = s.cwd p := by
  have hheld : ∀ f, (s.file f).held = 0 := fun f => if_pos (h.file f).2
  simp only [Sys.refs, hheld, Finset.sum_const_zero, add_zero, Multiset.mem_sum] at hi
  obtain ⟨p, -, hp⟩ := hi
  exact ⟨p, Multiset.mem_singleton.1 hp⟩

theorem Booted.consistent (h : Booted sb s) (hsane : Superblock.Sane sb) (hdisk : BlockOwnership sb s.fs)
    (hintact : Intact sb s.fs) : Consistent sb s := by
  have hnot : ∀ i, ¬ s.fs.live i := fun i hl => by
    rw [FS.live, h.invalid] at hl
    cases hl.2
  have hslot : s.fs.slot sb = s.fs.diskSlot sb := by
    funext x
    rw [FS.diskSlot, FS.slot, h.current_eq]
  refine ⟨⟨⟨hsane, ?_, hintact.reserved⟩, ?_, ?_, h.ref_eq, ?_, fun i hl => absurd hl (hnot i),
    fun i hl => absurd hl (hnot i)⟩, fun f _ => (h.file f).2, fun f _ htype => absurd (h.file f).2 htype,
    fun f _ htype => absurd (h.file f).2 htype, fun p fd f hf => ?_⟩
  · rw [hslot]
    exact (blockOwnership_iff hsane.dataStart_pos).1 hdisk
  · intro i hi
    rw [h.current_eq]
    exact hintact.filled i hi
  · intro i e he
    by_cases hi : i < sb.ninodes
    · rw [FS.view_eq hi, nodeOf, h.current_eq] at he
      split at he
      · cases he
      · exact hintact.named i hi e he
    · rw [FS.view, if_neg hi] at he
      cases he
  · intro i hi
    obtain ⟨p, rfl⟩ := h.mem_refs hi
    exact h.cwd_lt p
  · rw [h.ofile] at hf
    cases hf

variable [DecidableEq ι]

theorem blockOwnership_run {as : List (ι × Call)} (hsane : Superblock.Sane sb) (hdisk : BlockOwnership sb s.fs)
    (hintact : Intact sb s.fs) (hboot : Booted sb s) (hrun : Run (step sb) unguarded s as t) :
    BlockOwnership sb t.fs ∧ ∀ p c, syscall sb p c t ≠ .error .freeingFreeBlock := by
  have ht := (hboot.consistent hsane hdisk hintact).run hrun
  refine ⟨?_, fun p c hpanic => ?_⟩
  · rw [blockOwnership_iff hsane.dataStart_pos, ht.sound.diskSlot_eq]
    exact ht.sound.blocks.owned
  · obtain ⟨u, -, hcause⟩ := Ends.of_error (syscall_runs ht) hpanic
    rcases hcause with hcause | ⟨hcause, -⟩ | hcause | hcause
    · exact hcause
    · cases hcause
    · cases hcause
    · cases hcause

theorem diskSlot_eq_zero {i k : ℕ} (h : sb.ninodes ≤ i ∨ nDirect + nIndirect < k) :
    fs.diskSlot sb (i, k) = 0 := by
  rw [FS.diskSlot]
  split
  · rename_i hi
    have hk : nDirect + nIndirect < k := by
      have := hi.1
      dsimp only at this
      omega
    have hlt : ¬ (k - (nDirect + 1) < nIndirect) := by omega
    rw [place, if_neg (by omega), if_neg (fun hc => hlt hc.1)]
  · rfl

section SmallDisk

/-- Forty blocks, the last ten of them for data, and eight inodes. -/
def smallSb : Superblock :=
  { size := 40, nblocks := 10, ninodes := 8, nlog := 3, logstart := 2, inodestart := 5, bmapstart := 6 }

def smallDir (b size : ℕ) (nlink : ℤ) : Dinode :=
  { newDinode .dir with nlink := nlink, size := size, addrs := fun k => if k = 0 then b else 0 }

/-- A disk with the root directory, in block 30, and the directory `d`, in block 31, and one
process in the root directory. -/
def smallSys (bitmap : ℕ → Bool) (size : ℕ) : Sys (Fin 1) where
  fs :=
    { bitmap := bitmap
      dinode := fun i =>
        if i = rootIno then smallDir 30 48 2 else if i = 2 then smallDir 31 size 1 else newDinode .none
      data := fun b =>
        if b = 30 then splice zeros 0
          (encodeDirent 1 dot ++ encodeDirent 1 dotdot ++ encodeDirent 2 [100])
        else if b = 31 then splice zeros 0 (encodeDirent 2 dot ++ encodeDirent 1 dotdot)
        else zeros
      inode := fun i =>
        { ref := if i = rootIno then 1 else 0, valid := false, body := newDinode .none }
      active := 1
      logged := [] }
  file := fun _ => ⟨0, .none, false, 0⟩
  cwd := fun _ => rootIno
  ofile := fun _ _ => none

theorem smallSb_sane : Superblock.Sane smallSb := ⟨by decide, by decide, by decide⟩

theorem place_smallDir {data : ℕ → Block} {b size k : ℕ} {nlink : ℤ} :
    place data (smallDir b size nlink) k = if k = 0 then b else 0 := by
  have hind : (smallDir b size nlink).addrs nDirect = 0 := rfl
  rw [place, hind]
  split
  · rfl
  · simp [show k ≠ 0 by omega]

theorem diskSlot_smallSys (bitmap : ℕ → Bool) (size : ℕ) (x : ℕ × ℕ) :
    (smallSys bitmap size).fs.diskSlot smallSb x =
      if x = (1, 0) then 30 else if x = (2, 0) then 31 else 0 := by
  obtain ⟨i, k⟩ := x
  simp only [FS.diskSlot, smallSys, rootIno, Prod.mk.injEq]
  by_cases h1 : i = 1
  · subst h1
    simp only [if_true, place_smallDir]
    simp [smallSb, smallDir, newDinode]
  · by_cases h2 : i = 2
    · subst h2
      simp only [if_true, if_neg h1, place_smallDir]
      simp [smallSb, smallDir, newDinode]
    · simp [h1, h2, newDinode]

theorem smallSys_ownership {bitmap : ℕ → Bool} (size : ℕ)
    (h : ∀ b, 30 ≤ b → b < 40 → (bitmap b = true ↔ b < 32)) :
    BlockOwnership smallSb (smallSys bitmap size).fs := by
  rw [blockOwnership_iff (by decide)]
  refine ⟨fun x => ?_, fun x y => ?_, fun b hlo hhi => (h b hlo hhi).trans ⟨fun hb => ?_, ?_⟩⟩
  · rw [diskSlot_smallSys]
    split
    · exact fun _ => by decide
    · split
      · exact fun _ => by decide
      · exact fun h0 => absurd rfl h0
  · simp only [diskSlot_smallSys]
    intro hx heq
    split_ifs at hx heq with h1 h2 h3 h4 <;> simp_all
  · have hlo' : 30 ≤ b := hlo
    obtain rfl | rfl : b = 30 ∨ b = 31 := by omega
    · exact ⟨(1, 0), diskSlot_smallSys _ _ _⟩
    · exact ⟨(2, 0), diskSlot_smallSys _ _ _⟩
  · rintro ⟨x, rfl⟩
    rw [diskSlot_smallSys]
    split
    · decide
    · split <;> decide

theorem smallSys_booted (bitmap : ℕ → Bool) (size : ℕ) : Booted smallSb (smallSys bitmap size) := by
  refine ⟨fun i => ?_, fun _ => rfl, fun _ => show rootIno < 8 by decide, fun _ => ⟨rfl, rfl⟩,
    fun _ _ => rfl⟩
  simp [smallSys, Sys.refs, File.held, Multiset.count_singleton]

theorem smallSys_intact : Intact smallSb (smallSys (· < 32) 32).fs := by
  have hbyte : ∀ {data : ℕ → Block} {b size p : ℕ} {nlink : ℤ}, b ≠ 0 → p < bSize →
      byteAt data (smallDir b size nlink) p ≠ none := by
    intro data b size p nlink hb hp
    have hplace : place data (smallDir b size nlink) (contentPlace (p / bSize)) = b := by
      rw [Nat.div_eq_of_lt hp, place_smallDir]
      rfl
    rw [byteAt, hplace, if_neg hb]
    simp
  refine ⟨fun b hb => ?_, fun i hi htype p hp => ?_, by decide +kernel⟩
  · have hb' : b < 30 := hb
    simpa [smallSys] using by omega
  · simp only [smallSys] at htype hp ⊢
    split at htype
    · rename_i h1
      rw [if_pos h1] at hp ⊢
      exact hbyte (by decide) (lt_trans hp (by decide))
    · rename_i h1
      rw [if_neg h1] at hp ⊢
      split at htype
      · rename_i h2
        rw [if_pos h2] at hp ⊢
        exact hbyte (by decide) (lt_trans hp (by decide))
      · cases htype

theorem smallSys_consistent : Consistent smallSb (smallSys (· < 32) 32) :=
  (smallSys_booted _ _).consistent smallSb_sane (smallSys_ownership 32 (by simp)) smallSys_intact

/-- A directory and a file come and go; of 1500 bytes to write, 1100 are in memory. -/
def smallCalls : List (Fin 1 × Call) :=
  [(0, .sysMkdir [101, 0]), (0, .sysOpen [102, 0] ⟨false, true, true, false, false⟩),
    (0, .sysWrite 0 0 1500 (fun k => if k < 1100 then some 7 else none)),
    (0, .sysUnlink [102, 0]), (0, .sysClose 0), (0, .sysUnlink [101, 0])]

set_option maxRecDepth 100000 in
theorem blockOwnership_run_small : ∃ t, Run (step smallSb) unguarded (smallSys (· < 32) 32) smallCalls t ∧
    BlockOwnership smallSb t.fs ∧ ∀ p c, syscall smallSb p c t ≠ .error .freeingFreeBlock := by
  obtain ⟨t, hrun, -⟩ : ∃ t, Run (step smallSb) unguarded (smallSys (· < 32) 32) smallCalls t ∧ True :=
    exists_run (by decide +kernel)
  exact ⟨t, hrun, blockOwnership_run smallSb_sane (smallSys_ownership 32 (by simp)) smallSys_intact
    (smallSys_booted _ _) hrun⟩

/-- The small disk, where `d` in the root directory names inode 9. There are eight inodes, and what
is read as the ninth has the block of the second. -/
def strangeSys : Sys (Fin 1) :=
  { smallSys (· < 32) 32 with
    fs := { (smallSys (· < 32) 32).fs with
      dinode := update (smallSys (· < 32) 32).fs.dinode 9 { smallDir 31 32 1 with type := .file }
      data := update (smallSys (· < 32) 32).fs.data 30 (splice zeros 0
        (encodeDirent 1 dot ++ encodeDirent 1 dotdot ++ encodeDirent 9 [100])) } }

theorem diskSlot_strangeSys (x : ℕ × ℕ) :
    strangeSys.fs.diskSlot smallSb x = (smallSys (· < 32) 32).fs.diskSlot smallSb x := by
  obtain ⟨i, k⟩ := x
  by_cases hi : i < smallSb.ninodes
  · have hne : i ≠ 9 := by
      rintro rfl
      exact absurd hi (by decide)
    have hind : ((smallSys (· < 32) 32).fs.dinode i).addrs nDirect = 0 := by
      simp only [smallSys]
      split
      · rfl
      · split <;> rfl
    have hdinode : strangeSys.fs.dinode i = (smallSys (· < 32) 32).fs.dinode i := update_of_ne hne _ _
    rw [FS.diskSlot, FS.diskSlot, hdinode]
    exact if_congr Iff.rfl (place_congr rfl (fun h => absurd hind h)) rfl
  · rw [diskSlot_eq_zero (.inl (not_lt.1 hi)), diskSlot_eq_zero (.inl (not_lt.1 hi))]

set_option maxRecDepth 100000 in
/-- With the bit of block 1 clear, `mkdir` takes the superblock for a directory. With a
directory `d` of 1040 bytes and one block, looking up a name in `d` marks a block that goes
to no inode. With an entry for an inode that does not exist, `unlink` frees the block of another. -/
theorem blockOwnership_broken :
    (∃ t, BlockOwnership smallSb (smallSys (fun b => b < 32 && b != 1) 32).fs ∧
      Booted smallSb (smallSys (fun b => b < 32 && b != 1) 32) ∧
      Run (step smallSb) unguarded (smallSys (fun b => b < 32 && b != 1) 32) [(0, .sysMkdir [101, 0])] t ∧
      ¬ BlockOwnership smallSb t.fs) ∧
    (∃ t, BlockOwnership smallSb (smallSys (· < 32) 1040).fs ∧
      Booted smallSb (smallSys (· < 32) 1040) ∧
      Run (step smallSb) unguarded (smallSys (· < 32) 1040) [(0, .sysChdir [100, 47, 120, 0])] t ∧
      ¬ BlockOwnership smallSb t.fs) ∧
    ∃ t, BlockOwnership smallSb strangeSys.fs ∧ Booted smallSb strangeSys ∧
      Run (step smallSb) unguarded strangeSys [(0, .sysUnlink [100, 0])] t ∧ ¬ BlockOwnership smallSb t.fs := by
  refine ⟨?_, ?_, ?_⟩
  · obtain ⟨t, hrun, hone⟩ : ∃ t, Run (step smallSb) unguarded (smallSys (fun b => b < 32 && b != 1) 32)
        [(0, .sysMkdir [101, 0])] t ∧ t.fs.diskSlot smallSb (3, 0) = 1 := exists_run (by decide +kernel)
    refine ⟨t, smallSys_ownership 32 (fun b hlo hhi => ?_), smallSys_booted _ _, hrun, fun h => ?_⟩
    · simp
      omega
    · have hlt := (h.range (3, 0) (by rw [hone]; decide)).1
      rw [hone] at hlt
      exact absurd hlt (by decide)
  · obtain ⟨t, hrun, hset, hnone⟩ : ∃ t : Sys (Fin 1), Run (step smallSb) unguarded (smallSys (· < 32) 1040)
        [(0, .sysChdir [100, 47, 120, 0])] t ∧ t.fs.bitmap 32 = true ∧
        ∀ i : ℕ, i < 8 → ∀ k : ℕ, k < 269 → t.fs.diskSlot smallSb (i, k) ≠ 32 := exists_run (by decide +kernel)
    refine ⟨t, smallSys_ownership 1040 (by simp), smallSys_booted _ _, hrun, fun h => ?_⟩
    obtain ⟨⟨i, k⟩, hik, -⟩ := (h.marked 32 (by decide) (by decide)).1 hset
    by_cases hi : i < 8 ∧ k < 269
    · exact hnone i hi.1 k hi.2 hik
    · have hbeyond : 8 ≤ i ∨ 268 < k := by omega
      rw [diskSlot_eq_zero hbeyond] at hik
      cases hik
  · obtain ⟨t, hrun, hclear, hslot⟩ : ∃ t, Run (step smallSb) unguarded strangeSys [(0, .sysUnlink [100, 0])] t ∧
        t.fs.bitmap 31 = false ∧ t.fs.diskSlot smallSb (2, 0) = 31 := exists_run (by decide +kernel)
    have hboot := smallSys_booted (· < 32) 32
    refine ⟨t, ?_, ⟨hboot.ref_eq, hboot.invalid, hboot.cwd_lt, hboot.file, hboot.ofile⟩, hrun, fun h => ?_⟩
    · have hsmall : BlockOwnership smallSb (smallSys (· < 32) 32).fs := smallSys_ownership 32 (by simp)
      rw [blockOwnership_iff (by decide), funext diskSlot_strangeSys]
      exact (blockOwnership_iff (by decide)).1 hsmall
    · have hset := (h.marked 31 (by decide) (by decide)).2
        ⟨(2, 0), hslot, fun y hy => h.once y (2, 0) (by rw [hy]; decide) (hy.trans hslot.symm)⟩
      rw [hclear] at hset
      cases hset

end SmallDisk

end Xv6.FileSystem
