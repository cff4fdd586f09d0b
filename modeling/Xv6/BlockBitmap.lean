import Xv6.BlockAllocation

/-!
# The bitmap blocks

`balloc` and `bfree` of `kernel/fs.c` on the bytes of the bitmap. The loops of `balloc` go over the
bitmap blocks and their bits; `bfree` finds the bit of a block by arithmetic. Both do what the
functions of `Xv6.FileSystem` do to the set of blocks in use.
-/

namespace Xv6.BlockBitmap

open ByteBlocks FileSystem Function PanicPrograms

/-- The content of the blocks, and the blocks passed to `log_write`. -/
structure Disk where
  data : ℕ → Block
  logged : List ℕ

abbrev M (α : Type) := Program Disk Panic α

def mask (bi : ℕ) : Byte := 1 <<< (bi % 8)

def Disk.setByte (s : Disk) (k i : ℕ) (x : Byte) : Disk :=
  { s with data := update s.data k (update (s.data k) i x) }

def logWrite (b : ℕ) : M Unit := modify (fun s => { s with logged := s.logged ++ [b] })

def bzero (b : ℕ) : M Unit := do
  modify (fun s => { s with data := update s.data b zeros })
  logWrite b

variable (sb : Superblock)

/-- The loop over the bits of a bitmap block, from `bi` on. -/
def ballocBits (b : ℕ) : ℕ → ℕ → M (Option ℕ)
  | 0, _ => pure none
  | fuel + 1, bi =>
    if bi < bpb ∧ b + bi < sb.size then do
      let s ← get
      if s.data (sb.bblock b) (bi / 8) &&& mask bi = 0 then
        modify (fun s => s.setByte (sb.bblock b) (bi / 8) (s.data (sb.bblock b) (bi / 8) ||| mask bi))
        logWrite (sb.bblock b)
        bzero (b + bi)
        pure (some (b + bi))
      else ballocBits b fuel (bi + 1)
    else pure none

/-- The loop over the bitmap blocks; `b` is an `int` that is compared as a `uint`. -/
def ballocBlocks : ℕ → ℕ → M ℕ
  | 0, _ => pure 0
  | fuel + 1, b =>
    if b < sb.size then do
      match ← ballocBits sb b bpb 0 with
      | some c => pure c
      | none => ballocBlocks fuel ((b + bpb) % 2 ^ 32)
    else pure 0

def nbitmap : ℕ := sb.size / bpb + 1

/-- `balloc` returns 0 when there is no free block. -/
def balloc : M ℕ := ballocBlocks sb (nbitmap sb) 0

def bfree (b : ℕ) : M Unit := do
  let s ← get
  let bi := b % bpb
  if s.data (sb.bblock b) (bi / 8) &&& mask bi = 0 then throw .freeingFreeBlock
  else
    modify (fun s => s.setByte (sb.bblock b) (bi / 8) (s.data (sb.bblock b) (bi / 8) &&& ~~~mask bi))
    logWrite (sb.bblock b)

def used (data : ℕ → Block) (b : ℕ) : Bool := (data (sb.bblock b) (b % bpb / 8)).getLsbD (b % 8)

variable {sb} {s : Disk} {data : ℕ → Block} {b c : ℕ} {x : Byte} {E : Panic → Prop}

theorem mask_eq (bi : ℕ) : mask bi = BitVec.twoPow 8 (bi % 8) := (BitVec.twoPow_eq 8 (bi % 8)).symm

theorem and_mask (x : Byte) (bi : ℕ) : x &&& mask bi = 0 ↔ x.getLsbD (bi % 8) = false := by
  rw [mask_eq, BitVec.and_twoPow]
  split
  · rename_i hbit
    simp only [hbit, Bool.true_eq_false, iff_false]
    intro hzero
    have hpow := congrArg BitVec.toNat hzero
    rw [BitVec.toNat_twoPow_of_lt (Nat.mod_lt _ (by decide))] at hpow
    simp at hpow
  · rename_i hbit
    simpa using hbit

theorem getLsbD_or_mask (x : Byte) (bi j : ℕ) :
    (x ||| mask bi).getLsbD j = (decide (j = bi % 8) || x.getLsbD j) := by
  rw [mask_eq, BitVec.getLsbD_or, BitVec.getLsbD_twoPow, Bool.or_comm]
  simp [Nat.mod_lt bi (show 0 < 8 by decide), eq_comm]

theorem getLsbD_and_mask (x : Byte) (bi : ℕ) {j : ℕ} (hj : j < 8) :
    (x &&& ~~~mask bi).getLsbD j = (decide (j ≠ bi % 8) && x.getLsbD j) := by
  rw [mask_eq, BitVec.getLsbD_and, BitVec.getLsbD_not, BitVec.getLsbD_twoPow, Bool.and_comm]
  simp [Nat.mod_lt bi (show 0 < 8 by decide), hj, eq_comm]

theorem mod_bpb (b : ℕ) : b % bpb % 8 = b % 8 := Nat.mod_mod_of_dvd b (by decide)

theorem used_of_div (h : c / 8 = b / 8) :
    used sb data c = (data (sb.bblock b) (b % bpb / 8)).getLsbD (c % 8) := by
  have hbpb : bpb = 8192 := rfl
  have hblock : sb.bblock c = sb.bblock b := by
    simp only [Superblock.bblock, hbpb]
    omega
  have hoff : c % bpb / 8 = b % bpb / 8 := by
    rw [hbpb]
    omega
  rw [used, hblock, hoff]

theorem used_setByte (c : ℕ) : used sb (s.setByte (sb.bblock b) (b % bpb / 8) x).data c =
    if c / 8 = b / 8 then x.getLsbD (c % 8) else used sb s.data c := by
  split
  · rename_i hbyte
    rw [used_of_div hbyte]
    simp only [Disk.setByte, update_self]
  · rename_i hbyte
    have hbpb : bpb = 8192 := rfl
    simp only [used, Disk.setByte]
    by_cases hblock : sb.bblock c = sb.bblock b
    · have hoff : c % bpb / 8 ≠ b % bpb / 8 := by
        simp only [Superblock.bblock, hbpb] at hblock ⊢
        omega
      rw [hblock, update_self, update_of_ne hoff]
    · rw [update_of_ne hblock]

theorem ne_of_div (h : ¬ c / 8 = b / 8) : c ≠ b := fun hc => h (hc ▸ rfl)

theorem mod_eq_iff (h : c / 8 = b / 8) : c % 8 = b % bpb % 8 ↔ c = b := by
  rw [mod_bpb]
  omega

theorem used_set (c : ℕ) : used sb (s.setByte (sb.bblock b) (b % bpb / 8)
    (s.data (sb.bblock b) (b % bpb / 8) ||| mask (b % bpb))).data c =
      (decide (c = b) || used sb s.data c) := by
  rw [used_setByte]
  split
  · rename_i hbyte
    rw [getLsbD_or_mask, ← used_of_div hbyte, decide_eq_decide.2 (mod_eq_iff hbyte)]
  · rename_i hbyte
    simp [ne_of_div hbyte]

theorem used_clear (c : ℕ) : used sb (s.setByte (sb.bblock b) (b % bpb / 8)
    (s.data (sb.bblock b) (b % bpb / 8) &&& ~~~mask (b % bpb))).data c =
      (decide (c ≠ b) && used sb s.data c) := by
  rw [used_setByte]
  split
  · rename_i hbyte
    rw [getLsbD_and_mask _ _ (Nat.mod_lt _ (by decide)), ← used_of_div hbyte,
      decide_eq_decide.2 (mod_eq_iff hbyte).not]
  · rename_i hbyte
    simp [ne_of_div hbyte]

theorem used_iff (b : ℕ) :
    s.data (sb.bblock b) (b % bpb / 8) &&& mask (b % bpb) = 0 ↔ used sb s.data b = false := by
  rw [and_mask, mod_bpb]
  rfl

/-- `b` has been handed out: its bit is set, its content is zero. -/
def Disk.allocated (sb : Superblock) (s : Disk) (b : ℕ) : Disk where
  data := update (s.setByte (sb.bblock b) (b % bpb / 8)
    (s.data (sb.bblock b) (b % bpb / 8) ||| mask (b % bpb))).data b zeros
  logged := s.logged ++ [sb.bblock b] ++ [b]

theorem firstFree_add (used : ℕ → Bool) (n m a : ℕ) :
    firstFree used (n + m) a = (firstFree used n a).or (firstFree used m (a + n)) := by
  simp only [firstFree_eq_find, ← List.range'_append_1, List.find?_append]

theorem firstFree_block (used : ℕ → Bool) (size b : ℕ) : firstFree used (size - b) b =
    (firstFree used (min bpb (size - b)) b).or (firstFree used (size - (b + bpb)) (b + bpb)) := by
  rcases Nat.le_total bpb (size - b) with hfull | hlast
  · have hsplit : size - b = bpb + (size - (b + bpb)) := by omega
    rw [Nat.min_eq_left hfull, hsplit, firstFree_add]
  · have hnone : size - (b + bpb) = 0 := by omega
    rw [Nat.min_eq_right hlast, hnone, firstFree, Option.or_none]

/-- What a search that may have found a block leaves. -/
def Disk.found (sb : Superblock) (s : Disk) : Option ℕ → Disk
  | none => s
  | some c => s.allocated sb c

theorem ballocBits_ends (hb : bpb ∣ b) (fuel bi : ℕ) (hbi : bi + fuel = bpb) :
    Ends (ballocBits sb b fuel bi) s (fun r t =>
      r = firstFree (used sb s.data) (min bpb (sb.size - b) - bi) (b + bi) ∧ t = s.found sb r) E := by
  induction fuel generalizing bi with
  | zero =>
    have hnone : min bpb (sb.size - b) - bi = 0 := by omega
    rw [hnone]
    exact ⟨rfl, rfl⟩
  | succ fuel ih =>
    rw [ballocBits]
    refine ends_ite ?_ ?_
    · rintro ⟨hlt, hsize⟩
      have hleft : min bpb (sb.size - b) - bi = min bpb (sb.size - b) - (bi + 1) + 1 := by omega
      -- the bit `bi` of this bitmap block is the bit of block `b + bi`
      have hblock : sb.bblock b = sb.bblock (b + bi) := by
        rw [Superblock.bblock, Superblock.bblock, Nat.add_div_of_dvd_right hb, Nat.div_eq_of_lt hlt,
          Nat.add_zero]
      have hoff : bi = (b + bi) % bpb := by
        rw [Nat.add_mod, Nat.mod_eq_zero_of_dvd hb, Nat.zero_add, Nat.mod_mod, Nat.mod_eq_of_lt hlt]
      have hbit : s.data (sb.bblock b) (bi / 8) &&& mask bi = 0 ↔
          used sb s.data (b + bi) = false := by
        rw [← used_iff, ← hblock, ← hoff]
      rw [hleft, firstFree, ends_bind]
      refine ends_ite ?_ ?_
      · intro hclear
        rw [if_neg (by simp [hbit.1 hclear])]
        refine ⟨rfl, ?_⟩
        simp only [Disk.found, Disk.allocated, ← hblock, ← hoff]
        rfl
      · intro hset
        rw [if_pos (by simpa using hset ∘ hbit.2)]
        exact ih (bi + 1) (by omega)
    · intro hend
      have hnone : min bpb (sb.size - b) - bi = 0 := by omega
      rw [hnone]
      exact ⟨rfl, rfl⟩

theorem ballocBlocks_ends (hsize : sb.size < 2 ^ 31) (fuel : ℕ) (hb : bpb ∣ b)
    (hfuel : sb.size ≤ b + fuel * bpb) :
    Ends (ballocBlocks sb fuel b) s (fun r t => ∃ o, o = firstFree (used sb s.data) (sb.size - b) b ∧
      r = o.getD 0 ∧ t = s.found sb o) E := by
  induction fuel generalizing b with
  | zero =>
    have hnone : sb.size - b = 0 := by omega
    rw [hnone]
    exact ⟨none, rfl, rfl, rfl⟩
  | succ fuel ih =>
    rw [ballocBlocks]
    refine ends_ite ?_ ?_
    · intro hlt
      refine (ballocBits_ends hb bpb 0 (Nat.zero_add _)).bind ?_
      rintro r t ⟨hr, rfl⟩
      rw [Nat.sub_zero, Nat.add_zero] at hr
      rw [firstFree_block, ← hr]
      cases r with
      | some c => exact ⟨some c, rfl, rfl, rfl⟩
      | none =>
        have hbpb : bpb = 8192 := rfl
        have hwrap : (b + bpb) % 2 ^ 32 = b + bpb := Nat.mod_eq_of_lt (by omega)
        rw [Nat.succ_mul] at hfuel
        change Ends (ballocBlocks sb fuel ((b + bpb) % 2 ^ 32)) s _ E
        rw [hwrap, Option.none_or]
        exact ih (Nat.dvd_add hb dvd_rfl) (by omega)
    · intro hend
      have hnone : sb.size - b = 0 := by omega
      rw [hnone]
      exact ⟨none, rfl, rfl, rfl⟩

theorem size_lt (sb : Superblock) : sb.size < nbitmap sb * bpb := by
  have hdiv := Nat.div_add_mod sb.size bpb
  have hmod := Nat.mod_lt sb.size (show 0 < bpb by decide)
  rw [nbitmap, Nat.add_mul, Nat.mul_comm (sb.size / bpb)]
  omega

theorem balloc_ends (hsize : sb.size < 2 ^ 31) : Ends (balloc sb) s (fun r t =>
    ∃ o, o = firstFree (used sb s.data) sb.size 0 ∧ r = o.getD 0 ∧ t = s.found sb o) E := by
  refine ballocBlocks_ends hsize (nbitmap sb) (dvd_zero bpb) ?_
  rw [Nat.zero_add]
  exact (size_lt sb).le

/-- The bits of the blocks before the end of the bitmap are set. -/
def Reserved (sb : Superblock) (data : ℕ → Block) : Prop :=
  ∀ b < sb.size, b < sb.bmapstart + nbitmap sb → used sb data b = true

/-- A free block is behind the bitmap, so that zeroing it keeps the bits. -/
theorem used_allocated (hres : Reserved sb s.data) (hb : b < sb.size)
    (hfree : used sb s.data b = false) (hc : c < nbitmap sb * bpb) :
    used sb (s.allocated sb b).data c = (decide (c = b) || used sb s.data c) := by
  have hblock : sb.bblock c < sb.bmapstart + nbitmap sb := by
    have hdiv := Nat.div_lt_of_lt_mul (Nat.mul_comm _ _ ▸ hc)
    rw [Superblock.bblock]
    omega
  have hne : sb.bblock c ≠ b := by
    rintro rfl
    rw [hres _ hb hblock] at hfree
    cases hfree
  rw [← used_set]
  simp only [used, Disk.allocated, update_of_ne hne]

def Disk.freed (sb : Superblock) (s : Disk) (b : ℕ) : Disk where
  data := (s.setByte (sb.bblock b) (b % bpb / 8)
    (s.data (sb.bblock b) (b % bpb / 8) &&& ~~~mask (b % bpb))).data
  logged := s.logged ++ [sb.bblock b]

theorem bfree_ends (hused : used sb s.data b = true) :
    Ends (bfree sb b) s (fun _ t => t = s.freed sb b) E := by
  rw [bfree, ends_bind]
  refine ends_ite ?_ ?_
  · intro hclear
    rw [(used_iff b).1 hclear] at hused
    cases hused
  · intro _
    rfl

/-- `v` is the file system of which the bitmap blocks of `s` show the blocks in use. -/
structure Shows (sb : Superblock) (s : Disk) (v : FS) : Prop where
  bitmap : ∀ b < nbitmap sb * bpb, v.bitmap b = used sb s.data b
  data : ∀ k, sb.bmapstart + nbitmap sb ≤ k → v.data k = s.data k
  logged : v.logged = s.logged

theorem bblock_ne {k : ℕ} (hb : b < sb.size) (hk : sb.bmapstart + nbitmap sb ≤ k) :
    k ≠ sb.bblock b := by
  have hdiv : b / bpb ≤ sb.size / bpb := Nat.div_le_div_right hb.le
  rw [nbitmap] at hk
  rw [Superblock.bblock]
  omega

theorem firstFree_congr {used used' : ℕ → Bool} {n a : ℕ}
    (h : ∀ b, a ≤ b → b < a + n → used b = used' b) :
    firstFree used n a = firstFree used' n a := by
  induction n generalizing a with
  | zero => rfl
  | succ n ih =>
    rw [firstFree, firstFree, h a le_rfl (by omega), ih (fun b hab hb => h b (by omega) (by omega))]

/-- `balloc` on the bytes does what `balloc` does to the set of blocks in use. -/
theorem balloc_tracks (hsize : sb.size < 2 ^ 31) (hres : Reserved sb s.data) {v : FS}
    (h : Shows sb s v) :
    Tracks (balloc sb) s (FileSystem.balloc sb) v (fun r s' r' v' => r = r' ∧ Shows sb s' v') E := by
  have hsame : firstFree v.bitmap sb.size 0 = firstFree (used sb s.data) sb.size 0 :=
    firstFree_congr (fun b _ hb => h.bitmap b (by
      have := size_lt sb
      omega))
  refine (balloc_ends hsize).imp ?_
  rintro _ _ ⟨o, ho, rfl, rfl⟩
  rw [FileSystem.balloc, ends_bind, ends_get, hsame, ← ho]
  cases o with
  | none => exact ⟨rfl, h⟩
  | some b =>
    obtain ⟨hfree, -, hb⟩ := firstFree_spec ho.symm
    rw [Nat.zero_add] at hb
    refine ⟨rfl, ?_, ?_, ?_⟩
    · intro c hc
      rw [Disk.found, used_allocated hres hb hfree hc, ← h.bitmap c hc]
      rcases eq_or_ne c b with rfl | hne
      · simp [FS.setBit, FS.setBlock]
      · simp [FS.setBit, FS.setBlock, hne]
    · intro k hk
      have hne := bblock_ne hb hk
      simp only [Disk.found, Disk.allocated, Disk.setByte]
      rcases eq_or_ne k b with rfl | hkb
      · simp [FS.setBlock]
      · simp [FS.setBlock, FS.setBit, hkb, hne, h.data k hk]
    · simp [Disk.found, Disk.allocated, ← h.logged, FS.setBit, FS.setBlock]

theorem bfree_tracks (hused : used sb s.data b = true) (hb : b < sb.size) {v : FS}
    (h : Shows sb s v) :
    Tracks (bfree sb b) s (FileSystem.bfree sb b) v (fun _ s' _ v' => Shows sb s' v') E := by
  refine (bfree_ends hused).imp ?_
  rintro _ _ rfl
  have hbit : v.bitmap b = true := (h.bitmap b (hb.trans (size_lt sb))).trans hused
  rw [FileSystem.bfree, ends_bind, ends_get, if_neg (by simp [hbit])]
  refine ⟨?_, ?_, ?_⟩
  · intro c hc
    rw [Disk.freed, used_clear, ← h.bitmap c hc]
    rcases eq_or_ne c b with rfl | hne
    · simp [FS.setBit]
    · simp [FS.setBit, hne]
  · intro k hk
    simp only [Disk.freed, Disk.setByte, update_of_ne (bblock_ne hb hk)]
    exact h.data k hk
  · simp [Disk.freed, ← h.logged, FS.setBit]

structure Taken (sb : Superblock) (s t : Disk) (b : ℕ) : Prop where
  lt : b < sb.size
  free : used sb s.data b = false
  least : ∀ c < b, used sb s.data c = true
  bits : ∀ c < nbitmap sb * bpb, used sb t.data c = (decide (c = b) || used sb s.data c)
  zeroed : t.data b = zeros
  other : ∀ k ≠ b, k ≠ sb.bblock b → t.data k = s.data k

structure Freed (sb : Superblock) (s t : Disk) (b : ℕ) : Prop where
  bits : ∀ c, used sb t.data c = (decide (c ≠ b) && used sb s.data c)
  other : ∀ k ≠ sb.bblock b, t.data k = s.data k

theorem firstFree_least {used : ℕ → Bool} {n a : ℕ} (h : firstFree used n a = some c) (hab : a ≤ b)
    (hbc : b < c) : used b = true := by
  rw [firstFree_eq_find, List.find?_range'_eq_some] at h
  simpa using h.2.2 b hab hbc

theorem taken_allocated (hres : Reserved sb s.data)
    (hb : firstFree (used sb s.data) sb.size 0 = some b) : Taken sb s (s.allocated sb b) b := by
  obtain ⟨hfree, -, hlt⟩ := firstFree_spec hb
  rw [Nat.zero_add] at hlt
  refine ⟨hlt, hfree, ?_, ?_, ?_, ?_⟩
  · exact fun c hc => firstFree_least hb (Nat.zero_le c) hc
  · exact fun c hc => used_allocated hres hlt hfree hc
  · exact update_self ..
  · intro k hkb hk
    simp only [Disk.allocated, Disk.setByte, update_of_ne hkb, update_of_ne hk]

theorem freed_freed : Freed sb s (s.freed sb b) b :=
  ⟨used_clear, fun _ hk => update_of_ne hk _ _⟩

/-- A block that `balloc` returns is the first that is not in use; `balloc` changes its bit and its
content and nothing else, and `bfree` undoes it in the bitmap. -/
theorem balloc_bfree_exact (sb : Superblock) (s : Disk) (hsize : sb.size < 2 ^ 31)
    (hres : Reserved sb s.data) :
    (∃ b t, balloc sb s = .ok (b, t) ∧
      (b = 0 ↔ ∀ c < sb.size, used sb s.data c = true) ∧ (b = 0 → t = s) ∧
      (b ≠ 0 → Taken sb s t b ∧ ∃ u, bfree sb b t = .ok ((), u) ∧
        ∀ c < nbitmap sb * bpb, used sb u.data c = used sb s.data c)) ∧
    ∀ b, used sb s.data b = true → ∃ t, bfree sb b s = .ok ((), t) ∧ Freed sb s t b := by
  refine ⟨?_, ?_⟩
  · obtain ⟨_, _, hrun, o, ho, rfl, rfl⟩ := (balloc_ends (s := s) (E := fun _ => False) hsize).exists_ok
    refine ⟨_, _, hrun, ?_⟩
    cases o with
    | none =>
      refine ⟨⟨fun _ c hc => ?_, fun _ => rfl⟩, fun _ => rfl, fun h => (h rfl).elim⟩
      exact firstFree_none ho.symm (Nat.zero_le c) (by rwa [Nat.zero_add])
    | some b =>
      have htaken := taken_allocated hres ho.symm
      have hpos : b ≠ 0 := by
        rintro rfl
        have hzero := hres 0 htaken.lt (Nat.succ_pos _)
        rw [htaken.free] at hzero
        cases hzero
      refine ⟨⟨fun h => (hpos h).elim, fun hfull => ?_⟩, fun h => (hpos h).elim, fun _ => ⟨htaken, ?_⟩⟩
      · have hset := hfull b htaken.lt
        rw [htaken.free] at hset
        cases hset
      · have hset : used sb (s.allocated sb b).data b = true := by
          rw [htaken.bits b (htaken.lt.trans (size_lt sb)), decide_eq_true rfl, Bool.true_or]
        obtain ⟨_, _, hfree, rfl⟩ := (bfree_ends (E := fun _ => False) hset).exists_ok
        refine ⟨_, hfree, ?_⟩
        intro c hc
        rw [freed_freed.bits, htaken.bits c hc]
        rcases eq_or_ne c b with rfl | hne
        · simp [htaken.free]
        · simp [hne]
  · intro b hused
    obtain ⟨_, _, hfree, rfl⟩ := (bfree_ends (E := fun _ => False) hused).exists_ok
    exact ⟨_, hfree, freed_freed⟩

/-- Two bitmap blocks, at 3 and 4; the last block number is 8199. -/
def twoMaps : Superblock :=
  { size := 8200, nblocks := 8195, ninodes := 8, nlog := 0, logstart := 2, inodestart := 2,
    bmapstart := 3 }

/-- The first bitmap block is full, and of the second the first bit is set. -/
def fullMap : Disk where
  data k i := if k = 3 then 0xFF else if k = 4 ∧ i = 0 then 1 else 0
  logged := []

theorem balloc_bfree_exact_twoMaps : twoMaps.size < 2 ^ 31 ∧ Reserved twoMaps fullMap.data ∧
    ∃ b t, balloc twoMaps fullMap = .ok (b, t) ∧ Taken twoMaps fullMap t b := by
  have hres : Reserved twoMaps fullMap.data := by
    have hmeta : ∀ b < 5, used twoMaps fullMap.data b = true := by decide
    exact fun b _ hb => hmeta b hb
  refine ⟨by decide, hres, ?_⟩
  obtain ⟨⟨b, t, hrun, hzero, -, htaken⟩, -⟩ := balloc_bfree_exact twoMaps fullMap (by decide) hres
  refine ⟨b, t, hrun, (htaken ?_).1⟩
  intro hb
  have hset : used twoMaps fullMap.data 8193 = true := hzero.1 hb 8193 (by decide)
  exact absurd hset (by decide)

end Xv6.BlockBitmap
