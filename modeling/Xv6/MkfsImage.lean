import Xv6.FileCalls
import Xv6.FileImage

/-!
# Making an image

`mkfs/mkfs.c`, over an image of sectors, and the image as the kernel reads it: the bitmap,
the packed inodes and the data blocks.
-/

namespace Xv6.Mkfs

open ByteBlocks FileSystem Function PanicPrograms

def typeCode : FileType → ℕ
  | .none => 0
  | .dir => 1
  | .file => 2
  | .device => 3
  | .other code => code + 4

def typeOf (w : ℕ) : FileType :=
  if w = 0 then .none else if w = 1 then .dir else if w = 2 then .file else if w = 3 then .device
  else .other (Fin.ofNat _ (w - 4))

/-- Word `k` of the 16 words of a `struct dinode`. -/
def dinodeWord (d : Dinode) : ℕ → ℕ
  | 0 => typeCode d.type + 2 ^ 16 * (d.major % 2 ^ 16).toNat
  | 1 => (d.minor % 2 ^ 16).toNat + 2 ^ 16 * (d.nlink % 2 ^ 16).toNat
  | 2 => d.size
  | k + 3 => d.addrs k

def decodeDinode (x : Block) (j : ℕ) : Dinode where
  type := typeOf (word x (16 * j) % 2 ^ 16)
  major := short (word x (16 * j) / 2 ^ 16 : ℕ)
  minor := short (word x (16 * j + 1) % 2 ^ 16 : ℕ)
  nlink := short (word x (16 * j + 1) / 2 ^ 16 : ℕ)
  size := word x (16 * j + 2)
  addrs := fun k => if k ≤ nDirect then word x (16 * j + 3 + k) else 0

def storeDinode (x : Block) (j : ℕ) (d : Dinode) : Block := fun p =>
  if p / 64 = j then BitVec.ofNat 8 (dinodeWord d (p / 4 % 16) / 2 ^ (8 * (p % 4))) else x p

def fsMagic : ℕ := 0x10203040

def superblockWords (sb : Superblock) : List ℕ :=
  [fsMagic, sb.size, sb.nblocks, sb.ninodes, sb.nlog, sb.logstart, sb.inodestart, sb.bmapstart]

def storeSuperblock (sb : Superblock) : Block := fun p =>
  BitVec.ofNat 8 ((superblockWords sb).getD (p / 4) 0 / 2 ^ (8 * (p % 4)))

/-- `readsb`, and the magic number that `fsinit` compares. -/
def readsb (x : Block) : ℕ × Superblock :=
  (word x 0, ⟨word x 1, word x 2, word x 3, word x 4, word x 5, word x 6, word x 7⟩)

/-- The test of bit `i` of a bitmap block, in the kernel's `balloc` and `bfree`. -/
def testBit (x : Block) (i : ℕ) : Bool := x (i / 8) &&& ((1 : Byte) <<< (i % 8)) ≠ 0

/-- The image file, in sectors, of which it has `length`, and the counters of `mkfs`. -/
structure Image where
  sector : ℕ → Block
  length : ℕ
  freeinode : ℕ
  freeblock : ℕ

/-- A failed `assert`, or a call of `die`. -/
inductive Failure
  | dieOpen
  | dieRead
  | rootinoIsRoot
  | noSlash
  | fbnBelowMaxfile
  | usedFits
  deriving DecidableEq

abbrev Mk (α : Type) := Program Image Failure α

/-- The empty file that `open` with `O_TRUNC` leaves. -/
def start : Image := { sector := fun _ => zeros, length := 0, freeinode := 1, freeblock := nmeta }

def Image.write (m : Image) (sec : ℕ) (buf : Block) : Image :=
  { m with sector := update m.sector sec buf, length := max m.length (sec + 1) }

def wsect (sec : ℕ) (buf : Block) : Mk Unit := modify (fun m => m.write sec buf)

/-- A read beyond the end of the file is short. -/
def rsect (sec : ℕ) : Mk Block := do
  let m ← get
  if sec < m.length then pure (m.sector sec) else throw .dieRead

def winode (inum : ℕ) (d : Dinode) : Mk Unit := do
  let buf ← rsect (superblock.iblock inum)
  wsect (superblock.iblock inum) (storeDinode buf (inum % ipb) d)

def rinode (inum : ℕ) : Mk Dinode := do
  let buf ← rsect (superblock.iblock inum)
  pure (decodeDinode buf (inum % ipb))

def ialloc (type : FileType) : Mk ℕ := do
  let m ← get
  modify (fun m => { m with freeinode := m.freeinode + 1 })
  winode m.freeinode { newDinode type with nlink := 1 }
  pure m.freeinode

/-- The bits below `used`. -/
def bitmapBlock (used : ℕ) : Block :=
  (List.range used).foldl
    (fun buf i => update buf (i / 8) (buf (i / 8) ||| ((1 : Byte) <<< (i % 8)))) zeros

def balloc (used : ℕ) : Mk Unit :=
  if bSize * 8 ≤ used then throw .usedFits else wsect superblock.bmapstart (bitmapBlock used)

/-- A block number that is read from a slot, or, where the slot holds 0, the next one. -/
def orNext (addr : ℕ) : Mk ℕ :=
  if addr ≠ 0 then pure addr
  else do
    let m ← get
    modify (fun m => { m with freeblock := m.freeblock + 1 })
    pure m.freeblock

/-- The block of `iappend` that finds block `fbn` of the inode `d`. It returns the changed
inode and the block number. -/
def mapBlock (d : Dinode) (fbn : ℕ) : Mk (Dinode × ℕ) :=
  if fbn < nDirect then do
    let x ← orNext (d.addrs fbn)
    pure (d.setAddr fbn x, x)
  else do
    let ind ← orNext (d.addrs nDirect)
    let indirect ← rsect ind
    if word indirect (fbn - nDirect) = 0 then do
      let x ← orNext 0
      wsect ind (setWord indirect (fbn - nDirect) x)
      pure (d.setAddr nDirect ind, x)
    else pure (d.setAddr nDirect ind, word indirect (fbn - nDirect))

/-- The loop of `iappend`, on the inode and the offset; `fuel` is at least the number of
bytes. -/
def iappendLoop : ℕ → Dinode → ℕ → List Byte → Mk (Dinode × ℕ)
  | 0, d, off, _ => pure (d, off)
  | fuel + 1, d, off, p =>
    if p.length = 0 then pure (d, off)
    else if maxFile ≤ off / bSize then throw .fbnBelowMaxfile
    else do
      let (d, x) ← mapBlock d (off / bSize)
      let n1 := min p.length ((off / bSize + 1) * bSize - off)
      let buf ← rsect x
      wsect x (splice buf (off - off / bSize * bSize) (p.take n1))
      iappendLoop fuel d (off + n1) (p.drop n1)

def iappend (inum : ℕ) (p : List Byte) : Mk Unit := do
  let d ← rinode inum
  let (d, off) ← iappendLoop p.length d d.size p
  winode inum { d with size := off }

/-- An argument of `mkfs`, a string without NUL, and what the calls of `read` return, if the
file can be opened. -/
structure Input where
  arg : Name
  arg_ne_nul : ∀ c ∈ arg, c ≠ 0
  chunks : Option (List (List Byte))

def userDir : Name := [117, 115, 101, 114, 47]

def underscore : Byte := 95

/-- The argument without "user/". -/
def Input.path (f : Input) : Name := if f.arg.take 5 = userDir then f.arg.drop 5 else f.arg

/-- The name in the image, without a leading underscore. -/
def Input.shortname (f : Input) : Name :=
  if f.path.head? = some underscore then f.path.tail else f.path

def addFile (f : Input) : Mk Unit :=
  if slash ∈ f.path then throw .noSlash
  else
    match f.chunks with
    | none => throw .dieOpen
    | some chunks => do
      let inum ← ialloc .file
      iappend rootIno (encodeDirent inum f.shortname)
      chunks.forM (iappend inum)

/-- The size of the root directory is rounded up to a whole block. -/
def fixRoot : Mk Unit := do
  let d ← rinode rootIno
  winode rootIno { d with size := (d.size / bSize + 1) * bSize }

/-- The whole program. It is irreducible since the first loop has `fsSize` turns. -/
@[irreducible] def main (files : List Input) : Mk Unit := do
  (List.range fsSize).forM (fun i => wsect i zeros)
  wsect 1 (storeSuperblock superblock)
  let rootino ← ialloc .dir
  if rootino ≠ rootIno then throw .rootinoIsRoot
  else do
    iappend rootino (encodeDirent rootino dot)
    iappend rootino (encodeDirent rootino dotdot)
    files.forM addFile
    fixRoot
    let m ← get
    balloc m.freeblock

def Image.dinode (m : Image) (i : ℕ) : Dinode :=
  decodeDinode (m.sector (superblock.iblock i)) (i % ipb)

/-- The data blocks. The kernel reads the blocks before them as inodes and bitmap. -/
def Image.data (m : Image) (b : ℕ) : Block := if nmeta ≤ b then m.sector b else zeros

/-- The state of the kernel after a boot from the image, with an empty inode table. -/
def Image.mounted (m : Image) : FS where
  bitmap := fun b => testBit (m.sector (superblock.bblock b)) (b % bpb)
  dinode := m.dinode
  data := m.data
  inode := fun _ => { ref := 0, valid := false, body := newDinode .none }
  active := 0
  logged := []

variable {m : Image} {d : Dinode} {x y : Block} {b c j k p : ℕ}

theorem Image.sector_write_self : (m.write b x).sector b = x := update_self ..

theorem Image.sector_write_ne (h : c ≠ b) : (m.write b x).sector c = m.sector c :=
  update_of_ne h ..

theorem word_congr (h : ∀ p, p / 4 = k → x p = y p) : word x k = word y k := by
  rw [word, word, h _ (by omega), h _ (by omega), h _ (by omega), h _ (by omega)]

theorem word_bytes {w : ℕ} (hw : w < 2 ^ 32)
    (h : ∀ p, p / 4 = k → x p = BitVec.ofNat 8 (w / 2 ^ (8 * (p % 4)))) : word x k = w := by
  have hset : ∀ p, p / 4 = k → x p = setWord zeros k w p := by
    intro p hp
    rw [h p hp, setWord, if_pos hp]
  rw [word_congr hset, word_setWord_self _ hw]

theorem word_storeDinode (hk : k < 16) (hw : dinodeWord d k < 2 ^ 32) :
    word (storeDinode x j d) (16 * j + k) = dinodeWord d k := by
  refine word_bytes hw ?_
  intro p hp
  have h64 : p / 64 = j := by omega
  have h16 : p / 4 % 16 = k := by omega
  rw [storeDinode, if_pos h64, h16]

theorem word_storeDinode_ne (hk : k / 16 ≠ j) : word (storeDinode x j d) k = word x k := by
  refine word_congr ?_
  intro p hp
  rw [storeDinode, if_neg (by omega)]

/-- The values that fit into the fields of a `struct dinode`. -/
structure Packed (d : Dinode) : Prop where
  major : short d.major = d.major
  minor : short d.minor = d.minor
  nlink : short d.nlink = d.nlink
  size : d.size < 2 ^ 32
  addrs : ∀ k ≤ nDirect, d.addrs k < 2 ^ 32
  beyond : ∀ k, nDirect < k → d.addrs k = 0

theorem typeOf_typeCode (t : FileType) : typeOf (typeCode t) = t := by
  cases t with
  | other code => simp [typeOf, typeCode]
  | _ => rfl

theorem short_mod (z : ℤ) : short ((z % 2 ^ 16).toNat : ℤ) = short z := by
  rw [short, short, Int.toNat_of_nonneg (Int.emod_nonneg _ (by decide))]
  exact Int.emod_bmod z (2 ^ 16)

theorem halves {l h : ℕ} (hl : l < 2 ^ 16) (hh : h < 2 ^ 16) :
    (l + 2 ^ 16 * h) % 2 ^ 16 = l ∧ (l + 2 ^ 16 * h) / 2 ^ 16 = h ∧ l + 2 ^ 16 * h < 2 ^ 32 := by
  omega

theorem toNat_mod_lt (z : ℤ) : (z % 2 ^ 16).toNat < 2 ^ 16 := by omega

theorem decodeDinode_storeDinode (h : Packed d) : decodeDinode (storeDinode x j d) j = d := by
  have hcode : typeCode d.type < 2 ^ 16 := by
    cases d.type with
    | other code =>
      rw [typeCode]
      omega
    | _ => decide
  obtain ⟨hlow0, hhigh0, hlt0⟩ := halves hcode (toNat_mod_lt d.major)
  obtain ⟨hlow1, hhigh1, hlt1⟩ := halves (toNat_mod_lt d.minor) (toNat_mod_lt d.nlink)
  have hw0 : word (storeDinode x j d) (16 * j + 0) = dinodeWord d 0 :=
    word_storeDinode (by decide) (by rw [dinodeWord]; exact hlt0)
  have hw1 : word (storeDinode x j d) (16 * j + 1) = dinodeWord d 1 :=
    word_storeDinode (by decide) (by rw [dinodeWord]; exact hlt1)
  have hw2 : word (storeDinode x j d) (16 * j + 2) = dinodeWord d 2 :=
    word_storeDinode (by decide) (by rw [dinodeWord]; exact h.size)
  rw [Nat.add_zero] at hw0
  have haddrs : (decodeDinode (storeDinode x j d) j).addrs = d.addrs := by
    funext k
    simp only [decodeDinode]
    split
    · rename_i hk
      have hk16 : k + 3 < 16 := by
        have : nDirect = 12 := rfl
        omega
      have hword : word (storeDinode x j d) (16 * j + (k + 3)) = dinodeWord d (k + 3) :=
        word_storeDinode hk16 (by rw [dinodeWord]; exact h.addrs k hk)
      rw [Nat.add_assoc, Nat.add_comm 3 k, hword, dinodeWord]
    · rename_i hk
      exact (h.beyond k (by omega)).symm
  have hmk : decodeDinode (storeDinode x j d) j =
      ⟨d.type, d.major, d.minor, d.nlink, d.size, (decodeDinode (storeDinode x j d) j).addrs⟩ := by
    rw [decodeDinode, hw0, hw1, hw2, dinodeWord, dinodeWord, dinodeWord, hlow0, hhigh0, hlow1, hhigh1,
      typeOf_typeCode, short_mod, short_mod, short_mod, h.major, h.minor, h.nlink]
  rw [hmk, haddrs]

theorem decodeDinode_storeDinode_ne (hne : k ≠ j) :
    decodeDinode (storeDinode x j d) k = decodeDinode x k := by
  have hw : ∀ l < 16, word (storeDinode x j d) (16 * k + l) = word x (16 * k + l) :=
    fun l hl => word_storeDinode_ne (by omega)
  have haddrs : ∀ l ≤ nDirect, word (storeDinode x j d) (16 * k + 3 + l) = word x (16 * k + 3 + l) := by
    intro l hl
    have hnd : nDirect = 12 := rfl
    rw [Nat.add_assoc]
    exact hw _ (by omega)
  have hw0 := hw 0 (by decide)
  rw [Nat.add_zero] at hw0
  simp only [decodeDinode, hw0, hw 1 (by decide), hw 2 (by decide), Dinode.mk.injEq, true_and]
  funext l
  split
  · rename_i hl
    exact haddrs l hl
  · rfl

theorem word_lt (x : Block) (k : ℕ) : word x k < 2 ^ 32 := by
  rw [word]
  omega

theorem short_short (z : ℤ) : short (short z) = short z := by
  rw [short, short, Int.bmod_bmod]

theorem packed_decodeDinode (x : Block) (j : ℕ) : Packed (decodeDinode x j) where
  major := by simp only [decodeDinode, short_short]
  minor := by simp only [decodeDinode, short_short]
  nlink := by simp only [decodeDinode, short_short]
  size := by
    simp only [decodeDinode]
    exact word_lt _ _
  addrs := by
    intro k hk
    simp only [decodeDinode, if_pos hk]
    exact word_lt _ _
  beyond := by
    intro k hk
    simp only [decodeDinode]
    rw [if_neg (by omega)]

theorem Packed.setAddr {b : ℕ} (h : Packed d) (hk : k ≤ nDirect) (hb : b < 2 ^ 32) :
    Packed (d.setAddr k b) where
  major := h.major
  minor := h.minor
  nlink := h.nlink
  size := h.size
  addrs := by
    intro l hl
    rcases eq_or_ne l k with rfl | hne
    · rwa [setAddr_self]
    · rw [setAddr_ne hne]
      exact h.addrs l hl
  beyond := by
    intro l hl
    rw [setAddr_ne (by omega)]
    exact h.beyond l hl

theorem Packed.resize {n : ℕ} (h : Packed d) (hn : n < 2 ^ 32) : Packed { d with size := n } :=
  ⟨h.major, h.minor, h.nlink, hn, h.addrs, h.beyond⟩

theorem packed_new (type : FileType) : Packed { newDinode type with nlink := 1 } where
  major := show short 0 = 0 by decide
  minor := show short 0 = 0 by decide
  nlink := show short 1 = 1 by decide
  size := by simp [newDinode]
  addrs := fun _ _ => by simp [newDinode]
  beyond := fun _ _ => rfl

theorem readsb_storeSuperblock : readsb (storeSuperblock superblock) = (fsMagic, superblock) := by
  decide +kernel

theorem testBit_eq (x : Block) (i : ℕ) : testBit x i = (x (i / 8)).getLsbD (i % 8) := by
  have hbit : (1 : Byte) <<< (i % 8) = BitVec.twoPow 8 (i % 8) := rfl
  have hne : BitVec.twoPow 8 (i % 8) ≠ 0#8 := by
    intro h
    have hlsb := congrArg (fun c => c.getLsbD (i % 8)) h
    simp [Nat.mod_lt] at hlsb
  rw [testBit, hbit, BitVec.and_twoPow]
  cases h : (x (i / 8)).getLsbD (i % 8) with
  | false => simp
  | true => simpa using hne

theorem testBit_bitmapBlock (used i : ℕ) : testBit (bitmapBlock used) i = decide (i < used) := by
  induction used with
  | zero => simp [testBit, bitmapBlock, zeros]
  | succ n ih =>
    have hfold : bitmapBlock (n + 1) = update (bitmapBlock n) (n / 8)
        (bitmapBlock n (n / 8) ||| ((1 : Byte) <<< (n % 8))) := by
      rw [bitmapBlock, List.range_succ, List.foldl_append]
      rfl
    rw [testBit_eq] at ih ⊢
    rw [hfold]
    rcases eq_or_ne (i / 8) (n / 8) with heq | hne
    · have hbit : (1 : Byte) <<< (n % 8) = BitVec.twoPow 8 (n % 8) := rfl
      rw [heq, update_self, BitVec.getLsbD_or, ← heq, ih, hbit, BitVec.getLsbD_twoPow]
      have hi : i = n ↔ n % 8 = i % 8 := by omega
      have hlt : n % 8 < 8 := Nat.mod_lt _ (by decide)
      have hsucc : i < n + 1 ↔ i < n ∨ n % 8 = i % 8 := by omega
      simp [hsucc, hlt, Bool.decide_or]
    · have hsucc : i < n + 1 ↔ i < n := by
        have hin : i ≠ n := by
          rintro rfl
          exact hne rfl
        omega
      rw [update_of_ne hne, ih]
      simp only [hsucc]

end Xv6.Mkfs
