import Mathlib.Algebra.Order.Group.Multiset
import Xv6.Directories
import Xv6.SlotOwnership

/-!
# What a file system state means

The blocks of an inode by place, the bytes of its content, and the namespace it shows:
for every inode its type, its link count and, for a directory, its entries. `Sound` is
what every function of the file system keeps.
-/

namespace Xv6.FileSystem

open ByteBlocks Function SlotOwnership

/-- The places of an inode: the direct slots, the slot of the indirect block, and the
entries of that block. -/
def place (data : ℕ → Block) (d : Dinode) (k : ℕ) : ℕ :=
  if k ≤ nDirect then d.addrs k
  else if k - (nDirect + 1) < nIndirect ∧ d.addrs nDirect ≠ 0 then
    word (data (d.addrs nDirect)) (k - (nDirect + 1))
  else 0

def contentPlace (bn : ℕ) : ℕ := if bn < nDirect then bn else bn + 1

/-- Byte `p` of the content; `none` where no block is allocated. -/
def byteAt (data : ℕ → Block) (d : Dinode) (p : ℕ) : Option Byte :=
  if place data d (contentPlace (p / bSize)) = 0 then none
  else some (data (place data d (contentPlace (p / bSize))) (p % bSize))

def entryAt (data : ℕ → Block) (d : Dinode) (k : ℕ) : Dirent :=
  decodeDirent ((List.range direntSize).map (fun j => (byteAt data d (direntSize * k + j)).getD 0))

def entries (data : ℕ → Block) (d : Dinode) : List Dirent :=
  if d.type = .dir then (List.range (d.size / direntSize)).map (entryAt data d) else []

structure Node where
  type : FileType
  nlink : ℤ
  slots : List Dirent
  deriving DecidableEq

def Node.free : Node := ⟨.none, 0, []⟩

def nodeOf (data : ℕ → Block) (d : Dinode) : Node :=
  if d.type = .none then Node.free else ⟨d.type, d.nlink, entries data d⟩

namespace FS

def live (s : FS) (i : ℕ) : Prop := 0 < (s.inode i).ref ∧ (s.inode i).valid = true

instance (s : FS) (i : ℕ) : Decidable (s.live i) := inferInstanceAs (Decidable (_ ∧ _))

def current (s : FS) (i : ℕ) : Dinode := if s.live i then s.body i else s.dinode i

/-- The block number at a place of an allocated inode. -/
def slot (sb : Superblock) (s : FS) (x : ℕ × ℕ) : ℕ :=
  if x.1 < sb.ninodes ∧ (s.current x.1).type ≠ .none then place s.data (s.current x.1) x.2 else 0

def view (sb : Superblock) (s : FS) (i : ℕ) : Node :=
  if i < sb.ninodes then nodeOf s.data (s.current i) else Node.free

end FS

/-- What holds of a superblock: block 0 is not a data block, and block numbers fit into 32
bits. -/
structure Superblock.Sane (sb : Superblock) : Prop where
  dataStart_pos : 0 < sb.dataStart
  size_lt : sb.size < 2 ^ 32
  root_lt : rootIno < sb.ninodes

/-- Every data block is free or at one place of one allocated inode. -/
structure Blocks (sb : Superblock) (s : FS) : Prop where
  sane : Superblock.Sane sb
  owned : Owned sb.dataStart sb.size s.bitmap (s.slot sb)
  reserved : ∀ b < sb.dataStart, s.bitmap b = true

/-- A state between two functions, with the references `T` to inodes outstanding. -/
structure Sound (sb : Superblock) (T : Multiset ℕ) (s : FS) : Prop where
  blocks : Blocks sb s
  filled : ∀ i < sb.ninodes, (s.current i).type = .dir →
    ∀ p < (s.current i).size, byteAt s.data (s.current i) p ≠ none
  named : ∀ i, ∀ e ∈ (s.view sb i).slots, e.inum < sb.ninodes
  ref_eq : ∀ i, (s.inode i).ref = T.count i
  lt : ∀ i ∈ T, i < sb.ninodes
  typed : ∀ i, s.live i → (s.body i).type ≠ .none
  clean : ∀ i, s.live i → s.body i = s.dinode i

/-- Inodes held throughout stay in the table, and keep their type. -/
structure Stays (K : Multiset ℕ) (s t : FS) : Prop where
  valid : ∀ i ∈ K, (s.inode i).valid = true → (t.inode i).valid = true
  type : ∀ i ∈ K, (s.inode i).valid = true → (t.body i).type = (s.body i).type

variable {sb : Superblock} {T : Multiset ℕ} {s t u : FS} {i j k b : ℕ} {d : Dinode}

theorem Stays.refl : Stays T s s := ⟨fun _ _ h => h, fun _ _ _ => rfl⟩

theorem Stays.trans (h : Stays T s t) (h' : Stays T t u) : Stays T s u where
  valid := fun i hi hv => h'.valid i hi (h.valid i hi hv)
  type := fun i hi hv => (h'.type i hi (h.valid i hi hv)).trans (h.type i hi hv)

theorem Stays.mono {T' : Multiset ℕ} (h : Stays T s t) (hT : T' ⊆ T) : Stays T' s t where
  valid := fun i hi => h.valid i (hT hi)
  type := fun i hi => h.type i (hT hi)

theorem Stays.of_inode (h : ∀ i ∈ T, (s.inode i).valid = true →
    (t.inode i).valid = true ∧ (t.body i).type = (s.body i).type) : Stays T s t where
  valid := fun i hi hv => (h i hi hv).1
  type := fun i hi hv => (h i hi hv).2

namespace FS

theorem current_of_live (h : s.live i) : s.current i = s.body i := if_pos h

theorem current_of_not_live (h : ¬ s.live i) : s.current i = s.dinode i := if_neg h

@[simp] theorem live_setBody : (s.setBody i d).live j ↔ s.live j := by
  rcases eq_or_ne j i with rfl | hne
  · simp [live, setBody, setInode]
  · simp [live, setBody, setInode, update_of_ne hne]

@[simp] theorem body_setBody_self : (s.setBody i d).body i = d := by
  simp [body, setBody, setInode]

theorem body_setBody_ne (h : j ≠ i) : (s.setBody i d).body j = s.body j := by
  simp [body, setBody, setInode, update_of_ne h]

theorem current_setBody (h : s.live i) : (s.setBody i d).current = update s.current i d := by
  funext j
  rcases eq_or_ne j i with rfl | hne
  · rw [current_of_live (live_setBody.2 h), body_setBody_self, update_self]
  · rw [update_of_ne hne]
    simp only [current, live_setBody, body_setBody_ne hne]
    rfl

theorem current_setDinode (h : s.live i) : (s.setDinode i (s.body i)).current = s.current := by
  funext j
  rcases eq_or_ne j i with rfl | hne
  · exact (current_of_live (s := s.setDinode j (s.body j)) h).trans (current_of_live h).symm
  · have hd : (s.setDinode i (s.body i)).dinode j = s.dinode j := update_of_ne hne _ _
    simp only [current, hd]
    rfl

theorem view_eq (hi : i < sb.ninodes) : s.view sb i = nodeOf s.data (s.current i) := if_pos hi

theorem type_view (hi : i < sb.ninodes) : (s.view sb i).type = (s.current i).type := by
  rw [view_eq hi, nodeOf]
  split
  · rename_i h
    rw [h]
    rfl
  · rfl

theorem current_congr (hinode : t.inode i = s.inode i) (hdinode : t.dinode i = s.dinode i) :
    t.current i = s.current i := by
  have hlive : t.live i ↔ s.live i := by simp only [live, hinode]
  have hbody : t.body i = s.body i := by simp only [body, hinode]
  simp only [current, hlive, hbody, hdinode]

theorem slot_congr (hdata : t.data = s.data) (hcur : t.current = s.current) (x : ℕ × ℕ) :
    t.slot sb x = s.slot sb x := by
  simp only [slot, hdata, hcur]

theorem view_congr (hdata : t.data = s.data) (hcur : t.current i = s.current i) :
    t.view sb i = s.view sb i := by
  simp only [view, hdata, hcur]

end FS

theorem Blocks.congr (h : Blocks sb s) (hbit : t.bitmap = s.bitmap) (hdata : t.data = s.data)
    (hcur : t.current = s.current) : Blocks sb t where
  sane := h.sane
  owned := h.owned.congr hbit (FS.slot_congr hdata hcur)
  reserved := hbit ▸ h.reserved

/-- The conditions on what the disk shows do not depend on the inode table. -/
theorem Sound.image (h : Sound sb T s) {T' : Multiset ℕ} (hbit : t.bitmap = s.bitmap)
    (hdata : t.data = s.data) (hcur : t.current = s.current)
    (href : ∀ i, (t.inode i).ref = T'.count i) (hlt : ∀ i ∈ T', i < sb.ninodes)
    (htyped : ∀ i, t.live i → (t.body i).type ≠ .none)
    (hclean : ∀ i, t.live i → t.body i = t.dinode i) : Sound sb T' t where
  blocks := h.blocks.congr hbit hdata hcur
  filled := by
    rw [hdata, hcur]
    exact h.filled
  named := by
    intro i
    rw [FS.view_congr hdata (congrFun hcur i)]
    exact h.named i
  ref_eq := href
  lt := hlt
  typed := htyped
  clean := hclean

section Places

variable {data data' : ℕ → Block} {d d' : Dinode} {p : ℕ} {x : Byte}

theorem place_addrs (data : ℕ → Block) (h : k ≤ nDirect) : place data d k = d.addrs k := if_pos h

theorem place_indirect (hj : j < nIndirect) (hind : d.addrs nDirect ≠ 0) :
    place data d (nDirect + 1 + j) = word (data (d.addrs nDirect)) j := by
  have hk : ¬ nDirect + 1 + j ≤ nDirect := by omega
  have hsub : nDirect + 1 + j - (nDirect + 1) = j := by omega
  rw [place, if_neg hk, hsub, if_pos ⟨hj, hind⟩]

theorem place_congr (haddrs : d'.addrs = d.addrs)
    (hdata : d.addrs nDirect ≠ 0 → data' (d.addrs nDirect) = data (d.addrs nDirect)) :
    place data' d' k = place data d k := by
  simp only [place, haddrs]
  split
  · rfl
  · split
    · rename_i hind
      rw [hdata hind.2]
    · rfl

theorem setAddr_self : (d.setAddr k b).addrs k = b := by simp [Dinode.setAddr]

theorem setAddr_ne (h : j ≠ k) : (d.setAddr k b).addrs j = d.addrs j := update_of_ne h _ _

theorem place_setAddr_direct (hk : k < nDirect) :
    place data (d.setAddr k b) = update (place data d) k b := by
  have hind : (d.setAddr k b).addrs nDirect = d.addrs nDirect := setAddr_ne (by omega)
  funext l
  rcases eq_or_ne l k with rfl | hne
  · rw [place_addrs _ hk.le, update_self, setAddr_self]
  · have hl : (d.setAddr k b).addrs l = d.addrs l := setAddr_ne hne
    rw [update_of_ne hne]
    simp only [place, hl, hind]

theorem place_setAddr_indirect (h : d.addrs nDirect = 0) (hb : data b = zeros) :
    place data (d.setAddr nDirect b) = update (place data d) nDirect b := by
  have hind : (d.setAddr nDirect b).addrs nDirect = b := setAddr_self
  funext l
  rcases eq_or_ne l nDirect with rfl | hne
  · rw [place_addrs _ le_rfl, update_self, hind]
  · have hl : (d.setAddr nDirect b).addrs l = d.addrs l := setAddr_ne hne
    rw [update_of_ne hne]
    simp only [place, hl, hind, h, hb, word_zeros, ne_eq, not_true, and_false, if_false, ite_self]

theorem place_setWord (data : ℕ → Block) (hj : j < nIndirect) (hind : d.addrs nDirect ≠ 0) (hb : b < 2 ^ 32) :
    place (update data (d.addrs nDirect) (setWord (data (d.addrs nDirect)) j b)) d =
      update (place data d) (nDirect + 1 + j) b := by
  funext l
  rcases eq_or_ne l (nDirect + 1 + j) with rfl | hne
  · rw [place_indirect hj hind, update_self, update_self, word_setWord_self _ hb]
  · rw [update_of_ne hne]
    simp only [place, update_self]
    split
    · rfl
    · rename_i hl
      split
      · rw [word_setWord_ne _ (by omega)]
      · rfl

theorem byteAt_eq_some : byteAt data d p = some x ↔
    place data d (contentPlace (p / bSize)) ≠ 0 ∧
      data (place data d (contentPlace (p / bSize))) (p % bSize) = x := by
  rw [byteAt]
  split <;> simp_all

theorem byteAt_ne_none : byteAt data d p ≠ none ↔ place data d (contentPlace (p / bSize)) ≠ 0 := by
  rw [byteAt]
  split <;> simp_all

theorem byteAt_congr (hplace : place data' d' (contentPlace (p / bSize)) =
      place data d (contentPlace (p / bSize)))
    (hdata : place data d (contentPlace (p / bSize)) ≠ 0 →
      data' (place data d (contentPlace (p / bSize))) =
        data (place data d (contentPlace (p / bSize)))) :
    byteAt data' d' p = byteAt data d p := by
  rw [byteAt, byteAt, hplace]
  split
  · rfl
  · rename_i h
    rw [hdata h]

theorem entries_of_ne (h : d.type ≠ .dir) : entries data d = [] := if_neg h

theorem entries_congr (htype : d'.type = d.type) (hsize : d'.size = d.size)
    (hbyte : ∀ p < d.size, byteAt data' d' p = byteAt data d p) :
    entries data' d' = entries data d := by
  rw [entries, entries, htype, hsize]
  split
  · refine List.map_congr_left ?_
    intro k hk
    have hk := List.mem_range.1 hk
    have hend : direntSize * (k + 1) ≤ d.size := by
      calc direntSize * (k + 1) ≤ direntSize * (d.size / direntSize) := Nat.mul_le_mul_left _ hk
        _ ≤ d.size := Nat.mul_div_le _ _
    rw [entryAt, entryAt]
    congr 1
    refine List.map_congr_left ?_
    intro j hj
    have hj := List.mem_range.1 hj
    rw [hbyte _ (by rw [Nat.mul_add] at hend; omega)]
  · rfl

theorem nodeOf_congr (htype : d'.type = d.type) (hlink : d'.nlink = d.nlink)
    (hentries : entries data' d' = entries data d) : nodeOf data' d' = nodeOf data d := by
  rw [nodeOf, nodeOf, htype, hlink, hentries]

theorem contentPlace_ne : contentPlace k ≠ nDirect := by
  rw [contentPlace]
  split <;> omega

theorem byteAt_lt (h : byteAt data d p ≠ none) : p < maxFile * bSize := by
  have hplace := byteAt_ne_none.1 h
  by_contra hp
  have hbn : maxFile ≤ p / bSize := (Nat.le_div_iff_mul_le (by decide)).2 (by omega)
  have hmax : maxFile = nDirect + nIndirect := rfl
  have hcp : contentPlace (p / bSize) = p / bSize + 1 := if_neg (by omega)
  have hk : ¬ p / bSize + 1 ≤ nDirect := by omega
  have hj : ¬ p / bSize + 1 - (nDirect + 1) < nIndirect := by omega
  rw [hcp, place, if_neg hk, if_neg (fun hc => hj hc.1)] at hplace
  exact hplace rfl

end Places

end Xv6.FileSystem
