import Xv6.FileArrays
import Xv6.MkfsImage

/-!
# Finding a block of the image as the kernel does

While `mkfs` appends to an inode, the image is a state of the kernel, with that inode in the
table. The kernel's `balloc` takes the first free block, which is the next one of `mkfs`, and
finds it zero, so both find the same block for every position of the file.
-/

namespace Xv6.Mkfs

open ByteBlocks FileSystem Function PanicPrograms

variable {m m' : Image} {d : Dinode} {i j k b fbn : ℕ} {L : List ℕ}

/-- The superblock, with the inode numbers that fit into the inode blocks. -/
def room : Superblock := { superblock with ninodes := ninodeblocks * ipb }

/-- The image as the kernel would have it while it writes inode `i`, with `d` in the inode
table. -/
def Image.hold (m : Image) (i : ℕ) (d : Dinode) (L : List ℕ) : FS where
  bitmap := fun b => b < m.freeblock
  dinode := fun j => if j < room.ninodes then m.dinode j else newDinode .none
  data := m.data
  inode := fun j => if j = i then ⟨1, true, d⟩ else ⟨0, false, newDinode .none⟩
  active := 1
  logged := L

/-- What `mkfs` relies on: every sector was written, and those from `freeblock` on are zero. -/
structure Ready (m : Image) : Prop where
  length : m.length = fsSize
  low : nmeta ≤ m.freeblock
  high : m.freeblock ≤ fsSize
  blank : ∀ b, m.freeblock ≤ b → m.sector b = zeros

structure SameMeta (m m' : Image) : Prop where
  freeinode : m'.freeinode = m.freeinode
  sector : ∀ b < nmeta, m'.sector b = m.sector b

theorem SameMeta.refl : SameMeta m m := ⟨rfl, fun _ _ => rfl⟩

theorem SameMeta.trans {m'' : Image} (h : SameMeta m m') (h' : SameMeta m' m'') : SameMeta m m'' :=
  ⟨h'.freeinode.trans h.freeinode, fun b hb => (h'.sector b hb).trans (h.sector b hb)⟩

theorem room_size : room.size = fsSize := rfl

theorem room_dataStart : room.dataStart = nmeta := by decide

theorem iblock_lt (hj : j < room.ninodes) : superblock.iblock j < nmeta := by
  have hlt : j < 208 := hj
  have heq : superblock.iblock j = j / 16 + 32 := rfl
  have hmeta : nmeta = 46 := by decide
  omega

theorem SameMeta.dinode (h : SameMeta m m') (hj : j < room.ninodes) : m'.dinode j = m.dinode j := by
  rw [Image.dinode, Image.dinode, h.sector _ (iblock_lt hj)]

theorem hold_live : (m.hold i d L).live i := by simp [FS.live, Image.hold]

theorem hold_body : (m.hold i d L).body i = d := by simp [FS.body, Image.hold]

theorem hold_setBody {d' : Dinode} : (m.hold i d L).setBody i d' = m.hold i d' L := by
  have hinode : update (m.hold i d L).inode i ⟨1, true, d'⟩ = (m.hold i d' L).inode := by
    funext j
    rcases eq_or_ne j i with rfl | hne
    · simp [Image.hold]
    · simp [Image.hold, hne]
  have hself : (m.hold i d L).inode i = ⟨1, true, d⟩ := by simp [Image.hold]
  rw [FS.setBody, FS.setInode, hself, hinode]
  rfl

/-- The next block, as the kernel's `balloc` hands it out. -/
def Image.next (m : Image) : Image := { m with freeblock := m.freeblock + 1 }

theorem Ready.next (h : Ready m) (hlt : m.freeblock < fsSize) : Ready m.next where
  length := h.length
  low := by
    have := h.low
    simp only [Image.next]
    omega
  high := hlt
  blank := by
    intro b hb
    simp only [Image.next] at hb
    exact h.blank b (by omega)

theorem firstFree_lt {n a : ℕ} (hab : a ≤ b) (hbn : b < a + n) :
    firstFree (fun c => decide (c < b)) n a = some b := by
  induction n generalizing a with
  | zero => omega
  | succ n ih =>
    rw [firstFree]
    rcases hab.eq_or_lt with rfl | hlt
    · simp
    · simp only [hlt, decide_true, if_true]
      exact ih hlt (by omega)

theorem firstFree_all {n a : ℕ} (h : a + n ≤ b) : firstFree (fun c => decide (c < b)) n a = none := by
  induction n generalizing a with
  | zero => rfl
  | succ n ih =>
    have hlt : a < b := by omega
    rw [firstFree]
    simp only [hlt, decide_true, if_true]
    exact ih (by omega)

theorem hold_next (h : Ready m) (L L' : List ℕ) :
    ({ (m.hold i d L).setBit m.freeblock true with logged := L' } : FS).setBlock m.freeblock zeros =
      m.next.hold i d L' := by
  have hbit : update (fun b => decide (b < m.freeblock)) m.freeblock true =
      fun b => decide (b < m.freeblock + 1) := by
    funext b
    rcases eq_or_ne b m.freeblock with rfl | hne
    · simp
    · rw [update_of_ne hne]
      have hiff : b < m.freeblock ↔ b < m.freeblock + 1 := by omega
      simp only [hiff]
  have hdata : update m.data m.freeblock zeros = m.data := by
    refine update_eq_self_iff.2 ?_
    rw [Image.data, if_pos h.low, h.blank _ le_rfl]
  simp only [FS.setBit, FS.setBlock, Image.hold, hbit, hdata]
  rfl

theorem balloc_hold (h : Ready m) (L : List ℕ) :
    Ends (FileSystem.balloc room) (m.hold i d L) (fun a t =>
      m.freeblock < fsSize ∧ a = m.freeblock ∧ (∃ L', t = m.next.hold i d L') ∨
        fsSize ≤ m.freeblock ∧ a = 0 ∧ t = m.hold i d L) (fun _ => False) := by
  simp only [FileSystem.balloc, ends_bind, ends_get]
  rcases Nat.lt_or_ge m.freeblock fsSize with hlt | hge
  · have hfirst : firstFree (m.hold i d L).bitmap room.size 0 = some m.freeblock :=
      firstFree_lt (Nat.zero_le _) (by rw [room_size]; omega)
    rw [hfirst]
    simp only [bzero, logWrite, ends_bind, ends_modify, ends_pure]
    refine .inl ⟨hlt, trivial, L ++ [room.bblock m.freeblock] ++ [m.freeblock], ?_⟩
    have hnext := hold_next (i := i) (d := d) h L (L ++ [room.bblock m.freeblock])
    exact congrArg (fun s : FS => { s with logged := s.logged ++ [m.freeblock] }) hnext
  · have hfirst : firstFree (m.hold i d L).bitmap room.size 0 = none :=
      firstFree_all (by rw [room_size]; omega)
    rw [hfirst]
    exact .inr ⟨hge, rfl, rfl⟩

theorem Ready.pos (h : Ready m) : m.freeblock ≠ 0 := by
  have hmeta : nmeta = 46 := by decide
  have := h.low
  omega

/-- What a step of `mkfs` that finds a block and the kernel's step have in common: the same
block, in the image and at the kernel; or the kernel has run out of blocks. -/
def Alike (i : ℕ) (m : Image) (d : Dinode) (x : ℕ) (m' : Image) (a : ℕ) (t : FS) : Prop :=
  (x < fsSize ∧ x ≠ 0 ∧ a = x ∧ (∃ L, t = m'.hold i d L) ∧ Ready m' ∧ SameMeta m m') ∨
    (fsSize ≤ x ∧ a = 0 ∧ m'.length = fsSize)

theorem orNext_tracks (h : Ready m) (haddr : d.addrs k ≠ 0 → d.addrs k < fsSize) :
    Tracks (orNext (d.addrs k)) m (orAlloc room (d.addrs k)
      (fun b => modify (fun s => s.setBody i ((s.body i).setAddr k b)))) (m.hold i d L)
      (fun x m' a t => Alike i m (d.setAddr k x) x m' a t) (fun _ => False) := by
  rw [Tracks, orNext, orAlloc]
  split
  · rename_i hne
    have hself : d.setAddr k (d.addrs k) = d := by
      rw [Dinode.setAddr, update_eq_self]
    exact .inl ⟨haddr hne, hne, rfl, ⟨L, by rw [hself]⟩, h, .refl⟩
  · simp only [ends_bind, ends_get, ends_modify, ends_pure]
    refine (balloc_hold h L).imp ?_
    rintro a t (⟨hlt, rfl, L', rfl⟩ | ⟨hge, rfl, rfl⟩)
    · rw [if_pos h.pos, ends_bind, ends_modify, ends_pure, hold_body, hold_setBody]
      exact .inl ⟨hlt, h.pos, rfl, ⟨L', rfl⟩, h.next hlt, rfl, fun _ _ => rfl⟩
    · exact .inr ⟨hge, rfl, h.length⟩

theorem hold_setBlock {x : Block} (hlow : nmeta ≤ b) (L' : List ℕ) :
    { (m.hold i d L).setBlock b x with logged := L' } = (m.write b x).hold i d L' := by
  have hdata : update m.data b x = (m.write b x).data := by
    funext c
    rcases eq_or_ne c b with rfl | hne
    · simp [Image.data, Image.write, hlow]
    · simp [Image.data, Image.write, hne]
  have hdinode : (m.hold i d L).dinode = ((m.write b x).hold i d L').dinode := by
    funext j
    simp only [Image.hold]
    split
    · rename_i hj
      have hne : superblock.iblock j ≠ b := by
        have := iblock_lt hj
        omega
      simp only [Image.dinode, Image.write, update_of_ne hne]
    · rfl
  have hfields : { (m.hold i d L).setBlock b x with logged := L' } =
      { bitmap := (m.hold i d L).bitmap
        dinode := ((m.write b x).hold i d L').dinode
        data := (m.write b x).data
        inode := (m.hold i d L).inode
        active := 1
        logged := L' : FS } := by
    rw [← hdinode, ← hdata]
    rfl
  exact hfields

theorem Ready.write {x : Block} (h : Ready m) (hlt : b < m.freeblock) (hsize : b < fsSize) :
    Ready (m.write b x) where
  length := by
    simp only [Image.write, h.length]
    omega
  low := h.low
  high := h.high
  blank := by
    intro c hc
    have hge : m.freeblock ≤ c := hc
    simp only [Image.write]
    rw [update_of_ne (by omega), h.blank c hge]

theorem SameMeta.write {x : Block} (hlow : nmeta ≤ b) : SameMeta m (m.write b x) where
  freeinode := rfl
  sector := by
    intro c hc
    simp only [Image.write]
    rw [update_of_ne (by omega)]

theorem word_tracks (h : Ready m) {ind : ℕ} (hlow : nmeta ≤ ind) (hind : ind < m.freeblock)
    (hsize : ind < fsSize)
    (hword : word (m.sector ind) k ≠ 0 → word (m.sector ind) k < fsSize) :
    Tracks (if word (m.sector ind) k = 0 then do
        let x ← orNext 0
        wsect ind (setWord (m.sector ind) k x)
        pure (d, x)
      else pure (d, word (m.sector ind) k)) m
      (orAlloc room (word (m.data ind) k) (fun b => do
        modify (fun s => s.setBlock ind (setWord (s.data ind) k b))
        logWrite ind)) (m.hold i d L)
      (fun r m' a t => Alike i m r.1 r.2 m' a t ∧ r.1 = d) (fun _ => False) := by
  have hdata : m.data ind = m.sector ind := if_pos hlow
  rw [Tracks, hdata, orAlloc, orNext]
  split
  · rename_i hzero
    rw [if_neg (not_not.2 hzero)]
    simp only [ne_eq, not_true, if_false, wsect, ends_bind, ends_get, ends_modify, ends_pure]
    refine (balloc_hold h L).imp ?_
    rintro a t (⟨hlt, rfl, L', rfl⟩ | ⟨hge, rfl, rfl⟩)
    · rw [if_pos h.pos]
      simp only [logWrite, ends_bind, ends_modify, ends_pure]
      have hset := hold_setBlock (m := m.next) (i := i) (d := d) (L := L')
        (x := setWord (m.sector ind) k m.freeblock) hlow (L' ++ [ind])
      refine ⟨.inl ⟨hlt, h.pos, rfl, ⟨L' ++ [ind], ?_⟩, ?_, ?_⟩, trivial⟩
      · refine Eq.trans ?_ hset
        rw [← hdata]
        rfl
      · exact (h.next hlt).write (by simp only [Image.next]; omega) hsize
      · exact (show SameMeta m m.next from ⟨rfl, fun _ _ => rfl⟩).trans (SameMeta.write hlow)
    · refine ⟨.inr ⟨hge, rfl, ?_⟩, trivial⟩
      simp only [Image.write, h.length]
      omega
  · rename_i hne
    exact ⟨.inl ⟨hword hne, hne, rfl, ⟨L, rfl⟩, h, .refl⟩, rfl⟩

section Append

variable (h : Ready m) (hB : Blocks room (m.hold i d L)) (hi : i < room.ninodes)
  (htype : d.type ≠ .none)

include hB hi htype

theorem place_range (hne : place m.data d k ≠ 0) :
    nmeta ≤ place m.data d k ∧ place m.data d k < fsSize ∧ place m.data d k < m.freeblock := by
  have hslot : (m.hold i d L).slot room (i, k) = place m.data d k := by
    rw [FS.slot_of_live hold_live hi (by rwa [hold_body]), hold_body]
    rfl
  have hrange := hB.owned.range (i, k) (by rwa [hslot])
  have hbit := hB.owned.bit_slot (x := (i, k)) (by rwa [hslot])
  rw [hslot, room_dataStart, room_size] at hrange
  rw [hslot] at hbit
  exact ⟨hrange.1, hrange.2, of_decide_eq_true hbit⟩

include h

/-- `mkfs` and the kernel find the same block. Where `mkfs` reads beyond the end of the image,
the kernel has no block. -/
theorem mapBlock_tracks (hfbn : fbn < maxFile) :
    Tracks (mapBlock d fbn) m (bmap room i fbn) (m.hold i d L)
      (fun r m' a t => Alike i m r.1 r.2 m' a t)
      (fun _ => Ends (bmap room i fbn) (m.hold i d L) (fun a _ => a = 0) (fun _ => False)) := by
  have hmax : maxFile = nDirect + nIndirect := rfl
  have haddr : ∀ k ≤ nDirect, d.addrs k ≠ 0 → d.addrs k < fsSize := by
    intro k hk hne
    rw [← place_addrs m.data hk] at hne ⊢
    exact (place_range hB hi htype hne).2.1
  rw [Tracks, mapBlock]
  split
  · rename_i hdirect
    simp only [bmap, ends_bind, ends_get, hold_body, ends_pure]
    rw [if_pos hdirect]
    exact Ends.mono (orNext_tracks h (haddr _ hdirect.le)) (fun _ _ h => h) (fun _ h => h.elim)
  · rename_i hdirect
    have hj : fbn - nDirect < nIndirect := by omega
    rw [ends_bind]
    refine Ends.mono (orNext_tracks (i := i) (L := L) h (haddr _ le_rfl)) ?_ (fun _ h => h.elim)
    intro ind m' hn
    obtain ⟨a, t, hr, halike⟩ := hn.exists_ok
    -- The kernel goes on from its own first step.
    have hkernel : ∀ {Q : ℕ → FS → Prop}, Ends (if a = 0 then pure 0 else do
          let s ← get
          orAlloc room (word (s.data a) (fbn - nDirect)) (fun b => do
            modify (fun s => s.setBlock a (setWord (s.data a) (fbn - nDirect) b))
            logWrite a)) t Q (fun _ => False) →
        Ends (bmap room i fbn) (m.hold i d L) Q (fun _ => False) := by
      intro Q hQ
      simp only [bmap, ends_bind, ends_get, hold_body]
      rw [if_neg hdirect, if_pos hj, ends_bind]
      exact ends_of_ok hr hQ
    simp only [rsect, ends_bind, ends_get]
    rcases halike with ⟨hlt, hne, rfl, ⟨L', rfl⟩, hready, hmeta⟩ | ⟨hge, rfl, hlen⟩
    · have hB' : Blocks room (m'.hold i (d.setAddr nDirect a) L') := by
        have hgrows := addr_grows (E := fun _ => False) (W := fun _ => True) hB hold_live hi
          (by rwa [hold_body]) (le_refl nDirect)
        rw [hold_body] at hgrows
        exact (hgrows.of_ok hr).1.blocks
      have hself : (d.setAddr nDirect a).addrs nDirect = a := setAddr_self
      have hplace : place m'.data (d.setAddr nDirect a) nDirect = a := by
        rw [place_addrs _ le_rfl, hself]
      obtain ⟨hlow, -, hfree⟩ := place_range (k := nDirect) hB' hi htype (by rwa [hplace])
      rw [hplace] at hlow hfree
      have hdata : m'.data a = m'.sector a := if_pos hlow
      have hword : word (m'.sector a) (fbn - nDirect) ≠ 0 → word (m'.sector a) (fbn - nDirect) < fsSize := by
        intro hw
        have hentry : place m'.data (d.setAddr nDirect a) (nDirect + 1 + (fbn - nDirect)) =
            word (m'.sector a) (fbn - nDirect) := by
          rw [place_indirect hj (by rwa [hself]), hself, hdata]
        rw [← hentry] at hw ⊢
        exact (place_range hB' hi htype hw).2.1
      rw [if_pos (by rw [hready.length]; exact hlt), ends_pure]
      have hlast := word_tracks (i := i) (d := d.setAddr nDirect a) (L := L') hready hlow hfree hlt hword
      refine Ends.mono hlast ?_ (fun _ h => h.elim)
      rintro r m'' hr'
      refine hkernel ?_
      rw [if_neg hne]
      simp only [ends_bind, ends_get]
      refine Ends.mono hr' ?_ (fun _ h => h)
      rintro b u ⟨⟨hlt', hne', rfl, hL, hready', hmeta'⟩ | hfull, -⟩
      · exact .inl ⟨hlt', hne', rfl, hL, hready', hmeta.trans hmeta'⟩
      · exact .inr hfull
    · rw [if_neg (by rw [hlen]; omega), ends_throw]
      exact hkernel rfl

end Append

end Xv6.Mkfs
