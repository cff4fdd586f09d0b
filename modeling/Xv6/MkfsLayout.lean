import Mathlib.Algebra.BigOperators.Group.Finset.Basic
import Mathlib.Data.List.GetD
import Mathlib.Order.Interval.Finset.Nat
import Xv6.MkfsAppends

/-!
# The image while it is built

Every inode in use holds the bytes that were appended to it, its blocks are those that the
bytes need, and the counter `freeblock` is the number of blocks in use.
-/

namespace Xv6.Mkfs

open ByteBlocks FileSystem Function PanicPrograms

variable {m m' : Image} {c c' : ℕ → List Byte} {i j k n a b z : ℕ} {L : List ℕ} {bs l : List Byte}

/-- The number of blocks of a file of `n` bytes, with the indirect block. -/
def fileBlocks (n : ℕ) : ℕ := (rangePlaces 0 n).card

/-- No file is too large, and the blocks of all of them fit onto the disk. -/
structure Fits (c : ℕ → List Byte) : Prop where
  small : ∀ i, (c i).length ≤ maxFile * bSize
  blocks : nmeta + ∑ i ∈ Finset.range room.ninodes, fileBlocks (c i).length ≤ fsSize

/-- The type of inode `i` when the next one is `freeinode`. -/
def kind (freeinode i : ℕ) : FileType :=
  if i = 0 ∨ freeinode ≤ i then .none else if i = rootIno then .dir else .file

/-- Inode `i` has the blocks for the bytes `l` and no others, and holds these bytes; the rest
of its last block is zero. -/
structure Holds (m : Image) (i : ℕ) (l : List Byte) : Prop where
  places : ∀ k, place m.data (m.dinode i) k ≠ 0 ↔ k ∈ rangePlaces 0 l.length
  bytes : ∀ p x, byteAt m.data (m.dinode i) p = some x → x = l.getD p 0

/-- The image with the inodes below `z` in use, and the content `c` of every inode. -/
structure Laid (z : ℕ) (m : Image) (c : ℕ → List Byte) : Prop where
  ready : Ready m
  room_le : z ≤ room.ninodes
  sb : m.sector 1 = storeSuperblock superblock
  blocks : Blocks room (m.hold rootIno (m.dinode rootIno) [])
  type : ∀ i < room.ninodes, (m.dinode i).type = kind z i
  size : ∀ i < room.ninodes, kind z i ≠ .none → (m.dinode i).size = (c i).length
  holds : ∀ i < room.ninodes, kind z i ≠ .none → Holds m i (c i)
  unused : ∀ i, kind z i = .none → c i = []
  small : ∀ i, (c i).length ≤ maxFile * bSize
  count : m.freeblock = nmeta + ∑ i ∈ Finset.range room.ninodes, fileBlocks (c i).length

theorem current_hold (hi : i < room.ninodes) (L : List ℕ) :
    (m.hold i (m.dinode i) L).current =
      fun j => if j < room.ninodes then m.dinode j else newDinode .none := by
  funext j
  rcases eq_or_ne j i with rfl | hne
  · rw [FS.current_of_live hold_live, hold_body, if_pos hi]
  · have hdead : ¬ (m.hold i (m.dinode i) L).live j := by simp [FS.live, Image.hold, hne]
    rw [FS.current_of_not_live hdead]
    rfl

theorem current_hold_eq (hi : i < room.ninodes) (hj : j < room.ninodes) (L : List ℕ) :
    (m.hold i (m.dinode i) L).current j = m.dinode j := by
  rw [current_hold hi]
  exact if_pos hj

theorem slot_hold (hi : i < room.ninodes) (L : List ℕ) (j k : ℕ) :
    (m.hold i (m.dinode i) L).slot room (j, k) =
      if j < room.ninodes ∧ (m.dinode j).type ≠ .none then place m.data (m.dinode j) k else 0 := by
  by_cases hj : j < room.ninodes
  · simp only [FS.slot, current_hold_eq hi hj]
    rfl
  · rw [FS.slot, if_neg (fun hc => hj hc.1), if_neg (fun hc => hj hc.1)]

theorem Laid.blocks_hold (h : Laid z m c) (hi : i < room.ninodes) (L : List ℕ) :
    Blocks room (m.hold i (m.dinode i) L) := by
  refine h.blocks.congr rfl rfl ?_
  rw [current_hold hi, current_hold (by decide)]

theorem mem_rangePlaces_add (a n : ℕ) :
    rangePlaces 0 (a + n) = rangePlaces 0 a ∪ rangePlaces a n := by
  ext k
  simp only [rangePlaces, Finset.mem_biUnion, Finset.mem_union, Finset.mem_range, Nat.zero_add]
  constructor
  · rintro ⟨q, hq, hk⟩
    rcases Nat.lt_or_ge q a with hlt | hge
    · exact .inl ⟨q, hlt, hk⟩
    · exact .inr ⟨q - a, by omega, by rwa [Nat.add_sub_cancel' hge]⟩
  · rintro (⟨q, hq, hk⟩ | ⟨q, hq, hk⟩)
    · exact ⟨q, by omega, hk⟩
    · exact ⟨a + q, by omega, hk⟩

theorem fileBlocks_le (h : a ≤ b) : fileBlocks a ≤ fileBlocks b := by
  obtain ⟨n, rfl⟩ := Nat.exists_eq_add_of_le h
  rw [fileBlocks, fileBlocks, mem_rangePlaces_add]
  exact Finset.card_le_card Finset.subset_union_left

theorem Holds.missing (h : Holds m i l) (L : List ℕ) (n : ℕ) :
    ((m.hold i (m.dinode i) L).missing i (rangePlaces l.length n)).card + fileBlocks l.length =
      fileBlocks (l.length + n) := by
  have hmissing : (m.hold i (m.dinode i) L).missing i (rangePlaces l.length n) =
      rangePlaces 0 (l.length + n) \ rangePlaces 0 l.length := by
    rw [mem_rangePlaces_add]
    ext k
    have hplace : place (m.hold i (m.dinode i) L).data ((m.hold i (m.dinode i) L).body i) k = 0 ↔
        k ∉ rangePlaces 0 l.length := by
      rw [hold_body, ← h.places, not_not]
      rfl
    simp only [FS.missing, Finset.mem_filter, hplace, Finset.mem_sdiff, Finset.mem_union]
    tauto
  rw [hmissing, fileBlocks, fileBlocks]
  refine Finset.card_sdiff_add_card_eq_card ?_
  rw [mem_rangePlaces_add]
  exact Finset.subset_union_left

theorem card_free_hold {d : Dinode} : ((m.hold i d L).free room).card = fsSize - m.freeblock := by
  have hfree : (m.hold i d L).free room = Finset.Ico m.freeblock fsSize := by
    ext b
    rw [FS.mem_free, Finset.mem_Ico, room_size]
    simp [Image.hold, and_comm]
  rw [hfree, Nat.card_Ico]

theorem sum_update (c : ℕ → List Byte) (hi : i < room.ninodes) (l : List Byte) :
    ∑ j ∈ Finset.range room.ninodes, fileBlocks (update c i l j).length +
        fileBlocks (c i).length =
      ∑ j ∈ Finset.range room.ninodes, fileBlocks (c j).length + fileBlocks l.length := by
  have hmem := Finset.mem_range.2 hi
  rw [← Finset.add_sum_erase _ _ hmem, ← Finset.add_sum_erase _ (fun j => fileBlocks (c j).length) hmem,
    update_self]
  have hrest : ∑ j ∈ (Finset.range room.ninodes).erase i, fileBlocks (update c i l j).length =
      ∑ j ∈ (Finset.range room.ninodes).erase i, fileBlocks (c j).length := by
    refine Finset.sum_congr rfl (fun j hj => ?_)
    rw [update_of_ne (Finset.ne_of_mem_erase hj)]
  rw [hrest]
  omega

section Append

variable {u : FS} {e : ℕ → ℕ} (h : Laid z m c) (hi : i < room.ninodes) (hkind : kind z i ≠ .none)
  (hx : Extended room i (fromKernel bs) (m.dinode i).size bs.length (m.hold i (m.dinode i) [])
    (m'.hold i (m'.dinode i) L) u e)

include hx hi

theorem type_appended : (m'.dinode i).type = (m.dinode i).type := by
  have hself := hx.wrote.current_self hold_live
  rw [current_hold_eq hi hi, hold_body] at hself
  rw [hself]
  rfl

include h

theorem holds_other (hj : j < room.ninodes) (hne : j ≠ i) (hjkind : kind z j ≠ .none) :
    m'.dinode j = m.dinode j ∧ Holds m' j (c j) := by
  have hjtype : ((m.hold i (m.dinode i) []).current j).type ≠ .none := by
    rwa [current_hold_eq hi hj, h.type j hj]
  obtain ⟨hcur, hbyte⟩ := hx.other hold_live hne hj hjtype
  have hplace := hx.filled.other j hne hj hjtype
  obtain ⟨e', he'⟩ := hx.copied.written.current hold_live
  rw [he', update_of_ne hne, ← hx.wrote.data] at hplace
  rw [current_hold_eq hi hj, current_hold_eq hi hj] at hcur hbyte
  rw [current_hold_eq hi hj] at hplace
  have hold := h.holds j hj hjkind
  refine ⟨hcur, fun k => ?_, fun p x hx => ?_⟩
  · rw [← hold.places k, hcur]
    exact Iff.of_eq (congrArg (· ≠ 0) (hplace k))
  · refine hold.bytes p x ?_
    rw [← hx]
    exact (congrFun hbyte p).symm

include hkind

theorem size_appended : (m'.dinode i).size = (c i ++ bs).length := by
  have hsize := hx.wrote.size hold_live
  rw [current_hold_eq hi hi, current_hold_eq hi hi, h.size i hi hkind] at hsize
  rw [hsize, List.length_append]
  omega

theorem places_appended (k : ℕ) :
    place m'.data (m'.dinode i) k ≠ 0 ↔ k ∈ rangePlaces 0 (c i ++ bs).length := by
  have hsize := h.size i hi hkind
  have hplace := hx.wrote.place_self hold_live k
  rw [current_hold_eq hi hi] at hplace
  replace hplace : place m'.data (m'.dinode i) k = place u.data (u.body i) k := hplace
  rw [hplace, List.length_append, mem_rangePlaces_add, Finset.mem_union, ← hsize]
  by_cases hk : k ∈ rangePlaces (m.dinode i).size bs.length
  · exact iff_of_true (hx.filled.present k hk) (.inr hk)
  · have hold := (h.holds i hi hkind).places k
    rw [← hsize] at hold
    rw [hx.filled.kept k (.inl hk), hold_body, or_iff_left hk]
    exact hold

theorem bytes_appended {p : ℕ} {x : Byte} (hbyte : byteAt m'.data (m'.dinode i) p = some x) :
    x = (c i ++ bs).getD p 0 := by
  have hsize := h.size i hi hkind
  have hold := h.holds i hi hkind
  have htype : ((m.hold i (m.dinode i) []).body i).type ≠ .none := by
    rwa [hold_body, h.type i hi]
  rw [← current_hold_eq hi hi L] at hbyte
  replace hbyte : byteAt (m'.hold i (m'.dinode i) L).data ((m'.hold i (m'.dinode i) L).current i) p =
    some x := hbyte
  by_cases hin : (m.dinode i).size ≤ p ∧ p < (m.dinode i).size + bs.length
  · -- A new byte.
    obtain ⟨q, rfl⟩ := Nat.exists_eq_add_of_le hin.1
    rw [(hx.wrote.byteAt_in hold_live (by omega)).2, fromKernel] at hbyte
    rw [hsize, List.getD_append_right _ _ _ _ (by omega), Nat.add_sub_cancel_left,
      List.getD_eq_getElem?_getD, hbyte, Option.getD_some]
  cases hy : byteAt (m.hold i (m.dinode i) []).data ((m.hold i (m.dinode i) []).current i) p with
  | some y =>
    have hout := hx.wrote.byteAt_out hold_live hx.copied.written hi htype hin
      (by rw [hy]; exact Option.some_ne_none y)
    rw [hbyte, hy] at hout
    rw [current_hold_eq hi hi] at hy
    rw [Option.some.inj hout, hold.bytes p y hy]
    rcases Nat.lt_or_ge p (c i).length with hlt | hge
    · rw [List.getD_append _ _ _ _ hlt]
    · rw [List.getD_eq_default _ _ hge, List.getD_eq_default _ _ (by rw [List.length_append]; omega)]
  | none =>
    have hge : (c i).length ≤ p := by
      by_contra hlt
      rw [current_hold_eq hi hi] at hy
      have hplace : contentPlace (p / bSize) ∈ rangePlaces 0 (c i).length := by
        refine Finset.mem_biUnion.2 ⟨p, Finset.mem_range.2 (not_le.1 hlt), ?_⟩
        rw [Nat.zero_add, blockPlaces]
        split
        · rename_i hdirect
          rw [contentPlace_direct hdirect]
          exact Finset.mem_singleton_self _
        · exact Finset.mem_insert_of_mem (Finset.mem_singleton_self _)
      exact byteAt_ne_none.2 ((hold.places _).2 hplace) hy
    rw [current_hold_eq hi hi, ← hold_body (m := m) (i := i) (d := m.dinode i) (L := [])] at hy
    rw [hx.wrote.byteAt_current hold_live] at hbyte
    rw [hx.blank p x hin hy hbyte, List.getD_eq_default]
    rw [List.length_append]
    omega

theorem freeblock_appended (hready : Ready m') :
    m'.freeblock = nmeta + ∑ j ∈ Finset.range room.ninodes,
      fileBlocks (update c i (c i ++ bs) j).length := by
  have hcount := hx.filled.count
  have hfree : u.free room = (m'.hold i (m'.dinode i) L).free room := by
    rw [FS.free, FS.free, hx.bitmap]
  have hmissing := (h.holds i hi hkind).missing [] bs.length
  have hsum := sum_update c hi (c i ++ bs)
  rw [hfree, card_free_hold, card_free_hold, h.size i hi hkind] at hcount
  rw [List.length_append] at hsum
  have hlow := h.ready.low
  have hhigh := h.ready.high
  have hhigh' := hready.high
  have hcount' := h.count
  omega

end Append

theorem Laid.append (h : Laid z m c) (hi : i < room.ninodes) (hkind : kind z i ≠ .none) :
    Ends (iappend i bs) m
      (fun _ m' => Laid z m' (update c i (c i ++ bs)) ∧ m'.freeinode = m.freeinode ∧
        ∀ b < nmeta, b ≠ superblock.iblock i → m'.sector b = m.sector b)
      (fun _ => ¬ Fits (update c i (c i ++ bs))) := by
  have htype : (m.dinode i).type ≠ .none := by rwa [h.type i hi]
  have hsize := h.size i hi hkind
  have hB := h.blocks_hold hi []
  have hmaxsize : maxFile * bSize = 274432 := rfl
  refine Ends.mono (iappend_tracks hi h.ready hB htype (by rw [hsize]; exact h.small i)) ?_ ?_
  · intro _ m' hkernel
    obtain ⟨_, t, hr, rfl, hwrote⟩ := hkernel.exists_ok
    obtain ⟨L', rfl⟩ := hwrote.state
    have hmax : (m.dinode i).size + bs.length ≤ maxFile * bSize := by
      by_contra hlarge
      have hrefused := (writei_refused (E := fun _ => False) (.inr (not_le.1 hlarge))).of_ok hr
      have := hrefused.1
      omega
    have hsrc : ∀ q < bs.length, fromKernel bs q ≠ none := by
      intro q hq
      rw [fromKernel, List.getElem?_eq_getElem hq]
      exact Option.some_ne_none _
    obtain ⟨u, e, hx⟩ := ((writei_extends (E := fun _ => False) hB hold_live hi (by rwa [hold_body])
      (by rw [hold_body]) (by omega) hmax hsrc).of_ok hr).1 rfl
    refine ⟨⟨hwrote.ready, h.room_le, ?_, ?_, ?_, ?_, ?_, ?_, ?_, ?_⟩, hwrote.freeinode,
      hwrote.sector⟩
    · have hne : 1 ≠ superblock.iblock i := by
        have hblock : superblock.iblock i = i / 16 + 32 := rfl
        omega
      rw [hwrote.sector 1 (by decide) hne, h.sb]
    · refine hx.wrote.blocks.congr rfl rfl ?_
      rw [current_hold hi, current_hold (by decide)]
    · intro j hj
      rcases eq_or_ne j i with rfl | hne
      · rw [type_appended hi hx, h.type j hj]
      · rw [hwrote.dinode j hj hne, h.type j hj]
    · intro j hj hjkind
      rcases eq_or_ne j i with rfl | hne
      · rw [update_self, size_appended h hj hjkind hx]
      · rw [update_of_ne hne, hwrote.dinode j hj hne, h.size j hj hjkind]
    · intro j hj hjkind
      rcases eq_or_ne j i with rfl | hne
      · rw [update_self]
        exact ⟨places_appended h hj hjkind hx, fun p x => bytes_appended h hj hjkind hx⟩
      · rw [update_of_ne hne]
        exact (holds_other h hi hx hj hne hjkind).2
    · intro j hjkind
      have hne : j ≠ i := by
        rintro rfl
        exact hkind hjkind
      rw [update_of_ne hne, h.unused j hjkind]
    · intro j
      rcases eq_or_ne j i with rfl | hne
      · rw [update_self, List.length_append, ← hsize]
        exact hmax
      · rw [update_of_ne hne]
        exact h.small j
    · exact freeblock_appended h hi hkind hx hwrote.ready
  · rintro _ hfail hfits
    rw [hsize] at hfail
    rcases hfail with hlarge | hfull
    · have hsmall := hfits.small i
      rw [update_self, List.length_append] at hsmall
      omega
    · refine hfull ?_
      have hmissing := (h.holds i hi hkind).missing [] bs.length
      have hsum := sum_update c hi (c i ++ bs)
      have hblocks := hfits.blocks
      have hcount := h.count
      rw [List.length_append] at hsum
      rw [card_free_hold]
      omega

end Xv6.Mkfs
