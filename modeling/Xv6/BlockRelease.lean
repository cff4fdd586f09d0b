import Xv6.BlockAllocation

/-!
# Releasing the blocks of an inode

`itrunc` frees every block of an inode and no other. The indirect block still holds the
numbers of the blocks freed while it is read, so during its second loop the slots are
those of the inode before the loop, without the entries already done.
-/

namespace Xv6.FileSystem

open ByteBlocks Function PanicPrograms SlotOwnership

variable {sb : Superblock} {s t u : FS} {i j k b : ℕ} {E : Panic → Prop}

theorem bfree_ends (hb : s.bitmap b = true) :
    Ends (bfree sb b) s (fun _ t => ∃ L,
      t = { s with bitmap := update s.bitmap b false, logged := L }) E := by
  simp only [bfree, ends_bind, ends_get, hb, Bool.true_eq_false, if_false, logWrite, ends_modify]
  exact ⟨_, rfl⟩

/-- Inode `i` has the block addresses `a` in the table; besides it, only the bitmap has
changed. -/
structure Shrunk (sb : Superblock) (i : ℕ) (a : ℕ → ℕ) (s t : FS) : Prop where
  inode : t.inode = (s.setBody i { s.body i with addrs := a }).inode
  dinode : t.dinode = s.dinode
  data : t.data = s.data
  reserved : ∀ b < sb.dataStart, t.bitmap b = true

theorem Shrunk.body {a : ℕ → ℕ} (h : Shrunk sb i a s t) : t.body i = { s.body i with addrs := a } := by
  simp only [FS.body, h.inode]
  exact FS.body_setBody_self

theorem Shrunk.live {a : ℕ → ℕ} (h : Shrunk sb i a s t) : t.live j ↔ s.live j := by
  rw [← FS.live_setBody (s := s) (i := i) (d := { s.body i with addrs := a })]
  simp only [FS.live, h.inode]

theorem Shrunk.trans {a a' : ℕ → ℕ} (h : Shrunk sb i a s t) (h' : Shrunk sb i a' t u) :
    Shrunk sb i a' s u where
  inode := by
    rw [h'.inode]
    simp only [FS.setBody, FS.setInode, h.inode, FS.body]
    simp [update_idem]
  dinode := h'.dinode.trans h.dinode
  data := h'.data.trans h.data
  reserved := h'.reserved

theorem Blocks.reserved_free (h : Blocks sb s) (hb : sb.dataStart ≤ b) {c : ℕ}
    (hc : c < sb.dataStart) : update s.bitmap b false c = true := by
  rw [update_of_ne (by omega)]
  exact h.reserved c hc

theorem truncDirect_ends (hB : Blocks sb s) (hl : s.live i) (hi : i < sb.ninodes)
    (htype : (s.body i).type ≠ .none) (hk : k < nDirect) :
    Ends (truncDirect sb i k) s (fun _ t => Blocks sb t ∧
      Shrunk sb i ((s.body i).setAddr k 0).addrs s t) E := by
  have hself := FS.current_of_live hl
  have hslot : s.slot sb (i, k) = (s.body i).addrs k := by
    rw [FS.slot_eq hi (by rwa [hself]), hself, place_addrs _ hk.le]
  simp only [truncDirect, ends_bind, ends_get]
  refine ends_ite ?_ ?_
  · intro hne
    rw [← hslot] at hne
    have hstart := (hB.owned.range _ hne).1
    rw [ends_bind, ← hslot]
    refine (bfree_ends (hB.owned.bit_slot hne)).imp ?_
    rintro _ t ⟨L, rfl⟩
    rw [ends_modify]
    set t : FS := { s with bitmap := update s.bitmap (s.slot sb (i, k)) false, logged := L }
      with ht
    have hlt : t.live i := hl
    have hcur : (t.setBody i ((t.body i).setAddr k 0)).current =
        update s.current i ((s.body i).setAddr k 0) := by
      rw [FS.current_setBody hlt]
      rfl
    have hnew : ∀ x, (t.setBody i ((t.body i).setAddr k 0)).slot sb x =
        update (s.slot sb) (i, k) 0 x := by
      rintro ⟨j, l⟩
      rw [FS.slot_update hcur hi htype (fun _ _ _ _ _ => rfl)]
      split
      · rename_i heq
        obtain rfl : j = i := heq
        change place s.data _ _ = _
        rw [place_setAddr_direct hk]
        rcases eq_or_ne l k with rfl | hlk
        · rw [update_self, update_self]
        · rw [update_of_ne hlk, update_of_ne (by simp [hlk]),
            FS.slot_eq hi (by rwa [hself]), hself]
      · rename_i hji
        have hx : (j, l) ≠ (i, k) := fun h => hji (congrArg Prod.fst h)
        rw [update_of_ne hx]
    have hres : ∀ c < sb.dataStart, t.bitmap c = true := fun c hc => hB.reserved_free hstart hc
    exact ⟨⟨hB.sane, (hB.owned.release hB.sane.dataStart_pos hne).congr rfl hnew, hres⟩,
      ⟨rfl, rfl, rfl, hres⟩⟩
  · intro hzero
    refine ⟨hB, ?_, rfl, rfl, hB.reserved⟩
    have haddr : ((s.body i).setAddr k 0).addrs = (s.body i).addrs := by
      simp only [Dinode.setAddr]
      rw [← not_not.1 hzero, update_eq_self]
    rw [haddr]
    simp [FS.setBody, FS.setInode, FS.body]

theorem truncDirects_ends (hB : Blocks sb s) (hl : s.live i) (hi : i < sb.ninodes)
    (htype : (s.body i).type ≠ .none) :
    Ends ((List.range nDirect).forM (truncDirect sb i)) s (fun _ t => Blocks sb t ∧
      ∃ a, Shrunk sb i a s t ∧ (∀ k < nDirect, a k = 0) ∧
        a nDirect = (s.body i).addrs nDirect) E := by
  -- `rest` are the slots still to do.
  refine (ends_forM (E := E) (fun rest t => Blocks sb t ∧ (∀ k ∈ rest, k < nDirect) ∧
    ∃ a, Shrunk sb i a s t ∧ (∀ k < nDirect, k ∉ rest → a k = 0) ∧
      a nDirect = (s.body i).addrs nDirect) (List.range nDirect) ?_ ?_).imp ?_
  · refine ⟨hB, fun k hk => List.mem_range.1 hk, (s.body i).addrs, ⟨?_, rfl, rfl, hB.reserved⟩,
      fun k hk hnot => absurd (List.mem_range.2 hk) hnot, rfl⟩
    simp [FS.setBody, FS.setInode, FS.body]
  · rintro k rest t ⟨hBt, hrest, a, hst, hdone, hind⟩
    have hk : k < nDirect := hrest k List.mem_cons_self
    have hbody := hst.body
    refine (truncDirect_ends hBt (hst.live.2 hl) hi (by rwa [hbody]) hk).imp ?_
    rintro _ u ⟨hBu, htu⟩
    refine ⟨hBu, fun l hl => hrest l (List.mem_cons_of_mem _ hl), _, hst.trans htu, ?_, ?_⟩
    · intro l hl hnot
      rcases eq_or_ne l k with rfl | hne
      · exact setAddr_self
      · rw [setAddr_ne hne, hbody]
        exact hdone l hl (by simp [hne, hnot])
    · rw [setAddr_ne (by omega), hbody]
      exact hind
  · rintro _ t ⟨hBt, -, a, hst, hdone, hind⟩
    exact ⟨hBt, a, hst, fun k hk => hdone k hk (List.not_mem_nil), hind⟩

/-- The slots without the entries of the indirect block of `i` that are not in `rest`. -/
def without (slot : ℕ × ℕ → ℕ) (i : ℕ) (rest : List ℕ) (x : ℕ × ℕ) : ℕ :=
  if x.1 = i ∧ nDirect < x.2 ∧ x.2 - (nDirect + 1) ∉ rest then 0 else slot x

theorem without_cons {slot : ℕ × ℕ → ℕ} {rest : List ℕ} (hj : j ∉ rest) :
    without slot i rest = update (without slot i (j :: rest)) (i, nDirect + 1 + j) 0 := by
  funext x
  obtain ⟨c, l⟩ := x
  rcases eq_or_ne (c, l) (i, nDirect + 1 + j) with heq | hne
  · obtain ⟨rfl, rfl⟩ := Prod.mk.inj heq
    have hsub : nDirect + 1 + j - (nDirect + 1) = j := by omega
    rw [update_self, without, if_pos ⟨rfl, by omega, by rwa [hsub]⟩]
  · rw [update_of_ne hne]
    simp only [without, List.mem_cons]
    refine if_congr ?_ rfl rfl
    constructor
    · rintro ⟨rfl, hl, hnot⟩
      refine ⟨rfl, hl, ?_⟩
      rintro (rfl | hmem)
      · exact hne (by rw [Nat.add_sub_cancel' hl])
      · exact hnot hmem
    · rintro ⟨rfl, hl, hnot⟩
      exact ⟨rfl, hl, fun hmem => hnot (.inr hmem)⟩

theorem truncIndirects_ends (hB : Blocks sb s) (hl : s.live i) (hi : i < sb.ninodes)
    (htype : (s.body i).type ≠ .none) (hind : (s.body i).addrs nDirect ≠ 0) :
    Ends ((List.range nIndirect).forM (truncIndirect sb ((s.body i).addrs nDirect))) s
      (fun _ t => ∃ bm L, t = { s with bitmap := bm, logged := L } ∧
        (∀ b < sb.dataStart, bm b = true) ∧
        Owned sb.dataStart sb.size bm (without (s.slot sb) i [])) E := by
  have hself := FS.current_of_live hl
  have hentry : ∀ j < nIndirect, s.slot sb (i, nDirect + 1 + j) =
      word (s.data ((s.body i).addrs nDirect)) j := by
    intro j hj
    rw [FS.slot_eq hi (by rwa [hself]), hself, place_indirect hj hind]
  refine (ends_forM (E := E) (fun rest t => rest.Nodup ∧ (∀ j ∈ rest, j < nIndirect) ∧
    ∃ bm L, t = { s with bitmap := bm, logged := L } ∧ (∀ b < sb.dataStart, bm b = true) ∧
      Owned sb.dataStart sb.size bm (without (s.slot sb) i rest))
    (List.range nIndirect) ?_ ?_).imp ?_
  · refine ⟨List.nodup_range, fun j hj => List.mem_range.1 hj, s.bitmap, s.logged, rfl, hB.reserved, ?_⟩
    refine hB.owned.congr rfl ?_
    rintro ⟨c, l⟩
    rw [without]
    split
    · -- Beyond the last entry there is no block.
      rename_i hx
      obtain ⟨rfl, hl, hnot⟩ := hx
      rw [List.mem_range] at hnot
      rw [FS.slot_eq hi (by rwa [hself]), place, if_neg (by omega), if_neg (fun hc => hnot hc.1)]
    · rfl
  · rintro j rest t ⟨hnodup, hrest, bm, L, rfl, hres, hown⟩
    have hj := hrest j List.mem_cons_self
    obtain ⟨hnot, hnodup'⟩ := List.nodup_cons.1 hnodup
    have hrest' : ∀ l ∈ rest, l < nIndirect := fun l hl => hrest l (List.mem_cons_of_mem _ hl)
    have hslot : without (s.slot sb) i (j :: rest) (i, nDirect + 1 + j) =
        word (s.data ((s.body i).addrs nDirect)) j := by
      have hsub : nDirect + 1 + j - (nDirect + 1) = j := by omega
      rw [without, if_neg (by simp [hsub]), hentry j hj]
    simp only [truncIndirect, ends_bind, ends_get]
    rw [← hslot]
    refine ends_ite ?_ ?_
    · intro hne
      have hstart := (hown.range _ hne).1
      refine (bfree_ends (hown.bit_slot hne)).imp ?_
      rintro _ t ⟨L', rfl⟩
      refine ⟨hnodup', hrest', _, L', rfl, ?_, ?_⟩
      · intro c hc
        rw [update_of_ne (by omega)]
        exact hres c hc
      · rw [without_cons hnot]
        exact hown.release hB.sane.dataStart_pos hne
    · intro hzero
      refine ⟨hnodup', hrest', bm, L, rfl, hres, ?_⟩
      rw [without_cons hnot, ← not_not.1 hzero, update_eq_self]
      exact hown
  · rintro _ t ⟨-, -, h⟩
    exact h

/-- What `itrunc` leaves: an inode without content, in the table and on the disk. -/
structure Truncated (sb : Superblock) (i : ℕ) (s t : FS) : Prop where
  blocks : Blocks sb t
  data : t.data = s.data
  inode : ∃ a, (∀ k ≤ nDirect, a k = 0) ∧
    t.inode = (s.setBody i { s.body i with addrs := a, size := 0 }).inode ∧
    t.dinode = update s.dinode i { s.body i with addrs := a, size := 0 }

theorem place_zero {data : ℕ → Block} {d : Dinode} (h : ∀ k ≤ nDirect, d.addrs k = 0) :
    place data d k = 0 := by
  rw [place]
  split
  · exact h k ‹_›
  · exact if_neg (fun hc => hc.2 (h nDirect le_rfl))

theorem itruncEnd_ends {a : ℕ → ℕ} (hB : Blocks sb t) (hst : Shrunk sb i a s t) (hl : s.live i)
    (hzero : ∀ k ≤ nDirect, a k = 0) :
    Ends (do
      modify (fun s => s.setBody i { s.body i with size := 0 })
      iupdate sb i) t (fun _ u => Truncated sb i s u) E := by
  simp only [iupdate, logWrite, ends_bind, ends_modify]
  have hbody := hst.body
  have hlt : t.live i := hst.live.2 hl
  have hlu : (t.setBody i { t.body i with size := 0 }).live i := FS.live_setBody.2 hlt
  have hcur := (FS.current_setDinode hlu).trans (FS.current_setBody hlt)
  refine ⟨⟨hB.sane, hB.owned.congr rfl ?_, hB.reserved⟩, hst.data, a, hzero, ?_, ?_⟩
  · rintro ⟨j, l⟩
    refine (FS.slot_congr (s := (t.setBody i { t.body i with size := 0 }).setDinode i
      ((t.setBody i { t.body i with size := 0 }).body i)) rfl rfl _).trans ?_
    rw [FS.slot, hcur, FS.slot]
    rcases eq_or_ne j i with rfl | hne
    · rw [update_self, FS.current_of_live hlt]
      rfl
    · rw [update_of_ne hne]
      rfl
  · change (t.setBody i { t.body i with size := 0 }).inode = _
    rw [hbody]
    simp only [FS.setBody, FS.setInode, hst.inode]
    simp [update_idem]
  · change update t.dinode i _ = _
    rw [FS.body_setBody_self, hst.dinode, hbody]

theorem itrunc_ends (hB : Blocks sb s) (hl : s.live i) (hi : i < sb.ninodes)
    (htype : (s.body i).type ≠ .none) : Ends (itrunc sb i) s (fun _ t => Truncated sb i s t) E := by
  simp only [itrunc, ends_bind, ends_get]
  refine (truncDirects_ends hB hl hi htype).imp ?_
  rintro _ t ⟨hBt, a, hst, hdone, hind⟩
  have hbody := hst.body
  have hlt : t.live i := hst.live.2 hl
  have htt : (t.body i).type ≠ .none := by rwa [hbody]
  refine ends_ite ?_ ?_
  · intro hne
    refine (truncIndirects_ends hBt hlt hi htt hne).bind ?_
    rintro _ u ⟨bm, L, rfl, hres, hown⟩
    have hself := FS.current_of_live hlt
    have hslot : without (t.slot sb) i [] (i, nDirect) = (t.body i).addrs nDirect := by
      rw [without, if_neg (by simp), FS.slot_eq hi (by rwa [hself]), hself, place_addrs _ le_rfl]
    have hslot0 : without (t.slot sb) i [] (i, nDirect) ≠ 0 := by rwa [hslot]
    have hstart := (hown.range _ hslot0).1
    rw [ends_bind, ← hslot]
    refine (bfree_ends (hown.bit_slot hslot0)).imp ?_
    rintro _ v ⟨L', rfl⟩
    rw [ends_bind, ends_modify]
    set v : FS := { t with
      bitmap := update bm (without (t.slot sb) i [] (i, nDirect)) false, logged := L' }
    have hcur : (v.setBody i ((v.body i).setAddr nDirect 0)).current =
        update t.current i ((t.body i).setAddr nDirect 0) := by
      rw [FS.current_setBody (s := v) hlt]
      rfl
    have hall : ∀ k ≤ nDirect, ((t.body i).setAddr nDirect 0).addrs k = 0 := by
      intro k hk
      rcases hk.lt_or_eq with hlt | rfl
      · rw [setAddr_ne hlt.ne, hbody]
        exact hdone k hlt
      · exact setAddr_self
    have hres' : ∀ c < sb.dataStart, v.bitmap c = true := by
      intro c hc
      exact (update_of_ne (by omega) _ _).trans (hres c hc)
    have hnew : ∀ x, (v.setBody i ((v.body i).setAddr nDirect 0)).slot sb x =
        update (without (t.slot sb) i []) (i, nDirect) 0 x := by
      rintro ⟨j, l⟩
      rw [FS.slot_update hcur hi htt (fun _ _ _ _ _ => rfl)]
      split
      · rename_i heq
        obtain rfl : j = i := heq
        rw [place_zero hall]
        rcases lt_trichotomy l nDirect with hlow | rfl | hhigh
        · rw [update_of_ne (by simp [hlow.ne]), without, if_neg (by simp; omega),
            FS.slot_eq hi (by rwa [hself]), hself, place_addrs _ hlow.le, hbody]
          exact (hdone l hlow).symm
        · rw [update_self]
        · rw [update_of_ne (by simp [hhigh.ne']), without, if_pos ⟨rfl, hhigh, by simp⟩]
      · rename_i hne
        have hx : (j, l) ≠ (i, nDirect) := fun h => hne (congrArg Prod.fst h)
        rw [update_of_ne hx, without, if_neg (fun h => hne h.1)]
    exact itruncEnd_ends
      ⟨hB.sane, (hown.release hB.sane.dataStart_pos hslot0).congr rfl hnew, hres'⟩
      (hst.trans ⟨rfl, rfl, rfl, hres'⟩) hl hall
  · intro hzero
    refine itruncEnd_ends hBt hst hl ?_
    intro k hk
    rcases hk.lt_or_eq with hlt | rfl
    · exact hdone k hlt
    · rw [hbody] at hzero
      exact not_not.1 hzero

end Xv6.FileSystem
