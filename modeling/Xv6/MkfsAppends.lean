import Xv6.MkfsBlocks

/-!
# Appending as the kernel writes

`iappend` of `mkfs` does to the image what `writei` of the kernel does to a disk with the
same blocks in use.
-/

namespace Xv6.Mkfs

open ByteBlocks FileSystem Function PanicPrograms

variable {m m' : Image} {d : Dinode} {i j k b off fbn tot fuel : ℕ} {L : List ℕ} {p bs : List Byte}

theorem orNext_fits (hd : Packed d) (hk : k ≤ nDirect) (hlen : m.length = fsSize) :
    Ends (orNext (d.addrs k)) m
      (fun x m' => m'.length = fsSize ∧ (x < fsSize → Packed (d.setAddr k x))) (fun _ => True) := by
  have hsize : fsSize < 2 ^ 32 := by decide
  rw [orNext]
  refine ends_ite (fun _ => ⟨hlen, fun hlt => hd.setAddr hk (by omega)⟩) (fun _ => ?_)
  simp only [ends_bind, ends_get, ends_modify, ends_pure]
  exact ⟨hlen, fun hlt => hd.setAddr hk (by omega)⟩

theorem mapBlock_packed (hd : Packed d) (hlen : m.length = fsSize) :
    Ends (mapBlock d fbn) m (fun r _ => r.2 < fsSize → Packed r.1) (fun _ => True) := by
  rw [mapBlock]
  refine ends_ite ?_ ?_
  · intro hdirect
    simp only [ends_bind, ends_pure]
    exact (orNext_fits hd hdirect.le hlen).mono (fun _ _ h => h.2) (fun _ h => h)
  · intro _
    simp only [ends_bind]
    refine (orNext_fits hd le_rfl hlen).imp ?_
    rintro ind m' ⟨hlen', hpacked⟩
    simp only [rsect, ends_bind, ends_get]
    split
    · rename_i hlt
      rw [hlen'] at hlt
      rw [ends_pure]
      split
      · simp only [orNext, ne_eq, not_true, if_false, wsect, ends_bind, ends_get, ends_modify, ends_pure]
        exact fun _ => hpacked hlt
      · exact fun _ => hpacked hlt
    · trivial

theorem copyin_fromKernel {n : ℕ} (hn : n ≤ (bs.drop tot).length) :
    copyin (fromKernel bs) tot n = (bs.drop tot).take n := by
  have hsome : ∀ q < n, fromKernel bs (tot + q) = some ((bs.drop tot).getD q 0) := by
    intro q hq
    rw [fromKernel, List.getD_eq_getElem?_getD, List.getElem?_drop,
      List.getElem?_eq_getElem (by simp at hn; omega), Option.getD_some]
  have hlen : (copyin (fromKernel bs) tot n).length = n := by
    refine le_antisymm (length_copyin_le _ _ _) (not_lt.1 ?_)
    intro hshort
    have hstop := copyin_stop hshort
    rw [hsome _ hshort] at hstop
    cases hstop
  refine List.ext_getElem (by rw [hlen, List.length_take]; omega) ?_
  intro q hq hq'
  have hget := copyin_getD hq
  rw [hsome q (by omega)] at hget
  have hdrop : q < (bs.drop tot).length := by omega
  rw [List.getElem_take]
  simpa [List.getD_eq_getElem?_getD, List.getElem?_eq_getElem hq,
    List.getElem?_eq_getElem hdrop] using hget.symm

/-- What the loop of `iappend` and that of the kernel end with. -/
structure Appended (i : ℕ) (m : Image) (d d' : Dinode) (m' : Image) (t : FS) : Prop where
  state : ∃ L, t = m'.hold i d' L
  ready : Ready m'
  same : SameMeta m m'
  packed : Packed d'
  addrs : ∃ a, d' = { d with addrs := a }

theorem not_enough_of_zero (hB : Blocks room (m.hold i d L)) (hi : i < room.ninodes)
    (htype : d.type ≠ .none) (hfbn : fbn < maxFile) {P : Finset ℕ} (hP : blockPlaces fbn ⊆ P)
    (hzero : Ends (bmap room i fbn) (m.hold i d L) (fun a _ => a = 0) (fun _ => False)) :
    ¬ ((m.hold i d L).missing i P).card ≤ ((m.hold i d L).free room).card := by
  intro hfree
  obtain ⟨a, t, hr, ha⟩ := hzero.exists_ok
  have hmap := (bmap_ends (E := fun _ => False) hB hold_live hi (by rwa [hold_body]) hfbn).of_ok hr
  exact hmap.grows.enough ((FS.card_missing_mono hP).trans hfree) ha

/-- The block that `mkfs` writes in a turn of its loop, and what the kernel has after the same
turn. -/
theorem hold_turn {d' : Dinode} {L' : List ℕ} {a : ℕ}
    (h : Mapped room i (off / bSize) (m.hold i d L) a (m'.hold i d' L')) (hi : i < room.ninodes)
    (htype : d.type ≠ .none) (hne : a ≠ 0) (bs : List Byte) :
    (∃ c, d' = { d with addrs := c }) ∧ nmeta ≤ a ∧ a < m'.freeblock ∧
      Spliced room i off bs.length (m.hold i d L)
        ((m'.write a (splice (m'.sector a) (off % bSize) bs)).hold i d' (L' ++ [a])) := by
  obtain ⟨c, hd'⟩ := h.written.body_self
  rw [hold_body, hold_body] at hd'
  have htype' : d'.type ≠ .none := by rwa [hd']
  have hplace : place m'.data d' (contentPlace (off / bSize)) = a := by
    have haddr := h.addr hne
    rwa [hold_body] at haddr
  obtain ⟨hlow, -, hfree⟩ := place_range (k := contentPlace (off / bSize)) h.written.blocks hi htype'
    (by rwa [hplace])
  rw [hplace] at hlow hfree
  refine ⟨⟨c, hd'⟩, hlow, hfree, ?_⟩
  have hdata : m'.data a = m'.sector a := if_pos hlow
  rw [← hold_setBlock hlow, ← hdata]
  exact h.splice bs _ hold_live hi (by rwa [hold_body]) hne

theorem writeiLoop_turn {sb : Superblock} {s t : FS} {src : ℕ → Option Byte} {a n : ℕ} {Q : ℕ × ℕ → FS → Prop}
    {E : Panic → Prop} (hr : bmap sb i (off / bSize) s = .ok (a, t)) (hne : a ≠ 0) (hn : n ≠ 0)
    (hlen : (copyin src tot (min n (bSize - off % bSize))).length = min n (bSize - off % bSize))
    (h : Ends (writeiLoop sb i src fuel (off + min n (bSize - off % bSize)) (n - min n (bSize - off % bSize))
      (tot + min n (bSize - off % bSize))) { t.setBlock a (splice (t.data a) (off % bSize)
        (copyin src tot (min n (bSize - off % bSize)))) with logged := t.logged ++ [a] } Q E) :
    Ends (writeiLoop sb i src (fuel + 1) off n tot) s Q E := by
  rw [writeiLoop, if_neg hn, ends_bind]
  refine ends_of_ok hr ?_
  rw [if_neg hne]
  simp only [ends_bind, ends_modify]
  rw [if_neg (by omega)]
  exact h

theorem iappendLoop_tracks (h : Ready m) (hB : Blocks room (m.hold i d L)) (hi : i < room.ninodes)
    (htype : d.type ≠ .none) (off tot : ℕ) (hd : Packed d) (hp : p = bs.drop tot) (hfuel : p.length ≤ fuel) :
    Tracks (iappendLoop fuel d off p) m
      (writeiLoop room i (fromKernel bs) fuel off p.length tot) (m.hold i d L)
      (fun r m' r' t => r.2 = off + p.length ∧ r' = (r.2, tot + p.length) ∧ Appended i m d r.1 m' t)
      (fun _ => maxFile * bSize < off + p.length ∨
        ¬ ((m.hold i d L).missing i (rangePlaces off p.length)).card ≤
          ((m.hold i d L).free room).card) := by
  induction fuel generalizing m d off p tot L with
  | zero =>
    have hzero : p.length = 0 := by omega
    rw [Tracks, iappendLoop, writeiLoop, hzero]
    exact ⟨rfl, rfl, ⟨L, rfl⟩, h, .refl, hd, d.addrs, rfl⟩
  | succ fuel ih =>
    rw [Tracks, iappendLoop]
    by_cases hzero : p.length = 0
    · rw [if_pos hzero, writeiLoop, if_pos hzero, hzero]
      exact ⟨rfl, rfl, ⟨L, rfl⟩, h, .refl, hd, d.addrs, rfl⟩
    rw [if_neg hzero]
    have hb : bSize = 1024 := rfl
    have hmod : off % bSize < bSize := Nat.mod_lt _ (by decide)
    refine ends_ite ?_ ?_
    · intro hmax
      rw [ends_throw]
      have hle : maxFile * bSize ≤ off := (Nat.le_div_iff_mul_le (by decide)).1 hmax
      exact .inl (by omega)
    intro hmax
    have hfbn : off / bSize < maxFile := not_le.1 hmax
    have hrange := rangePlaces_turn off (Nat.pos_of_ne_zero hzero) rfl
    have hsub : blockPlaces (off / bSize) ⊆ rangePlaces off p.length := by
      rw [hrange]
      exact Finset.subset_union_left
    have hn : min p.length ((off / bSize + 1) * bSize - off) = min p.length (bSize - off % bSize) := by
      rw [hb]
      omega
    have ho : off - off / bSize * bSize = off % bSize := by
      rw [hb]
      omega
    rw [ends_bind, hn, ho]
    refine Ends.mono ((mapBlock_tracks h hB hi htype hfbn).also (mapBlock_packed hd h.length)) ?_
      (fun _ hfull => .inr (not_enough_of_zero hB hi htype hfbn hsub hfull))
    rintro ⟨d', x⟩ m' ⟨hbmap, hpacked⟩
    obtain ⟨a, t, hr, halike⟩ := hbmap.exists_ok
    replace halike : Alike i m d' x m' a t := halike
    replace hpacked : x < fsSize → Packed d' := hpacked
    simp only [rsect, wsect, ends_bind, ends_get, ends_modify]
    rcases halike with ⟨hlt, hne, rfl, ⟨L', rfl⟩, hready, hmeta⟩ | ⟨hge, rfl, hlen⟩
    · have hmap := (bmap_ends (E := fun _ => False) hB hold_live hi (by rwa [hold_body]) hfbn).of_ok hr
      have hcopy : copyin (fromKernel bs) tot (min p.length (bSize - off % bSize)) =
          p.take (min p.length (bSize - off % bSize)) := by
        rw [hp]
        exact copyin_fromKernel (min_le_left _ _)
      have hrest : (p.drop (min p.length (bSize - off % bSize))).length =
          p.length - min p.length (bSize - off % bSize) := List.length_drop
      have hdrop : p.drop (min p.length (bSize - off % bSize)) =
          bs.drop (tot + min p.length (bSize - off % bSize)) := by
        rw [← List.drop_drop, ← hp]
      obtain ⟨⟨_, hd'⟩, hlow, hfree, hspliced⟩ := hold_turn hmap hi htype hne
        (p.take (min p.length (bSize - off % bSize)))
      have htype' : d'.type ≠ .none := by rwa [hd']
      rw [if_pos (by rw [hready.length]; exact hlt), ends_pure]
      refine Ends.mono (ih (hready.write hfree hlt) hspliced.written.blocks htype' _ _ (hpacked hlt) hdrop
        (by rw [hrest]; omega)) ?_ ?_
      · intro r m'' hkernel
        have hdata : m'.data a = m'.sector a := if_pos hlow
        rw [← hold_setBlock hlow, hrest, ← hcopy, ← hdata] at hkernel
        refine writeiLoop_turn hr hne hzero ?_ (hkernel.imp ?_)
        · rw [hcopy, List.length_take]
          omega
        rintro r' t ⟨hoff, rfl, hstate, hready', hsame, hpacked', c, hc⟩
        refine ⟨by omega, Prod.ext rfl (by dsimp only; omega), hstate, hready', ?_, hpacked', c, ?_⟩
        · exact hmeta.trans ((SameMeta.write hlow).trans hsame)
        · rw [hc, hd']
      · rintro _ (hlarge | hno)
        · rw [hrest] at hlarge
          exact .inl (by omega)
        · refine .inr (fun hfree => hno ?_)
          rw [hrest]
          rw [hrange] at hfree
          exact hspliced.filled.enough hfree
    · have hge : ¬ x < m'.length := by
        rw [hlen]
        exact not_lt.2 hge
      rw [if_neg hge, ends_throw]
      exact .inr (not_enough_of_zero hB hi htype hfbn hsub (ends_of_ok hr rfl))

theorem iappendLoop_le (hfuel : p.length ≤ fuel) :
    Ends (iappendLoop fuel d off p) m (fun _ _ => p.length = 0 ∨ off + p.length ≤ maxFile * bSize)
      (fun _ => True) := by
  induction fuel generalizing m d off p with
  | zero => exact .inl (by omega)
  | succ fuel ih =>
    rw [iappendLoop]
    refine ends_ite (fun hzero => .inl hzero) (fun hzero => ends_ite (fun _ => trivial) (fun hmax => ?_))
    have hb : bSize = 1024 := rfl
    have hturn : off + min p.length ((off / bSize + 1) * bSize - off) ≤ maxFile * bSize := by
      have hle : (off / bSize + 1) * bSize ≤ maxFile * bSize := Nat.mul_le_mul_right _ (by omega)
      have hoff : off ≤ (off / bSize + 1) * bSize := by
        rw [hb]
        omega
      omega
    have hpos : 0 < (off / bSize + 1) * bSize - off := by
      rw [hb]
      omega
    rw [ends_bind]
    refine (show Ends (mapBlock d (off / bSize)) m (fun _ _ => True) (fun _ => True) from ?_).mono ?_
      (fun _ h => h)
    · rw [Ends]
      split <;> trivial
    rintro ⟨d', x⟩ m' -
    simp only [rsect, wsect, ends_bind, ends_get, ends_modify]
    refine ends_ite (fun _ => ?_) (fun _ => trivial)
    rw [ends_pure]
    refine (ih (by rw [List.length_drop]; omega)).imp ?_
    intro _ _ hrest
    rw [List.length_drop] at hrest
    exact .inr (by omega)

def Image.setInode (m : Image) (i : ℕ) (d : Dinode) : Image :=
  m.write (superblock.iblock i) (storeDinode (m.sector (superblock.iblock i)) (i % ipb) d)

theorem dinode_setInode (hd : Packed d) (j : ℕ) :
    (m.setInode i d).dinode j = if j = i then d else m.dinode j := by
  have hipb : ipb = 16 := rfl
  have hblock : ∀ k, superblock.iblock k = k / 16 + 32 := fun _ => rfl
  simp only [Image.dinode, Image.setInode, Image.write]
  split
  · rename_i heq
    rw [heq, update_self, decodeDinode_storeDinode hd]
  · rename_i hne
    by_cases hsame : superblock.iblock j = superblock.iblock i
    · have hslot : j % ipb ≠ i % ipb := by
        rw [hblock, hblock] at hsame
        rw [hipb]
        omega
      rw [hsame, update_self, decodeDinode_storeDinode_ne hslot]
    · rw [update_of_ne hsame]

theorem data_setInode (hi : i < room.ninodes) : (m.setInode i d).data = m.data := by
  funext b
  simp only [Image.data, Image.setInode, Image.write]
  split
  · rename_i hb
    have hne : b ≠ superblock.iblock i := by
      have := iblock_lt hi
      omega
    rw [update_of_ne hne]
  · rfl

theorem Ready.setInode (h : Ready m) (hi : i < room.ninodes) : Ready (m.setInode i d) := by
  have hlt := iblock_lt hi
  have hmeta : nmeta < fsSize := by decide
  exact h.write (by have := h.low; omega) (by omega)

theorem Ready.iblock_lt (h : Ready m) (hi : i < room.ninodes) : superblock.iblock i < m.length := by
  have hlt := Mkfs.iblock_lt hi
  have hmeta : nmeta < fsSize := by decide
  rw [h.length]
  omega

theorem rsect_ends {E : Failure → Prop} {sec : ℕ} (hlen : sec < m.length) :
    Ends (rsect sec) m (fun x m' => x = m.sector sec ∧ m' = m) E := by
  simp only [rsect, ends_bind, ends_get]
  rw [if_pos hlen]
  exact ⟨rfl, rfl⟩

theorem winode_ends {E : Failure → Prop} (hlen : superblock.iblock i < m.length) :
    Ends (winode i d) m (fun _ m' => m' = m.setInode i d) E := by
  rw [winode]
  refine (rsect_ends hlen).bind ?_
  rintro _ m ⟨rfl, rfl⟩
  rfl

theorem rinode_ends {E : Failure → Prop} (hlen : superblock.iblock i < m.length) :
    Ends (rinode i) m (fun d m' => d = m.dinode i ∧ m' = m) E := by
  rw [rinode]
  refine (rsect_ends hlen).bind ?_
  rintro _ m ⟨rfl, rfl⟩
  exact ⟨rfl, rfl⟩

theorem hold_setDinode (hd : Packed d) (hi : i < room.ninodes) (L' : List ℕ) :
    { (m.hold i d L).setDinode i d with logged := L' } = (m.setInode i d).hold i d L' := by
  have hdinode : update (m.hold i d L).dinode i d = ((m.setInode i d).hold i d L').dinode := by
    funext j
    simp only [Image.hold]
    rcases eq_or_ne j i with rfl | hne
    · rw [update_self, if_pos hi, dinode_setInode hd, if_pos rfl]
    · rw [update_of_ne hne]
      split
      · rw [dinode_setInode hd, if_neg hne]
      · rfl
  have hfields : { (m.hold i d L).setDinode i d with logged := L' } =
      { bitmap := (m.hold i d L).bitmap
        dinode := update (m.hold i d L).dinode i d
        data := m.data
        inode := (m.hold i d L).inode
        active := 1
        logged := L' : FS } := rfl
  rw [hfields, hdinode, ← data_setInode (d := d) hi]
  rfl

/-- What `iappend` leaves, when the kernel's `writei` leaves `t`. -/
structure Wrote (i : ℕ) (m m' : Image) (t : FS) : Prop where
  state : ∃ L, t = m'.hold i (m'.dinode i) L
  ready : Ready m'
  freeinode : m'.freeinode = m.freeinode
  sector : ∀ b < nmeta, b ≠ superblock.iblock i → m'.sector b = m.sector b
  dinode : ∀ j < room.ninodes, j ≠ i → m'.dinode j = m.dinode j

theorem wrote_setInode {m₀ : Image} (h : Ready m) (hi : i < room.ninodes) (hd : Packed d)
    (hsame : SameMeta m₀ m) :
    Wrote i m₀ (m.setInode i d) { (m.hold i d L).setDinode i d with logged := L } := by
  rw [hold_setDinode hd hi]
  refine ⟨⟨L, ?_⟩, h.setInode hi, hsame.freeinode, ?_, ?_⟩
  · rw [dinode_setInode hd, if_pos rfl]
  · intro b hb hne
    simp only [Image.setInode, Image.write]
    rw [update_of_ne hne, hsame.sector b hb]
  · intro j hj hne
    rw [dinode_setInode hd, if_neg hne, hsame.dinode hj]

/-- `iappend` is the kernel's `writei` at the end of the file. It fails where the file gets too
large or the disk too small. -/
theorem iappend_tracks (hi : i < room.ninodes) (h : Ready m)
    (hB : Blocks room (m.hold i (m.dinode i) L))
    (htype : (m.dinode i).type ≠ .none) (hsize : (m.dinode i).size ≤ maxFile * bSize) :
    Tracks (iappend i bs) m (writei room i (fromKernel bs) (m.dinode i).size bs.length)
      (m.hold i (m.dinode i) L) (fun _ m' r t => r = bs.length ∧ Wrote i m m' t)
      (fun _ => maxFile * bSize < (m.dinode i).size + bs.length ∨
        ¬ ((m.hold i (m.dinode i) L).missing i (rangePlaces (m.dinode i).size bs.length)).card ≤
          ((m.hold i (m.dinode i) L).free room).card) := by
  have hmaxsize : maxFile * bSize = 274432 := rfl
  rw [Tracks, iappend]
  refine (rinode_ends (h.iblock_lt hi)).bind ?_
  rintro _ m ⟨rfl, rfl⟩
  rw [ends_bind]
  have hloop := iappendLoop_tracks (p := bs) h hB hi htype (m.dinode i).size 0
    (packed_decodeDinode _ _) List.drop_zero.symm le_rfl
  refine Ends.mono (hloop.also (iappendLoop_le le_rfl)) ?_ (fun _ h => h)
  rintro ⟨d', off'⟩ m' ⟨hkernel, hle⟩
  obtain ⟨r, t, hr, hoff, rfl, ⟨L', rfl⟩, hready, hsame, hpacked, a, ha⟩ := hkernel.exists_ok
  replace hoff : off' = (m.dinode i).size + bs.length := hoff
  have hle' : (m.dinode i).size + bs.length ≤ maxFile * bSize := by
    rcases hle with hzero | hle
    · rw [hzero]
      exact hsize
    · exact hle
  have hwrote := wrote_setInode (L := L' ++ [room.iblock i]) hready hi
    (hpacked.resize (n := off') (by omega)) hsame
  refine (winode_ends (hready.iblock_lt hi)).imp ?_
  rintro _ _ rfl
  simp only [writei, ends_bind, ends_get, hold_body]
  rw [if_neg (by rw [Nat.mod_eq_of_lt (by omega)]; omega), if_neg (by omega), ends_bind]
  refine ends_of_ok hr ?_
  have hbody : (if ((m'.hold i d' L').body i).size < off' then
      (m'.hold i d' L').setBody i { (m'.hold i d' L').body i with size := off' }
      else m'.hold i d' L') = m'.hold i { d' with size := off' } L' := by
    rw [hold_body, hold_setBody]
    split
    · rfl
    · rename_i hge
      have hkept : d'.size = (m.dinode i).size := by rw [show d' = _ from ha]
      rw [show off' = d'.size by omega]
  simp only [iupdate, logWrite, ends_bind, ends_modify, ends_pure]
  rw [hbody, hold_body]
  exact ⟨by simp, hwrote⟩

end Xv6.Mkfs
