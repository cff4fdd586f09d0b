import Xv6.MkfsRuns

/-!
# The finished image

After the last file the size of the root directory is rounded up and the bitmap is written.
The image at the end: the root directory has an entry for every file, every file has the
bytes that were read from it, and the bitmap marks the blocks below `freeblock`.
-/

namespace Xv6.Mkfs

open ByteBlocks FileSystem Function PanicPrograms SlotOwnership

variable {m : Image} {c : ℕ → List Byte} {i j k b p z : ℕ} {l : List Byte} {x : Byte}
  {files : List Input} {E : Failure → Prop}

def Image.finalRoot (m : Image) : Dinode :=
  { m.dinode rootIno with size := ((m.dinode rootIno).size / bSize + 1) * bSize }

def Image.finished (m : Image) : Image :=
  (m.setInode rootIno m.finalRoot).write superblock.bmapstart (bitmapBlock m.freeblock)

/-- The image at the end, with the inodes below `z` in use and the content `c`. -/
structure Built (z : ℕ) (m : Image) (c : ℕ → List Byte) : Prop where
  sb : readsb (m.sector 1) = (fsMagic, superblock)
  blocks : Blocks room (m.hold rootIno (m.dinode rootIno) [])
  type : ∀ i < room.ninodes, (m.dinode i).type = kind z i
  size : ∀ i < room.ninodes, kind z i = .file → (m.dinode i).size = (c i).length
  rootSize : (m.dinode rootIno).size = ((c rootIno).length / bSize + 1) * bSize
  holds : ∀ i < room.ninodes, kind z i ≠ .none → Holds m i (c i)
  small : ∀ i, (c i).length ≤ maxFile * bSize
  bitmap : ∀ b < fsSize, m.mounted.bitmap b = decide (b < m.freeblock)

theorem root_lt : rootIno < room.ninodes := by decide

theorem Laid.root_size (h : Laid z m c) (hz : 2 ≤ z) :
    (m.dinode rootIno).size = (c rootIno).length := by
  refine h.size rootIno root_lt ?_
  rw [kind_root hz]
  decide

theorem Laid.packed_finalRoot (h : Laid z m c) (hz : 2 ≤ z) : Packed m.finalRoot := by
  have hsize := h.root_size hz
  refine (packed_decodeDinode _ _).resize ?_
  have hsmall := h.small rootIno
  have hmax : maxFile * bSize = 274432 := rfl
  have hb : bSize = 1024 := rfl
  rw [hsize, hb]
  omega

theorem data_finished : m.finished.data = m.data := by
  have hroot : (m.setInode rootIno m.finalRoot).data = m.data := data_setInode root_lt
  rw [← hroot, Image.finished]
  funext b
  simp only [Image.data]
  split
  · rename_i hb
    refine Image.sector_write_ne ?_
    rintro rfl
    exact absurd hb (by decide)
  · rfl

theorem freeblock_finished : m.finished.freeblock = m.freeblock := rfl

theorem iblock_ne_bmapstart (hj : j < room.ninodes) : superblock.iblock j ≠ superblock.bmapstart := by
  have hlt : j < 208 := hj
  have heq : superblock.iblock j = j / 16 + 32 := rfl
  have hmap : superblock.bmapstart = 45 := by decide
  omega

theorem dinode_finished (hd : Packed m.finalRoot) (hj : j < room.ninodes) :
    m.finished.dinode j = if j = rootIno then m.finalRoot else m.dinode j := by
  rw [← dinode_setInode hd j, Image.dinode, Image.finished, Image.sector_write_ne (iblock_ne_bmapstart hj)]
  rfl

theorem addrs_finished (hd : Packed m.finalRoot) (hj : j < room.ninodes) :
    (m.finished.dinode j).addrs = (m.dinode j).addrs := by
  rw [dinode_finished hd hj]
  split
  · rename_i heq
    rw [heq]
    rfl
  · rfl

theorem type_finished (hd : Packed m.finalRoot) (hj : j < room.ninodes) :
    (m.finished.dinode j).type = (m.dinode j).type := by
  rw [dinode_finished hd hj]
  split
  · rename_i heq
    rw [heq]
    rfl
  · rfl

theorem place_finished (hd : Packed m.finalRoot) (hj : j < room.ninodes) (k : ℕ) :
    place m.finished.data (m.finished.dinode j) k = place m.data (m.dinode j) k := by
  rw [place, place, data_finished, addrs_finished hd hj]

theorem Holds.finished (h : Holds m j l) (hd : Packed m.finalRoot) (hj : j < room.ninodes) :
    Holds m.finished j l where
  places := fun k => by rw [place_finished hd hj, h.places]
  bytes := by
    intro p x hbyte
    rw [byteAt, place_finished hd hj, data_finished] at hbyte
    exact h.bytes p x hbyte

theorem blocks_finished (hd : Packed m.finalRoot)
    (h : Blocks room (m.hold rootIno (m.dinode rootIno) [])) :
    Blocks room (m.finished.hold rootIno (m.finished.dinode rootIno) []) := by
  have hslot : (m.finished.hold rootIno (m.finished.dinode rootIno) []).slot room =
      (m.hold rootIno (m.dinode rootIno) []).slot room := by
    funext x
    rw [slot_hold root_lt, slot_hold root_lt]
    by_cases hx : x.1 < room.ninodes
    · rw [type_finished hd hx, place_finished hd hx]
    · rw [if_neg (fun hc => hx hc.1), if_neg (fun hc => hx hc.1)]
  have hbit : (m.finished.hold rootIno (m.finished.dinode rootIno) []).bitmap =
      (m.hold rootIno (m.dinode rootIno) []).bitmap := by
    rw [Image.hold, Image.hold, freeblock_finished]
  exact ⟨h.sane, by rw [hslot, hbit]; exact h.owned, by rw [hbit]; exact h.reserved⟩

theorem bitmap_finished (hb : b < fsSize) :
    m.finished.mounted.bitmap b = decide (b < m.finished.freeblock) := by
  have hsize : fsSize = 2000 := rfl
  have hblock : superblock.bblock b = superblock.bmapstart := by
    have heq : superblock.bblock b = b / 8192 + superblock.bmapstart := rfl
    omega
  have hmod : b % bpb = b := by
    have hbpb : bpb = 8192 := rfl
    rw [hbpb]
    omega
  change testBit (m.finished.sector (superblock.bblock b)) (b % bpb) = _
  rw [freeblock_finished, hblock, hmod, Image.finished, Image.sector_write_self, testBit_bitmapBlock]

theorem Laid.finished (h : Laid z m c) (hz : 2 ≤ z) : Built z m.finished c := by
  have hd := h.packed_finalRoot hz
  have hroot := h.root_size hz
  refine ⟨?_, blocks_finished hd h.blocks, ?_, ?_, ?_, ?_, h.small, fun b hb => bitmap_finished hb⟩
  · have hone : m.finished.sector 1 = m.sector 1 := by
      rw [Image.finished, Image.sector_write_ne (by decide), Image.setInode,
        Image.sector_write_ne (by decide)]
    rw [hone, h.sb, readsb_storeSuperblock]
  · intro i hi
    rw [type_finished hd hi, h.type i hi]
  · intro i hi hkind
    have hne : i ≠ rootIno := by
      rintro rfl
      rw [kind_root hz] at hkind
      cases hkind
    rw [dinode_finished hd hi, if_neg hne]
    refine h.size i hi ?_
    rw [hkind]
    decide
  · rw [dinode_finished hd root_lt, if_pos rfl, Image.finalRoot, hroot]
  · intro i hi hkind
    exact (h.holds i hi hkind).finished hd hi

theorem finish_ends (h : Laid z m c) :
    Ends (do fixRoot; let m ← get; balloc m.freeblock) m (fun _ m' => m' = m.finished) E := by
  have hhigh := h.ready.high
  have hfs : fsSize < bSize * 8 := by decide
  simp only [fixRoot, ends_bind]
  refine (rinode_ends (h.ready.iblock_lt root_lt)).imp ?_
  rintro _ m ⟨rfl, rfl⟩
  refine (winode_ends (h.ready.iblock_lt root_lt)).imp ?_
  rintro _ _ rfl
  rw [ends_get, balloc]
  refine ends_ite ?_ ?_
  · intro hge
    exact absurd (lt_of_le_of_lt hhigh hfs) (not_lt.2 hge)
  · intro _
    exact rfl

theorem contents_nil : contents [] = update (fun _ => []) rootIno
    (encodeDirent rootIno dot ++ encodeDirent rootIno dotdot) := by
  funext i
  rcases eq_or_ne i rootIno with rfl | hne
  · rw [contents_root, update_self]
    rfl
  · rw [update_of_ne hne, contents, if_neg hne]
    split <;> rfl

theorem main_start {Q : Unit → Image → Prop}
    (hfiles : ∀ m, Laid 2 m (contents []) → m.freeinode = 2 →
      Ends (do files.forM addFile; fixRoot; let m ← get; balloc m.freeblock) m Q E)
    (hfail : ∀ e, ¬ Fits (contents []) → E e) : Ends (main files) start Q E := by
  have hdir : kind 2 rootIno = .dir := kind_root le_rfl
  have hkind : kind 2 rootIno ≠ .none := by
    rw [hdir]
    decide
  have hone : formatted.freeinode < room.ninodes := by decide
  have hroot : Laid 2 (formatted.addInode .dir) (fun _ => []) :=
    laid_formatted.addInode hone hdir.symm
  have halloc : Ends (ialloc .dir) formatted
      (fun i m' => i = rootIno ∧ m' = formatted.addInode .dir) E :=
    ialloc_ends (laid_formatted.ready.iblock_lt hone)
  unfold main
  rw [zero_bind, ends_bind, wsect, ends_modify, ← formatted, ends_bind]
  refine halloc.imp ?_
  rintro _ _ ⟨rfl, rfl⟩
  refine ends_ite (fun hne => absurd rfl hne) (fun _ => ?_)
  rw [ends_bind]
  refine (hroot.append root_lt hkind).mono ?_ ?_
  · rintro _ m ⟨hlaid, hfree, -⟩
    rw [ends_bind]
    refine (hlaid.append root_lt hkind).mono ?_ ?_
    · rintro _ m' ⟨hlaid', hfree', -⟩
      rw [update_idem, update_self, List.nil_append, ← contents_nil] at hlaid'
      exact hfiles m' hlaid' (hfree'.trans hfree)
    · intro e hfull
      rw [update_idem, update_self, List.nil_append, ← contents_nil] at hfull
      exact hfail e hfull
  · intro e hfull
    refine hfail e (fun hfits => hfull (hfits.mono (fun i => ?_)))
    rw [List.nil_append, contents_nil]
    rcases eq_or_ne i rootIno with rfl | hne
    · rw [update_self, update_self, List.length_append]
      omega
    · rw [update_of_ne hne, update_of_ne hne]

/-- `mkfs` with at most 206 files runs to its end where these are accepted, and writes
the image that they make up. -/
theorem main_ends (hroom : files.length + 2 ≤ room.ninodes) :
    Ends (main files) start
      (fun _ m => Built (files.length + 2) m (contents files) ∧ m.freeinode = files.length + 2)
      (fun _ => ¬ Accepted files) := by
  refine main_start ?_ ?_
  · intro m hlaid hfree
    refine (files_ends hroom (List.nil_append files).symm hlaid hfree).bind ?_
    rintro _ m' ⟨hlaid', hfree'⟩
    refine (finish_ends hlaid').imp ?_
    rintro _ _ rfl
    exact ⟨hlaid'.finished (by omega), hfree'⟩
  · intro _ hfull haccepted
    exact hfull (haccepted.fits.mono (length_contents_le [] files))

end Xv6.Mkfs
