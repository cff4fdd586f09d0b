import Xv6.DirectoryLinks
import Xv6.MkfsFinal

/-!
# Mounting the image

The kernel boots from an image of `mkfs`. Every file is without holes. The root directory
has a hole where its entries fill whole blocks: its size is rounded up by a block then that
was never allocated.
-/

namespace Xv6.Mkfs

open ByteBlocks FileSystem PanicPrograms SlotOwnership

variable {m : Image} {c : ℕ → List Byte} {i j k n a b p q z : ℕ} {l bs : List Byte} {d : Dinode}
  {files : List Input}

theorem mem_blockPlaces : contentPlace q ∈ blockPlaces n ↔ q = n := by
  rw [blockPlaces]
  split
  · rename_i hn
    have hplace : contentPlace n = n := if_pos hn
    rw [Finset.mem_singleton]
    constructor
    · intro h
      exact contentPlace_inj (h.trans hplace.symm)
    · rintro rfl
      exact hplace
  · rw [Finset.mem_insert, Finset.mem_singleton]
    constructor
    · rintro (h | h)
      · exact absurd h contentPlace_ne
      · exact contentPlace_inj h
    · rintro rfl
      exact .inr rfl

theorem mem_rangePlaces : contentPlace q ∈ rangePlaces 0 n ↔ q * bSize < n := by
  have hb : 0 < bSize := by decide
  simp only [rangePlaces, Finset.mem_biUnion, Finset.mem_range, mem_blockPlaces, Nat.zero_add]
  constructor
  · rintro ⟨p, hp, rfl⟩
    exact lt_of_le_of_lt (Nat.div_mul_le_self p bSize) hp
  · intro h
    exact ⟨q * bSize, h, (Nat.mul_div_cancel q hb).symm⟩

theorem Holds.byteAt_ne_none (h : Holds m i l) :
    byteAt m.data (m.dinode i) p ≠ none ↔ p / bSize * bSize < l.length := by
  rw [FileSystem.byteAt_ne_none, h.places, mem_rangePlaces]

theorem Holds.getD_byteAt (h : Holds m i l) (p : ℕ) :
    (byteAt m.data (m.dinode i) p).getD 0 = l.getD p 0 := by
  cases hbyte : byteAt m.data (m.dinode i) p with
  | some x => exact h.bytes p x hbyte
  | none =>
    have hge : ¬ p / bSize * bSize < l.length := fun hlt => h.byteAt_ne_none.2 hlt hbyte
    have hle := Nat.div_mul_le_self p bSize
    rw [List.getD_eq_default _ _ (by omega)]
    rfl

/-- The kernel's state after `iget` and `ilock` of inode `i`. -/
def Image.loaded (m : Image) (i : ℕ) : FS :=
  { m.mounted.setInode i { ref := 1, valid := true, body := m.dinode i } with active := 1 }

theorem current_mounted (i : ℕ) : m.mounted.current i = m.dinode i :=
  FS.current_of_not_live (by simp [FS.live, Image.mounted])

theorem live_loaded : (m.loaded i).live i := by simp [FS.live, Image.loaded, FS.setInode]

theorem body_loaded : (m.loaded i).body i = m.dinode i := by
  simp [FS.body, Image.loaded, FS.setInode]

theorem current_loaded : (m.loaded i).current i = m.dinode i := by
  rw [FS.current_of_live live_loaded, body_loaded]

/-- What the kernel relies on. -/
structure Mountable (m : Image) : Prop where
  sb : readsb (m.sector 1) = (fsMagic, superblock)
  inodes : ∀ i < m.freeinode, i < superblock.ninodes
  blocks : Blocks superblock m.mounted
  dense : ∀ i < superblock.ninodes, (m.dinode i).type ≠ .none → m.mounted.dense i
  reads : ∀ i < superblock.ninodes, (m.dinode i).type ≠ .none → ∀ off < 2 ^ 32, ∀ n < 2 ^ 32,
    Ends (readi superblock i toKernel off n) (m.loaded i) (fun _ t => t = m.loaded i) (fun _ => False)
  names : ∀ (a b : ℕ) (x y : Dirent), (entries m.data (m.dinode rootIno))[a]? = some x →
    (entries m.data (m.dinode rootIno))[b]? = some y → x.inum ≠ 0 → y.inum ≠ 0 →
    namecmp x.name y.name = true → a = b

/-- The lists of files of which `mkfs` makes such an image. -/
structure Regular (files : List Input) : Prop where
  few : files.length + 2 ≤ superblock.ninodes
  ragged : direntSize * (files.length + 2) % bSize ≠ 0
  names : ((rootEntries files).map (fun e => cutName e.2)).Nodup

theorem Built.blocks_mounted (h : Built z m c) (hz : z ≤ superblock.ninodes) :
    Blocks superblock m.mounted := by
  have hslot : m.mounted.slot superblock =
      (m.hold rootIno (m.dinode rootIno) []).slot room := by
    funext x
    rw [slot_hold root_lt, FS.slot, current_mounted]
    have hle : superblock.ninodes ≤ room.ninodes := by decide
    by_cases hx : x.1 < superblock.ninodes
    · simp only [hx, hx.trans_le hle]
      rfl
    · rw [if_neg (fun hc => hx hc.1)]
      split
      · rename_i hc
        have hnone : kind z x.1 = .none := by
          rw [kind, if_pos (.inr (by omega))]
        exact absurd ((h.type _ hc.1).trans hnone) hc.2
      · rfl
  have hstart : superblock.dataStart < fsSize := by decide
  have hbit : ∀ b < fsSize, m.mounted.bitmap b = (m.hold rootIno (m.dinode rootIno) []).bitmap b :=
    fun b hb => h.bitmap b hb
  have howned := h.blocks.owned
  rw [← hslot] at howned
  refine ⟨⟨by decide, by decide, by decide⟩, ⟨howned.range, howned.inj, ?_⟩, ?_⟩
  · intro b hlow hhigh
    rw [hbit b hhigh]
    exact howned.marked b hlow hhigh
  · intro b hb
    rw [hbit b (by omega)]
    exact h.blocks.reserved b hb

theorem Built.file_dense (h : Built z m c) (hi : i < room.ninodes) (hkind : kind z i = .file) :
    m.mounted.dense i := by
  have hholds := h.holds i hi (by rw [hkind]; decide)
  intro p hp
  rw [current_mounted] at hp ⊢
  rw [h.size i hi hkind] at hp
  exact hholds.byteAt_ne_none.2 (lt_of_le_of_lt (Nat.div_mul_le_self p bSize) hp)

/-- The root directory has a hole exactly if its entries fill whole blocks. -/
theorem Built.root_dense (h : Built z m c) (hz : 2 ≤ z) :
    m.mounted.dense rootIno ↔ (c rootIno).length % bSize ≠ 0 := by
  have hholds := h.holds rootIno root_lt (by rw [kind_root hz]; decide)
  have hb : bSize = 1024 := rfl
  rw [FS.dense, current_mounted, h.rootSize]
  constructor
  · intro hdense hmod
    have hlast := hholds.byteAt_ne_none.1 (hdense (c rootIno).length (by rw [hb]; omega))
    rw [hb] at hlast hmod
    omega
  · intro hmod p hp
    refine hholds.byteAt_ne_none.2 ?_
    rw [hb] at hp hmod ⊢
    omega

theorem readi_dense (hdense : m.mounted.dense i) {off : ℕ} (hoff : off < 2 ^ 32) (hn : n < 2 ^ 32) :
    Ends (readi superblock i toKernel off n) (m.loaded i) (fun _ t => t = m.loaded i)
      (fun _ => False) := by
  have hloaded : (m.loaded i).dense i := by
    rw [FS.dense, current_loaded]
    rw [FS.dense, current_mounted] at hdense
    exact hdense
  refine (readi_ends live_loaded hloaded hoff hn (fun _ _ _ => rfl)).imp ?_
  rintro _ t ⟨rfl, -⟩
  rfl

theorem getElem?_flatMap {α : Type} {f : α → List Byte} {L : List α} (hlen : ∀ e, (f e).length = n)
    (hj : j < n) (a : ℕ) : (L.flatMap f)[n * a + j]? = L[a]?.bind (fun e => (f e)[j]?) := by
  induction L generalizing a with
  | nil => rfl
  | cons e L ih =>
    rw [List.flatMap_cons]
    cases a with
    | zero =>
      rw [Nat.mul_zero, Nat.zero_add, List.getElem?_append_left (by rw [hlen]; exact hj)]
      rfl
    | succ a =>
      have hsucc : n * (a + 1) + j = n + (n * a + j) := by
        rw [Nat.mul_succ]
        omega
      rw [hsucc, List.getElem?_append_right (by rw [hlen]; omega), hlen, Nat.add_sub_cancel_left, ih]
      rfl

theorem length_rootEntries : (rootEntries files).length = files.length + 2 := by
  simp [rootEntries]

theorem length_rootBytes : (rootBytes files).length = direntSize * (files.length + 2) := by
  rw [rootBytes, List.length_flatMap, ← length_rootEntries]
  simp [length_encodeDirent, Nat.mul_comm]

theorem rootEntries_inum {e : ℕ × Name} (he : (rootEntries files)[a]? = some e) :
    0 < e.1 ∧ e.1 < files.length + 2 := by
  have hmem := List.mem_of_getElem? he
  simp only [rootEntries, List.mem_cons, List.mem_mapIdx] at hmem
  have hroot : rootIno = 1 := rfl
  rcases hmem with rfl | rfl | ⟨k, hk, rfl⟩
  · exact ⟨by decide, by dsimp only; omega⟩
  · exact ⟨by decide, by dsimp only; omega⟩
  · exact ⟨by dsimp only; omega, by dsimp only; omega⟩

theorem getD_rootBytes (hj : j < direntSize) (a : ℕ) : (rootBytes files).getD (direntSize * a + j) 0 =
    (((rootEntries files)[a]?.map (fun e => encodeDirent e.1 e.2)).getD
      (List.replicate direntSize 0)).getD j 0 := by
  rw [List.getD_eq_getElem?_getD, rootBytes, getElem?_flatMap (fun _ => length_encodeDirent) hj]
  cases (rootEntries files)[a]? with
  | none => simp [hj]
  | some e => rw [Option.bind_some, Option.map_some, Option.getD_some, List.getD_eq_getElem?_getD]

/-- The entries of the root directory: one for every file, and behind these zeros. -/
theorem entryAt_root (h : Holds m rootIno (rootBytes files)) (a : ℕ) :
    entryAt m.data (m.dinode rootIno) a = ((rootEntries files)[a]?.map
      (fun e => ⟨e.1 % 2 ^ 16, padName e.2⟩)).getD ⟨0, List.replicate dirSiz 0⟩ := by
  have hbytes : ∀ bs : List Byte, bs.length = direntSize →
      (List.range direntSize).map (fun j => bs.getD j 0) = bs := by
    intro bs hlen
    refine List.ext_getElem (by simp [hlen]) ?_
    intro j hj hj'
    rw [List.getElem_map, List.getElem_range, List.getD_eq_getElem _ _ hj']
  have hmap : (List.range direntSize).map
      (fun j => (byteAt m.data (m.dinode rootIno) (direntSize * a + j)).getD 0) =
      ((rootEntries files)[a]?.map (fun e => encodeDirent e.1 e.2)).getD
        (List.replicate direntSize 0) := by
    rw [← hbytes (((rootEntries files)[a]?.map (fun e => encodeDirent e.1 e.2)).getD
      (List.replicate direntSize 0))]
    · refine List.map_congr_left (fun j hj => ?_)
      rw [h.getD_byteAt, getD_rootBytes (List.mem_range.1 hj)]
    · cases (rootEntries files)[a]? with
      | none => simp
      | some e => exact length_encodeDirent
  rw [entryAt, hmap]
  cases (rootEntries files)[a]? with
  | none => exact decode_erased
  | some e => exact decode_encodeDirent e.1 e.2

theorem cutName_padName (name : Name) : cutName (padName name) = cutName name := by
  have hzeros : ∀ k, (List.replicate k (0 : Byte)).takeWhile (fun c => c ≠ 0) = [] := by
    intro k
    cases k <;> rfl
  rw [cutName, cutName, List.take_of_length_le (by rw [length_padName]), padName,
    List.takeWhile_append, hzeros]
  split
  · rename_i hall
    rw [List.append_nil, (List.takeWhile_prefix _).eq_of_length hall]
  · rfl

section Entries

variable (h : Built (files.length + 2) m (contents files))
include h

theorem holds_root : Holds m rootIno (rootBytes files) := by
  have hholds := h.holds rootIno root_lt (by rw [kind_root (by omega)]; decide)
  rwa [contents_root] at hholds

theorem type_root : (m.dinode rootIno).type = .dir := by
  rw [h.type rootIno root_lt, kind_root (by omega)]

theorem size_root (ha : a < files.length + 2) : direntSize * (a + 1) ≤ (m.dinode rootIno).size := by
  have hb : bSize = 1024 := rfl
  have hd : direntSize = 16 := rfl
  rw [h.rootSize, contents_root, length_rootBytes, hb, hd]
  omega

theorem getElem?_root (hroom : files.length + 2 ≤ room.ninodes) {e : ℕ × Name}
    (he : (rootEntries files)[a]? = some e) :
    (entries m.data (m.dinode rootIno))[a]? = some ⟨e.1, padName e.2⟩ := by
  obtain ⟨hlt, -⟩ := List.getElem?_eq_some_iff.1 he
  obtain ⟨-, hinum⟩ := rootEntries_inum he
  have hsmall : room.ninodes < 2 ^ 16 := by decide
  rw [length_rootEntries] at hlt
  rw [getElem?_entries (type_root h) (size_root h hlt), entryAt_root (holds_root h), he,
    Option.map_some, Option.getD_some, Nat.mod_eq_of_lt (by omega)]

theorem root_getElem? (hroom : files.length + 2 ≤ room.ninodes) {x : Dirent}
    (hx : (entries m.data (m.dinode rootIno))[a]? = some x) (hinum : x.inum ≠ 0) :
    ∃ e, (rootEntries files)[a]? = some e ∧ x = ⟨e.1, padName e.2⟩ := by
  cases he : (rootEntries files)[a]? with
  | some e =>
    rw [getElem?_root h hroom he] at hx
    exact ⟨e, rfl, (Option.some.inj hx).symm⟩
  | none =>
    rw [entries, if_pos (type_root h), List.getElem?_map] at hx
    obtain ⟨a', ha', rfl⟩ := Option.map_eq_some_iff.1 hx
    obtain rfl : a' = a := by
      obtain ⟨hlt, hget⟩ := List.getElem?_eq_some_iff.1 ha'
      rw [List.getElem_range] at hget
      exact hget.symm
    rw [entryAt_root (holds_root h), he] at hinum
    exact absurd rfl hinum

theorem root_names (hroom : files.length + 2 ≤ room.ninodes) :
    (∀ (a b : ℕ) (x y : Dirent), (entries m.data (m.dinode rootIno))[a]? = some x →
      (entries m.data (m.dinode rootIno))[b]? = some y → x.inum ≠ 0 → y.inum ≠ 0 →
      namecmp x.name y.name = true → a = b) ↔
    ((rootEntries files).map (fun e => cutName e.2)).Nodup := by
  constructor
  · intro hnames
    rw [List.nodup_iff_getElem?_ne_getElem?]
    intro a b hab hb heq
    have hb' : b < (rootEntries files).length := by simpa using hb
    have ha' : a < (rootEntries files).length := hab.trans hb'
    have hea := List.getElem?_eq_getElem ha'
    have heb := List.getElem?_eq_getElem hb'
    rw [List.getElem?_map, List.getElem?_map, hea, heb] at heq
    have hsame := hnames a b _ _ (getElem?_root h hroom hea) (getElem?_root h hroom heb)
      (rootEntries_inum hea).1.ne' (rootEntries_inum heb).1.ne'
    rw [namecmp, cutName_padName, cutName_padName, decide_eq_true_eq] at hsame
    have := hsame (Option.some.inj heq)
    omega
  · intro hnodup a b x y hx hy hxi hyi hcmp
    obtain ⟨e, he, rfl⟩ := root_getElem? h hroom hx hxi
    obtain ⟨f, hf, rfl⟩ := root_getElem? h hroom hy hyi
    rw [namecmp, cutName_padName, cutName_padName, decide_eq_true_eq] at hcmp
    obtain ⟨hlt, -⟩ := List.getElem?_eq_some_iff.1 he
    refine (List.getElem?_inj (by simpa using hlt) hnodup).1 ?_
    rw [List.getElem?_map, List.getElem?_map, he, hf, Option.map_some, Option.map_some, hcmp]

end Entries

theorem kind_cases (hkind : kind z i ≠ .none) : i = rootIno ∨ kind z i = .file := by
  rw [kind] at hkind ⊢
  split at hkind
  · exact absurd rfl hkind
  · rename_i hin
    rw [if_neg hin]
    split
    · rename_i hroot
      exact .inl hroot
    · exact .inr rfl

theorem Built.mountable_iff (h : Built (files.length + 2) m (contents files))
    (hfree : m.freeinode = files.length + 2) (hroom : files.length + 2 ≤ room.ninodes) :
    Mountable m ↔ Regular files := by
  have hdense := h.root_dense (by omega)
  rw [contents_root, length_rootBytes] at hdense
  have hroot : (m.dinode rootIno).type ≠ .none := by
    rw [type_root h]
    decide
  constructor
  · intro hm
    refine ⟨?_, hdense.1 (hm.dense rootIno (by decide) hroot), (root_names h hroom).1 hm.names⟩
    have := hm.inodes (files.length + 1) (by omega)
    omega
  · intro hr
    have hle : superblock.ninodes ≤ room.ninodes := by decide
    have hall : ∀ i < superblock.ninodes, (m.dinode i).type ≠ .none → m.mounted.dense i := by
      intro i hi htype
      rw [h.type i (hi.trans_le hle)] at htype
      rcases kind_cases htype with rfl | hfile
      · exact hdense.2 hr.ragged
      · exact h.file_dense (hi.trans_le hle) hfile
    refine ⟨h.sb, ?_, h.blocks_mounted hr.few, hall, ?_, (root_names h hroom).2 hr.names⟩
    · intro i hi
      have := hr.few
      omega
    · intro i hi htype off hoff n hn
      exact readi_dense (hall i hi htype) hoff hn

end Xv6.Mkfs
