import Mathlib.Algebra.Order.BigOperators.Group.Finset
import Mathlib.Data.List.Indexes
import Xv6.MkfsLayout

/-!
# A whole run of `mkfs`

The image at the end: the root directory has an entry for every file, every file has the
bytes that were read from it, and the bitmap marks the blocks below `freeblock`.
-/

namespace Xv6.Mkfs

open ByteBlocks FileSystem Function PanicPrograms SlotOwnership

variable {m m' : Image} {c c' : ℕ → List Byte} {i j k n a b z : ℕ} {type : FileType}
  {files done : List Input} {f : Input} {E : Failure → Prop}

theorem place_new (data : ℕ → Block) (k : ℕ) :
    place data { newDinode type with nlink := 1 } k = 0 := by
  rw [place]
  split
  · rfl
  · rw [if_neg]
    rintro ⟨-, hne⟩
    exact hne rfl

theorem zero_ends (n : ℕ) :
    Ends ((List.range n).forM (fun i => wsect i zeros)) start
      (fun _ m => m = { start with length := n }) E := by
  have hloop := ends_forM (E := E) (f := fun i => wsect i zeros) (s := start)
    (fun rest m => ∃ k, k ≤ n ∧ rest = List.range' k (n - k) ∧ m = { start with length := k })
    (List.range n) ⟨0, Nat.zero_le n, List.range_eq_range', rfl⟩ ?_
  · refine hloop.imp ?_
    rintro _ m ⟨k, hle, hnil, rfl⟩
    have hlen := congrArg List.length hnil
    rw [List.length_nil, List.length_range'] at hlen
    obtain rfl : k = n := by omega
    rfl
  · rintro i rest m ⟨k, hle, hcons, rfl⟩
    have hlt : k < n := by
      by_contra hge
      rw [show n - k = 0 by omega] at hcons
      cases hcons
    rw [show n - k = (n - (k + 1)) + 1 by omega, List.range'_succ] at hcons
    obtain ⟨rfl, rfl⟩ := List.cons.inj hcons
    refine ⟨i + 1, hlt, rfl, ?_⟩
    have hsector : update start.sector i zeros = start.sector := by
      rw [update_eq_self_iff]
      rfl
    simp only [Image.write, hsector]
    rw [max_eq_right (Nat.le_succ i)]

theorem zero_bind {α : Type} {Q : α → Image → Prop} (n : ℕ) (f : Unit → Mk α) :
    Ends ((List.range n).forM (fun i => wsect i zeros) >>= f) start Q E ↔
      Ends (f ()) { start with length := n } Q E := by
  obtain ⟨_, _, hrun, rfl⟩ := (zero_ends (E := fun _ => False) n).exists_ok
  rw [ends_bind, Ends, hrun]

def formatted : Image := ({ start with length := fsSize } : Image).write 1 (storeSuperblock superblock)

theorem dinode_formatted (i : ℕ) : (formatted.dinode i).type = .none := by
  have hne : superblock.iblock i ≠ 1 := by
    have hblock : superblock.iblock i = i / 16 + 32 := rfl
    omega
  have hsector : formatted.sector (superblock.iblock i) = zeros := by
    rw [formatted, Image.sector_write_ne hne]
    rfl
  rw [Image.dinode, hsector, decodeDinode, word_zeros]
  rfl

theorem laid_formatted : Laid 1 formatted (fun _ => []) := by
  have hkind : ∀ i, kind 1 i = .none := by
    intro i
    rw [kind, if_pos (by omega)]
  have hslot : ∀ x, (formatted.hold rootIno (formatted.dinode rootIno) []).slot room x = 0 := by
    rintro ⟨j, k⟩
    rw [slot_hold (by decide)]
    exact if_neg (fun h => h.2 (dinode_formatted j))
  have hmeta : nmeta = 46 := by decide
  refine ⟨⟨?_, le_rfl, by decide, ?_⟩, by decide, Image.sector_write_self, ⟨?_, ?_, ?_⟩,
    fun i _ => (dinode_formatted i).trans (hkind i).symm, fun i _ h => absurd (hkind i) h,
    fun i _ h => absurd (hkind i) h, fun _ _ => rfl, fun _ => Nat.zero_le _, ?_⟩
  · exact max_eq_left (by decide)
  · intro b hb
    have hb : nmeta ≤ b := hb
    rw [formatted, Image.sector_write_ne (by omega)]
    rfl
  · exact ⟨by decide, by decide, by decide⟩
  · refine ⟨fun x hx => absurd (hslot x) hx, fun x _ hx => absurd (hslot x) hx, ?_⟩
    intro b hlow _
    rw [room_dataStart] at hlow
    refine iff_of_false ?_ ?_
    · have hge : ¬ b < formatted.freeblock := not_lt.2 hlow
      simp [Image.hold, hge]
    · rintro ⟨x, hx⟩
      rw [hslot] at hx
      omega
  · intro b hb
    rw [room_dataStart] at hb
    exact decide_eq_true hb
  · have hzero : fileBlocks 0 = 0 := rfl
    simp [hzero]
    rfl

theorem kind_succ (hne : j ≠ n) : kind (n + 1) j = kind n j := by
  have hiff : n + 1 ≤ j ↔ n ≤ j := by omega
  simp only [kind, hiff]

def Image.addInode (m : Image) (type : FileType) : Image :=
  ({ m with freeinode := m.freeinode + 1 } : Image).setInode m.freeinode
    { newDinode type with nlink := 1 }

theorem dinode_addInode (j : ℕ) : (m.addInode type).dinode j =
    if j = m.freeinode then { newDinode type with nlink := 1 } else m.dinode j :=
  dinode_setInode (packed_new type) j

theorem Laid.addInode (h : Laid m.freeinode m c) (hroom : m.freeinode < room.ninodes)
    (htype : type = kind (m.freeinode + 1) m.freeinode) :
    Laid (m.freeinode + 1) (m.addInode type) c := by
  have hready : Ready { m with freeinode := m.freeinode + 1 } :=
    ⟨h.ready.length, h.ready.low, h.ready.high, h.ready.blank⟩
  have hdata : (m.addInode type).data = m.data := data_setInode hroom
  have hself : kind m.freeinode m.freeinode = .none := by rw [kind, if_pos (.inr le_rfl)]
  have hold : ∀ {j}, j ≠ m.freeinode → (m.addInode type).dinode j = m.dinode j := by
    intro j hne
    rw [dinode_addInode, if_neg hne]
  refine ⟨hready.setInode hroom, hroom, ?_, ?_, ?_, ?_, ?_, ?_, h.small, h.count⟩
  · have hne : 1 ≠ superblock.iblock m.freeinode := by
      have hblock : superblock.iblock m.freeinode = m.freeinode / 16 + 32 := rfl
      omega
    rw [Image.addInode, Image.setInode, Image.sector_write_ne hne]
    exact h.sb
  · refine ⟨h.blocks.sane, h.blocks.owned.congr rfl ?_, h.blocks.reserved⟩
    rintro ⟨j, k⟩
    rw [slot_hold (by decide), slot_hold (by decide), hdata]
    rcases eq_or_ne j m.freeinode with rfl | hne
    · have hnone : ¬ (m.freeinode < room.ninodes ∧ (m.dinode m.freeinode).type ≠ .none) := by
        rw [h.type _ hroom]
        exact fun hc => hc.2 hself
      rw [dinode_addInode, if_pos rfl, place_new, ite_self, if_neg hnone]
    · rw [hold hne]
  · intro j hj
    rcases eq_or_ne j m.freeinode with rfl | hne
    · rw [dinode_addInode, if_pos rfl]
      exact htype
    · rw [hold hne, h.type j hj]
      exact (kind_succ hne).symm
  · intro j hj hkind
    rcases eq_or_ne j m.freeinode with rfl | hne
    · rw [dinode_addInode, if_pos rfl, h.unused _ hself]
      rfl
    · rw [hold hne]
      exact h.size j hj (by rwa [← kind_succ hne])
  · intro j hj hkind
    rcases eq_or_ne j m.freeinode with rfl | hne
    · rw [h.unused _ hself]
      refine ⟨fun k => ?_, fun p x hx => ?_⟩
      · rw [dinode_addInode, if_pos rfl, place_new]
        exact iff_of_false (fun hc => hc rfl) (Finset.notMem_empty k)
      · have hplace := (byteAt_eq_some.1 hx).1
        rw [dinode_addInode, if_pos rfl, place_new] at hplace
        exact absurd rfl hplace
    · have hholds := h.holds j hj (by rwa [← kind_succ hne])
      refine ⟨fun k => ?_, fun p x hx => ?_⟩
      · rw [hold hne, hdata]
        exact hholds.places k
      · rw [hold hne, hdata] at hx
        exact hholds.bytes p x hx
  · intro j hkind
    refine h.unused j ?_
    rcases eq_or_ne j m.freeinode with rfl | hne
    · exact hself
    · rw [← kind_succ hne]
      exact hkind

theorem ialloc_ends (hlen : superblock.iblock m.freeinode < m.length) :
    Ends (ialloc type) m (fun i m' => i = m.freeinode ∧ m' = m.addInode type) E := by
  simp only [ialloc, ends_bind, ends_get, ends_modify, ends_pure]
  refine Ends.mono (winode_ends hlen) ?_ (fun _ h => h)
  rintro _ _ rfl
  exact ⟨trivial, rfl⟩

def rootEntries (files : List Input) : List (ℕ × Name) :=
  (rootIno, dot) :: (rootIno, dotdot) :: files.mapIdx (fun k f => (k + 2, f.shortname))

def rootBytes (files : List Input) : List Byte :=
  (rootEntries files).flatMap (fun e => encodeDirent e.1 e.2)

def Input.bytes (f : Input) : List Byte := (f.chunks.getD []).flatten

/-- What is appended to every inode. -/
def contents (files : List Input) (i : ℕ) : List Byte :=
  if i = rootIno then rootBytes files
  else if 2 ≤ i then (files[i - 2]?.map Input.bytes).getD [] else []

theorem Fits.mono (h : Fits c') (hle : ∀ i, (c i).length ≤ (c' i).length) : Fits c where
  small := fun i => (hle i).trans (h.small i)
  blocks := by
    have hsum : ∑ i ∈ Finset.range room.ninodes, fileBlocks (c i).length ≤
        ∑ i ∈ Finset.range room.ninodes, fileBlocks (c' i).length :=
      Finset.sum_le_sum (fun i _ => fileBlocks_le (hle i))
    have := h.blocks
    omega

theorem rootBytes_concat (done : List Input) (f : Input) :
    rootBytes (done ++ [f]) = rootBytes done ++ encodeDirent (done.length + 2) f.shortname := by
  simp [rootBytes, rootEntries, List.mapIdx_append]

theorem contents_root (files : List Input) : contents files rootIno = rootBytes files := if_pos rfl

theorem contents_file (files : List Input) (k : ℕ) :
    contents files (k + 2) = (files[k]?.map Input.bytes).getD [] := by
  have hroot : k + 2 ≠ rootIno := by
    rw [show rootIno = 1 from rfl]
    omega
  rw [contents, if_neg hroot, if_pos (by omega), Nat.add_sub_cancel]

theorem contents_concat (done : List Input) (f : Input) :
    contents (done ++ [f]) = update (update (contents done) rootIno
      (contents done rootIno ++ encodeDirent (done.length + 2) f.shortname)) (done.length + 2)
      f.bytes := by
  have hroot : rootIno ≠ done.length + 2 := by
    rw [show rootIno = 1 from rfl]
    omega
  funext i
  rcases eq_or_ne i (done.length + 2) with rfl | hi
  · rw [update_self, contents_file, List.getElem?_concat_length]
    rfl
  rw [update_of_ne hi]
  rcases eq_or_ne i rootIno with rfl | hne
  · rw [update_self, contents_root, contents_root, rootBytes_concat]
  rw [update_of_ne hne, contents, contents, if_neg hne, if_neg hne]
  split
  · have hlook : (done ++ [f])[i - 2]? = done[i - 2]? := by
      rcases Nat.lt_or_ge (i - 2) done.length with hlt | hge
      · exact List.getElem?_append_left hlt
      · rw [List.getElem?_eq_none (by simp; omega), List.getElem?_eq_none hge]
    rw [hlook]
  · rfl

theorem length_contents_le (done rest : List Input) (i : ℕ) :
    (contents done i).length ≤ (contents (done ++ rest) i).length := by
  induction rest generalizing done with
  | nil => rw [List.append_nil]
  | cons f rest ih =>
    rw [List.append_cons]
    refine le_trans ?_ (ih (done ++ [f]))
    rw [contents_concat]
    rcases eq_or_ne i (done.length + 2) with rfl | hi
    · rw [update_self, contents_file, List.getElem?_eq_none le_rfl]
      exact Nat.zero_le _
    rw [update_of_ne hi]
    rcases eq_or_ne i rootIno with rfl | hne
    · rw [update_self, List.length_append]
      omega
    · rw [update_of_ne hne]

theorem kind_file (hi : 2 ≤ i) (hlt : i < n) : kind n i = .file := by
  rw [kind, if_neg (by omega), if_neg (by rw [show rootIno = 1 from rfl]; omega)]

theorem kind_root (hn : 2 ≤ n) : kind n rootIno = .dir := by
  rw [kind, if_neg (by rw [show rootIno = 1 from rfl]; omega), if_pos rfl]

/-- A file that can be opened, with a name of one element. -/
def Input.usable (f : Input) : Prop := slash ∉ f.path ∧ f.chunks ≠ none

theorem chunks_ends (hi : i < room.ninodes) (chunks : List (List Byte)) (h : Laid z m c)
    (hkind : kind z i ≠ .none) :
    Ends (chunks.forM (iappend i)) m
      (fun _ m' => Laid z m' (update c i (c i ++ chunks.flatten)) ∧ m'.freeinode = m.freeinode)
      (fun _ => ¬ Fits (update c i (c i ++ chunks.flatten))) := by
  induction chunks generalizing m c with
  | nil =>
    rw [List.flatten_nil, List.append_nil, update_eq_self]
    exact ⟨h, rfl⟩
  | cons bs chunks ih =>
    have hassoc : update (update c i (c i ++ bs)) i
        (update c i (c i ++ bs) i ++ chunks.flatten) =
          update c i (c i ++ (bs :: chunks).flatten) := by
      rw [update_self, update_idem, List.flatten_cons, List.append_assoc]
    change Ends (iappend i bs >>= fun _ => chunks.forM (iappend i)) m _ _
    rw [ends_bind]
    refine (h.append hi hkind).mono ?_ ?_
    · rintro _ m' ⟨hlaid, hfree, -⟩
      have hrest := ih hlaid
      rw [hassoc] at hrest
      refine hrest.imp ?_
      rintro _ m'' ⟨hlaid', hfree'⟩
      exact ⟨hlaid', hfree'.trans hfree⟩
    · intro _ hfail hfits
      refine hfail (hfits.mono (fun j => ?_))
      rcases eq_or_ne j i with rfl | hne
      · rw [update_self, update_self, List.flatten_cons]
        simp
      · rw [update_of_ne hne, update_of_ne hne]

theorem addFile_ends (h : Laid (done.length + 2) m (contents done))
    (hfree : m.freeinode = done.length + 2) (hroom : done.length + 2 < room.ninodes) :
    Ends (addFile f) m
      (fun _ m' => Laid (done.length + 3) m' (contents (done ++ [f])) ∧ m'.freeinode = done.length + 3)
      (fun _ => ¬ (f.usable ∧ Fits (contents (done ++ [f])))) := by
  have hroot : rootIno ≠ done.length + 2 := by
    rw [show rootIno = 1 from rfl]
    omega
  rw [addFile]
  refine ends_ite (fun hslash hc => hc.1.1 hslash) (fun hslash => ?_)
  cases hchunks : f.chunks with
  | none => exact fun hc => hc.1.2 hchunks
  | some chunks =>
    have hbytes : f.bytes = chunks.flatten := by rw [Input.bytes, hchunks, Option.getD_some]
    have hkind : kind (done.length + 3) (done.length + 2) = .file := kind_file (by omega) (by omega)
    have hdir : kind (done.length + 3) rootIno ≠ .none := by
      rw [kind_root (by omega)]
      decide
    have hadd : Laid (done.length + 3) (m.addInode .file) (contents done) := by
      have hnew : FileType.file = kind (m.freeinode + 1) m.freeinode := by rw [hfree, hkind]
      rw [← hfree] at h hroom
      have hadd := h.addInode hroom hnew
      rwa [hfree] at hadd
    have hfree' : (m.addInode .file).freeinode = done.length + 3 := by
      change m.freeinode + 1 = _
      omega
    -- The root directory is complete after this, and the file still empty.
    have hconcat := contents_concat done f
    have hempty : contents done (done.length + 2) = [] := by
      rw [contents_file, List.getElem?_eq_none le_rfl]
      rfl
    simp only [ends_bind]
    refine (ialloc_ends (h.ready.iblock_lt (by rwa [hfree]))).imp ?_
    rintro _ _ ⟨rfl, rfl⟩
    rw [hfree]
    refine (hadd.append (by decide) hdir).mono ?_ ?_
    · rintro _ m' ⟨hlaid, hsame, -⟩
      have hlast := chunks_ends hroom chunks hlaid (by rw [hkind]; decide)
      rw [update_of_ne hroot.symm, hempty, List.nil_append, ← hbytes, ← hconcat] at hlast
      refine hlast.mono ?_ (fun _ hfail hc => hfail hc.2)
      rintro _ m'' ⟨hlaid', hsame'⟩
      exact ⟨hlaid', hsame'.trans (hsame.trans hfree')⟩
    · rintro _ hfail ⟨-, hfits⟩
      refine hfail (hfits.mono (fun j => ?_))
      rw [hconcat]
      rcases eq_or_ne j (done.length + 2) with rfl | hj
      · rw [update_of_ne hroot.symm, hempty]
        exact Nat.zero_le _
      · rw [update_of_ne hj]

/-- What `mkfs` needs to run to its end. -/
structure Accepted (files : List Input) : Prop where
  usable : ∀ f ∈ files, f.usable
  fits : Fits (contents files)

theorem files_ends (hroom : files.length + 2 ≤ room.ninodes) {rest : List Input}
    (hfiles : files = done ++ rest) (h : Laid (done.length + 2) m (contents done))
    (hfree : m.freeinode = done.length + 2) :
    Ends (rest.forM addFile) m
      (fun _ m' => Laid (files.length + 2) m' (contents files) ∧ m'.freeinode = files.length + 2)
      (fun _ => ¬ Accepted files) := by
  induction rest generalizing m done with
  | nil =>
    rw [List.append_nil] at hfiles
    subst hfiles
    exact ⟨h, hfree⟩
  | cons f rest ih =>
    have hlen := congrArg List.length hfiles
    rw [List.length_append, List.length_cons] at hlen
    have hfiles' : files = (done ++ [f]) ++ rest := by rw [hfiles, List.append_cons]
    change Ends (addFile f >>= fun _ => rest.forM addFile) m _ _
    rw [ends_bind]
    refine (addFile_ends h hfree (by omega)).mono ?_ ?_
    · rintro _ m' ⟨hlaid, hfree'⟩
      have hlen' : (done ++ [f]).length + 2 = done.length + 3 := by simp
      exact ih hfiles' (by rwa [hlen']) (by rw [hfree', hlen'])
    · intro _ hfail haccepted
      refine hfail ⟨haccepted.usable f (by simp [hfiles]), haccepted.fits.mono (fun i => ?_)⟩
      rw [hfiles']
      exact length_contents_le _ _ i

end Xv6.Mkfs
