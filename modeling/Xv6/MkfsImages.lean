import Xv6.MkfsMount

/-!
# Which images can be mounted

`ialloc` of `mkfs` has no bound: with every file one more inode number is in use. The image
of a list of files is one that the kernel can rely on exactly if the numbers are below
`ninodes`, the root directory does not fill whole blocks, and the names differ.
-/

namespace Xv6.Mkfs

open ByteBlocks FileSystem PanicPrograms

variable {α β : Type} {m : Image} {c : ℕ → List Byte} {i j k n : ℕ} {files : List Input}

/-- The program does not change the number of inodes. -/
abbrev Spares (p : Mk α) : Prop := Preserves Image.freeinode (fun _ => True) p

theorem spares_rsect (sec : ℕ) : Spares (rsect sec) :=
  preserves_get.bind (fun _ => (preserves_pure _).ite (preserves_throw trivial))

theorem spares_wsect (sec : ℕ) (buf : Block) : Spares (wsect sec buf) :=
  preserves_modify (fun _ => rfl)

theorem spares_winode (i : ℕ) (d : Dinode) : Spares (winode i d) :=
  (spares_rsect _).bind (fun _ => spares_wsect _ _)

theorem spares_rinode (i : ℕ) : Spares (rinode i) :=
  (spares_rsect _).bind (fun _ => preserves_pure _)

theorem spares_orNext (addr : ℕ) : Spares (orNext addr) := by
  refine (preserves_pure _).ite (preserves_get.bind (fun _ => ?_))
  refine Preserves.bind (preserves_modify ?_) (fun _ => preserves_pure _)
  exact fun _ => rfl

theorem spares_mapBlock (d : Dinode) (fbn : ℕ) : Spares (mapBlock d fbn) := by
  refine Preserves.ite ?_ ?_
  · exact (spares_orNext _).bind (fun _ => preserves_pure _)
  · refine (spares_orNext _).bind (fun ind => (spares_rsect ind).bind (fun indirect => ?_))
    refine Preserves.ite ?_ (preserves_pure _)
    exact (spares_orNext 0).bind (fun _ => (spares_wsect _ _).bind (fun _ => preserves_pure _))

theorem spares_iappendLoop (fuel : ℕ) (d : Dinode) (off : ℕ) (p : List Byte) :
    Spares (iappendLoop fuel d off p) := by
  induction fuel generalizing d off p with
  | zero => exact preserves_pure _
  | succ fuel ih =>
    refine (preserves_pure _).ite ((preserves_throw trivial).ite ?_)
    exact (spares_mapBlock _ _).bind (fun _ => (spares_rsect _).bind
      (fun _ => (spares_wsect _ _).bind (fun _ => ih _ _ _)))

theorem spares_iappend (i : ℕ) (p : List Byte) : Spares (iappend i p) :=
  (spares_rinode i).bind (fun _ => (spares_iappendLoop _ _ _ _).bind (fun _ => spares_winode _ _))

theorem ialloc_freeinode (type : FileType) (m : Image) :
    Ends (ialloc type) m (fun _ m' => m'.freeinode = m.freeinode + 1) (fun _ => True) := by
  simp only [ialloc, ends_bind, ends_get, ends_modify, ends_pure]
  exact spares_winode _ _ _

theorem addFile_freeinode (f : Input) (m : Image) :
    Ends (addFile f) m (fun _ m' => m'.freeinode = m.freeinode + 1) (fun _ => True) := by
  rw [addFile]
  refine ends_ite (fun _ => trivial) (fun _ => ?_)
  cases f.chunks with
  | none => exact trivial
  | some chunks =>
    simp only [ends_bind]
    refine (ialloc_freeinode .file m).imp ?_
    intro i m' hm'
    rw [← hm', ← ends_bind]
    exact (spares_iappend rootIno _).bind (fun _ => Preserves.forM (spares_iappend i) chunks) m'

theorem files_freeinode (files : List Input) (m : Image) :
    Ends (files.forM addFile) m (fun _ m' => m'.freeinode = m.freeinode + files.length)
      (fun _ => True) := by
  induction files generalizing m with
  | nil => exact rfl
  | cons f files ih =>
    change Ends (addFile f >>= fun _ => files.forM addFile) m _ _
    refine (addFile_freeinode f m).bind ?_
    intro _ m' hm'
    refine (ih m').imp ?_
    intro _ m'' hm''
    rw [hm'', hm', List.length_cons]
    omega

theorem main_freeinode (files : List Input) :
    Ends (main files) start (fun _ m => m.freeinode = files.length + 2) (fun _ => True) := by
  have hfinish : Spares (do fixRoot; let m ← get; balloc m.freeblock) := by
    refine ((spares_rinode _).bind (fun _ => spares_winode _ _)).bind (fun _ => ?_)
    intro m
    rw [ends_bind, ends_get, balloc]
    exact ends_ite (fun _ => trivial) (fun _ => rfl)
  unfold main
  rw [zero_bind, ends_bind, wsect, ends_modify, ← formatted]
  refine (ialloc_freeinode .dir formatted).bind ?_
  intro rootino m hm
  refine ends_ite (fun _ => trivial) (fun _ => ?_)
  refine (spares_iappend rootino _ m).bind ?_
  intro _ m₁ hm₁
  refine (spares_iappend rootino _ m₁).bind ?_
  intro _ m₂ hm₂
  refine (files_freeinode files m₂).bind ?_
  intro _ m₃ hm₃
  refine (hfinish m₃).imp ?_
  intro _ m₄ hm₄
  rw [hm₄, hm₃, hm₂, hm₁, hm, show formatted.freeinode = 1 from rfl, Nat.add_comm]

/-- Whether the kernel can rely on the image of a list of files. -/
theorem image_mountable (files : List Input) :
    Ends (main files) start (fun _ m => Mountable m ↔ Regular files)
      (fun _ => ¬ (Accepted files ∧ files.length + 2 ≤ room.ninodes)) := by
  by_cases hroom : files.length + 2 ≤ room.ninodes
  · refine (main_ends hroom).mono ?_ (fun _ hfail hc => hfail hc.1)
    rintro _ m ⟨hbuilt, hfree⟩
    exact hbuilt.mountable_iff hfree hroom
  · refine (main_freeinode files).mono ?_ (fun _ _ hc => hroom hc.2)
    intro _ m hfree
    have hle : superblock.ninodes ≤ room.ninodes := by decide
    refine iff_of_false (fun hm => ?_) (fun hr => ?_)
    · have := hm.inodes (files.length + 1) (by omega)
      omega
    · have := hr.few
      omega

theorem fileBlocks_small {q : ℕ} (hn : n ≤ q * bSize) (hq : q ≤ nDirect) : fileBlocks n ≤ q := by
  have hsub : rangePlaces 0 n ⊆ Finset.range q := by
    intro k hk
    simp only [rangePlaces, Finset.mem_biUnion, Finset.mem_range, Nat.zero_add] at hk ⊢
    obtain ⟨p, hp, hk⟩ := hk
    have hlt : p / bSize < q := (Nat.div_lt_iff_lt_mul (by decide)).2 (hp.trans_le hn)
    rw [blockPlaces, if_pos (hlt.trans_le hq), Finset.mem_singleton] at hk
    rwa [hk]
  rw [fileBlocks]
  exact (Finset.card_le_card hsub).trans (Finset.card_range q).le

theorem sum_fileBlocks_le (hother : ∀ i, i ≠ rootIno → i ≠ j → c i = [])
    (hroot : (c rootIno).length ≤ 4 * bSize) (hj : (c j).length ≤ 4 * bSize) :
    ∑ i ∈ Finset.range room.ninodes, fileBlocks (c i).length ≤ 8 := by
  have hzero : fileBlocks 0 = 0 := rfl
  have hsub : ∑ i ∈ Finset.range room.ninodes, fileBlocks (c i).length ≤
      ∑ i ∈ {rootIno, j}, fileBlocks (c i).length := by
    refine Finset.sum_le_sum_of_ne_zero ?_
    intro i _ hi
    by_contra hmem
    rw [Finset.mem_insert, Finset.mem_singleton, not_or] at hmem
    rw [hother i hmem.1 hmem.2] at hi
    exact hi hzero
  have hpair : ∑ i ∈ {rootIno, j}, fileBlocks (c i).length ≤ ({rootIno, j} : Finset ℕ).card • 4 := by
    refine Finset.sum_le_card_nsmul _ _ _ ?_
    intro i hi
    rw [Finset.mem_insert, Finset.mem_singleton] at hi
    rcases hi with rfl | rfl
    · exact fileBlocks_small hroot (by decide)
    · exact fileBlocks_small hj (by decide)
  have hcard : ({rootIno, j} : Finset ℕ).card ≤ 2 := Finset.card_le_two
  rw [nsmul_eq_mul, Nat.cast_id] at hpair
  omega

theorem fits_of_small (hother : ∀ i, i ≠ rootIno → i ≠ j → c i = [])
    (hroot : (c rootIno).length ≤ 4 * bSize) (hj : (c j).length ≤ 4 * bSize) : Fits c := by
  have hmax : 4 * bSize ≤ maxFile * bSize := by decide
  have hspace : nmeta + 8 ≤ fsSize := by decide
  refine ⟨?_, (Nat.add_le_add_left (sum_fileBlocks_le hother hroot hj) nmeta).trans hspace⟩
  intro i
  by_cases hi : i = rootIno
  · rw [hi]
    exact hroot.trans hmax
  by_cases hij : i = j
  · rw [hij]
    exact hj.trans hmax
  · rw [hother i hi hij]
    exact Nat.zero_le _

theorem length_root_le (hroom : files.length + 2 ≤ room.ninodes) :
    (contents files rootIno).length ≤ 4 * bSize := by
  have hd : direntSize = 16 := rfl
  have hb : bSize = 1024 := rfl
  have hninodes : room.ninodes = 208 := by decide
  rw [contents_root, length_rootBytes, hd, hb]
  omega

theorem contents_eq_nil (hi : i ≠ rootIno)
    (hbytes : ∀ l f, files[l]? = some f → l + 2 = i → f.bytes = []) : contents files i = [] := by
  rw [contents, if_neg hi]
  split
  · cases hf : files[i - 2]? with
    | none => rfl
    | some f => exact hbytes (i - 2) f hf (by omega)
  · rfl

theorem accepted_of_small (hroom : files.length + 2 ≤ room.ninodes) (husable : ∀ f ∈ files, f.usable)
    (hother : ∀ l f, files[l]? = some f → l ≠ k → f.bytes = [])
    (hk : ∀ f, files[k]? = some f → f.bytes.length ≤ 4 * bSize) : Accepted files := by
  refine ⟨husable, fits_of_small ?_ (length_root_le hroom) (j := k + 2) ?_⟩
  · intro i hroot hi
    exact contents_eq_nil hroot (fun l f hf hl => hother l f hf (by omega))
  · rw [contents_file]
    cases hf : files[k]? with
    | none => exact Nat.zero_le _
    | some f => exact hk f hf

theorem runs_of_accepted (hroom : files.length + 2 ≤ room.ninodes) (haccepted : Accepted files)
    (hregular : ¬ Regular files) : ∃ m, main files start = .ok ((), m) ∧ ¬ Mountable m := by
  have hends : Ends (main files) start (fun _ m => ¬ Mountable m) (fun _ => False) := by
    refine (main_ends hroom).mono ?_ (fun _ hfail => hfail haccepted)
    rintro _ m ⟨hbuilt, hfree⟩ hm
    exact hregular ((hbuilt.mountable_iff hfree hroom).1 hm)
  obtain ⟨_, m, hrun, hm⟩ := hends.exists_ok
  exact ⟨m, hrun, hm⟩

theorem letter_ne (k : ℕ) {c : Byte} (hc : c.toNat < 100) : BitVec.ofNat 8 (100 + k % 100) ≠ c := by
  rintro rfl
  rw [BitVec.toNat_ofNat] at hc
  omega

def emptyFiles (n : ℕ) : List Input :=
  (List.range n).map (fun k =>
    { arg := [BitVec.ofNat 8 (100 + k / 100 % 100), BitVec.ofNat 8 (100 + k % 100)]
      arg_ne_nul := by
        intro c hc
        simp only [List.mem_cons, List.not_mem_nil, or_false] at hc
        rcases hc with rfl | rfl
        · exact letter_ne _ (by decide)
        · exact letter_ne _ (by decide)
      chunks := some [] })

theorem emptyFiles_bytes {f : Input} (hf : f ∈ emptyFiles n) : f.bytes = [] := by
  obtain ⟨k, -, rfl⟩ := List.mem_map.1 hf
  rfl

theorem length_emptyFiles : (emptyFiles n).length = n := by simp [emptyFiles]

theorem emptyFiles_accepted (hn : n + 2 ≤ room.ninodes) : Accepted (emptyFiles n) := by
  refine accepted_of_small (k := n) (by rwa [length_emptyFiles]) ?_
    (fun l f hf _ => emptyFiles_bytes (List.mem_of_getElem? hf)) ?_
  swap
  · intro f hf
    rw [emptyFiles_bytes (List.mem_of_getElem? hf)]
    exact Nat.zero_le _
  intro f hf
  obtain ⟨k, -, rfl⟩ := List.mem_map.1 hf
  refine ⟨?_, fun h => nomatch h⟩
  have hpath : ∀ c d : Byte, [c, d].take 5 ≠ userDir := by
    intro c d h
    exact absurd (congrArg List.length h) (show ¬ 2 = 5 by decide)
  rw [Input.path, if_neg (hpath _ _)]
  simp only [List.mem_cons, List.not_mem_nil, or_false, not_or]
  exact ⟨(letter_ne _ (by decide)).symm, (letter_ne _ (by decide)).symm⟩

theorem underscored_ne_nul : ∀ c ∈ [underscore, 97], c ≠ 0 := by
  decide

/-- The files "_a" and "a", both of which get the name "a". -/
def sameName : List Input :=
  [⟨[underscore, 97], underscored_ne_nul, some []⟩, ⟨[97], by decide, some []⟩]

theorem sameName_accepted : Accepted sameName := by
  have hbytes : ∀ f ∈ sameName, f.usable ∧ f.bytes = [] := by
    intro f hf
    simp only [sameName, List.mem_cons, List.not_mem_nil, or_false] at hf
    rcases hf with rfl | rfl
    · exact ⟨⟨by decide, fun h => nomatch h⟩, rfl⟩
    · exact ⟨⟨by decide, fun h => nomatch h⟩, rfl⟩
  refine accepted_of_small (k := 0) (by decide) (fun f hf => (hbytes f hf).1)
    (fun l f hf _ => (hbytes f (List.mem_of_getElem? hf)).2) ?_
  intro f hf
  rw [(hbytes f (List.mem_of_getElem? hf)).2]
  exact Nat.zero_le _

/-- With 62 files the root directory has a hole, with 199 there is an inode too many, and
two names may become the same. -/
theorem images_not_mountable :
    (∃ m, main (emptyFiles 62) start = .ok ((), m) ∧ ¬ Mountable m) ∧
      (∃ m, main (emptyFiles 199) start = .ok ((), m) ∧ ¬ Mountable m) ∧
      ∃ m, main sameName start = .ok ((), m) ∧ ¬ Mountable m := by
  refine ⟨runs_of_accepted ?_ (emptyFiles_accepted (by decide)) ?_,
    runs_of_accepted ?_ (emptyFiles_accepted (by decide)) ?_, runs_of_accepted (by decide) ?_ ?_⟩
  · rw [length_emptyFiles]
    decide
  · intro hr
    have hragged := hr.ragged
    rw [length_emptyFiles] at hragged
    exact hragged (by decide)
  · rw [length_emptyFiles]
    decide
  · intro hr
    have hfew := hr.few
    rw [length_emptyFiles] at hfew
    exact absurd hfew (by decide)
  · exact sameName_accepted
  · intro hr
    exact absurd hr.names (by decide)

end Xv6.Mkfs
