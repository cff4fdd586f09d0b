import Xv6.BlockOwnership

/-!
# Files without holes

`bmap` allocates for readers as it does for writers. From an image without holes no sequence of
the functions that change inodes makes one, so that `readi` finds every block and changes
nothing.
-/

namespace Xv6.FileSystem

open ActionPaths ByteBlocks PanicPrograms TransitionRuns

/-- A call of a function of the inode layer, or of `create`. -/
inductive Operation
  | iget (i : ℕ)
  | ilock (i : ℕ)
  | iput (i : ℕ)
  | writei (i : ℕ) (src : ℕ → Option Byte) (off n : ℕ)
  | itrunc (i : ℕ)
  | dirlink (dp : ℕ) (name : Name) (inum : ℕ)
  | create (cwd : ℕ) (path : Name) (type : FileType) (major minor : ℤ)

variable (sb : Superblock)

def perform : Operation → M Unit
  | .iget i => (fun _ => ()) <$> iget i
  | .ilock i => ilock i
  | .iput i => iput sb i
  | .writei i src off n => (fun _ => ()) <$> writei sb i src off n
  | .itrunc i => itrunc sb i
  | .dirlink dp name inum => (fun _ => ()) <$> dirlink sb dp name inum
  | .create cwd path type major minor => (fun _ => ()) <$> create sb cwd path type major minor

/-- What the callers see to: an inode is referred to before it is used, and locked before it is
read or written, entries are made for inodes that exist, and what is written to a directory
names such inodes only. -/
def Owed (s : FS) : Operation → Prop
  | .iget i => i < sb.ninodes
  | .ilock i => 0 < (s.inode i).ref
  | .iput i => 0 < (s.inode i).ref
  | .writei i src off n => s.live i ∧ ((s.body i).type = .dir → ∀ r t, writei sb i src off n s = .ok (r, t) →
      ∀ e ∈ entries t.data (t.body i), e.inum < sb.ninodes)
  | .itrunc i => s.live i
  | .dirlink dp _ inum => s.live dp ∧ inum < sb.ninodes
  | .create cwd _ type _ _ => 0 < (s.inode cwd).ref ∧ type ≠ .none

def operate (s : FS) (op : Operation) : Option FS :=
  match perform sb op s with
  | .ok (_, t) => some t
  | .error _ => none

variable {sb} {T : Multiset ℕ} {s t : FS} {i fuel off n tot : ℕ} {copyout : ℕ → ℕ → Bool}
  {src : ℕ → Option Byte} {bs : List Byte} {op : Operation} {E : Panic → Prop}

theorem readiLoop_still (hfilled : ∀ q < n, byteAt s.data (s.body i) (off + q) ≠ none) :
    Ends (readiLoop sb i copyout fuel off n tot bs) s (fun _ t => t = s) E := by
  induction fuel generalizing off n tot bs with
  | zero => rfl
  | succ fuel ih =>
    rw [readiLoop]
    refine ends_ite (fun _ => rfl) (fun hn => ?_)
    have hfirst := hfilled 0 (by omega)
    have hbn : off / bSize < maxFile := (Nat.div_lt_iff_lt_mul (by decide)).2 (byteAt_lt hfirst)
    refine (bmap_hit hbn (byteAt_ne_none.1 hfirst)).bind ?_
    rintro a t ⟨rfl, -⟩
    refine ends_ite (fun _ => rfl) (fun _ => ?_)
    simp only [ends_bind, ends_get]
    refine ends_ite (fun _ => ih (fun q hq => ?_)) (fun _ => rfl)
    rw [Nat.add_assoc]
    exact hfilled _ (by omega)

/-- Without holes, a read changes nothing, whether or not the copies succeed. -/
theorem readi_still (hl : s.live i) (hdense : s.dense i) :
    Ends (readi sb i copyout off n) s (fun _ t => t = s) E := by
  have hself := FS.current_of_live hl
  simp only [readi, ends_bind, ends_get]
  refine ends_ite (fun _ => rfl) (fun hin => readiLoop_still (fun q hq => ?_))
  rw [← hself]
  refine hdense _ ?_
  rw [hself]
  split at hq <;> omega

theorem FS.dense.size_le (h : s.dense i) : (s.current i).size ≤ maxFile * bSize := by
  rcases Nat.eq_zero_or_pos (s.current i).size with hzero | hpos
  · rw [hzero]
    exact Nat.zero_le _
  · have hlt := byteAt_lt (h ((s.current i).size - 1) (by omega))
    omega

theorem FS.dense.allocated (h : s.dense i) {bn : ℕ} (hbn : bn * bSize < (s.current i).size) :
    place s.data (s.current i) (contentPlace bn) ≠ 0 := by
  have hne := byteAt_ne_none.1 (h _ hbn)
  rwa [Nat.mul_div_cancel _ (by decide)] at hne

theorem mem_nodeOf {data : ℕ → Block} {d : Dinode} {e : Dirent} (h : e ∈ (nodeOf data d).slots) :
    d.type = .dir ∧ e ∈ entries data d := by
  rw [nodeOf] at h
  split at h
  · cases h
  · by_cases hdir : d.type = .dir
    · exact ⟨hdir, h⟩
    · have hnil : entries data d = [] := entries_of_ne hdir
      dsimp only at h
      rw [hnil] at h
      cases h

/-- A write keeps the state sound, to a directory if its entries name inodes that exist. -/
theorem writei_sound (h : Sound sb T s) (hl : s.live i) :
    Ends (writei sb i src off n) s (fun _ t => (((s.body i).type = .dir →
      ∀ e ∈ entries t.data (t.body i), e.inum < sb.ninodes) → Sound sb T t) ∧
      (s.Dense sb → t.Dense sb)) E := by
  have hi := FS.mem_of_live h hl
  have htype := h.typed i hl
  refine (writei_ends h hl).imp ?_
  rintro r t (⟨-, rfl⟩ | ⟨m, u, a, -, hw⟩)
  · exact ⟨fun _ => h, fun hs => hs⟩
  · have hdense : s.Dense sb → t.Dense sb := by
      intro hs j hj hjtype
      rcases eq_or_ne j i with rfl | hne
      · exact hw.dense hl (hs j hj (by rwa [FS.current_of_live hl]))
      · have hcur := hw.current_other hne
        rw [hcur] at hjtype
        refine FS.dense_kept (by rw [hcur]) (fun p x hx => ?_) (hs j hj hjtype)
        rw [hcur]
        exact hw.other hl hne hj hjtype hx
    refine ⟨fun hnamed => ?_, hdense⟩
    rw [hw.body_self] at hnamed
    have hself := FS.current_of_live (hw.live hl)
    rw [hw.body_self] at hself
    refine (h.rewriteInode hl hw.blocks hw.inode hw.dinode rfl ?_
      (fun e he => hnamed (mem_nodeOf he).1 e (mem_nodeOf he).2)
      (fun j hne hj hjtype p x hx => hw.other hl hne hj hjtype hx)).1
    intro hdir p hp
    have hdense : s.dense i := h.filled i hi (by rwa [FS.current_of_live hl])
    have hp' := hw.dense hl hdense p (by rwa [hself])
    rwa [hself] at hp'

theorem itrunc_sound (h : Sound sb T s) (hl : s.live i) :
    Ends (itrunc sb i) s (fun _ t => Sound sb T t ∧ (s.Dense sb → t.Dense sb)) E := by
  have hi := FS.mem_of_live h hl
  have hself := FS.current_of_live hl
  refine (itrunc_ends h.blocks hl hi (h.typed i hl)).imp ?_
  rintro _ t ⟨hB, hdata, a, -, hinode, hdinode⟩
  have hnil : entries t.data { s.body i with addrs := a, size := 0 } = [] := by
    rw [entries]
    split
    · simp
    · rfl
  have hsound : Sound sb T t := by
    refine (h.rewriteInode hl hB hinode hdinode rfl (fun _ p hp => absurd hp (Nat.not_lt_zero p)) ?_
      (fun _ _ _ _ _ _ hx => by rwa [hdata])).1
    intro e he
    have hmem := (mem_nodeOf he).2
    rw [hnil] at hmem
    cases hmem
  have hcur := h.current_update hsound hdinode
  refine ⟨hsound, fun hs j hj hjtype => ?_⟩
  rcases eq_or_ne j i with rfl | hne
  · refine FS.dense_of_empty ?_
    rw [hcur, Function.update_self]
  · have hsame : t.current j = s.current j := by rw [hcur, Function.update_of_ne hne]
    rw [hsame] at hjtype
    refine FS.dense_kept (by rw [hsame]) (fun p x hx => ?_) (hs j hj hjtype)
    rwa [hsame, hdata]

def Solid (sb : Superblock) (s : FS) : Prop := (∃ T, Sound sb T s) ∧ s.Dense sb

theorem Treads.solid {α : Type} {k : ℕ} {m : M α} {Q : α → FS → Prop} (hdense : s.Dense sb)
    (h : Runs sb (fun _ => True) (fun _ => True) True T k m s Q)
    (hQ : ∀ a t, Q a t → ∃ T, Sound sb T t) :
    Ends m s (fun _ t => Solid sb t) (fun e => e ≠ .bmapOutOfRange) := by
  refine (h.keeps (fun _ _ ha => ha.dense) hdense).mono ?_ ?_
  · rintro a t ⟨ht, ha⟩
    exact ⟨hQ a t ha, ht⟩
  · rintro e ⟨t, -, he⟩ rfl
    exact he

/-- Every operation keeps the state without holes, and none panics in `bmap`. -/
theorem perform_ends (h : Solid sb s) (howed : Owed sb s op) :
    Ends (perform sb op) s (fun _ t => Solid sb t) (fun e => e ≠ .bmapOutOfRange) := by
  obtain ⟨⟨T, hsound⟩, hdense⟩ := h
  cases op with
  | iget i =>
    rw [perform, ends_map]
    exact Treads.solid (k := 0) hdense (iget_runs hsound howed .self) (fun _ _ ht => ⟨_, ht.2.sound⟩)
  | ilock i =>
    have hmem := hsound.ref_pos.1 howed
    exact Treads.solid (T := T) (k := 0) hdense (ilock_runs hsound hmem) (fun _ _ ht => ⟨_, ht.1.sound⟩)
  | iput i =>
    have hmem := hsound.ref_pos.1 howed
    obtain ⟨T', rfl⟩ := Multiset.exists_cons_of_mem hmem
    exact Treads.solid (T := T') (k := 0) hdense (iput_runs hsound) (fun _ _ ht => ⟨_, ht.sound⟩)
  | writei i src off n =>
    obtain ⟨hl, hnamed⟩ := howed
    rw [perform, ends_map]
    obtain ⟨r, t, hok, ht, htd⟩ := (writei_sound hsound hl).exists_ok
    exact ends_of_ok hok ⟨⟨T, ht (fun hdir => hnamed hdir r t hok)⟩, htd hdense⟩
  | itrunc i =>
    refine (itrunc_sound (E := fun _ => False) hsound howed).mono ?_ (fun _ he => he.elim)
    rintro _ t ⟨ht, htd⟩
    exact ⟨⟨T, ht⟩, htd hdense⟩
  | dirlink dp name inum =>
    obtain ⟨hl, hinum⟩ := howed
    rw [perform, ends_map]
    by_cases hdir : (s.body dp).type = .dir
    · refine Treads.solid (k := 0) hdense (dirlink_runs trivial hsound hl hdir hinum .self) ?_
      rintro r t (⟨-, ht⟩ | ⟨-, l, ht⟩)
      · exact ⟨T, ht.sound⟩
      · exact ⟨T, ht.sound⟩
    · simp [dirlink, dirlookup, hdir]
  | create cwd path type major minor =>
    obtain ⟨href, htype⟩ := howed
    rw [perform, ends_map]
    refine Treads.solid (k := 2) hdense (create_runs trivial hsound (hsound.ref_pos.1 href) htype .self
      (fun _ _ _ _ => trivial)) ?_
    rintro (_ | ip) t ht
    · exact ⟨T, ht.sound⟩
    · exact ⟨_, ht.2.2.sound⟩

theorem operate_solid (h : Solid sb s) (howed : Owed sb s op) (hstep : operate sb s op = some t) :
    Solid sb t := by
  rw [operate] at hstep
  split at hstep
  · rename_i u hok
    cases hstep
    exact (perform_ends h howed).of_ok hok
  · cases hstep

theorem reads_change_nothing {ops : List Operation} (h : Sound sb T s) (hdense : s.Dense sb)
    (hrun : Run (operate sb) (Owed sb) s ops t) :
    (∀ i < sb.ninodes, (t.current i).type ≠ .none →
      (∀ bn, bn * bSize < (t.current i).size → place t.data (t.current i) (contentPlace bn) ≠ 0) ∧
      (t.current i).size ≤ maxFile * bSize) ∧
    (∀ i, t.live i → ∀ copyout off n,
      Ends (readi sb i copyout off n) t (fun _ u => u = t) (fun _ => False)) ∧
    ∀ op, Owed sb t op → perform sb op t ≠ .error .bmapOutOfRange := by
  obtain ⟨⟨T', ht⟩, htd⟩ : Solid sb t :=
    hrun.invariant ⟨⟨T, h⟩, hdense⟩ (fun _ _ _ hv hok hnext => operate_solid hv hok hnext)
  refine ⟨fun i hi htype => ⟨fun bn hbn => (htd i hi htype).allocated hbn, (htd i hi htype).size_le⟩,
    fun i hl copyout off n => ?_, fun op hop hpanic => ?_⟩
  · refine readi_still hl (htd i (FS.mem_of_live ht hl) ?_)
    rw [FS.current_of_live hl]
    exact ht.typed i hl
  · exact (perform_ends ⟨⟨T', ht⟩, htd⟩ hop).of_error hpanic rfl

section SmallDisk

/-- What the callers see to when they write to files only. -/
def owesFiles (sb : Superblock) (s : FS) : Operation → Bool
  | .iget i => i < sb.ninodes
  | .ilock i => 0 < (s.inode i).ref
  | .iput i => 0 < (s.inode i).ref
  | .writei i _ _ _ => 0 < (s.inode i).ref && (s.inode i).valid && (s.body i).type != .dir
  | .itrunc i => 0 < (s.inode i).ref && (s.inode i).valid
  | .dirlink dp _ inum => 0 < (s.inode dp).ref && (s.inode dp).valid && inum < sb.ninodes
  | .create cwd _ type _ _ => 0 < (s.inode cwd).ref && type != .none

theorem owed_of_owesFiles (h : owesFiles sb s op = true) : Owed sb s op := by
  cases op with
  | writei i src off n =>
    simp only [owesFiles, Bool.and_eq_true, decide_eq_true_eq, bne_iff_ne] at h
    exact ⟨h.1, fun hdir => absurd hdir h.2⟩
  | iget i | ilock i | iput i | create cwd path type major minor => simpa [owesFiles, Owed] using h
  | itrunc i | dirlink dp name inum => simpa [owesFiles, Owed, FS.live] using h

theorem smallSys_dense : FS.Dense smallSb (smallSys (· < 32) 32).fs := by
  intro i hi htype
  refine smallSys_consistent.sound.filled i hi ?_
  rw [(smallSys_booted (· < 32) 32).current_eq] at htype ⊢
  revert htype
  revert i
  decide +kernel

/-- A file is made, filled past its first block, cut, and entered under a second name. -/
def smallOperations : List Operation :=
  [.create 1 [102] .file 0 0, .writei 3 (fun _ => some 7) 0 1030, .itrunc 3, .ilock 1,
    .dirlink 1 [103] 3]

set_option maxRecDepth 100000 in
theorem reads_change_nothing_small : ∃ t,
    Run (operate smallSb) (Owed smallSb) (smallSys (· < 32) 32).fs smallOperations t ∧
    ∀ i, t.live i → ∀ copyout off n,
      Ends (readi smallSb i copyout off n) t (fun _ u => u = t) (fun _ => False) := by
  obtain ⟨t, howes, -⟩ : ∃ t, Run (operate smallSb) (fun s op => owesFiles smallSb s op = true)
      (smallSys (· < 32) 32).fs smallOperations t ∧ True := exists_run (by decide +kernel)
  have hrun := howes.weaken (fun _ _ => owed_of_owesFiles)
  exact ⟨t, hrun, (reads_change_nothing smallSys_consistent.sound smallSys_dense hrun).2.1⟩

end SmallDisk

end Xv6.FileSystem
