import Xv6.DirectoryMaps
import Xv6.FailedCalls

/-!
# When `create` makes a file

On the way to the directory, and while it takes an inode, `create` moves no block. So whether there
is room for the new entry can be told from the state before the call.
-/

namespace Xv6.FileSystem

open ActionPaths ByteBlocks Function PanicPrograms Relation

variable {sb : Superblock} {T : Multiset ℕ} {s t u : FS} {i dp ip inum cwd : ℕ} {name path : Name}
  {major minor : ℤ} {mode : OpenMode}

/-- No slot of the directory is free, and it cannot grow by one. -/
def FS.crowded (sb : Superblock) (s : FS) (dp : ℕ) : Prop :=
  (∀ e ∈ s.slots dp, e.inum ≠ 0) ∧
    (maxFile * bSize < (s.current dp).size + direntSize ∨
      (s.free sb).card < ((rangePlaces (s.current dp).size direntSize).filter
        (fun l => place s.data (s.current dp) l = 0)).card)

instance (s : FS) (dp : ℕ) : Decidable (s.crowded sb dp) := inferInstanceAs (Decidable (_ ∧ _))

/-- The path leads to a directory that does not have its last name. There is a free inode, and room
for an entry. -/
def FS.creatable (sb : Superblock) (s : FS) (cwd : ℕ) (path : Name) : Prop :=
  ∃ dp name, resolve (s.view sb) cwd path true = some (dp, name) ∧ lookup name (s.view sb dp).slots = none ∧
    (∃ i, 0 < i ∧ i < sb.ninodes ∧ (s.dinode i).type = .none) ∧ ¬ s.crowded sb dp

theorem FS.packed_iff_crowded (hl : s.live dp) : s.packed sb dp ↔ s.crowded sb dp := by
  rw [FS.packed, FS.crowded, FS.missing, FS.current_of_live hl]

/-- The inode `d` has become `d'`: it has the blocks it had, or it was free and has none. -/
def SameBlocks (d d' : Dinode) : Prop :=
  (d.type = .none ∧ ∀ k, d'.addrs k = 0) ∨
    (d.type ≠ .none ∧ d'.type = d.type ∧ d'.size = d.size ∧ d'.addrs = d.addrs)

/-- No block has moved from `s` to `t`. -/
structure Steady (sb : Superblock) (s t : FS) : Prop where
  data : t.data = s.data
  inode : ∀ j < sb.ninodes, (t.current j).type ≠ .none → SameBlocks (s.current j) (t.current j)

namespace Steady

theorem refl : Steady sb s s := ⟨rfl, fun _ _ hsome => .inr ⟨hsome, rfl, rfl, rfl⟩⟩

theorem of_current (h : Steady sb s t) (hdata : u.data = t.data) (hcur : u.current = t.current) :
    Steady sb s u where
  data := hdata.trans h.data
  inode := by rw [hcur]; exact h.inode

theorem of_update {d : Dinode} (h : Steady sb s t) (hdata : u.data = t.data)
    (hcur : u.current = update t.current i d)
    (hd : i < sb.ninodes → d.type ≠ .none → SameBlocks (s.current i) d) : Steady sb s u where
  data := hdata.trans h.data
  inode := by
    intro j hj
    rw [hcur]
    rcases eq_or_ne j i with rfl | hne
    · rw [update_self]
      exact hd hj
    · rw [update_of_ne hne]
      exact h.inode j hj

theorem step (h : Steady sb s t) (ha : Action sb (s.isFree sb) noInode False t u) : Steady sb s u := by
  cases ha with
  | get _ hdata hcur | put _ _ hdata hcur | load hdata hcur => exact h.of_current hdata hcur
  | relabel hdata hcur hsame =>
    obtain ⟨htype, hsize, haddrs⟩ := hsame
    refine h.of_update hdata hcur (fun hi hsome => ?_)
    rw [htype] at hsome
    rw [SameBlocks, htype, hsize, haddrs]
    exact h.inode _ hi hsome
  | alloc hfree _ hdata hcur =>
    refine h.of_update hdata hcur (fun hi _ => .inl ⟨?_, fun _ => rfl⟩)
    rwa [FS.isFree, FS.type_view hi] at hfree
  | erase hdata hcur hnone => exact h.of_update hdata hcur (fun _ hsome => absurd hnone hsome)
  | trunc hallowed => exact hallowed.elim
  | write _ _ _ htarget => exact htarget.elim (fun hc => hc.1.elim) (fun hc => hc.2.elim)

theorem of_path (hpath : ReflTransGen (Action sb (s.isFree sb) noInode False) s t) : Steady sb s t :=
  path_keeps (fun _ _ ha ht => step ht ha) hpath .refl

variable (h : Steady sb s t) (hall : ∀ j < sb.ninodes, (s.current j).type ≠ .none → (t.current j).type ≠ .none)

include h hall

theorem kept (hi : i < sb.ninodes) (hsome : (s.current i).type ≠ .none) :
    (t.current i).type = (s.current i).type ∧ (t.current i).size = (s.current i).size ∧
      (t.current i).addrs = (s.current i).addrs :=
  ((h.inode i hi (hall i hi hsome)).resolve_left (fun hc => hsome hc.1)).2

theorem place_eq (hi : i < sb.ninodes) (hsome : (s.current i).type ≠ .none) (k : ℕ) :
    place t.data (t.current i) k = place s.data (s.current i) k :=
  place_congr (h.kept hall hi hsome).2.2 (fun _ => by rw [h.data])

theorem slot_eq : t.slot sb = s.slot sb := by
  funext ⟨j, k⟩
  by_cases hj : j < sb.ninodes
  · by_cases hs : (s.current j).type = .none
    · have hzero : s.slot sb (j, k) = 0 := if_neg (fun hc => hc.2 hs)
      rw [hzero]
      by_cases ht : (t.current j).type = .none
      · exact if_neg (fun hc => hc.2 ht)
      · rw [FS.slot_eq hj ht, place]
        simp [((h.inode j hj ht).resolve_right (fun hc => hc.1 hs)).2]
    · rw [FS.slot_eq hj hs, FS.slot_eq hj (hall j hj hs), h.place_eq hall hj hs]
  · rw [FS.slot, FS.slot, if_neg (fun hc => hj hc.1), if_neg (fun hc => hj hc.1)]

theorem free_eq (hs : Blocks sb s) (ht : Blocks sb t) : t.free sb = s.free sb := by
  ext b
  rw [FS.mem_free, FS.mem_free]
  refine and_congr_right fun hb => ?_
  have hbit : t.bitmap b = s.bitmap b := by
    rcases Nat.lt_or_ge b sb.dataStart with hlt | hge
    · rw [hs.reserved b hlt, ht.reserved b hlt]
    · rw [Bool.eq_iff_iff, hs.owned.marked b hge hb, ht.owned.marked b hge hb, h.slot_eq hall]
  rw [hbit]

theorem crowded_iff (hs : Blocks sb s) (ht : Blocks sb t) (hi : dp < sb.ninodes)
    (hsome : (s.current dp).type ≠ .none) : t.crowded sb dp ↔ s.crowded sb dp := by
  obtain ⟨htype, hsize, -⟩ := h.kept hall hi hsome
  have hplace := h.place_eq hall hi hsome
  have hslots : t.slots dp = s.slots dp := by
    refine entries_congr htype hsize (fun p _ => ?_)
    exact byteAt_congr (hplace _) (fun _ => by rw [h.data])
  simp only [FS.crowded, hslots, hsize, h.free_eq hall hs ht, hplace]

end Steady

/-- `dirlink` of a name that the directory does not have fails only for want of room. -/
theorem dirlink_room (h : Sound sb T s) (hdp : s.AtDir dp) (haligned : direntSize ∣ (s.current dp).size)
    (habsent : lookup name (s.view sb dp).slots = none) :
    Ends (dirlink sb dp name inum) s (fun r _ => r < 0 ↔ s.crowded sb dp) (fun _ => True) := by
  have hself := FS.current_of_live hdp.live
  have hlt := FS.mem_of_live h hdp.live
  have hdir : (s.current dp).type = .dir := by
    rw [hself]
    exact hdp.dir
  have hfile : DirectoryFile sb dp s := ⟨h.blocks, hdp.live, hlt, hdir, h.filled dp hlt hdir, haligned⟩
  have hlook : Runs sb noInode noInode False T 0 (dirlookup sb dp name) s _ :=
    dirlookup_runs h hdp.live hdp.dir .self
  rw [dirlink]
  refine Ends.bindOk hlook ?_
  rintro (_ | ⟨i, off⟩) t ⟨-, -, hfound⟩
  · obtain ⟨rfl, -⟩ := hfound
    refine hfile.enter.imp ?_
    rintro r u ⟨-, ⟨rfl, hpacked, -⟩ | ⟨rfl, hpacked, -⟩⟩
    · exact iff_of_true (by decide) ((FS.packed_iff_crowded hdp.live).1 hpacked)
    · exact iff_of_false (by decide) (mt (FS.packed_iff_crowded hdp.live).2 hpacked)
  · obtain ⟨-, k, de, hsome, -⟩ := hfound
    rw [habsent] at hsome
    cases hsome

theorem ialloc_none {type : FileType} : Ends (ialloc sb type) s (fun r _ => r = none →
    ∀ i, 0 < i → i < sb.ninodes → (s.dinode i).type ≠ .none) (fun _ => True) := by
  simp only [ialloc, ends_bind, ends_get]
  cases hfree : firstFree (fun i => (s.dinode i).type ≠ .none) (sb.ninodes - 1) 1 with
  | none =>
    rintro - i hpos hlt
    simpa using firstFree_none hfree hpos (by omega)
  | some i =>
    simp only [logWrite, ends_bind, ends_modify, ends_map]
    refine ends_self.ok ?_
    intro j t _ hnone
    cases hnone

theorem createFail_none : Ends (createFail sb dp ip) s (fun r _ => r = none) (fun _ => True) := by
  simp only [createFail, ends_bind]
  refine ends_self.ok (fun _ t _ => ?_)
  refine ends_self.ok (fun _ u _ => ?_)
  exact ends_self.ok (fun _ _ _ => rfl)

section Room

variable (hs : Sound sb T s) (haligned : s.Aligned sb)

include hs haligned

/-- The last part of `create`, from the state `t` where the inode has been taken; `w` is the one
before that. -/
theorem createNode_file {w : FS} (hw : Sound sb (dp ::ₘ T) w) (hview : w.view sb = s.view sb) (hdp : w.AtDir dp)
    (habsent : lookup name (w.view sb dp).slots = none) (hfresh : Fresh sb (dp ::ₘ T) .file w ip t)
    (hpath : ReflTransGen (Action sb (s.isFree sb) noInode False) s t) :
    Ends (createNode sb dp ip name .file major minor) t (fun r _ =>
      r = if s.crowded sb dp then none else some ip) (fun _ => True) := by
  have hmemi : ip ∈ ip ::ₘ dp ::ₘ T := Multiset.mem_cons_self _ _
  have hmemd : dp ∈ dp ::ₘ T := Multiset.mem_cons_self _ _
  have hsub : dp ::ₘ T ⊆ ip ::ₘ dp ::ₘ T := Multiset.subset_cons _ _
  have hlt := FS.mem_of_live hw hdp.live
  have hdir : (s.view sb dp).type = .dir := by rw [← hview, hw.type_live hdp.live, hdp.dir]
  have hsome : (s.current dp).type = .dir := by rwa [← FS.type_view hlt]
  have hne : dp ≠ ip := by
    rintro rfl
    rw [← hview, hfresh.free] at hdir
    cases hdir
  have hlock : Runs sb (s.isFree sb) noInode False T 1 (ilock ip) t _ := ilock_runs hfresh.sound hmemi
  rw [createNode]
  refine Ends.bindOk hlock ?_
  rintro _ u ⟨hpath₁, hkeep, hlu⟩
  have hlabel : Runs sb (s.isFree sb) noInode False T 1 _ u _ :=
    relabel_runs hkeep.sound hlu (g := fun d => { d with major := major, minor := minor, nlink := 1 })
      (fun _ => ⟨rfl, rfl, rfl⟩)
  rw [Runs, Treads, ends_bind] at hlabel
  rw [ends_bind]
  refine hlabel.ok (fun _ v hv => ?_)
  rw [ends_bind]
  refine hv.ok ?_
  rintro _ y ⟨hpath₂, hsound, hstays, hyv⟩
  -- The new inode is all that the state before the entry is made has over `s`.
  have hsteady : Steady sb s y := .of_path ((hpath.trans hpath₁).trans hpath₂)
  have hnodes : ∀ j ≠ ip, y.view sb j = s.view sb j := by
    intro j hj
    rw [hyv, update_of_ne hj, hkeep.view, hfresh.view, update_of_ne hj, hview]
  have hall : ∀ j < sb.ninodes, (s.current j).type ≠ .none → (y.current j).type ≠ .none := by
    intro j hj htype
    rw [← FS.type_view hj] at htype ⊢
    rwa [hnodes]
    rintro rfl
    rw [← hview, hfresh.free] at htype
    exact htype rfl
  have hdpy : y.AtDir dp :=
    hdp.stays hw hsound ((hfresh.stays.trans (hkeep.stays.mono hsub)).trans (hstays.mono hsub)) hmemd (hsub hmemd)
  have hsize := (hsteady.kept hall hlt (by simp [hsome])).2.1
  have halign : direntSize ∣ (y.current dp).size := by
    rw [hsize]
    exact haligned dp hlt hsome
  have hcrowded := hsteady.crowded_iff hall hs.blocks hsound.blocks hlt (by simp [hsome])
  simp only [reduceCtorEq, if_false, ends_bind, ends_pure, Bool.true_eq_false]
  refine (dirlink_room hsound hdpy halign (by rwa [hnodes dp hne, ← hview])).ok ?_
  intro r z hr
  rw [hcrowded] at hr
  refine ends_ite (fun hneg => ?_) (fun hneg => ?_)
  · rw [if_pos (hr.1 hneg)]
    exact createFail_none
  · rw [if_neg (mt hr.2 hneg)]
    simp only [ends_bind, ends_pure]
    exact ends_self.ok (fun _ _ _ => trivial)

/-- `create` of a file makes one exactly if it can. -/
theorem create_file (ha : Anchored sb T s) (hcwd : cwd ∈ T) :
    Ends (create sb cwd path .file major minor) s (fun r _ =>
      (∃ ip, r = some ip ∧ (s.view sb ip).type = .none) ↔ s.creatable sb cwd path) (fun _ => True) := by
  rw [create, ends_bind]
  have hparent : Runs sb (s.isFree sb) noInode False T 1 (nameiparent sb cwd path) s _ :=
    nameiparent_runs hs hcwd .self
  refine Ends.ok hparent ?_
  rintro (_ | ⟨dp, name⟩) t ⟨hpath, hr⟩
  · refine iff_of_false (by simp) ?_
    rintro ⟨dp, name, hresolve, -⟩
    rw [← hr.resolved.eq ha] at hresolve
    cases hresolve
  · have hst : Walked sb T (dp ::ₘ T) s t := hr.resolved.reached
    have hresolve := hr.resolved.eq ha
    have hlock : Runs sb (s.isFree sb) noInode False T 1 (ilock dp) t _ := ilock_parent hst (hr.atDir rfl rfl)
    refine Ends.bindOk hlock ?_
    rintro _ u ⟨hpath', hsu, hdp⟩
    have hsv := hsu.still ha
    have hlook : Runs sb (s.isFree sb) noInode False T 1 (dirlookup sb dp name) u _ :=
      dirlookup_runs hsu.sound hdp.live hdp.dir (Extra.self.cons dp)
    refine Ends.bindOk hlook ?_
    rintro (_ | ⟨i, off⟩) w ⟨-, -, hfound⟩
    · obtain ⟨rfl, habsent⟩ := hfound
      have hial : Runs sb (s.isFree sb) noInode False T 1 (ialloc sb .file) w _ :=
        ialloc_runs hsu.sound (by decide) (Extra.self.cons dp) (ha.offered w hsu.still)
      refine Ends.bindOk (hial.also ialloc_none) ?_
      rintro (_ | ip) x ⟨hpath'', hx, hused⟩
      · -- All inodes are in use.
        rw [ends_bind]
        refine ends_self.ok (fun _ _ _ => iff_of_false (by simp) ?_)
        rintro ⟨-, -, -, -, ⟨i, hpos, hlt, hfree⟩, -⟩
        refine hused rfl i hpos hlt ?_
        rw [← hsu.sound.current_eq, ← FS.type_view hlt, hsv, FS.type_view hlt, hs.current_eq, hfree]
      · refine (createNode_file hs haligned hsu.sound hsv hdp habsent hx
          ((hpath.trans hpath').trans hpath'')).ok ?_
        rintro _ y rfl
        have hfree : (s.view sb ip).type = .none := by
          rw [← hsv, hx.free]
          rfl
        have hinode : ∃ i, 0 < i ∧ i < sb.ninodes ∧ (s.dinode i).type = .none :=
          ⟨ip, hx.pos, hx.lt, by rwa [← hs.current_eq, ← FS.type_view hx.lt]⟩
        rw [hsv] at habsent
        constructor
        · rintro ⟨j, hj, -⟩
          refine ⟨dp, name, hresolve.symm, habsent, hinode, fun hc => ?_⟩
          rw [if_pos hc] at hj
          cases hj
        · rintro ⟨dp', name', hresolve', -, -, hroom⟩
          rw [← hresolve] at hresolve'
          cases hresolve'
          exact ⟨ip, if_neg hroom, hfree⟩
    · obtain ⟨hkeep, k, de, hsome, -⟩ := hfound
      have hnot : ¬ s.creatable sb cwd path := by
        rintro ⟨dp', name', hresolve', habsent, -⟩
        rw [← hresolve] at hresolve'
        cases hresolve'
        rw [hsv, habsent] at hsome
        cases hsome
      have hswap := hkeep.sound
      rw [Multiset.cons_swap] at hswap
      have hsub : T ⊆ i ::ₘ T := Multiset.subset_cons _ _
      have hput : Runs sb (s.isFree sb) noInode False T 1 (iput sb dp) w _ := iput_walked_runs hswap hsub
      refine Ends.bindOk hput ?_
      rintro _ x ⟨-, hx⟩
      have hlock : Runs sb (s.isFree sb) noInode False T 1 (ilock i) x _ :=
        ilock_runs hx.sound (Multiset.mem_cons_self _ _)
      refine Ends.bindOk hlock ?_
      rintro _ y ⟨-, hkeep', hly⟩
      have hsy := ((hsu.trans (hkeep.walked (Multiset.subset_cons _ _))).trans hx).trans (hkeep'.walked hsub)
      rw [ends_bind, ends_get]
      refine ends_ite (fun _ => iff_of_false ?_ hnot) (fun _ => ?_)
      · rintro ⟨j, hj, hfree⟩
        cases hj
        rw [← hsy.still ha, hsy.sound.type_live hly] at hfree
        exact hsy.sound.typed i hly hfree
      · rw [ends_bind]
        exact ends_self.ok (fun _ _ _ => iff_of_false (by simp) hnot)

/-- `open` with `O_CREATE` opens a new file exactly if `create` can make it. -/
theorem openInode_file (ha : Anchored sb T s) (ho : Orderly sb T (s.view sb)) (hcwd : cwd ∈ T)
    (hmode : mode.create = true) :
    Ends (openInode sb cwd path mode) s (fun r _ =>
      (∃ ip, r = some ip ∧ (s.view sb ip).type = .none) ↔ s.creatable sb cwd path) (fun _ => True) := by
  have hmade : Runs sb (s.isFree sb) noInode True T 2 (create sb cwd path .file 0 0) s _ :=
    create_runs trivial hs hcwd (by decide) .self ha.offered
  rw [openInode, if_pos hmode, ends_bind]
  refine Ends.ok (hmade.also (create_file hs haligned ha hcwd)) ?_
  rintro (_ | ip) t ⟨-, ht, hiff⟩
  · exact hiff
  · obtain ⟨hl, -, ht⟩ := ht
    obtain ⟨-, heff⟩ := ht.moves ha
    rw [ends_bind, ends_get]
    refine ends_ite ?_ (fun _ => hiff)
    rintro ⟨hdev, -⟩
    rw [ends_bind]
    refine ends_self.ok (fun _ _ _ => ?_)
    -- A device was there before.
    rw [← hiff]
    refine iff_of_false (by simp) ?_
    rintro ⟨j, hj, hfree⟩
    cases hj
    rw [← ht.sound.type_live hl] at hdev
    rcases heff ho with ⟨-, hold⟩ | ⟨dp, name, k, hc, hnew⟩
    · rcases hold with hold | hold <;> rw [hfree] at hold <;> cases hold
    · rw [hnew, created_self hc.ne] at hdev
      cases hdev

end Room

end Xv6.FileSystem
