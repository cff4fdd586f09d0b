import Xv6.DirectorySlots

/-!
# Directories as maps

`dirlink` adds a name that is not there, and `sys_unlink` zeroes the entry of one that is. No run
of them gives a directory a name twice, and `dirlookup` finds what they have left.
-/

namespace Xv6.FileSystem

open ByteBlocks PanicPrograms SlotMaps TransitionRuns

variable {sb : Superblock} {s t : FS} {dp inum k : ℕ} {name : Name} {E : Panic → Prop}

/-- No slot is free, and the directory cannot grow by one. -/
def FS.packed (sb : Superblock) (s : FS) (dp : ℕ) : Prop :=
  (∀ e ∈ s.slots dp, e.inum ≠ 0) ∧
    (maxFile * bSize < (s.current dp).size + direntSize ∨
      (s.free sb).card < (s.missing dp (rangePlaces (s.current dp).size direntSize)).card)

def TableFull (s : FS) (e : Panic) : Prop := e = .igetNoInodes ∧ nInode ≤ s.active

theorem DirectoryFile.packed_iff (h : DirectoryFile sb dp s)
    (hk : direntSize * (k + 1) ≤ (s.current dp).size ∨ direntSize * k = (s.current dp).size)
    (hempty : ∀ e, (s.slots dp)[k]? = some e → e.inum = 0)
    (hlast : direntSize * k = (s.current dp).size → ∀ e ∈ s.slots dp, e.inum ≠ 0) :
    s.packed sb dp ↔ direntSize * k = (s.current dp).size ∧ ¬ s.fits sb dp k := by
  have hfits : direntSize * k = (s.current dp).size → (¬ s.fits sb dp k ↔
      maxFile * bSize < (s.current dp).size + direntSize ∨
        (s.free sb).card < (s.missing dp (rangePlaces (s.current dp).size direntSize)).card) := by
    intro hend
    rw [FS.fits, hend, not_and_or, not_le, not_le]
  constructor
  · rintro ⟨hfull, hgrow⟩
    have hend : direntSize * k = (s.current dp).size := by
      refine hk.resolve_left (fun hin => ?_)
      have hget : (s.slots dp)[k]? = _ := getElem?_entries h.dir hin
      exact hfull _ (List.mem_of_getElem? hget) (hempty _ hget)
    exact ⟨hend, (hfits hend).2 hgrow⟩
  · rintro ⟨hend, hnot⟩
    exact ⟨hlast hend, (hfits hend).1 hnot⟩

theorem DirectoryFile.enter (h : DirectoryFile sb dp s) :
    Ends (do
      let s ← get
      let (off, _) ← dirSearch sb dp (fun de => de.inum = 0) .dirlinkRead (s.body dp).size 0
      let n ← writei sb dp (fromKernel (encodeDirent inum name)) off direntSize
      if n ≠ direntSize then pure (-1 : ℤ) else pure 0) s (fun r t =>
      (Distinct Dirent.binding (t.slots dp) → Directory sb dp t) ∧
      ((r = -1 ∧ s.packed sb dp ∧ t.slots dp = s.slots dp ∧ (t.current dp).size = (s.current dp).size) ∨
        (r = 0 ∧ ¬ s.packed sb dp ∧
          (∃ k, (∀ e, (s.slots dp)[k]? = some e → e.inum = 0) ∧
            Replaced (s.slots dp) (t.slots dp) k (decodeDirent (encodeDirent inum name))) ∧
          ((∃ e ∈ s.slots dp, e.inum = 0) → (t.current dp).size = (s.current dp).size)))) E := by
  simp only [ends_bind, ends_get]
  refine (h.search _).imp ?_
  rintro ⟨off, r⟩ u ⟨rfl, hs⟩
  obtain ⟨k, rfl, hk, hempty, hlast⟩ := hs.slot h.dir
  have hpacked := h.packed_iff hk hempty hlast
  refine (h.store length_encodeDirent hk).imp ?_
  rintro r v ⟨hdir, -, hthere, ⟨hne, hnot, hslots, hsize⟩ | ⟨rfl, hfits, hrep, hsize⟩⟩
  · rw [if_pos hne, ends_pure]
    have hend := hk.resolve_left (fun hin => hne (hthere hin))
    exact ⟨hdir, .inl ⟨rfl, hpacked.2 ⟨hend, hnot⟩, hslots, hsize⟩⟩
  · rw [if_neg (not_not.2 rfl), ends_pure]
    refine ⟨hdir, .inr ⟨rfl, fun hp => (hpacked.1 hp).2 hfits, ⟨k, hempty, hrep⟩, ?_⟩⟩
    rintro ⟨e, he, hzero⟩
    rw [hsize]
    refine max_eq_left ?_
    rcases hk with hk | hk
    · rwa [Nat.mul_succ] at hk
    · exact absurd hzero (hlast hk e he)

theorem Directory.link (h : Directory sb dp s) (hpos : inum ≠ 0) (hshort : inum < 2 ^ 16) :
    Ends (dirlink sb dp name inum) s (fun r t => Directory sb dp t ∧ (r = -1 ∨ r = 0) ∧
      (r = -1 ↔ s.dirMap dp name ≠ none ∨ s.packed sb dp) ∧
      (r = -1 → t.dirMap dp = s.dirMap dp) ∧
      (r = 0 → ∀ other, t.dirMap dp other =
        if cutName other = cutName name then some inum else s.dirMap dp other) ∧
      ((∃ e ∈ s.slots dp, e.inum = 0) → (t.current dp).size = (s.current dp).size))
      (TableFull s) := by
  rw [dirlink, ends_bind]
  refine h.lookup.imp ?_
  rintro (_ | ⟨i, off⟩) t ⟨hst, hmap, hsame, hfound⟩
  · obtain rfl := hsame rfl
    have hnone : t.dirMap dp name = none := hmap.symm
    have hbind : (decodeDirent (encodeDirent inum name)).binding = some (cutName name, inum) := by
      rw [decode_encodeDirent, Dirent.binding_eq_some]
      exact ⟨Nat.mod_eq_of_lt hshort, hpos, cutName_padName⟩
    refine h.enter.imp ?_
    rintro r v ⟨hdir, ⟨rfl, hpacked, hslots, hsize⟩ | ⟨rfl, hpacked, ⟨k, hempty, hrep⟩, hsize⟩⟩
    · have hmap : v.dirMap dp = t.dirMap dp := by
        funext other
        rw [FS.dirMap, FS.dirMap, hslots]
      exact ⟨hdir (by rw [hslots]; exact h.distinct), .inl rfl, iff_of_true rfl (.inr hpacked), fun _ => hmap,
        fun hr => absurd hr (by decide), fun _ => hsize⟩
    · obtain ⟨hdistinct, hvalue⟩ := h.distinct.insert hrep hbind
        (fun y hy => Dirent.binding_eq_none.2 (hempty y hy)) hnone
      refine ⟨hdir hdistinct, .inr rfl, iff_of_false (by decide) ?_, fun hr => absurd hr (by decide),
        fun _ other => ?_, hsize⟩
      · exact not_or.2 ⟨not_not.2 hnone, hpacked⟩
      · rw [FS.dirMap, FS.dirMap, hvalue, Function.update_apply]
  · obtain ⟨hspare, -⟩ := hfound i off rfl
    have hsome : s.dirMap dp name = some i := hmap.symm
    refine (iput_aside hspare).bind ?_
    intro _ u hu
    have hsu := hst.trans hu
    refine ⟨h.aside hsu, .inl rfl, ?_, fun _ => hsu.dirMap, fun hr => absurd hr (by decide), fun _ => ?_⟩
    · rw [hsome]
      simp
    · rw [hsu.current]

/-- The zeroing of an entry in `sys_unlink`. -/
def zeroEntry (sb : Superblock) (dp off : ℕ) : M Unit := do
  let n ← writei sb dp (fromKernel (List.replicate direntSize 0)) off direntSize
  if n ≠ direntSize then throw .unlinkWritei
  else pure ()

/-- What `sys_unlink` does to the directory of the name: it looks it up and zeroes the entry. The
reference to the inode is dropped. -/
def zeroName (sb : Superblock) (dp : ℕ) (name : Name) : M ℤ := do
  match ← dirlookup sb dp name with
  | none => pure (-1)
  | some (ip, off) => do
    zeroEntry sb dp off
    iput sb ip
    pure 0

theorem Directory.zero (h : Directory sb dp s) :
    Ends (zeroName sb dp name) s (fun r t => Directory sb dp t ∧
      (r = if s.dirMap dp name = none then -1 else 0) ∧
      (∀ other, t.dirMap dp other = if cutName other = cutName name then none else s.dirMap dp other) ∧
      (t.current dp).size = (s.current dp).size) (TableFull s) := by
  rw [zeroName, ends_bind]
  refine h.lookup.imp ?_
  rintro (_ | ⟨i, off⟩) t ⟨hst, hmap, hsame, hfound⟩
  · obtain rfl := hsame rfl
    have hnone : t.dirMap dp name = none := hmap.symm
    refine ⟨h, by rw [if_pos hnone], fun other => ?_, rfl⟩
    split
    · rename_i hcut
      rw [FS.dirMap, hcut]
      exact hnone
    · rfl
  · obtain ⟨hspare, k, e, rfl, hget, hbind⟩ := hfound i off rfl
    have hsome : s.dirMap dp name = some i := hmap.symm
    have ht := h.aside hst
    have hin : direntSize * (k + 1) ≤ (t.current dp).size := by
      obtain ⟨hlt, -⟩ := List.getElem?_eq_some_iff.1 hget
      rw [FS.slots, length_entries _ h.dir] at hlt
      rw [hst.current, Nat.mul_comm]
      exact (Nat.le_div_iff_mul_le (by decide)).1 hlt
    have hempty : (decodeDirent (List.replicate direntSize 0)).binding = none := by
      rw [decode_erased, Dirent.binding_eq_none]
    simp only [zeroEntry, ends_bind]
    refine (ht.store List.length_replicate (.inl hin)).imp ?_
    rintro r u ⟨hdir, hkept, hthere, hstored⟩
    obtain rfl := hthere hin
    rw [if_neg (not_not.2 rfl), ends_pure]
    obtain ⟨-, -, hrep, hsize⟩ := hstored.resolve_left (fun hc => hc.1 rfl)
    rw [← hst.slots] at hget
    obtain ⟨hdistinct, hvalue⟩ := ht.distinct.erase hrep hempty hget hbind
    refine (iput_aside (hkept i hspare)).imp ?_
    intro _ v hv
    refine ⟨(hdir hdistinct).aside hv, by rw [hsome]; rfl, fun other => ?_, ?_⟩
    · rw [hv.dirMap, FS.dirMap, hvalue, Function.update_apply, ← hst.dirMap]
      rfl
    · rw [hv.current, hsize, ← hst.current]
      exact max_eq_left (by rwa [Nat.mul_succ] at hin)

/-- What happens to a directory. `elsewhere` is what the kernel does to the rest of the file
system meanwhile, up to the state `t`. -/
inductive DirOperation
  | dirlink (name : Name) (inum : ℕ)
  | unlink (name : Name)
  | elsewhere (t : FS)

def dirStep (sb : Superblock) (dp : ℕ) (s : FS) : DirOperation → Option FS
  | .dirlink name inum =>
    match dirlink sb dp name inum s with
    | .ok (_, t) => some t
    | .error _ => none
  | .unlink name =>
    match zeroName sb dp name s with
    | .ok (_, t) => some t
    | .error _ => none
  | .elsewhere t => some t

/-- Inode numbers fit into 16 bits and are not 0, and what happens elsewhere leaves the entries as
they are. -/
def Proper (sb : Superblock) (dp : ℕ) (s : FS) : DirOperation → Prop
  | .dirlink _ inum => inum ≠ 0 ∧ inum < 2 ^ 16
  | .unlink _ => True
  | .elsewhere t => Directory sb dp t ∧ t.slots dp = s.slots dp

theorem Directory.step {op : DirOperation} (h : Directory sb dp s) (hproper : Proper sb dp s op)
    (hstep : dirStep sb dp s op = some t) : Directory sb dp t := by
  cases op with
  | dirlink name inum =>
    rw [dirStep] at hstep
    split at hstep
    · rename_i r u hok
      cases hstep
      exact ((h.link hproper.1 hproper.2).of_ok hok).1
    · cases hstep
  | unlink name =>
    rw [dirStep] at hstep
    split at hstep
    · rename_i r u hok
      cases hstep
      exact (h.zero.of_ok hok).1
    · cases hstep
  | elsewhere u =>
    cases hstep
    exact hproper.1

/-- A directory is a finite map on cut names, after any run of `dirlink` and of the zeroing in
`sys_unlink`. -/
theorem directory_is_map {ops : List DirOperation} (h : Directory sb dp s)
    (hrun : Run (dirStep sb dp) (Proper sb dp) s ops t) :
    (∀ (j k : ℕ) (e e' : Dirent), (t.slots dp)[j]? = some e → (t.slots dp)[k]? = some e' →
      e.inum ≠ 0 → e'.inum ≠ 0 →
      cutName e.name = cutName e'.name → j = k) ∧
    (∀ name inum, t.dirMap dp name = some inum ↔
      inum ≠ 0 ∧ ∃ e ∈ t.slots dp, e.inum = inum ∧ cutName e.name = cutName name) ∧
    (∀ name, Ends (dirlookup sb dp name) t (fun r u => r.map Prod.fst = t.dirMap dp name ∧
      u.slots dp = t.slots dp) (TableFull t)) ∧
    (∀ name inum, inum ≠ 0 → inum < 2 ^ 16 → Ends (dirlink sb dp name inum) t (fun r u =>
      (r = -1 ∨ r = 0) ∧
      (r = -1 ↔ t.dirMap dp name ≠ none ∨ t.packed sb dp) ∧
      (r = -1 → u.dirMap dp = t.dirMap dp) ∧
      (r = 0 → ∀ other, u.dirMap dp other =
        if cutName other = cutName name then some inum else t.dirMap dp other) ∧
      ((∃ e ∈ t.slots dp, e.inum = 0) → (u.current dp).size = (t.current dp).size)) (TableFull t)) ∧
    ∀ name, Ends (zeroName sb dp name) t (fun r u =>
      (r = if t.dirMap dp name = none then -1 else 0) ∧
      (∀ other, u.dirMap dp other =
        if cutName other = cutName name then none else t.dirMap dp other) ∧
      (u.current dp).size = (t.current dp).size) (TableFull t) := by
  have ht : Directory sb dp t := hrun.invariant h (fun _ _ _ hv hok hnext => hv.step hok hnext)
  refine ⟨fun j k e e' hj hk hne hne' hname => ?_, fun name inum => ?_, fun name => ?_,
    fun name inum hpos hshort => ?_, fun name => ?_⟩
  · exact ht.distinct hj hk (Dirent.binding_eq_some.2 ⟨rfl, hne, rfl⟩)
      (Dirent.binding_eq_some.2 ⟨rfl, hne', hname.symm⟩)
  · rw [FS.dirMap, value_eq_some ht.distinct]
    constructor
    · rintro ⟨k, e, he, hbind⟩
      obtain ⟨hinum, hne, hname⟩ := Dirent.binding_eq_some.1 hbind
      exact ⟨hne, e, List.mem_of_getElem? he, hinum, hname⟩
    · rintro ⟨hne, e, he, hinum, hname⟩
      obtain ⟨k, hk⟩ := List.mem_iff_getElem?.1 he
      exact ⟨k, e, hk, Dirent.binding_eq_some.2 ⟨hinum, hne, hname⟩⟩
  · exact ht.lookup.mono (fun _ _ hr => ⟨hr.2.1, hr.1.slots⟩) (fun _ h => h)
  · exact (ht.link hpos hshort).mono (fun _ _ hr => hr.2) (fun _ h => h)
  · exact ht.zero.mono (fun _ _ hr => hr.2) (fun _ h => h)

section SmallDisk

theorem Sound.directory {T : Multiset ℕ} (h : Sound sb T s) (hl : s.live dp)
    (hdir : (s.current dp).type = .dir) (haligned : direntSize ∣ (s.current dp).size)
    (hdistinct : Distinct Dirent.binding (s.slots dp)) : Directory sb dp s :=
  ⟨⟨h.blocks, hl, FS.mem_of_live h hl, hdir, h.filled dp (FS.mem_of_live h hl) hdir, haligned⟩, hdistinct⟩

/-- An entry made, taken out, and made again for another inode. -/
def entryCalls : List DirOperation := [.dirlink [97] 300, .unlink [97], .dirlink [97] 65535]

def inRange : DirOperation → Bool
  | .dirlink _ inum => inum != 0 && inum < 2 ^ 16
  | .unlink _ => true
  | .elsewhere _ => false

theorem proper_of_inRange {op : DirOperation} (h : inRange op = true) : Proper sb dp s op := by
  cases op with
  | dirlink name inum => simpa [inRange, Proper] using h
  | unlink name => trivial
  | elsewhere t => cases h

set_option maxRecDepth 100000 in
theorem directory_is_map_small : ∃ s t, Directory smallSb 2 s ∧
    Run (dirStep smallSb 2) (Proper smallSb 2) s entryCalls t ∧ t.dirMap 2 [97] = some 65535 ∧
    Ends (dirlookup smallSb 2 [97]) t (fun r u => r.map Prod.fst = t.dirMap 2 [97] ∧
      u.slots 2 = t.slots 2) (TableFull t) := by
  obtain ⟨s, howes, hl, hdir, hsize, hslots, hcalls⟩ : ∃ s,
      Run (operate smallSb) (fun s op => owesFiles smallSb s op = true) (smallSys (· < 32) 32).fs
        [.iget 2, .ilock 2] s ∧
      s.live 2 ∧ (s.current 2).type = .dir ∧ (s.current 2).size = 32 ∧
      s.slots 2 = [⟨2, padName dot⟩, ⟨1, padName dotdot⟩] ∧
      (execute (dirStep smallSb 2) (fun _ op => inRange op = true) s entryCalls).any
        (fun t => decide (t.dirMap 2 [97] = some 65535)) = true := exists_run (by decide +kernel)
  obtain ⟨t, hcalls, hmap⟩ := exists_run hcalls
  have hsolid : Solid smallSb s := by
    refine (howes.weaken (fun _ _ => owed_of_owesFiles)).invariant
      ⟨⟨_, smallSys_consistent.sound⟩, smallSys_dense⟩ ?_
    exact fun _ _ _ hv hok hnext => operate_solid hv hok hnext
  obtain ⟨⟨T, hsound⟩, -⟩ := hsolid
  have hdistinct : Distinct Dirent.binding (s.slots 2) := by
    rw [hslots]
    exact distinct_of_nodup (by decide)
  have hd := hsound.directory hl hdir (by rw [hsize]; decide) hdistinct
  have hrun : Run (dirStep smallSb 2) (Proper smallSb 2) s entryCalls t :=
    hcalls.weaken (fun _ _ => proper_of_inRange)
  exact ⟨s, t, hd, hrun, hmap, (directory_is_map hd hrun).2.2.1 [97]⟩

end SmallDisk

end Xv6.FileSystem
