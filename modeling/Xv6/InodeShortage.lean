import Xv6.DirectoryIntegrity
import Xv6.DirectoryMaps
import Xv6.PathComponents

/-!
# Running out of inode table entries

A process may keep sixteen files open and there are a hundred file structures, but the inode
table has fifty entries, and `iget` panics when it needs one more.
-/

namespace Xv6.FileSystem

open ActionPaths ByteBlocks PanicPrograms Relation SlotMaps TransitionRuns

section Runs

variable {sb : Superblock} {s t : Procs} {as : List (ℕ × ProcCall)}

/-- A call that starts with three entries to spare does not look for another in vain. -/
theorem procCall_room {p : s.used} {a : ProcCall} (h : Consistent sb s.sys) (htallied : s.sys.fs.Tallied sb)
    (hroom : s.sys.refs.toFinset.card + 3 ≤ nInode) : procCall sb s p a ≠ .error .igetNoInodes := by
  intro hcall
  rcases procCall_error h hcall with he | ⟨c, t, -, hcause, hpath⟩
  · cases he
  · have ht : t.fs.Tallied sb := path_keeps (fun _ _ ha => ha.tallied) hpath htallied
    rcases hcause with ⟨hfull, T, hT, hsound⟩ | hc | hc | hc
    · rw [ht, hsound.inUse_eq] at hfull
      have hcard := hT.card_le
      omega
    · cases hc.1
    · cases hc
    · cases hc

/-- After any calls of any processes: while their directories and open files are at most
forty-seven different inodes, no call finds the table full. -/
theorem inodes_suffice (hsane : Superblock.Sane sb) (hdisk : BlockOwnership sb s.sys.fs)
    (hintact : Intact sb s.sys.fs) (hboot : Booted sb s.sys)
    (hactive : s.sys.fs.active = s.sys.refs.toFinset.card) (hrun : Run (procStep sb) unguarded s as t)
    (hroom : t.sys.refs.toFinset.card + 3 ≤ nInode) (p : t.used) (a : ProcCall) :
    procCall sb t p a ≠ .error .igetNoInodes := by
  have hcons := hboot.consistent hsane hdisk hintact
  have htallied : s.sys.fs.Tallied sb := by rw [FS.Tallied, hcons.sound.inUse_eq, hactive]
  obtain ⟨ht, htallied'⟩ := procRun_invariant (fun ha => ha.tallied) hcons htallied hrun
  exact procCall_room ht htallied' hroom

end Runs

set_option maxRecDepth 100000 in
theorem inodes_suffice_shared : ∃ t, Run (procStep smallSb) unguarded smallProcs sharedCalls t ∧
    ∀ p a, procCall smallSb t p a ≠ .error .igetNoInodes := by
  obtain ⟨t, hrun, hroom⟩ : ∃ t, Run (procStep smallSb) unguarded smallProcs sharedCalls t ∧
      t.sys.refs.toFinset.card + 3 ≤ nInode := exists_run (by decide +kernel)
  exact ⟨t, hrun, inodes_suffice smallSb_sane (smallSys_ownership 32 (by simp)) smallSys_intact
    smallProcs_booted (by decide +kernel) hrun hroom⟩

section FullTable

def wideSb : Superblock := { smallSb with ninodes := 64, bmapstart := 9 }

/-- Entry `k` of the root directory: `.`, `..`, or a file with a name of one letter. -/
def wideEntry (k : ℕ) : List Byte :=
  if k = 0 then encodeDirent 1 dot
  else if k = 1 then encodeDirent 1 dotdot
  else encodeDirent k [BitVec.ofNat 8 (64 + k)]

/-- Fifty empty files in the root directory, and four processes. -/
def wideProcs : Procs where
  used := Finset.range 4
  sys :=
    { fs :=
        { bitmap := (· < 31)
          dinode := fun i =>
            if i = rootIno then smallDir 30 832 1
            else if 1 < i ∧ i < 52 then { newDinode .file with nlink := 1 } else newDinode .none
          data := fun b => if b = 30 then fun o => (wideEntry (o / 16)).getD (o % 16) 0 else zeros
          inode := fun i =>
            { ref := if i = rootIno then 4 else 0, valid := false, body := newDinode .none }
          active := 1
          logged := [] }
      file := fun _ => ⟨0, .none, false, 0⟩
      cwd := fun _ => rootIno
      ofile := fun _ _ => none }

def opens (p k : ℕ) : ℕ × ProcCall :=
  (p, .call (.sysOpen [BitVec.ofNat 8 (64 + k), 0] ⟨false, false, false, false, false⟩))

/-- Four processes open forty-nine files. -/
def manyOpens : List (ℕ × ProcCall) := (List.range 49).map (fun k => opens (k / 13) (k + 2))

theorem diskSlot_wide (x : ℕ × ℕ) : wideProcs.sys.fs.diskSlot wideSb x = if x = (1, 0) then 30 else 0 := by
  obtain ⟨i, k⟩ := x
  simp only [FS.diskSlot, wideProcs, rootIno, Prod.mk.injEq]
  by_cases h1 : i = 1
  · subst h1
    simp only [if_true, place_smallDir]
    simp [wideSb, smallDir, newDinode]
  · simp only [h1, if_false, false_and]
    split_ifs <;> simp_all [place, newDinode]

theorem wide_ownership : BlockOwnership wideSb wideProcs.sys.fs := by
  rw [blockOwnership_iff (by decide)]
  refine ⟨fun x => ?_, fun x y => ?_, fun b hlo hhi => ⟨fun hb => ⟨(1, 0), ?_⟩, ?_⟩⟩
  · rw [diskSlot_wide]
    split
    · exact fun _ => by decide
    · exact fun h0 => absurd rfl h0
  · simp only [diskSlot_wide]
    intro hx heq
    split_ifs at hx heq <;> simp_all
  · have hlo' : 30 ≤ b := hlo
    have hhi' : b < 31 := by simpa [wideProcs] using hb
    rw [diskSlot_wide, if_pos rfl]
    omega
  · rintro ⟨x, rfl⟩
    rw [diskSlot_wide] at hlo ⊢
    split <;> decide

theorem wide_intact : Intact wideSb wideProcs.sys.fs := by
  refine ⟨fun b hb => ?_, fun i hi htype p hp => ?_, by decide +kernel⟩
  · have hb' : b < 30 := hb
    simpa [wideProcs] using by omega
  · have h1 : i = rootIno := by
      by_contra hne
      simp only [wideProcs, if_neg hne] at htype
      split at htype <;> cases htype
    subst h1
    have hp' : p < 832 := hp
    have hplace : place wideProcs.sys.fs.data (wideProcs.sys.fs.dinode rootIno)
        (contentPlace (p / bSize)) = 30 := by
      rw [Nat.div_eq_of_lt (hp'.trans (by decide))]
      rfl
    rw [byteAt, hplace]
    simp

theorem wide_booted : Booted wideSb wideProcs.sys := by
  refine ⟨fun i => ?_, fun _ => rfl, fun _ => show rootIno < 64 by decide, fun _ => ⟨rfl, rfl⟩, fun _ _ => rfl⟩
  simp [wideProcs, Sys.refs, File.held, Multiset.count_nsmul, Multiset.count_singleton]
  rfl

/-- Whether a call panics for want of an entry in the inode table. -/
def outOfInodes (sb : Superblock) (s : Procs) (a : ℕ × ProcCall) : Bool :=
  if h : a.1 ∈ s.used then procCall sb s ⟨a.1, h⟩ a.2 matches .error .igetNoInodes else false

set_option maxRecDepth 100000 in
theorem exists_fullTable : ∃ t, Run (procStep wideSb) unguarded wideProcs manyOpens t ∧
    outOfInodes wideSb t (opens 3 51) = true ∧
    (t.sys.fs.live rootIno ∧ (t.sys.fs.current rootIno).type = .dir ∧
      direntSize ∣ (t.sys.fs.current rootIno).size ∧
      ((t.sys.fs.slots rootIno).map (fun e => e.binding.map Prod.fst)).Nodup) ∧
    t.sys.fs.dirMap rootIno [115] = some 51 ∧
    follow (t.sys.fs.view wideSb) rootIno (components [115]) = some 51 ∧
    (dirlookup wideSb rootIno [115] t.sys.fs matches .error .igetNoInodes) = true ∧
    (namei wideSb rootIno [115] t.sys.fs matches .error .igetNoInodes) = true :=
  exists_run (by decide +kernel)

/-- With forty-nine files open and the root directory in use, `open` of one more file panics. -/
theorem opens_exhaust_inodes : (BlockOwnership wideSb wideProcs.sys.fs ∧ Intact wideSb wideProcs.sys.fs ∧
      Booted wideSb wideProcs.sys ∧ wideProcs.sys.fs.active = wideProcs.sys.refs.toFinset.card) ∧
    ∃ t p, Run (procStep wideSb) unguarded wideProcs manyOpens t ∧
      procCall wideSb t p (opens 3 51).2 = .error .igetNoInodes := by
  obtain ⟨t, hrun, hpanic, -⟩ := exists_fullTable
  rw [outOfInodes] at hpanic
  split at hpanic
  · rename_i hp
    refine ⟨⟨wide_ownership, wide_intact, wide_booted, by decide +kernel⟩, t, ⟨3, hp⟩, hrun, ?_⟩
    split at hpanic
    · assumption
    · cases hpanic
  · cases hpanic

/-- In that state `dirlookup` of a name that is in the root directory panics. -/
theorem dirlookup_exhausts_inodes : ∃ t, Run (procStep wideSb) unguarded wideProcs manyOpens t ∧
    Directory wideSb rootIno t.sys.fs ∧ t.sys.fs.dirMap rootIno [115] = some 51 ∧
    dirlookup wideSb rootIno [115] t.sys.fs = .error .igetNoInodes := by
  obtain ⟨t, hrun, -, ⟨hl, hdir, haligned, hnodup⟩, hmap, -, hpanic, -⟩ := exists_fullTable
  have hcons := wide_booted.consistent ⟨by decide, by decide, by decide⟩ wide_ownership wide_intact
  obtain ⟨ht, -⟩ := procRun_invariant (I := fun _ => True) (fun _ h => h) hcons trivial hrun
  refine ⟨t, hrun, ht.sound.directory hl hdir haligned (distinct_of_nodup hnodup), hmap, ?_⟩
  split at hpanic
  · assumption
  · cases hpanic

end FullTable

end Xv6.FileSystem
