import Xv6.DenseFiles
import Xv6.SlotMaps

/-!
# The slots of a directory

A directory maps names, cut to `DIRSIZ` bytes, to inode numbers. `dirlookup` reads the map from
the slots, and `writei` of an entry sets one slot.
-/

namespace Xv6.FileSystem

open ByteBlocks Function PanicPrograms SlotMaps

/-- The name and the inode number of an entry in use. -/
def Dirent.binding (e : Dirent) : Option (Name × ℕ) :=
  if e.inum = 0 then none else some (cutName e.name, e.inum)

def FS.slots (s : FS) (dp : ℕ) : List Dirent := entries s.data (s.current dp)

def FS.dirMap (s : FS) (dp : ℕ) (name : Name) : Option ℕ :=
  value Dirent.binding (s.slots dp) (cutName name)

variable {sb : Superblock} {s t u : FS} {dp i inum k : ℕ} {name : Name} {e : Dirent} {bs : List Byte}
  {found : Dirent → Bool} {short : Panic} {E : Panic → Prop}

theorem Dirent.binding_eq_none : e.binding = none ↔ e.inum = 0 := by
  rw [Dirent.binding]
  split <;> simp_all

theorem Dirent.binding_eq_some : e.binding = some (name, inum) ↔
    e.inum = inum ∧ inum ≠ 0 ∧ cutName e.name = name := by
  rw [Dirent.binding]
  split
  · rename_i hzero
    simp only [reduceCtorEq, false_iff]
    rintro ⟨rfl, hne, -⟩
    exact hne hzero
  · rename_i hne
    rw [Option.some.injEq, Prod.mk.injEq]
    constructor
    · rintro ⟨rfl, rfl⟩
      exact ⟨rfl, hne, rfl⟩
    · rintro ⟨rfl, -, rfl⟩
      exact ⟨rfl, rfl⟩

theorem hasName_iff : hasName name e = true ↔ e.binding = some (cutName name, e.inum) := by
  rw [Dirent.binding_eq_some, hasName, decide_eq_true_iff, namecmp, decide_eq_true_iff, eq_comm]
  exact ⟨fun h => ⟨rfl, h⟩, fun h => h.2⟩

/-- Only the inode table has changed, and the copies in it are as they were. -/
structure Aside (s t : FS) : Prop where
  data : t.data = s.data
  bitmap : t.bitmap = s.bitmap
  current : t.current = s.current
  live : ∀ j, s.live j → t.live j

theorem Aside.refl : Aside s s := ⟨rfl, rfl, rfl, fun _ h => h⟩

theorem Aside.trans (h : Aside s t) (h' : Aside t u) : Aside s u :=
  ⟨h'.data.trans h.data, h'.bitmap.trans h.bitmap, h'.current.trans h.current,
    fun j hj => h'.live j (h.live j hj)⟩

theorem Aside.of_update {x : Inode} (hdata : t.data = s.data) (hbitmap : t.bitmap = s.bitmap)
    (hdinode : t.dinode = s.dinode) (hinode : t.inode = update s.inode i x)
    (hlive : s.live i ↔ 0 < x.ref ∧ x.valid = true) (hbody : x.body = s.body i) : Aside s t := by
  have hother : ∀ j ≠ i, t.inode j = s.inode j := by
    intro j hne
    rw [hinode, update_of_ne hne]
  have hself : t.inode i = x := by rw [hinode, update_self]
  have hlives : ∀ j, t.live j ↔ s.live j := by
    intro j
    rcases eq_or_ne j i with rfl | hne
    · rw [hlive, FS.live, hself]
    · rw [FS.live, FS.live, hother j hne]
  refine ⟨hdata, hbitmap, funext (fun j => ?_), fun j => (hlives j).2⟩
  rcases eq_or_ne j i with rfl | hne
  · simp only [FS.current, hlives, FS.body, hself, hbody, hdinode]
  · exact FS.current_congr (hother j hne) (congrFun hdinode j)

/-- A reference that is not the last one to a copy. -/
def FS.spare (s : FS) (i : ℕ) : Prop := 0 < (s.inode i).ref ∧ ((s.inode i).ref = 1 → (s.inode i).valid = false)

theorem iget_aside : Ends (iget i) s (fun r t => r = i ∧ Aside s t ∧ t.spare i)
    (fun e => e = .igetNoInodes ∧ nInode ≤ s.active) := by
  simp only [iget, ends_bind, ends_get]
  refine ends_ite (fun hpos => ?_) (fun hzero => ends_ite (fun hfull => ⟨rfl, hfull⟩) (fun _ => ?_))
  · refine ⟨rfl, .of_update rfl rfl rfl rfl ?_ rfl, ?_⟩
    · simp [FS.live, hpos]
    · simp only [FS.spare, FS.setInode, update_self]
      omega
  · refine ⟨rfl, .of_update rfl rfl rfl rfl ?_ rfl, ?_⟩
    · simp [FS.live, hzero]
    · simp [FS.spare, FS.setInode]

theorem iput_aside (h : s.spare i) : Ends (iput sb i) s (fun _ t => Aside s t) E := by
  obtain ⟨hpos, hlast⟩ := h
  simp only [iput, ends_bind, ends_get]
  have hquiet : ¬ ((s.inode i).ref = 1 ∧ (s.inode i).valid = true ∧ (s.body i).nlink = 0) := by
    rintro ⟨hone, hvalid, -⟩
    rw [hlast hone] at hvalid
    cases hvalid
  rw [if_neg hquiet, ends_modify]
  refine .of_update rfl rfl rfl rfl ?_ rfl
  rw [FS.live]
  refine and_congr_left (fun hvalid => ?_)
  have hne : (s.inode i).ref ≠ 1 := by
    intro hone
    rw [hlast hone] at hvalid
    cases hvalid
  dsimp only
  omega

/-- A directory in the inode table, without holes and of whole entries. -/
structure DirectoryFile (sb : Superblock) (dp : ℕ) (s : FS) : Prop where
  blocks : Blocks sb s
  live : s.live dp
  lt : dp < sb.ninodes
  dir : (s.current dp).type = .dir
  dense : s.dense dp
  aligned : direntSize ∣ (s.current dp).size

/-- A directory in the inode table that has no name twice. -/
structure Directory (sb : Superblock) (dp : ℕ) (s : FS) : Prop extends DirectoryFile sb dp s where
  distinct : Distinct Dirent.binding (s.slots dp)

theorem Aside.slots (h : Aside s t) : t.slots dp = s.slots dp := by
  rw [FS.slots, FS.slots, h.data, h.current]

theorem Aside.dirMap (h : Aside s t) : t.dirMap dp = s.dirMap dp := by
  funext name
  rw [FS.dirMap, FS.dirMap, h.slots]

theorem Directory.aside (h : Directory sb dp s) (hst : Aside s t) : Directory sb dp t where
  blocks := h.blocks.congr hst.bitmap hst.data hst.current
  live := hst.live dp h.live
  lt := h.lt
  dir := by rw [hst.current]; exact h.dir
  dense := by
    intro p
    rw [hst.current, hst.data]
    exact h.dense p
  aligned := by rw [hst.current]; exact h.aligned
  distinct := by rw [hst.slots]; exact h.distinct

theorem DirectoryFile.search (h : DirectoryFile sb dp s) (found : Dirent → Bool) :
    Ends (dirSearch sb dp found short (s.body dp).size 0) s (fun r t => t = s ∧
      Searched (s.slots dp) found 0 (s.current dp).size r) E := by
  have hself := FS.current_of_live h.live
  have hdir := h.dir
  have hdense := h.dense
  have haligned := h.aligned
  rw [FS.dense] at hdense
  rw [hself] at hdir hdense haligned
  have hsearch := dirSearch_ends (k := 0) sb found short hdir hdense
    (by rw [Nat.zero_add]; exact Nat.le_mul_of_pos_left _ (by decide))
  have hwhole : Ends (dirSearch sb dp found short (s.body dp).size (direntSize * 0)) s
      (fun _ _ => True) (fun _ => False) := dirSearch_aligned hdir hdense haligned
  rw [FS.slots, hself]
  exact (hsearch.both hwhole).mono (fun _ _ hr => hr.1) (fun _ he => he.2.elim)

/-- `dirlookup` returns what the directory maps the name to, with a reference to it. -/
theorem Directory.lookup (h : Directory sb dp s) :
    Ends (dirlookup sb dp name) s (fun r t => Aside s t ∧ r.map Prod.fst = s.dirMap dp name ∧
      (r = none → t = s) ∧ ∀ i off, r = some (i, off) → t.spare i ∧ ∃ k e, off = direntSize * k ∧
        (s.slots dp)[k]? = some e ∧ e.binding = some (cutName name, i))
      (fun e => e = .igetNoInodes ∧ nInode ≤ s.active) := by
  have hself := FS.current_of_live h.live
  have hdir : (s.body dp).type = .dir := by
    rw [← hself]
    exact h.dir
  simp only [dirlookup, ends_bind, ends_get]
  rw [if_neg (not_not.2 hdir)]
  refine (h.search (hasName name)).bind ?_
  rintro ⟨off, r⟩ t ⟨rfl, hs⟩
  rw [Searched, List.drop_zero] at hs
  cases hidx : (t.slots dp).findIdx? (hasName name) with
  | none =>
    rw [hidx] at hs
    obtain ⟨rfl, -⟩ := hs
    refine ⟨.refl, ?_, fun _ => rfl, fun i off hr => by cases hr⟩
    have hnone : t.dirMap dp name = none := by
      rw [FS.dirMap, value_eq_none]
      intro e he i hbind
      have hi := (Dirent.binding_eq_some.1 hbind).1
      rw [← hi] at hbind
      exact absurd (hasName_iff.2 hbind) (by simpa using List.findIdx?_eq_none_iff.1 hidx e he)
    rw [hnone]
    rfl
  | some n =>
    rw [hidx] at hs
    simp only [Nat.zero_add] at hs
    obtain ⟨rfl, rfl, hlt⟩ := hs
    obtain ⟨_, hname, -⟩ := List.findIdx?_eq_some_iff_getElem.1 hidx
    have hget := List.getElem?_eq_getElem hlt
    have hbind := hasName_iff.1 hname
    rw [hget]
    dsimp only
    rw [ends_bind]
    refine iget_aside.imp ?_
    rintro _ u ⟨rfl, hu, hspare⟩
    refine ⟨hu, ?_, fun hr => absurd hr (Option.some_ne_none _), ?_⟩
    · rw [Option.map_some, FS.dirMap, eq_comm, value_eq_some h.distinct]
      exact ⟨n, _, hget, hbind⟩
    · rintro i off ⟨rfl, rfl⟩
      exact ⟨hspare, n, _, rfl, hget, hbind⟩

/-- There is room for slot `k`: it is within `MAXFILE` blocks, and enough blocks are free for those
that it lacks. -/
def FS.fits (sb : Superblock) (s : FS) (dp k : ℕ) : Prop :=
  direntSize * k + direntSize ≤ maxFile * bSize ∧
    (s.missing dp (rangePlaces (direntSize * k) direntSize)).card ≤ (s.free sb).card

theorem Wrote.slots {m : ℕ} {a : ℕ → ℕ} (hw : Wrote sb dp (fromKernel bs) (direntSize * k) direntSize s t m u a)
    (h : DirectoryFile sb dp s) (hlen : bs.length = direntSize)
    (hk : direntSize * (k + 1) ≤ (s.current dp).size ∨ direntSize * k = (s.current dp).size) :
    (m = 0 ∧ t.slots dp = s.slots dp ∧ (t.current dp).size = (s.current dp).size) ∨
    (m = direntSize ∧ Replaced (s.slots dp) (t.slots dp) k (decodeDirent bs) ∧
      (t.current dp).size = max (s.current dp).size (direntSize * k + direntSize)) := by
  have hself := FS.current_of_live h.live
  have htype : (s.body dp).type ≠ .none := by
    rw [← hself, h.dir]
    decide
  have hdir' : (t.current dp).type = .dir := by
    rw [hw.current_self h.live, ← h.dir, hself]
    rfl
  have hsize := hw.size h.live
  obtain ⟨hwritten, hm⟩ := hw.entry hlen
  have hout : ∀ p < (s.current dp).size, ¬ (direntSize * k ≤ p ∧ p < direntSize * k + m) →
      byteAt t.data (t.current dp) p = byteAt s.data (s.current dp) p :=
    fun p hp hnot => hw.byteAt_out h.live hwritten h.lt htype hnot (h.dense p hp)
  have hle : direntSize * k ≤ (s.current dp).size := by
    rw [hself]
    exact hw.le
  rcases hm with rfl | rfl
  · rw [Nat.add_zero, max_eq_left hle] at hsize
    exact .inl ⟨rfl, entries_congr (hdir'.trans h.dir.symm) hsize
      (fun p hp => hout p hp (by omega)), hsize⟩
  · have hput := entries_putSlot h.dir hdir' hk hsize hlen
      (fun j hj => (hw.byteAt_in h.live hj).2) hout
    refine .inr ⟨rfl, fun j => ?_, hsize⟩
    rw [FS.slots, hput]
    refine getElem?_putSlot ?_ j
    rw [length_entries _ h.dir]
    refine (Nat.le_div_iff_mul_le (by decide)).2 ?_
    rwa [Nat.mul_comm]

theorem DirectoryFile.wrote {m : ℕ} {a : ℕ → ℕ} (h : DirectoryFile sb dp s) (hlen : bs.length = direntSize)
    (hw : Wrote sb dp (fromKernel bs) (direntSize * k) direntSize s t m u a)
    (hdistinct : Distinct Dirent.binding (t.slots dp)) : Directory sb dp t where
  blocks := hw.blocks
  live := hw.live h.live
  lt := h.lt
  dir := by
    rw [hw.current_self h.live, ← h.dir, FS.current_of_live h.live]
    rfl
  dense := hw.dense h.live h.dense
  aligned := by
    have haligned := h.aligned
    rw [FS.current_of_live h.live] at haligned
    rw [hw.current_self h.live]
    exact hw.aligned hlen haligned
  distinct := hdistinct

theorem Wrote.spare {m : ℕ} {a : ℕ → ℕ} {src : ℕ → Option Byte} {off n : ℕ}
    (hw : Wrote sb dp src off n s t m u a) (h : s.spare i) : t.spare i := by
  rw [FS.spare] at h
  rw [FS.spare, hw.inode]
  rcases eq_or_ne i dp with rfl | hne
  · simpa [FS.setBody, FS.setInode] using h
  · simpa [FS.setBody, FS.setInode, update_of_ne hne] using h

/-- `writei` of an entry: it is stored if it fits, and nothing shows if it does not. An entry that
is there fits. -/
theorem DirectoryFile.store (h : DirectoryFile sb dp s) (hlen : bs.length = direntSize)
    (hk : direntSize * (k + 1) ≤ (s.current dp).size ∨ direntSize * k = (s.current dp).size) :
    Ends (writei sb dp (fromKernel bs) (direntSize * k) direntSize) s (fun r t =>
      (Distinct Dirent.binding (t.slots dp) → Directory sb dp t) ∧ (∀ i, s.spare i → t.spare i) ∧
      (direntSize * (k + 1) ≤ (s.current dp).size → r = direntSize) ∧
      ((r ≠ direntSize ∧ ¬ s.fits sb dp k ∧ t.slots dp = s.slots dp ∧
          (t.current dp).size = (s.current dp).size) ∨
        (r = direntSize ∧ s.fits sb dp k ∧ Replaced (s.slots dp) (t.slots dp) k (decodeDirent bs) ∧
          (t.current dp).size = max (s.current dp).size (direntSize * k + direntSize)))) E := by
  have hd : direntSize = 16 := rfl
  have hsucc : direntSize * (k + 1) = direntSize * k + direntSize := Nat.mul_succ _ _
  have hself := FS.current_of_live h.live
  have htype : (s.body dp).type ≠ .none := by
    rw [← hself, h.dir]
    decide
  by_cases hmax : direntSize * k + direntSize ≤ maxFile * bSize
  · have hbig : maxFile * bSize < 2 ^ 32 := by decide
    have hle : direntSize * k ≤ (s.body dp).size := by
      rw [← hself]
      omega
    refine (writei_puts h.blocks h.live h.lt htype hle (by omega) hmax
      (fun q hq => fromKernel_ne_none hlen hq)).imp ?_
    rintro _ t ⟨m, u, a, rfl, hput, hend, henough⟩
    have hslots := hput.wrote.slots h hlen hk
    have hfits : m = direntSize → s.fits sb dp k := by
      intro hm
      have hcount := ((hend hm).fills h.live).count
      exact ⟨hmax, by omega⟩
    refine ⟨h.wrote hlen hput.wrote, fun i => hput.wrote.spare, fun hin => ?_, ?_⟩
    · rcases hslots with ⟨rfl, -⟩ | ⟨rfl, -⟩
      · -- The block of the entry is there, so that the copy goes on.
        have hpres := h.dense (direntSize * k) (by omega)
        rw [hself] at hpres
        rw [hput.complete (fun q hq => fromKernel_ne_none hlen hq) hpres]
      · rfl
    · rcases hslots with ⟨rfl, hsame, hsize⟩ | ⟨rfl, hrep, hsize⟩
      · refine .inl ⟨by rw [hd]; decide, fun hf => ?_, hsame, hsize⟩
        have hzero := henough hf.2
        rw [hd] at hzero
        cases hzero
      · exact .inr ⟨rfl, hfits rfl, hrep, hsize⟩
  · refine (writei_refused (.inr (not_le.1 hmax))).imp ?_
    rintro r t ⟨rfl, rfl⟩
    refine ⟨fun hdistinct => ⟨h, hdistinct⟩, fun _ hs => hs, fun hin => ?_,
      .inl ⟨by rw [hd]; decide, fun hf => hmax hf.1, rfl, rfl⟩⟩
    have hlast := byteAt_lt (h.dense (direntSize * k + 15) (by omega))
    omega

end Xv6.FileSystem
