import Xv6.ActionPaths
import Xv6.DirectoryLinks
import Xv6.FileArrays

/-!
# The actions of the file system

Every function of the file system changes the state in a few kinds of actions: it takes and
drops references to inodes, fills an entry of the table from the disk, writes back the counters
of an inode, takes a free inode, frees one, cuts a file, or writes to one. What is said here of
each kind holds for every function that is made of them.
-/

namespace Xv6.FileSystem

open ActionPaths ByteBlocks Function PanicPrograms Relation

structure SameTable (s t : FS) : Prop where
  ref : ∀ j, (t.inode j).ref = (s.inode j).ref
  active : t.active = s.active

/-- The bytes of an entry, as `dirlink` writes it and `unlink` erases it. -/
def EntryBytes (bs : List Byte) : Prop :=
  bs = List.replicate direntSize 0 ∨ ∃ inum name, bs = encodeDirent inum name

def EntryWrite (off n : ℕ) (src : ℕ → Option Byte) : Prop :=
  ∃ l bs, off = direntSize * l ∧ n = direntSize ∧ src = fromKernel bs ∧ EntryBytes bs

/-- An action. `A` are the inodes that may be allocated, `W` those that may be written to or cut
if they are not directories, and `D` says whether directories may be written to, which is one
whole entry at a time. -/
inductive Action (sb : Superblock) (A W : ℕ → Prop) (D : Prop) (s t : FS) : Prop
  | get {i : ℕ} (lt : i < sb.ninodes) (data : t.data = s.data) (current : t.current = s.current)
      (ref : ∀ j, (t.inode j).ref = (s.inode j).ref + if j = i then 1 else 0)
      (active : t.active = s.active + if (s.inode i).ref = 0 then 1 else 0)
  | put {i : ℕ} (lt : i < sb.ninodes) (pos : 0 < (s.inode i).ref) (data : t.data = s.data)
      (current : t.current = s.current)
      (ref : ∀ j, (t.inode j).ref = (s.inode j).ref - if j = i then 1 else 0)
      (active : t.active = s.active - if (s.inode i).ref = 1 then 1 else 0)
  | load (data : t.data = s.data) (current : t.current = s.current) (table : SameTable s t)
  | relabel {i : ℕ} {d : Dinode} (data : t.data = s.data)
      (current : t.current = update s.current i d)
      (kept : d.type = (s.current i).type ∧ d.size = (s.current i).size ∧
        d.addrs = (s.current i).addrs) (table : SameTable s t)
  | alloc {i : ℕ} {type : FileType} (allowed : A i) (free : (s.current i).type = .none)
      (data : t.data = s.data)
      (current : t.current = update s.current i (newDinode type)) (table : SameTable s t)
  | erase {i : ℕ} {d : Dinode} (data : t.data = s.data)
      (current : t.current = update s.current i d) (free : d.type = .none)
      (table : SameTable s t)
  | trunc {i : ℕ} {d : Dinode} (allowed : W i) (file : (s.current i).type ≠ .dir)
      (data : t.data = s.data) (current : t.current = update s.current i d)
      (type : d.type = (s.current i).type) (size : d.size = 0) (table : SameTable s t)
  | write {i off n m : ℕ} {src : ℕ → Option Byte} {u : FS} {a : ℕ → ℕ} (lt : i < sb.ninodes)
      (live : s.live i) (typed : (s.body i).type ≠ .none)
      (target : (D ∧ (s.body i).type = .dir ∧ EntryWrite off n src) ∨
        (s.body i).type ≠ .dir ∧ W i)
      (wrote : Wrote sb i src off n s t m u a) (table : SameTable s t)

variable {sb : Superblock} {A W : ℕ → Prop} {D : Prop} {s t u : FS} {i j : ℕ}

theorem EntryBytes.length {bs : List Byte} (h : EntryBytes bs) : bs.length = direntSize := by
  rcases h with rfl | ⟨inum, name, rfl⟩
  · exact List.length_replicate
  · exact length_encodeDirent

theorem SameTable.refl : SameTable s s := ⟨fun _ => rfl, rfl⟩

theorem byteAt_addrs {data : ℕ → Block} {d d' : Dinode} (h : d'.addrs = d.addrs) (p : ℕ) :
    byteAt data d' p = byteAt data d p :=
  byteAt_congr (place_congr h (fun _ => rfl)) (fun _ => rfl)

/-- An entry is written as a whole, or not at all. -/
theorem Wrote.entry {bs : List Byte} {l m : ℕ} {a : ℕ → ℕ} (hbs : bs.length = direntSize)
    (h : Wrote sb i (fromKernel bs) (direntSize * l) direntSize s t m u a) :
    Written sb i (fun p => direntSize * l ≤ p ∧ p < direntSize * l + m) s u ∧
      (m = 0 ∨ m = direntSize) := by
  obtain ⟨hwritten, hstop⟩ := h.stored.stop (fun q hq => by
    rw [Nat.zero_add]
    exact fromKernel_ne_none hbs hq)
  refine ⟨hwritten, ?_⟩
  have hle := h.stored.le
  have hd : direntSize = 16 := rfl
  have hb : bSize = 1024 := rfl
  rw [hd] at hstop hle ⊢
  rw [hb] at hstop
  omega

theorem Wrote.aligned {bs : List Byte} {l m : ℕ} {a : ℕ → ℕ} (hbs : bs.length = direntSize)
    (h : Wrote sb i (fromKernel bs) (direntSize * l) direntSize s t m u a)
    (hsize : direntSize ∣ (s.body i).size) :
    direntSize ∣ ((s.body i).grown a (direntSize * l + m)).size := by
  obtain ⟨-, hm⟩ := h.entry hbs
  have hgrown : ((s.body i).grown a (direntSize * l + m)).size =
    max (s.body i).size (direntSize * l + m) := rfl
  rw [hgrown]
  rcases hm with rfl | rfl
  · rw [Nat.add_zero, max_eq_left h.le]
    exact hsize
  · rcases max_choice (s.body i).size (direntSize * l + direntSize) with hmax | hmax
    · rwa [hmax]
    · rw [hmax]
      exact Nat.dvd_add (Nat.dvd_mul_right _ _) dvd_rfl

def FS.DenseOn (sb : Superblock) (K : FileType → Prop) (s : FS) : Prop :=
  ∀ i < sb.ninodes, K (s.current i).type → s.dense i

def FS.Dense (sb : Superblock) (s : FS) : Prop :=
  ∀ i < sb.ninodes, (s.current i).type ≠ .none → s.dense i

def FS.Filled (sb : Superblock) (s : FS) : Prop :=
  ∀ i < sb.ninodes, (s.current i).type = .dir → s.dense i

theorem FS.dense_kept (hsize : (t.current i).size = (s.current i).size)
    (hbytes : ∀ p x, byteAt s.data (s.current i) p = some x → byteAt t.data (t.current i) p = some x)
    (h : s.dense i) : t.dense i := by
  intro p hp
  rw [hsize] at hp
  obtain ⟨x, hx⟩ := Option.ne_none_iff_exists'.1 (h p hp)
  rw [hbytes p x hx]
  exact Option.some_ne_none x

theorem FS.dense_of_empty (h : (t.current i).size = 0) : t.dense i := by
  intro p hp
  rw [h] at hp
  exact absurd hp (Nat.not_lt_zero p)

/-- What an action does to inode `j`. -/
inductive ActionAt (A W : ℕ → Prop) (D : Prop) (sb : Superblock) (j : ℕ) (s t : FS) : Prop
  | kept (type : (t.current j).type = (s.current j).type) (size : (t.current j).size = (s.current j).size)
      (bytes : (s.current j).type ≠ .none → ∀ p x, byteAt s.data (s.current j) p = some x →
        byteAt t.data (t.current j) p = some x)
  | alloc (allowed : A j) (free : (s.current j).type = .none) (size : (t.current j).size = 0)
  | erase (free : (t.current j).type = .none)
  | trunc (allowed : W j) (file : (s.current j).type ≠ .dir)
      (type : (t.current j).type = (s.current j).type) (size : (t.current j).size = 0)
  | write {off n m : ℕ} {src : ℕ → Option Byte} {u : FS} {a : ℕ → ℕ} (live : s.live j)
      (typed : (s.body j).type ≠ .none)
      (target : (D ∧ (s.body j).type = .dir ∧ EntryWrite off n src) ∨
        (s.body j).type ≠ .dir ∧ W j)
      (wrote : Wrote sb j src off n s t m u a)

theorem Action.at (h : Action sb A W D s t) (hj : j < sb.ninodes) : ActionAt A W D sb j s t := by
  have hsame : t.data = s.data → (t.current j).type = (s.current j).type →
      (t.current j).size = (s.current j).size → (t.current j).addrs = (s.current j).addrs →
      ActionAt A W D sb j s t := by
    intro hdata htype hsize haddrs
    refine .kept htype hsize (fun _ p x hx => ?_)
    rwa [hdata, byteAt_addrs haddrs]
  have hother : ∀ {i d}, t.data = s.data → t.current = update s.current i d → j ≠ i →
      ActionAt A W D sb j s t := by
    intro i d hdata hcur hne
    have hself : t.current j = s.current j := by rw [hcur, update_of_ne hne]
    exact hsame hdata (by rw [hself]) (by rw [hself]) (by rw [hself])
  cases h with
  | get _ data current | put _ _ data current | load data current =>
    exact hsame data (by rw [current]) (by rw [current]) (by rw [current])
  | @relabel i d data current kept _ =>
    rcases eq_or_ne j i with rfl | hne
    · have hself : t.current j = d := by rw [current, update_self]
      exact hsame data (by rw [hself, kept.1]) (by rw [hself, kept.2.1]) (by rw [hself, kept.2.2])
    · exact hother data current hne
  | @alloc i type allowed free data current _ =>
    rcases eq_or_ne j i with rfl | hne
    · refine .alloc allowed free ?_
      rw [current, update_self]
      rfl
    · exact hother data current hne
  | @erase i d data current free _ =>
    rcases eq_or_ne j i with rfl | hne
    · refine .erase ?_
      rw [current, update_self, free]
    · exact hother data current hne
  | @trunc i d allowed file data current type size _ =>
    rcases eq_or_ne j i with rfl | hne
    · have hself : t.current j = d := by rw [current, update_self]
      exact .trunc allowed file (by rw [hself, type]) (by rw [hself, size])
    · exact hother data current hne
  | @write i _ _ _ _ _ _ _ live typed target wrote _ =>
    rcases eq_or_ne j i with rfl | hne
    · exact .write live typed target wrote
    · have hcur := wrote.current_other hne
      refine .kept (by rw [hcur]) (by rw [hcur]) (fun htype p x hx => ?_)
      rw [hcur]
      exact wrote.other live hne hj htype hx

theorem Action.denseOn {K : FileType → Prop} (hK : ¬ K .none) (h : Action sb A W D s t)
    (hs : s.DenseOn sb K) : t.DenseOn sb K := by
  intro j hj htype
  cases h.at hj with
  | kept type size bytes =>
    rw [type] at htype
    exact FS.dense_kept size (bytes (fun hnone => hK (hnone ▸ htype))) (hs j hj htype)
  | alloc _ _ size | trunc _ _ _ size => exact FS.dense_of_empty size
  | erase free => exact absurd (free ▸ htype) hK
  | write live _ _ wrote =>
    rw [wrote.current_self live] at htype
    refine wrote.dense live (hs j hj ?_)
    rwa [FS.current_of_live live]

theorem Action.dense (h : Action sb A W D s t) (hs : s.Dense sb) : t.Dense sb :=
  h.denseOn (K := fun type => type ≠ .none) (by simp) hs

theorem Action.filled (h : Action sb A W D s t) (hs : s.Filled sb) : t.Filled sb :=
  h.denseOn (K := fun type => type = .dir) (by simp) hs

/-- The size of every directory is a multiple of that of an entry. -/
def FS.Aligned (sb : Superblock) (s : FS) : Prop :=
  ∀ i < sb.ninodes, (s.current i).type = .dir → direntSize ∣ (s.current i).size

theorem Action.aligned (h : Action sb A W D s t) (hs : s.Aligned sb) : t.Aligned sb := by
  intro j hj hdir
  cases h.at hj with
  | kept type size _ =>
    rw [size]
    exact hs j hj (type.symm.trans hdir)
  | alloc _ _ size => rw [size]; exact dvd_zero _
  | erase free => cases free.symm.trans hdir
  | trunc _ file type _ => exact absurd (type.symm.trans hdir) file
  | write live _ target wrote =>
    rw [wrote.current_self live] at hdir ⊢
    rcases target with ⟨-, -, l, bs, rfl, rfl, rfl, hbs⟩ | ⟨hfile, -⟩
    · refine wrote.aligned hbs.length ?_
      have hself := FS.current_of_live live
      rw [← hself]
      exact hs j hj (by rwa [hself])
    · exact absurd hdir hfile

/-- Inode `j` is free, or has the type, the size and the bytes that it had in `s`. -/
def Unchanged (j : ℕ) (s t : FS) : Prop :=
  (t.current j).type = .none ∨ ((t.current j).type = (s.current j).type ∧
    (t.current j).size = (s.current j).size ∧
    ∀ p x, byteAt s.data (s.current j) p = some x → byteAt t.data (t.current j) p = some x)

theorem Unchanged.refl : Unchanged j s s := .inr ⟨rfl, rfl, fun _ _ h => h⟩

theorem Unchanged.step (h : Unchanged j s t) (hj : j < sb.ninodes) (hA : ¬ A j)
    (hfile : (s.current j).type ≠ .dir → ¬ W j) (hdir : (s.current j).type = .dir → ¬ D)
    (ha : Action sb A W D t u) : Unchanged j s u := by
  cases ha.at hj with
  | kept type size bytes =>
    rw [Unchanged, type, size]
    by_cases hnone : (t.current j).type = .none
    · exact .inl hnone
    · obtain ⟨hkind, hsize, hbytes⟩ := h.resolve_left hnone
      exact .inr ⟨hkind, hsize, fun p x hx => bytes hnone p x (hbytes p x hx)⟩
  | alloc allowed _ _ => exact absurd allowed hA
  | erase free => exact .inl free
  | trunc allowed file type _ =>
    rcases h with hnone | ⟨htype, -⟩
    · exact .inl (type.trans hnone)
    · rw [htype] at file
      exact absurd allowed (hfile file)
  | write live typed target _ =>
    rw [← FS.current_of_live live] at typed target
    obtain ⟨htype, -⟩ := h.resolve_left typed
    rw [htype] at target
    rcases target with ⟨hd, hisdir, -⟩ | ⟨hnot, hw⟩
    · exact absurd hd (hdir hisdir)
    · exact absurd hw (hfile hnot)

/-- The inodes that are referred to. -/
def FS.inUse (sb : Superblock) (s : FS) : Finset ℕ :=
  (Finset.range sb.ninodes).filter (fun i => 0 < (s.inode i).ref)

/-- As many entries of the table are in use as there are inodes that are referred to. -/
def FS.Tallied (sb : Superblock) (s : FS) : Prop := s.active = (s.inUse sb).card

theorem FS.mem_inUse : i ∈ s.inUse sb ↔ i < sb.ninodes ∧ 0 < (s.inode i).ref := by
  rw [FS.inUse, Finset.mem_filter, Finset.mem_range]

theorem Action.tallied (h : Action sb A W D s t) (hs : s.Tallied sb) : t.Tallied sb := by
  have hsame : SameTable s t → t.Tallied sb := by
    intro htable
    have huse : t.inUse sb = s.inUse sb := by
      ext i
      rw [FS.mem_inUse, FS.mem_inUse, htable.ref]
    rw [FS.Tallied, huse, htable.active]
    exact hs
  rw [FS.Tallied] at hs
  cases h with
  | @get i lt _ _ ref active =>
    have huse : t.inUse sb = insert i (s.inUse sb) := by
      ext j
      rw [Finset.mem_insert, FS.mem_inUse, FS.mem_inUse, ref]
      split
      · rename_i heq
        subst heq
        simp [lt]
      · rename_i hne
        simp [hne]
    rw [FS.Tallied, active, hs, huse]
    split
    · rename_i hzero
      rw [Finset.card_insert_of_notMem (by rw [FS.mem_inUse]; omega)]
    · rename_i hpos
      rw [Finset.insert_eq_of_mem (FS.mem_inUse.2 ⟨lt, by omega⟩), Nat.add_zero]
  | @put i lt pos _ _ ref active =>
    have hmem : i ∈ s.inUse sb := FS.mem_inUse.2 ⟨lt, pos⟩
    rw [FS.Tallied, active, hs]
    split
    · rename_i hone
      have huse : t.inUse sb = (s.inUse sb).erase i := by
        ext j
        rw [Finset.mem_erase, FS.mem_inUse, FS.mem_inUse, ref]
        split
        · rename_i heq
          subst heq
          simp [hone]
        · rename_i hne
          simp [hne]
      rw [huse, Finset.card_erase_of_mem hmem]
    · rename_i hmore
      have huse : t.inUse sb = s.inUse sb := by
        ext j
        rw [FS.mem_inUse, FS.mem_inUse, ref]
        split
        · rename_i heq
          subst heq
          constructor <;> rintro ⟨hlt, -⟩ <;> exact ⟨hlt, by omega⟩
        · rw [Nat.sub_zero]
      rw [huse, Nat.sub_zero]
  | load _ _ table | relabel _ _ _ table | alloc _ _ _ _ table | erase _ _ _ table
  | trunc _ _ _ _ _ _ table | write _ _ _ _ _ table => exact hsame table

end Xv6.FileSystem
