import Xv6.BlockOwnership
import Xv6.NamespaceRuns

/-!
# Calls that fail

`create`, `link` and `unlink` undo on failure what they have done: an inode taken, the entries
of a new directory, a link count raised.
-/

namespace Xv6.FileSystem

open ActionPaths ByteBlocks Function PanicPrograms Relation TransitionRuns

/-- The namespace of `t` is that of `s`: the same inodes are allocated, with the same types,
link counts and sizes, every directory has the same entries, and every inode as many references. -/
structure Untouched (sb : Superblock) (s t : FS) : Prop where
  type : ∀ i < sb.ninodes, (t.dinode i).type = (s.dinode i).type
  nlink : ∀ i < sb.ninodes, (s.dinode i).type ≠ .none → (t.dinode i).nlink = (s.dinode i).nlink
  size : ∀ i < sb.ninodes, (s.dinode i).type ≠ .none → (t.dinode i).size = (s.dinode i).size
  entries : ∀ i < sb.ninodes, (s.dinode i).type = .dir →
    entries t.data (t.dinode i) = entries s.data (s.dinode i)
  ref : ∀ i, (t.inode i).ref = (s.inode i).ref

def FS.isFree (sb : Superblock) (s : FS) (i : ℕ) : Prop := (s.view sb i).type = .none

/-- No file is written to or cut. -/
def noInode (_ : ℕ) : Prop := False

variable {sb : Superblock} {T : Multiset ℕ} {s t : FS} {i : ℕ}

theorem Anchored.offered (h : Anchored sb T s) : Offered sb T s (s.isFree sb) := by
  intro t ht i hi
  rw [ht h] at hi
  exact hi

theorem Unchanged.path (hi : i < sb.ninodes) (hfile : (s.current i).type ≠ .dir)
    (hsome : (s.current i).type ≠ .none)
    (hpath : ReflTransGen (Action sb (s.isFree sb) noInode True) s t) : Unchanged i s t := by
  refine path_keeps (I := Unchanged i s) ?_ hpath .refl
  intro t u ha ht
  refine ht.step hi (fun hfree => hsome ?_) (fun _ h => h) (fun hdir => absurd hdir hfile) ha
  rwa [FS.isFree, FS.type_view hi] at hfree

theorem Untouched.of_path (hs : Sound sb T s) (haligned : s.Aligned sb) (ht : Sound sb T t)
    (hview : t.view sb = s.view sb)
    (hpath : ReflTransGen (Action sb (s.isFree sb) noInode True) s t) : Untouched sb s t := by
  have hcur : ∀ i, s.current i = s.dinode i := fun _ => hs.current_eq
  have hcur' : ∀ i, t.current i = t.dinode i := fun _ => ht.current_eq
  have hnode : ∀ i < sb.ninodes, nodeOf t.data (t.dinode i) = nodeOf s.data (s.dinode i) := by
    intro i hi
    have hi' := congrFun hview i
    rwa [FS.view_eq hi, FS.view_eq hi, hcur, hcur'] at hi'
  have htype : ∀ i < sb.ninodes, (t.dinode i).type = (s.dinode i).type := by
    intro i hi
    have hi' := congrArg Node.type (congrFun hview i)
    rwa [FS.type_view hi, FS.type_view hi, hcur, hcur'] at hi'
  have hpart : ∀ i < sb.ninodes, (s.dinode i).type ≠ .none →
      (t.dinode i).nlink = (s.dinode i).nlink ∧
        FileSystem.entries t.data (t.dinode i) = FileSystem.entries s.data (s.dinode i) := by
    intro i hi hsome
    have hi' := hnode i hi
    rw [nodeOf, nodeOf, if_neg hsome, if_neg (by rwa [htype i hi])] at hi'
    exact ⟨congrArg Node.nlink hi', congrArg Node.slots hi'⟩
  have hta : t.Aligned sb := path_keeps (fun _ _ ha => ha.aligned) hpath haligned
  refine ⟨htype, fun i hi hsome => (hpart i hi hsome).1, fun i hi hsome => ?_,
    fun i hi hdir => (hpart i hi (by simp [hdir])).2, fun i => by rw [hs.ref_eq, ht.ref_eq]⟩
  by_cases hdir : (s.dinode i).type = .dir
  · -- A directory has as many entries as before, and they are whole.
    have hdir' : (t.dinode i).type = .dir := (htype i hi).trans hdir
    have hlen := congrArg List.length (hpart i hi hsome).2
    rw [length_entries _ hdir, length_entries _ hdir'] at hlen
    have hs' := haligned i hi (by rwa [hcur])
    have ht' := hta i hi (by rwa [hcur'])
    rw [hcur] at hs'
    rw [hcur'] at ht'
    rw [← Nat.div_mul_cancel hs', ← Nat.div_mul_cancel ht', hlen]
  · rcases Unchanged.path hi (by rwa [hcur]) (by rwa [hcur]) hpath with hnone | ⟨-, hsize, -⟩
    · rw [hcur', htype i hi] at hnone
      exact absurd hnone hsome
    · rwa [hcur, hcur'] at hsize

/-- A link count raised and lowered again is as it was, also past 32767. -/
theorem setLink_back {v : ℕ → Node} (h : Shorts v) :
    setLink (setLink v i (· + 1)) i (· - 1) = v := by
  have hcount : short (short ((v i).nlink + 1) - 1) = (v i).nlink := by
    rw [short, short, Int.bmod_sub_bmod, add_sub_cancel_right]
    exact h i
  rw [setLink, setLink, update_self, update_idem]
  dsimp only
  rw [hcount]
  exact update_eq_self i v

theorem Anchored.unlinkedBack_eq (h : Anchored sb T s) (hshorts : Shorts (s.view sb)) :
    unlinkedBack T (s.view sb) i = s.view sb := by
  rw [unlinkedBack, setLink_back hshorts, h.settled_eq]

section Calls

variable {cwd : ℕ} {path old new : Name} {type : FileType} {major minor : ℤ} (h : Sound sb T s)
  (hanchored : Anchored sb T s) (haligned : s.Aligned sb) (hcwd : cwd ∈ T)

include h hanchored haligned hcwd

theorem create_untouched (horderly : Orderly sb T (s.view sb)) (htype : type ≠ .none)
    (hok : create sb cwd path type major minor s = .ok (none, t)) : Untouched sb s t := by
  have hruns : Runs sb (s.isFree sb) noInode True T 2 (create sb cwd path type major minor) s
      (Made sb T cwd path type s) := create_runs trivial h hcwd htype .self hanchored.offered
  obtain ⟨hpath, hmade⟩ := Ends.of_ok hruns hok
  have hmade : Turn sb T T T s t (Orderly sb T (s.view sb) → t.view sb = s.view sb) := hmade
  exact .of_path h haligned hmade.sound ((hmade.moves hanchored).2 horderly) hpath

theorem sysLink_untouched (hshorts : Shorts (s.view sb))
    (hok : sysLink sb cwd old new s = .ok (-1, t)) : Untouched sb s t := by
  have hruns : Runs sb (s.isFree sb) noInode True T 2 (sysLink sb cwd old new) s _ :=
    sysLink_runs trivial h hcwd .self
  obtain ⟨hpath, hturn⟩ := Ends.of_ok hruns hok
  refine .of_path h haligned hturn.sound ?_ hpath
  rcases (hturn.moves hanchored).2 with ⟨-, hsame | ⟨ip, -, -, -, -, hback⟩⟩ | ⟨hr, -⟩
  · exact hsame
  · rw [hback, hanchored.unlinkedBack_eq hshorts]
  · cases hr

theorem sysUnlink_untouched (hok : sysUnlink sb cwd path s = .ok (-1, t)) : Untouched sb s t := by
  have hruns : Treads (Action sb (s.isFree sb) noInode True) _ (sysUnlink sb cwd path) s _ :=
    sysUnlink_runs (k := 1) trivial h hcwd .self
  obtain ⟨hpath, hturn⟩ := Ends.of_ok hruns hok
  refine .of_path h haligned hturn.sound ?_ hpath
  rcases (hturn.moves hanchored).2 with ⟨-, hsame⟩ | ⟨hr, -⟩
  · exact hsame
  · cases hr

end Calls

variable {ι : Type} [Fintype ι] [DecidableEq ι]

/-- From a state between calls, any calls later: a `create`, `link` or `unlink` that fails leaves
the namespace as it was. -/
theorem failed_calls_undo {s₀ s : Sys ι} {as : List (ι × Call)} (h : Idle sb s₀)
    (hrun : Run (step sb) unguarded s₀ as s) (p : ι) :
    (∀ path type major minor fs, type ≠ .none →
      create sb (s.cwd p) path type major minor s.fs = .ok (none, fs) → Untouched sb s.fs fs) ∧
    (∀ old new fs, sysLink sb (s.cwd p) old new s.fs = .ok (-1, fs) → Untouched sb s.fs fs) ∧
    ∀ path fs, sysUnlink sb (s.cwd p) path s.fs = .ok (-1, fs) → Untouched sb s.fs fs := by
  have hs := h.run hrun
  have hcwd : s.cwd p ∈ s.refs := Sys.cwd_mem
  exact ⟨fun path type major minor fs htype hok => create_untouched hs.consistent.sound hs.anchored
      hs.aligned hcwd hs.orderly htype hok,
    fun old new fs hok => sysLink_untouched hs.consistent.sound hs.anchored hs.aligned hcwd hs.shorts hok,
    fun path fs hok => sysUnlink_untouched hs.consistent.sound hs.anchored hs.aligned hcwd hok⟩

omit [DecidableEq ι] in
theorem Booted.idle {s : Sys ι} (h : Booted sb s) (hcons : Consistent sb s) (hsmall : sb.ninodes ≤ 2 ^ 16)
    (hlinked : ∀ i, (s.fs.view sb i).type ≠ .none → (s.fs.view sb i).nlink ≠ 0)
    (hcwd : ∀ p, (s.fs.view sb (s.cwd p)).type ≠ .none) (haligned : s.fs.Aligned sb)
    (hshorts : Shorts (s.fs.view sb)) : Idle sb s := by
  refine ⟨hcons, fun i htype hlink => absurd hlink (hlinked i htype), ⟨hsmall, fun i hi => ?_⟩, haligned,
    hshorts⟩
  obtain ⟨p, rfl⟩ := h.mem_refs hi
  exact hcwd p

section SmallDisk

theorem smallSys_idle : Idle smallSb (smallSys (· < 32) 32) := by
  have hboot := smallSys_booted (· < 32) 32
  have hnlink : ∀ i < 8, ((smallSys (· < 32) 32).fs.view smallSb i).nlink =
      if i = 1 then 2 else if i = 2 then 1 else 0 := by decide +kernel
  have htype : ∀ i < 8, ((smallSys (· < 32) 32).fs.view smallSb i).type =
      if i = 1 ∨ i = 2 then .dir else .none := by decide +kernel
  have hout : ∀ i, ¬ i < 8 → (smallSys (· < 32) 32).fs.view smallSb i = Node.free := fun i hi => if_neg hi
  refine hboot.idle smallSys_consistent (by decide) (fun i hsome => ?_) (fun p => ?_)
    (fun i hi hdir => ?_) (fun i => ?_)
  · by_cases hi : i < 8
    · rw [hnlink i hi]
      rw [htype i hi] at hsome
      split_ifs <;> simp_all
    · rw [hout i hi] at hsome
      exact absurd rfl hsome
  · have hroot := htype rootIno (by decide)
    exact ne_of_eq_of_ne hroot (by decide)
  · rw [hboot.current_eq] at hdir ⊢
    revert i
    decide +kernel
  · by_cases hi : i < 8
    · rw [hnlink i hi]
      split_ifs <;> rfl
    · rw [hout i hi]
      rfl

def failsWith {α : Type} [DecidableEq α] (r : α) : Except Panic (α × FS) → Bool
  | .ok (a, _) => a = r
  | .error _ => false

theorem exists_of_failsWith {α : Type} [DecidableEq α] {r : α} {x : Except Panic (α × FS)}
    (h : failsWith r x = true) : ∃ fs, x = .ok (r, fs) := by
  unfold failsWith at h
  split at h
  · exact ⟨_, by rw [of_decide_eq_true h]⟩
  · cases h

/-- A directory `e`, and a file `f` that takes all the blocks there are. -/
def fillDisk : List (Fin 1 × Call) :=
  [(0, .sysMkdir [101, 0]), (0, .sysOpen [102, 0] ⟨false, true, true, false, false⟩),
    (0, .sysWrite 0 0 8192 (fun _ => some 7))]

set_option maxRecDepth 100000 in
/-- On a full disk: there is a directory `e` already; a new directory `g` gets no block for its
first entry, when it has an inode; and a second name for `f` is taken, when the link is counted. -/
theorem failed_calls_undo_small : ∃ s fs fs' fs'',
    Run (step smallSb) unguarded (smallSys (· < 32) 32) fillDisk s ∧ (∀ b : ℕ, b < 40 → s.fs.bitmap b = true) ∧
    (create smallSb (s.cwd 0) [101] .file 0 0 s.fs = .ok (none, fs) ∧ Untouched smallSb s.fs fs) ∧
    (create smallSb (s.cwd 0) [103] .dir 0 0 s.fs = .ok (none, fs') ∧ Untouched smallSb s.fs fs') ∧
    sysLink smallSb (s.cwd 0) [102, 0] [101, 0] s.fs = .ok (-1, fs'') ∧ Untouched smallSb s.fs fs'' := by
  obtain ⟨s, hrun, hfull, hfile, hdir, hlink⟩ : ∃ s,
      Run (step smallSb) unguarded (smallSys (· < 32) 32) fillDisk s ∧ (∀ b : ℕ, b < 40 → s.fs.bitmap b = true) ∧
      failsWith none (create smallSb (s.cwd 0) [101] .file 0 0 s.fs) = true ∧
      failsWith none (create smallSb (s.cwd 0) [103] .dir 0 0 s.fs) = true ∧
      failsWith (-1) (sysLink smallSb (s.cwd 0) [102, 0] [101, 0] s.fs) = true := exists_run (by decide +kernel)
  obtain ⟨fs, hfile⟩ := exists_of_failsWith hfile
  obtain ⟨fs', hdir⟩ := exists_of_failsWith hdir
  obtain ⟨fs'', hlink⟩ := exists_of_failsWith hlink
  obtain ⟨hcreate, hundo, -⟩ := failed_calls_undo smallSys_idle hrun 0
  exact ⟨s, fs, fs', fs'', hrun, hfull, ⟨hfile, hcreate _ _ _ _ fs (by decide) hfile⟩,
    ⟨hdir, hcreate _ _ _ _ fs' (by decide) hdir⟩, hlink, hundo _ _ fs'' hlink⟩

end SmallDisk

end Xv6.FileSystem
