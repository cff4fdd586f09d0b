import Xv6.CreateRoom

/-!
# Opens that fail

`sys_open` creates the file before it asks for a file structure and a descriptor. When there is
none it puts the inode, but the file stays.
-/

namespace Xv6.FileSystem

open ActionPaths ByteBlocks PanicPrograms Relation TransitionRuns

variable {ι : Type} {sb : Superblock} {s t : Sys ι} {p : ι} {path : Name} {mode : OpenMode} {i ip : ℕ}
  {fs : FS}

/-- The call from `s` to `t` has left the namespace, the content of the files and the tables of
files and descriptors as they were. -/
structure NoEffect (sb : Superblock) (s t : Sys ι) : Prop where
  untouched : Untouched sb s.fs t.fs
  content : ∀ i < sb.ninodes, (s.fs.dinode i).type ≠ .none → (s.fs.dinode i).type ≠ .dir →
    t.fs.content i = s.fs.content i
  file : t.file = s.file
  ofile : t.ofile = s.ofile

/-- There is no file structure, or no descriptor of `p`. -/
def Sys.full (s : Sys ι) (p : ι) : Prop :=
  (∀ f < nFile, (s.file f).ref ≠ 0) ∨ ∀ fd < nOfile, s.ofile p fd ≠ none

theorem Unchanged.content {s t : FS} (h : Unchanged i s t) (hsome : (t.current i).type ≠ .none)
    (hdense : s.dense i) : t.content i = s.content i := by
  obtain ⟨-, hsize, hbytes⟩ := h.resolve_left hsome
  rw [FS.content, FS.content, hsize]
  refine List.map_congr_left (fun p hp => ?_)
  obtain ⟨x, hx⟩ := Option.ne_none_iff_exists'.1 (hdense p (List.mem_range.1 hp))
  rw [hbytes p x hx, hx]

variable [Fintype ι]

theorem NoEffect.of_path (h : Idle sb s) (hdense : s.fs.Dense sb) (ht : Sound sb s.refs t.fs)
    (hview : t.fs.view sb = s.fs.view sb)
    (hpath : ReflTransGen (Action sb (s.fs.isFree sb) noInode True) s.fs t.fs) (hfile : t.file = s.file)
    (hofile : t.ofile = s.ofile) : NoEffect sb s t := by
  have hsound := h.consistent.sound
  have huntouched := Untouched.of_path hsound h.aligned ht hview hpath
  refine ⟨huntouched, fun i hi hsome hfile => ?_, hfile, hofile⟩
  rw [← hsound.current_eq] at hsome hfile
  refine (Unchanged.path hi hfile hsome hpath).content ?_ (hdense i hi hsome)
  rw [ht.current_eq, huntouched.type i hi, ← hsound.current_eq]
  exact hsome

variable [DecidableEq ι]

omit [Fintype ι] in
theorem sysOpen_failed (hunused : ∀ f, (s.file f).ref = 0 → (s.file f).type = .none) :
    Ends (sysOpen sb p path mode) s (fun r t => r = -1 → t.file = s.file ∧ t.ofile = s.ofile ∧
      (openInode sb (s.cwd p) path mode s.fs = .ok (none, t.fs) ∨
        ∃ ip fs, openInode sb (s.cwd p) path mode s.fs = .ok (some ip, fs) ∧ s.full p ∧
          iput sb ip fs = .ok ((), t.fs))) (fun _ => True) := by
  simp only [sysOpen, ends_bind, ends_get]
  rw [ends_onFS]
  refine ends_self.ok ?_
  rintro (_ | ip) fs hopen
  · exact fun _ => ⟨rfl, rfl, .inl hopen⟩
  · have hput : s.full p → Ends (do
        onFS (iput sb ip)
        pure (-1 : ℤ)) { s with fs := fs } (fun r t => r = -1 → t.file = s.file ∧ t.ofile = s.ofile ∧
          (openInode sb (s.cwd p) path mode s.fs = .ok (none, t.fs) ∨
            ∃ ip fs, openInode sb (s.cwd p) path mode s.fs = .ok (some ip, fs) ∧ s.full p ∧
              iput sb ip fs = .ok ((), t.fs))) (fun _ => True) := by
      intro hfull
      rw [ends_bind, ends_onFS]
      refine ends_self.ok ?_
      intro _ fs' hiput
      exact fun _ => ⟨rfl, rfl, .inr ⟨ip, fs, hopen, hfull, hiput⟩⟩
    dsimp only
    rw [ends_bind]
    refine filealloc_ends.imp ?_
    rintro (_ | f) t hfile
    · obtain ⟨rfl, hused⟩ := hfile
      exact hput (.inl hused)
    · obtain ⟨-, hzero, rfl⟩ := hfile
      have htype := hunused f hzero
      dsimp only
      rw [ends_bind]
      refine fdalloc_ends.imp ?_
      rintro (_ | fd) t hfd
      · obtain ⟨rfl, hused⟩ := hfd
        -- A file structure that was never filled is as it was when it has been closed.
        have hback : (({ s with fs := fs } : Sys ι).setFile f { s.file f with ref := 1 }).setFile f
            { s.file f with ref := 0, type := .none } = { s with fs := fs } := by
          have hx : ({ s.file f with ref := 0, type := .none } : File) = s.file f := by
            rw [← hzero, ← htype]
          rw [Sys.setFile_setFile, hx]
          simp [Sys.setFile]
        rw [ends_bind]
        refine (fileclose_unused (by simp [Sys.setFile]) (by simp [Sys.setFile, htype])).mono ?_
          (fun _ h => h)
        rintro _ t rfl
        have hfile : (({ s with fs := fs } : Sys ι).setFile f { s.file f with ref := 1 }).file f =
            { s.file f with ref := 1 } := Function.update_self ..
        rw [hfile, hback]
        exact hput (.inr hused)
      · rw [ends_bind]
        refine ends_self.ok ?_
        intro _ u _ hr
        have hr : (fd : ℤ) = -1 := hr
        omega

/-- The file is to be created, which can be done, and then there is no room for it in a table. -/
def Sys.stranded (sb : Superblock) (s : Sys ι) (p : ι) (path : Name) (mode : OpenMode) : Prop :=
  mode.create = true ∧ s.full p ∧ s.fs.creatable sb (s.cwd p) path

/-- What a failing `open` leaves behind: nothing, or the inode it has made. -/
theorem sysOpen_leaves (h : Idle sb s) (hdense : s.fs.Dense sb)
    (hok : sysOpen sb p path mode s = .ok (-1, t)) :
    (NoEffect sb s t ∧ ¬ s.stranded sb p path mode) ∨
    (s.stranded sb p path mode ∧ ∃ ip < sb.ninodes, (s.fs.dinode ip).type = .none ∧
      (t.fs.dinode ip).type = .file) := by
  have hsound := h.consistent.sound
  have hcwd : s.cwd p ∈ s.refs := Sys.cwd_mem
  have hruns : Runs sb (s.fs.isFree sb) noInode True s.refs 2 (openInode sb (s.cwd p) path mode) s.fs
      (Opened sb s.refs (s.cwd p) path mode s.fs) :=
    openInode_runs (fun _ => ⟨trivial, h.anchored.offered⟩) hsound hcwd .self
  have hfile : ∀ {r fs}, openInode sb (s.cwd p) path mode s.fs = .ok (r, fs) → mode.create = true →
      ((∃ ip, r = some ip ∧ (s.fs.view sb ip).type = .none) ↔ s.fs.creatable sb (s.cwd p) path) :=
    fun hopen hmode => (openInode_file hsound h.aligned h.anchored h.orderly hcwd hmode).of_ok hopen
  obtain ⟨hsame, hofile, hnone | ⟨ip, fs, hopen, hfull, hput⟩⟩ :=
    (sysOpen_failed h.consistent.unused).of_ok hok rfl
  · obtain ⟨hpath, hopened⟩ := Ends.of_ok hruns hnone
    have hopened : Turn sb s.refs s.refs s.refs s.fs t.fs
        (Orderly sb s.refs (s.fs.view sb) → t.fs.view sb = s.fs.view sb) := hopened
    refine .inl ⟨.of_path h hdense hopened.sound ((hopened.moves h.anchored).2 h.orderly) hpath hsame
      hofile, ?_⟩
    rintro ⟨hmode, -, hcreatable⟩
    obtain ⟨ip, hip, -⟩ := (hfile hnone hmode).2 hcreatable
    cases hip
  · obtain ⟨hpath, -, -, hopened⟩ := Ends.of_ok hruns hopen
    obtain ⟨hanchored, heff⟩ := hopened.moves h.anchored
    have hputs : Runs sb (s.fs.isFree sb) noInode True s.refs 2 (iput sb ip) fs _ :=
      iput_runs hopened.sound
    obtain ⟨hpath', hsettled⟩ := Ends.of_ok hputs hput
    have hview := (hsettled.moves hanchored).2
    rcases heff h.orderly with ⟨heq, hold⟩ | ⟨hmode, dp, name, k, hc, hnew⟩
    · rw [heq, h.anchored.settled_eq] at hview
      refine .inl ⟨.of_path h hdense hsettled.sound hview (hpath.trans hpath') hsame hofile, ?_⟩
      rintro ⟨hmode, -, hcreatable⟩
      obtain ⟨_, hip, hfree⟩ := (hfile hopen hmode).2 hcreatable
      cases hip
      exact hold hfree
    · have hfree : (s.fs.view sb ip).type = .none := by
        rw [hc.free]
        rfl
      rw [hnew, settled_created hc.ne] at hview
      refine .inr ⟨⟨hmode, hfull, (hfile hopen hmode).1 ⟨ip, rfl, hfree⟩⟩, ip, hc.lt, ?_, ?_⟩
      · rwa [← hsound.current_eq, ← FS.type_view hc.lt]
      · rw [← hsettled.sound.current_eq, ← FS.type_view hc.lt, hview, created_self hc.ne]
        rfl

/-- From a state between calls, any calls later: a failing `open` has no effect unless it was to
create the file, a table is full, and nothing else is in the way: the directory is there and does
not have the name, an inode is free, and there is room for the entry. -/
theorem failed_open_undone_iff {s₀ : Sys ι} {as : List (ι × Call)} (h : Idle sb s₀)
    (hdense : s₀.fs.Dense sb) (hrun : Run (step sb) unguarded s₀ as s)
    (hok : sysOpen sb p path mode s = .ok (-1, t)) :
    NoEffect sb s t ↔ ¬ s.stranded sb p path mode := by
  rcases sysOpen_leaves (h.run hrun) (h.run_dense hdense hrun) hok with
    ⟨hno, hnot⟩ | ⟨hstranded, ip, hi, hfree, hfile⟩
  · exact iff_of_true hno hnot
  · refine iff_of_false (fun hno => ?_) (not_not.2 hstranded)
    rw [hno.untouched.type ip hi, hfree] at hfile
    cases hfile

section SmallDisk

/-- `open("d", O_RDONLY)` until the process has no descriptor left. -/
def openings : List (Fin 1 × Call) :=
  List.replicate nOfile (0, .sysOpen [100, 0] ⟨false, false, false, false, false⟩)

/-- `open` has returned -1 and left `ip` with the type `type`. -/
def openFailed (ip : ℕ) (type : FileType) : Except Panic (ℤ × Sys (Fin 1)) → Bool
  | .ok (r, t) => r == -1 && (t.fs.dinode ip).type == type
  | .error _ => false

omit [Fintype ι] [DecidableEq ι] in
theorem exists_of_openFailed {type : FileType} {x : Except Panic (ℤ × Sys (Fin 1))}
    (h : openFailed ip type x = true) : ∃ t, x = .ok (-1, t) ∧ (t.fs.dinode ip).type = type := by
  unfold openFailed at h
  split at h
  · rename_i r t
    simp only [Bool.and_eq_true, beq_iff_eq] at h
    obtain ⟨rfl, htype⟩ := h
    exact ⟨t, rfl, htype⟩
  · cases h

set_option maxRecDepth 100000 in
/-- With every descriptor in use, `open("x", O_CREATE | O_RDWR)` fails and leaves the file. -/
theorem failed_open_creates : ∃ s t, Run (step smallSb) unguarded (smallSys (· < 32) 32) openings s ∧
    sysOpen smallSb 0 [120] ⟨false, true, true, false, false⟩ s = .ok (-1, t) ∧
    (s.fs.dinode 3).type = .none ∧ (t.fs.dinode 3).type = .file ∧ ¬ NoEffect smallSb s t := by
  obtain ⟨s, hrun, hfree, hfails⟩ : ∃ s, Run (step smallSb) unguarded (smallSys (· < 32) 32) openings s ∧
      (s.fs.dinode 3).type = .none ∧
      openFailed 3 .file (sysOpen smallSb 0 [120] ⟨false, true, true, false, false⟩ s) = true :=
    exists_run (by decide +kernel)
  obtain ⟨t, hok, hfile⟩ := exists_of_openFailed hfails
  refine ⟨s, t, hrun, hok, hfree, hfile, fun h => ?_⟩
  have hsame := h.untouched.type 3 (by decide)
  rw [hfile, hfree] at hsame
  cases hsame

set_option maxRecDepth 100000 in
/-- With every descriptor in use, `open("d", O_RDONLY)` fails without a trace. -/
theorem failed_open_undone : ∃ s t, Run (step smallSb) unguarded (smallSys (· < 32) 32) openings s ∧
    sysOpen smallSb 0 [100] ⟨false, false, false, false, false⟩ s = .ok (-1, t) ∧ NoEffect smallSb s t := by
  obtain ⟨s, hrun, hfails⟩ : ∃ s, Run (step smallSb) unguarded (smallSys (· < 32) 32) openings s ∧
      openFailed 3 .none (sysOpen smallSb 0 [100] ⟨false, false, false, false, false⟩ s) = true :=
    exists_run (by decide +kernel)
  obtain ⟨t, hok, -⟩ := exists_of_openFailed hfails
  exact ⟨s, t, hrun, hok, (failed_open_undone_iff smallSys_idle smallSys_dense hrun hok).2
    fun hc => absurd hc.1 (by decide)⟩

end SmallDisk

end Xv6.FileSystem
