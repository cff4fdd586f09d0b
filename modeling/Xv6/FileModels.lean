import Xv6.FileCalls
import Xv6.FileTable
import Xv6.FileWrites
import Xv6.FindRuns
import Xv6.TransitionRuns

/-!
# The models of `struct file`

`FileTable` has the whole table, `FileSystem` what the calls on paths need of it, `Find` the
descriptors of one process, and `FileWrites` one open file. They agree on what they share.
-/

namespace Xv6.FileSystem

open ByteBlocks Function PanicPrograms TransitionRuns

theorem firstFree_eq_find_fin (used : ℕ → Bool) (m : ℕ) :
    firstFree used m 0 = ((List.finRange m).find? (fun b : Fin m => !used b)).map Fin.val := by
  rw [firstFree_eq_find, ← List.range_eq_range', ← List.map_coe_finRange_eq_range, List.find?_map]
  rfl

section Table

variable {n : ℕ} {ι π : Type} {s : FileTable.State n ι π} {S : Sys (Fin n)}

/-- The references and the descriptors of the two tables are the same. -/
structure Sees (s : FileTable.State n ι π) (S : Sys (Fin n)) : Prop where
  ref : ∀ f, (s.file f).ref = (S.file f).ref
  ofile : ∀ p (fd : Fin nOfile), S.ofile p fd = (s.ofile (p, fd)).map Fin.val

theorem filealloc_sees (h : Sees s S) :
    Ends filealloc S (fun r T => Ends FileTable.filealloc s
      (fun r' t => r = r'.map Fin.val ∧ Sees t T) (fun _ => False)) (fun _ => False) := by
  have hfree : (fun f : Fin nFile => !decide ((S.file f).ref ≠ 0)) = fun f => decide ((s.file f).ref = 0) := by
    funext f
    simp [h.ref]
  simp only [filealloc, FileTable.filealloc, ends_bind, ends_get]
  rw [firstFree_eq_find_fin, hfree]
  cases (List.finRange nFile).find? (fun f => decide ((s.file f).ref = 0)) with
  | none => exact ⟨rfl, h⟩
  | some f =>
    refine ⟨rfl, fun g => ?_, h.ofile⟩
    rcases eq_or_ne g f with rfl | hne
    · simp [FileTable.State.setFile, Sys.setFile]
    · simp [FileTable.State.setFile, Sys.setFile, hne, Fin.val_ne_of_ne hne, h.ref]

theorem fdalloc_sees (h : Sees s S) (p : Fin n) (f : FileTable.Index) :
    Ends (fdalloc p f) S (fun r T => Ends (FileTable.fdalloc p f) s
      (fun r' t => r = r'.map Fin.val ∧ Sees t T) (fun _ => False)) (fun _ => False) := by
  have hfree : (fun fd : Fin nOfile => !(S.ofile p fd).isSome) = fun fd => decide (s.ofile (p, fd) = none) := by
    funext fd
    rw [h.ofile, Option.isSome_map]
    cases s.ofile (p, fd) <;> rfl
  simp only [fdalloc, FileTable.fdalloc, ends_bind, ends_get]
  rw [firstFree_eq_find_fin, hfree]
  cases (List.finRange nOfile).find? (fun fd => decide (s.ofile (p, fd) = none)) with
  | none => exact ⟨rfl, h⟩
  | some fd =>
    refine ⟨rfl, h.ref, fun q fd' => ?_⟩
    rcases eq_or_ne q p with rfl | hq
    · rcases eq_or_ne fd' fd with rfl | hne
      · simp [FileTable.State.setOfile, Sys.setOfile]
      · simp [FileTable.State.setOfile, Sys.setOfile, hne, Fin.val_ne_of_ne hne, h.ofile]
    · simp [FileTable.State.setOfile, Sys.setOfile, hq, h.ofile]

end Table

section Writes

variable {ι : Type} [DecidableEq ι] {sb : Superblock} {S : Sys ι} {p : ι} {w w' : FileWrites.State}
  {src : ℕ → Option Byte} {f fd i j m n fuel : ℕ} {r : ℤ}

/-- The descriptor `fd` of `p` is the open file of `w`. -/
structure Descriptor (S : Sys ι) (p : ι) (fd : ℕ) (w : FileWrites.State) : Prop where
  fs : S.fs = w.fs
  lt : fd < nOfile
  file : ∃ f, S.ofile p fd = some f ∧ (S.file f).type = .inode ∧ (S.file f).writable = true ∧
    (S.file f).ip = w.file.ip

omit [DecidableEq ι] in
theorem Descriptor.next (h : Descriptor S p fd w) (hip : w'.file.ip = w.file.ip) :
    Descriptor { S with fs := w'.fs } p fd w' := ⟨rfl, h.lt, hip ▸ h.file⟩

theorem writeChunk_ends_fs : Ends (FileWrites.writeChunk sb src i m) w (fun r w' =>
    w'.file.ip = w.file.ip ∧ ∃ fs, ilock w.file.ip w.fs = .ok ((), fs) ∧
      writei sb w.file.ip (fun q => src (i + q)) w.file.off m fs = .ok (r, w'.fs)) (fun _ => True) := by
  simp only [FileWrites.writeChunk, FileWrites.onFS, ends_bind, ends_get, ends_zoom]
  refine ends_self.ok (fun _ fs hlock => ends_self.ok (fun r fs' hwrite => ?_))
  refine ends_ite (fun _ => ?_) (fun _ => ?_)
  · exact ⟨rfl, fs, hlock, hwrite⟩
  · exact ⟨rfl, fs, hlock, hwrite⟩

/-- A chunk is one `write`. -/
theorem Descriptor.chunk (h : Descriptor S p fd w)
    (hok : FileWrites.writeChunk sb src i m w = .ok (r, w')) : w'.file.ip = w.file.ip ∧
    step sb S (p, .sysWrite fd w.file.off m (fun q => src (i + q))) = some { S with fs := w'.fs } := by
  obtain ⟨hip, fs, hlock, hwrite⟩ := writeChunk_ends_fs.of_ok hok
  obtain ⟨f, hfile, htype, hwritable, hfip⟩ := h.file
  have hcall : Ends (syscall sb p (.sysWrite fd w.file.off m (fun q => src (i + q)))) S
      (fun _ T => T = { S with fs := w'.fs }) (fun _ => False) := by
    simp only [syscall, sysWrite, argfd, ends_bind, ends_get, ends_pure, if_pos h.lt, hfile, filewrite,
      htype, hwritable, hfip, onFS]
    refine ends_ite (fun hc => by cases hc) (fun _ => ?_)
    simp only [ends_bind, ends_zoom, ends_pure, h.fs]
    exact ends_of_ok hlock (ends_of_ok hwrite rfl)
  obtain ⟨r', T, hrun, rfl⟩ := hcall.exists_ok
  refine ⟨hip, ?_⟩
  rw [step, hrun]

/-- Calls of `write` on the descriptor take the file system to `fs`. -/
def Writes (sb : Superblock) (p : ι) (fd : ℕ) (S : Sys ι) (fs : FS) : Prop :=
  ∃ as, (∀ a ∈ as, ∃ off m src, a = (p, .sysWrite fd off m src)) ∧
    Run (step sb) unguarded S as { S with fs := fs }

theorem Descriptor.stay (h : Descriptor S p fd w) : Writes sb p fd S w.fs :=
  ⟨[], by simp, h.fs ▸ .nil⟩

theorem Descriptor.loop (h : Descriptor S p fd w) :
    Ends (FileWrites.filewriteLoop sb src n fuel i) w (fun _ w' => Writes sb p fd S w'.fs)
      (fun _ => True) := by
  induction fuel generalizing S i w with
  | zero => exact h.stay
  | succ fuel ih =>
    rw [FileWrites.filewriteLoop]
    refine ends_ite (fun _ => ?_) (fun _ => h.stay)
    refine Ends.bindOk ends_self (fun r u hu => ?_)
    obtain ⟨hip, hstep⟩ := h.chunk hu
    have hnext := h.next hip
    have hcons : ∀ fs, Writes sb p fd { S with fs := u.fs } fs → Writes sb p fd S fs := by
      rintro fs ⟨as, has, hrun⟩
      exact ⟨_ :: as, List.forall_mem_cons.2 ⟨⟨_, _, _, rfl⟩, has⟩, .cons trivial hstep hrun⟩
    exact ends_ite (fun _ => hcons _ hnext.stay) (fun _ => (ih hnext).imp (fun _ _ => hcons _))

/-- What `filewrite` of one open file does to the file system is done by calls of `write`. -/
theorem filewrite_writes (h : Descriptor S p fd w) :
    Ends (FileWrites.filewrite sb src n) w (fun _ w' => Writes sb p fd S w'.fs) (fun _ => True) := by
  simp only [FileWrites.filewrite, ends_bind, ends_get]
  refine ends_ite (fun _ => h.stay) (fun _ => ?_)
  rw [ends_bind]
  exact h.loop.imp (fun _ _ hw => hw)

end Writes

section Opens

variable {ι : Type} {sb : Superblock} {S T : Sys ι} {p : ι} {d : Find.Disk} {fds : Find.Fds} {path : Name}
  {f fd ip : ℕ}

def readOnly : OpenMode := ⟨false, false, false, false, false⟩

/-- `find` sees the names of the file system and the open files of the process `p`. -/
structure FindSees (sb : Superblock) (S : Sys ι) (p : ι) (d : Find.Disk) (fds : Find.Fds) : Prop where
  node : d.node = S.fs.view sb
  cwd : d.cwd = S.cwd p
  ip : ∀ fd, (fds fd).map Find.OpenFile.ip = (S.ofile p fd).map (fun f => (S.file f).ip)
  used : ∀ fd f, S.ofile p fd = some f → (S.file f).ref ≠ 0

theorem FindSees.opened (hs : FindSees sb S p d fds) (hzero : (S.file f).ref = 0) (hnode : d.node = T.fs.view sb)
    (hcwd : T.cwd = S.cwd) (hofile : T.ofile p = update (S.ofile p) fd (some f))
    (hfile : ∀ g ≠ f, T.file g = S.file g) (href : (T.file f).ref ≠ 0) (hip : (T.file f).ip = ip) :
    FindSees sb T p d (update fds fd (some ⟨ip, 0⟩)) := by
  have hother : ∀ fd' g, S.ofile p fd' = some g → T.file g = S.file g := by
    rintro fd' g hg
    refine hfile g ?_
    rintro rfl
    exact hs.used fd' g hg hzero
  refine ⟨hnode, by rw [hcwd, hs.cwd], fun fd' => ?_, fun fd' g hg => ?_⟩
  · rw [hofile]
    rcases eq_or_ne fd' fd with rfl | hne
    · simp [hip]
    · rw [update_of_ne hne, update_of_ne hne, hs.ip]
      exact Option.map_congr (fun g hg => by rw [hother fd' g hg])
  · rw [hofile] at hg
    rcases eq_or_ne fd' fd with rfl | hne
    · rw [update_self] at hg
      cases hg
      exact href
    · rw [update_of_ne hne] at hg
      rw [hother fd' g hg]
      exact hs.used fd' g hg

variable [Fintype ι]

theorem openInode_finds (h : Idle sb S) (hs : FindSees sb S p d fds) (hlen : path.length < maxPath)
    (hdev : ∀ i, d.resolve path = some i → (d.node i).type ≠ .device) :
    Ends (openInode sb (S.cwd p) path readOnly) S.fs
      (fun r t => r = d.openInode path ∧ d.node = t.view sb) (fun _ => True) := by
  have hwalk : Runs sb noInode noInode False S.refs 1 (namex sb (S.cwd p) path false) S.fs _ :=
    namex_runs h.consistent.sound Sys.cwd_mem .self
  have hopen : d.openInode path = d.resolve path := by
    rw [Find.Disk.openInode, if_pos hlen]
    cases hi : d.resolve path with
    | none => rfl
    | some i => exact Option.filter_some_pos (decide_eq_true (fun hd => absurd hd (hdev i hi)))
  simp only [openInode, readOnly, namei, ends_bind, Bool.false_eq_true, if_false]
  refine Ends.mono hwalk ?_ (fun _ _ => trivial)
  rintro r t ⟨-, hfound⟩
  have hres : r.map Prod.fst = d.resolve path := by
    rw [hfound.resolved.eq h.anchored, resolve_false, Option.map_map, Find.Disk.resolve, hs.node, hs.cwd]
    exact Option.map_id'
  rw [ends_pure, hopen, ← hres]
  rcases r with _ | ⟨ip, last⟩
  · have hst : Walked sb S.refs S.refs S.fs t := hfound.resolved.reached
    exact ⟨rfl, hs.node.trans (hst.still h.anchored).symm⟩
  · have hst : Walked sb S.refs (ip ::ₘ S.refs) S.fs t := hfound.resolved.reached
    simp only [Option.map_some, ends_bind]
    refine (ilock_ends (P := False) hst.sound (Multiset.mem_cons_self _ _) False.elim).mono ?_
      (fun _ _ => trivial)
    rintro _ u ⟨hkeep, hl⟩
    have hview : d.node = u.view sb := by rw [hs.node, hkeep.view, hst.still h.anchored]
    have htype : (u.body ip).type ≠ .device := by
      rw [← hkeep.sound.type_live hl, ← hview]
      exact hdev ip hres.symm
    simp [OpenMode.notReadOnly, htype, hview]

variable [DecidableEq ι]

/-- `open` as `find` sees it, while the file table has room. -/
theorem sysOpen_finds (h : Idle sb S) (hs : FindSees sb S p d fds) (hlen : path.length < maxPath)
    (hdev : ∀ i, d.resolve path = some i → (d.node i).type ≠ .device)
    (hroom : ∃ f < nFile, (S.file f).ref = 0) :
    Ends (sysOpen sb p path readOnly) S (fun r T => r = (d.sysOpen path fds).elim (-1) (fun x => (x.1 : ℤ)) ∧
      ∀ x ∈ d.sysOpen path fds, FindSees sb T p d x.2) (fun _ => True) := by
  have hsome : (fun fd => (fds fd).isSome) = fun fd => (S.ofile p fd).isSome := by
    funext fd
    rw [← Option.isSome_map, hs.ip fd, Option.isSome_map]
  simp only [sysOpen, ends_bind, ends_get]
  rw [ends_onFS]
  refine (openInode_finds h hs hlen hdev).imp ?_
  rintro r fs ⟨hr, hview⟩
  rw [Find.Disk.sysOpen, ← hr, hsome]
  cases r with
  | none => exact ⟨rfl, by simp⟩
  | some ip =>
    simp only [ends_bind]
    refine filealloc_ends.imp ?_
    rintro (_ | f) T hf
    · obtain ⟨g, hg, hzero⟩ := hroom
      exact absurd hzero (hf.2 g hg)
    · obtain ⟨-, hzero, rfl⟩ := hf
      simp only [ends_bind, fdalloc, ends_get, Sys.setFile]
      cases firstFree (fun fd => (S.ofile p fd).isSome) nOfile 0 with
      | none =>
        simp only [ends_bind, ends_pure]
        exact ends_self.ok (fun _ _ _ => ends_self.ok (fun _ _ _ => ⟨rfl, by simp⟩))
      | some fd =>
        simp only [ends_bind, ends_get, ends_modify, ends_pure, openFile, readOnly, Bool.false_eq_true,
          false_and, if_false, Option.elim_some, Option.mem_some_iff, forall_eq', true_and]
        refine hs.opened hzero hview rfl (update_self ..) (fun g hg => ?_) ?_ ?_
        · simp [Sys.setFile, Sys.setOfile, hg]
        · simp [Sys.setFile, Sys.setOfile]
        · simp [Sys.setFile]

end Opens

end Xv6.FileSystem
