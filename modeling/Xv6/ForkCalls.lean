import Xv6.SyscallWalks

/-!
# Processes that share open files

`sys_dup` of `kernel/sysfile.c` and `fork` of `kernel/proc.c`, beside the calls of
`Xv6.FileCalls`. A new process refers to the files and the current directory of its parent.
-/

namespace Xv6.FileSystem

open ActionPaths ByteBlocks PanicPrograms Relation TransitionRuns

section Files

variable {ι : Type}

def filedup (f : ℕ) : S ι Unit := do
  let s ← get
  if (s.file f).ref < 1 then throw .filedup
  else modify (fun s => s.setFile f { s.file f with ref := (s.file f).ref + 1 })

def sysDup [DecidableEq ι] (p : ι) (fd : ℕ) : S ι ℤ := do
  match ← argfd p fd with
  | none => pure (-1)
  | some f => do
    match ← fdalloc p f with
    | none => pure (-1)
    | some fd => do
      filedup f
      pure fd

/-- One turn of the loop of `fork` over the open files of the parent. -/
def forkFile (p : ι) (fd : ℕ) : S ι Unit := do
  let s ← get
  match s.ofile p fd with
  | none => pure ()
  | some f => filedup f

/-- The part of `fork` that takes references for the child. -/
def forkRefs (p : ι) : S ι Unit := do
  (List.range nOfile).forM (forkFile p)
  let s ← get
  let _ ← onFS (idup (s.cwd p))
  pure ()

end Files

/-- The slots of the process table that are in use, and what the processes in them refer to. -/
structure Procs where
  used : Finset ℕ
  sys : Sys used

/-- The process in slot `q` starts with the files and the directory of `p`. -/
def Sys.addProc {used : Finset ℕ} (s : Sys used) (p : used) (q : ℕ) : Sys ↥(insert q used) :=
  { fs := s.fs
    file := s.file
    cwd := fun r => if h : r.1 ∈ used then s.cwd ⟨r.1, h⟩ else s.cwd p
    ofile := fun r => if h : r.1 ∈ used then s.ofile ⟨r.1, h⟩ else s.ofile p }

inductive ProcCall
  | call (c : Call)
  | dup (fd : ℕ)
  | fork (memory : Bool)

/-- A call of the process in slot `p`. `memory` says whether `allocproc` and `uvmcopy` find the
pages they ask for; a `fork` without them has no effect here. -/
def procCall (sb : Superblock) (s : Procs) (p : s.used) : ProcCall → Except Panic Procs
  | .call c => (syscall sb p c s.sys).map (fun r => ⟨s.used, r.2⟩)
  | .dup fd => (sysDup p fd s.sys).map (fun r => ⟨s.used, r.2⟩)
  | .fork memory =>
    match firstFree (fun q => q ∈ s.used) nProc 0 with
    | none => .ok s
    | some q =>
      if memory = false then .ok s
      else (forkRefs p s.sys).map (fun r => ⟨insert q s.used, r.2.addProc p q⟩)

/-- The state after a call; a call that panics leaves none. -/
def procStep (sb : Superblock) (s : Procs) (a : ℕ × ProcCall) : Option Procs :=
  if h : a.1 ∈ s.used then (procCall sb s ⟨a.1, h⟩ a.2).toOption else none

section References

variable {ι : Type} [Fintype ι] {sb : Superblock} {s t : Sys ι} {p : ι} {f fd : ℕ}

/-- The references are in place, and a change of the counts in the file table does not show. -/
structure Recounted (sb : Superblock) (s t : Sys ι) : Prop where
  consistent : Consistent sb t
  fs : t.fs = s.fs
  refs : t.refs = s.refs
  cwd : t.cwd = s.cwd
  ofile : t.ofile = s.ofile

theorem Recounted.refl (h : Consistent sb s) : Recounted sb s s := ⟨h, rfl, rfl, rfl, rfl⟩

theorem Recounted.trans {u : Sys ι} (h : Recounted sb s t) (h' : Recounted sb t u) : Recounted sb s u :=
  ⟨h'.consistent, h'.fs.trans h.fs, h'.refs.trans h.refs, h'.cwd.trans h.cwd, h'.ofile.trans h.ofile⟩

theorem filedup_ends (h : Consistent sb s) (hf : f < nFile) :
    Ends (filedup f) s (fun _ t => Recounted sb s t) (fun e => e = .filedup) := by
  simp only [filedup, ends_bind, ends_get]
  refine ends_ite (fun _ => rfl) (fun _ => ?_)
  have hrefs := Sys.refs_setFile (s := s) hf { s.file f with ref := (s.file f).ref + 1 }
  have hsame : (s.setFile f { s.file f with ref := (s.file f).ref + 1 }).refs = s.refs :=
    add_right_cancel hrefs
  refine ⟨h.setFile hf (fun hzero => absurd hzero (Nat.succ_ne_zero _)) (fun _ => ⟨rfl, rfl, rfl⟩) ?_ .refl,
    rfl, hsame, rfl, rfl⟩
  rw [hsame]
  exact h.sound

theorem sysDup_ends [DecidableEq ι] (h : Consistent sb s) :
    Ends (sysDup p fd) s (fun _ t => Consistent sb t ∧ t.fs = s.fs) (fun e => e = .filedup) := by
  simp only [sysDup, argfd, ends_bind, ends_get, ends_pure]
  cases hfd : (if fd < nOfile then s.ofile p fd else none) with
  | none => exact ⟨h, rfl⟩
  | some f =>
    have hf := h.argfd_lt hfd
    dsimp only
    rw [ends_bind]
    refine fdalloc_ends.imp ?_
    rintro (_ | fd') t ht
    · obtain ⟨rfl, -⟩ := ht
      exact ⟨h, rfl⟩
    · obtain rfl := ht
      have hcons : Consistent sb (s.setOfile p fd' (some f)) := by
        refine ⟨h.sound, h.unused, h.cached, h.writable, fun q fd g hg => ?_⟩
        rcases Sys.ofile_setOfile hg with hg | hg
        · exact h.ofile_lt q fd g hg
        · exact Option.some.inj hg ▸ hf
      refine (filedup_ends hcons hf).bind ?_
      intro _ u hu
      exact ⟨hu.consistent, hu.fs⟩

/-- What `fork` leaves for the child: counts, and one more reference to the directory. -/
structure Forked (sb : Superblock) (D : Prop) (s : Sys ι) (p : ι) (t : Sys ι) (fs : FS) : Prop where
  recounted : Recounted sb s t
  keeps : Keeps sb s.refs (s.cwd p ::ₘ s.refs) s.fs fs
  path : ReflTransGen (Action sb (fun _ => D) anyInode D) s.fs fs

theorem forkFile_ends (h : Consistent sb s) :
    Ends (forkFile p fd) s (fun _ t => Recounted sb s t) (fun e => e = .filedup) := by
  simp only [forkFile, ends_bind, ends_get]
  cases hfd : s.ofile p fd with
  | none => exact .refl h
  | some f => exact filedup_ends h (h.ofile_lt p fd f hfd)

theorem forkRefs_ends {D : Prop} (h : Consistent sb s) :
    Ends (forkRefs p) s (fun _ t => ∃ u fs, Forked sb D s p u fs ∧ t = { u with fs := fs })
      (fun e => e = .filedup) := by
  rw [forkRefs]
  refine (ends_forM (fun _ t => Recounted sb s t) _ (.refl h) ?_).bind ?_
  · intro fd _ t ht
    exact (forkFile_ends ht.consistent).mono (fun _ _ hu => ht.trans hu) (fun _ h => h)
  · intro _ t ht
    simp only [ends_bind, ends_get, ends_pure]
    rw [ends_onFS, ht.fs, congrFun ht.cwd p]
    have hruns : Runs sb (fun _ => D) anyInode D s.refs 2 (idup (s.cwd p)) s.fs (fun r fs =>
      r = s.cwd p ∧ Keeps sb s.refs (s.cwd p ::ₘ s.refs) s.fs fs) := idup_runs h.sound Sys.cwd_mem
    refine (Ends.both hruns (idup_ends (E := fun _ => False) h.sound Sys.cwd_mem)).mono ?_
      (fun _ he => he.2.elim)
    rintro _ fs ⟨⟨hpath, -, hkeep⟩, -⟩
    exact ⟨t, fs, ⟨ht, hkeep, hpath⟩, rfl⟩

end References

section Processes

variable {used : Finset ℕ} {sb : Superblock} {s : Sys used} {p : used} {q : ℕ} {D : Prop}

theorem Sys.refs_addProc (hq : q ∉ used) : (s.addProc p q).refs = s.cwd p ::ₘ s.refs := by
  have hcwd : ∑ r : ↥(insert q used), ({(s.addProc p q).cwd r} : Multiset ℕ) =
      {s.cwd p} + ∑ r : used, {s.cwd r} := by
    have hsum : ∀ u : Finset ℕ, ∑ r : u, (if h : r.1 ∈ used then {s.cwd ⟨r.1, h⟩} else {s.cwd p}) =
        ∑ r ∈ u, (if h : r ∈ used then ({s.cwd ⟨r, h⟩} : Multiset ℕ) else {s.cwd p}) :=
      fun u => Finset.sum_coe_sort u (fun r => if h : r ∈ used then {s.cwd ⟨r, h⟩} else {s.cwd p})
    have hold : ∑ r : used, ({s.cwd r} : Multiset ℕ) =
        ∑ r : used, (if h : r.1 ∈ used then {s.cwd ⟨r.1, h⟩} else {s.cwd p}) :=
      Finset.sum_congr rfl (fun r _ => by rw [dif_pos r.2])
    have hnew : ∑ r : ↥(insert q used), ({(s.addProc p q).cwd r} : Multiset ℕ) =
        ∑ r : ↥(insert q used), (if h : r.1 ∈ used then {s.cwd ⟨r.1, h⟩} else {s.cwd p}) := by
      refine Finset.sum_congr rfl (fun r _ => ?_)
      rw [Sys.addProc]
      dsimp only
      split <;> rfl
    rw [hnew, hold, hsum, hsum, Finset.sum_insert hq, dif_neg hq]
  rw [Sys.refs, Sys.refs, hcwd, add_assoc, Multiset.singleton_add]
  rfl

theorem Forked.consistent {t : Sys used} {fs : FS} (h : Forked sb D s p t fs) (hq : q ∉ used) :
    Consistent sb (({ t with fs := fs } : Sys used).addProc p q) := by
  have hrefs : (({ t with fs := fs } : Sys used).addProc p q).refs = s.cwd p ::ₘ s.refs := by
    rw [Sys.refs_addProc hq]
    exact congrArg₂ Multiset.cons (congrFun h.recounted.cwd p) h.recounted.refs
  have ht := h.recounted.consistent
  have hip : ∀ f < nFile, (t.file f).type ≠ .none → (t.file f).ip ∈ s.refs := by
    intro f hf htype
    rw [← h.recounted.refs]
    exact Sys.ip_mem hf htype
  refine ⟨hrefs ▸ h.keeps.sound, ht.unused, fun f hf htype => ?_, fun f hf htype hw => ?_, ?_⟩
  · refine h.keeps.stays.valid _ (hip f hf htype) ?_
    rw [← h.recounted.fs]
    exact ht.cached f hf htype
  · have hvalid := ht.cached f hf htype
    have hfile := ht.writable f hf htype hw
    rw [h.recounted.fs] at hvalid hfile
    exact ne_of_eq_of_ne (h.keeps.stays.type _ (hip f hf htype) hvalid) hfile
  · intro r fd f hf
    simp only [Sys.addProc] at hf
    split at hf
    · exact ht.ofile_lt _ fd f hf
    · exact ht.ofile_lt _ fd f hf

end Processes

variable {sb : Superblock} {s t : Procs} {p : s.used} {a : ProcCall}

def ProcCall.enters : ProcCall → Prop
  | .call c => c.enters
  | .dup _ => False
  | .fork _ => False

/-- A call takes a consistent state to one, by actions of the file system. -/
theorem procCall_ok (h : Consistent sb s.sys) (hcall : procCall sb s p a = .ok t) :
    Consistent sb t.sys ∧
      ReflTransGen (Action sb (fun _ => a.enters) anyInode a.enters) s.sys.fs t.sys.fs := by
  cases a with
  | call c =>
    obtain ⟨r, hok, rfl⟩ := exists_of_map_ok hcall
    obtain ⟨hpath, hafter⟩ := Ends.of_ok (syscall_runs h) hok
    exact ⟨hafter.consistent, SysAction.path hpath⟩
  | dup fd =>
    obtain ⟨r, hok, rfl⟩ := exists_of_map_ok hcall
    obtain ⟨hcons, hfs⟩ := (sysDup_ends h).of_ok hok
    refine ⟨hcons, ?_⟩
    rw [hfs]
  | fork memory =>
    rw [procCall] at hcall
    split at hcall
    · cases hcall
      exact ⟨h, .refl⟩
    · rename_i q hq
      split at hcall
      · cases hcall
        exact ⟨h, .refl⟩
      · obtain ⟨r, hok, rfl⟩ := exists_of_map_ok hcall
        obtain ⟨u, fs, hforked, hr⟩ := (forkRefs_ends h).of_ok hok
        have hfree : q ∉ s.used := by simpa using (firstFree_spec hq).1
        dsimp only
        rw [hr]
        exact ⟨hforked.consistent hfree, hforked.path⟩

/-- A call that panics does so for a cause, or finds a file structure that is not in use. -/
theorem procCall_error {e : Panic} (h : Consistent sb s.sys) (hcall : procCall sb s p a = .error e) :
    e = .filedup ∨ ∃ c t, a = .call c ∧ CallCause sb s.sys t e ∧
      ReflTransGen (Action sb (fun _ => a.enters) anyInode a.enters) s.sys.fs t.fs := by
  cases a with
  | call c =>
    obtain ⟨t, hpath, he⟩ := Ends.of_error (syscall_runs h) (of_map_error hcall)
    exact .inr ⟨c, t, rfl, he, SysAction.path hpath⟩
  | dup fd => exact .inl ((sysDup_ends h).of_error (of_map_error hcall))
  | fork memory =>
    rw [procCall] at hcall
    split at hcall
    · cases hcall
    · split at hcall
      · cases hcall
      · exact .inl ((forkRefs_ends (D := False) h).of_error (of_map_error hcall))

theorem procStep_eq_some {a : ℕ × ProcCall} (h : procStep sb s a = some t) :
    ∃ hp : a.1 ∈ s.used, procCall sb s ⟨a.1, hp⟩ a.2 = .ok t := by
  rw [procStep] at h
  split at h
  · rename_i hp
    refine ⟨hp, ?_⟩
    cases hcall : procCall sb s ⟨a.1, hp⟩ a.2 with
    | ok u =>
      rw [hcall] at h
      cases h
      rfl
    | error e =>
      rw [hcall] at h
      cases h
  · cases h

theorem procRun_invariant {I : FS → Prop} {as : List (ℕ × ProcCall)} {guard : Procs → ℕ × ProcCall → Prop}
    (hI : ∀ {A W D fs fs'}, Action sb A W D fs fs' → I fs → I fs') (h : Consistent sb s.sys)
    (hs : I s.sys.fs) (hrun : Run (procStep sb) guard s as t) : Consistent sb t.sys ∧ I t.sys.fs := by
  refine hrun.invariant (I := fun t : Procs => Consistent sb t.sys ∧ I t.sys.fs) ⟨h, hs⟩ ?_
  rintro v a w ⟨hv, hi⟩ - hstep
  obtain ⟨hp, hcall⟩ := procStep_eq_some hstep
  obtain ⟨hw, hpath⟩ := procCall_ok hv hcall
  exact ⟨hw, path_keeps (fun _ _ ha => hI ha) hpath hi⟩

end Xv6.FileSystem
