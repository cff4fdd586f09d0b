import Xv6.ProcessCalls

/-!
# System calls of processes as paths of actions

A system call changes the file system by actions, and the file and process tables in between.
What every action keeps holds after every call, and where a call panics.
-/

namespace Xv6.FileSystem

open ActionPaths ByteBlocks Function PanicPrograms Relation TransitionRuns

variable {ι : Type} [Fintype ι] {sb : Superblock} {s t u : Sys ι} {p : ι} {f ip fd off n : ℕ}
  {D : Prop} {c : Call}

def anyInode (_ : ℕ) : Prop := True

/-- An action of the file system, or a change beside it. `D` says whether inodes may be
allocated and entries written. -/
def SysAction (sb : Superblock) (D : Prop) (s t : Sys ι) : Prop :=
  Action sb (fun _ => D) anyInode D s.fs t.fs ∨ t.fs = s.fs

/-- Why a call from `s` panics in `t`: a cause in the file system, an inode without a link that
is to lose one, or a file structure that is not in use. -/
def CallCause (sb : Superblock) (s t : Sys ι) (e : Panic) : Prop :=
  Cause sb s.refs 2 t.fs e ∨ Unlinkable sb s.refs s.fs e ∨ e = .fileclose ∨ e = .filewrite

/-- In a call from `s`, a program gets from `t` to its end by actions, or panics for a cause. -/
abbrev CallRuns {α : Type} (sb : Superblock) (D : Prop) (s : Sys ι) (m : S ι α) (t : Sys ι)
    (Q : α → Sys ι → Prop) : Prop := Treads (SysAction sb D) (CallCause sb s) m t Q

theorem treads_onFS {α : Type} {m : M α} {cause : FS → Panic → Prop} {Q : α → Sys ι → Prop}
    (h : Treads (Action sb (fun _ => D) anyInode D) cause m t.fs (fun a fs => Q a { t with fs := fs }))
    (hcause : ∀ (u : Sys ι) e, cause u.fs e → CallCause sb s u e) : CallRuns sb D s (onFS m) t Q := by
  have hlift : ∀ {fs}, ReflTransGen (Action sb (fun _ => D) anyInode D) t.fs fs →
      ReflTransGen (SysAction sb D) t { t with fs := fs } :=
    fun hpath => hpath.lift (fun fs => { t with fs := fs }) (fun _ _ ha => .inl ha)
  rw [CallRuns, Treads, ends_onFS]
  refine Ends.mono h ?_ ?_
  · rintro a fs ⟨hpath, ha⟩
    exact ⟨hlift hpath, ha⟩
  · rintro e ⟨fs, hpath, he⟩
    exact ⟨_, hlift hpath, hcause _ e he⟩

theorem onFS_runs {α : Type} {m : M α} {Q : α → Sys ι → Prop}
    (h : Runs sb (fun _ => D) anyInode D s.refs 2 m t.fs (fun a fs => Q a { t with fs := fs })) :
    CallRuns sb D s (onFS m) t Q := treads_onFS h (fun _ _ he => .inl he)

theorem onFS_bind_runs {α β : Type} {m : M α} {g : α → S ι β} {Q : α → FS → Prop}
    {R : β → Sys ι → Prop} (h : Runs sb (fun _ => D) anyInode D s.refs 2 m t.fs Q)
    (hg : ∀ a fs, Q a fs → CallRuns sb D s (g a) { t with fs := fs } R) :
    CallRuns sb D s (onFS m >>= g) t R := by
  have hm : CallRuns sb D s (onFS m) t (fun a u => ∃ fs, Q a fs ∧ u = { t with fs := fs }) :=
    onFS_runs (h.mono (fun _ fs ha => ⟨fs, ha, rfl⟩))
  refine hm.bind ?_
  rintro a u ⟨fs, ha, rfl⟩
  exact hg a fs ha

theorem beside_runs {α : Type} {m : S ι α} {Q : α → Sys ι → Prop}
    (h : Ends m t Q (fun _ => False)) (hfs : ∀ a u, Q a u → u.fs = t.fs) : CallRuns sb D s m t Q :=
  h.mono (fun a u hu => ⟨.single (.inr (hfs a u hu)), hu⟩) (fun _ he => he.elim)

theorem offered_any {T : Multiset ℕ} {fs : FS} (hD : D) : Offered sb T fs (fun _ => D) :=
  fun _ _ _ _ => hD

theorem fileclose_runs (h : Consistent sb s) (hf : f < nFile) :
    CallRuns sb D s (fileclose sb f) s (fun _ t => After sb p c s t) := by
  rw [fileclose, CallRuns, treads_get]
  refine Treads.ite (fun _ => treads_throw (.inr (.inr (.inl rfl)))) (fun href => Treads.ite ?_ ?_)
  · intro hmore
    refine treads_modify (.inr rfl) ?_
    have hsame : (s.setFile f { s.file f with ref := (s.file f).ref - 1 }).refs = s.refs :=
      add_right_cancel (Sys.refs_setFile (s := s) hf { s.file f with ref := (s.file f).ref - 1 })
    refine ⟨h.setFile hf (fun hzero => ?_) (fun _ => ⟨rfl, rfl, rfl⟩) ?_ .refl, fun ha => ?_⟩
    · dsimp only at hzero
      omega
    · rw [hsame]
      exact h.sound
    · rw [hsame]
      exact ⟨ha, fun _ => .still⟩
  · intro _
    have hrefs := Sys.refs_setFile (s := s) hf { s.file f with ref := 0, type := .none }
    have hnone : ({ s.file f with ref := 0, type := .none } : File).held = 0 := if_pos rfl
    rw [hnone, add_zero, File.held] at hrefs
    have hclose : CallRuns sb D s (modify (fun s => s.setFile f { s.file f with ref := 0, type := .none }))
        s (fun _ t => t = s.setFile f { s.file f with ref := 0, type := .none }) :=
      treads_modify (.inr rfl) rfl
    refine hclose.bind ?_
    rintro _ t rfl
    have hsound := h.sound
    refine Treads.ite (fun htype => onFS_runs ?_) (fun htype => treads_pure ?_)
    · rw [if_neg htype, add_comm, Multiset.singleton_add] at hrefs
      rw [← hrefs] at hsound
      refine (iput_runs hsound).mono ?_
      intro _ fs ht
      refine ⟨h.setFile hf (fun _ => rfl) (fun hne => absurd rfl hne) ht.sound ht.stays, fun ha => ?_⟩
      rw [← hrefs] at ha
      obtain ⟨hat, hview⟩ := ht.moves ha
      refine ⟨hat, fun _ => ?_⟩
      have hchange : Change sb (s.cwd p) s.refs (s.fs.view sb) c _ _ := .close hrefs.symm
      rw [← hview] at hchange
      exact hchange
    · rw [if_pos (not_not.1 htype), add_zero] at hrefs
      rw [← hrefs] at hsound
      refine ⟨h.setFile hf (fun _ => rfl) (fun hne => absurd rfl hne) hsound .refl, fun ha => ?_⟩
      rw [hrefs]
      exact ⟨ha, fun _ => .still⟩

variable [DecidableEq ι]

omit [DecidableEq ι] in
theorem openFile_runs {mode : OpenMode} {T : Multiset ℕ} (h : Sound sb T t.fs) (hl : t.fs.live ip) :
    CallRuns sb D s (openFile sb f ip mode) t (fun _ u => ∃ (x : File) (fs : FS), x.type ≠ .none ∧
      x.ip = ip ∧ x.ref = (t.file f).ref ∧ x.writable = (mode.wronly || mode.rdwr) ∧
      Keeps sb T T t.fs fs ∧ u = { t.setFile f x with fs := fs }) := by
  have hsome : (if (t.fs.body ip).type = .device then FdType.device else .inode) ≠ .none := by
    split <;> simp
  rw [openFile, CallRuns, treads_get]
  refine Treads.bind (beside_runs (Q := fun _ u => ∃ x : File, x.type ≠ .none ∧ x.ip = ip ∧
    x.ref = (t.file f).ref ∧ x.writable = (mode.wronly || mode.rdwr) ∧ u = t.setFile f x)
      ⟨⟨_, _, _, _⟩, hsome, rfl, rfl, rfl, rfl⟩ ?_) ?_
  · rintro _ u ⟨x, -, -, -, -, rfl⟩
    rfl
  · rintro _ u ⟨x, hx, hip, href, hw, rfl⟩
    refine Treads.ite (fun hfile => onFS_runs ?_) (fun _ => treads_pure ?_)
    · refine (itrunc_runs h hl (by simp [hfile.2]) trivial).mono ?_
      exact fun _ fs hkeep => ⟨x, fs, hx, hip, href, hw, hkeep, rfl⟩
    · exact ⟨x, t.fs, hx, hip, href, hw, .refl h, rfl⟩

theorem sysOpen_runs {mem : List Byte} {path : Name} {mode : OpenMode} (hD : mode.create = true → D)
    (h : Consistent sb s) (harg : argstr mem = some path) :
    CallRuns sb D s (sysOpen sb p path mode) s (fun _ t => After sb p (.sysOpen mem mode) s t) := by
  rw [sysOpen, CallRuns, treads_get]
  refine onFS_bind_runs (openInode_runs (fun hc => ⟨hD hc, offered_any (hD hc)⟩) h.sound Sys.cwd_mem .self) ?_
  rintro (_ | ip) fs hopen
  · refine treads_pure (After.of_fs h hopen (fun heff ho => ?_))
    rw [heff ho]
    exact .still
  · obtain ⟨hl, hdir, ht⟩ := hopen
    -- Without a file structure, the inode is given back.
    have hfail : CallRuns sb D s (do
        onFS (iput sb ip)
        pure (-1 : ℤ)) { s with fs := fs } (fun _ t => After sb p (.sysOpen mem mode) s t) :=
      onFS_bind_runs (iput_runs ht.sound) (fun _ _ hu => treads_pure (.of_open_fail h harg ht hu))
    refine Treads.bind (beside_runs filealloc_ends ?_) ?_
    · rintro (_ | f) u hu
      · rw [hu.1]
      · rw [hu.2.2]
        rfl
    · rintro (_ | f) u hu
      · obtain ⟨rfl, -⟩ := hu
        exact hfail
      · obtain ⟨hf, href, rfl⟩ := hu
        have htype := h.unused f href
        refine Treads.bind (beside_runs fdalloc_ends ?_) ?_
        · rintro (_ | fd) u hu
          · rw [hu.1]
          · rw [hu]
            rfl
        · rintro (_ | fd) u hu
          · obtain ⟨rfl, -⟩ := hu
            refine Treads.bind (beside_runs (fileclose_unused (by simp [Sys.setFile])
              (by simp [Sys.setFile, htype])) ?_) ?_
            · rintro _ u rfl
              rfl
            · rintro _ u rfl
              have hx : ({ s.file f with ref := 0, type := .none } : File) = s.file f := by
                rw [← href, ← htype]
              rw [Sys.setFile_setFile]
              simp only [Sys.setFile, update_self, hx, update_eq_self]
              exact hfail
          · obtain rfl := hu
            have hlt : ∀ q fd' g, (({ s with fs := fs } : Sys ι).setOfile p fd (some f)).ofile q fd' =
                some g → g < nFile := by
              intro q fd' g hg
              rcases Sys.ofile_setOfile hg with hg | hg
              · exact h.ofile_lt q fd' g hg
              · exact Option.some.inj hg ▸ hf
            refine Treads.bind (openFile_runs (T := ip ::ₘ s.refs) ht.sound hl) ?_
            rintro _ u ⟨x, fs', hx, hip, href', hw, hkeep, rfl⟩
            have hmem : ip ∈ ip ::ₘ s.refs := Multiset.mem_cons_self _ _
            refine treads_pure (.of_open h harg hf href hx hip ?_
              (ht.sound.live_turn hkeep.turn hmem hmem hl) (fun hxw => ?_)
              ((ht.trans (hkeep.turn.mono (Multiset.subset_cons _ _))).imp ?_) rfl ?_ rfl hlt)
            · simpa [Sys.setFile, Sys.setOfile] using href'
            · refine ne_of_eq_of_ne (hkeep.stays.type ip hmem hl.2) (hdir ?_)
              rw [hw] at hxw
              simp [OpenMode.notReadOnly, Bool.or_eq_true_iff.1 hxw]
            · rintro ⟨heff, hview⟩ ho
              rw [hview]
              exact heff ho
            · simp [Sys.setFile, Sys.setOfile]

theorem sysChdir_runs {path : Name} (h : Consistent sb s) :
    CallRuns sb D s (sysChdir sb p path) s (fun _ t => After sb p c s t) := by
  have hsound := h.sound
  have hT : Extra s.refs 1 s.refs := .self
  rw [Sys.refs_eq (p := p)] at hsound
  nth_rewrite 2 [Sys.refs_eq (p := p)] at hT
  rw [sysChdir, CallRuns, treads_get]
  refine onFS_bind_runs (chdirInode_runs hsound hT) ?_
  rintro (_ | ip) fs hmoved
  · rw [Moved, ← Sys.refs_eq] at hmoved
    refine treads_pure (After.of_fs h hmoved (fun hview _ => ?_))
    rw [hview]
    exact .still
  · refine Treads.bind (beside_runs (Q := fun _ u => u = { s with fs := fs, cwd := update s.cwd p ip })
      rfl ?_) ?_
    · rintro _ u rfl
      rfl
    · rintro _ u rfl
      exact treads_pure (After.of_chdir h hmoved.1)

omit [Fintype ι] [DecidableEq ι] in
theorem Consistent.argfd_lt [Fintype ι] (h : Consistent sb s)
    (hfd : (if fd < nOfile then s.ofile p fd else none) = some f) : f < nFile := by
  split at hfd
  · exact h.ofile_lt p fd f hfd
  · cases hfd

theorem sysClose_runs (h : Consistent sb s) :
    CallRuns sb D s (sysClose sb p fd) s (fun _ t => After sb p c s t) := by
  rw [sysClose, argfd, CallRuns]
  refine treads_assoc.2 (treads_get.2 (treads_pure_bind.2 ?_))
  cases hfd : (if fd < nOfile then s.ofile p fd else none) with
  | none => exact treads_pure (.refl h)
  | some f =>
    have hcons : Consistent sb (s.setOfile p fd none) := by
      refine ⟨h.sound, h.unused, h.cached, h.writable, fun q fd' g hg => ?_⟩
      rcases Sys.ofile_setOfile hg with hg | hg
      · exact h.ofile_lt q fd' g hg
      · cases hg
    refine Treads.bind (beside_runs (Q := fun _ u => u = s.setOfile p fd none) rfl ?_) ?_
    · rintro _ u rfl
      rfl
    · rintro _ u rfl
      refine Treads.bind (fileclose_runs (p := p) (c := c) hcons (h.argfd_lt hfd)) (fun _ t ht => ?_)
      exact treads_pure ⟨ht.consistent, ht.change⟩

omit [DecidableEq ι] in
theorem sysWrite_runs {src : ℕ → Option Byte} (h : Consistent sb s) :
    CallRuns sb D s (sysWrite sb p fd off n src) s (fun _ t => After sb p c s t) := by
  rw [sysWrite, argfd, CallRuns]
  refine treads_assoc.2 (treads_get.2 (treads_pure_bind.2 ?_))
  cases hfd : (if fd < nOfile then s.ofile p fd else none) with
  | none => exact treads_pure (.refl h)
  | some f =>
    have hf := h.argfd_lt hfd
    dsimp only
    rw [filewrite, treads_get]
    refine Treads.ite (fun _ => treads_pure (.refl h)) (fun hw => ?_)
    cases htype : (s.file f).type with
    | none => exact treads_throw (.inr (.inr (.inr rfl)))
    | device => exact treads_pure (.refl h)
    | inode =>
      have hsome : (s.file f).type ≠ .none := by simp [htype]
      have hvalid := h.cached f hf hsome
      have hmem := Sys.ip_mem hf hsome
      refine onFS_bind_runs (ilock_runs h.sound hmem) ?_
      rintro _ fs ⟨hkeep, hl⟩
      have hfile : (fs.body (s.file f).ip).type ≠ .dir :=
        ne_of_eq_of_ne (hkeep.stays.type _ hmem hvalid) (h.writable f hf hsome (by simpa using hw))
      refine onFS_bind_runs (writei_runs hkeep.sound hl (.inr ⟨hfile, trivial⟩)
        (writei_file_ends hkeep.sound hl hfile)) ?_
      intro _ fs' hkeep'
      refine treads_pure (After.of_fs h (hkeep.trans hkeep').turn (fun hview _ => ?_))
      rw [hview]
      exact .still

def Call.enters : Call → Prop
  | .sysOpen _ mode => mode.create = true
  | .sysMkdir _ => True
  | .sysMknod _ _ _ => True
  | .sysLink _ _ => True
  | .sysUnlink _ => True
  | .sysChdir _ => False
  | .sysClose _ => False
  | .sysWrite _ _ _ _ => False

theorem syscall_runs (h : Consistent sb s) :
    CallRuns sb c.enters s (syscall sb p c) s (fun _ t => After sb p c s t) := by
  have hmake : ∀ {c : Call} {path : Name} {type : FileType} {major minor : ℤ}, type ≠ .none →
      c.makes = some (path, type) → CallRuns sb True s (onFS (makeNode sb (s.cwd p) path type major minor)) s
        (fun _ t => After sb p c s t) := by
    intro c path type major minor htype hc
    refine onFS_runs ((makeNode_runs trivial h.sound Sys.cwd_mem htype .self (offered_any trivial)).mono ?_)
    intro _ fs ht
    refine After.of_fs h ht (fun heff ho => ?_)
    rcases heff ho with hsame | ⟨dp, ip, name, k, hmade, hview⟩
    · rw [hsame]
      exact .still
    · rw [hview]
      exact .make hc hmade
  cases c with
  | sysOpen mem mode =>
    rw [syscall]
    cases harg : argstr mem with
    | none => exact treads_pure (.refl h)
    | some path => exact sysOpen_runs (fun hc => hc) h harg
  | sysMkdir mem | sysMknod mem major minor =>
    rw [syscall]
    cases harg : argstr mem with
    | none => exact treads_pure (.refl h)
    | some path => exact treads_get.2 (hmake (by decide) (by simp [Call.makes, harg]))
  | sysLink mem mem' =>
    rw [syscall]
    cases harg : argstr mem with
    | none => exact treads_pure (.refl h)
    | some old =>
      cases harg' : argstr mem' with
      | none => exact treads_pure (.refl h)
      | some new =>
        refine treads_get.2 (onFS_runs ((sysLink_runs trivial h.sound Sys.cwd_mem .self).mono ?_))
        intro _ fs ht
        refine After.of_fs h ht (fun heff _ => ?_)
        rcases heff with ⟨-, hsame | ⟨ip, last, -, hdir, hsome, hview⟩⟩ | ⟨-, ip, dp, k, x, hlinks, hview⟩
        · rw [hsame]
          exact .still
        · rw [hview]
          exact .linkBack ⟨hdir, hsome⟩
        · rw [hview]
          exact .link rfl harg harg' hlinks
  | sysUnlink mem =>
    rw [syscall]
    cases harg : argstr mem with
    | none => exact treads_pure (.refl h)
    | some path =>
      refine treads_get.2 (treads_onFS ((sysUnlink_runs (k := 1) trivial h.sound Sys.cwd_mem .self).mono ?_) ?_)
      · intro _ fs ht
        refine After.of_fs h ht (fun heff _ => ?_)
        rcases heff with ⟨-, hsame⟩ | ⟨-, dp, ip, k, hunlinks, hview⟩
        · rw [hsame]
          exact .still
        · rw [hview]
          exact .unlink rfl harg hunlinks
      · rintro u e (he | he)
        · exact .inl he
        · exact .inr (.inl he)
  | sysChdir mem =>
    rw [syscall]
    cases argstr mem with
    | none => exact treads_pure (.refl h)
    | some path => exact sysChdir_runs h
  | sysClose fd => exact sysClose_runs h
  | sysWrite fd off n src => exact sysWrite_runs h

omit [Fintype ι] [DecidableEq ι] in
theorem SysAction.path {D : Prop} {t : Sys ι} (h : ReflTransGen (SysAction sb D) s t) :
    ReflTransGen (Action sb (fun _ => D) anyInode D) s.fs t.fs := by
  refine h.lift' Sys.fs ?_
  rintro t u (ha | hsame)
  · exact .single ha
  · change ReflTransGen _ t.fs u.fs
    rw [hsame]

/-- What a call guarantees, and its actions on the file system. -/
theorem step_runs {t : Sys ι} {a : ι × Call} (h : Consistent sb s) (hstep : step sb s a = some t) :
    ReflTransGen (Action sb (fun _ => a.2.enters) anyInode a.2.enters) s.fs t.fs ∧ After sb a.1 a.2 s t := by
  rw [step] at hstep
  split at hstep
  · rename_i r u hok
    cases hstep
    obtain ⟨hpath, hafter⟩ := Ends.of_ok (syscall_runs h) hok
    exact ⟨SysAction.path hpath, hafter⟩
  · cases hstep

theorem Consistent.run {guard : Sys ι → ι × Call → Prop} {as : List (ι × Call)} (h : Consistent sb s)
    (hrun : Run (step sb) guard s as t) : Consistent sb t :=
  hrun.invariant h (fun _ _ _ hv _ hnext => (step_runs hv hnext).2.consistent)

end Xv6.FileSystem
