import Xv6.OpenCalls

/-!
# System calls of processes

The references that processes hold, through their current directories and open files, and
what each system call does to them and to the namespace.
-/

namespace Xv6.FileSystem

open ByteBlocks Function PanicPrograms TransitionRuns

variable {ι : Type} [Fintype ι]

def File.held (x : File) : Multiset ℕ := if x.type = .none then 0 else {x.ip}

/-- The references that processes hold. -/
def Sys.refs (s : Sys ι) : Multiset ℕ :=
  (∑ p, {s.cwd p}) + ∑ f ∈ Finset.range nFile, (s.file f).held

/-- A sound state of the file system and the file table. -/
structure Consistent (sb : Superblock) (s : Sys ι) : Prop where
  sound : Sound sb s.refs s.fs
  unused : ∀ f, (s.file f).ref = 0 → (s.file f).type = .none
  cached : ∀ f < nFile, (s.file f).type ≠ .none → (s.fs.inode (s.file f).ip).valid = true
  writable : ∀ f < nFile, (s.file f).type ≠ .none → (s.file f).writable = true →
    (s.fs.body (s.file f).ip).type ≠ .dir
  ofile_lt : ∀ p fd f, s.ofile p fd = some f → f < nFile

variable {sb : Superblock} {s t : Sys ι} {p : ι} {f ip : ℕ} {fs fs' : FS} {x : File} {e P : Prop}
  {E : Panic → Prop} {T T' : Multiset ℕ} {v w : ℕ → Node}

theorem Sys.refs_setFile (hf : f < nFile) (x : File) :
    (s.setFile f x).refs + (s.file f).held = s.refs + x.held := by
  have hsum := sum_update_mem s.file File.held (Finset.mem_range.2 hf) x
  simp only [Sys.refs, Sys.setFile]
  rw [add_assoc, hsum, add_assoc]

theorem Sys.cwd_mem : s.cwd p ∈ s.refs := by
  refine Multiset.mem_add.2 (.inl ?_)
  exact Multiset.mem_sum.2 ⟨p, Finset.mem_univ p, Multiset.mem_singleton_self _⟩

theorem Sys.ip_mem (hf : f < nFile) (htype : (s.file f).type ≠ .none) : (s.file f).ip ∈ s.refs := by
  refine Multiset.mem_add.2 (.inr ?_)
  refine Multiset.mem_sum.2 ⟨f, Finset.mem_range.2 hf, ?_⟩
  rw [File.held, if_neg htype]
  exact Multiset.mem_singleton_self _

theorem Consistent.setFS (h : Consistent sb s) (hsound : Sound sb s.refs fs)
    (hst : Stays s.refs s.fs fs) : Consistent sb { s with fs := fs } where
  sound := hsound
  unused := h.unused
  cached := fun f hf htype => hst.valid _ (Sys.ip_mem hf htype) (h.cached f hf htype)
  writable := by
    intro f hf htype hw
    rw [hst.type _ (Sys.ip_mem hf htype) (h.cached f hf htype)]
    exact h.writable f hf htype hw
  ofile_lt := h.ofile_lt

/-- The path at which a call may make a new inode, and its type. -/
def Call.makes : Call → Option (Name × FileType)
  | .sysOpen mem mode => if mode.create then (argstr mem).map (·, .file) else none
  | .sysMkdir mem => (argstr mem).map (·, .dir)
  | .sysMknod mem _ _ => (argstr mem).map (·, .device)
  | _ => none

/-- What a call of a process in `cwd` may do to the references `T` and the namespace `v`. -/
inductive Change (sb : Superblock) (cwd : ℕ) (T : Multiset ℕ) (v : ℕ → Node) (c : Call) :
    Multiset ℕ → (ℕ → Node) → Prop
  | still : Change sb cwd T v c T v
  | hold {ip : ℕ} (type : (v ip).type ≠ .none) : Change sb cwd T v c (ip ::ₘ T) v
  | make {path : Name} {type : FileType} {dp ip k : ℕ} {name : Name}
      (path_eq : c.makes = some (path, type)) (found : Creates sb v cwd path dp ip name k) :
      Change sb cwd T v c T (created T v dp ip name type k)
  | makeHold {path : Name} {type : FileType} {dp ip k : ℕ} {name : Name}
      (path_eq : c.makes = some (path, type)) (found : Creates sb v cwd path dp ip name k) :
      Change sb cwd T v c (ip ::ₘ T) (created T v dp ip name type k)
  | unlink {mem : List Byte} {path : Name} {dp ip k : ℕ} (call : c = .sysUnlink mem)
      (arg : argstr mem = some path) (found : Unlinks v cwd path dp ip k) :
      Change sb cwd T v c T (unlinked T v dp ip k)
  | linkBack {ip : ℕ} (type : (v ip).type ≠ .dir ∧ (v ip).type ≠ .none) :
      Change sb cwd T v c T (unlinkedBack T v ip)
  | link {mem mem' : List Byte} {old new : Name} {ip dp k : ℕ} {x : ℕ → Node}
      (call : c = .sysLink mem mem') (arg : argstr mem = some old) (arg' : argstr mem' = some new)
      (found : Links v x cwd old new ip dp k) :
      Change sb cwd T v c T (settled T (settled (ip ::ₘ T) x dp) ip)
  | chdir {ip : ℕ} {T' : Multiset ℕ} (refs : T = cwd ::ₘ T') (type : (v ip).type = .dir) :
      Change sb cwd T v c (ip ::ₘ T') (settled (ip ::ₘ T') v cwd)
  | close {i : ℕ} {T' : Multiset ℕ} (refs : T = i ::ₘ T') : Change sb cwd T v c T' (settled T' v i)

structure After (sb : Superblock) (p : ι) (c : Call) (s t : Sys ι) : Prop where
  consistent : Consistent sb t
  change : Anchored sb s.refs s.fs → Anchored sb t.refs t.fs ∧ (Orderly sb s.refs (s.fs.view sb) →
    Change sb (s.cwd p) s.refs (s.fs.view sb) c t.refs (t.fs.view sb))

theorem After.refl {c : Call} (h : Consistent sb s) : After sb p c s s :=
  ⟨h, fun ha => ⟨ha, fun _ => .still⟩⟩

theorem After.of_fs {c : Call} (h : Consistent sb s) (ht : Turn sb s.refs s.refs s.refs s.fs fs e)
    (heff : e → Orderly sb s.refs (s.fs.view sb) →
      Change sb (s.cwd p) s.refs (s.fs.view sb) c s.refs (fs.view sb)) :
    After sb p c s { s with fs := fs } :=
  ⟨h.setFS ht.sound ht.stays, fun ha => ⟨(ht.moves ha).1, heff (ht.moves ha).2⟩⟩

section Files

variable {c : Call} {mem path : List Byte} {mode : OpenMode}

theorem After.of_open_fail (h : Consistent sb s) (harg : argstr mem = some path)
    (ht : Turn sb s.refs s.refs (ip ::ₘ s.refs) s.fs fs (Orderly sb s.refs (s.fs.view sb) →
      OpenEffect sb s.refs (s.cwd p) path mode ip (s.fs.view sb) (fs.view sb)))
    (hu : Turn sb s.refs (ip ::ₘ s.refs) s.refs fs fs' (fs'.view sb = settled s.refs (fs.view sb) ip)) :
    After sb p (.sysOpen mem mode) s { s with fs := fs' } := by
  refine ⟨h.setFS hu.sound (ht.stays.trans hu.stays), fun ha => ?_⟩
  obtain ⟨hat, heff⟩ := ht.moves ha
  obtain ⟨hau, hview⟩ := hu.moves hat
  refine ⟨hau, fun ho => ?_⟩
  rcases heff ho with ⟨hsame, -⟩ | ⟨hcreate, dp, name, k, hc, hnew⟩
  · rw [hsame, ha.settled_eq] at hview
    rw [hview]
    exact .still
  · rw [hnew, settled_created hc.ne] at hview
    rw [hview]
    exact .make (by simp [Call.makes, hcreate, harg]) hc

theorem After.of_open (h : Consistent sb s) (harg : argstr mem = some path) (hf : f < nFile)
    (hfree : (s.file f).ref = 0) (hx : x.type ≠ .none) (hip : x.ip = ip) (href : x.ref = 1)
    (hl : fs.live ip) (hw : x.writable = true → (fs.body ip).type ≠ .dir)
    (ht : Turn sb s.refs s.refs (ip ::ₘ s.refs) s.fs fs (Orderly sb s.refs (s.fs.view sb) →
      OpenEffect sb s.refs (s.cwd p) path mode ip (s.fs.view sb) (fs.view sb)))
    (hfs : t.fs = fs) (hfile : t.file = update s.file f x) (hcwd : t.cwd = s.cwd)
    (hofile : ∀ q fd g, t.ofile q fd = some g → g < nFile) :
    After sb p (.sysOpen mem mode) s t := by
  have hrefs : t.refs = ip ::ₘ s.refs := by
    have hset := Sys.refs_setFile (s := s) hf x
    rw [File.held, if_pos (h.unused f hfree), add_zero, File.held, if_neg hx, hip, add_comm,
      Multiset.singleton_add] at hset
    rw [← hset]
    simp only [Sys.refs, Sys.setFile, hfile, hcwd]
  have hmem : ip ∈ t.refs := by
    rw [hrefs]
    exact Multiset.mem_cons_self _ _
  refine ⟨⟨?_, ?_, ?_, ?_, hofile⟩, fun ha => ?_⟩
  · rw [hrefs, hfs]
    exact ht.sound
  · intro g hg
    rw [hfile] at hg ⊢
    rcases eq_or_ne g f with rfl | hne
    · rw [update_self, href] at hg
      cases hg
    · rw [update_of_ne hne] at hg ⊢
      exact h.unused g hg
  · intro g hg htype
    rw [hfile, hfs] at *
    rcases eq_or_ne g f with rfl | hne
    · rw [update_self, hip]
      exact hl.2
    · rw [update_of_ne hne] at *
      exact ht.stays.valid _ (Sys.ip_mem hg htype) (h.cached g hg htype)
  · intro g hg htype hwg
    rw [hfile, hfs] at *
    rcases eq_or_ne g f with rfl | hne
    · rw [update_self] at hwg ⊢
      rw [hip]
      exact hw hwg
    · rw [update_of_ne hne] at *
      rw [ht.stays.type _ (Sys.ip_mem hg htype) (h.cached g hg htype)]
      exact h.writable g hg htype hwg
  · obtain ⟨hat, heff⟩ := ht.moves ha
    rw [hrefs, hfs]
    refine ⟨hat, fun ho => ?_⟩
    rcases heff ho with ⟨hsame, htype⟩ | ⟨hcreate, dp, name, k, hc, hnew⟩
    · rw [hsame]
      exact .hold htype
    · rw [hnew]
      exact .makeHold (by simp [Call.makes, hcreate, harg]) hc

end Files

variable [DecidableEq ι]

/-- The references that processes hold, the current directory of `p` apart. -/
def Sys.others (s : Sys ι) (p : ι) : Multiset ℕ :=
  (∑ q ∈ Finset.univ.erase p, {s.cwd q}) + ∑ f ∈ Finset.range nFile, (s.file f).held

theorem Sys.refs_eq : s.refs = s.cwd p ::ₘ s.others p := by
  rw [Sys.refs, Sys.others, ← Multiset.singleton_add, ← add_assoc,
    Finset.add_sum_erase _ (fun q => ({s.cwd q} : Multiset ℕ)) (Finset.mem_univ p)]

theorem Sys.others_setCwd :
    ({ s with cwd := update s.cwd p ip } : Sys ι).others p = s.others p := by
  simp only [Sys.others]
  congr 1
  refine Finset.sum_congr rfl (fun q hq => ?_)
  rw [update_of_ne (Finset.ne_of_mem_erase hq)]

theorem Sys.ip_mem_others (hf : f < nFile) (htype : (s.file f).type ≠ .none) :
    (s.file f).ip ∈ s.others p := by
  refine Multiset.mem_add.2 (.inr (Multiset.mem_sum.2 ⟨f, Finset.mem_range.2 hf, ?_⟩))
  rw [File.held, if_neg htype]
  exact Multiset.mem_singleton_self _

omit [Fintype ι] [DecidableEq ι] in
theorem filealloc_ends : Ends filealloc s (fun r t => match r with
    | none => t = s ∧ ∀ f < nFile, (s.file f).ref ≠ 0
    | some f => f < nFile ∧ (s.file f).ref = 0 ∧ t = s.setFile f { s.file f with ref := 1 }) E := by
  simp only [filealloc, ends_bind, ends_get]
  cases hfree : firstFree (fun f => (s.file f).ref ≠ 0) nFile 0 with
  | none =>
    refine ⟨rfl, fun f hf => ?_⟩
    simpa using firstFree_none hfree (Nat.zero_le f) (by omega)
  | some f =>
    obtain ⟨hused, -, hlt⟩ := firstFree_spec hfree
    exact ⟨by omega, by simpa using hused, rfl⟩

omit [Fintype ι] in
theorem fdalloc_ends : Ends (fdalloc p f) s (fun r t => match r with
    | none => t = s ∧ ∀ fd < nOfile, s.ofile p fd ≠ none
    | some fd => t = s.setOfile p fd (some f)) E := by
  simp only [fdalloc, ends_bind, ends_get]
  cases hfree : firstFree (fun fd => (s.ofile p fd).isSome) nOfile 0 with
  | none =>
    refine ⟨rfl, fun fd hfd => ?_⟩
    simpa [Option.isSome_iff_ne_none] using firstFree_none hfree (Nat.zero_le fd) (by omega)
  | some fd => rfl

omit [Fintype ι] in
theorem Sys.ofile_setOfile {q : ι} {fd fd' g : ℕ} {r : Option ℕ}
    (h : (s.setOfile p fd r).ofile q fd' = some g) : s.ofile q fd' = some g ∨ r = some g := by
  simp only [Sys.setOfile] at h
  rcases eq_or_ne q p with rfl | hq
  · rw [update_self] at h
    rcases eq_or_ne fd' fd with rfl | hfd
    · rw [update_self] at h
      exact .inr h
    · rw [update_of_ne hfd] at h
      exact .inl h
  · rw [update_of_ne hq] at h
    exact .inl h

omit [Fintype ι] [DecidableEq ι] in
theorem fileclose_unused (href : (s.file f).ref = 1) (htype : (s.file f).type = .none) :
    Ends (fileclose sb f) s (fun _ t =>
      t = s.setFile f { s.file f with ref := 0, type := .none }) E := by
  simp [fileclose, href, htype]

omit [DecidableEq ι] in
theorem Consistent.setFile (h : Consistent sb s) (hf : f < nFile) (hfree : x.ref = 0 → x.type = .none)
    (hx : x.type ≠ .none → x.type = (s.file f).type ∧ x.ip = (s.file f).ip ∧
      x.writable = (s.file f).writable)
    (hsound : Sound sb (s.setFile f x).refs fs) (hst : Stays (s.setFile f x).refs s.fs fs) :
    Consistent sb { s.setFile f x with fs := fs } := by
  -- Every structure in use was in use, for the same inode.
  have hold : ∀ g, ((s.setFile f x).file g).type ≠ .none → (s.file g).type ≠ .none ∧
      ((s.setFile f x).file g).ip = (s.file g).ip ∧
      ((s.setFile f x).file g).writable = (s.file g).writable := by
    intro g hg
    rcases eq_or_ne g f with rfl | hne
    · simp only [Sys.setFile, update_self] at hg ⊢
      obtain ⟨htype, hip, hw⟩ := hx hg
      exact ⟨htype ▸ hg, hip, hw⟩
    · simp only [Sys.setFile, update_of_ne hne] at hg ⊢
      exact ⟨hg, trivial, trivial⟩
  refine ⟨hsound, ?_, ?_, ?_, h.ofile_lt⟩
  · intro g hg
    simp only [Sys.setFile] at hg ⊢
    rcases eq_or_ne g f with rfl | hne
    · rw [update_self] at hg ⊢
      exact hfree hg
    · rw [update_of_ne hne] at hg ⊢
      exact h.unused g hg
  · intro g hg htype
    obtain ⟨hs, hip, -⟩ := hold g htype
    refine hst.valid _ (Sys.ip_mem hg htype) ?_
    rw [hip]
    exact h.cached g hg hs
  · intro g hg htype hw
    obtain ⟨hs, hip, hwr⟩ := hold g htype
    have hvalid : (s.fs.inode ((s.setFile f x).file g).ip).valid = true := by
      rw [hip]
      exact h.cached g hg hs
    refine ne_of_eq_of_ne (hst.type _ (Sys.ip_mem hg htype) hvalid) ?_
    rw [hip]
    exact h.writable g hg hs (hwr ▸ hw)

theorem After.of_chdir {c : Call} (h : Consistent sb s)
    (ht : Turn sb (s.others p) (s.cwd p ::ₘ s.others p) (ip ::ₘ s.others p) s.fs fs
      ((s.fs.view sb ip).type = .dir ∧
        fs.view sb = settled (ip ::ₘ s.others p) (s.fs.view sb) (s.cwd p))) :
    After sb p c s { s with fs := fs, cwd := update s.cwd p ip } := by
  have hrefs : ({ s with fs := fs, cwd := update s.cwd p ip } : Sys ι).refs =
      ip ::ₘ s.others p := by
    rw [Sys.refs_eq (p := p)]
    exact congrArg₂ Multiset.cons (update_self ..) Sys.others_setCwd
  have hstay := fun g hg htype => Sys.ip_mem_others (s := s) (p := p) (f := g) hg htype
  refine ⟨⟨hrefs ▸ ht.sound, h.unused, fun g hg htype => ?_, fun g hg htype hw => ?_, h.ofile_lt⟩,
    fun ha => ?_⟩
  · exact ht.stays.valid _ (hstay g hg htype) (h.cached g hg htype)
  · exact ne_of_eq_of_ne (ht.stays.type _ (hstay g hg htype) (h.cached g hg htype))
      (h.writable g hg htype hw)
  · rw [Sys.refs_eq (p := p)] at ha
    obtain ⟨hat, htype, hview⟩ := ht.moves ha
    refine ⟨hrefs ▸ hat, fun _ => ?_⟩
    have hchange : Change sb (s.cwd p) s.refs (s.fs.view sb) c _ _ := .chdir Sys.refs_eq htype
    rw [← hview] at hchange
    rw [hrefs]
    exact hchange

end Xv6.FileSystem
