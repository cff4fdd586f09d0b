import Xv6.FileTableCalls

/-!
# Runs of the file table

`open`, `fork` and `exit`, and what holds between any two calls of a run: the count of a file
structure is the number of descriptors that point to it, the flags of a pipe say which of its
ends are in use, and its page is freed when neither is.
-/

namespace Xv6.FileTable

open Function PanicPrograms ReferenceCounts TransitionRuns
open FileSystem (FileType)

variable {n : ℕ} {ι π : Type} [DecidableEq ι] [DecidableEq π] {s t : State n ι π} {f : Index} {x : Fd n}
  {pi : π} {ip : ι} {init p np : Fin n} {L : Obj ι π → ℤ} {E : Fault → Prop}

theorem iput_loose (h : Inv (Pi.single (.inode ip) 1) s) :
    Ends (iput (some ip)) s (fun _ t => Inv 0 t ∧ Frame s t) E := by
  have hpos := h.count_pos_of_loose (o := .inode ip) (by rw [Pi.single_eq_same]; exact one_pos)
  refine (iput_ends h hpos).imp ?_
  rintro _ t ⟨ht, hframe⟩
  exact ⟨ht.of_eq (sub_self _), hframe⟩

theorem sysOpen_ends (h : Inv 0 s) (hp : s.proc p = .used) (omode : ℕ) (found : Option (Found ι)) :
    Ends (sysOpen p omode found) s (fun _ t => After s t) E := by
  cases found with
  | none => exact ⟨h, rfl, rfl⟩
  | some x =>
    simp only [sysOpen, ends_bind, ends_modify]
    -- the reference that `create` or `namei` returns
    have hfound : Inv (Pi.single (.inode x.ip) 1) (s.setRef x.ip (s.iref x.ip + 1)) := by
      refine (h.setRef x.ip (s.iref x.ip + 1)).of_eq ?_
      rw [add_sub_cancel_left, zero_add]
    have hgive : ∀ {u : State n ι π}, Inv (Pi.single (.inode x.ip) 1) u → u.proc = s.proc →
        u.cwd = s.cwd → Ends (iput (some x.ip)) u (fun _ v => After s v) E := by
      intro u hu hproc hcwd
      refine (iput_loose hu).imp ?_
      rintro _ v ⟨hv, hframe⟩
      exact ⟨hv, hframe.proc.trans hproc, hframe.cwd.trans hcwd⟩
    refine ends_ite (fun _ => ?_) (fun _ => ?_)
    · rw [ends_bind]
      exact hgive hfound rfl rfl
    · refine (filealloc_ends hfound).bind ?_
      rintro (_ | f) t ht
      · cases ht
        dsimp only
        rw [ends_bind]
        exact hgive hfound rfl rfl
      · obtain ⟨ht, hframe, -, -, href, htype, -⟩ := ht
        refine (fdalloc_ends ht (by rw [hframe.proc]; exact hp) f).bind ?_
        rintro (_ | fd) u hu
        · cases hu
          simp only [ends_bind]
          have hL : Owed (Pi.single (.inode x.ip) 1 + Pi.single (.file f) 1 : Obj ι π → ℤ) := by
            have h0 := (owed_zero (ι := ι) (π := π)).addInode x.ip
            rw [zero_add] at h0
            exact h0.addFile f 1
          refine (fileclose_loose ht hL (by simp)).imp ?_
          rintro _ v ⟨hv, hframe'⟩
          rw [add_sub_cancel_right] at hv
          exact hgive hv (hframe'.proc.trans hframe.proc) (hframe'.cwd.trans hframe.cwd)
        · obtain ⟨hu, -, rfl⟩ := hu
          simp only [ends_bind, ends_modify, ends_pure]
          refine ⟨(hu.fill (y := (t.file f).fill x omode) htype rfl ?_
            (File.filled_fill _ x omode)).of_eq ?_, hframe.proc, hframe.cwd⟩
          · change (t.file f).ref ≠ 0
            rw [href]
            exact one_ne_zero
          · rw [File.target_fill, one_some]
            abel

/-- Live processes have a directory. -/
def Housed (s : State n ι π) : Prop := ∀ p, s.proc p = .used → s.cwd p ≠ none

structure Consistent (s : State n ι π) : Prop where
  inv : Inv 0 s
  housed : Housed s

theorem After.consistent (h : After s t) (hs : Housed s) : Consistent t where
  inv := h.inv
  housed := by
    intro p hp
    rw [h.cwd]
    rw [h.proc] at hp
    exact hs p hp

theorem Consistent.cwd_pos (h : Consistent s) (hcwd : s.cwd p = some ip) : 0 < s.iref ip :=
  h.inv.count_pos (r := .inr (.inr p)) (o := .inode ip) (by simp [State.ptr, hcwd]) le_rfl

/-- The loop of `fork`: the descriptors in `rest` are still to be copied. -/
structure Forking (np : Fin n) (rest : List (Fin nOfile)) (s t : State n ι π) : Prop where
  after : After s t
  nodup : rest.Nodup
  free : ∀ fd ∈ rest, t.ofile (np, fd) = none

theorem forkFile_ends {fd : Fin nOfile} {rest : List (Fin nOfile)} (h : Forking np (fd :: rest) s t)
    (hnp : s.proc np = .used) :
    Ends (forkFile p np fd) t (fun _ u => Forking np rest s u) E := by
  obtain ⟨⟨hinv, hproc, hcwd⟩, hnodup, hfree⟩ := h
  obtain ⟨hnotin, hnodup⟩ := List.nodup_cons.1 hnodup
  have hrest : ∀ fd' ∈ rest, t.ofile (np, fd') = none := fun fd' hfd' =>
    hfree fd' (List.mem_cons_of_mem _ hfd')
  simp only [forkFile, ends_bind, ends_get]
  split
  · exact ⟨⟨hinv, hproc, hcwd⟩, hnodup, hrest⟩
  · rename_i f hf
    refine (filedup_ends hinv (hinv.ref_pos hf le_rfl)).bind ?_
    rintro _ u ⟨hu, hframe⟩
    rw [ends_modify]
    have hslot : u.ofile (np, fd) = none := by
      rw [hframe.ofile]
      exact hfree fd List.mem_cons_self
    have hgive := hu.give hslot (by rw [hframe.proc, hproc, hnp]) f
    refine ⟨⟨hgive.of_eq (by abel), hframe.proc.trans hproc, hframe.cwd.trans hcwd⟩, hnodup, ?_⟩
    intro fd' hfd'
    have hfd : (np, fd') ≠ (np, fd) := by
      rintro ⟨⟩
      exact hnotin hfd'
    simp only [State.setOfile, update_of_ne hfd, hframe.ofile]
    exact hrest fd' hfd'

theorem fork_ends (h : Consistent s) (hp : s.proc p = .used) (memory : Bool × Bool) :
    Ends (fork p memory) s (fun _ t => Consistent t) E := by
  simp only [fork, ends_bind, ends_get]
  split
  · exact h
  · rename_i np hfind
    have hunused : s.proc np = .unused := by
      have hfound := List.find?_some hfind
      exact of_decide_eq_true hfound
    obtain ⟨hcwd, hofile⟩ := h.inv.gone np (by rw [hunused]; rintro ⟨⟩)
    simp only [ends_bind, ends_modify]
    have hused : Inv 0 (s.setProc np .used) := h.inv.setProc (fun hz => absurd rfl hz)
    refine ends_ite (fun _ => ?_) (fun _ => ?_)
    · -- `freeproc` leaves no trace
      simp only [ends_bind, ends_modify, ends_pure]
      have hback : (s.setProc np .used).setProc np .unused = s := by
        simp only [State.setProc, update_idem, ← hunused, update_eq_self]
      rw [hback]
      exact h
    · rw [ends_bind]
      obtain ⟨ip, hip⟩ := Option.ne_none_iff_exists'.1 (h.housed p hp)
      have hnp : (s.setProc np .used).proc np = .used := update_self ..
      refine (ends_forM (fun rest t => Forking np rest (s.setProc np .used) t) _
        ⟨⟨hused, rfl, rfl⟩, List.nodup_finRange _, fun fd _ => hofile fd⟩
        (fun fd rest t ht => forkFile_ends ht hnp)).imp ?_
      rintro _ t ⟨⟨ht, hproc, hcwd'⟩, -, -⟩
      have hcwdp : t.cwd p = some ip := by rw [hcwd']; exact hip
      have hpos : 0 < t.iref ip :=
        ht.count_pos (r := .inr (.inr p)) (o := .inode ip) (by simp [State.ptr, hcwdp]) le_rfl
      have hcwdnp : t.cwd np = none := by rw [hcwd']; exact hcwd
      simp only [ends_bind, ends_get, hcwdp, idup]
      refine ends_ite (fun hlt => absurd hlt (by omega)) (fun _ => ?_)
      simp only [ends_modify, ends_pure]
      have hdup := ht.setRef ip (t.iref ip + 1)
      have hset := hdup.setCwd (p := np) (o := some ip) (fun _ => by
        change t.proc np = .used
        rw [hproc, hnp])
      refine ⟨?_, ?_⟩
      · have hsame : (t.setRef ip (t.iref ip + 1)).cwd p = some ip := hcwdp
        rw [hsame]
        refine hset.of_eq ?_
        have hnone : (t.setRef ip (t.iref ip + 1)).cwd np = none := hcwdnp
        rw [hnone, add_sub_cancel_left]
        simp
      · intro q hq
        rcases eq_or_ne q np with rfl | hqne
        · simp only [State.setCwd, update_self]
          change t.cwd p ≠ none
          rw [hcwdp]
          rintro ⟨⟩
        · simp only [State.setCwd, update_of_ne hqne]
          change t.cwd q ≠ none
          have hq' : t.proc q = .used := hq
          rw [hproc] at hq'
          simp only [State.setProc, update_of_ne hqne] at hq'
          rw [hcwd']
          exact h.housed q hq'

/-- The loop of `exit`: the descriptors in `rest` are still open. -/
structure Exiting (p : Fin n) (rest : List (Fin nOfile)) (s t : State n ι π) : Prop where
  after : After s t
  closed : ∀ fd, fd ∉ rest → t.ofile (p, fd) = none

theorem exitFile_ends {fd : Fin nOfile} {rest : List (Fin nOfile)} (h : Exiting p (fd :: rest) s t) :
    Ends (exitFile p fd) t (fun _ u => Exiting p rest s u) E := by
  obtain ⟨⟨hinv, hproc, hcwd⟩, hclosed⟩ := h
  simp only [exitFile, ends_bind, ends_get]
  split
  · rename_i hnone
    refine ⟨⟨hinv, hproc, hcwd⟩, fun fd' hfd' => ?_⟩
    rcases eq_or_ne fd' fd with rfl | hne
    · exact hnone
    · exact hclosed fd' (by simp [hne, hfd'])
  · rename_i f hf
    rw [ends_bind]
    -- the count goes before the descriptor
    refine (fileclose_ends hinv owed_zero (hinv.ref_pos hf le_rfl)).imp ?_
    rintro _ u ⟨hu, hframe⟩
    rw [ends_modify]
    have hback := hu.takeBack (x := (p, fd)) (f := f) (by rw [hframe.ofile, hf])
    refine ⟨⟨hback.of_eq (by abel), hframe.proc.trans hproc, hframe.cwd.trans hcwd⟩, fun fd' hfd' => ?_⟩
    rcases eq_or_ne fd' fd with rfl | hne
    · exact update_self ..
    · have hslot : (p, fd') ≠ (p, fd) := by
        rintro ⟨⟩
        exact hne rfl
      simp only [State.setOfile, update_of_ne hslot, hframe.ofile]
      exact hclosed fd' (by simp [hne, hfd'])

theorem exit_ends (h : Consistent s) (hp : s.proc p = .used) :
    Ends (exit init p) s (fun _ t => Consistent t) (fun e => e = .initExiting ∧ p = init) := by
  refine ends_ite (fun hinit => ⟨rfl, hinit⟩) (fun _ => ?_)
  obtain ⟨ip, hip⟩ := Option.ne_none_iff_exists'.1 (h.housed p hp)
  rw [ends_bind]
  refine (ends_forM (fun rest t => Exiting p rest s t) _ ⟨⟨h.inv, rfl, rfl⟩, ?_⟩
    (fun fd rest t ht => exitFile_ends ht)).imp ?_
  · intro fd hfd
    exact absurd (List.mem_finRange fd) hfd
  · rintro _ t ⟨hafter, hclosed⟩
    have hcwd : t.cwd p = some ip := by rw [hafter.cwd, hip]
    simp only [ends_bind, ends_get, hcwd]
    refine (iput_ends hafter.inv ((hafter.consistent h.housed).cwd_pos hcwd)).imp ?_
    rintro _ u ⟨hu, hframe⟩
    simp only [ends_modify]
    have hcwd' : u.cwd p = some ip := by rw [hframe.cwd, hcwd]
    have hset := hu.setCwd (p := p) (o := none) (fun hne => absurd rfl hne)
    refine ⟨(hset.setProc ?_).of_eq ?_, ?_⟩
    · intro _
      refine ⟨update_self .., fun fd => ?_⟩
      change u.ofile (p, fd) = none
      rw [hframe.ofile]
      exact hclosed fd List.not_mem_nil
    · rw [hcwd']
      simp
    · intro q hq
      rcases eq_or_ne q p with rfl | hne
      · simp only [State.setProc, update_self] at hq
        cases hq
      · simp only [State.setProc, update_of_ne hne] at hq
        simp only [State.setProc, State.setCwd, update_of_ne hne]
        rw [hframe.cwd, hafter.cwd]
        refine h.housed q ?_
        rw [← hafter.proc, ← hframe.proc]
        exact hq

theorem perform_ends (h : Consistent s) {c : Call n ι π} (hc : enabled s p c) :
    Ends (perform init p c) s (fun _ t => Consistent t)
      (fun e => e = .initExiting ∧ p = init ∧ c = .exit) := by
  have hkeep : ∀ {α : Type} {m : M n ι π α}, Ends m s (fun _ t => After s t)
      (fun e => e = .initExiting ∧ p = init ∧ c = .exit) →
      Ends (ignore m) s (fun _ t => Consistent t) (fun e => e = .initExiting ∧ p = init ∧ c = .exit) := by
    intro α m hm
    rw [ignore, ends_map]
    exact hm.mono (fun _ t ht => ht.consistent h.housed) (fun _ he => he)
  cases c with
  | «open» omode found => exact hkeep (sysOpen_ends h.inv hc omode found)
  | dup fd => exact hkeep (sysDup_ends h.inv hc fd)
  | pipe page copyout =>
    cases page with
    | none =>
      refine hkeep (sysPipe_ends h.inv hc ?_ copyout)
      rintro _ ⟨⟩
    | some pi =>
      refine hkeep (sysPipe_ends h.inv hc.1 ?_ copyout)
      rintro _ ⟨⟩
      exact hc.2
  | close fd => exact hkeep (sysClose_ends h.inv fd)
  | fork memory =>
    rw [perform, ignore, ends_map]
    exact fork_ends h hc memory
  | exit => exact (exit_ends h hc).mono (fun _ _ ht => ht) (fun _ he => ⟨he.1, he.2, rfl⟩)
  | wait np =>
    obtain ⟨_, hz⟩ := hc
    rw [perform, ends_modify]
    refine ⟨h.inv.setProc (fun _ => h.inv.gone np (by rw [hz]; nofun)), fun q hq => ?_⟩
    rcases eq_or_ne q np with rfl | hne
    · simp only [State.setProc, update_self] at hq
      cases hq
    · simp only [State.setProc, update_of_ne hne] at hq
      exact h.housed q hq

theorem start_consistent (init : Fin n) (root : ι) : Consistent (start init root : State n ι π) := by
  -- no process, no file and no reference; then the first process with its directory
  let empty : State n ι π :=
    { file := (start init root).file, ofile := fun _ => none, cwd := fun _ => none, proc := fun _ => .unused,
      pipe := fun _ => none, iref := fun _ => 0 }
  have hempty : Inv 0 empty := by
    refine ⟨?_, fun _ _ => rfl, fun _ => ⟨nofun, nofun⟩, nofun, fun _ _ => ⟨rfl, fun _ => rfl⟩⟩
    funext o
    have hcount : empty.count o = 0 := by cases o <;> rfl
    have hrefs : refs empty.ptr o = 0 := by
      refine refs_eq_zero ?_
      rintro (x | f | p) <;> nofun
    rw [State.loose, hcount, hrefs]
    rfl
  have hproc : Inv 0 (empty.setProc init .used) := hempty.setProc (fun hz => absurd rfl hz)
  have href : Inv (Pi.single (.inode root) 1) ((empty.setProc init .used).setRef root 1) :=
    (hproc.setRef root 1).of_eq (zero_add _)
  have hcwd := href.setCwd (p := init) (o := some root) (fun _ => update_self ..)
  refine ⟨hcwd.of_eq ?_, ?_⟩
  · change Pi.single (Obj.inode root) 1 + one none - one (some (Obj.inode root)) = 0
    simp
  · intro p hp
    rcases eq_or_ne p init with rfl | hne
    · simp [start]
    · simp [start, hne] at hp

theorem step_consistent (h : Consistent s) {a : Fin n × Call n ι π} (ht : step init s a = some t) :
    Consistent t := by
  rw [step] at ht
  split at ht
  · rename_i hc
    split at ht
    · rename_i u hu
      cases ht
      exact (perform_ends h hc).of_ok hu
    · cases ht
  · cases ht

section Reading

omit [DecidableEq ι] [DecidableEq π]

theorem File.target_eq_end {x : File ι π} {writable : Bool} :
    x.target = some (endOf writable pi) ↔ x.type = .pipe ∧ x.pipe = some pi ∧ x.writable = writable := by
  cases htype : x.type <;> cases hw : x.writable <;> cases writable <;>
    simp [File.target, htype, hw, endOf]

end Reading

theorem Consistent.ref_eq (h : Consistent s) (f : Index) : (s.file f).ref = refs s.ofile f := by
  have hcount := h.inv.count_eq (.file f)
  have hfile : refs s.ptr (.file f) = refs s.ofile f := by
    rw [refs_sum, refs_sum]
    have hofile : refs (fun x => s.ptr (.inl x)) (.file f) = refs s.ofile f :=
      refs_map (g := Obj.file) (fun _ _ heq => Obj.file.inj heq) f
    have htarget : refs (fun k => s.ptr (.inr (.inl k))) (.file f) = 0 := by
      refine refs_eq_zero (fun k hk => ?_)
      change (s.file k).target = _ at hk
      rw [File.target] at hk
      split at hk <;> simp [endOf] at hk
      obtain ⟨_, _, hend⟩ := hk
      split at hend <;> cases hend
    have hcwd : refs (fun p => s.ptr (.inr (.inr p))) (.file f) = 0 := by
      refine refs_eq_zero (fun p hp => ?_)
      simp [State.ptr] at hp
    rw [hofile, htarget, hcwd, add_zero, add_zero]
  rw [hfile, Pi.zero_apply, add_zero] at hcount
  exact hcount

/-- An end of a pipe is counted if a structure in use is that end. -/
theorem Consistent.end_pos_iff (h : Consistent s) (pi : π) (writable : Bool) :
    0 < s.count (endOf writable pi) ↔ ∃ f, 0 < (s.file f).ref ∧ (s.file f).type = .pipe ∧
      (s.file f).pipe = some pi ∧ (s.file f).writable = writable := by
  have hcount := h.inv.count_eq (endOf writable pi)
  rw [Pi.zero_apply, add_zero] at hcount
  rw [hcount, Int.natCast_pos, refs_pos_iff]
  constructor
  · rintro ⟨x | f | p, hr⟩
    · cases writable <;> simp [State.ptr, endOf] at hr
    · obtain ⟨htype, hpipe, hw⟩ := File.target_eq_end.1 hr
      refine ⟨f, ?_, htype, hpipe, hw⟩
      have hne : (s.file f).ref ≠ 0 := by
        intro h0
        rw [h.inv.unused f h0] at htype
        cases htype
      have hnonneg := h.ref_eq f
      omega
    · cases writable <;> simp [State.ptr, endOf] at hr
  · rintro ⟨f, -, hend⟩
    exact ⟨.inr (.inl f), File.target_eq_end.2 hend⟩

/-- The structure is an end of the pipe, in use. -/
def File.EndOf (x : File ι π) (pi : π) (writable : Bool) : Prop :=
  0 < x.ref ∧ x.type = .pipe ∧ x.pipe = some pi ∧ x.writable = writable

/-- The file table between calls. -/
structure Sound (s : State n ι π) : Prop where
  refs : ∀ f, (s.file f).ref = refs s.ofile f
  unused : ∀ f, (s.file f).ref = 0 → (s.file f).type = .none
  flags : ∀ pi x, s.pipe pi = some x → x.readopen ≤ 1 ∧ x.writeopen ≤ 1
  readopen : ∀ pi x, s.pipe pi = some x → (x.readopen = 1 ↔ ∃ f, (s.file f).EndOf pi false)
  writeopen : ∀ pi x, s.pipe pi = some x → (x.writeopen = 1 ↔ ∃ f, (s.file f).EndOf pi true)
  /-- the page is in use as long as one of the ends is -/
  page : ∀ pi, s.pipe pi ≠ none ↔ ∃ f writable, (s.file f).EndOf pi writable

theorem Consistent.sound (h : Consistent s) : Sound s where
  refs := h.ref_eq
  unused := h.inv.unused
  flags := fun pi x hx => ⟨(h.inv.pages pi x hx).1, (h.inv.pages pi x hx).2.1⟩
  readopen := by
    intro pi x hx
    have hle := (h.inv.pages pi x hx).1
    have hcount : s.count (endOf false pi) = x.readopen := by simp [endOf, State.count, hx]
    have hpos := h.end_pos_iff pi false
    rw [hcount] at hpos
    exact Iff.trans (by omega) hpos
  writeopen := by
    intro pi x hx
    have hle := (h.inv.pages pi x hx).2.1
    have hcount : s.count (endOf true pi) = x.writeopen := by simp [endOf, State.count, hx]
    have hpos := h.end_pos_iff pi true
    rw [hcount] at hpos
    exact Iff.trans (by omega) hpos
  page := by
    intro pi
    constructor
    · intro hne
      obtain ⟨x, hx⟩ := Option.ne_none_iff_exists'.1 hne
      have hsum := (h.inv.pages pi x hx).2.2
      rcases Nat.eq_zero_or_pos x.readopen with hr | hr
      · obtain ⟨f, hf⟩ := (h.end_pos_iff pi true).1 (by
          simp [endOf, State.count, hx]
          omega)
        exact ⟨f, true, hf⟩
      · obtain ⟨f, hf⟩ := (h.end_pos_iff pi false).1 (by
          simpa [endOf, State.count, hx] using hr)
        exact ⟨f, false, hf⟩
    · rintro ⟨f, writable, hf⟩ hnone
      have hpos := (h.end_pos_iff pi writable).2 ⟨f, hf⟩
      cases writable <;> simp [endOf, State.count, hnone] at hpos

theorem fileTable_run {root : ι} {as : List (Fin n × Call n ι π)}
    (run : Run (step init) unguarded (start init root) as s) :
    Sound s ∧ ∀ p c e, enabled s p c → perform init p c s = .error e →
      e = .initExiting ∧ p = init ∧ c = .exit := by
  have h : Consistent s :=
    run.invariant (start_consistent init root) (fun _ _ _ hv _ ht => step_consistent hv ht)
  exact ⟨h.sound, fun p c e hc he => (perform_ends h hc).of_error he⟩

def firstFile : Index := ⟨0, by decide⟩

/-- A `pipe` that cannot tell its descriptors, one that can, and a child that exits with both. -/
def piped : List (Fin 2 × Call 2 Bool Bool) :=
  [(0, .pipe (some false) (true, false)), (0, .open 2 (some ⟨true, .device, 1⟩)), (0, .dup 0),
    (0, .pipe (some false) (true, true)), (0, .close 2), (0, .fork (true, true)), (0, .close 3), (1, .exit)]

set_option maxRecDepth 100000 in
theorem fileTable_run_piped : ∃ s : State 2 Bool Bool,
    Run (step 0) unguarded (start 0 false) piped s ∧ s.pipe false = none ∧ (s.file firstFile).ref = 2 ∧ Sound s ∧
      ∀ p c e, enabled s p c → perform 0 p c s = .error e → e = .initExiting ∧ p = 0 ∧ c = .exit := by
  obtain ⟨s, run, hpipe, href⟩ : ∃ s : State 2 Bool Bool, Run (step 0) unguarded (start 0 false) piped s ∧
      s.pipe false = none ∧ (s.file firstFile).ref = 2 := exists_run (by decide +kernel)
  exact ⟨s, run, hpipe, href, fileTable_run run⟩

end Xv6.FileTable
