import Xv6.FrameOwnership

/-!
# Address spaces over whole runs

`fork`, `exec` and the other calls keep the page table of every process in shape and lose no
frame, whatever `kalloc` answers.
-/

namespace Xv6.VirtualMemory

open ByteBlocks Function PanicPrograms RadixTables TransitionRuns

variable {n : ℕ} {F : Type} [DecidableEq F] {s t : State n F} {p : Fin n} {m : Multiset F}
  {E : Panic → Prop}

-- a sum over all page numbers is not to be unfolded
attribute [local irreducible] own

omit [DecidableEq F] in
theorem Sound.setMem {half : Option (Fin n)} {m' : Multiset F} {mem : Mem F} (h : Sound m half s)
    (hmem : m' + (s.mem.freelist : Multiset F) = m + (mem.freelist : Multiset F)) :
    Sound m' half { s with mem := mem } where
  shaped := h.shaped
  free := h.free
  live := h.live
  frames := by
    have hswap : ∀ a b x y : Multiset F, a + x + y + b = b + x + y + a := by
      intro a b x y
      rw [add_assoc a, add_assoc b, add_right_comm, add_comm a b, add_right_comm]
    refine add_right_cancel (b := (s.mem.freelist : Multiset F)) ?_
    rw [hmem, ← h.frames]
    exact hswap _ _ _ _

omit [DecidableEq F] in
theorem Shape.copy {old new new' : PageTable F} {tfo tf : F} {k : ℕ} {guard guard' : Option ℕ}
    (h : Shape new tf 0 guard') (hold : Shape old tfo k guard) (hg : Grown (PermOf old) new 0 new' k)
    (hle : k ≤ trapframePage) : Shape new' tf k guard := by
  refine h.grow hg (fun _ _ ⟨_, _, hr⟩ => hr) hle (fun v hv => absurd hv (Nat.not_lt_zero v)) ?_
  rintro v perm - hv ⟨f, hf, -⟩
  exact hold.open_ v hv _ hf

section Calls

variable (hm : m.card ≤ maxFrames)

include hm

theorem fork_ends (h : Sound m none s) (hlive : (s.proc p).state ≠ .unused) :
    Ends (fork p) s (fun _ t => Sound m none t) E := by
  rw [fork]
  refine (allocproc_ends hm h).bind ?_
  rintro (_ | np) t ht
  · exact ht
  have hne : p ≠ np := by
    rintro rfl
    exact hlive ht.unused
  have hparent := ht.others p hne
  obtain ⟨old, hold⟩ := ht.sound.live p nofun (by rw [hparent]; exact hlive)
  obtain ⟨tfo, -, hshapeo, -⟩ := ht.sound.table hm hold
  obtain ⟨new, tf, hnew, htf, hshape, hshape0⟩ := ht.table hm
  simp only [ends_bind, ends_get, hold, hnew, onMem, ends_zoom, ends_modify, State.setProc]
  refine (uvmcopy_ends hshapeo.users hshape0.users (ht.sound.fits hm hnew)).imp ?_
  rintro ⟨new', ok⟩ u hu
  refine ends_ite (fun hfail => ?_) (fun hok => ?_)
  · -- the copy is given back with the new process
    have hback : Shape new' tf (pages (t.proc np).sz) (t.proc np).guard := hshape.congr (hu.undone hfail)
    have hsound := ht.sound.setTable (x := { t.proc np with pagetable := some new' }) hnew htf rfl htf rfl
      hback hu.own
    simp only [ends_bind]
    exact (freeproc_ends hm hsound.weaken).mono (fun _ _ hv => hv.1) (fun _ he => he)
  · obtain ⟨hg, hle⟩ := hu.done (by simpa using hok)
    have hcopy := hshape0.copy hshapeo hg hle
    simp only [ends_bind, ends_modify, ends_pure, update_self, update_idem,
      update_of_ne hne]
    exact ht.sound.setTable hnew htf rfl htf rfl hcopy hu.own

theorem exec_ends (h : Sound m none s) (hlive : (s.proc p).state ≠ .unused) (file : Option Image)
    (args : List (List Byte)) : Ends (exec p file args) s (fun _ t => Sound m none t) E := by
  cases file with
  | none => exact h
  | some img =>
    obtain ⟨old, hold⟩ := h.live p nofun hlive
    obtain ⟨tf, htf, hshape, hsz⟩ := h.table hm hold
    simp only [exec, ends_bind, ends_get, hold, htf, onMem, ends_zoom]
    refine (execImage_ends (h.freelist_le hm)).imp ?_
    rintro (_ | ⟨pt, sz⟩) u hu
    · exact h.setMem (congrArg (m + ·) (show (u.freelist : Multiset F) = _ from hu).symm)
    · obtain ⟨hnew, hown⟩ := hu
      simp only [ends_bind, ends_modify, ends_zoom, State.setProc]
      refine (procFreepagetable_ends hshape hsz u).imp ?_
      intro _ v hv
      refine h.setTable hold htf rfl htf rfl hnew ?_
      rw [hv, add_left_comm, hown]

theorem sysExec_ends (h : Sound m none s) (hlive : (s.proc p).state ≠ .unused) (file : Option Image)
    (argv : List Arg) : Ends (sysExec p file argv) s (fun _ t => Sound m none t) E := by
  simp only [sysExec, ends_bind, onMem, ends_zoom]
  refine (fetchArgs_ends argv [] [] s.mem).imp ?_
  rintro ⟨held, args⟩ u hu
  -- the pages of the arguments belong to nobody during `exec`
  obtain ⟨m', hm', hsound⟩ : ∃ m' : Multiset F, (held : Multiset F) + m' = m ∧
      Sound m' none { s with mem := u } := by
    refine ⟨State.frames { s with mem := u }, ?_, h.shaped, h.free, h.live, rfl⟩
    have hlist : (held : Multiset F) + (u.freelist : Multiset F) = (s.mem.freelist : Multiset F) :=
      hu.trans (zero_add _)
    rw [← h.frames, State.frames, State.frames, ← hlist, ← add_assoc, ← add_assoc]
  have hcard : m'.card ≤ maxFrames := by
    rw [← hm', Multiset.card_add] at hm
    omega
  have hgive : ∀ t, Sound m' none t → Ends (held.forM (fun f => zoom State.mem
      (fun (s : State n F) mem => { s with mem := mem }) (kfree (.frame f)))) t (fun _ t => Sound m none t) E := by
    intro t ht
    refine (ends_forM (fun rest t => ∃ m', (rest : Multiset F) + m' = m ∧ Sound m' none t) held
      ⟨m', hm', ht⟩ ?_).imp ?_
    · rintro f rest t ⟨m'', hm'', ht⟩
      rw [ends_zoom]
      refine (kfree_ends t.mem f).imp ?_
      intro _ v hv
      refine ⟨{f} + m'', ?_, ht.setMem ?_⟩
      · rw [← hm'', coe_cons_eq, add_assoc, add_left_comm]
      · rw [show v.freelist = f :: t.mem.freelist from hv, coe_cons_eq, add_left_comm, add_assoc]
    · rintro _ t ⟨m'', hm'', ht⟩
      rw [Multiset.coe_nil, zero_add] at hm''
      exact hm'' ▸ ht
  cases args with
  | none => exact hgive _ hsound
  | some args =>
    simp only [ends_bind]
    exact (exec_ends hcard hsound hlive file args).mono (fun _ t ht => hgive t ht) (fun _ he => he)

theorem userinit_ends (h : Sound m none s) :
    Ends userinit s (fun _ t => Sound m none t) (fun e => e = .userinit) := by
  rw [userinit]
  refine (allocproc_ends hm h).bind ?_
  rintro (_ | p) t ht
  · rfl
  obtain ⟨pt, tf, hpt, htf, hshape, hshape0⟩ := ht.table hm
  have hcode : ¬ pgSize ≤ initcode.length := by decide
  simp only [ends_bind, ends_get, hpt, onMem, ends_zoom]
  rw [uvmfirst, if_neg hcode, ends_bind]
  refine (kalloc_ends t.mem).imp ?_
  rintro (_ | f) u hu
  · rfl
  simp only [ends_bind, ends_modify]
  have hmap := mapNew_ends (Q := fun _ perm => perm = ⟨true, true, true, true⟩) (E := fun e => e = .userinit)
    (.refl _ pt 0) hshape0.users rfl (show 0 < trapframePage by decide) (t := u.setContent f (fill 0)) hu
  rw [Nat.zero_mul] at hmap
  refine hmap.imp ?_
  rintro ⟨pt', ok⟩ v ⟨hdone, -⟩
  refine ends_ite (fun _ => rfl) (fun hok => ?_)
  obtain ⟨hg, hown⟩ := hdone (by simpa using hok)
  have hone : pages pgSize = 1 := by decide
  have hfirst : Shape pt' tf (pages pgSize) (t.proc p).guard := by
    rw [hone]
    refine hshape0.grow hg ?_ (by decide) (fun v hv => absurd hv (Nat.not_lt_zero v)) ?_
    · rintro _ _ rfl
      rfl
    · rintro _ _ - - rfl
      exact Or.inl rfl
  have hsound := ht.sound.setTable (x := { t.proc p with pagetable := some pt', sz := pgSize }) hpt htf rfl htf
    rfl hfirst hown
  exact ⟨hsound.shaped, hsound.free, hsound.live, hsound.frames⟩

/-- Only the exit of the first process stops the kernel. -/
theorem perform_ends (h : Sound m none s) {c : Call n F} (hen : enabled s p c) :
    Ends (perform p c) s (fun _ t => Sound m none t)
      (fun e => e = .initExiting ∧ s.initproc = some p) := by
  cases c with
  | exec file argv => exact sysExec_ends hm h (by rw [show _ = _ from hen]; rintro ⟨⟩) file argv
  | fork =>
    rw [perform, ends_map]
    exact fork_ends hm h (by rw [show _ = _ from hen]; rintro ⟨⟩)
  | sbrk k =>
    rw [perform, ends_map]
    exact growproc_ends hm h (by rw [show _ = _ from hen]; rintro ⟨⟩) k
  | exit =>
    have hused : (s.proc p).state = .used := hen
    obtain ⟨pt, hpt⟩ := h.live p (by rintro ⟨⟩) (by rw [hused]; rintro ⟨⟩)
    obtain ⟨tf, htf, hshape, -⟩ := h.table hm hpt
    simp only [perform, ends_bind, ends_get]
    refine ends_ite (fun hinit => ⟨rfl, hinit⟩) (fun _ => ?_)
    refine h.update (Or.inl rfl) ?_ (by rintro ⟨⟩) (fun _ _ => ⟨pt, hpt⟩) rfl
    exact h.shaped p
  | wait np => exact (freeproc_ends hm h.weaken).mono (fun _ _ ht => ht.1) (fun _ he => he)
  | pipe =>
    simp only [perform, ends_bind, onMem, ends_zoom]
    refine (kalloc_ends s.mem).imp ?_
    rintro (_ | f) u hu
    · exact h.setMem (by rw [show u.freelist = s.mem.freelist from hu])
    · refine ⟨h.shaped, h.free, h.live, ?_⟩
      rw [← h.frames, State.frames, State.frames, show s.mem.freelist = f :: u.freelist from hu, coe_cons_eq,
        coe_cons_eq, ← add_assoc, add_right_comm _ _ ({f} : Multiset F), add_comm {f} (u.freelist : Multiset F)]
  | close f =>
    have hmem : f ∈ s.pipes := hen.2
    simp only [perform, ends_bind, ends_modify, onMem, ends_zoom]
    refine (kfree_ends s.mem f).imp ?_
    intro _ u hu
    have herase : (s.pipes : Multiset F) = {f} + (s.pipes.erase f : Multiset F) :=
      Multiset.coe_eq_coe.2 (List.perm_cons_erase hmem)
    refine ⟨h.shaped, h.free, h.live, ?_⟩
    rw [← h.frames, State.frames, State.frames, show u.freelist = f :: s.mem.freelist from hu, herase,
      coe_cons_eq, ← add_assoc, add_right_comm _ _ ({f} : Multiset F), add_comm {f} (s.mem.freelist : Multiset F)]

theorem step_sound {a : Action n F} (h : Sound m none s) (hstep : step s a = some t) : Sound m none t := by
  cases a with
  | userinit =>
    rw [step] at hstep
    split at hstep
    · cases hrun : userinit s with
      | ok r =>
        rw [hrun] at hstep
        cases hstep
        exact (userinit_ends hm h).of_ok hrun
      | error e =>
        rw [hrun] at hstep
        cases hstep
    · cases hstep
  | call p luck c =>
    rw [step] at hstep
    split at hstep
    · rename_i hen
      have hluck : Sound m none (s.setLuck luck) := h.setMem rfl
      cases hrun : perform p c (s.setLuck luck) with
      | ok r =>
        rw [hrun] at hstep
        cases hstep
        exact (perform_ends hm hluck hen).of_ok hrun
      | error e =>
        rw [hrun] at hstep
        cases hstep
    · cases hstep

end Calls

omit [DecidableEq F] in
theorem start_sound (freelist : List F) (content : F → Block) :
    Sound (freelist : Multiset F) none (start (n := n) freelist content) := by
  refine ⟨fun _ => nofun, fun _ _ => rfl, fun _ _ hne => absurd rfl hne, ?_⟩
  have hown : ∀ p, ((start (n := n) freelist content).proc p).own = 0 := fun _ => rfl
  simp only [State.frames, hown, Finset.sum_const_zero]
  exact (add_zero _).trans (add_zero _)

theorem run_sound {freelist : List F} {content : F → Block} {as : List (Action n F)}
    (hm : freelist.length ≤ maxFrames) (h : Run step unguarded (start freelist content) as s) :
    Sound (freelist : Multiset F) none s :=
  h.invariant (start_sound freelist content) (fun _ _ _ hv _ hstep => step_sound hm hv hstep)

/-- The valid leaves are the pages below the size, `TRAPFRAME` and `TRAMPOLINE`. -/
structure AddressSpace (x : Proc F) (pt : PageTable F) : Prop where
  leaves : ∀ v < numPages, (leafAt pt v).isSome = true ↔
    v * pgSize < pgRoundUp x.sz ∨ v = trapframePage ∨ v = trampolinePage
  user : ∀ v leaf, v * pgSize < x.sz → x.guard ≠ some v → leafAt pt v = some leaf → leaf.perm.u = true
  supervisor : ∀ v leaf, v = trapframePage ∨ v = trampolinePage → leafAt pt v = some leaf →
    leaf.perm.u = false

omit [DecidableEq F] in
theorem Shape.addressSpace {x : Proc F} {pt : PageTable F} {tf : F} (h : Shape pt tf (pages x.sz) x.guard)
    (hsz : x.sz + pgSize ≤ 2 ^ 64) : AddressSpace x pt where
  leaves := by
    intro v hv
    have hlt := trampolinePage_eq
    have hmul : v * pgSize < pages x.sz * pgSize ↔ v < pages x.sz := Nat.mul_lt_mul_right (by decide)
    rw [pgRoundUp_eq hsz, hmul]
    refine ⟨fun hsome => ?_, fun hin => ?_⟩
    · by_contra hout
      have hnone : leafAt pt v = none := by
        rcases lt_or_ge v trapframePage with hlow | hhigh
        · exact h.users.high v (by omega) hlow
        · exact h.rest v hv (by omega)
      rw [hnone] at hsome
      cases hsome
    · rcases hin with hin | rfl | rfl
      · obtain ⟨f, perm, hf, -⟩ := h.users.low v hin
        rw [hf]
        rfl
      · rw [h.trapframe]
        rfl
      · rw [h.trampoline]
        rfl
  user := by
    intro v leaf hv hguard hleaf
    have hpage : v < pages x.sz := by
      have hle := le_pages_mul x.sz
      exact Nat.lt_of_mul_lt_mul_right (hv.trans_le hle)
    exact (h.open_ v hpage leaf hleaf).resolve_right hguard
  supervisor := by
    rintro v leaf (rfl | rfl) hleaf
    · rw [h.trapframe] at hleaf
      cases hleaf
      rfl
    · rw [h.trampoline] at hleaf
      cases hleaf
      rfl

theorem addressSpace_run {freelist : List F} {content : F → Block} {as : List (Action n F)}
    (hmem : freelist.length ≤ maxFrames) (h : Run step unguarded (start freelist content) as s) :
    (∀ p, (s.proc p).state ≠ .unused →
      ∃ pt, (s.proc p).pagetable = some pt ∧ AddressSpace (s.proc p) pt) ∧
    ∀ p luck c e, enabled s p c → perform p c (s.setLuck luck) = .error e →
      e = .initExiting ∧ s.initproc = some p := by
  have hsound := run_sound hmem h
  have hcard : (freelist : Multiset F).card ≤ maxFrames := hmem
  refine ⟨fun p hlive => ?_, fun p luck c e hen herr => ?_⟩
  · obtain ⟨pt, hpt⟩ := hsound.live p nofun hlive
    obtain ⟨tf, -, hshape, hsz⟩ := hsound.table hcard hpt
    exact ⟨pt, hpt, hshape.addressSpace hsz⟩
  · have hluck : Sound (freelist : Multiset F) none (s.setLuck luck) := hsound.setMem rfl
    exact (perform_ends hcard hluck hen).of_error herr

def oneSegment : Image where
  magic := true
  headers := [some ⟨1, 5, 0, 0, 100, 5000, by decide, by decide, by decide⟩]
  read := fun _ n => some (List.replicate n 7)

/-- The first process grows, fails to fork, forks, and its child shrinks and calls `exec`. -/
def execChild : List (Action 2 (Fin 32)) :=
  [.userinit, .call 0 [] (.sbrk 5000), .call 0 [false, false, true] .fork, .call 0 [] .fork,
    .call 1 [] (.sbrk (-5000)), .call 1 [] (.exec (some oneSegment) [.str [104, 105]])]

theorem addressSpace_run_exec : ∃ s : State 2 (Fin 32),
    Run step unguarded (start ((List.finRange 32).take 28) (fun _ => zeros)) execChild s ∧
    (s.proc 0).sz = 9096 ∧ (s.proc 1).sz = 16384 ∧ (s.proc 1).guard = some 2 ∧
    ∃ pt, (s.proc 1).pagetable = some pt ∧ AddressSpace (s.proc 1) pt := by
  obtain ⟨s, run, hinit, hsz, hguard, hused⟩ : ∃ s : State 2 (Fin 32),
      Run step unguarded (start ((List.finRange 32).take 28) (fun _ => zeros)) execChild s ∧
      (s.proc 0).sz = 9096 ∧ (s.proc 1).sz = 16384 ∧ (s.proc 1).guard = some 2 ∧ (s.proc 1).state = .used :=
    exists_run (by decide +kernel)
  have hlive : (s.proc 1).state ≠ .unused := by
    rw [hused]
    nofun
  exact ⟨s, run, hinit, hsz, hguard, (addressSpace_run (by decide) run).1 1 hlive⟩

/-- The owners of a frame: trapframes, tables and user pages of the processes, pipes, kernel
stacks, and the structures made at boot. -/
def owners (stack : Fin n → F) (boot : List F) (s : State n F) (f : F) : ℕ :=
  ∑ p, (s.proc p).own.count f + s.pipes.count f + (List.ofFn stack).count f + boot.count f

omit [DecidableEq F] in
theorem kfmemory_eq (mem : Mem F) : kfmemory mem = .ok (pgSize * mem.freelist.length, mem) := by
  have hfold : ∀ (l : List F) (a : ℕ), l.foldl (fun sum _ => sum + pgSize) a = a + pgSize * l.length := by
    intro l
    induction l with
    | nil => exact fun a => rfl
    | cons f l ih =>
      intro a
      rw [List.foldl_cons, ih, List.length_cons, Nat.mul_succ]
      omega
  have hsum := hfold mem.freelist 0
  rw [Nat.zero_add] at hsum
  exact congrArg (fun k => Except.ok (k, mem)) hsum

theorem frames_conserved [Fintype F] {freelist boot : List F} {stack : Fin n → F} {content : F → Block}
    {as : List (Action n F)} (hF : Fintype.card F ≤ maxFrames)
    (hboot : ∀ f, freelist.count f + (List.ofFn stack).count f + boot.count f = 1)
    (h : Run step unguarded (start freelist content) as s) :
    (∀ f, s.mem.freelist.count f + owners stack boot s f = 1) ∧
    kfmemory s.mem = .ok (4096 * (Finset.univ.filter (fun f => owners stack boot s f = 0)).card, s.mem) := by
  have hnodup : freelist.Nodup := List.nodup_iff_count_le_one.2 (fun f => by have := hboot f; omega)
  have hsound := run_sound (hnodup.length_le_card.trans hF) h
  have hcount : ∀ f, s.mem.freelist.count f + owners stack boot s f = 1 := by
    intro f
    have hf := congrArg (Multiset.count f) hsound.frames
    simp only [State.frames, Multiset.count_add, Multiset.count_sum', Multiset.coe_count] at hf
    rw [owners]
    have := hboot f
    omega
  refine ⟨hcount, ?_⟩
  have hfree : s.mem.freelist.Nodup := List.nodup_iff_count_le_one.2 (fun f => by have := hcount f; omega)
  have hset : Finset.univ.filter (fun f => owners stack boot s f = 0) = s.mem.freelist.toFinset := by
    ext f
    have hf := hcount f
    rw [Finset.mem_filter_univ, List.mem_toFinset, ← List.count_pos_iff]
    omega
  rw [kfmemory_eq, hset, List.toFinset_card_of_nodup hfree]
  rfl

/-- A child comes and goes, and leaves a pipe behind. -/
def reapedChild : List (Action 2 (Fin 24)) :=
  [.userinit, .call 0 [] (.sbrk 5000), .call 0 [false, false, true] .fork, .call 0 [] .fork,
    .call 1 [] (.sbrk (-5000)), .call 1 [] .pipe, .call 1 [] .exit, .call 0 [] (.wait 1)]

theorem frames_conserved_reaped : ∃ s : State 2 (Fin 24),
    Run step unguarded (start ((List.finRange 24).take 20) (fun _ => zeros)) reapedChild s ∧
    s.pipes.length = 1 ∧ s.mem.freelist.length = 10 ∧
    ∀ f, s.mem.freelist.count f + owners ![20, 21] [22, 23] s f = 1 := by
  obtain ⟨s, run, hpipes, hfree⟩ : ∃ s : State 2 (Fin 24),
      Run step unguarded (start ((List.finRange 24).take 20) (fun _ => zeros)) reapedChild s ∧
      s.pipes.length = 1 ∧ s.mem.freelist.length = 10 := exists_run (by decide +kernel)
  exact ⟨s, run, hpipes, hfree, (frames_conserved (by decide) (by decide) run).1⟩

end Xv6.VirtualMemory
