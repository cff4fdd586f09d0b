import Xv6.FrameOwnership

/-!
# Contents while processes are made and freed

`proc_pagetable`, `proc_freepagetable`, `allocproc` and `freeproc` write only frames that were
free, and those of the process.
-/

namespace Xv6.VirtualMemory

open ByteBlocks Function PanicPrograms RadixTables

variable {F : Type} [DecidableEq F] {pt pt' : PageTable F} {k v sz : ℕ} {s t u : Mem F} {Z : Set F} {tf f : F}
  {guard : Option ℕ}

theorem spared_freeTable {α : Type} {below : α → M F Unit} {x : Table 512 F α} (hx : x.frame ∈ Z)
    (h : ∀ i y, x.entry i = some y → ∀ s, Ends (below y) s (fun _ t => Spared Z s t) (fun _ => True)) (s : Mem F) :
    Ends (freeTable below x) s (fun _ t => Spared Z s t) (fun _ => True) := by
  rw [freeTable, ends_bind]
  generalize List.finRange 512 = l
  refine (ends_forM (fun _ t => Spared Z s t) l (.refl Z s) ?_).imp ?_
  · intro i rest t ht
    split
    · exact ht
    · rename_i y hy
      refine (h i y hy t).imp ?_
      intro _ u hu
      exact ht.trans hu
  · intro _ t ht
    refine (spared_kfree (Z := Z) ?_ t).imp ?_
    · intro f hf
      cases hf
      exact hx
    · intro _ u hu
      exact ht.trans hu

-- loops over 512 entries and sums over all page numbers are not to be unfolded
attribute [local irreducible] freeTable own userFrames Table.frames

theorem spared_freewalk (h : ∀ f ∈ pt.tables, f ∈ Z) (s : Mem F) :
    Ends (freewalk pt) s (fun _ t => Spared Z s t) (fun _ => True) := by
  rw [freewalk]
  have htop : pt.frame ∈ Z := h _ (Table.mem_frames.2 (Or.inl rfl))
  refine spared_freeTable htop (fun i t1 hi => ?_) s
  have hmiddle : ∀ f ∈ Table.frames (Table.frames (fun _ => 0)) t1, f ∈ Z :=
    fun f hf => h f (Table.mem_frames.2 (Or.inr ⟨i, t1, hi, hf⟩))
  refine spared_freeTable (hmiddle _ (Table.mem_frames.2 (Or.inl rfl))) (fun j t0 hj => ?_)
  have hlast : t0.frame ∈ Z := by
    apply hmiddle
    exact Table.mem_frames.2 (Or.inr ⟨j, t0, hj, Table.mem_frames.2 (Or.inl rfl)⟩)
  refine spared_freeTable hlast (fun k leaf _ s => ?_)
  rw [freeLeaf]
  exact ends_ite (fun _ => trivial) (fun _ => trivial)

omit [DecidableEq F] in
theorem within_own (h : ∀ f ∈ own pt, f ∈ Z) (k : ℕ) : Within Z k pt :=
  fun _ _ hv _ _ hf => h _ (mem_own hv hf)

omit [DecidableEq F] in
theorem tables_own (h : ∀ f ∈ own pt, f ∈ Z) : ∀ f ∈ pt.tables, f ∈ Z := by
  intro f hf
  apply h
  rw [own]
  exact Multiset.mem_add.2 (Or.inl hf)

theorem unmapPages_tables (doFree : Bool) (n : ℕ) (pt : PageTable F) (a : ℕ) (s : Mem F) :
    Ends (unmapPages doFree n pt a) s (fun pt' t => pt'.tables = pt.tables ∧ (doFree = false → t = s))
      (fun _ => True) := by
  induction n generalizing pt a s with
  | zero => exact ⟨rfl, fun _ => rfl⟩
  | succ n ih =>
    rw [unmapPages, ends_bind, walk]
    refine ends_ite (fun _ => trivial) (fun _ => ?_)
    rw [ends_pure]
    split
    · trivial
    · trivial
    · refine ends_ite (fun _ => trivial) (fun _ => ?_)
      refine ends_ite (fun hfree => ?_) (fun _ => ?_)
      · rw [ends_bind]
        refine ends_self.mono ?_ (fun _ _ => trivial)
        intro _ t _
        refine (ih _ _ t).imp ?_
        rintro pt' u ⟨hpt', -⟩
        rw [hpt', Tree.tables_put]
        exact ⟨rfl, fun hkeep => by cases hfree.symm.trans hkeep⟩
      · refine (ih _ _ s).imp ?_
        rintro pt' u ⟨hpt', hu⟩
        rw [hpt', Tree.tables_put]
        exact ⟨rfl, hu⟩

theorem uvmunmap_tables (pt : PageTable F) (a n : ℕ) (doFree : Bool) (s : Mem F) :
    Ends (uvmunmap pt a n doFree) s (fun pt' t => pt'.tables = pt.tables ∧ (doFree = false → t = s))
      (fun _ => True) :=
  ends_ite (fun _ => trivial) (fun _ => unmapPages_tables doFree n pt a s)

theorem spared_uvmfree (hwithin : Within Z 0 pt) (htables : ∀ f ∈ pt.tables, f ∈ Z) (hle : pages sz ≤ trapframePage)
    (hsz : sz + pgSize ≤ 2 ^ 64) (s : Mem F) :
    Ends (uvmfree pt sz) s (fun _ t => Spared Z s t) (fun _ => True) := by
  rw [uvmfree]
  refine ends_ite (fun _ => ?_) (fun _ => spared_freewalk htables s)
  rw [pgRoundUp_eq hsz, Nat.mul_div_cancel _ (by decide), ends_bind]
  have hunmap : Ends (uvmunmap pt (0 * pgSize) (pages sz) true) s _ _ :=
    spared_uvmunmap hwithin (fun _ => ⟨le_rfl, by omega⟩) s
  rw [Nat.zero_mul] at hunmap
  refine (hunmap.also (uvmunmap_tables pt 0 (pages sz) true s)).imp ?_
  rintro pt' t ⟨⟨ht, -⟩, heq, -⟩
  refine (spared_freewalk (by rwa [heq]) t).imp ?_
  intro _ u hu
  exact ht.trans hu

theorem spared_procFreepagetable (h : ∀ f ∈ own pt, f ∈ Z) (hle : pages sz ≤ trapframePage)
    (hsz : sz + pgSize ≤ 2 ^ 64) (s : Mem F) :
    Ends (procFreepagetable pt sz) s (fun _ t => Spared Z s t) (fun _ => True) := by
  rw [procFreepagetable, ends_bind, trampoline_eq, trapframe_eq]
  refine ((uvmunmap_tables pt _ 1 false s).also (spared_uvmunmap (within_own h 0)
    (fun hc => absurd hc Bool.false_ne_true) s)).imp ?_
  rintro pt₁ t₁ ⟨⟨heq₁, -⟩, ht₁, hw₁⟩
  rw [ends_bind]
  refine ((uvmunmap_tables pt₁ _ 1 false t₁).also (spared_uvmunmap hw₁
    (fun hc => absurd hc Bool.false_ne_true) t₁)).imp ?_
  rintro pt₂ t₂ ⟨⟨heq₂, -⟩, ht₂, hw₂⟩
  refine (spared_uvmfree hw₂ ?_ hle hsz t₂).imp ?_
  · rw [heq₂, heq₁]
    exact tables_own h
  · intro _ u hu
    exact (ht₁.trans ht₂).trans hu

theorem walkAlloc_tables (pt : PageTable F) (va : ℕ) (s : Mem F) : Ends (walkAlloc pt va) s (fun r t =>
    r.1.tables + (t.freelist : Multiset F) = pt.tables + (s.freelist : Multiset F)) (fun _ => True) := by
  rcases lt_or_ge va maxVa with hva | hva
  · exact (walkAlloc_ends hva pt s).mono (fun _ _ h => h.2.1) (fun _ he => he)
  · rw [walkAlloc, if_pos hva]
    trivial

theorem mapPages_tables (perm : Perm) (n : ℕ) (pt : PageTable F) (a : ℕ) (pa : ℕ → Page F) (s : Mem F) :
    Ends (mapPages perm n pt a pa) s (fun r t =>
      r.1.tables + (t.freelist : Multiset F) = pt.tables + (s.freelist : Multiset F)) (fun _ => True) := by
  induction n generalizing pt a pa s with
  | zero => rfl
  | succ n ih =>
    rw [mapPages]
    refine (walkAlloc_tables pt a s).bind ?_
    rintro ⟨pt', ok⟩ t ht
    refine ends_ite (fun _ => ht) (fun _ => ?_)
    split
    · trivial
    · refine (ih _ _ _ t).imp ?_
      intro r u hu
      rw [hu, Tree.tables_put]
      exact ht

theorem mappages_tables (pt : PageTable F) (va size : ℕ) (pa : ℕ → Page F) (perm : Perm) (s : Mem F) :
    Ends (mappages pt va size pa perm) s (fun r t =>
      r.1.tables + (t.freelist : Multiset F) = pt.tables + (s.freelist : Multiset F)) (fun _ => True) := by
  refine ends_ite (fun _ => trivial) (fun _ => ?_)
  refine ends_ite (fun _ => trivial) (fun _ => ?_)
  exact ends_ite (fun _ => trivial) (fun _ => mapPages_tables perm _ pt va pa s)

theorem mappages_takes (pt : PageTable F) (va size : ℕ) (pa : ℕ → Page F) (perm : Perm) (s : Mem F) :
    Ends (mappages pt va size pa perm) s (fun r t =>
      r.1.tables + (t.freelist : Multiset F) = pt.tables + (s.freelist : Multiset F) ∧ Spared ∅ s t)
      (fun _ => True) :=
  (mappages_tables pt va size pa perm s).also (spared_mappages s)

omit [DecidableEq F] in
theorem mem_of_tables {m : Multiset F} (h : pt.tables + (t.freelist : Multiset F) = m) :
    ∀ f ∈ pt.tables, f ∈ m := by
  intro f hf
  rw [← h]
  exact Multiset.mem_add.2 (Or.inl hf)

/-- The tables come from the free list, and go back to it if there are not enough. -/
theorem spared_procPagetable (tf : F) (s : Mem F) :
    Ends (procPagetable tf) s (fun _ t => Spared ∅ s t) (fun _ => True) := by
  have hgive : ∀ {pt : PageTable F} {t : Mem F}, Spared ∅ s t →
      pt.tables + (t.freelist : Multiset F) = (s.freelist : Multiset F) →
      Ends (uvmfree pt 0) t (fun _ u => Spared ∅ s u) (fun _ => True) := by
    intro pt t ht hown
    refine (spared_freewalk (Z := {f | f ∈ s.freelist}) (mem_of_tables hown) t).imp ?_
    intro _ u hu
    exact ((ht.mono (Set.empty_subset _)).trans hu).shrink (fun f hf => Or.inl hf)
  have hcreate : Ends uvmcreate s (fun _ t => Spared ∅ s t) (fun _ => True) := by
    rw [uvmcreate]
    refine (spared_kalloc s).bind ?_
    rintro (_ | f) t ht
    · exact ht
    · exact ht
  rw [procPagetable]
  refine ((uvmcreate_ends s).also hcreate).bind ?_
  rintro (_ | pt) t ⟨hown, ht⟩
  · exact ht
  refine (mappages_takes pt _ _ _ _ t).bind ?_
  rintro ⟨pt₁, ok⟩ t₁ ⟨hown₁, hs₁⟩
  have ht₁ := ht.trans hs₁
  replace hown₁ := hown₁.trans hown.2
  refine ends_ite (fun _ => ?_) (fun _ => ?_)
  · rw [ends_bind]
    exact hgive ht₁ hown₁
  refine (mappages_takes pt₁ _ _ _ _ t₁).bind ?_
  rintro ⟨pt₂, ok⟩ t₂ ⟨hown₂, hs₂⟩
  have ht₂ := ht₁.trans hs₂
  replace hown₂ := hown₂.trans hown₁
  refine ends_ite (fun _ => ?_) (fun _ => ht₂)
  refine (uvmunmap_tables pt₂ _ 1 false t₂).bind ?_
  rintro pt₃ t₃ ⟨htables, hsame⟩
  rw [ends_bind, hsame rfl]
  refine hgive ht₂ ?_
  rw [htables]
  exact hown₂

section Processes

variable {n : ℕ} {σ τ : State n F} {p : Fin n} {m : Multiset F}

/-- The permissions of a page of a process, and what is in it. -/
def pageAt (σ : State n F) (p : Fin n) (v : ℕ) : Option (Perm × Block) :=
  (σ.proc p).pagetable.bind (fun pt => pageIn pt σ.mem v)

omit [DecidableEq F] in
theorem pageAt_eq (hpt : (σ.proc p).pagetable = some pt) (v : ℕ) : pageAt σ p v = pageIn pt σ.mem v := by
  rw [pageAt, hpt, Option.bind_some]

omit [DecidableEq F] in
theorem pageAt_same {v : ℕ} (hpt : (σ.proc p).pagetable = some pt) (hpt' : (τ.proc p).pagetable = some pt')
    (hleaf : leafAt pt' v = leafAt pt v)
    (hcontent : ∀ f perm, leafAt pt v = some ⟨.frame f, perm⟩ → τ.mem.content f = σ.mem.content f) :
    pageAt τ p v = pageAt σ p v := by
  rw [pageAt_eq hpt, pageAt_eq hpt', pageIn, hleaf]
  exact pageIn_congr hcontent

omit [DecidableEq F] in
theorem Sound.nodup (h : Sound m none σ) (hm : m.Nodup) (hpt : (σ.proc p).pagetable = some pt) :
    (own pt + (σ.mem.freelist : Multiset F)).Nodup := by
  refine Multiset.nodup_of_le ?_ hm
  have hproc : own pt ≤ ∑ q, (σ.proc q).own := by
    refine le_trans ?_ (Finset.single_le_sum_of_canonicallyOrdered (f := fun q => (σ.proc q).own)
      (Finset.mem_univ p))
    rw [Proc.own, hpt]
    exact Multiset.le_add_left _ _
  rw [← h.frames, State.frames, add_comm (own pt)]
  exact (Multiset.add_le_add_left hproc).trans (Multiset.le_add_right _ _)

omit [DecidableEq F] in
/-- What one process has more than before has left the free list. -/
theorem own_of_frames (hs : σ.frames = m) (ht : τ.frames = m) (hpipes : τ.pipes = σ.pipes)
    (hothers : ∀ q ≠ p, τ.proc q = σ.proc q) :
    (τ.mem.freelist : Multiset F) + (τ.proc p).own = (σ.mem.freelist : Multiset F) + (σ.proc p).own := by
  have hproc : τ.proc = update σ.proc p (τ.proc p) := by
    rw [Function.eq_update_iff]
    exact ⟨rfl, hothers⟩
  have hsum := TransitionRuns.sum_update_mem σ.proc Proc.own (Finset.mem_univ p) (τ.proc p)
  rw [← hproc] at hsum
  have heq := ht.trans hs.symm
  rw [State.frames, State.frames, hpipes] at heq
  replace heq := add_right_cancel heq
  refine add_right_cancel (b := ∑ q, (σ.proc q).own) ?_
  calc
    (τ.mem.freelist : Multiset F) + (τ.proc p).own + ∑ q, (σ.proc q).own
      = (τ.mem.freelist : Multiset F) + (∑ q, (τ.proc q).own) + (σ.proc p).own := by
        rw [add_assoc, add_comm (τ.proc p).own, ← hsum, add_assoc]
    _ = (σ.mem.freelist : Multiset F) + (σ.proc p).own + ∑ q, (σ.proc q).own := by
        rw [heq, add_right_comm]

theorem freeproc_spared (hZ : ∀ f ∈ (σ.proc p).own, f ∈ Z)
    (hsz : ∀ pt, (σ.proc p).pagetable = some pt → pages (σ.proc p).sz ≤ trapframePage ∧
      (σ.proc p).sz + pgSize ≤ 2 ^ 64) :
    Ends (freeproc p) σ (fun _ τ => Spared Z σ.mem τ.mem ∧ τ.pipes = σ.pipes ∧
      τ.proc = update σ.proc p .free) (fun _ => True) := by
  rw [Proc.own] at hZ
  have htf : ∀ {tf}, (σ.proc p).trapframe = some tf →
      Ends (kfree (.frame tf)) σ.mem (fun _ t => Spared Z σ.mem t) (fun _ => True) := by
    intro tf htf
    refine spared_kfree ?_ σ.mem
    intro f hf
    cases hf
    apply hZ
    rw [htf]
    exact Multiset.mem_add.2 (Or.inl (Multiset.mem_singleton_self tf))
  have hpt : ∀ {pt} (t : Mem F), (σ.proc p).pagetable = some pt → Spared Z σ.mem t →
      Ends (procFreepagetable pt (σ.proc p).sz) t (fun _ u => Spared Z σ.mem u) (fun _ => True) := by
    intro pt t hpt ht
    have hown : ∀ f ∈ own pt, f ∈ Z := by
      intro f hf
      apply hZ
      rw [hpt]
      exact Multiset.mem_add.2 (Or.inr hf)
    refine (spared_procFreepagetable hown (hsz pt hpt).1 (hsz pt hpt).2 t).imp ?_
    intro _ u hu
    exact ht.trans hu
  simp only [freeproc, ends_bind, ends_get]
  cases htf' : (σ.proc p).trapframe with
  | none =>
    cases hpt' : (σ.proc p).pagetable with
    | none => exact ⟨.refl Z _, rfl, rfl⟩
    | some pt =>
      simp only [ends_bind, onMem, ends_zoom, ends_modify]
      refine (hpt σ.mem hpt' (.refl Z _)).imp ?_
      exact fun _ u hu => ⟨hu, rfl, rfl⟩
  | some tf =>
    simp only [ends_bind, onMem, ends_zoom]
    refine (htf htf').imp ?_
    intro _ t ht
    cases hpt' : (σ.proc p).pagetable with
    | none => exact ⟨ht, rfl, rfl⟩
    | some pt =>
      simp only [ends_bind, ends_zoom, ends_modify]
      refine (hpt t hpt' ht).imp ?_
      exact fun _ u hu => ⟨hu, rfl, rfl⟩

theorem allocproc_spared (h : Sound m none σ) : Ends allocproc σ (fun r τ => Spared ∅ σ.mem τ.mem ∧
    τ.pipes = σ.pipes ∧ ∀ q, r ≠ some q → τ.proc q = σ.proc q) (fun _ => True) := by
  simp only [allocproc, ends_bind, ends_get]
  cases hfind : (List.finRange n).find? (fun p => (σ.proc p).state = .unused) with
  | none => exact ⟨.refl ∅ _, rfl, fun _ _ => rfl⟩
  | some p =>
    have hunused : (σ.proc p).state = .unused := by simpa using List.find?_some hfind
    have hfree : σ.proc p = ⟨.unused, none, 0, none, none⟩ := h.free p hunused
    have hback : update σ.proc p .free = σ.proc := by
      rw [update_eq_self_iff]
      exact hfree.symm
    -- a process that has got a trapframe at most is freed again
    have hgive : ∀ {tf : Option F} {u : Mem F}, Spared ∅ σ.mem u → (∀ f, tf = some f → f ∈ σ.mem.freelist) →
        Ends (freeproc p) { σ with proc := update σ.proc p ⟨.used, none, 0, tf, none⟩, mem := u }
          (fun _ τ => Spared ∅ σ.mem τ.mem ∧ τ.pipes = σ.pipes ∧ ∀ q, none ≠ some q → τ.proc q = σ.proc q)
          (fun _ => True) := by
      intro tf u hu htf
      refine (freeproc_spared (Z := {f | f ∈ σ.mem.freelist}) ?_ ?_).imp ?_
      · intro f hf
        simp only [update_self, Proc.own, Option.elim_none, add_zero] at hf
        cases tf with
        | none => exact absurd hf (Multiset.notMem_zero f)
        | some tf => exact htf f (congrArg some (Multiset.mem_singleton.1 hf).symm)
      · intro pt hpt
        simp only [update_self] at hpt
        cases hpt
      · rintro _ τ ⟨hspared, hpipes, hproc⟩
        refine ⟨((hu.mono (Set.empty_subset _)).trans hspared).shrink (fun f hf => Or.inl hf), hpipes, ?_⟩
        intro q _
        rw [hproc, update_idem, hback]
    simp only [ends_bind, ends_modify, State.setProc, onMem, ends_zoom, hfree]
    refine ((kalloc_ends σ.mem).also (spared_kalloc σ.mem)).imp ?_
    rintro (_ | tf) u ⟨hu, hspared⟩
    · simp only [ends_bind]
      exact hgive hspared (fun f hf => nomatch hf)
    · have hmem : tf ∈ σ.mem.freelist := by
        rw [show σ.mem.freelist = tf :: u.freelist from hu]
        exact List.mem_cons_self
      simp only [ends_bind, ends_modify, ends_zoom, update_self, update_idem]
      refine (spared_procPagetable tf u).imp ?_
      rintro (_ | pt) v hv
      · simp only [ends_bind]
        refine hgive (hspared.trans hv) ?_
        rintro f ⟨⟩
        exact hmem
      · simp only [ends_bind, ends_modify, ends_pure, update_self, update_idem]
        refine ⟨hspared.trans hv, trivial, ?_⟩
        intro q hq
        apply update_of_ne
        rintro rfl
        exact hq rfl

end Processes

end Xv6.VirtualMemory
