import Xv6.AddressSpaces
import Xv6.ExecImages

/-!
# The frames of the processes

A frame that is free at boot is on the free list, belongs to a process, or holds a pipe. The
sum of the three is the same in every state between calls, and every process has a page table
of the right shape.
-/

namespace Xv6.VirtualMemory

open ByteBlocks Function PanicPrograms RadixTables TransitionRuns

variable {n : ℕ} {F : Type} {s t : State n F} {p : Fin n} {m : Multiset F} {half : Option (Fin n)}
  {pt : PageTable F} {tf : F} {E : Panic → Prop}

def Proc.own (x : Proc F) : Multiset F :=
  x.trapframe.elim 0 (fun f => {f}) + x.pagetable.elim 0 VirtualMemory.own

def State.frames (s : State n F) : Multiset F :=
  (s.mem.freelist : Multiset F) + ∑ p, (s.proc p).own + (s.pipes : Multiset F)

/-- The page table, if there is one, maps the memory of the process. -/
def Proc.Shaped (x : Proc F) : Prop :=
  ∀ pt, x.pagetable = some pt → ∃ tf, x.trapframe = some tf ∧ Shape pt tf (pages x.sz) x.guard

/-- All frames are `m`. Only the process `half`, which is being made or freed, may be without a
page table. -/
structure Sound (m : Multiset F) (half : Option (Fin n)) (s : State n F) : Prop where
  shaped : ∀ p, (s.proc p).Shaped
  free : ∀ p, (s.proc p).state = .unused → s.proc p = .free
  live : ∀ p, half ≠ some p → (s.proc p).state ≠ .unused → ∃ pt, (s.proc p).pagetable = some pt
  frames : s.frames = m

theorem Sound.weaken (h : Sound m none s) : Sound m (some p) s where
  shaped := h.shaped
  free := h.free
  live := fun q _ => h.live q nofun
  frames := h.frames

theorem frames_update {x : Proc F} {mem : Mem F}
    (h : (mem.freelist : Multiset F) + x.own = (s.mem.freelist : Multiset F) + (s.proc p).own) :
    State.frames { s with proc := update s.proc p x, mem := mem } = s.frames := by
  have hsum := sum_update_mem s.proc Proc.own (Finset.mem_univ p) x
  refine congrArg (· + (s.pipes : Multiset F)) (add_right_cancel (b := (s.proc p).own) ?_)
  calc (mem.freelist : Multiset F) + (∑ q, (update s.proc p x q).own) + (s.proc p).own
      = (mem.freelist : Multiset F) + x.own + ∑ q, (s.proc q).own := by
        rw [add_assoc, hsum, add_comm (∑ q, _), ← add_assoc]
    _ = (s.mem.freelist : Multiset F) + (∑ q, (s.proc q).own) + (s.proc p).own := by
        rw [h, add_right_comm]

theorem Sound.update {x : Proc F} {mem : Mem F} {half' : Option (Fin n)} (h : Sound m half s)
    (hhalf : half = none ∨ half = some p) (hshape : x.Shaped) (hfree : x.state = .unused → x = .free)
    (hlive : half' ≠ some p → x.state ≠ .unused → ∃ pt, x.pagetable = some pt)
    (hown : (mem.freelist : Multiset F) + x.own = (s.mem.freelist : Multiset F) + (s.proc p).own) :
    Sound m half' { s with proc := Function.update s.proc p x, mem := mem } where
  shaped := by
    intro q
    by_cases hq : q = p
    · subst hq
      simpa using hshape
    · simpa [hq] using h.shaped q
  free := by
    intro q
    by_cases hq : q = p
    · subst hq
      simpa using hfree
    · simpa [hq] using h.free q
  live := by
    intro q
    by_cases hq : q = p
    · subst hq
      simpa using hlive
    · have hne : half ≠ some q := by
        rintro rfl
        rcases hhalf with hh | hh
        · cases hh
        · exact hq (Option.some.inj hh)
      intro _
      simpa [hq] using h.live q hne
  frames := (frames_update hown).trans h.frames

-- a sum over all page numbers is not to be unfolded
attribute [local irreducible] own

section Bound

variable (hm : m.card ≤ maxFrames)

include hm

theorem Sound.freelist_le (h : Sound m half s) : s.mem.freelist.length ≤ maxFrames := by
  have hcard := congrArg Multiset.card h.frames
  simp only [State.frames, Multiset.card_add, Multiset.coe_card] at hcard
  omega

theorem Sound.fits (h : Sound m half s) (hpt : (s.proc p).pagetable = some pt) : Fits pt s.mem := by
  have hle : (s.proc p).own ≤ ∑ q, (s.proc q).own :=
    Finset.single_le_sum_of_canonicallyOrdered (f := fun q => (s.proc q).own) (Finset.mem_univ p)
  have hown : own pt ≤ (s.proc p).own := by
    rw [Proc.own, hpt]
    exact Multiset.le_add_left _ _
  have hcard := congrArg Multiset.card h.frames
  have hcard' := Multiset.card_le_card (hown.trans hle)
  simp only [State.frames, Multiset.card_add, Multiset.coe_card] at hcard
  rw [Fits, Multiset.card_add, Multiset.coe_card]
  omega

theorem Sound.table (h : Sound m half s) (hpt : (s.proc p).pagetable = some pt) :
    ∃ tf, (s.proc p).trapframe = some tf ∧ Shape pt tf (pages (s.proc p).sz) (s.proc p).guard ∧
      (s.proc p).sz + pgSize ≤ 2 ^ 64 := by
  obtain ⟨tf, htf, hshape⟩ := h.shaped p pt hpt
  exact ⟨tf, htf, hshape, (hshape.sized (h.fits hm hpt)).no_wrap⟩

variable [DecidableEq F]

omit hm [DecidableEq F] in
theorem Sound.released {mem : Mem F} (h : Sound m (some p) s)
    (hmem : (mem.freelist : Multiset F) = (s.proc p).own + (s.mem.freelist : Multiset F)) :
    Sound m none { s with proc := Function.update s.proc p .free, mem := mem } := by
  refine h.update (Or.inr rfl) nofun (fun _ => rfl) (fun _ hne => absurd rfl hne) ?_
  rw [hmem, add_comm (s.proc p).own]
  exact add_zero _

theorem freeproc_ends (h : Sound m (some p) s) :
    Ends (freeproc p) s (fun _ t => Sound m none t ∧ ∀ q ≠ p, t.proc q = s.proc q) E := by
  have hother : ∀ q ≠ p, update s.proc p .free q = s.proc q :=
    fun q hq => update_of_ne hq _ _
  cases hpt : (s.proc p).pagetable with
  | none =>
    cases htf : (s.proc p).trapframe with
    | none =>
      simp only [freeproc, ends_bind, ends_get, htf, hpt, ends_modify]
      refine ⟨h.released (show (s.mem.freelist : Multiset F) = _ from ?_), hother⟩
      rw [Proc.own, htf, hpt]
      exact (zero_add _).symm
    | some tf =>
      simp only [freeproc, ends_bind, ends_get, htf, hpt, ends_modify, onMem, ends_zoom]
      refine (kfree_ends s.mem tf).imp ?_
      intro _ u hu
      refine ⟨h.released ?_, hother⟩
      rw [show u.freelist = tf :: s.mem.freelist from hu, Proc.own, htf, hpt]
      rfl
  | some pt =>
    obtain ⟨tf, htf, hshape, hsz⟩ := h.table hm hpt
    simp only [freeproc, ends_bind, ends_get, htf, hpt, ends_modify, onMem, ends_zoom]
    refine (kfree_ends s.mem tf).imp ?_
    intro _ u hu
    refine (procFreepagetable_ends hshape hsz u).imp ?_
    intro _ v hv
    refine ⟨h.released ?_, hother⟩
    rw [hv, show u.freelist = tf :: s.mem.freelist from hu, Proc.own, htf, hpt, coe_cons_eq, add_left_comm,
      ← add_assoc]
    rfl

structure Allocproc (s : State n F) (m : Multiset F) (p : Fin n) (t : State n F) : Prop where
  sound : Sound m none t
  unused : (s.proc p).state = .unused
  used : (t.proc p).state = .used
  size : (t.proc p).sz = 0
  others : ∀ q ≠ p, t.proc q = s.proc q

omit [DecidableEq F] in
theorem Allocproc.table (h : Allocproc s m p t) : ∃ pt tf, (t.proc p).pagetable = some pt ∧
    (t.proc p).trapframe = some tf ∧ Shape pt tf (pages (t.proc p).sz) (t.proc p).guard ∧
    Shape pt tf 0 (t.proc p).guard := by
  obtain ⟨pt, hpt⟩ := h.sound.live p (by rintro ⟨⟩) (by rw [h.used]; rintro ⟨⟩)
  obtain ⟨tf, htf, hshape, -⟩ := h.sound.table hm hpt
  have hzero : pages (t.proc p).sz = 0 := by
    rw [h.size]
    decide
  exact ⟨pt, tf, hpt, htf, hshape, hzero ▸ hshape⟩

theorem allocproc_ends (h : Sound m none s) : Ends allocproc s (fun r t => match r with
    | none => Sound m none t
    | some p => Allocproc s m p t) E := by
  have hzero : pages 0 = 0 := by decide
  simp only [allocproc, ends_bind, ends_get]
  cases hfind : (List.finRange n).find? (fun p => (s.proc p).state = .unused) with
  | none => exact h
  | some p =>
    have hunused : (s.proc p).state = .unused := by simpa using List.find?_some hfind
    have hfree : s.proc p = ⟨.unused, none, 0, none, none⟩ := h.free p hunused
    have hown : (s.proc p).own = 0 := by
      rw [hfree]
      rfl
    simp only [ends_bind, ends_modify, State.setProc, onMem, ends_zoom, hfree]
    refine (kalloc_ends s.mem).imp ?_
    rintro (_ | tf) u hu
    · have hsound : Sound m (some p) { s with
          proc := update s.proc p ⟨.used, none, 0, none, none⟩, mem := u } := by
        refine h.update (Or.inl rfl) (by rintro _ ⟨⟩) (by rintro ⟨⟩) (fun hne => absurd rfl hne) ?_
        rw [show u.freelist = s.mem.freelist from hu, hown]
        rfl
      simp only [ends_bind]
      exact (freeproc_ends hm hsound).mono (fun _ _ ht => ht.1) (fun _ he => he)
    · have htake : (u.freelist : Multiset F) + {tf} = (s.mem.freelist : Multiset F) + (s.proc p).own := by
        rw [show s.mem.freelist = tf :: u.freelist from hu, hown, coe_cons_eq, add_zero, add_comm]
      simp only [ends_bind, ends_modify, ends_zoom]
      refine (procPagetable_ends tf u).imp ?_
      rintro (_ | pt) v hv
      · have hsound : Sound m (some p) { s with
            proc := update s.proc p ⟨.used, none, 0, some tf, none⟩, mem := v } := by
          refine h.update (Or.inl rfl) (by rintro _ ⟨⟩) (by rintro ⟨⟩) (fun hne => absurd rfl hne) ?_
          rw [← htake, ← show (v.freelist : Multiset F) = (u.freelist : Multiset F) from hv]
          rfl
        simp only [ends_bind, update_self, update_idem]
        exact (freeproc_ends hm hsound).mono (fun _ _ ht => ht.1) (fun _ he => he)
      · obtain ⟨hshape, hpt⟩ := hv
        have hsound : Sound m none { s with
            proc := update s.proc p ⟨.used, some pt, 0, some tf, none⟩, mem := v } := by
          refine h.update (Or.inl rfl) ?_ (by rintro ⟨⟩) (fun _ _ => ⟨pt, rfl⟩) ?_
          · intro pt' hpt'
            cases hpt'
            exact ⟨tf, rfl, hzero.symm ▸ hshape⟩
          · change (v.freelist : Multiset F) + ({tf} + own pt) = _
            rw [← htake, ← hpt, ← add_assoc, add_comm _ (own pt), ← add_assoc]
        simp only [ends_bind, ends_modify, ends_pure, update_self, update_idem]
        refine ⟨hsound, hunused, ?_, ?_, fun q hq => update_of_ne hq _ _⟩
        · simp only [update_self]
        · simp only [update_self]

omit hm [DecidableEq F] in
theorem Sound.setTable {x : Proc F} {mem : Mem F} {pt' : PageTable F} (h : Sound m none s)
    (hpt : (s.proc p).pagetable = some pt) (htf : (s.proc p).trapframe = some tf)
    (hx : x.state = (s.proc p).state) (hxtf : x.trapframe = some tf) (hxpt : x.pagetable = some pt')
    (hshape : Shape pt' tf (pages x.sz) x.guard)
    (hown : own pt' + (mem.freelist : Multiset F) = own pt + (s.mem.freelist : Multiset F)) :
    Sound m none { s with proc := Function.update s.proc p x, mem := mem } := by
  refine h.update (Or.inl rfl) ?_ ?_ (fun _ _ => ⟨pt', hxpt⟩) ?_
  · intro pt'' hpt''
    rw [hxpt] at hpt''
    cases hpt''
    exact ⟨tf, hxtf, hshape⟩
  · intro hunused
    have hnone := h.free p (hx ▸ hunused)
    rw [hnone] at hpt
    cases hpt
  · rw [Proc.own, Proc.own, hxtf, hxpt, htf, hpt, Option.elim_some, Option.elim_some, Option.elim_some,
      add_left_comm, add_comm _ (own pt'), hown, add_comm (own pt), add_left_comm]

theorem growproc_ends (h : Sound m none s) (hlive : (s.proc p).state ≠ .unused) (k : ℤ) :
    Ends (growproc p k) s (fun _ t => Sound m none t) E := by
  obtain ⟨pt, hpt⟩ := h.live p nofun hlive
  obtain ⟨tf, htf, hshape, hsz⟩ := h.table hm hpt
  simp only [growproc, ends_bind, ends_get, hpt]
  refine ends_ite (fun _ => ?_) (fun _ => ends_ite (fun _ => ?_) (fun _ => h))
  · simp only [ends_bind, onMem, ends_zoom, ends_modify, State.setProc]
    refine (uvmalloc_ends hshape.users hsz (h.fits hm hpt)).imp ?_
    rintro ⟨pt', sz1⟩ u hu
    obtain ⟨hfail, hdone⟩ := hu.shape hshape
    refine ends_ite (fun hz => ?_) (fun hne => ?_)
    · exact h.setTable hpt htf rfl htf rfl (hfail hz) hu.own
    · simp only [ends_bind, ends_modify, ends_pure, update_self, update_idem]
      exact h.setTable hpt htf rfl htf rfl (hdone hne).2 hu.own
  · simp only [ends_bind, onMem, ends_zoom, ends_modify, ends_pure, State.setProc]
    refine (uvmdealloc_ends hshape.users hsz s.mem).imp ?_
    rintro ⟨pt', sz1⟩ u ⟨hown, hsz1, hleaf⟩
    have hle : pages sz1 ≤ pages (s.proc p).sz := pages_mono (hsz1.trans_le (Nat.min_le_left ..))
    exact h.setTable hpt htf rfl htf rfl (hshape.shrink hle hleaf) hown

end Bound

end Xv6.VirtualMemory
