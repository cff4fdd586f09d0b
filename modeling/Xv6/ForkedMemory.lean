import Xv6.AddressSpaceRuns
import Xv6.ProcessContents
import Xv6.UserTranslation

/-!
# The memory of a child

`uvmcopy` gives the child pages of its own with the permissions and the contents of the pages of
the parent. From then on neither of the two sees what the other writes.
-/

namespace Xv6.VirtualMemory

open ByteBlocks Function PanicPrograms RadixTables TransitionRuns

variable {n : ℕ} {F : Type} {old new pt : PageTable F} {s t : Mem F} {sz v w : ℕ}

-- a sum over all page numbers is not to be unfolded
attribute [local irreducible] own userFrames Tree.tables

/-- No user page of one table shares its frame with a user page of the other. -/
def Apart (old new : PageTable F) : Prop :=
  ∀ v < trapframePage, ∀ w < trapframePage, ∀ f perm perm',
    leafAt old v = some ⟨.frame f, perm⟩ → leafAt new w ≠ some ⟨.frame f, perm'⟩

theorem Apart.symm (h : Apart old new) : Apart new old :=
  fun v hv w hw f perm perm' hf hf' => h w hw v hv f perm' perm hf' hf

theorem apart_of_nodup (h : (own old + own new).Nodup) : Apart old new := by
  intro v hv w hw f perm perm' hf hf'
  exact Multiset.disjoint_left.1 (Multiset.nodup_add.1 h).2.2 (mem_own hv hf) (mem_own hw hf')

/-- The child has the pages of the parent, in other frames. -/
structure Copied (old : PageTable F) (sz : ℕ) (s : Mem F) (new : PageTable F) (t : Mem F) : Prop where
  child : ∀ v < trapframePage, pageIn new t v = if v < pages sz then pageIn old s v else none
  parent : ∀ v < trapframePage, pageIn old t v = pageIn old s v
  apart : Apart old new

variable [DecidableEq F]

theorem uvmcopy_copies (hold : Users old (pages sz)) (hnew : Users new 0) (hfits : Fits new s)
    (hnodup : (own old + (own new + (s.freelist : Multiset F))).Nodup) :
    Ends (uvmcopy old new sz) s (fun r t =>
      Spared ∅ s t ∧ (r.2 = true → Copied old sz s r.1 t) ∧
      (r.2 = false → ∀ v < trapframePage, leafAt r.1 v = none)) (fun _ => False) := by
  have hdis : ∀ f ∈ own old, f ∉ own new + (s.freelist : Multiset F) :=
    fun f hf => Multiset.disjoint_left.1 (Multiset.nodup_add.1 hnodup).2.2 hf
  have hparent : ∀ f ∈ own old, f ∉ s.freelist := fun f hf hc => hdis f hf (Multiset.mem_add.2 (Or.inr hc))
  have hlast := trapframePage_lt
  have hmax := maxPage_le
  have htop := hold.le
  refine ((uvmcopy_ends hold hnew hfits).also
    (uvmcopy_contents hold hnew hfits (Multiset.nodup_add.1 hnodup).2.1 hparent)).imp ?_
  rintro r t ⟨halloc, hspared, hholds⟩
  refine ⟨hspared, fun hok => ?_, fun hfail v hv => ?_⟩
  · obtain ⟨hg, -⟩ := halloc.done hok
    have hcontent : ∀ v < trapframePage, ∀ f perm, leafAt old v = some ⟨.frame f, perm⟩ →
        t.content f = s.content f :=
      fun v hv f perm hf => hspared.content f (hparent f (mem_own hv hf)) (Set.notMem_empty f)
    refine ⟨fun v hv => ?_, fun v hv => pageIn_congr (hcontent v hv), ?_⟩
    · split
      · rename_i hlow
        obtain ⟨f, perm, hf, fo, hfo, -⟩ := hg.new v (Nat.zero_le v) hlow
        rw [pageIn, pageIn, hf, hfo, Option.map_some, Option.map_some, Mem.read, Mem.read,
          hholds hok v (Nat.zero_le v) hlow f perm hf, pageOf, hfo]
        rfl
      · rename_i hhigh
        rw [pageIn, hg.same v (by omega) (Or.inr (not_lt.1 hhigh)), hnew.high v (Nat.zero_le v) hv]
        rfl
    · apply apart_of_nodup
      have hall : (own old + (own r.1 + (t.freelist : Multiset F))).Nodup := by
        rw [halloc.own]
        exact hnodup
      rw [← add_assoc] at hall
      exact (Multiset.nodup_add.1 hall).1
  · rw [halloc.undone hfail v (by omega), hnew.high v (Nat.zero_le v) hv]

section Stores

variable {ι : Type} [DecidableEq ι] {tables : ι → PageTable F}

/-- A store of the user to an address. What it may not write to it leaves. -/
def Mem.store (s : Mem F) (pt : PageTable F) (va : ℕ) (b : Byte) : Mem F :=
  match userPage writable pt va with
  | none => s
  | some page => s.write page (va % pgSize) [b]

def Mem.stores (tables : ι → PageTable F) (s : Mem F) (ops : List (ι × ℕ × Byte)) : Mem F :=
  ops.foldl (fun s op => s.store (tables op.1) op.2.1 op.2.2) s

/-- What is read through a table depends on what has been stored through that table only. -/
def Isolated (tables : ι → PageTable F) : Prop :=
  ∀ (s : Mem F) (ops : List (ι × ℕ × Byte)) (i : ι) (va : ℕ),
    (s.stores tables ops).byte (tables i) va = (s.stores tables (ops.filter (·.1 = i))).byte (tables i) va

def Confined (pt : PageTable F) : Prop :=
  ∀ v < maxPage, ∀ leaf, leafAt pt v = some leaf → leaf.perm.u = true → v < trapframePage

omit [DecidableEq F] in
theorem Shape.confined {tf : F} {k : ℕ} {guard : Option ℕ} (h : Shape pt tf k guard) : Confined pt := by
  intro v hv leaf hleaf hu
  by_contra hge
  have hmax : maxPage = trampolinePage + 1 := by decide
  have heq := trampolinePage_eq
  obtain rfl | rfl : v = trapframePage ∨ v = trampolinePage := by omega
  · rw [h.trapframe] at hleaf
    cases hleaf
    cases hu
  · rw [h.trampoline] at hleaf
    cases hleaf
    cases hu

/-- The user pages hold the same in both memories. -/
def Agree (pt : PageTable F) (s t : Mem F) : Prop :=
  ∀ v < trapframePage, ∀ f perm, leafAt pt v = some ⟨.frame f, perm⟩ → s.content f = t.content f

omit [DecidableEq F] in
theorem Confined.userPage {ok : Perm → Bool} {va : ℕ} {page : Page F} (h : Confined pt)
    (hok : ∀ perm, ok perm = true → perm.u = true) (hp : userPage ok pt va = some page) :
    va / pgSize < trapframePage ∧ ∃ perm, leafAt pt (va / pgSize) = some ⟨page, perm⟩ := by
  obtain ⟨hlt, ⟨page, perm⟩, hleaf, hperm, rfl⟩ := userPage_eq_some.1 hp
  exact ⟨h _ (div_lt_maxPage hlt) _ hleaf (hok _ hperm), perm, hleaf⟩

omit [DecidableEq F] in
theorem Agree.byte (h : Agree pt s t) (hpt : Confined pt) (va : ℕ) : s.byte pt va = t.byte pt va := by
  rw [Mem.byte, Mem.byte]
  cases hp : userPage readable pt va with
  | none => rfl
  | some page =>
    obtain ⟨hlt, perm, hleaf⟩ := hpt.userPage (fun _ hu => hu) hp
    cases page with
    | trampoline => rfl
    | frame f => exact congrArg (fun c => some (c (va % pgSize))) (h _ hlt f perm hleaf)

theorem Agree.store (h : Agree pt s t) (hpt : Confined pt) (va : ℕ) (b : Byte) :
    Agree pt (s.store pt va b) (t.store pt va b) := by
  rw [Mem.store, Mem.store]
  cases hp : userPage writable pt va with
  | none => exact h
  | some page =>
    obtain ⟨hlt, perm, hleaf⟩ := hpt.userPage (fun _ => readable_of_writable) hp
    cases page with
    | trampoline => exact h
    | frame f =>
      intro w hw g perm' hg
      rw [Mem.content_write, Mem.content_write, h _ hlt f perm hleaf]
      by_cases hgf : g = f
      · rw [hgf, update_self, update_self]
      · rw [update_of_ne hgf, update_of_ne hgf]
        exact h w hw g perm' hg

theorem Agree.elsewhere (h : Agree pt s t) (hold : Confined old) (happart : Apart old pt) (va : ℕ) (b : Byte) :
    Agree pt (s.store old va b) t := by
  rw [Mem.store]
  cases hp : userPage writable old va with
  | none => exact h
  | some page =>
    obtain ⟨hlt, perm, hleaf⟩ := hold.userPage (fun _ => readable_of_writable) hp
    cases page with
    | trampoline => exact h
    | frame f =>
      intro w hw g perm' hg
      have hne : g ≠ f := by
        rintro rfl
        exact happart _ hlt w hw g perm perm' hleaf hg
      rw [Mem.content_write, update_of_ne hne]
      exact h w hw g perm' hg

theorem isolated (hpt : ∀ i, Confined (tables i)) (happart : ∀ i j, i ≠ j → Apart (tables i) (tables j)) :
    Isolated tables := by
  intro s ops i va
  suffices hagree : ∀ t : Mem F, Agree (tables i) s t →
      Agree (tables i) (s.stores tables ops) (t.stores tables (ops.filter (·.1 = i))) from
    (hagree s (fun _ _ _ _ _ => rfl)).byte (hpt i) va
  induction ops generalizing s with
  | nil => exact fun t h => h
  | cons op ops ih =>
    intro t h
    by_cases hi : op.1 = i
    · rw [List.filter_cons_of_pos (by simpa using hi)]
      refine ih _ _ ?_
      subst hi
      exact h.store (hpt _) _ _
    · rw [List.filter_cons_of_neg (by simpa using hi)]
      exact ih _ _ (h.elsewhere (hpt _) (happart _ _ hi) _ _)

def family (old new : PageTable F) (child : Bool) : PageTable F := if child then new else old

theorem Copied.isolated {tfo tf : F} {k k' : ℕ} {guard guard' : Option ℕ} (h : Copied old sz s new t)
    (hold : Shape old tfo k guard) (hnew : Shape new tf k' guard') : Isolated (family old new) := by
  apply VirtualMemory.isolated
  · rintro (_ | _)
    · exact hold.confined
    · exact hnew.confined
  · rintro (_ | _) (_ | _) hne
    · exact absurd rfl hne
    · exact h.apart
    · exact h.apart.symm
    · exact absurd rfl hne

end Stores

section Fork

variable {σ τ : State n F} {p np : Fin n} {m : Multiset F}

/-- The child is there, and the parent is as it was. -/
structure Forked (σ : State n F) (p np : Fin n) (τ : State n F) (old new : PageTable F) : Prop where
  unused : (σ.proc np).state = .unused
  parent : τ.proc p = σ.proc p
  table : (σ.proc p).pagetable = some old
  childTable : (τ.proc np).pagetable = some new
  size : (τ.proc np).sz = (σ.proc p).sz
  copied : Copied old (σ.proc p).sz σ.mem new τ.mem

/-- Nothing is left of a child that could not be made. -/
structure Unforked (σ : State n F) (p : Fin n) (τ : State n F) : Prop where
  procs : τ.proc = σ.proc
  freelist : (τ.mem.freelist : Multiset F) = (σ.mem.freelist : Multiset F)
  memory : ∀ v < trapframePage, pageAt τ p v = pageAt σ p v

omit [DecidableEq F] in
theorem Sound.nodup_two {q : Fin n} (h : Sound m none σ) (hm : m.Nodup) (hne : p ≠ q)
    (hpt : (σ.proc p).pagetable = some old) (hpt' : (σ.proc q).pagetable = some new) :
    (own old + (own new + (σ.mem.freelist : Multiset F))).Nodup := by
  refine Multiset.nodup_of_le ?_ hm
  have hproc : own old + own new ≤ ∑ q, (σ.proc q).own := by
    have hpair : ∑ x ∈ {p, q}, (σ.proc x).own ≤ ∑ x, (σ.proc x).own :=
      Finset.sum_le_sum_of_subset (Finset.subset_univ _)
    rw [Finset.sum_pair hne] at hpair
    refine le_trans (add_le_add ?_ ?_) hpair
    · rw [Proc.own, hpt]
      exact Multiset.le_add_left _ _
    · rw [Proc.own, hpt']
      exact Multiset.le_add_left _ _
  rw [← h.frames, State.frames, ← add_assoc, add_comm (own old + own new)]
  exact (Multiset.add_le_add_left hproc).trans (Multiset.le_add_right _ _)

omit [DecidableEq F] in
/-- All processes are as before, so the same frames are free. -/
theorem unforked (h : Sound m none σ) (hd : m.Nodup) (ht : Sound m none τ) (hproc : τ.proc = σ.proc)
    (hpipes : τ.pipes = σ.pipes) (hpt : (σ.proc p).pagetable = some old)
    (hspared : Spared {f | f ∈ σ.mem.freelist} σ.mem τ.mem) : Unforked σ p τ where
  procs := hproc
  freelist := by
    have hown := own_of_frames (p := p) h.frames ht.frames hpipes (fun q _ => by rw [hproc])
    rw [hproc] at hown
    exact add_right_cancel hown
  memory := by
    intro v hv
    refine pageAt_same hpt (by rw [hproc]; exact hpt) rfl ?_
    intro f perm hf
    have hfree := notMem_freelist (h.nodup hd hpt) hv hf
    exact hspared.content f hfree hfree

variable (hm : m.card ≤ maxFrames) (hd : m.Nodup)

include hm hd

theorem fork_memory (h : Sound m none σ) (hlive : (σ.proc p).state ≠ .unused) :
    Ends (fork p) σ (fun r τ => match r with
      | none => Unforked σ p τ
      | some np => ∃ old new, Forked σ p np τ old new ∧ Isolated (family old new)) (fun _ => False) := by
  obtain ⟨old, hold⟩ := h.live p (by rintro ⟨⟩) hlive
  rw [fork]
  refine ((allocproc_ends hm h).also (allocproc_spared h)).bind ?_
  rintro (_ | np) t ⟨ht, hspared, hpipes, hothers⟩
  · exact unforked h hd ht (funext (fun q => hothers q (by rintro ⟨⟩))) hpipes hold
      (hspared.mono (Set.empty_subset _))
  have hne : p ≠ np := by
    rintro rfl
    exact hlive ht.unused
  have hparent := ht.others p hne
  have holdt : (t.proc p).pagetable = some old := by
    rw [hparent]
    exact hold
  obtain ⟨tfo, -, hshapeo, -⟩ := ht.sound.table hm holdt
  obtain ⟨new, tf, hnew, htf, hshape, hshape0⟩ := ht.table hm
  have hcontent : ∀ v < trapframePage, pageIn old t.mem v = pageIn old σ.mem v := by
    intro v hv
    apply pageIn_congr
    intro f perm hf
    exact hspared.content f (notMem_freelist (h.nodup hd hold) hv hf) (Set.notMem_empty f)
  simp only [ends_bind, ends_get, holdt, hnew, onMem, ends_zoom, ends_modify, State.setProc]
  refine ((uvmcopy_copies hshapeo.users hshape0.users (ht.sound.fits hm hnew)
    (ht.sound.nodup_two hd hne holdt hnew)).also (uvmcopy_ends hshapeo.users hshape0.users
    (ht.sound.fits hm hnew))).imp ?_
  rintro ⟨new', ok⟩ u ⟨⟨hu, hcopied, -⟩, halloc⟩
  have hsu := hspared.trans hu
  refine ends_ite (fun hfail => ?_) (fun hok => ?_)
  · -- the copy is given back with the new process
    have hback : Shape new' tf (pages (t.proc np).sz) (t.proc np).guard := hshape.congr (halloc.undone hfail)
    have hsound := ht.sound.setTable (x := { t.proc np with pagetable := some new' }) hnew htf rfl htf rfl
      hback halloc.own
    have hempty := h.free np ht.unused
    have hown := own_of_frames (p := np) h.frames hsound.frames hpipes (fun q hq => by
      rw [← ht.others q hq]
      exact update_of_ne hq _ _)
    have hnone : (σ.proc np).own = 0 := by
      rw [hempty]
      rfl
    rw [hnone, add_zero] at hown
    simp only [ends_bind]
    refine ((freeproc_ends hm hsound.weaken).also
      (freeproc_spared (Z := {f | f ∈ σ.mem.freelist}) ?_ ?_)).imp ?_
    · intro f hf
      rw [Set.mem_ofPred, ← Multiset.mem_coe, ← hown]
      exact Multiset.mem_add.2 (Or.inr hf)
    · intro pt' hpt'
      obtain ⟨tf', -, hshape', hsz⟩ := hsound.table hm hpt'
      exact ⟨hshape'.users.le, hsz⟩
    · rintro _ τ ⟨⟨hτ, -⟩, hfreed, hpipes', hproc⟩
      refine unforked h hd hτ ?_ (hpipes'.trans hpipes) hold ((hsu.mono (by simp)).trans hfreed)
      rw [hproc, update_idem]
      funext q
      by_cases hq : q = np
      · rw [hq, update_self, hempty]
      · rw [update_of_ne hq, ht.others q hq]
  · simp only [ends_bind, ends_modify, ends_pure, update_self, update_idem,
      update_of_ne hne]
    have hcopy := hcopied (by simpa using hok)
    obtain ⟨hg, hle⟩ := halloc.done (by simpa using hok)
    refine ⟨old, new', ⟨ht.unused, ?_, hold, ?_, ?_, ?_⟩, hcopy.isolated hshapeo (hshape0.copy hshapeo hg hle)⟩
    · simp only [update_of_ne hne]
      exact hparent
    · simp only [update_self]
    · simp only [update_self]
      rw [hparent]
    · rw [hparent] at hcopy
      refine ⟨fun v hv => ?_, fun v hv => ?_, hcopy.apart⟩
      · rw [← hcontent v hv]
        exact hcopy.child v hv
      · rw [← hcontent v hv]
        exact hcopy.parent v hv

end Fork

/-- A copy of the memory of a parent, for any tables and any answers of `kalloc`. -/
structure Uvmcopy (old new : PageTable F) (sz : ℕ) (s : Mem F) (r : PageTable F × Bool) (t : Mem F) : Prop where
  copied : r.2 = true → Copied old sz s r.1 t ∧ Isolated (family old r.1)
  unmapped : r.2 = false → ∀ v < trapframePage, leafAt r.1 v = none
  frames : own r.1 + (t.freelist : Multiset F) = own new + (s.freelist : Multiset F)

theorem uvmcopy_isolates {tfo tf : F} {guard guard' : Option ℕ} (hold : Shape old tfo (pages sz) guard)
    (hnew : Shape new tf 0 guard') (hfits : Fits new s)
    (hnodup : (own old + (own new + (s.freelist : Multiset F))).Nodup) :
    Ends (uvmcopy old new sz) s (fun r t => Uvmcopy old new sz s r t) (fun _ => False) := by
  refine ((uvmcopy_copies hold.users hnew.users hfits hnodup).also
    (uvmcopy_ends hold.users hnew.users hfits)).imp ?_
  rintro r t ⟨⟨-, hcopied, hnone⟩, halloc⟩
  refine ⟨fun hok => ?_, hnone, halloc.own⟩
  obtain ⟨hg, hle⟩ := halloc.done hok
  exact ⟨hcopied hok, (hcopied hok).isolated hold (hnew.copy hold hg hle)⟩

/-- `fork` gives the child a copy of the memory, and the two do not share it. -/
theorem fork_copies {freelist : List F} {content : F → Block} {as : List (Action n F)} {σ : State n F} {p : Fin n}
    (hd : freelist.Nodup) (hm : freelist.length ≤ maxFrames)
    (run : Run step unguarded (start freelist content) as σ)
    (hlive : (σ.proc p).state = .used) (luck : List Bool) :
    (∃ r τ, fork p (σ.setLuck luck) = .ok (r, τ) ∧ match r with
      | none => Unforked σ p τ
      | some np => ∃ old new, Forked σ p np τ old new ∧ Isolated (family old new)) ∧
    ∀ (old new : PageTable F) (tfo tf : F) (guard guard' : Option ℕ) (sz : ℕ) (s : Mem F),
      Shape old tfo (pages sz) guard → Shape new tf 0 guard' → Fits new s →
      (own old + (own new + (s.freelist : Multiset F))).Nodup →
      ∃ r t, uvmcopy old new sz s = .ok (r, t) ∧ Uvmcopy old new sz s r t := by
  have hsound : Sound (freelist : Multiset F) none (σ.setLuck luck) := (run_sound hm run).setMem rfl
  have hused : ((σ.setLuck luck).proc p).state ≠ .unused := by
    change (σ.proc p).state ≠ .unused
    rw [hlive]
    nofun
  have hcard : (freelist : Multiset F).card ≤ maxFrames := hm
  have hnodup : (freelist : Multiset F).Nodup := hd
  constructor
  · obtain ⟨r, τ, hfork, hends⟩ := (fork_memory hcard hnodup hsound hused).exists_ok
    refine ⟨r, τ, hfork, ?_⟩
    cases r with
    | none => exact ⟨hends.procs, hends.freelist, hends.memory⟩
    | some np =>
      obtain ⟨old, new, hforked, hisolated⟩ := hends
      exact ⟨old, new, ⟨hforked.unused, hforked.parent, hforked.table, hforked.childTable, hforked.size,
        hforked.copied.child, hforked.copied.parent, hforked.copied.apart⟩, hisolated⟩
  · intro old new tfo tf guard guard' sz s hold hnew hfits hnodup
    exact (uvmcopy_isolates hold hnew hfits hnodup).exists_ok

/-- The first process has three pages; its first fork runs out of memory, the second makes a child. -/
theorem fork_copies_first : ∃ σ : State 2 (Fin 20),
    Run step unguarded (start (List.finRange 20) (fun _ => zeros))
      [.userinit, .call 0 [] (.sbrk 5000), .call 0 [false, false, false, false, false, true] .fork] σ ∧
    (σ.proc 0).sz = 9096 ∧ (σ.proc 1).state = .unused ∧
    ∃ τ old new, fork 0 (σ.setLuck []) = .ok (some 1, τ) ∧ Forked σ 0 1 τ old new ∧
      Isolated (family old new) := by
  obtain ⟨σ, run, hfacts⟩ : ∃ σ : State 2 (Fin 20),
      Run step unguarded (start (List.finRange 20) (fun _ => zeros))
        [.userinit, .call 0 [] (.sbrk 5000), .call 0 [false, false, false, false, false, true] .fork] σ ∧
      (σ.proc 0).state = .used ∧ (σ.proc 0).sz = 9096 ∧ (σ.proc 1).state = .unused ∧
      returns (fork 0) (σ.setLuck []) (fun r _ => r = some 1) = true :=
    exists_run (by decide +kernel)
  obtain ⟨hused, hsz, hunused, hreturns⟩ := hfacts
  obtain ⟨⟨r, τ, hfork, hends⟩, -⟩ := fork_copies (List.nodup_finRange 20) (by decide) run hused []
  obtain ⟨r', τ', hfork', hr⟩ := exists_of_returns hreturns
  rw [hfork'] at hfork
  cases hfork
  cases of_decide_eq_true hr
  obtain ⟨old, new, hforked, hisolated⟩ := hends
  exact ⟨σ, run, hsz, hunused, τ, old, new, hfork', hforked, hisolated⟩

end Xv6.VirtualMemory
