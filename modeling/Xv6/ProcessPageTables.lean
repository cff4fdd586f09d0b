import Mathlib.Algebra.BigOperators.Fin
import Xv6.AddressSpaces
import Xv6.PageTableGrowth

/-!
# The page table of a process

Its shape: user pages from 0 on, the trapframe and the trampoline, and nothing else.
`proc_pagetable` makes such a table without user pages and `proc_freepagetable` gives all its
frames back.
-/

namespace Xv6.VirtualMemory

open ByteBlocks PanicPrograms RadixTables

variable {F : Type} {pt pt' : PageTable F} {k sz : ℕ} {s t : Mem F} {tf : F} {guard : Option ℕ}
  {E : Panic → Prop}

def trampolineLeaf : Leaf F := ⟨.trampoline, ⟨true, false, true, false⟩⟩

def trapframeLeaf (tf : F) : Leaf F := ⟨.frame tf, ⟨true, true, false, false⟩⟩

/-- A table with `k` user pages, of which only the guard page may be closed to the user. -/
structure Shape (pt : PageTable F) (tf : F) (k : ℕ) (guard : Option ℕ) : Prop where
  users : Users pt k
  open_ : ∀ v < k, ∀ leaf, leafAt pt v = some leaf → leaf.perm.u = true ∨ guard = some v
  trapframe : leafAt pt trapframePage = some (trapframeLeaf tf)
  trampoline : leafAt pt trampolinePage = some trampolineLeaf
  rest : ∀ v < numPages, trampolinePage < v → leafAt pt v = none

theorem trampolinePage_eq : trampolinePage = trapframePage + 1 := by decide

theorem trampolinePage_lt : trampolinePage < numPages := by decide

theorem Shape.congr (h : Shape pt tf k guard) (hsame : ∀ v < numPages, leafAt pt' v = leafAt pt v) :
    Shape pt' tf k guard := by
  have hlt := trampolinePage_lt
  have heq := trampolinePage_eq
  have hle := h.users.le
  refine ⟨⟨hle, fun v hv => ?_, fun v hv hv' => ?_⟩, fun v hv leaf hleaf => ?_, ?_, ?_, fun v hv hv' => ?_⟩
  · rw [hsame v (by omega)]
    exact h.users.low v hv
  · rw [hsame v (by omega)]
    exact h.users.high v hv hv'
  · rw [hsame v (by omega)] at hleaf
    exact h.open_ v hv leaf hleaf
  · rw [hsame _ (by omega)]
    exact h.trapframe
  · rw [hsame _ hlt]
    exact h.trampoline
  · rw [hsame v hv]
    exact h.rest v hv hv'

theorem Shape.grow {Q : ℕ → Perm → Prop} {k' : ℕ} {guard' : Option ℕ} (h : Shape pt tf k guard)
    (hg : Grown Q pt k pt' k') (hr : ∀ v perm, Q v perm → perm.r = true) (hk' : k' ≤ trapframePage)
    (hold : ∀ v < k, guard = some v → guard' = some v)
    (hu : ∀ v perm, k ≤ v → v < k' → Q v perm → perm.u = true ∨ guard' = some v) :
    Shape pt' tf k' guard' := by
  have hlt := trampolinePage_lt
  have heq := trampolinePage_eq
  refine ⟨hg.users h.users hr hk', fun v hv leaf hleaf => ?_, ?_, ?_, fun v hv hv' => ?_⟩
  · rcases lt_or_ge v k with hvk | hvk
    · rw [hg.same v (by omega) (Or.inl hvk)] at hleaf
      exact (h.open_ v hvk leaf hleaf).imp_right (hold v hvk)
    · obtain ⟨f, perm, hf, hQ⟩ := hg.new v hvk hv
      rw [hf] at hleaf
      cases hleaf
      exact hu v perm hvk hv hQ
  · rw [hg.same _ (by omega) (Or.inr hk')]
    exact h.trapframe
  · rw [hg.same _ hlt (Or.inr (by omega))]
    exact h.trampoline
  · rw [hg.same v hv (Or.inr (by omega))]
    exact h.rest v hv hv'

theorem Shape.shrink {k' : ℕ} (h : Shape pt tf k guard) (hk' : k' ≤ k)
    (hleaf : ∀ w < numPages, leafAt pt' w = if k' ≤ w ∧ w < k then none else leafAt pt w) :
    Shape pt' tf k' guard := by
  have hlt := trampolinePage_lt
  have heq := trampolinePage_eq
  have hle := h.users.le
  refine ⟨⟨by omega, fun v hv => ?_, fun v hv hv' => ?_⟩, fun v hv leaf hl => ?_, ?_, ?_, fun v hv hv' => ?_⟩
  · rw [hleaf v (by omega), if_neg (by omega)]
    exact h.users.low v (by omega)
  · rw [hleaf v (by omega)]
    split
    · rfl
    · exact h.users.high v (by omega) hv'
  · rw [hleaf v (by omega), if_neg (by omega)] at hl
    exact h.open_ v (by omega) leaf hl
  · rw [hleaf _ (by omega), if_neg (by omega)]
    exact h.trapframe
  · rw [hleaf _ hlt, if_neg (by omega)]
    exact h.trampoline
  · rw [hleaf v hv, if_neg (by omega)]
    exact h.rest v hv hv'

theorem value_eq_none (h : ∀ v < numPages, leafAt pt v = none) (x : Digits 512) : pt.value x = none := by
  obtain ⟨v, hv, rfl⟩ := digits_surj x
  exact h v hv

section Free

variable [DecidableEq F]

theorem freeTable_ends {α : Type} {g : α → Multiset F} {below : α → M F Unit} {x : Table 512 F α}
    (h : ∀ i y, x.entry i = some y → ∀ s, Ends (below y) s (fun _ t =>
      (t.freelist : Multiset F) = g y + (s.freelist : Multiset F)) E) (s : Mem F) :
    Ends (freeTable below x) s (fun _ t =>
      (t.freelist : Multiset F) = x.frames g + (s.freelist : Multiset F)) E := by
  have hsum := Fin.sum_univ_def (fun i => (x.entry i).elim 0 g)
  rw [freeTable, ends_bind]
  generalize List.finRange 512 = l at hsum ⊢
  -- the entries in `rest` are still to be freed
  refine (ends_forM (fun rest t => (t.freelist : Multiset F) +
      (rest.map (fun i => (x.entry i).elim 0 g)).sum =
      (l.map (fun i => (x.entry i).elim 0 g)).sum + (s.freelist : Multiset F)) l
    (add_comm _ _) ?_).imp ?_
  · intro i rest t ht
    rw [List.map_cons, List.sum_cons] at ht
    split
    · rename_i hi
      rw [hi, Option.elim_none, zero_add] at ht
      exact ht
    · rename_i y hi
      rw [hi, Option.elim_some] at ht
      refine (h i y hi t).imp ?_
      intro _ u hu
      rw [hu, add_comm (g y), add_assoc]
      exact ht
  · intro _ t ht
    rw [List.map_nil, List.sum_nil, add_zero] at ht
    refine (kfree_ends t x.frame).imp ?_
    intro _ u hu
    rw [show u.freelist = x.frame :: t.freelist from hu, coe_cons_eq, ht, Table.frames, hsum, add_assoc]

-- the loop over 512 entries is not to be unfolded
attribute [local irreducible] freeTable

theorem freewalk_ends (h : ∀ v < numPages, leafAt pt v = none) (s : Mem F) :
    Ends (freewalk pt) s (fun _ t => (t.freelist : Multiset F) = pt.tables + (s.freelist : Multiset F)) E := by
  have hleaf : ∀ {t0 : Table 512 F (Leaf F)}, (∀ k, t0.entry k = none) → ∀ s, Ends (freeTable freeLeaf t0) s
      (fun _ t => (t.freelist : Multiset F) = t0.frames (fun _ => 0) + (s.freelist : Multiset F)) E := by
    intro t0 ht0
    refine freeTable_ends (fun k leaf hk => ?_)
    rw [ht0 k] at hk
    cases hk
  rw [freewalk, Tree.tables]
  refine freeTable_ends (fun i t1 hi => freeTable_ends (fun j t0 hj => hleaf (fun k => ?_))) s
  have hnone := value_eq_none h (i, j, k)
  simpa only [Tree.value_eq, hi, below_some, hj] using hnone

omit [DecidableEq F] in
theorem own_of_users_zero (h : Users pt 0) : own pt = pt.tables := by
  have huser : userFrames pt = 0 := by
    refine Finset.sum_eq_zero (fun v hv => ?_)
    rw [h.high v (Nat.zero_le v) (Finset.mem_range.1 hv)]
    rfl
  rw [own, huser, add_zero]

theorem uvmfree_ends (h : Users pt (pages sz)) (hsz : sz + pgSize ≤ 2 ^ 64)
    (hrest : ∀ v < numPages, trapframePage ≤ v → leafAt pt v = none) (s : Mem F) :
    Ends (uvmfree pt sz) s (fun _ t => (t.freelist : Multiset F) = own pt + (s.freelist : Multiset F)) E := by
  have hle := h.le
  have hlast := trapframePage_lt
  rw [uvmfree]
  refine ends_ite (fun _ => ?_) (fun hzero => ?_)
  · rw [pgRoundUp_eq hsz, Nat.mul_div_cancel _ (by decide), ends_bind]
    have hunmap := uvmunmap_ends (v := 0) (n := pages sz) (E := E) (by omega) (h.mapped (by omega)) s
    rw [Nat.zero_mul] at hunmap
    refine hunmap.imp ?_
    intro pt' t hun
    have hnone : ∀ v < numPages, leafAt pt' v = none := by
      intro v hv
      rw [hun.leaves v hv]
      split
      · rfl
      · rcases lt_or_ge v trapframePage with hlt | hge
        · exact h.high v (by omega) hlt
        · exact hrest v hv hge
    refine (freewalk_ends hnone t).imp ?_
    intro _ u hu
    have hfreed := hun.freed rfl (by omega)
    have hzero : userFrames pt' = 0 := by
      refine Finset.sum_eq_zero (fun v hv => ?_)
      have hv' := Finset.mem_range.1 hv
      have hmax := maxPage_le
      rw [hnone v (by omega)]
      rfl
    rw [hzero, zero_add] at hfreed
    rw [hu, hun.tables, hfreed, own, add_assoc]
  · obtain rfl : sz = 0 := by omega
    have husers : Users pt 0 := h
    refine (freewalk_ends (fun v hv => ?_) s).imp ?_
    · rcases lt_or_ge v trapframePage with hlt | hge
      · exact husers.high v (Nat.zero_le v) hlt
      · exact hrest v hv hge
    · intro _ t ht
      rw [own_of_users_zero husers]
      exact ht

theorem uvmcreate_ends (s : Mem F) : Ends uvmcreate s (fun r t => match r with
    | none => t.freelist = s.freelist
    | some pt => (∀ v, leafAt pt v = none) ∧
      pt.tables + (t.freelist : Multiset F) = (s.freelist : Multiset F)) E := by
  rw [uvmcreate]
  refine (kalloc_ends s).bind ?_
  rintro (_ | f) t ht
  · exact ht
  · refine ⟨fun v => ?_, ?_⟩
    · rw [leafAt, Tree.value_eq]
      rfl
    · rw [show s.freelist = f :: t.freelist from ht, coe_cons_eq, Tree.tables, Table.frames_empty]

theorem trampoline_eq : trampoline = trampolinePage * pgSize := by decide

theorem trapframe_eq : trapframe = trapframePage * pgSize := by decide

theorem uvmfree_zero_ends (h : ∀ v < numPages, leafAt pt v = none) (s : Mem F) :
    Ends (uvmfree pt 0) s
      (fun _ t => (t.freelist : Multiset F) = pt.tables + (s.freelist : Multiset F)) E := by
  have hlast := trapframePage_lt
  have hmax := maxPage_le
  have husers : Users pt 0 :=
    ⟨Nat.zero_le _, fun v hv => absurd hv (Nat.not_lt_zero v), fun v _ hv => h v (by omega)⟩
  rw [← own_of_users_zero husers]
  exact uvmfree_ends husers (by decide) (fun v hv _ => h v hv) s

theorem procPagetable_ends (tf : F) (s : Mem F) : Ends (procPagetable tf) s (fun r t => match r with
    | none => (t.freelist : Multiset F) = (s.freelist : Multiset F)
    | some pt => Shape pt tf 0 none ∧ own pt + (t.freelist : Multiset F) = (s.freelist : Multiset F)) E := by
  have hlast := trapframePage_lt
  have hmax := maxPage_le
  have heq := trampolinePage_eq
  have htop : trampolinePage < maxPage := by decide
  rw [procPagetable]
  refine (uvmcreate_ends s).bind ?_
  rintro (_ | pt) t ht
  · exact congrArg _ (show t.freelist = s.freelist from ht)
  obtain ⟨hempty, hown⟩ := ht
  dsimp only
  rw [ends_bind, trampoline_eq]
  refine (mappages_ends htop (hempty _) _ _ t).imp ?_
  rintro ⟨pt₁, ok⟩ t₁ ⟨htables₁, hleaf₁⟩
  have hown₁ : pt₁.tables + (t₁.freelist : Multiset F) = (s.freelist : Multiset F) := htables₁.trans hown
  cases ok with
  | false =>
    refine ends_ite (fun _ => ?_) (fun hne => absurd rfl hne)
    refine (uvmfree_zero_ends (fun v hv => ?_) t₁).bind ?_
    · rw [hleaf₁ v hv, if_neg (fun hc => nomatch hc.1)]
      exact hempty v
    · intro _ u hu
      exact hu.trans hown₁
  | true =>
    have hleaf₁' : ∀ v < numPages, leafAt pt₁ v = if v = trampolinePage then some trampolineLeaf else none := by
      intro v hv
      rw [hleaf₁ v hv, hempty v]
      simp [trampolineLeaf]
    refine ends_ite (fun hne => nomatch hne) (fun _ => ?_)
    rw [ends_bind, trapframe_eq]
    refine (mappages_ends hlast ?_ _ _ t₁).imp ?_
    · rw [hleaf₁' _ (by omega), if_neg (by omega)]
    rintro ⟨pt₂, ok⟩ t₂ ⟨htables₂, hleaf₂⟩
    have hown₂ : pt₂.tables + (t₂.freelist : Multiset F) = (s.freelist : Multiset F) := htables₂.trans hown₁
    cases ok with
    | false =>
      have hleaf₂' : ∀ v < numPages, leafAt pt₂ v = if v = trampolinePage then some trampolineLeaf else none := by
        intro v hv
        rw [hleaf₂ v hv, if_neg (fun hc => nomatch hc.1), hleaf₁' v hv]
      refine ends_ite (fun _ => ?_) (fun hne => absurd rfl hne)
      rw [ends_bind]
      have hmapped : Mapped false pt₂ trampolinePage 1 := by
        intro w hw hw'
        obtain rfl : w = trampolinePage := by omega
        exact ⟨trampolineLeaf, by rw [hleaf₂' _ (by omega), if_pos rfl], rfl, nofun⟩
      refine (uvmunmap_ends (by omega) hmapped t₂).imp ?_
      intro pt₃ t₃ hun
      simp only [ends_bind, ends_pure]
      refine (uvmfree_zero_ends (fun v hv => ?_) t₃).imp ?_
      · rw [hun.leaves v hv, hleaf₂' v hv]
        split
        · rfl
        · rw [if_neg (by omega)]
      · intro _ u hu
        rw [hu, hun.tables, hun.kept rfl]
        exact hown₂
    | true =>
      have hleaf₂' : ∀ v < numPages, leafAt pt₂ v =
          if v = trapframePage then some (trapframeLeaf tf) else leafAt pt₁ v := by
        intro v hv
        rw [hleaf₂ v hv]
        simp [trapframeLeaf]
      have husers : Users pt₂ 0 := by
        refine ⟨Nat.zero_le _, fun v hv => absurd hv (Nat.not_lt_zero v), fun v _ hv => ?_⟩
        rw [hleaf₂' v (by omega), if_neg (by omega), hleaf₁' v (by omega), if_neg (by omega)]
      refine ends_ite (fun hne => nomatch hne) (fun _ => ?_)
      refine ⟨⟨husers, fun v hv => absurd hv (Nat.not_lt_zero v), ?_, ?_, fun v hv hv' => ?_⟩, ?_⟩
      · rw [hleaf₂' _ (by omega), if_pos rfl]
      · rw [hleaf₂' _ (by omega), if_neg (by omega), hleaf₁' _ (by omega), if_pos rfl]
      · rw [hleaf₂' v hv, if_neg (by omega), hleaf₁' v hv, if_neg (by omega)]
      · rw [own_of_users_zero husers]
        exact hown₂

theorem procFreepagetable_ends (h : Shape pt tf (pages sz) guard) (hsz : sz + pgSize ≤ 2 ^ 64) (s : Mem F) :
    Ends (procFreepagetable pt sz) s
      (fun _ t => (t.freelist : Multiset F) = own pt + (s.freelist : Multiset F)) E := by
  have hlast := trapframePage_lt
  have hmax := maxPage_le
  have heq := trampolinePage_eq
  have htop : trampolinePage < maxPage := by decide
  have hle := h.users.le
  rw [procFreepagetable, ends_bind, trampoline_eq, trapframe_eq]
  have hmapped : Mapped false pt trampolinePage 1 := by
    intro w hw hw'
    obtain rfl : w = trampolinePage := by omega
    exact ⟨_, h.trampoline, rfl, nofun⟩
  refine (uvmunmap_ends (by omega) hmapped s).imp ?_
  intro pt₁ t₁ hun₁
  have hmapped₁ : Mapped false pt₁ trapframePage 1 := by
    intro w hw hw'
    obtain rfl : w = trapframePage := by omega
    refine ⟨trapframeLeaf tf, ?_, rfl, nofun⟩
    rw [hun₁.leaves _ (by omega), if_neg (by omega)]
    exact h.trapframe
  refine (uvmunmap_ends (by omega) hmapped₁ t₁).bind ?_
  intro pt₂ t₂ hun₂
  -- below the trapframe nothing has changed, and from it on nothing is left
  have hlow : ∀ v < trapframePage, leafAt pt₂ v = leafAt pt v := by
    intro v hv
    rw [hun₂.leaves v (by omega), if_neg (by omega), hun₁.leaves v (by omega), if_neg (by omega)]
  have husers : Users pt₂ (pages sz) := by
    refine ⟨hle, fun v hv => ?_, fun v hv hv' => ?_⟩
    · rw [hlow v (by omega)]
      exact h.users.low v hv
    · rw [hlow v hv']
      exact h.users.high v hv hv'
  refine (uvmfree_ends husers hsz (fun v hv hv' => ?_) t₂).imp ?_
  · rw [hun₂.leaves v hv, hun₁.leaves v hv]
    split
    · rfl
    · split
      · rfl
      · exact h.rest v hv (by omega)
  · intro _ u hu
    rw [hu, hun₂.kept rfl, hun₁.kept rfl, own, own, hun₂.tables, hun₁.tables, userFrames_congr hlow]

end Free

end Xv6.VirtualMemory
