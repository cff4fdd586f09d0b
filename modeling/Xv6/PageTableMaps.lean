import Mathlib.Algebra.Order.BigOperators.Group.Finset
import Xv6.PageTables

/-!
# Page tables as maps

A page table maps page numbers to leaves. `own pt` is the multiset of the frames that belong
to it: its tables and the pages of the user. Every function keeps the frames: what a table has
more afterwards has left the free list.
-/

namespace Xv6.VirtualMemory

open ByteBlocks PanicPrograms RadixTables TransitionRuns

variable {F : Type}

def numPages : ℕ := 512 ^ 3

def trampolinePage : ℕ := trampoline / pgSize

def trapframePage : ℕ := trapframe / pgSize

def leafAt (pt : PageTable F) (v : ℕ) : Option (Leaf F) := pt.value (digits 512 v)

def Page.frames : Page F → Multiset F
  | .frame f => {f}
  | .trampoline => 0

def leafFrames (x : Option (Leaf F)) : Multiset F := x.elim 0 (fun leaf => leaf.page.frames)

/-- The pages of the user, which lie below the trapframe. -/
def userFrames (pt : PageTable F) : Multiset F := ∑ v ∈ Finset.range trapframePage, leafFrames (leafAt pt v)

def own (pt : PageTable F) : Multiset F := pt.tables + userFrames pt

variable {pt pt' : PageTable F} {v w : ℕ} {s t : Mem F} {E : Panic → Prop}

theorem leafAt_put (h : pt.find (digits 512 v) ≠ none) (x : Option (Leaf F)) (hv : v < numPages)
    (hw : w < numPages) : leafAt (pt.put (digits 512 v) x) w = if w = v then x else leafAt pt w := by
  rw [leafAt, Tree.value_put h]
  by_cases heq : w = v
  · rw [if_pos heq, if_pos (by rw [heq])]
  · rw [if_neg heq, if_neg (fun hd => heq (digits_inj hw hv hd))]
    rfl

theorem userFrames_congr (h : ∀ v < trapframePage, leafAt pt' v = leafAt pt v) :
    userFrames pt' = userFrames pt := by
  refine Finset.sum_congr rfl (fun v hv => ?_)
  rw [h v (Finset.mem_range.1 hv)]

theorem userFrames_update {x : Option (Leaf F)} (hv : v < trapframePage)
    (h : ∀ w < trapframePage, leafAt pt' w = if w = v then x else leafAt pt w) :
    userFrames pt' + leafFrames (leafAt pt v) = userFrames pt + leafFrames x := by
  have hnew : userFrames pt' =
      ∑ w ∈ Finset.range trapframePage, leafFrames (Function.update (leafAt pt) v x w) := by
    refine Finset.sum_congr rfl (fun w hw => ?_)
    rw [h w (Finset.mem_range.1 hw), Function.update_apply]
  rw [hnew]
  exact sum_update_mem (leafAt pt) leafFrames (Finset.mem_range.2 hv) x

theorem coe_cons_eq (f : F) (l : List F) : ((f :: l : List F) : Multiset F) = {f} + (l : Multiset F) := rfl

section Allocator

variable [DecidableEq F]

theorem kalloc_ends (s : Mem F) : Ends kalloc s (fun r t => match r with
    | none => t.freelist = s.freelist
    | some f => s.freelist = f :: t.freelist) E := by
  simp only [kalloc, ends_bind, ends_get, ends_modify]
  refine ends_ite (fun _ => rfl) (fun _ => ?_)
  cases h : s.freelist with
  | nil => rfl
  | cons f rest => rfl

theorem kfree_ends (s : Mem F) (f : F) :
    Ends (kfree (.frame f)) s (fun _ t => t.freelist = f :: s.freelist) E := rfl

theorem orTable_ends {α : Type} (x : Option (Table 512 F α)) (g : α → Multiset F) (s : Mem F) :
    Ends (orTable x) s (fun r t => match r with
      | none => t.freelist = s.freelist
      | some y => (∀ k, y.entry k = below x k) ∧
        y.frames g + (t.freelist : Multiset F) = x.elim 0 (Table.frames g) + (s.freelist : Multiset F)) E := by
  cases x with
  | some y => exact ⟨fun _ => rfl, rfl⟩
  | none =>
    rw [orTable]
    refine (kalloc_ends s).bind ?_
    rintro (_ | f) t ht
    · exact ht
    · refine ⟨fun _ => rfl, ?_⟩
      have hlist : s.freelist = f :: t.freelist := ht
      rw [Table.frames_empty, hlist, coe_cons_eq]
      exact (zero_add _).symm

theorem walkAlloc_ends {va : ℕ} (hva : va < maxVa) (pt : PageTable F) (s : Mem F) :
    Ends (walkAlloc pt va) s (fun r t => (∀ x, r.1.value x = pt.value x) ∧
      r.1.tables + (t.freelist : Multiset F) = pt.tables + (s.freelist : Multiset F) ∧
      (r.2 = true → r.1.find (px va) ≠ none)) E := by
  refine ends_ite (fun h => absurd h (by omega)) (fun _ => ?_)
  simp only [ends_bind]
  obtain ⟨i, j, k⟩ := px va
  refine (orTable_ends (pt.entry i) (Table.frames (fun _ => 0)) s).imp ?_
  rintro (_ | t1) t ht
  · refine ⟨fun _ => rfl, ?_, by rintro ⟨⟩⟩
    rw [show t.freelist = s.freelist from ht]
  obtain ⟨hentry, hframes⟩ := ht
  have hbelow : ∀ j k, below (t1.entry j) k = below (below (pt.entry i) j) k := by
    intro j k
    rw [hentry]
  simp only [ends_bind]
  refine (orTable_ends (t1.entry j) (fun _ => 0) t).imp ?_
  rintro (_ | t0) u hu
  · refine ⟨Tree.value_set hbelow, ?_, by rintro ⟨⟩⟩
    rw [show u.freelist = t.freelist from hu]
    exact Table.frames_set_grow hframes
  · obtain ⟨hentry0, hframes0⟩ := hu
    refine ⟨Tree.value_set (fun j' k => ?_), ?_, ?_⟩
    · rw [Tree.below_set hentry0, hbelow]
    · exact Table.frames_set_grow ((Table.frames_set_grow hframes0).trans hframes)
    · intro _
      simp [Tree.find, Table.entry_set]

def maxPage : ℕ := maxVa / pgSize

theorem px_page (v : ℕ) : px (v * pgSize) = digits 512 v := by
  rw [px, Nat.mul_div_cancel _ (by decide)]

theorem page_lt {v : ℕ} (hv : v < maxPage) : v * pgSize < maxVa := by
  have h : maxPage * pgSize = maxVa := by decide
  have hmul := (Nat.mul_lt_mul_right (show 0 < pgSize by decide)).2 hv
  omega

theorem maxPage_le : maxPage ≤ numPages := by decide

/-- `mappages` for one page: it is mapped, or no leaf has changed. -/
theorem mappages_ends {v : ℕ} (hv : v < maxPage) (hnone : leafAt pt v = none) (pa : ℕ → Page F)
    (perm : Perm) (s : Mem F) :
    Ends (mappages pt (v * pgSize) pgSize pa perm) s (fun r t =>
      r.1.tables + (t.freelist : Multiset F) = pt.tables + (s.freelist : Multiset F) ∧
      ∀ w < numPages, leafAt r.1 w = if r.2 = true ∧ w = v then some ⟨pa 0, perm⟩ else leafAt pt w) E := by
  have hvn : v < numPages := lt_of_lt_of_le hv maxPage_le
  refine ends_ite (fun h => absurd (Nat.mul_mod_left v pgSize) h) (fun _ => ?_)
  refine ends_ite (fun h => absurd (Nat.mod_self pgSize) h) (fun _ => ?_)
  refine ends_ite (fun h => absurd h (by decide)) (fun _ => ?_)
  rw [Nat.div_self (by decide), mapPages]
  refine (walkAlloc_ends (page_lt hv) pt s).bind ?_
  rintro ⟨pt', ok⟩ t ⟨hvalue, htables, hfind⟩
  have hleaf : ∀ w, leafAt pt' w = leafAt pt w := fun w => hvalue _
  cases ok with
  | false => exact ⟨htables, fun w _ => by simpa using hleaf w⟩
  | true =>
    rw [px_page] at hfind
    have hjoin : (pt'.find (digits 512 v)).join = none := (hleaf v).trans hnone
    refine ends_ite (fun h => nomatch h) (fun _ => ?_)
    simp only [px_page, hjoin, mapPages, ends_pure]
    refine ⟨by rw [Tree.tables_put]; exact htables, fun w hw => ?_⟩
    rw [leafAt_put (hfind rfl) _ hvn hw, hleaf w]
    simp

omit [DecidableEq F] in
theorem own_of_map {v : ℕ} {f : F} {perm : Perm} (hv : v < trapframePage) (hnone : leafAt pt v = none)
    {m m' : Multiset F} (htables : pt'.tables + m' = pt.tables + m)
    (hleaf : ∀ w < numPages, leafAt pt' w = if w = v then some ⟨.frame f, perm⟩ else leafAt pt w) :
    own pt' + m' = own pt + ({f} + m) := by
  have hle : trapframePage ≤ numPages := by decide
  have huser := userFrames_update hv (fun w hw => hleaf w (lt_of_lt_of_le hw hle))
  rw [hnone] at huser
  change userFrames pt' + 0 = userFrames pt + {f} at huser
  rw [add_zero] at huser
  rw [own, own, huser]
  calc
    pt'.tables + (userFrames pt + {f}) + m' = pt'.tables + m' + (userFrames pt + {f}) := by abel
    _ = pt.tables + userFrames pt + ({f} + m) := by rw [htables]; abel

omit [DecidableEq F] in
theorem own_of_same {m m' : Multiset F} (htables : pt'.tables + m' = pt.tables + m)
    (hleaf : ∀ w < numPages, leafAt pt' w = leafAt pt w) : own pt' + m' = own pt + m := by
  have hle : trapframePage ≤ numPages := by decide
  rw [own, own, userFrames_congr (fun w hw => hleaf w (lt_of_lt_of_le hw hle)), add_right_comm, htables,
    add_right_comm]

/-- What `uvmunmap` needs of the pages that it unmaps. -/
def Mapped (doFree : Bool) (pt : PageTable F) (v n : ℕ) : Prop :=
  ∀ w, v ≤ w → w < v + n → ∃ leaf, leafAt pt w = some leaf ∧ leaf.perm.r = true ∧
    (doFree = true → ∃ f, leaf.page = .frame f)

/-- What `uvmunmap` leaves. -/
structure Unmapped (doFree : Bool) (pt : PageTable F) (v n : ℕ) (s : Mem F) (pt' : PageTable F) (t : Mem F) :
    Prop where
  tables : pt'.tables = pt.tables
  leaves : ∀ w < numPages, leafAt pt' w = if v ≤ w ∧ w < v + n then none else leafAt pt w
  freed : doFree = true → v + n ≤ trapframePage →
    userFrames pt' + (t.freelist : Multiset F) = userFrames pt + (s.freelist : Multiset F)
  kept : doFree = false → t.freelist = s.freelist

theorem unmapPages_ends {doFree : Bool} {n : ℕ} (hv : v + n ≤ maxPage) (h : Mapped doFree pt v n) (s : Mem F) :
    Ends (unmapPages doFree n pt (v * pgSize)) s (fun pt' t => Unmapped doFree pt v n s pt' t) E := by
  induction n generalizing pt v s with
  | zero =>
    refine ⟨rfl, fun w _ => ?_, fun _ _ => rfl, fun _ => rfl⟩
    rw [if_neg (by omega)]
  | succ n ih =>
    obtain ⟨leaf, hleaf, hr, hpage⟩ := h v le_rfl (by omega)
    have hvn : v < numPages := lt_of_lt_of_le (by omega) maxPage_le
    have hfind := Tree.find_of_value hleaf
    rw [unmapPages, ends_bind, walk]
    refine ends_ite (fun hge => absurd (page_lt (v := v) (by omega)) (by omega)) (fun _ => ?_)
    simp only [ends_pure, px_page, hfind]
    refine ends_ite (fun hperm => by rw [hperm] at hr; cases hr) (fun _ => ?_)
    -- the table after this page
    have hput : ∀ w < numPages, leafAt (pt.put (digits 512 v) none) w = if w = v then none else leafAt pt w :=
      fun w hw => leafAt_put (by rw [hfind]; rintro ⟨⟩) none hvn hw
    have hnext : Mapped doFree (pt.put (digits 512 v) none) (v + 1) n := by
      intro w hw hw'
      have hwn : w < numPages := lt_of_lt_of_le (by omega) maxPage_le
      rw [hput w hwn, if_neg (by omega)]
      exact h w (by omega) (by omega)
    have haddr : v * pgSize + pgSize = (v + 1) * pgSize := by rw [Nat.succ_mul]
    have hrest : ∀ {u u' : Mem F} {pt' : PageTable F},
        Unmapped doFree (pt.put (digits 512 v) none) (v + 1) n u pt' u' →
        (doFree = true → (u.freelist : Multiset F) = leafFrames (some leaf) + (s.freelist : Multiset F)) →
        (doFree = false → u.freelist = s.freelist) → Unmapped doFree pt v (n + 1) s pt' u' := by
      intro u u' pt' hun hu hk
      refine ⟨hun.tables.trans (Tree.tables_put ..), fun w hw => ?_, fun hd hle => ?_, fun hd => ?_⟩
      · rw [hun.leaves w hw, hput w hw]
        by_cases hwv : w = v
        · simp [hwv]
        · by_cases hin : v + 1 ≤ w ∧ w < v + 1 + n
          · rw [if_pos hin, if_pos (by omega)]
          · rw [if_neg hin, if_neg hwv, if_neg (by omega)]
      · have hle' : trapframePage ≤ numPages := by decide
        have huser := userFrames_update (v := v) (x := none) (by omega)
          (fun w hw => hput w (lt_of_lt_of_le hw hle'))
        rw [hleaf] at huser
        rw [hun.freed hd (by omega), hu hd, ← add_assoc, huser]
        exact congrArg (· + (s.freelist : Multiset F)) (add_zero _)
      · rw [hun.kept hd, hk hd]
    cases doFree with
    | true =>
      obtain ⟨f, hf⟩ := hpage rfl
      rw [hf, if_pos rfl]
      refine (kfree_ends s f).bind ?_
      intro _ u hu
      rw [haddr]
      refine (ih (by omega) hnext u).imp ?_
      intro pt' u' hun
      refine hrest hun (fun _ => ?_) (by rintro ⟨⟩)
      rw [show u.freelist = f :: s.freelist from hu, coe_cons_eq, leafFrames, Option.elim_some, hf]
      rfl
    | false =>
      rw [if_neg (by rintro ⟨⟩), haddr]
      refine (ih (by omega) hnext s).imp ?_
      intro pt' u' hun
      exact hrest hun (by rintro ⟨⟩) (fun _ => rfl)

theorem uvmunmap_ends {doFree : Bool} {n : ℕ} (hv : v + n ≤ maxPage) (h : Mapped doFree pt v n) (s : Mem F) :
    Ends (uvmunmap pt (v * pgSize) n doFree) s (fun pt' t => Unmapped doFree pt v n s pt' t) E :=
  ends_ite (fun hne => absurd (Nat.mul_mod_left v pgSize) hne) (fun _ => unmapPages_ends hv h s)

end Allocator

end Xv6.VirtualMemory
