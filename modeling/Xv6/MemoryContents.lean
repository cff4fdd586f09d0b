import Xv6.PageTableMaps

/-!
# What the page table functions do to the contents of frames

Memory is written where it is allocated, freed or mapped for the user. `Spared Z` says that
nothing else has changed: only frames that were free, and frames in `Z`.
-/

namespace Xv6.VirtualMemory

open ByteBlocks Function PanicPrograms RadixTables

variable {F : Type} {pt pt' : PageTable F} {k n v sz : ℕ} {s t u : Mem F} {Z Z' : Set F} {tf f : F}

theorem trapframePage_lt : trapframePage < maxPage := by decide

structure Spared (Z : Set F) (s t : Mem F) : Prop where
  freelist : ∀ f ∈ t.freelist, f ∈ s.freelist ∨ f ∈ Z
  content : ∀ f, f ∉ s.freelist → f ∉ Z → t.content f = s.content f

theorem Spared.refl (Z : Set F) (s : Mem F) : Spared Z s s := ⟨fun _ hf => Or.inl hf, fun _ _ _ => rfl⟩

theorem Spared.trans (h : Spared Z s t) (h' : Spared Z t u) : Spared Z s u where
  freelist f hf := (h'.freelist f hf).elim (h.freelist f) Or.inr
  content f hs hZ := by
    have ht : f ∉ t.freelist := fun hf => (h.freelist f hf).elim hs hZ
    rw [h'.content f ht hZ, h.content f hs hZ]

theorem Spared.mono (h : Spared Z s t) (hZ : Z ⊆ Z') : Spared Z' s t where
  freelist f hf := (h.freelist f hf).imp_right (fun hz => hZ hz)
  content f hs hz := h.content f hs (fun hc => hz (hZ hc))

theorem Spared.shrink (h : Spared Z s t) (hZ : ∀ f ∈ Z, f ∈ s.freelist ∨ f ∈ Z') : Spared Z' s t where
  freelist f hf := (h.freelist f hf).elim Or.inl (hZ f)
  content f hs hz := h.content f hs (fun hc => (hZ f hc).elim hs hz)

/-- The user pages from `k` on are in `Z`. -/
def Within (Z : Set F) (k : ℕ) (pt : PageTable F) : Prop :=
  ∀ v, k ≤ v → v < trapframePage → ∀ f perm, leafAt pt v = some ⟨.frame f, perm⟩ → f ∈ Z

/-- Leaves are added whose frames are in `Z`, or taken away. -/
theorem Within.put {x : Option (Leaf F)} (h : Within Z k pt) (hfind : pt.find (digits 512 v) ≠ none)
    (hv : v < numPages) (hx : ∀ f perm, x = some ⟨.frame f, perm⟩ → f ∈ Z) :
    Within Z k (pt.put (digits 512 v) x) := by
  have hlast := trapframePage_lt
  have hmax := maxPage_le
  intro w hk hw f perm hf
  rw [leafAt_put hfind x hv (by omega)] at hf
  split at hf
  · exact hx f perm hf
  · exact h w hk hw f perm hf

/-- What is read in a page through a table. -/
def pageIn (pt : PageTable F) (s : Mem F) (v : ℕ) : Option (Perm × Block) :=
  (leafAt pt v).map (fun leaf => (leaf.perm, s.read leaf.page))

theorem pageIn_congr (h : ∀ f perm, leafAt pt v = some ⟨.frame f, perm⟩ → t.content f = s.content f) :
    pageIn pt t v = pageIn pt s v := by
  rw [pageIn, pageIn]
  cases hleaf : leafAt pt v with
  | none => rfl
  | some leaf =>
    obtain ⟨page, perm⟩ := leaf
    cases page with
    | trampoline => rfl
    | frame f => rw [Option.map_some, Option.map_some, Mem.read, Mem.read, h f perm hleaf]

-- a sum over all page numbers is not to be unfolded
attribute [local irreducible] own userFrames Tree.tables

theorem mem_own {perm : Perm} (hv : v < trapframePage) (hf : leafAt pt v = some ⟨.frame f, perm⟩) : f ∈ own pt := by
  rw [own, userFrames, Multiset.mem_add, Multiset.mem_sum]
  refine Or.inr ⟨v, Finset.mem_range.2 hv, ?_⟩
  rw [hf]
  exact Multiset.mem_singleton_self f

theorem notMem_freelist {perm : Perm} (hnodup : (own pt + (s.freelist : Multiset F)).Nodup)
    (hv : v < trapframePage) (hf : leafAt pt v = some ⟨.frame f, perm⟩) : f ∉ s.freelist :=
  Multiset.disjoint_left.1 (Multiset.nodup_add.1 hnodup).2.2 (mem_own hv hf)

theorem leaf_unique {w : ℕ} {perm perm' : Perm} (hnodup : (own pt).Nodup) (hv : v < trapframePage)
    (hw : w < trapframePage) (hf : leafAt pt v = some ⟨.frame f, perm⟩)
    (hf' : leafAt pt w = some ⟨.frame f, perm'⟩) : v = w := by
  by_contra hne
  have hpair : ∑ x ∈ {v, w}, leafFrames (leafAt pt x) ≤ userFrames pt := by
    rw [userFrames]
    refine Finset.sum_le_sum_of_subset ?_
    intro x hx
    rcases Finset.mem_insert.1 hx with rfl | hx
    · exact Finset.mem_range.2 hv
    · rw [Finset.mem_singleton.1 hx]
      exact Finset.mem_range.2 hw
  rw [Finset.sum_pair hne, hf, hf'] at hpair
  rw [own] at hnodup
  have htwo : ({f} + {f} : Multiset F).Nodup := Multiset.nodup_of_le hpair (Multiset.nodup_add.1 hnodup).2.1
  exact Multiset.disjoint_left.1 (Multiset.nodup_add.1 htwo).2.2 (Multiset.mem_singleton_self f)
    (Multiset.mem_singleton_self f)

variable [DecidableEq F]

theorem Mem.setContent_self {x : Block} (s : Mem F) (f : F) : (s.setContent f x).content f = x :=
  update_self ..

theorem Mem.setContent_of_ne {x : Block} {g : F} (h : g ≠ f) : (s.setContent f x).content g = s.content g :=
  update_of_ne h _ _

theorem spared_setContent {x : Block} (hf : f ∈ s.freelist ∨ f ∈ Z) : Spared Z s (s.setContent f x) where
  freelist g hg := Or.inl hg
  content g hs hZ := by
    apply Mem.setContent_of_ne
    rintro rfl
    exact hf.elim hs hZ

theorem spared_kalloc (s : Mem F) : Ends kalloc s (fun _ t => Spared ∅ s t) (fun _ => True) := by
  simp only [kalloc, ends_bind, ends_get, ends_modify]
  refine ends_ite (fun _ => ⟨fun _ hf => Or.inl hf, fun _ _ _ => rfl⟩) (fun _ => ?_)
  split
  · exact ⟨fun _ hf => Or.inl hf, fun _ _ _ => rfl⟩
  · rename_i f rest hlist
    constructor
    · intro g hg
      rw [hlist]
      exact Or.inl (List.mem_cons_of_mem f hg)
    · intro g hs _
      refine update_of_ne ?_ _ _
      rintro rfl
      rw [hlist] at hs
      exact hs List.mem_cons_self

theorem spared_kfree {page : Page F} (hZ : ∀ f, page = .frame f → f ∈ Z) (s : Mem F) :
    Ends (kfree page) s (fun _ t => Spared Z s t) (fun _ => True) := by
  cases page with
  | trampoline => trivial
  | frame f =>
    have hf := hZ f rfl
    constructor
    · intro g hg
      rcases List.mem_cons.1 hg with rfl | hg
      · exact Or.inr hf
      · exact Or.inl hg
    · intro g _ hg
      refine update_of_ne ?_ _ _
      rintro rfl
      exact hg hf

theorem spared_orTable {α : Type} (x : Option (Table 512 F α)) (s : Mem F) :
    Ends (orTable x) s (fun _ t => Spared ∅ s t) (fun _ => True) := by
  cases x with
  | some y => exact .refl ∅ s
  | none =>
    rw [orTable]
    refine (spared_kalloc s).bind ?_
    rintro (_ | f) t ht
    · exact ht
    · exact ht

theorem spared_walkAlloc (pt : PageTable F) (va : ℕ) (s : Mem F) :
    Ends (walkAlloc pt va) s (fun _ t => Spared ∅ s t) (fun _ => True) := by
  refine ends_ite (fun _ => trivial) (fun _ => ?_)
  refine (spared_orTable _ s).bind ?_
  rintro (_ | t1) t ht
  · exact ht
  · refine (spared_orTable _ t).bind ?_
    rintro (_ | t0) u hu
    · exact ht.trans hu
    · exact ht.trans hu

theorem spared_mapPages {perm : Perm} {pa : ℕ → Page F} {a : ℕ} (s : Mem F) :
    Ends (mapPages perm n pt a pa) s (fun _ t => Spared ∅ s t) (fun _ => True) := by
  induction n generalizing pt a pa s with
  | zero => exact .refl ∅ s
  | succ n ih =>
    rw [mapPages, ends_bind]
    refine (spared_walkAlloc pt a s).imp ?_
    rintro ⟨pt', ok⟩ t hspared
    refine ends_ite (fun _ => hspared) (fun hok => ?_)
    split
    · trivial
    · exact (ih t).imp (fun _ _ hu => hspared.trans hu)

theorem spared_mappages {perm : Perm} {pa : ℕ → Page F} {a size : ℕ} (s : Mem F) :
    Ends (mappages pt a size pa perm) s (fun _ t => Spared ∅ s t) (fun _ => True) := by
  refine ends_ite (fun _ => trivial) (fun _ => ?_)
  refine ends_ite (fun _ => trivial) (fun _ => ?_)
  exact ends_ite (fun _ => trivial) (fun _ => spared_mapPages s)

theorem spared_unmapPages {doFree : Bool} (h : Within Z k pt)
    (hv : doFree = true → k ≤ v ∧ v + n ≤ trapframePage) (s : Mem F) : Ends (unmapPages doFree n pt (v * pgSize)) s
      (fun pt' t => Spared Z s t ∧ Within Z k pt') (fun _ => True) := by
  induction n generalizing pt v s with
  | zero => exact ⟨.refl Z s, h⟩
  | succ n ih =>
    rw [unmapPages, ends_bind, walk]
    refine ends_ite (fun _ => trivial) (fun hlt => ?_)
    have hvn : v < numPages := by
      have hdiv : v * pgSize / pgSize < maxPage := Nat.div_lt_of_lt_mul (not_le.1 hlt)
      rw [Nat.mul_div_cancel _ (by decide)] at hdiv
      exact lt_of_lt_of_le hdiv maxPage_le
    rw [ends_pure, px_page]
    split
    · trivial
    · trivial
    · rename_i leaf hfind
      have hleaf : leafAt pt v = some leaf := Tree.value_of_find hfind
      have hput : Within Z k (pt.put (digits 512 v) none) :=
        h.put (by rw [hfind]; rintro ⟨⟩) hvn (fun _ _ hc => by cases hc)
      have haddr : v * pgSize + pgSize = (v + 1) * pgSize := by rw [Nat.succ_mul]
      have hnext : doFree = true → k ≤ v + 1 ∧ v + 1 + n ≤ trapframePage := by
        intro hd
        have hbound := hv hd
        omega
      refine ends_ite (fun _ => trivial) (fun _ => ?_)
      rw [haddr]
      refine ends_ite (fun hd => ?_) (fun _ => ih hput hnext s)
      refine (spared_kfree (Z := Z) ?_ s).bind ?_
      · intro f hf
        have hbound := hv hd
        obtain ⟨page, perm⟩ := leaf
        obtain rfl : page = .frame f := hf
        exact h v hbound.1 (by omega) f perm hleaf
      · intro _ t ht
        refine (ih hput hnext t).imp ?_
        intro pt' u hu
        exact ⟨ht.trans hu.1, hu.2⟩

theorem spared_uvmunmap {doFree : Bool} (h : Within Z k pt)
    (hv : doFree = true → k ≤ v ∧ v + n ≤ trapframePage) (s : Mem F) : Ends (uvmunmap pt (v * pgSize) n doFree) s
      (fun pt' t => Spared Z s t ∧ Within Z k pt') (fun _ => True) :=
  ends_ite (fun _ => trivial) (fun _ => spared_unmapPages h hv s)

/-- What is in the pages from `k₀` to `k`. -/
def Holds (B : ℕ → Block) (k₀ k : ℕ) (pt : PageTable F) (s : Mem F) : Prop :=
  ∀ v, k₀ ≤ v → v < k → ∀ f perm, leafAt pt v = some ⟨.frame f, perm⟩ → s.content f = B v

theorem Holds.succ {B : ℕ → Block} {k₀ : ℕ} {mem : F} {perm : Perm} (h : Holds B k₀ k pt s) (hk : k < trapframePage)
    (hnodup : (own pt + (s.freelist : Multiset F)).Nodup) (hfree : s.freelist = mem :: t.freelist)
    (ht : Spared ∅ s t) (hu : Spared ∅ (t.setContent mem (B k)) u)
    (hleaf : ∀ w < numPages, leafAt pt' w = if w = k then some ⟨.frame mem, perm⟩ else leafAt pt w) :
    Holds B k₀ (k + 1) pt' u := by
  have hlast := trapframePage_lt
  have hmax := maxPage_le
  intro v hv hv' f p hf
  have hold : f ∉ t.freelist → u.content f = (t.setContent mem (B k)).content f :=
    fun hft => hu.content f hft (Set.notMem_empty f)
  rw [hleaf v (by omega)] at hf
  split at hf
  · rename_i hvk
    cases hf
    have hlist := (Multiset.nodup_add.1 hnodup).2.1
    rw [hfree] at hlist
    rw [hold (List.nodup_cons.1 hlist).1, Mem.setContent_self, hvk]
  · have hfs := notMem_freelist hnodup (by omega) hf
    have hft : f ∉ t.freelist := by
      intro hc
      rw [hfree] at hfs
      exact hfs (List.mem_cons_of_mem mem hc)
    have hne : f ≠ mem := by
      rintro rfl
      rw [hfree] at hfs
      exact hfs List.mem_cons_self
    rw [hold hft, Mem.setContent_of_ne hne, ht.content f hfs (Set.notMem_empty f)]
    exact h v hv (by omega) f p hf

end Xv6.VirtualMemory
