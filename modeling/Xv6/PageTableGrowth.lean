import Xv6.MemoryContents

/-!
# Growing and shrinking the memory of the user

`uvmalloc`, `uvmdealloc` and `uvmcopy` on a table whose user pages are those below some `k`.
Where memory runs out they leave the leaves as they found them. They write only frames that
were free.
-/

namespace Xv6.VirtualMemory

open ByteBlocks PanicPrograms RadixTables

variable {F : Type} {pt pt' pt₀ : PageTable F} {k k₀ n sz : ℕ} {s t : Mem F} {Z : Set F} {B : ℕ → Block}
  {Q : ℕ → Perm → Prop}
  {E : Panic → Prop}

-- a sum over all page numbers is not to be unfolded
attribute [local irreducible] own userFrames Tree.tables

def pages (sz : ℕ) : ℕ := (sz + (pgSize - 1)) / pgSize

theorem pgRoundUp_eq {sz : ℕ} (h : sz + pgSize ≤ 2 ^ 64) : pgRoundUp sz = pages sz * pgSize := by
  have hpos : 0 < pgSize := by decide
  have hsum : sz + pgSize - 1 = sz + (pgSize - 1) := by omega
  rw [pgRoundUp, pages, Nat.mod_eq_of_lt (by omega), hsum]

theorem pages_mul (k : ℕ) : pages (k * pgSize) = k := by
  rw [pages, Nat.add_comm, Nat.add_mul_div_right _ _ (by decide), Nat.div_eq_of_lt (by decide), zero_add]

theorem pages_mono {a b : ℕ} (h : a ≤ b) : pages a ≤ pages b := Nat.div_le_div_right (by omega)

theorem le_pages_mul (sz : ℕ) : sz ≤ pages sz * pgSize := by
  have h := Nat.div_add_mod (sz + (pgSize - 1)) pgSize
  have hlt := Nat.mod_lt (sz + (pgSize - 1)) (show 0 < pgSize by decide)
  rw [Nat.mul_comm] at h
  rw [pages]
  omega

/-- The user pages are those below `k`. -/
structure Users (pt : PageTable F) (k : ℕ) : Prop where
  le : k ≤ trapframePage
  low : ∀ v < k, ∃ f perm, leafAt pt v = some ⟨.frame f, perm⟩ ∧ perm.r = true
  high : ∀ v, k ≤ v → v < trapframePage → leafAt pt v = none

theorem Users.le_card (h : Users pt k) : k ≤ (userFrames pt).card := by
  have hsub : Finset.range k ⊆ Finset.range trapframePage := Finset.range_subset_range.2 h.le
  calc
    k = ∑ v ∈ Finset.range k, 1 := by simp
    _ = ∑ v ∈ Finset.range k, (leafFrames (leafAt pt v)).card := by
      refine Finset.sum_congr rfl (fun v hv => ?_)
      obtain ⟨f, perm, hf, -⟩ := h.low v (Finset.mem_range.1 hv)
      rw [hf]
      rfl
    _ ≤ ∑ v ∈ Finset.range trapframePage, (leafFrames (leafAt pt v)).card :=
      Finset.sum_le_sum_of_subset hsub
    _ = (userFrames pt).card := by rw [userFrames, Multiset.card_sum]

/-- There are no more frames than `PHYSTOP` allows. -/
def Fits (pt : PageTable F) (s : Mem F) : Prop := (own pt + (s.freelist : Multiset F)).card ≤ maxFrames

theorem Fits.of_eq (h : Fits pt s)
    (heq : own pt' + (t.freelist : Multiset F) = own pt + (s.freelist : Multiset F)) : Fits pt' t := by
  rw [Fits, heq]
  exact h

/-- Physical memory ends far below the trapframe. -/
theorem Users.lt_trapframe (h : Users pt k) (hfits : Fits pt s) : k < trapframePage := by
  have hk := h.le_card
  have hcard : (own pt + (s.freelist : Multiset F)).card ≤ maxFrames := hfits
  rw [own, Multiset.card_add, Multiset.card_add] at hcard
  have hmax : maxFrames < trapframePage := by decide
  omega

theorem Users.le_maxFrames (h : Users pt k) (hfits : Fits pt s) : k ≤ maxFrames := by
  have hk := h.le_card
  have hcard : (own pt + (s.freelist : Multiset F)).card ≤ maxFrames := hfits
  rw [own, Multiset.card_add, Multiset.card_add] at hcard
  omega

theorem Users.mapped (h : Users pt k) {v : ℕ} (hv : v + n ≤ k) : Mapped true pt v n := by
  intro w _ hw
  obtain ⟨f, perm, hf, hr⟩ := h.low w (by omega)
  exact ⟨_, hf, hr, fun _ => ⟨f, rfl⟩⟩

/-- Pages `k₀` to `k` have been added; `Q` says with which permissions. -/
structure Grown (Q : ℕ → Perm → Prop) (pt₀ : PageTable F) (k₀ : ℕ) (pt : PageTable F) (k : ℕ) : Prop where
  le : k₀ ≤ k
  same : ∀ v < numPages, v < k₀ ∨ k ≤ v → leafAt pt v = leafAt pt₀ v
  new : ∀ v, k₀ ≤ v → v < k → ∃ f perm, leafAt pt v = some ⟨.frame f, perm⟩ ∧ Q v perm

theorem Grown.refl (Q : ℕ → Perm → Prop) (pt : PageTable F) (k : ℕ) : Grown Q pt k pt k :=
  ⟨le_rfl, fun _ _ _ => rfl, fun v hv hv' => absurd hv (by omega)⟩

theorem Grown.users (h : Grown Q pt₀ k₀ pt k) (h₀ : Users pt₀ k₀) (hr : ∀ v perm, Q v perm → perm.r = true)
    (hk : k ≤ trapframePage) : Users pt k where
  le := hk
  low := by
    intro v hv
    rcases lt_or_ge v k₀ with hlt | hge
    · rw [h.same v (by have := trapframePage_lt; have := maxPage_le; omega) (Or.inl hlt)]
      exact h₀.low v hlt
    · obtain ⟨f, perm, hf, hQ⟩ := h.new v hge hv
      exact ⟨f, perm, hf, hr v perm hQ⟩
  high := by
    intro v hv hv'
    rw [h.same v (by have := trapframePage_lt; have := maxPage_le; omega) (Or.inr hv)]
    have := h.le
    exact h₀.high v (by omega) hv'

theorem Grown.congr (h : Grown Q pt₀ k₀ pt k) (hk : k ≤ numPages)
    (hsame : ∀ w < numPages, leafAt pt' w = leafAt pt w) : Grown Q pt₀ k₀ pt' k where
  le := h.le
  same := fun v hv hout => (hsame v hv).trans (h.same v hv hout)
  new := by
    intro v hv hv'
    rw [hsame v (by omega)]
    exact h.new v hv hv'

theorem Grown.succ (h : Grown Q pt₀ k₀ pt k) {f : F} {perm : Perm} (hQ : Q k perm)
    (hleaf : ∀ w < numPages, leafAt pt' w = if w = k then some ⟨.frame f, perm⟩ else leafAt pt w)
    (hk : k < numPages) : Grown Q pt₀ k₀ pt' (k + 1) where
  le := Nat.le_succ_of_le h.le
  same := by
    intro v hv hout
    have := h.le
    rw [hleaf v hv, if_neg (by omega)]
    exact h.same v hv (by omega)
  new := by
    intro v hv hv'
    rw [hleaf v (by omega)]
    by_cases hvk : v = k
    · exact ⟨f, perm, if_pos hvk, hvk ▸ hQ⟩
    · rw [if_neg hvk]
      exact h.new v hv (by omega)

variable [DecidableEq F]

theorem uvmdealloc_ends {oldsz newsz : ℕ} (h : Users pt (pages oldsz)) (hsz : oldsz + pgSize ≤ 2 ^ 64)
    (s : Mem F) : Ends (uvmdealloc pt oldsz newsz) s (fun r t =>
      own r.1 + (t.freelist : Multiset F) = own pt + (s.freelist : Multiset F) ∧
      r.2 = min oldsz newsz ∧
      ∀ w < numPages, leafAt r.1 w = if pages r.2 ≤ w ∧ w < pages oldsz then none else leafAt pt w) E := by
  refine ends_ite (fun hle => ?_) (fun hlt => ?_)
  · refine ⟨rfl, (Nat.min_eq_left hle).symm, fun w _ => ?_⟩
    dsimp only
    rw [if_neg (by omega)]
  · have hmin : newsz = min oldsz newsz := by omega
    have hnew : newsz + pgSize ≤ 2 ^ 64 := by omega
    rw [pgRoundUp_eq hsz, pgRoundUp_eq hnew]
    refine ends_ite (fun hlt' => ?_) (fun hge => ?_)
    · rw [← Nat.sub_mul, Nat.mul_div_cancel _ (by decide), ends_bind]
      have hle : pages newsz ≤ pages oldsz := pages_mono (by omega)
      have hsum : pages newsz + (pages oldsz - pages newsz) = pages oldsz := by omega
      have htop := h.le
      have hlast := trapframePage_lt
      refine (uvmunmap_ends (by omega) (h.mapped (by omega)) s).imp ?_
      intro pt' t hun
      refine ⟨?_, hmin, fun w hw => ?_⟩
      · have hfreed := hun.freed rfl (by omega)
        rw [own, own, hun.tables, add_assoc, hfreed, add_assoc]
      · rw [hun.leaves w hw, hsum]
    · have heq : pages newsz = pages oldsz := by
        have hle : pages newsz ≤ pages oldsz := pages_mono (by omega)
        have hge' : pages oldsz * pgSize ≤ pages newsz * pgSize := by omega
        exact le_antisymm hle (Nat.le_of_mul_le_mul_right hge' (by decide))
      refine ⟨rfl, hmin, fun w _ => ?_⟩
      dsimp only
      rw [if_neg (by omega)]

theorem spared_uvmdealloc {oldsz newsz : ℕ} (h : Within Z k pt) (hk : k ≤ pages newsz)
    (hle : pages oldsz ≤ trapframePage) (hsz : oldsz + pgSize ≤ 2 ^ 64) (s : Mem F) :
    Ends (uvmdealloc pt oldsz newsz) s
      (fun r t => Spared Z s t ∧ Within Z k r.1) (fun _ => True) := by
  refine ends_ite (fun _ => ⟨.refl Z s, h⟩) (fun hlt => ?_)
  rw [pgRoundUp_eq hsz, pgRoundUp_eq (by omega)]
  refine ends_ite (fun _ => ?_) (fun _ => ⟨.refl Z s, h⟩)
  have hmono : pages newsz ≤ pages oldsz := pages_mono (by omega)
  rw [← Nat.sub_mul, Nat.mul_div_cancel _ (by decide), ends_bind]
  exact spared_uvmunmap h (fun _ => ⟨hk, by omega⟩) s

theorem uvmdealloc_contents {oldsz newsz : ℕ} (h : Users pt (pages oldsz)) (hsz : oldsz + pgSize ≤ 2 ^ 64)
    (hnodup : (own pt + (s.freelist : Multiset F)).Nodup) : Ends (uvmdealloc pt oldsz newsz) s
      (fun _ t => ∀ v < pages newsz, ∀ f perm, leafAt pt v = some ⟨.frame f, perm⟩ → v < trapframePage →
        t.content f = s.content f) (fun _ => True) := by
  let Z : Set F := {f | ∃ v perm, pages newsz ≤ v ∧ v < trapframePage ∧ leafAt pt v = some ⟨.frame f, perm⟩}
  have hwithin : Within Z (pages newsz) pt := fun v hv hv' f perm hf => ⟨v, perm, hv, hv', hf⟩
  refine (spared_uvmdealloc hwithin le_rfl h.le hsz s).imp ?_
  rintro r t ⟨hspared, -⟩ v hv f perm hf hv'
  refine hspared.content f (notMem_freelist hnodup hv' hf) ?_
  rintro ⟨w, perm', hw, hw', hf'⟩
  have hvw := leaf_unique (Multiset.nodup_add.1 hnodup).1 hv' hw' hf hf'
  omega

theorem Grown.undo (h : Grown Q pt₀ k₀ pt k) (h₀ : Users pt₀ k₀) (hr : ∀ v perm, Q v perm → perm.r = true)
    (hk : k ≤ trapframePage) (s : Mem F) :
    Ends (uvmdealloc pt (k * pgSize) (k₀ * pgSize)) s (fun r t =>
      own r.1 + (t.freelist : Multiset F) = own pt + (s.freelist : Multiset F) ∧
      (∀ w < numPages, leafAt r.1 w = leafAt pt₀ w) ∧ ∀ Z : Set F, Within Z k₀ pt → Spared Z s t) E := by
  have husers : Users pt (pages (k * pgSize)) := by
    rw [pages_mul]
    exact h.users h₀ hr hk
  have hsz : k * pgSize + pgSize ≤ 2 ^ 64 := by
    have hmul := Nat.mul_le_mul_right pgSize hk
    have hconst : trapframePage * pgSize + pgSize ≤ 2 ^ 64 := by decide
    omega
  have hspared : ∀ Z : {Z : Set F // Within Z k₀ pt}, Ends (uvmdealloc pt (k * pgSize) (k₀ * pgSize)) s
      (fun _ t => Spared Z.1 s t) (fun _ => True) := by
    rintro ⟨Z, hw⟩
    exact (spared_uvmdealloc hw (by rw [pages_mul]) husers.le hsz s).imp (fun _ _ h => h.1)
  refine ((uvmdealloc_ends husers hsz s).alsoAll hspared).imp ?_
  rintro ⟨pt', sz⟩ t ⟨⟨hown, hsz', hleaf⟩, hkept⟩
  refine ⟨hown, fun w hw => ?_, fun Z hw => hkept ⟨Z, hw⟩⟩
  have hmin : sz = k₀ * pgSize := by
    have hmul := Nat.mul_le_mul_right pgSize h.le
    exact hsz'.trans (Nat.min_eq_right hmul)
  have hle := h.le
  rw [hleaf w hw]
  dsimp only
  rw [hmin, pages_mul, pages_mul]
  split
  · rename_i hin
    exact (h₀.high w hin.1 (by omega)).symm
  · rename_i hout
    exact h.same w hw (by omega)

/-- What `uvmalloc` and `uvmcopy` leave: the pages up to `k`, or what was there before. -/
structure Allocated (Q : ℕ → Perm → Prop) (pt₀ : PageTable F) (k₀ k : ℕ) (m : Multiset F)
    (r : PageTable F × Bool) (t : Mem F) : Prop where
  own : own r.1 + (t.freelist : Multiset F) = m
  done : r.2 = true → Grown Q pt₀ k₀ r.1 k ∧ k ≤ trapframePage
  undone : r.2 = false → ∀ w < numPages, leafAt r.1 w = leafAt pt₀ w

theorem mapNew_ends {perm : Perm} {mem : F} (h : Grown Q pt₀ k₀ pt k) (husers : Users pt k) (hQ : Q k perm)
    (hk : k < trapframePage) (hfree : s.freelist = mem :: t.freelist) :
    Ends (mappages pt (k * pgSize) pgSize (fun _ => .frame mem) perm) t (fun r u =>
      (r.2 = true → Grown Q pt₀ k₀ r.1 (k + 1) ∧
        own r.1 + (u.freelist : Multiset F) = own pt + (s.freelist : Multiset F)) ∧
      (r.2 = false → Grown Q pt₀ k₀ r.1 k ∧
        own r.1 + (mem :: u.freelist : List F) = own pt + (s.freelist : Multiset F))) E := by
  have hlast := trapframePage_lt
  have hmax := maxPage_le
  have hnone := husers.high k le_rfl hk
  refine (mappages_ends (by omega) hnone _ perm t).imp ?_
  rintro ⟨pt', ok⟩ u ⟨htables, hleaf⟩
  refine ⟨?_, ?_⟩
  · rintro rfl
    have hleaf' : ∀ w < numPages, leafAt pt' w = if w = k then some ⟨.frame mem, perm⟩ else leafAt pt w := by
      intro w hw
      simpa using hleaf w hw
    refine ⟨h.succ hQ hleaf' (by omega), ?_⟩
    rw [hfree, coe_cons_eq]
    exact own_of_map hk hnone htables hleaf'
  · rintro rfl
    have hsame : ∀ w < numPages, leafAt pt' w = leafAt pt w := by
      intro w hw
      simpa using hleaf w hw
    refine ⟨h.congr (by omega) hsame, ?_⟩
    rw [hfree, coe_cons_eq, coe_cons_eq, add_left_comm, own_of_same htables hsame, add_left_comm]

/-- The free frames and those of the pages from `k₀` on are in `Z`; the pages up to `k` hold `B`. -/
structure Filled (Z : Set F) (B : ℕ → Block) (k₀ k : ℕ) (pt : PageTable F) (s : Mem F) : Prop where
  nodup : (VirtualMemory.own pt + (s.freelist : Multiset F)).Nodup
  free : ∀ f ∈ s.freelist, f ∈ Z
  within : Within Z k₀ pt
  holds : Holds B k₀ k pt s

/-- A turn of the loops of `uvmalloc` and `uvmcopy`: a frame is allocated, given its contents `x` and
mapped, or everything is undone. -/
theorem newPage_ends {β : Type} {R : β → Mem F → Prop} {perm : Perm} (x : Mem F → Block)
    (next undo : PageTable F → M F β) (h : Grown Q pt₀ k₀ pt k) (husers : Users pt k) (hQ : Q k perm)
    (hk : k < trapframePage)
    (hnext : ∀ pt' u, Grown Q pt₀ k₀ pt' (k + 1) →
      own pt' + (u.freelist : Multiset F) = own pt + (s.freelist : Multiset F) →
      (∀ Z B, Filled Z B k₀ k pt s → (∀ t, Spared ∅ s t → x t = B k) →
        Spared Z s u ∧ Filled Z B k₀ (k + 1) pt' u) → Ends (next pt') u R E)
    (hundo : ∀ pt' u, Grown Q pt₀ k₀ pt' k →
      own pt' + (u.freelist : Multiset F) = own pt + (s.freelist : Multiset F) →
      (∀ Z : Set F, (∀ f ∈ s.freelist, f ∈ Z) → Within Z k₀ pt → Spared Z s u ∧ Within Z k₀ pt') →
      Ends (undo pt') u R E) :
    Ends (do
      match ← kalloc with
      | none => undo pt
      | some mem =>
        modify (fun s => s.setContent mem (x s))
        let (pt', ok) ← mappages pt (k * pgSize) pgSize (fun _ => .frame mem) perm
        if ok then next pt'
        else
          kfree (.frame mem)
          undo pt') s R E := by
  have hlast := trapframePage_lt
  have hmax := maxPage_le
  refine ((kalloc_ends s).also (spared_kalloc s)).bind ?_
  rintro (_ | mem) t ⟨ht, hspared⟩
  · exact hundo pt t h (by rw [show t.freelist = s.freelist from ht])
      (fun Z _ hw => ⟨hspared.mono (Set.empty_subset Z), hw⟩)
  have hlist : s.freelist = mem :: t.freelist := ht
  have hlist' : s.freelist = mem :: (t.setContent mem (x t)).freelist := hlist
  have hmem : mem ∈ s.freelist := by
    rw [hlist]
    exact List.mem_cons_self
  simp only [ends_bind, ends_modify]
  refine (((mapNew_ends h husers hQ hk hlist').also
    (mappages_ends (by omega) (husers.high k le_rfl hk) _ perm _)).also (spared_mappages _)).imp ?_
  rintro ⟨pt', ok⟩ u ⟨⟨⟨hdone, hback⟩, -, hleaf⟩, hu⟩
  have hkept : ∀ Z : Set F, (∀ f ∈ s.freelist, f ∈ Z) → Spared Z s u := by
    intro Z hfree
    exact ((hspared.mono (Set.empty_subset Z)).trans (spared_setContent (.inr (hfree mem hmem)))).trans
      (hu.mono (Set.empty_subset Z))
  have hwithin : ∀ Z : Set F, (∀ f ∈ s.freelist, f ∈ Z) → Within Z k₀ pt → Within Z k₀ pt' := by
    intro Z hfree hw v hv hv' f p hf
    rw [hleaf v (by omega)] at hf
    split at hf
    · cases hf
      exact hfree mem hmem
    · exact hw v hv hv' f p hf
  cases ok with
  | true =>
    obtain ⟨hg, hown⟩ := hdone rfl
    refine ends_ite (fun _ => hnext pt' u hg hown ?_) (fun hne => absurd rfl hne)
    intro Z B hfilled hx
    rw [hx t hspared] at hu
    have hsu := hkept Z hfilled.free
    refine ⟨hsu, by rw [hown]; exact hfilled.nodup, fun f hf => (hsu.freelist f hf).elim (hfilled.free f) id,
      hwithin Z hfilled.free hfilled.within, ?_⟩
    exact hfilled.holds.succ hk hfilled.nodup hlist hspared hu (fun w hw => by simpa using hleaf w hw)
  | false =>
    obtain ⟨hg, hown⟩ := hback rfl
    refine ends_ite (fun hne => by cases hne) (fun _ => ?_)
    simp only [ends_bind]
    refine ((kfree_ends u mem).also (spared_kfree (Z := {mem}) (fun _ hf => by cases hf; rfl) u)).imp ?_
    rintro _ v ⟨hv, hsv⟩
    refine hundo pt' v hg ?_ (fun Z hfree hw => ⟨(hkept Z hfree).trans (hsv.mono ?_), hwithin Z hfree hw⟩)
    · rw [show v.freelist = mem :: u.freelist from hv]
      exact hown
    · exact Set.singleton_subset_iff.2 (hfree mem hmem)

theorem uvmallocLoop_ends {perm : Perm} (h₀ : Users pt₀ k₀) (hr : perm.r = true)
    (h : Grown (fun _ p => p = perm) pt₀ k₀ pt k) (hk : k ≤ trapframePage) (hfits : Fits pt s) :
    Ends (uvmallocLoop (k₀ * pgSize) perm n pt (k * pgSize)) s (fun r t =>
      Allocated (fun _ p => p = perm) pt₀ k₀ (k + n) (own pt + (s.freelist : Multiset F)) r t ∧
      ∀ Z, Filled Z (fun _ => fill 0) k₀ k pt s →
        Spared Z s t ∧ (r.2 = true → Holds (fun _ => fill 0) k₀ (k + n) r.1 t)) E := by
  have hQ : ∀ (v : ℕ) (p : Perm), p = perm → p.r = true := fun _ p hp => hp ▸ hr
  induction n generalizing pt k s with
  | zero => exact ⟨⟨rfl, fun _ => ⟨h, hk⟩, by rintro ⟨⟩⟩, fun Z hf => ⟨.refl Z s, fun _ => hf.holds⟩⟩
  | succ n ih =>
    have husers := h.users h₀ hQ hk
    rw [uvmallocLoop]
    refine newPage_ends (fun _ => fill 0) (fun pt => uvmallocLoop (k₀ * pgSize) perm n pt (k * pgSize + pgSize))
      (fun pt => do
        let r ← uvmdealloc pt (k * pgSize) (k₀ * pgSize)
        pure (r.1, false)) h husers rfl (husers.lt_trapframe hfits) (fun pt' u hg hown hturn => ?_)
      (fun pt' u hg hown hkept => ?_)
    · have haddr : k * pgSize + pgSize = (k + 1) * pgSize := (Nat.succ_mul k pgSize).symm
      have hlt := husers.lt_trapframe hfits
      rw [haddr]
      refine (ih hg (by omega) (hfits.of_eq hown)).imp ?_
      rintro r v ⟨hv, hcontents⟩
      rw [hown, Nat.add_right_comm] at hv
      refine ⟨hv, fun Z hf => ?_⟩
      obtain ⟨hsu, hfu⟩ := hturn Z _ hf (fun _ _ => rfl)
      obtain ⟨huv, hzero⟩ := hcontents Z hfu
      rw [Nat.add_right_comm] at hzero
      exact ⟨hsu.trans huv, hzero⟩
    · refine (hg.undo h₀ hQ hk u).bind ?_
      rintro r v ⟨hown', hleaf, hback⟩
      refine ⟨⟨hown'.trans hown, by rintro ⟨⟩, fun _ => hleaf⟩, fun Z hf => ?_⟩
      obtain ⟨hsu, hw⟩ := hkept Z hf.free hf.within
      exact ⟨hsu.trans (hback Z hw), by rintro ⟨⟩⟩

/-- What `uvmalloc` leaves. -/
structure Resized (perm : Perm) (pt : PageTable F) (oldsz newsz : ℕ) (m : Multiset F) (r : PageTable F × ℕ)
    (t : Mem F) : Prop where
  own : own r.1 + (t.freelist : Multiset F) = m
  done : r.2 ≠ 0 → r.2 = max oldsz newsz ∧ pages r.2 ≤ trapframePage ∧
    Grown (fun _ p => p = perm) pt (pages oldsz) r.1 (pages r.2)
  undone : r.2 = 0 → ∀ v < numPages, leafAt r.1 v = leafAt pt v

theorem pages_add_turns {oldsz newsz : ℕ} (h : oldsz ≤ newsz) :
    pages oldsz + (newsz - pages oldsz * pgSize + pgSize - 1) / pgSize = pages newsz := by
  simp only [pages, pgSize]
  omega

theorem uvmalloc_ends {oldsz newsz : ℕ} {w x : Bool} (h : Users pt (pages oldsz))
    (hsz : oldsz + pgSize ≤ 2 ^ 64) (hfits : Fits pt s) : Ends (uvmalloc pt oldsz newsz w x) s (fun r t =>
      Resized (userPerm w x) pt oldsz newsz (own pt + (s.freelist : Multiset F)) r t) E := by
  refine ends_ite (fun hlt => ?_) (fun hge => ?_)
  · refine ⟨rfl, fun _ => ⟨?_, h.le, .refl ..⟩, fun h0 => ?_⟩
    · exact (max_eq_left hlt.le).symm
    · exact fun _ _ => rfl
  · simp only [ends_bind, ends_pure]
    rw [pgRoundUp_eq hsz]
    refine (uvmallocLoop_ends h rfl (.refl _ pt (pages oldsz)) h.le hfits).imp ?_
    rintro ⟨pt', ok⟩ t ⟨ht, -⟩
    rw [pages_add_turns (by omega)] at ht
    cases ok with
    | true =>
      obtain ⟨hg, hle⟩ := ht.done rfl
      refine ⟨ht.own, fun _ => ⟨(max_eq_right (show oldsz ≤ newsz by omega)).symm, hle, hg⟩, fun h0 => ?_⟩
      -- both sizes are 0
      have h0' : newsz = 0 := h0
      obtain rfl : oldsz = 0 := by omega
      subst h0'
      intro v hv
      exact hg.same v hv (Or.inr (Nat.zero_le v))
    | false => exact ⟨ht.own, fun hne => absurd rfl hne, fun _ => ht.undone rfl⟩

/-- `uvmalloc` writes only frames that were free, and the new pages are zero. -/
theorem uvmalloc_contents {oldsz newsz : ℕ} {w x : Bool} (h : Users pt (pages oldsz))
    (hsz : oldsz + pgSize ≤ 2 ^ 64) (hfits : Fits pt s) (hnodup : (own pt + (s.freelist : Multiset F)).Nodup) :
    Ends (uvmalloc pt oldsz newsz w x) s (fun r t => Spared ∅ s t ∧
      (r.2 ≠ 0 → Holds (fun _ => fill 0) (pages oldsz) (pages r.2) r.1 t)) (fun _ => True) := by
  refine ends_ite (fun _ => ⟨.refl ∅ s, fun _ v hv hv' => ?_⟩) (fun hge => ?_)
  · dsimp only at hv'
    omega
  · simp only [ends_bind, ends_pure]
    rw [pgRoundUp_eq hsz]
    have hnone : Within {f | f ∈ s.freelist} (pages oldsz) pt := by
      intro v hv hv' f perm hf
      rw [h.high v hv hv'] at hf
      cases hf
    refine (uvmallocLoop_ends h rfl (.refl _ pt (pages oldsz)) h.le hfits).imp ?_
    rintro ⟨pt', ok⟩ t ⟨-, hcontents⟩
    obtain ⟨hspared, hzero⟩ := hcontents _ ⟨hnodup, fun f hf => hf, hnone, fun v hv hv' => by omega⟩
    rw [pages_add_turns (by omega)] at hzero
    refine ⟨hspared.shrink (fun f hf => Or.inl hf), ?_⟩
    cases ok with
    | true => exact fun _ => hzero rfl
    | false => exact fun hne => absurd rfl hne

def PermOf (old : PageTable F) (v : ℕ) (perm : Perm) : Prop :=
  ∃ f, leafAt old v = some ⟨.frame f, perm⟩ ∧ perm.r = true

theorem Grown.unmap (h : Grown Q pt₀ 0 pt k) (h₀ : Users pt₀ 0) (hr : ∀ v perm, Q v perm → perm.r = true)
    (hk : k ≤ trapframePage) (s : Mem F) :
    Ends (uvmunmap pt 0 k true) s (fun pt' t =>
      own pt' + (t.freelist : Multiset F) = own pt + (s.freelist : Multiset F) ∧
      (∀ w < numPages, leafAt pt' w = leafAt pt₀ w) ∧ ∀ Z : Set F, Within Z 0 pt → Spared Z s t) E := by
  have hlast := trapframePage_lt
  have hspared : ∀ Z : {Z : Set F // Within Z 0 pt}, Ends (uvmunmap pt (0 * pgSize) k true) s
      (fun _ t => Spared Z.1 s t) (fun _ => True) := by
    rintro ⟨Z, hw⟩
    exact (spared_uvmunmap hw (fun _ => ⟨le_rfl, by omega⟩) s).imp (fun _ _ h => h.1)
  have hunmap := (uvmunmap_ends (v := 0) (n := k) (E := E) (by omega)
    ((h.users h₀ hr hk).mapped (by omega)) s).alsoAll hspared
  rw [Nat.zero_mul] at hunmap
  refine hunmap.imp ?_
  rintro pt' t ⟨hun, hkept⟩
  refine ⟨?_, fun w hw => ?_, fun Z hw => hkept ⟨Z, hw⟩⟩
  · rw [own, own, hun.tables, add_assoc, hun.freed rfl (by omega), add_assoc]
  · rw [hun.leaves w hw]
    split
    · exact (h₀.high w (Nat.zero_le w) (by omega)).symm
    · exact h.same w hw (Or.inr (by omega))

theorem uvmcopyLoop_ends {old : PageTable F} {K : ℕ} (hold : Users old K) (h₀ : Users pt₀ 0)
    (h : Grown (PermOf old) pt₀ 0 pt k) (hK : k + n = K) (hfits : Fits pt s) :
    Ends (uvmcopyLoop old n pt (k * pgSize)) s (fun r t =>
      Allocated (PermOf old) pt₀ 0 K (own pt + (s.freelist : Multiset F)) r t ∧
      ∀ Z B, Filled Z B 0 k pt s →
        (∀ v < K, ∀ f perm, leafAt old v = some ⟨.frame f, perm⟩ → f ∉ Z ∧ s.content f = B v) →
        Spared Z s t ∧ (r.2 = true → Holds B 0 K r.1 t)) E := by
  have hK' := hold.le
  have hQ : ∀ v p, PermOf old v p → p.r = true := fun _ _ ⟨_, _, hr⟩ => hr
  induction n generalizing pt k s with
  | zero =>
    obtain rfl : k = K := hK
    exact ⟨⟨rfl, fun _ => ⟨h, hK'⟩, nofun⟩, fun Z B hf _ => ⟨.refl Z s, fun _ => hf.holds⟩⟩
  | succ n ih =>
    obtain ⟨fo, perm, hleaf, hr⟩ := hold.low k (by omega)
    have hlast := trapframePage_lt
    rw [uvmcopyLoop, ends_bind, walk]
    refine ends_ite (fun hge => absurd (page_lt (v := k) (by omega)) (by omega)) (fun _ => ?_)
    simp only [ends_pure, px_page, Tree.find_of_value hleaf]
    refine newPage_ends (fun s => s.read (.frame fo)) (fun pt => uvmcopyLoop old n pt (k * pgSize + pgSize))
      (fun pt => do
        let pt ← uvmunmap pt 0 (k * pgSize / pgSize) true
        pure (pt, false)) h (h.users h₀ hQ (by omega)) ⟨fo, hleaf, hr⟩ (by omega)
      (fun pt' u hg hown hturn => ?_) (fun pt' u hg hown hkept => ?_)
    · have haddr : k * pgSize + pgSize = (k + 1) * pgSize := (Nat.succ_mul k pgSize).symm
      rw [haddr]
      refine (ih hg (by omega) (hfits.of_eq hown)).imp ?_
      rintro r v ⟨hv, hcontents⟩
      rw [hown] at hv
      refine ⟨hv, fun Z B hf hparent => ?_⟩
      -- The page of the parent is not the one that has been allocated.
      have hsame : ∀ {t : Mem F}, Spared Z s t → ∀ v < K, ∀ f perm, leafAt old v = some ⟨.frame f, perm⟩ →
          f ∉ Z ∧ t.content f = B v := by
        intro t ht v hv f p hp
        obtain ⟨hfZ, hB⟩ := hparent v hv f p hp
        exact ⟨hfZ, by rw [ht.content f (fun hc => hfZ (hf.free f hc)) hfZ, hB]⟩
      obtain ⟨hsu, hfu⟩ := hturn Z B hf
        (fun t ht => (hsame (ht.mono (Set.empty_subset Z)) k (by omega) fo perm hleaf).2)
      obtain ⟨huv, hcopy⟩ := hcontents Z B hfu (hsame hsu)
      exact ⟨hsu.trans huv, hcopy⟩
    · rw [Nat.mul_div_cancel _ (by decide)]
      refine (hg.unmap h₀ hQ (by omega) u).bind ?_
      rintro r v ⟨hown', hleaf', hback⟩
      refine ⟨⟨hown'.trans hown, by rintro ⟨⟩, fun _ => hleaf'⟩, fun Z B hf _ => ?_⟩
      obtain ⟨hsu, hw⟩ := hkept Z hf.free hf.within
      exact ⟨hsu.trans (hback Z hw), by rintro ⟨⟩⟩

theorem uvmcopy_ends {old : PageTable F} {sz : ℕ} (hold : Users old (pages sz)) (h₀ : Users pt 0)
    (hfits : Fits pt s) : Ends (uvmcopy old pt sz) s (fun r t =>
      Allocated (PermOf old) pt 0 (pages sz) (own pt + (s.freelist : Multiset F)) r t) E := by
  have hturns : (sz + pgSize - 1) / pgSize = pages sz := by simp only [pages, pgSize]; omega
  have hloop := uvmcopyLoop_ends (n := pages sz) (E := E) hold h₀ (.refl _ pt 0) (Nat.zero_add _) hfits
  rw [Nat.zero_mul] at hloop
  rw [uvmcopy, hturns]
  exact hloop.imp (fun _ _ h => h.1)

/-- What the parent has in a page. -/
def pageOf (pt : PageTable F) (s : Mem F) (v : ℕ) : Block :=
  (leafAt pt v).elim zeros (fun leaf => s.read leaf.page)

theorem uvmcopy_contents {old : PageTable F} (hold : Users old (pages sz)) (h₀ : Users pt 0) (hfits : Fits pt s)
    (hnodup : (own pt + (s.freelist : Multiset F)).Nodup) (hparent : ∀ f ∈ own old, f ∉ s.freelist) :
    Ends (uvmcopy old pt sz) s (fun r t => Spared ∅ s t ∧
      (r.2 = true → Holds (pageOf old s) 0 (pages sz) r.1 t)) (fun _ => True) := by
  have hturns : (sz + pgSize - 1) / pgSize = pages sz := by
    simp only [pages, pgSize]
    omega
  have hnone : Within {f | f ∈ s.freelist} 0 pt := by
    intro v hv hv' f perm hf
    rw [h₀.high v hv hv'] at hf
    cases hf
  have hle := hold.le
  have hloop := uvmcopyLoop_ends (n := pages sz) (E := fun _ => True) hold h₀ (.refl _ pt 0) (Nat.zero_add _) hfits
  rw [Nat.zero_mul] at hloop
  rw [uvmcopy, hturns]
  refine hloop.imp ?_
  rintro r t ⟨-, hcontents⟩
  obtain ⟨hspared, hcopy⟩ := hcontents _ (pageOf old s) ⟨hnodup, fun f hf => hf, hnone, fun v hv hv' => by omega⟩
    (fun v hv f perm hf => ⟨hparent f (mem_own (by omega) hf), by rw [pageOf, hf]; rfl⟩)
  exact ⟨hspared.shrink (fun f hf => Or.inl hf), hcopy⟩

end Xv6.VirtualMemory
