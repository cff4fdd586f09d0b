import Mathlib.Data.Finset.Card
import Mathlib.Data.Finset.Union
import Xv6.BlockAllocation

/-!
# Growing a file

`balloc` finds a block as long as one is free, so `bmap` fills the places of a block that is
not there if enough blocks are free. What was in the file before stays, and what is new is zero.
-/

namespace Xv6.FileSystem

open ByteBlocks Function PanicPrograms SlotOwnership

variable {sb : Superblock} {s t u : FS} {i j k b bn off n : ℕ} {P Q : Finset ℕ} {E : Panic → Prop}

def FS.free (sb : Superblock) (s : FS) : Finset ℕ :=
  (Finset.range sb.size).filter (fun b => s.bitmap b = false)

/-- The places among `P` where inode `i` has no block. -/
def FS.missing (s : FS) (i : ℕ) (P : Finset ℕ) : Finset ℕ :=
  P.filter (fun l => place s.data (s.body i) l = 0)

/-- The places of block `bn` of the content. -/
def blockPlaces (bn : ℕ) : Finset ℕ := if bn < nDirect then {bn} else {nDirect, contentPlace bn}

/-- The places of the blocks that the positions from `off` to `off + n` are in. -/
def rangePlaces (off n : ℕ) : Finset ℕ :=
  (Finset.range n).biUnion (fun q => blockPlaces ((off + q) / bSize))

theorem FS.mem_free : b ∈ s.free sb ↔ b < sb.size ∧ s.bitmap b = false := by
  rw [FS.free, Finset.mem_filter, Finset.mem_range]

theorem FS.card_missing_mono (h : P ⊆ Q) : (s.missing i P).card ≤ (s.missing i Q).card :=
  Finset.card_le_card (Finset.filter_subset_filter _ h)

/-- Inode `i` has got blocks at those of the places `P` where it had none, from the free
ones. The other places, and those of the other inodes, are as they were. -/
structure Filled (sb : Superblock) (i : ℕ) (P : Finset ℕ) (s t : FS) : Prop where
  present : ∀ l ∈ P, place t.data (t.body i) l ≠ 0
  kept : ∀ l, l ∉ P ∨ place s.data (s.body i) l ≠ 0 →
    place t.data (t.body i) l = place s.data (s.body i) l
  count : (t.free sb).card + (s.missing i P).card = (s.free sb).card
  other : ∀ j ≠ i, j < sb.ninodes → (s.current j).type ≠ .none → ∀ l,
    place t.data (t.current j) l = place s.data (s.current j) l

namespace Filled

theorem refl (h : ∀ l ∈ P, place s.data (s.body i) l ≠ 0) : Filled sb i P s s where
  present := h
  kept := fun _ _ => rfl
  count := by
    have hempty : s.missing i P = ∅ := Finset.filter_eq_empty_iff.2 h
    rw [hempty, Finset.card_empty, Nat.add_zero]
  other := fun _ _ _ _ _ => rfl

theorem missing (h : Filled sb i P s t) : t.missing i Q = (s.missing i Q) \ P := by
  ext l
  simp only [FS.missing, Finset.mem_filter, Finset.mem_sdiff]
  by_cases hl : l ∈ P
  · simp [hl, h.present l hl]
  · simp [hl, h.kept l (.inl hl)]

theorem count_union (h : Filled sb i P s t) :
    (s.missing i P).card + (t.missing i Q).card = (s.missing i (P ∪ Q)).card := by
  have hunion : s.missing i (P ∪ Q) = s.missing i P ∪ t.missing i Q := by
    rw [h.missing, FS.missing, FS.missing, FS.missing, Finset.filter_union]
    ext l
    simp only [Finset.mem_union, Finset.mem_sdiff, Finset.mem_filter]
    tauto
  have hdisjoint : Disjoint (s.missing i P) (t.missing i Q) := by
    rw [h.missing]
    exact Finset.disjoint_sdiff.mono_left (Finset.filter_subset _ _)
  rw [hunion, Finset.card_union_of_disjoint hdisjoint]

theorem trans (h : Filled sb i P s t) (h' : Filled sb i Q t u)
    (htype : ∀ j, (t.current j).type = (s.current j).type) : Filled sb i (P ∪ Q) s u where
  present := by
    intro l hl
    by_cases hQ : l ∈ Q
    · exact h'.present l hQ
    · have hP : l ∈ P := (Finset.mem_union.1 hl).resolve_right hQ
      rw [h'.kept l (.inl hQ)]
      exact h.present l hP
  kept := by
    intro l hl
    rcases hl with hl | hl
    · rw [Finset.mem_union, not_or] at hl
      rw [h'.kept l (.inl hl.2), h.kept l (.inl hl.1)]
    · have hst := h.kept l (.inr hl)
      rw [h'.kept l (.inr (by rwa [hst])), hst]
  count := by
    have h1 := h.count
    have h2 := h'.count
    have h3 := h.count_union (Q := Q)
    omega
  other := by
    intro j hne hj hjtype l
    rw [h'.other j hne hj (by rwa [htype j]) l, h.other j hne hj hjtype l]

end Filled

theorem Assigned.body_self {a : ℕ → ℕ} (h : Assigned i k b a s t) :
    t.body i = { s.body i with addrs := a } := by
  simp only [FS.body, h.inode]
  exact FS.body_setBody_self

theorem Assigned.place_self {a : ℕ → ℕ} (h : Assigned i k b a s t) :
    FileSystem.place t.data (t.body i) k = b := by
  rw [h.body_self, h.place, update_self]

theorem Assigned.free {a : ℕ → ℕ} (h : Assigned i k b a s t) : t.free sb = (s.free sb).erase b := by
  ext c
  rw [Finset.mem_erase, FS.mem_free, FS.mem_free, h.bitmap]
  rcases eq_or_ne c b with rfl | hne
  · simp
  · simp [hne]

theorem Assigned.filled {a : ℕ → ℕ} (h : Assigned i k b a s t) (hB : Blocks sb s) (hl : s.live i)
    (hi : i < sb.ninodes) (htype : (s.body i).type ≠ .none) (hb : Unused sb s b) :
    Filled sb i {k} s t where
  present := by
    intro l hlk
    obtain rfl := Finset.mem_singleton.1 hlk
    rw [h.place_self]
    exact hb.ne_zero
  kept := by
    intro l hlk
    have hne : l ≠ k := by
      rintro rfl
      exact hlk.elim (fun hc => hc (Finset.mem_singleton_self l)) (fun hc => hc h.empty)
    rw [h.body_self, h.place, update_of_ne hne]
  count := by
    have hmissing : s.missing i {k} = {k} := by
      rw [FS.missing, Finset.filter_singleton, if_pos h.empty]
    rw [h.free, hmissing, Finset.card_singleton]
    exact Finset.card_erase_add_one (FS.mem_free.2 ⟨hb.range.2, hb.bit⟩)
  other := by
    intro j hne hj hjtype l
    rw [h.current hl, update_of_ne hne]
    exact h.place_other hB hl hi htype hb hne hj hjtype l

theorem not_enough (hfull : ∀ b < sb.size, s.bitmap b = true) (hk : k ∈ P)
    (hempty : place s.data (s.body i) k = 0) : ¬ (s.missing i P).card ≤ (s.free sb).card := by
  have hmem : k ∈ s.missing i P := Finset.mem_filter.2 ⟨hk, hempty⟩
  have hnone : s.free sb = ∅ := by
    refine Finset.eq_empty_of_forall_notMem (fun c hc => ?_)
    obtain ⟨hlt, hbit⟩ := FS.mem_free.1 hc
    rw [hfull c hlt] at hbit
    cases hbit
  rw [hnone, Finset.card_empty, not_le]
  exact Finset.card_pos.2 ⟨k, hmem⟩

theorem Filled.enough (h : Filled sb i P s t)
    (hfree : (s.missing i (P ∪ Q)).card ≤ (s.free sb).card) :
    (t.missing i Q).card ≤ (t.free sb).card := by
  have hcount := h.count
  have hunion := h.count_union (Q := Q)
  omega

/-- Where the content had no block and nothing is written, it reads as zero or not at all. -/
def Blank (i : ℕ) (W : ℕ → Prop) (s t : FS) : Prop :=
  ∀ p x, ¬ W p → byteAt s.data (s.body i) p = none → byteAt t.data (t.body i) p = some x → x = 0

theorem Blank.refl {W : ℕ → Prop} : Blank i W s s := by
  intro p x _ hnone hx
  rw [hnone] at hx
  cases hx

theorem Blank.mono {V W : ℕ → Prop} (h : Blank i V s t) (hVW : ∀ p, V p → W p) : Blank i W s t :=
  fun p x hp => h p x (fun hv => hp (hVW p hv))

theorem Blank.trans {W : ℕ → Prop} (h : Blank i W s t) (h' : Blank i W t u)
    (hw : Written sb i W t u) (hl : t.live i) (hi : i < sb.ninodes)
    (htype : (t.body i).type ≠ .none) : Blank i W s u := by
  intro p x hp hnone hx
  cases hy : byteAt t.data (t.body i) p with
  | none => exact h' p x hp hy hx
  | some y =>
    obtain rfl := h p y hp hnone hy
    rw [← FS.current_of_live hl] at hy
    have hu := hw.bytes i hi (by rwa [FS.current_of_live hl]) p 0 (fun hc => hp hc.2) hy
    rw [FS.current_of_live (hw.live.2 hl), hx] at hu
    exact Option.some.inj hu

theorem Assigned.blank {W : ℕ → Prop} {a : ℕ → ℕ} (h : Assigned i k b a s t) (hb : t.data b = zeros) :
    Blank i W s t := by
  intro p x _ hnone hx
  obtain ⟨hne, rfl⟩ := byteAt_eq_some.1 hx
  have hempty : FileSystem.place s.data (s.body i) (contentPlace (p / bSize)) = 0 := by
    by_contra hc
    exact byteAt_ne_none.2 hc hnone
  rw [h.body_self, h.place] at hne ⊢
  rcases eq_or_ne (contentPlace (p / bSize)) k with heq | hk
  · rw [heq, update_self, hb]
    rfl
  · rw [update_of_ne hk] at hne
    exact absurd hempty hne

/-- What `bmap` and the loop of `writei` do about the places `P`: if they succeed, which they
do with enough free blocks, the places are filled. New blocks are zero outside of `W`. -/
structure Grows (sb : Superblock) (i : ℕ) (P : Finset ℕ) (W : ℕ → Prop) (s t : FS) (done : Prop) :
    Prop where
  blank : Blank i W s t
  filled : done → Filled sb i P s t
  enough : (s.missing i P).card ≤ (s.free sb).card → done

theorem Grows.full {W : ℕ → Prop} (hfull : ∀ b < sb.size, s.bitmap b = true) (hk : k ∈ P)
    (hempty : place s.data (s.body i) k = 0) : Grows sb i P W s s (0 ≠ 0) where
  blank := .refl
  filled := fun h => absurd rfl h
  enough := fun h => absurd h (not_enough hfull hk hempty)

theorem Grows.present {W : ℕ → Prop} {done : Prop} (hdone : done)
    (h : ∀ l ∈ P, place s.data (s.body i) l ≠ 0) : Grows sb i P W s s done where
  blank := .refl
  filled := fun _ => .refl h
  enough := fun _ => hdone

theorem addr_grows {W : ℕ → Prop} (hB : Blocks sb s) (hl : s.live i) (hi : i < sb.ninodes)
    (htype : (s.body i).type ≠ .none) (hk : k ≤ nDirect) :
    Ends (orAlloc sb ((s.body i).addrs k)
      (fun b => modify (fun s => s.setBody i ((s.body i).setAddr k b)))) s
      (fun a t => Written sb i W s t ∧ (a ≠ 0 → (t.body i).addrs k = a) ∧
        Grows sb i {k} W s t (a ≠ 0)) E := by
  have hplace : place s.data (s.body i) k = (s.body i).addrs k := place_addrs _ hk
  refine ends_orAlloc hB ?_ ?_ ?_
  · intro hne
    refine ⟨.refl hB, fun _ => rfl, .present hne ?_⟩
    intro l hl
    rwa [Finset.mem_singleton.1 hl, hplace]
  · intro hempty hfull
    exact ⟨.refl hB, fun h => absurd rfl h,
      .full hfull (Finset.mem_singleton_self k) (hplace.trans hempty)⟩
  · intro hempty b L hb
    have hnew := assigned_setAddr (L := L) hB hl hi htype hb hk hempty
    rw [ends_modify]
    refine ⟨hnew.written hB hl hi htype hb, fun _ => ?_, hnew.blank (update_self ..),
      fun _ => hnew.filled hB hl hi htype hb, fun _ => hb.ne_zero⟩
    rw [FS.body_setBody_self]
    exact setAddr_self

/-- What `bmap` leaves when it returns `a`: it may allocate, and the block it returns is at the
place of block `bn`. -/
structure Mapped (sb : Superblock) (i bn : ℕ) (s : FS) (a : ℕ) (t : FS) : Prop where
  written : Written sb i (fun _ => False) s t
  addr : a ≠ 0 → place t.data (t.body i) (contentPlace bn) = a
  grows : Grows sb i (blockPlaces bn) (fun _ => False) s t (a ≠ 0)

theorem bmap_ends (hB : Blocks sb s) (hl : s.live i) (hi : i < sb.ninodes)
    (htype : (s.body i).type ≠ .none) (hbn : bn < maxFile) : Ends (bmap sb i bn) s (Mapped sb i bn s) E := by
  have hmax : maxFile = nDirect + nIndirect := rfl
  simp only [bmap, ends_bind, ends_get]
  refine ends_ite ?_ ?_
  · intro hdirect
    refine (addr_grows (W := fun _ => False) hB hl hi htype hdirect.le).imp ?_
    rintro a t ⟨hst, haddr, hgrows⟩
    refine ⟨hst, fun hne => ?_, ?_⟩
    · rw [contentPlace_direct hdirect, place_addrs _ hdirect.le, haddr hne]
    · rwa [blockPlaces, if_pos hdirect]
  · intro hdirect
    refine ends_ite ?_ (fun h => absurd hbn (by omega))
    intro hj
    have hplaces : blockPlaces bn = {nDirect} ∪ {contentPlace bn} := by
      rw [blockPlaces, if_neg hdirect, Finset.insert_eq]
    -- First the indirect block itself, then the entry in it.
    refine (addr_grows (W := fun _ => False) hB hl hi htype le_rfl).bind ?_
    rintro ind t ⟨hst, hind, hgrows⟩
    refine ends_ite ?_ ?_
    · rintro rfl
      refine ⟨hst, fun h => absurd rfl h, hgrows.blank, fun h => absurd rfl h, fun hfree => hgrows.enough ?_⟩
      rw [hplaces] at hfree
      exact (FS.card_missing_mono Finset.subset_union_left).trans hfree
    intro hne
    obtain rfl := hind hne
    have hfilled := hgrows.filled hne
    have hlt : t.live i := hst.live.2 hl
    obtain ⟨a, ha⟩ := hst.body_self
    have httype : (t.body i).type ≠ .none := by rwa [ha]
    have hcp : contentPlace bn = nDirect + 1 + (bn - nDirect) := contentPlace_indirect hdirect
    have hword : place t.data (t.body i) (contentPlace bn) =
        word (t.data ((t.body i).addrs nDirect)) (bn - nDirect) := by
      rw [hcp, place_indirect hj hne]
    simp only [ends_bind, ends_get]
    refine ends_orAlloc hst.blocks ?_ ?_ ?_
    · intro hpresent
      refine ⟨hst, fun _ => hword, hgrows.blank, fun _ => ?_, fun _ => hpresent⟩
      rw [hplaces]
      refine hfilled.trans (.refl fun l hl => ?_) (fun _ => hst.type hl)
      rwa [Finset.mem_singleton.1 hl, hword]
    · intro hempty hfull
      refine ⟨hst, fun h => absurd rfl h, hgrows.blank, fun h => absurd rfl h, fun hfree => ?_⟩
      rw [hplaces] at hfree
      exact absurd (hfilled.enough hfree)
        (not_enough hfull (Finset.mem_singleton_self _) (hword.trans hempty))
    · intro hempty b L hb
      simp only [logWrite, ends_bind, ends_modify]
      have hnew := assigned_setWord (L := L) (N := L ++ [(t.body i).addrs nDirect])
        hst.blocks hlt hi httype hb hj hne hempty
      have hwritten : Written sb i (fun _ => False) t _ := hnew.written hst.blocks hlt hi httype hb
      have hlast := hnew.filled hst.blocks hlt hi httype hb
      have hdata : update (update t.data b zeros) ((t.body i).addrs nDirect)
          (setWord (update t.data b zeros ((t.body i).addrs nDirect)) (bn - nDirect) b) b =
            zeros := by
        rw [update_of_ne (indirect_ne hst.blocks hlt hi httype hb hne).symm,
          update_self]
      rw [← hcp] at hlast
      refine ⟨hst.trans hwritten hl, fun _ => ?_, hgrows.blank.trans (hnew.blank hdata) hwritten hlt hi httype,
        fun _ => ?_, fun _ => hb.ne_zero⟩
      · rw [hcp]
        exact hnew.place_self
      · rw [hplaces]
        exact hfilled.trans hlast (fun _ => hst.type hl)

theorem bmap_hit (hbn : bn < maxFile) (hne : place s.data (s.body i) (contentPlace bn) ≠ 0) :
    Ends (bmap sb i bn) s
      (fun a t => t = s ∧ a = place s.data (s.body i) (contentPlace bn)) E := by
  have hmax : maxFile = nDirect + nIndirect := rfl
  simp only [bmap, orAlloc, ends_bind, ends_get]
  refine ends_ite ?_ ?_
  · intro hdirect
    rw [contentPlace_direct hdirect, place_addrs _ hdirect.le] at hne ⊢
    rw [if_pos hne, ends_pure]
    exact ⟨rfl, rfl⟩
  · intro hdirect
    have hj : bn - nDirect < nIndirect := by omega
    have hind : (s.body i).addrs nDirect ≠ 0 := by
      intro hzero
      rw [contentPlace_indirect hdirect, place, if_neg (by omega),
        if_neg (fun hc => hc.2 hzero)] at hne
      exact hne rfl
    rw [contentPlace_indirect hdirect, place_indirect hj hind] at hne ⊢
    rw [if_pos hj, ends_bind, if_pos hind, ends_pure, if_neg hind]
    simp only [ends_bind, ends_get]
    rw [if_pos hne, ends_pure]
    exact ⟨rfl, rfl⟩

theorem bmap_found (hB : Blocks sb s) (hl : s.live i) (hi : i < sb.ninodes)
    (htype : (s.body i).type ≠ .none) (hbn : bn < maxFile) :
    Ends (bmap sb i bn) s (fun a t => Mapped sb i bn s a t ∧
      (a = 0 → place s.data (s.body i) (contentPlace bn) = 0)) E := by
  have hmapped := bmap_ends (E := E) hB hl hi htype hbn
  by_cases hempty : place s.data (s.body i) (contentPlace bn) = 0
  · exact hmapped.mono (fun _ _ h => ⟨h, fun _ => hempty⟩) (fun _ h => h)
  · refine (hmapped.and (bmap_hit hbn hempty)).imp ?_
    rintro a t ⟨h, -, rfl⟩
    exact ⟨h, fun hzero => absurd hzero hempty⟩

theorem div_of_fit {q : ℕ} (hfit : off % bSize + q < bSize) : (off + q) / bSize = off / bSize := by
  have hb : bSize = 1024 := rfl
  rw [hb] at hfit ⊢
  omega

theorem rangePlaces_add {m : ℕ} :
    rangePlaces off (m + n) = rangePlaces off m ∪ rangePlaces (off + m) n := by
  ext l
  simp only [rangePlaces, Finset.mem_biUnion, Finset.mem_union, Finset.mem_range]
  constructor
  · rintro ⟨q, hq, hl⟩
    rcases Nat.lt_or_ge q m with hlt | hge
    · exact .inl ⟨q, hlt, hl⟩
    · refine .inr ⟨q - m, by omega, ?_⟩
      rwa [show off + m + (q - m) = off + q by omega]
  · rintro (⟨q, hq, hl⟩ | ⟨q, hq, hl⟩)
    · exact ⟨q, by omega, hl⟩
    · exact ⟨m + q, by omega, by rwa [← Nat.add_assoc]⟩

theorem rangePlaces_subset (h : off + n ≤ maxFile * bSize) :
    rangePlaces off n ⊆ Finset.range (maxFile + 1) := by
  intro l hl
  obtain ⟨q, hq, hl⟩ := Finset.mem_biUnion.1 hl
  have hq := Finset.mem_range.1 hq
  have hlt : (off + q) / bSize < maxFile := (Nat.div_lt_iff_lt_mul (by decide)).2 (by omega)
  have hmax : nDirect < maxFile := by decide
  rw [Finset.mem_range]
  rw [blockPlaces] at hl
  split at hl
  · rw [Finset.mem_singleton.1 hl]
    omega
  · rename_i hdirect
    rcases Finset.mem_insert.1 hl with rfl | hl
    · omega
    · rw [Finset.mem_singleton.1 hl, contentPlace, if_neg hdirect]
      omega

theorem rangePlaces_mono {m : ℕ} (h : m ≤ n) : rangePlaces off m ⊆ rangePlaces off n :=
  Finset.biUnion_subset_biUnion_of_subset_left _ (Finset.range_subset_range.2 h)

theorem rangePlaces_block {m : ℕ} (hm : 0 < m) (hfit : off % bSize + m ≤ bSize) :
    rangePlaces off m = blockPlaces (off / bSize) := by
  ext l
  simp only [rangePlaces, Finset.mem_biUnion, Finset.mem_range]
  constructor
  · rintro ⟨q, hq, hl⟩
    rwa [div_of_fit (by omega)] at hl
  · exact fun hl => ⟨0, by omega, by rwa [Nat.add_zero]⟩

theorem rangePlaces_turn {m : ℕ} (off : ℕ) (hn : 0 < n) (hm : m = min n (bSize - off % bSize)) :
    rangePlaces off n = blockPlaces (off / bSize) ∪ rangePlaces (off + m) (n - m) := by
  have hmod : off % bSize < bSize := Nat.mod_lt _ (by decide)
  conv_lhs => rw [show n = m + (n - m) by omega]
  rw [rangePlaces_add, rangePlaces_block (by omega) (by omega)]

end Xv6.FileSystem
