import Xv6.FileImage

/-!
# Allocating blocks

A block that `balloc` finds is put at an empty place of a file. That keeps the ownership of
blocks, and every byte of every file that was there before is there after.
-/

namespace Xv6.FileSystem

open ByteBlocks Function PanicPrograms SlotOwnership

variable {sb : Superblock} {s t u : FS} {i j k b bn : ℕ} {d : Dinode}

theorem firstFree_eq_find (used : ℕ → Bool) (n a : ℕ) :
    firstFree used n a = (List.range' a n).find? (fun b => !used b) := by
  induction n generalizing a with
  | zero => rfl
  | succ n ih =>
    rw [firstFree, ih, List.range'_succ, List.find?_cons]
    cases used a <;> rfl

theorem firstFree_spec {used : ℕ → Bool} {n a c : ℕ} (h : firstFree used n a = some c) :
    used c = false ∧ a ≤ c ∧ c < a + n := by
  rw [firstFree_eq_find, List.find?_range'_eq_some, List.mem_range'_1] at h
  exact ⟨by simpa using h.1, h.2.1⟩

theorem firstFree_none {used : ℕ → Bool} {n a c : ℕ} (h : firstFree used n a = none) (hac : a ≤ c)
    (hcn : c < a + n) : used c = true := by
  rw [firstFree_eq_find, List.find?_range'_eq_none] at h
  simpa using h c hac hcn

/-- `balloc` has handed out `b`. -/
def FS.allocated (s : FS) (b : ℕ) (L : List ℕ) : FS :=
  { s with
    bitmap := update s.bitmap b true
    data := update s.data b zeros
    logged := L }

/-- A data block that is not in use. -/
structure Unused (sb : Superblock) (s : FS) (b : ℕ) : Prop where
  bit : s.bitmap b = false
  ne_zero : b ≠ 0
  range : sb.dataStart ≤ b ∧ b < sb.size

theorem Blocks.unused (h : Blocks sb s) (hb : firstFree s.bitmap sb.size 0 = some b) :
    Unused sb s b := by
  obtain ⟨hbit, -, hlt⟩ := firstFree_spec hb
  have hstart : sb.dataStart ≤ b := by
    by_contra hlow
    rw [h.reserved b (by omega)] at hbit
    cases hbit
  have hpos := h.sane.dataStart_pos
  exact ⟨hbit, by omega, hstart, by omega⟩

theorem ends_balloc (h : Blocks sb s) {Q : ℕ → FS → Prop} {E : Panic → Prop}
    (full : (∀ b < sb.size, s.bitmap b = true) → Q 0 s)
    (fresh : ∀ b L, Unused sb s b → Q b (s.allocated b L)) : Ends (balloc sb) s Q E := by
  simp only [balloc, ends_bind, ends_get]
  cases hb : firstFree s.bitmap sb.size 0 with
  | none => exact full (fun c hc => firstFree_none hb (Nat.zero_le c) (by rwa [Nat.zero_add]))
  | some b =>
    simp only [bzero, logWrite, ends_bind, ends_modify, ends_pure]
    exact fresh b _ (h.unused hb)

theorem ends_orAlloc (h : Blocks sb s) {addr : ℕ} {store : ℕ → M Unit} {Q : ℕ → FS → Prop}
    {E : Panic → Prop} (hit : addr ≠ 0 → Q addr s)
    (full : addr = 0 → (∀ b < sb.size, s.bitmap b = true) → Q 0 s)
    (fresh : addr = 0 → ∀ b L, Unused sb s b →
      Ends (store b) (s.allocated b L) (fun _ t => Q b t) E) :
    Ends (orAlloc sb addr store) s Q E := by
  rw [orAlloc]
  refine ends_ite hit ?_
  intro haddr
  rw [ends_bind]
  refine ends_balloc h ?_ ?_
  · intro hfull
    simpa using full (not_not.1 haddr) hfull
  · intro b L hb
    rw [if_pos hb.ne_zero, ends_bind]
    simpa using fresh (not_not.1 haddr) b L hb

theorem FS.slot_eq (hi : i < sb.ninodes) (htype : (s.current i).type ≠ .none) :
    s.slot sb (i, k) = place s.data (s.current i) k := if_pos ⟨hi, htype⟩

theorem FS.slot_update (hcur : t.current = update s.current i d) (hi : i < sb.ninodes)
    (htype : d.type ≠ .none)
    (hother : ∀ j ≠ i, j < sb.ninodes → (s.current j).type ≠ .none → ∀ l,
      place t.data (s.current j) l = place s.data (s.current j) l) (x : ℕ × ℕ) :
    t.slot sb x = if x.1 = i then place t.data d x.2 else s.slot sb x := by
  obtain ⟨j, l⟩ := x
  split
  · rename_i heq
    obtain rfl : j = i := heq
    have hc : t.current j = d := by rw [hcur, update_self]
    rw [FS.slot_eq hi (by rwa [hc]), hc]
  · rename_i hne
    have hc : t.current j = s.current j := by rw [hcur, update_of_ne hne]
    simp only [FS.slot, hc]
    split
    · rename_i hj
      exact hother j hne hj.1 hj.2 l
    · rfl

/-- What writing to inode `i` may change: its block addresses, and the bytes of its content
at the positions in `W`. -/
structure Written (sb : Superblock) (i : ℕ) (W : ℕ → Prop) (s t : FS) : Prop where
  blocks : Blocks sb t
  inode : ∃ a, t.inode = (s.setBody i { s.body i with addrs := a }).inode
  dinode : t.dinode = s.dinode
  bytes : ∀ j < sb.ninodes, (s.current j).type ≠ .none → ∀ p x, ¬ (j = i ∧ W p) →
    byteAt s.data (s.current j) p = some x → byteAt t.data (t.current j) p = some x
  present : ∀ p, byteAt s.data (s.current i) p ≠ none → byteAt t.data (t.current i) p ≠ none

namespace Written

variable {W W' : ℕ → Prop}

theorem refl (h : Blocks sb s) : Written sb i W s s where
  blocks := h
  inode := by
    refine ⟨(s.body i).addrs, ?_⟩
    simp [FS.setBody, FS.setInode, FS.body]
  dinode := rfl
  bytes := fun _ _ _ _ _ _ h => h
  present := fun _ h => h

theorem mono (h : Written sb i W s t) (hW : ∀ p, W p → W' p) : Written sb i W' s t where
  blocks := h.blocks
  inode := h.inode
  dinode := h.dinode
  bytes := fun j hj htype p x hp => h.bytes j hj htype p x (fun hc => hp ⟨hc.1, hW p hc.2⟩)
  present := h.present

theorem live (h : Written sb i W s t) : t.live j ↔ s.live j := by
  obtain ⟨a, ha⟩ := h.inode
  rw [← FS.live_setBody (s := s) (i := i) (d := { s.body i with addrs := a })]
  simp only [FS.live, ha]

theorem body_self (h : Written sb i W s t) : ∃ a, t.body i = { s.body i with addrs := a } := by
  obtain ⟨a, ha⟩ := h.inode
  refine ⟨a, ?_⟩
  simp only [FS.body, ha]
  exact FS.body_setBody_self

theorem current (h : Written sb i W s t) (hl : s.live i) :
    ∃ a, t.current = update s.current i { s.body i with addrs := a } := by
  obtain ⟨a, ha⟩ := h.inode
  refine ⟨a, ?_⟩
  rw [← FS.current_setBody hl]
  exact funext fun _ => FS.current_congr (congrFun ha _) (congrFun h.dinode _)

theorem type (h : Written sb i W s t) (hl : s.live i) : (t.current j).type = (s.current j).type := by
  obtain ⟨a, ha⟩ := h.current hl
  rw [ha]
  rcases eq_or_ne j i with rfl | hne
  · rw [update_self, FS.current_of_live hl]
  · rw [update_of_ne hne]

theorem log (h : Written sb i W s t) (L : List ℕ) : Written sb i W s { t with logged := L } :=
  ⟨⟨h.blocks.sane, h.blocks.owned.congr rfl (fun _ => rfl), h.blocks.reserved⟩, h.inode, h.dinode,
    h.bytes, h.present⟩

theorem trans (h : Written sb i W s t) (h' : Written sb i W t u) (hl : s.live i) :
    Written sb i W s u where
  blocks := h'.blocks
  inode := by
    obtain ⟨a, ha⟩ := h.inode
    obtain ⟨a', ha'⟩ := h'.inode
    refine ⟨a', ?_⟩
    rw [ha']
    simp only [FS.setBody, FS.setInode, ha, FS.body]
    simp [update_idem]
  dinode := h'.dinode.trans h.dinode
  bytes := by
    intro j hj htype p x hp hbyte
    exact h'.bytes j hj (by rwa [h.type hl]) p x hp (h.bytes j hj htype p x hp hbyte)
  present := fun p hp => h'.present p (h.present p hp)

end Written

theorem FS.slot_of_live (hl : s.live i) (hi : i < sb.ninodes) (htype : (s.body i).type ≠ .none) (l : ℕ) :
    s.slot sb (i, l) = place s.data (s.body i) l := by
  have hself : s.current i = s.body i := FS.current_of_live hl
  rw [FS.slot_eq hi (by rwa [hself]), hself]

/-- The block `b` is marked and put at the empty place `k` of inode `i`. Besides the block
itself, only the indirect block of `i` may change. -/
structure Assigned (i k b : ℕ) (a : ℕ → ℕ) (s t : FS) : Prop where
  bitmap : t.bitmap = update s.bitmap b true
  inode : t.inode = (s.setBody i { s.body i with addrs := a }).inode
  dinode : t.dinode = s.dinode
  data : ∀ c, c ≠ b → ((s.body i).addrs nDirect ≠ 0 → c ≠ (s.body i).addrs nDirect) →
    t.data c = s.data c
  empty : place s.data (s.body i) k = 0
  place : place t.data { s.body i with addrs := a } = update (place s.data (s.body i)) k b

namespace Assigned

variable {W : ℕ → Prop} {a : ℕ → ℕ} (h : Assigned i k b a s t) (hB : Blocks sb s) (hl : s.live i)
  (hi : i < sb.ninodes) (htype : (s.body i).type ≠ .none) (hb : Unused sb s b)

include h hl in
theorem current : t.current = update s.current i { s.body i with addrs := a } := by
  rw [← FS.current_setBody hl]
  exact funext fun _ => FS.current_congr (congrFun h.inode _) (congrFun h.dinode _)

include h hB hl hi htype hb

/-- Every other block of an inode is as it was: it is neither the new one nor the indirect
block of `i`. -/
theorem data_slot {x : ℕ × ℕ} (hx : s.slot sb x ≠ 0) (hne : x ≠ (i, nDirect)) :
    t.data (s.slot sb x) = s.data (s.slot sb x) := by
  refine h.data _ (hB.owned.slot_ne hb.bit hx) ?_
  intro _ heq
  rw [← place_addrs s.data le_rfl, ← FS.slot_of_live hl hi htype] at heq
  exact hne (hB.owned.inj _ _ hx heq)

theorem place_other (hne : j ≠ i) (hj : j < sb.ninodes) (hjtype : (s.current j).type ≠ .none)
    (l : ℕ) : FileSystem.place t.data (s.current j) l = FileSystem.place s.data (s.current j) l := by
  refine place_congr rfl ?_
  rw [← place_addrs s.data le_rfl, ← FS.slot_eq hj hjtype]
  intro hind
  exact h.data_slot hB hl hi htype hb hind (by simp [hne])

theorem slot (x : ℕ × ℕ) : t.slot sb x = update (s.slot sb) (i, k) b x := by
  obtain ⟨j, l⟩ := x
  rw [FS.slot_update (h.current hl) hi htype
    (fun j hne hj hjtype l => h.place_other hB hl hi htype hb hne hj hjtype l), h.place]
  split
  · rename_i heq
    obtain rfl : j = i := heq
    rcases eq_or_ne l k with rfl | hlk
    · rw [update_self, update_self]
    · rw [update_of_ne hlk, update_of_ne (by simp [hlk]),
        FS.slot_of_live hl hi htype]
  · rename_i hne
    have hx : (j, l) ≠ (i, k) := fun h => hne (congrArg Prod.fst h)
    rw [update_of_ne hx]

theorem blocks : Blocks sb t where
  sane := hB.sane
  owned := (hB.owned.assign hB.sane.dataStart_pos ((FS.slot_of_live hl hi htype k).trans h.empty)
    hb.bit hb.range).congr h.bitmap (h.slot hB hl hi htype hb)
  reserved := by
    intro c hc
    rw [h.bitmap, update_of_ne (by have := hb.range.1; omega)]
    exact hB.reserved c hc

theorem byteAt (hj : j < sb.ninodes) (hjtype : (s.current j).type ≠ .none) {p : ℕ} {x : Byte}
    (hx : byteAt s.data (s.current j) p = some x) :
    FileSystem.byteAt t.data (t.current j) p = some x := by
  have hself : s.current i = s.body i := FS.current_of_live hl
  have hne0 := (byteAt_eq_some.1 hx).1
  rw [← FS.slot_eq hj hjtype] at hne0
  rw [← hx]
  refine byteAt_congr ?_ ?_
  · rcases eq_or_ne j i with rfl | hne
    · have hk : contentPlace (p / bSize) ≠ k := by
        rintro rfl
        rw [FS.slot_of_live hl hi htype] at hne0
        exact hne0 h.empty
      rw [h.current hl, update_self, h.place, update_of_ne hk, hself]
    · rw [h.current hl, update_of_ne hne]
      exact h.place_other hB hl hi htype hb hne hj hjtype _
  · intro _
    rw [← FS.slot_eq hj hjtype]
    exact h.data_slot hB hl hi htype hb hne0 (by simp [contentPlace_ne])

theorem written : Written sb i W s t where
  blocks := h.blocks hB hl hi htype hb
  inode := ⟨a, h.inode⟩
  dinode := h.dinode
  bytes := fun _ hj hjtype _ _ _ hx => h.byteAt hB hl hi htype hb hj hjtype hx
  present := by
    intro p hp
    obtain ⟨x, hx⟩ := Option.ne_none_iff_exists'.1 hp
    have htype' : (s.current i).type ≠ .none := by rwa [FS.current_of_live hl]
    rw [h.byteAt hB hl hi htype hb hi htype' hx]
    exact Option.some_ne_none x

end Assigned

section Stores

variable (hB : Blocks sb s) (hl : s.live i) (hi : i < sb.ninodes) (htype : (s.body i).type ≠ .none)
  (hb : Unused sb s b)

include hB hl hi htype hb

theorem indirect_ne (hind : (s.body i).addrs nDirect ≠ 0) : (s.body i).addrs nDirect ≠ b := by
  rw [← place_addrs s.data le_rfl, ← FS.slot_of_live hl hi htype] at hind ⊢
  exact hB.owned.slot_ne hb.bit hind

theorem assigned_setAddr {L : List ℕ} (hk : k ≤ nDirect) (hempty : (s.body i).addrs k = 0) :
    Assigned i k b ((s.body i).setAddr k b).addrs s
      ((s.allocated b L).setBody i ((s.body i).setAddr k b)) where
  bitmap := rfl
  inode := rfl
  dinode := rfl
  data := fun c hc _ => update_of_ne hc _ _
  empty := by rw [place_addrs _ hk, hempty]
  place := by
    change place (update s.data b zeros) ((s.body i).setAddr k b) = _
    have hdata : ∀ l, place (update s.data b zeros) (s.body i) l = place s.data (s.body i) l :=
      fun l => place_congr rfl
        (fun hind => update_of_ne (indirect_ne hB hl hi htype hb hind) _ _)
    rcases hk.lt_or_eq with hlt | rfl
    · rw [place_setAddr_direct hlt, funext hdata]
    · rw [place_setAddr_indirect hempty (update_self ..), funext hdata]

theorem assigned_setWord {L N : List ℕ} (hj : j < nIndirect) (hind : (s.body i).addrs nDirect ≠ 0)
    (hempty : word (s.data ((s.body i).addrs nDirect)) j = 0) :
    Assigned i (nDirect + 1 + j) b (s.body i).addrs s
      { (s.allocated b L).setBlock ((s.body i).addrs nDirect)
          (setWord ((s.allocated b L).data ((s.body i).addrs nDirect)) j b) with logged := N } where
  bitmap := rfl
  inode := by simp [FS.setBlock, FS.allocated, FS.setBody, FS.setInode, FS.body]
  dinode := rfl
  data := fun c hc hcind =>
    (update_of_ne (hcind hind) _ _).trans (update_of_ne hc _ _)
  empty := by rw [place_indirect hj hind, hempty]
  place := by
    have hlt : b < 2 ^ 32 := hb.range.2.trans hB.sane.size_lt
    have hset := place_setWord (update s.data b zeros) hj hind hlt
    have hdata : ∀ l, place (update s.data b zeros) (s.body i) l = place s.data (s.body i) l :=
      fun l => place_congr rfl
        (fun hind => update_of_ne (indirect_ne hB hl hi htype hb hind) _ _)
    rw [funext hdata] at hset
    exact hset

end Stores

theorem contentPlace_direct (h : bn < nDirect) : contentPlace bn = bn := if_pos h

theorem contentPlace_indirect (h : ¬ bn < nDirect) :
    contentPlace bn = nDirect + 1 + (bn - nDirect) := by
  rw [contentPlace, if_neg h]
  omega

end Xv6.FileSystem
