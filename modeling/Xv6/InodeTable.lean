import Xv6.BlockRelease

/-!
# The inode table

What `iget`, `idup`, `ilock`, `ialloc`, `iupdate` and `iput` do to a sound state. Only
`iput` removes an inode, and only one that nobody refers to and that has no links.
-/

namespace Xv6.FileSystem

open ByteBlocks Function PanicPrograms SlotOwnership

/-- An allocated inode without links is still referred to, and the table has a copy. -/
def Anchored (sb : Superblock) (T : Multiset ℕ) (s : FS) : Prop :=
  ∀ i, (s.view sb i).type ≠ .none → (s.view sb i).nlink = 0 → i ∈ T ∧ (s.inode i).valid = true

/-- A sound state after a step from `s` that has changed the outstanding references from
`T` to `T'`; those in `K` are kept throughout. `eff` says what the step did, as far as no
inode was removed that was without links before. -/
structure Turn (sb : Superblock) (K T T' : Multiset ℕ) (s t : FS) (eff : Prop) : Prop where
  sound : Sound sb T' t
  stays : Stays K s t
  moves : Anchored sb T s → Anchored sb T' t ∧ eff

/-- A step that shows no difference. -/
structure Keeps (sb : Superblock) (T T' : Multiset ℕ) (s t : FS) : Prop where
  sound : Sound sb T' t
  stays : Stays T s t
  sub : T ⊆ T'
  view : t.view sb = s.view sb

/-- The panics that a proof allows: never that of `bfree`, and that of `ilock` only if `P`
does not hold. -/
def Allowed (P : Prop) (e : Panic) : Prop := e ≠ .freeingFreeBlock ∧ (P → e ≠ .ilockNoType)

variable {sb : Superblock} {K K' T T' T'' : Multiset ℕ} {s t u : FS} {i j : ℕ} {d : Dinode}
  {e e' P : Prop} {E : Panic → Prop}

theorem Turn.trans (h : Turn sb K T T' s t e) (h' : Turn sb K T' T'' t u e') :
    Turn sb K T T'' s u (e ∧ e') where
  sound := h'.sound
  stays := h.stays.trans h'.stays
  moves := fun ha => ⟨(h'.moves (h.moves ha).1).1, (h.moves ha).2, (h'.moves (h.moves ha).1).2⟩

theorem Turn.imp (h : Turn sb K T T' s t e) (he : e → e') : Turn sb K T T' s t e' :=
  ⟨h.sound, h.stays, fun ha => ⟨(h.moves ha).1, he (h.moves ha).2⟩⟩

theorem Turn.mono (h : Turn sb K T T' s t e) (hK : K' ⊆ K) : Turn sb K' T T' s t e :=
  ⟨h.sound, h.stays.mono hK, h.moves⟩

theorem Keeps.anchored (h : Keeps sb T T' s t) (ha : Anchored sb T s) : Anchored sb T' t := by
  intro i htype hlink
  rw [h.view] at htype hlink
  obtain ⟨hmem, hvalid⟩ := ha i htype hlink
  exact ⟨h.sub hmem, h.stays.valid i hmem hvalid⟩

theorem Keeps.turn (h : Keeps sb T T' s t) : Turn sb T T T' s t (t.view sb = s.view sb) :=
  ⟨h.sound, h.stays, fun ha => ⟨h.anchored ha, h.view⟩⟩

theorem Keeps.refl (h : Sound sb T s) : Keeps sb T T s s :=
  ⟨h, .refl, fun _ h => h, rfl⟩

theorem Keeps.trans (h : Keeps sb T T' s t) (h' : Keeps sb T' T'' t u) : Keeps sb T T'' s u where
  sound := h'.sound
  stays := h.stays.trans (h'.stays.mono h.sub)
  sub := fun _ hi => h'.sub (h.sub hi)
  view := h'.view.trans h.view

namespace Sound

theorem ref_pos (h : Sound sb T s) : 0 < (s.inode i).ref ↔ i ∈ T := by
  rw [h.ref_eq, Multiset.count_pos]

theorem live_iff (h : Sound sb T s) : s.live i ↔ i ∈ T ∧ (s.inode i).valid = true := by
  rw [FS.live, h.ref_pos]

theorem live_of_stays (h : Sound sb T s) (h' : Sound sb T' t) (hst : Stays K s t) (hK : i ∈ K)
    (hT' : i ∈ T') (hl : s.live i) : t.live i :=
  h'.live_iff.2 ⟨hT', hst.valid i hK (h.live_iff.1 hl).2⟩

theorem live_turn (h : Sound sb T s) (ht : Turn sb K T T' s t e) (hK : i ∈ K) (hT' : i ∈ T')
    (hl : s.live i) : t.live i := h.live_of_stays ht.sound ht.stays hK hT' hl

theorem current_eq (h : Sound sb T s) : s.current i = s.dinode i := by
  by_cases hl : s.live i
  · rw [FS.current_of_live hl, h.clean i hl]
  · exact FS.current_of_not_live hl

theorem setEntry {N : Multiset ℕ} {x : Inode} (h : Sound sb T s) (hbit : t.bitmap = s.bitmap)
    (hdata : t.data = s.data) (hdinode : t.dinode = s.dinode)
    (hinode : t.inode = Function.update s.inode i x)
    (hother : ∀ j ≠ i, N.count j = T.count j) (hx : x.ref = N.count i)
    (hlt : ∀ i ∈ N, i < sb.ninodes)
    (hcopy : 0 < x.ref → x.valid = true → x.body = s.dinode i ∧ (s.dinode i).type ≠ .none) :
    Sound sb N t ∧ t.view sb = s.view sb := by
  have hne : ∀ j ≠ i, t.inode j = s.inode j := by
    intro j hj
    rw [hinode, Function.update_of_ne hj]
  have hself : t.inode i = x := by rw [hinode, Function.update_self]
  have hbody : ∀ j, t.live j → t.body j = s.dinode j ∧ (s.dinode j).type ≠ .none := by
    intro j hl
    rcases eq_or_ne j i with rfl | hj
    · rw [FS.live, hself] at hl
      rw [FS.body, hself]
      exact hcopy hl.1 hl.2
    · rw [FS.live, hne j hj] at hl
      rw [FS.body, hne j hj]
      have hclean := h.clean j hl
      exact ⟨hclean, hclean ▸ h.typed j hl⟩
  have hcur : t.current = s.current := by
    funext j
    rw [h.current_eq, FS.current]
    split
    · exact (hbody j ‹_›).1
    · rw [hdinode]
  refine ⟨h.image hbit hdata hcur ?_ hlt ?_ ?_, funext fun j => FS.view_congr hdata (congrFun hcur j)⟩
  · intro j
    rcases eq_or_ne j i with rfl | hj
    · rw [hself, hx]
    · rw [hne j hj, h.ref_eq, hother j hj]
  · intro j hl
    rw [(hbody j hl).1]
    exact (hbody j hl).2
  · intro j hl
    rw [(hbody j hl).1, hdinode]

theorem lt_cons (h : Sound sb T s) (hi : i < sb.ninodes) : ∀ j ∈ i ::ₘ T, j < sb.ninodes := by
  intro j hj
  rcases Multiset.mem_cons.1 hj with rfl | hj
  · exact hi
  · exact h.lt j hj

theorem copy (h : Sound sb T s) (hpos : 0 < (s.inode i).ref) (hvalid : (s.inode i).valid = true) :
    (s.inode i).body = s.dinode i ∧ (s.dinode i).type ≠ .none := by
  have hclean := h.clean i ⟨hpos, hvalid⟩
  exact ⟨hclean, hclean ▸ h.typed i ⟨hpos, hvalid⟩⟩

theorem addRef (h : Sound sb T s) (hi : i ∈ T) :
    Keeps sb T (i ::ₘ T) s (s.setInode i { s.inode i with ref := (s.inode i).ref + 1 }) := by
  have hpos := h.ref_pos.2 hi
  obtain ⟨hsound, hview⟩ := h.setEntry (i := i) (N := i ::ₘ T)
    (x := { s.inode i with ref := (s.inode i).ref + 1 })
    (t := s.setInode i { s.inode i with ref := (s.inode i).ref + 1 }) rfl rfl rfl rfl
    (fun j hj => Multiset.count_cons_of_ne hj T) (by simp [h.ref_eq]) (h.lt_cons (h.lt i hi))
    (fun _ hvalid => h.copy hpos hvalid)
  refine ⟨hsound, .of_inode ?_, fun _ hj => Multiset.mem_cons_of_mem hj, hview⟩
  intro j _ hvalid
  rcases eq_or_ne j i with rfl | hne
  · simpa [FS.setInode, FS.body] using hvalid
  · simpa [FS.setInode, FS.body, Function.update_of_ne hne] using hvalid

end Sound

theorem iget_ends (h : Sound sb T s) (hi : i < sb.ninodes) :
    Ends (iget i) s (fun r t => r = i ∧ Keeps sb T (i ::ₘ T) s t) (Allowed P) := by
  simp only [iget, ends_bind, ends_get]
  refine ends_ite ?_ ?_
  · intro hpos
    exact ⟨rfl, h.addRef (h.ref_pos.1 hpos)⟩
  · intro hzero
    refine ends_ite ?_ ?_
    · intro _
      exact ⟨by decide, fun _ => by decide⟩
    · intro _
      simp only [ends_bind, ends_modify, ends_pure]
      have hnot : i ∉ T := fun hmem => hzero (h.ref_pos.2 hmem)
      obtain ⟨hsound, hview⟩ := h.setEntry (i := i) (N := i ::ₘ T)
        (x := { s.inode i with ref := 1, valid := false })
        (t := { s.setInode i { s.inode i with ref := 1, valid := false } with
          active := s.active + 1 }) rfl rfl rfl rfl
        (fun j hj => Multiset.count_cons_of_ne hj T)
        (by simp [Multiset.count_eq_zero_of_notMem hnot]) (h.lt_cons hi) (fun _ hf => by cases hf)
      refine ⟨trivial, hsound, .of_inode ?_, fun _ hj => Multiset.mem_cons_of_mem hj, hview⟩
      intro j hj hvalid
      have hne : j ≠ i := by
        rintro rfl
        exact hnot hj
      simpa [FS.setInode, FS.body, update_of_ne hne] using hvalid

theorem idup_ends (h : Sound sb T s) (hi : i ∈ T) :
    Ends (idup i) s (fun r t => r = i ∧ Keeps sb T (i ::ₘ T) s t) E := by
  simp only [idup, ends_bind, ends_modify, ends_pure]
  exact ⟨trivial, h.addRef hi⟩

theorem ilock_ends (h : Sound sb T s) (hi : i ∈ T) (hP : P → (s.view sb i).type ≠ .none) :
    Ends (ilock i) s (fun _ t => Keeps sb T T s t ∧ t.live i) (Allowed P) := by
  simp only [ilock, ends_bind, ends_get]
  have hpos := h.ref_pos.2 hi
  rw [if_neg (by omega)]
  refine ends_ite ?_ ?_
  · intro hvalid
    exact ⟨.refl h, hpos, hvalid⟩
  · intro hinvalid
    simp only [ends_bind, ends_modify]
    refine ends_ite ?_ ?_
    · intro hnone
      refine ⟨by simp, fun hp => ?_⟩
      have htype := hP hp
      rw [FS.type_view (h.lt i hi), h.current_eq] at htype
      exact absurd hnone htype
    · intro htype
      obtain ⟨hsound, hview⟩ := h.setEntry (i := i) (N := T)
        (x := { s.inode i with valid := true, body := s.dinode i })
        (t := s.setInode i { s.inode i with valid := true, body := s.dinode i }) rfl rfl rfl rfl
        (fun _ _ => rfl) (h.ref_eq i) h.lt (fun _ _ => ⟨rfl, htype⟩)
      refine ⟨⟨hsound, .of_inode ?_, fun _ h => h, hview⟩, ?_⟩
      · intro j _ hvalid
        have hne : j ≠ i := by
          rintro rfl
          exact hinvalid hvalid
        simpa [FS.setInode, FS.body, update_of_ne hne] using hvalid
      · simpa [FS.live, FS.setInode] using hpos

theorem FS.mem_of_live (h : Sound sb T s) (hl : s.live i) : i < sb.ninodes :=
  h.lt i (h.live_iff.1 hl).1

theorem FS.current_change (hinode : ∀ j ≠ i, t.inode j = s.inode j) (hdinode : t.dinode = update s.dinode i d)
    (hcopy : t.live i → t.body i = d) : t.current = update s.current i d := by
  funext j
  rcases eq_or_ne j i with rfl | hne
  · rw [update_self, FS.current]
    split
    · exact hcopy ‹_›
    · rw [hdinode, update_self]
  · rw [update_of_ne hne]
    exact FS.current_congr (hinode j hne) (by rw [hdinode, update_of_ne hne])

/-- Inode `i` becomes `d`, and no byte of another inode's content is lost. -/
theorem Sound.changeInode {N : Multiset ℕ} (h : Sound sb T s) (hi : i < sb.ninodes) (hB : Blocks sb t)
    (hinode : ∀ j ≠ i, t.inode j = s.inode j) (hdinode : t.dinode = update s.dinode i d)
    (hcount : ∀ j ≠ i, N.count j = T.count j) (href : (t.inode i).ref = N.count i)
    (hlt : ∀ j ∈ N, j < sb.ninodes) (hcopy : t.live i → t.body i = d ∧ d.type ≠ .none)
    (hfilled : d.type = .dir → ∀ p < d.size, byteAt t.data d p ≠ none)
    (hnamed : ∀ e ∈ (nodeOf t.data d).slots, e.inum < sb.ninodes)
    (hother : ∀ j ≠ i, j < sb.ninodes → (s.current j).type ≠ .none → ∀ p x,
      byteAt s.data (s.current j) p = some x → byteAt t.data (s.current j) p = some x) :
    Sound sb N t ∧ t.view sb = update (s.view sb) i (nodeOf t.data d) := by
  have hcur := FS.current_change hinode hdinode (fun hl => (hcopy hl).1)
  have hdir : ∀ j ≠ i, j < sb.ninodes → (s.current j).type = .dir → ∀ p < (s.current j).size,
      byteAt t.data (s.current j) p = byteAt s.data (s.current j) p := by
    intro j hne hj hjdir p hp
    obtain ⟨x, hx⟩ := Option.ne_none_iff_exists'.1 (h.filled j hj hjdir p hp)
    rw [hx]
    exact hother j hne hj (by simp [hjdir]) p x hx
  have hview : t.view sb = update (s.view sb) i (nodeOf t.data d) := by
    funext j
    rcases eq_or_ne j i with rfl | hne
    · rw [update_self, FS.view_eq hi, hcur, update_self]
    · rw [update_of_ne hne, FS.view, FS.view, hcur, update_of_ne hne]
      split
      · rename_i hj
        refine nodeOf_congr rfl rfl ?_
        by_cases hjdir : (s.current j).type = .dir
        · exact entries_congr rfl rfl (hdir j hne hj hjdir)
        · rw [entries_of_ne hjdir, entries_of_ne hjdir]
      · rfl
  have hbody : ∀ j, t.live j → t.body j = t.dinode j ∧ (t.dinode j).type ≠ .none := by
    intro j hl
    rcases eq_or_ne j i with rfl | hne
    · rw [hdinode, update_self]
      exact hcopy hl
    · rw [FS.live, hinode j hne] at hl
      rw [FS.body, hinode j hne, hdinode, update_of_ne hne]
      exact h.copy hl.1 hl.2
  refine ⟨⟨hB, ?_, ?_, ?_, hlt, ?_, fun j hl => (hbody j hl).1⟩, hview⟩
  · intro j hj hjdir p hp
    rw [hcur] at hjdir hp ⊢
    rcases eq_or_ne j i with rfl | hne
    · rw [update_self] at hjdir hp ⊢
      exact hfilled hjdir p hp
    · rw [update_of_ne hne] at hjdir hp ⊢
      rw [hdir j hne hj hjdir p hp]
      exact h.filled j hj hjdir p hp
  · intro j
    rw [hview]
    rcases eq_or_ne j i with rfl | hne
    · rw [update_self]
      exact hnamed
    · rw [update_of_ne hne]
      exact h.named j
  · intro j
    rcases eq_or_ne j i with rfl | hne
    · exact href
    · rw [hinode j hne, h.ref_eq, hcount j hne]
  · intro j hl
    rw [(hbody j hl).1]
    exact (hbody j hl).2

theorem Sound.rewriteInode (h : Sound sb T s) (hl : s.live i) (hB : Blocks sb t)
    (hinode : t.inode = (s.setBody i d).inode) (hdinode : t.dinode = Function.update s.dinode i d)
    (htype : d.type = (s.body i).type)
    (hfilled : d.type = .dir → ∀ p < d.size, byteAt t.data d p ≠ none)
    (hnamed : ∀ e ∈ (nodeOf t.data d).slots, e.inum < sb.ninodes)
    (hother : ∀ j ≠ i, j < sb.ninodes → (s.current j).type ≠ .none → ∀ p x,
      byteAt s.data (s.current j) p = some x → byteAt t.data (s.current j) p = some x) :
    Sound sb T t ∧ Stays T s t ∧
      t.view sb = Function.update (s.view sb) i (nodeOf t.data d) := by
  have hself : t.inode i = { s.inode i with body := d } := by
    rw [hinode]
    exact update_self ..
  have hne : ∀ j ≠ i, t.inode j = s.inode j := by
    intro j hj
    rw [hinode]
    exact update_of_ne hj ..
  have hbody : t.body i = d := by rw [FS.body, hself]
  obtain ⟨hsound, hview⟩ := h.changeInode (FS.mem_of_live h hl) hB hne hdinode (fun _ _ => rfl)
    (by rw [hself]; exact h.ref_eq i) h.lt (fun _ => ⟨hbody, htype ▸ h.typed i hl⟩) hfilled hnamed hother
  refine ⟨hsound, .of_inode ?_, hview⟩
  intro j _ hv
  rcases eq_or_ne j i with rfl | hj
  · rw [hbody, htype, hself]
    exact ⟨hv, rfl⟩
  · rw [FS.body, FS.body, hne j hj]
    exact ⟨hv, rfl⟩

end Xv6.FileSystem
