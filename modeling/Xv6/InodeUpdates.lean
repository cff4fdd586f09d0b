import Xv6.InodeTable

/-!
# Updating, allocating and freeing inodes
-/

namespace Xv6.FileSystem

open ByteBlocks Function PanicPrograms SlotOwnership

variable {sb : Superblock} {K T T' : Multiset ℕ} {s t u : FS} {i j : ℕ} {d : Dinode}
  {P : Prop} {E : Panic → Prop}

/-- The namespace after the last reference outside `T` to inode `i` is gone. -/
def settled (T : Multiset ℕ) (v : ℕ → Node) (i : ℕ) : ℕ → Node :=
  if i ∉ T ∧ (v i).nlink = 0 then update v i Node.free else v

theorem FS.view_of_none (h : (s.view sb i).type = .none) : s.view sb i = Node.free := by
  by_cases hi : i < sb.ninodes
  · rw [FS.type_view hi] at h
    rw [FS.view_eq hi, nodeOf, if_pos h]
  · exact if_neg hi

theorem FS.nlink_view (hi : i < sb.ninodes) (h : (s.current i).type ≠ .none) :
    (s.view sb i).nlink = (s.current i).nlink := by
  rw [FS.view_eq hi, nodeOf, if_neg h]

theorem Blocks.relabel (h : Blocks sb s) (hl : s.live i) (hi : i < sb.ninodes)
    (htype : (s.body i).type ≠ .none) (hbit : t.bitmap = s.bitmap) (hdata : t.data = s.data)
    (hcur : t.current = update s.current i d) (haddrs : d.addrs = (s.body i).addrs)
    (htype' : d.type ≠ .none) : Blocks sb t where
  sane := h.sane
  owned := by
    refine h.owned.congr hbit ?_
    rintro ⟨j, l⟩
    rw [FS.slot_update hcur hi htype' (fun _ _ _ _ _ => by rw [hdata]), hdata]
    split
    · rename_i heq
      obtain rfl : j = i := heq
      have hself := FS.current_of_live hl
      rw [FS.slot_eq hi (by rwa [hself]), hself]
      exact place_congr haddrs (fun _ => rfl)
    · rfl
  reserved := hbit ▸ h.reserved

theorem relabel_ends (h : Sound sb T s) (hl : s.live i) {g : Dinode → Dinode}
    (hg : ∀ d, (g d).type = d.type ∧ (g d).size = d.size ∧ (g d).addrs = d.addrs) :
    Ends (do
      modify (fun s => s.setBody i (g (s.body i)))
      iupdate sb i) s
      (fun _ t => Sound sb T t ∧ Stays T s t ∧ t.view sb = update (s.view sb) i
        { s.view sb i with nlink := (g (s.body i)).nlink }) E := by
  simp only [iupdate, logWrite, ends_bind, ends_modify]
  obtain ⟨htype, hsize, haddrs⟩ := hg (s.body i)
  have hi := FS.mem_of_live h hl
  have hself := FS.current_of_live hl
  have hnone : (s.body i).type ≠ .none := h.typed i hl
  have hnone' : (g (s.body i)).type ≠ .none := by rwa [htype]
  set t : FS := (s.setBody i (g (s.body i))).setDinode i ((s.setBody i (g (s.body i))).body i)
  have hcur : t.current = update s.current i (g (s.body i)) :=
    (FS.current_setDinode (FS.live_setBody.2 hl)).trans (FS.current_setBody hl)
  have hbytes : ∀ p, byteAt s.data (g (s.body i)) p = byteAt s.data (s.body i) p :=
    fun p => byteAt_congr (place_congr haddrs (fun _ => rfl)) (fun _ => rfl)
  have hnode : nodeOf s.data (g (s.body i)) =
      { s.view sb i with nlink := (g (s.body i)).nlink } := by
    rw [FS.view_eq hi, hself, nodeOf, if_neg hnone', nodeOf, if_neg hnone, htype,
      entries_congr htype hsize (fun p _ => hbytes p)]
  have hB : Blocks sb { t with logged := t.logged ++ [sb.iblock i] } :=
    h.blocks.relabel hl hi hnone rfl rfl
      hcur haddrs hnone'
  obtain ⟨hsound, hstays, hview⟩ := h.rewriteInode hl hB (d := g (s.body i)) rfl
    (congrArg (update s.dinode i) FS.body_setBody_self) htype
    (by
      intro hdir p hp
      change byteAt s.data _ p ≠ none
      rw [hbytes, ← hself]
      rw [htype] at hdir
      rw [hsize] at hp
      exact h.filled i hi (by rwa [hself]) p (by rwa [hself]))
    (by
      change ∀ e ∈ (nodeOf s.data (g (s.body i))).slots, _
      rw [hnode]
      exact h.named i)
    (fun _ _ _ _ _ _ hx => hx)
  refine ⟨hsound, hstays, ?_⟩
  rw [hview]
  exact congrArg _ hnode

theorem Turn.of_update {x : Node} (h : Sound sb T s) (hl : s.live i) (ht : Sound sb T t)
    (hst : Stays T s t) (hview : t.view sb = update (s.view sb) i x) :
    Turn sb T T T s t (t.view sb = update (s.view sb) i x) := by
  refine ⟨ht, hst, fun ha => ⟨?_, hview⟩⟩
  obtain ⟨hmem, hvalid⟩ := h.live_iff.1 hl
  intro j htype hlink
  rcases eq_or_ne j i with rfl | hne
  · exact ⟨hmem, hst.valid j hmem hvalid⟩
  · rw [hview, update_of_ne hne] at htype hlink
    obtain ⟨hj, hjv⟩ := ha j htype hlink
    exact ⟨hj, hst.valid j hj hjv⟩

theorem itrunc_file_ends (h : Sound sb T s) (hl : s.live i) (hfile : (s.body i).type ≠ .dir) :
    Ends (itrunc sb i) s (fun _ t => Keeps sb T T s t) E := by
  have hi := FS.mem_of_live h hl
  have htype := h.typed i hl
  refine (itrunc_ends h.blocks hl hi htype).imp ?_
  rintro _ t ⟨hB, hdata, a, -, hinode, hdinode⟩
  have hnode : nodeOf t.data { s.body i with addrs := a, size := 0 } = s.view sb i := by
    have hnil : entries t.data { s.body i with addrs := a, size := 0 } = [] := entries_of_ne hfile
    rw [FS.view_eq hi, FS.current_of_live hl]
    exact nodeOf_congr rfl rfl (hnil.trans (entries_of_ne hfile).symm)
  obtain ⟨hsound, hstays, hview⟩ := h.rewriteInode hl hB hinode hdinode rfl
    (fun hdir => absurd hdir hfile) (by rw [hnode]; exact h.named i)
    (fun _ _ _ _ _ _ hx => by rwa [hdata])
  refine ⟨hsound, hstays, fun _ h => h, ?_⟩
  rw [hview, hnode, update_eq_self]

theorem Sound.freeInode (h : Sound sb (i ::ₘ T) s) (hl : s.live i) (hnot : i ∉ T)
    (htr : Truncated sb i s t) {x : Inode} (hbit : u.bitmap = t.bitmap) (hdata : u.data = t.data)
    (hdinode : u.dinode = Function.update t.dinode i d) (hnone : d.type = .none)
    (hinode : u.inode = Function.update t.inode i x) (href : x.ref = 0) :
    Sound sb T u ∧ Stays T s u ∧ u.view sb = Function.update (s.view sb) i Node.free := by
  obtain ⟨a, hzero, htinode, htdinode⟩ := htr.inode
  have htne : ∀ j ≠ i, t.inode j = s.inode j := by
    intro j hj
    rw [htinode]
    exact update_of_ne hj ..
  have hne : ∀ j ≠ i, u.inode j = s.inode j := by
    intro j hj
    rw [hinode, update_of_ne hj, htne j hj]
  have hself : u.inode i = x := by rw [hinode, update_self]
  have hdead : ¬ u.live i := by
    rw [FS.live, hself, href]
    exact fun hlu => absurd hlu.1 (lt_irrefl 0)
  have hudinode : u.dinode = update s.dinode i d := by rw [hdinode, htdinode, update_idem]
  have hcur := FS.current_change hne hudinode (fun hlu => absurd hlu hdead)
  have htcur : t.current = update s.current i { s.body i with addrs := a, size := 0 } := by
    refine FS.current_change htne htdinode (fun _ => ?_)
    rw [FS.body, htinode]
    exact FS.body_setBody_self
  -- After `itrunc` the inode has no block, so forgetting it changes no slot.
  have hslot : ∀ x, u.slot sb x = t.slot sb x := by
    rintro ⟨j, l⟩
    rcases eq_or_ne j i with rfl | hj
    · rw [FS.slot, hcur, update_self, if_neg (fun hc => hc.2 hnone), FS.slot, htcur, update_self]
      split
      · exact (place_zero hzero).symm
      · rfl
    · rw [FS.slot, FS.slot, hcur, htcur, update_of_ne hj, update_of_ne hj, hdata]
  have hfree : nodeOf u.data d = Node.free := if_pos hnone
  obtain ⟨hsound, hview⟩ := h.changeInode (N := T) (FS.mem_of_live h hl)
    ⟨h.blocks.sane, htr.blocks.owned.congr hbit hslot, hbit ▸ htr.blocks.reserved⟩ hne hudinode
    (fun j hj => (Multiset.count_cons_of_ne hj T).symm)
    (by rw [hself, href, Multiset.count_eq_zero_of_notMem hnot])
    (fun j hj => h.lt j (Multiset.mem_cons_of_mem hj)) (fun hlu => absurd hlu hdead)
    (fun hdir => by rw [hnone] at hdir; cases hdir) (by rw [hfree]; exact fun e he => absurd he (List.not_mem_nil))
    (fun _ _ _ _ _ _ hx => by rwa [hdata, htr.data])
  rw [hfree] at hview
  refine ⟨hsound, .of_inode ?_, hview⟩
  intro j hj hvalid
  have hji : j ≠ i := by
    rintro rfl
    exact hnot hj
  rw [FS.body, FS.body, hne j hji]
  exact ⟨hvalid, rfl⟩

/-- `iput` of the last reference to an inode without links. -/
theorem Turn.of_free (h : Sound sb (i ::ₘ T) s) (hl : s.live i) (hnot : i ∉ T)
    (hlink : (s.view sb i).nlink = 0) (htr : Truncated sb i s t) {x : Inode}
    (hbit : u.bitmap = t.bitmap) (hdata : u.data = t.data)
    (hdinode : u.dinode = update t.dinode i d) (hnone : d.type = .none)
    (hinode : u.inode = update t.inode i x) (href : x.ref = 0) :
    Turn sb T (i ::ₘ T) T s u (u.view sb = settled T (s.view sb) i) := by
  obtain ⟨hu, hst, hview⟩ := h.freeInode hl hnot htr hbit hdata hdinode hnone hinode href
  refine ⟨hu, hst, fun ha => ⟨?_, by rw [hview, settled, if_pos ⟨hnot, hlink⟩]⟩⟩
  intro j htype hj0
  rcases eq_or_ne j i with rfl | hne
  · rw [hview, update_self] at htype
    exact absurd rfl htype
  · rw [hview, update_of_ne hne] at htype hj0
    obtain ⟨hmem, hvalid⟩ := ha j htype hj0
    have hj := (Multiset.mem_cons.1 hmem).resolve_left hne
    exact ⟨hj, hst.valid j hj hvalid⟩

/-- `iput` of a reference that is not the last, or to an inode with links. -/
theorem Turn.of_keep (h : Sound sb (i ::ₘ T) s) (hu : Sound sb T u) (hst : Stays T s u)
    (hview : u.view sb = s.view sb)
    (hkeep : ¬ ((s.inode i).ref = 1 ∧ (s.inode i).valid = true ∧ (s.body i).nlink = 0)) :
    Turn sb T (i ::ₘ T) T s u (u.view sb = settled T (s.view sb) i) := by
  have hi : i < sb.ninodes := h.lt i (Multiset.mem_cons_self i T)
  have hanchor : Anchored sb (i ::ₘ T) s → (s.view sb i).type ≠ .none → (s.view sb i).nlink = 0 →
      i ∈ T := by
    intro ha htype hlink
    by_contra hnot
    have href : (s.inode i).ref = 1 := by
      rw [h.ref_eq, Multiset.count_cons_self, Multiset.count_eq_zero_of_notMem hnot]
    obtain ⟨-, hvalid⟩ := ha i htype hlink
    have hself := FS.current_of_live (s := s) (i := i) ⟨by omega, hvalid⟩
    rw [FS.type_view hi] at htype
    rw [FS.nlink_view hi htype, hself] at hlink
    exact hkeep ⟨href, hvalid, hlink⟩
  refine ⟨hu, hst, fun ha => ⟨?_, ?_⟩⟩
  · intro j htype hlink
    rw [hview] at htype hlink
    obtain ⟨hmem, hvalid⟩ := ha j htype hlink
    rcases Multiset.mem_cons.1 hmem with rfl | hj
    · have hj := hanchor ha htype hlink
      exact ⟨hj, hst.valid j hj hvalid⟩
    · exact ⟨hj, hst.valid j hj hvalid⟩
  · rw [hview, settled]
    split
    · rename_i hc
      by_cases htype : (s.view sb i).type = .none
      · rw [← FS.view_of_none htype, update_eq_self]
      · exact absurd (hanchor ha htype hc.2) hc.1
    · rfl

theorem iput_ends (h : Sound sb (i ::ₘ T) s) :
    Ends (iput sb i) s (fun _ t => Turn sb T (i ::ₘ T) T s t
      (t.view sb = settled T (s.view sb) i)) E := by
  have hi : i < sb.ninodes := h.lt i (Multiset.mem_cons_self i T)
  have hcount : (s.inode i).ref = T.count i + 1 := by rw [h.ref_eq, Multiset.count_cons_self]
  simp only [iput, ends_bind, ends_get]
  refine ends_ite ?_ ?_
  · rintro ⟨href, hvalid, hlink⟩
    have hl : s.live i := ⟨by omega, hvalid⟩
    have hself := FS.current_of_live hl
    have hnot : i ∉ T := by
      rw [← Multiset.count_eq_zero]
      omega
    have hlink' : (s.view sb i).nlink = 0 := by
      rw [FS.nlink_view hi (by rw [hself]; exact h.typed i hl), hself, hlink]
    refine (itrunc_ends h.blocks hl hi (h.typed i hl)).bind ?_
    intro _ t htr
    have htref : (t.inode i).ref = 1 := by
      obtain ⟨a, -, htinode, -⟩ := htr.inode
      rw [htinode]
      simpa [FS.setBody, FS.setInode] using href
    simp only [iupdate, logWrite, ends_bind, ends_modify]
    refine .of_free h hl hnot hlink' htr (d := { t.body i with type := .none })
      (x := ⟨0, false, { t.body i with type := .none }⟩) rfl rfl ?_ rfl ?_ rfl
    · exact congrArg (update t.dinode i) FS.body_setBody_self
    · simp [FS.setInode, FS.setBody, FS.setDinode, htref]
  · intro hkeep
    rw [ends_modify]
    obtain ⟨hsound, hview⟩ := h.setEntry (i := i) (N := T)
      (x := { s.inode i with ref := (s.inode i).ref - 1 })
      (t := { s.setInode i { s.inode i with ref := (s.inode i).ref - 1 } with
        active := if (s.inode i).ref = 1 then s.active - 1 else s.active }) rfl rfl rfl rfl
      (fun j hj => (Multiset.count_cons_of_ne hj T).symm) (by simp [hcount])
      (fun j hj => h.lt j (Multiset.mem_cons_of_mem hj))
      (fun _ hvalid => h.copy (by omega) hvalid)
    refine .of_keep h hsound (.of_inode ?_) hview hkeep
    intro j _ hvalid
    rcases eq_or_ne j i with rfl | hne
    · simpa [FS.setInode, FS.body] using hvalid
    · simpa [FS.setInode, FS.body, update_of_ne hne] using hvalid

theorem Sound.allocInode {type : FileType} (h : Sound sb T s) (hi : i < sb.ninodes)
    (hfree : (s.dinode i).type = .none) (htype : type ≠ .none) (hbit : t.bitmap = s.bitmap)
    (hdata : t.data = s.data) (hinode : t.inode = s.inode)
    (hdinode : t.dinode = Function.update s.dinode i (newDinode type)) :
    Sound sb T t ∧ t.view sb = Function.update (s.view sb) i ⟨type, 0, []⟩ := by
  have hdead : ¬ t.live i := by
    rw [FS.live, hinode]
    intro hl
    exact h.typed i hl (by rw [h.clean i hl, hfree])
  have hne : ∀ j ≠ i, t.inode j = s.inode j := fun j _ => by rw [hinode]
  have hcur := FS.current_change hne hdinode (fun hl => absurd hl hdead)
  -- The inode had no block, and its new addresses are 0.
  have hslot : ∀ x, t.slot sb x = s.slot sb x := by
    rintro ⟨j, l⟩
    rw [FS.slot_update hcur hi htype (fun _ _ _ _ _ => by rw [hdata])]
    split
    · rename_i heq
      obtain rfl : j = i := heq
      rw [place_zero (fun _ _ => rfl), FS.slot, h.current_eq, if_neg (fun hc => hc.2 hfree)]
    · rfl
  have hnode : nodeOf t.data (newDinode type) = ⟨type, 0, []⟩ := by
    simp [nodeOf, newDinode, entries, htype]
  obtain ⟨hsound, hview⟩ := h.changeInode hi
    ⟨h.blocks.sane, h.blocks.owned.congr hbit hslot, hbit ▸ h.blocks.reserved⟩ hne hdinode (fun _ _ => rfl)
    (by rw [hinode]; exact h.ref_eq i) h.lt (fun hl => absurd hl hdead)
    (fun _ p hp => absurd hp (Nat.not_lt_zero p)) (by rw [hnode]; exact fun e he => absurd he (List.not_mem_nil))
    (fun _ _ _ _ _ _ hx => by rwa [hdata])
  rw [hnode] at hview
  exact ⟨hsound, hview⟩

/-- What `ialloc` returns: a reference to an inode that was free. -/
structure Fresh (sb : Superblock) (T : Multiset ℕ) (type : FileType) (s : FS) (i : ℕ) (t : FS) :
    Prop where
  pos : 0 < i
  lt : i < sb.ninodes
  free : s.view sb i = Node.free
  sound : Sound sb (i ::ₘ T) t
  stays : Stays T s t
  view : t.view sb = update (s.view sb) i ⟨type, 0, []⟩

theorem ialloc_ends {type : FileType} (h : Sound sb T s) (htype : type ≠ .none) :
    Ends (ialloc sb type) s (fun r t => match r with
      | none => t = s
      | some i => Fresh sb T type s i t) (Allowed P) := by
  simp only [ialloc, ends_bind, ends_get]
  cases hfree : firstFree (fun i => (s.dinode i).type ≠ .none) (sb.ninodes - 1) 1 with
  | none => rfl
  | some i =>
    obtain ⟨hused, hlow, hhigh⟩ := firstFree_spec hfree
    have hnone : (s.dinode i).type = .none := by simpa using hused
    have hi : i < sb.ninodes := by omega
    simp only [logWrite, ends_bind, ends_modify, ends_map]
    obtain ⟨hsound, hview⟩ := h.allocInode (t := { s.setDinode i (newDinode type) with
      logged := s.logged ++ [sb.iblock i] }) hi hnone htype rfl rfl rfl rfl
    refine (iget_ends hsound hi).imp ?_
    rintro _ t ⟨rfl, hkeep⟩
    refine ⟨by omega, hi, ?_, hkeep.sound, ?_, hkeep.view.trans hview⟩
    · refine FS.view_of_none ?_
      rw [FS.type_view hi, h.current_eq, hnone]
    · exact ⟨hkeep.stays.valid, hkeep.stays.type⟩

end Xv6.FileSystem
