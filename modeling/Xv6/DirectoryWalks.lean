import Xv6.ActionWalks

/-!
# Directory functions and walks as paths of actions
-/

namespace Xv6.FileSystem

open ActionPaths ByteBlocks PanicPrograms Relation

variable {sb : Superblock} {A W : ℕ → Prop} {T₀ T T' : Multiset ℕ} {s t u : FS}
  {i k l n off dp ip inum cwd fuel : ℕ} {name path : Name} {parent : Bool} {found : Dirent → Bool}
  {short : Panic} {bs : List Byte} {D : Prop} {E : Panic → Prop}

theorem dirSearch_aligned (hdir : (s.body dp).type = .dir)
    (hfilled : ∀ p < (s.body dp).size, byteAt s.data (s.body dp) p ≠ none)
    (haligned : direntSize ∣ (s.body dp).size) :
    Ends (dirSearch sb dp found short fuel (direntSize * l)) s (fun _ _ => True) E := by
  induction fuel generalizing l with
  | zero => trivial
  | succ fuel ih =>
    by_cases hlt : direntSize * l < (s.body dp).size
    · have hle : direntSize * (l + 1) ≤ (s.body dp).size := by
        obtain ⟨c, hc⟩ := haligned
        rw [hc] at hlt ⊢
        exact Nat.mul_le_mul_left _ (Nat.lt_of_mul_lt_mul_left hlt)
      exact dirSearch_turn hdir (getElem?_entries hdir hle) (hfilled _ hlt) (fun _ => trivial)
        (fun _ => ih)
    · simp only [dirSearch, ends_bind, ends_get]
      rw [if_neg hlt]
      trivial

theorem dirSearch_runs (h : Sound sb T s) (hl : s.live dp) (hdir : (s.body dp).type = .dir)
    (hshort : ¬ s.Aligned sb → Cause sb T₀ k s short)
    (hfuel : (s.body dp).size ≤ direntSize * (l + fuel)) :
    Runs sb A W D T₀ k (dirSearch sb dp found short fuel (direntSize * l)) s (fun r t => t = s ∧
      Searched (entries s.data (s.body dp)) found l (s.body dp).size r) := by
  have hself := FS.current_of_live hl
  have hfilled := h.filled_live hl hdir
  have hsearch := dirSearch_ends sb found short hdir hfilled hfuel
  by_cases haligned : s.Aligned sb
  · have hdvd := haligned dp (FS.mem_of_live h hl) (by rwa [hself])
    rw [hself] at hdvd
    refine (hsearch.both (dirSearch_aligned (E := fun _ => False) hdir hfilled hdvd)).mono ?_
      (fun _ he => he.2.elim)
    rintro r t ⟨⟨rfl, hr⟩, -⟩
    exact ⟨.refl, rfl, hr⟩
  · refine hsearch.mono ?_ ?_
    · rintro r t ⟨rfl, hr⟩
      exact ⟨.refl, rfl, hr⟩
    · rintro e rfl
      exact ⟨s, .refl, hshort haligned⟩

theorem dirSearch_all_runs (h : Sound sb T s) (hl : s.live dp) (hdir : (s.body dp).type = .dir)
    (hshort : ¬ s.Aligned sb → Cause sb T₀ k s short) :
    Runs sb A W D T₀ k (dirSearch sb dp found short (s.body dp).size 0) s (fun r t => t = s ∧
      Searched (entries s.data (s.body dp)) found 0 (s.body dp).size r) := by
  have hfuel : (s.body dp).size ≤ direntSize * (0 + (s.body dp).size) := by
    rw [Nat.zero_add]
    exact Nat.le_mul_of_pos_left _ (by decide)
  exact dirSearch_runs (l := 0) h hl hdir hshort hfuel

theorem dirlookup_runs (h : Sound sb T s) (hl : s.live dp) (hdir : (s.body dp).type = .dir)
    (hT : Extra T₀ k T) :
    Runs sb A W D T₀ k (dirlookup sb dp name) s (fun r t => (s.view sb dp).type = .dir ∧
      match r with
      | none => t = s ∧ lookup name (s.view sb dp).slots = none
      | some (i, off) => Keeps sb T (i ::ₘ T) s t ∧ ∃ k de,
        lookup name (s.view sb dp).slots = some k ∧ (s.view sb dp).slots[k]? = some de ∧
          i = de.inum ∧ off = direntSize * k) := by
  have hpath : Runs sb A W D T₀ k (dirlookup sb dp name) s (fun _ _ => True) := by
    rw [dirlookup, Runs, treads_get, if_neg (not_not.2 hdir)]
    refine Treads.bind (dirSearch_all_runs h hl hdir (fun h => h)) ?_
    rintro ⟨off, r⟩ t ⟨rfl, hr⟩
    cases r with
    | none => exact treads_pure trivial
    | some de =>
      have hmem : de ∈ entries t.data (t.body dp) := by
        rw [Searched] at hr
        cases hidx : ((entries t.data (t.body dp)).drop 0).findIdx?
            (fun de => de.inum ≠ 0 ∧ namecmp name de.name) with
        | none =>
          rw [hidx] at hr
          cases hr.1
        | some n =>
          rw [hidx] at hr
          exact List.mem_of_getElem? hr.2.1.symm
      have hi : de.inum < sb.ninodes := by
        refine h.named dp de ?_
        rwa [slots_view hl (FS.mem_of_live h hl)]
      exact (iget_runs h hi hT).bind (fun _ _ _ => treads_pure trivial)
  exact hpath.ending (dirlookup_ends (P := False) h hl)

theorem iput_after_runs (hkeep : Keeps sb T (i ::ₘ T) s t) :
    Runs sb A W D T₀ k (iput sb i) t (fun _ u => Turn sb T T T s u (u.view sb = s.view sb)) := by
  refine (iput_runs hkeep.sound).mono ?_
  intro _ u hu
  refine ⟨hu.sound, hkeep.stays.trans hu.stays, fun ha => ?_⟩
  obtain ⟨ha', hview⟩ := hu.moves (hkeep.anchored ha)
  refine ⟨ha', ?_⟩
  rw [hview, hkeep.view, ha.settled_eq]

theorem iput_walked_runs (h : Sound sb (i ::ₘ T') s) (hT : T ⊆ T') :
    Runs sb A W D T₀ k (iput sb i) s (fun _ t => Walked sb T T' s t) :=
  (iput_runs h).ending (iput_walked (E := fun _ => True) h hT)

theorem writei_entry_runs (hD : D) (h : Sound sb T s) (hl : s.live dp) (hdir : (s.body dp).type = .dir)
    (hk : direntSize * (l + 1) ≤ (s.body dp).size ∨ direntSize * l = (s.body dp).size)
    (hbs : EntryBytes bs) (hinum : (decodeDirent bs).inum < sb.ninodes) :
    Runs sb A W D T₀ k (writei sb dp (fromKernel bs) (direntSize * l) direntSize) s (fun r t =>
      (r ≠ direntSize ∧ Keeps sb T T s t) ∨
      (r = direntSize ∧ Turn sb T T T s t (t.view sb = Function.update (s.view sb) dp
        { s.view sb dp with slots := putSlot (s.view sb dp).slots l (decodeDirent bs) }))) :=
  writei_runs h hl (.inl ⟨hD, hdir, l, bs, rfl, rfl, rfl, hbs⟩)
    (writei_entry_ends h hl hdir hk hbs.length hinum)

theorem writei_entry_present (h : Sound sb T s) (hl : s.live dp) (hdir : (s.body dp).type = .dir)
    (hk : direntSize * (l + 1) ≤ (s.body dp).size) (hlen : bs.length = direntSize) :
    Ends (writei sb dp (fromKernel bs) (direntSize * l) direntSize) s (fun r _ => r = direntSize) E := by
  have hd : direntSize = 16 := rfl
  have hb : bSize = 1024 := rfl
  have hbig : maxFile * bSize < 2 ^ 32 := by decide
  have hfilled := h.filled_live hl hdir
  rw [Nat.mul_add, Nat.mul_one] at hk
  have hmax : direntSize * l + 15 < maxFile * bSize := byteAt_lt (hfilled _ (by omega))
  refine (writei_puts h.blocks hl (FS.mem_of_live h hl) (h.typed dp hl) (by omega) (by omega) (by omega)
    (fun q hq => fromKernel_ne_none hlen hq)).imp ?_
  rintro _ t ⟨m, u, a, rfl, hput, -⟩
  have hle := hput.copied.le
  have hm : m = 0 ∨ m = direntSize := by
    rcases hput.copied.boundary with hm | hm | hm
    · exact .inr hm
    · exact .inl hm
    · rw [hd, hb] at hm
      omega
  rcases hm with rfl | rfl
  · -- The block of the entry is there, so that the copy goes on.
    have hpresent := hfilled (direntSize * l) (by omega)
    rw [hput.complete (fun q hq => fromKernel_ne_none hlen hq) hpresent]
  · rfl

theorem dirlink_runs (hD : D) (h : Sound sb T s) (hl : s.live dp) (hdir : (s.body dp).type = .dir)
    (hinum : inum < sb.ninodes) (hT : Extra T₀ k T) :
    Runs sb A W D T₀ k (dirlink sb dp name inum) s (fun r t =>
      (r < 0 ∧ Turn sb T T T s t (t.view sb = s.view sb)) ∨
      (r = 0 ∧ ∃ l, Turn sb T T T s t (Linked (s.view sb) (t.view sb) dp name inum l))) := by
  rw [dirlink]
  refine Treads.bind (dirlookup_runs h hl hdir hT) ?_
  rintro (_ | ⟨i, off⟩) t ⟨htype, hr⟩
  · obtain ⟨rfl, habsent⟩ := hr
    have hslots := slots_view hl (FS.mem_of_live h hl)
    have hlen := length_entries t.data hdir
    dsimp only
    rw [treads_get]
    refine Treads.bind (dirSearch_all_runs h hl hdir (fun h => h)) ?_
    rintro ⟨off, r⟩ u ⟨rfl, hs⟩
    obtain ⟨l, rfl, hk, hempty, -⟩ := hs.slot hdir
    rw [← hslots] at hempty
    have hdec := decode_encodeDirent inum name
    refine Treads.bind (writei_entry_runs hD h hl hdir hk (.inr ⟨inum, name, rfl⟩) ?_) ?_
    · rw [hdec]
      exact (Nat.mod_le _ _).trans_lt hinum
    · rintro r v (⟨hne, hkeep⟩ | ⟨rfl, hturn⟩)
      · rw [if_pos hne]
        exact treads_pure (.inl ⟨by decide, hkeep.turn⟩)
      · rw [if_neg (not_not.2 rfl)]
        refine treads_pure (.inr ⟨rfl, l, hturn.imp ?_⟩)
        intro hview
        rw [hdec] at hview
        refine ⟨htype, habsent, ?_, hempty, hview⟩
        rw [hslots, hlen]
        refine (Nat.le_div_iff_mul_le (by decide)).2 ?_
        rw [Nat.mul_comm]
        rcases hk with hk | hk
        · exact (Nat.mul_le_mul_left _ (Nat.le_succ l)).trans hk
        · exact hk.le
  · exact (iput_after_runs hr.1).bind (fun _ _ hu => treads_pure (.inl ⟨by decide, hu⟩))

theorem isdirempty_runs (h : Sound sb T s) (hl : s.live dp) (hdir : (s.body dp).type = .dir) :
    Runs sb A W D T₀ k (isdirempty sb dp) s (fun r t => t = s ∧
      (r = true ↔ ∀ e ∈ (s.view sb dp).slots.drop 2, e.inum = 0)) := by
  have hslots := slots_view hl (FS.mem_of_live h hl)
  have hfuel : (s.body dp).size ≤ direntSize * (2 + (s.body dp).size) :=
    (Nat.le_add_left _ _).trans (Nat.le_mul_of_pos_left _ (by decide))
  rw [isdirempty, Runs, treads_get, Nat.mul_comm]
  refine Treads.bind (dirSearch_runs h hl hdir (fun h => h) hfuel) ?_
  rintro ⟨off, r⟩ t ⟨rfl, hs⟩
  rw [Searched, ← hslots] at hs
  cases hidx : ((t.view sb dp).slots.drop 2).findIdx? (fun de => de.inum ≠ 0) with
  | none =>
    rw [hidx] at hs
    obtain ⟨rfl, -⟩ := hs
    refine treads_pure ⟨rfl, iff_of_true rfl ?_⟩
    intro e he
    simpa using List.findIdx?_eq_none_iff.1 hidx e he
  | some n =>
    rw [hidx] at hs
    obtain ⟨-, rfl, hlt⟩ := hs
    obtain ⟨hlt', hne, -⟩ := List.findIdx?_eq_some_iff_getElem.1 hidx
    rw [List.getElem?_eq_getElem hlt]
    refine treads_pure ⟨rfl, iff_of_false (by decide) ?_⟩
    intro hall
    exact absurd (hall _ (List.getElem_mem hlt')) (of_decide_eq_true hne)

/-- What a walk guarantees of its result; the parent that it returns is a directory. -/
structure Found (sb : Superblock) (T : Multiset ℕ) (cwd : ℕ) (path : Name) (parent : Bool) (s : FS)
    (r : Option (ℕ × Name)) (t : FS) : Prop where
  resolved : Resolved sb T parent (resolve (s.view sb) cwd path parent) s r t
  dir : parent = true → ∀ i name, r = some (i, name) → (t.body i).type = .dir

section Walks

variable {P : Prop} {want : Option (ℕ × Name)}

def ToDir (parent : Bool) (r : Option (ℕ × Name)) (t : FS) : Prop :=
  parent = true → ∀ i name, r = some (i, name) → (t.body i).type = .dir

theorem resolved_none (hwant : want = none) (h : Walked sb T T s t) :
    Resolved sb T parent want s none t ∧ ToDir parent none t :=
  ⟨⟨fun _ => hwant.symm, h, fun _ _ _ h => by cases h⟩, fun _ _ _ h => by cases h⟩

theorem namexEnd_runs (h : Sound sb (ip ::ₘ T) s) :
    Treads (Action sb A W D) (fun t e => Cause sb T₀ k t e ∧ Allowed P e) (namexEnd sb parent ip) s
      (fun r t => Resolved sb T parent (walkEnd parent ip) s r t ∧ ToDir parent r t) := by
  rw [namexEnd]
  cases parent with
  | true =>
    rw [if_pos rfl]
    refine ((iput_runs h).within (iput_walked h (fun _ h => h))).bind ?_
    exact fun _ t ht => treads_pure (resolved_none rfl ht)
  | false =>
    exact treads_pure ⟨⟨fun _ => rfl, ⟨h, .refl, fun _ => rfl⟩, fun h => by cases h⟩, fun h => by cases h⟩

/-- A walk holds one reference when it looks for the next inode. -/
theorem namexLoop_runs (h : Sound sb (ip ::ₘ T) s) (hT : Extra T₀ k T)
    (hP : P → Anchored sb T s ∧ Closed (s.view sb) ∧ (s.view sb ip).type ≠ .none) :
    Treads (Action sb A W D) (fun t e => Cause sb T₀ (k + 1) t e ∧ Allowed P e)
      (namexLoop sb parent fuel ip path) s
      (fun r t => Resolved sb T parent (walk (s.view sb) parent fuel ip path) s r t ∧ ToDir parent r t) := by
  induction fuel generalizing ip path s with
  | zero => exact namexEnd_runs h
  | succ fuel ih =>
    rw [namexLoop, walk]
    cases hskip : skipelem path with
    | none => exact namexEnd_runs h
    | some x =>
      obtain ⟨name, rest⟩ := x
      have hsub : T ⊆ ip ::ₘ T := Multiset.subset_cons T ip
      have hmem : ip ∈ ip ::ₘ T := Multiset.mem_cons_self ip T
      refine ((ilock_runs h hmem).within (ilock_ends h hmem (fun hp => (hP hp).2.2))).bind ?_
      rintro _ t ⟨hkeep, hl⟩
      have hst : Walked sb T (ip ::ₘ T) s t := hkeep.walked hsub
      have htype := hkeep.sound.type_live hl
      rw [hkeep.view] at htype
      dsimp only
      rw [treads_get]
      refine Treads.ite (fun hdir => ?_) (fun hdir => ?_)
      · refine ((iput_runs hkeep.sound).within (iput_walked hkeep.sound (fun _ h => h))).bind ?_
        intro _ u hu
        exact treads_pure (resolved_none (if_pos (by rwa [htype])) (hst.trans hu))
      · rw [if_neg (by rwa [htype] : ¬ (s.view sb ip).type ≠ .dir)]
        refine Treads.ite (fun hlast => ?_) (fun hlast => ?_)
        · rw [if_pos hlast]
          refine treads_pure ⟨⟨fun _ => rfl, hst, ?_⟩, ?_⟩
          · rintro - i name ⟨rfl, rfl⟩
            exact hl
          · rintro - i name ⟨rfl, rfl⟩
            exact not_not.1 hdir
        · rw [if_neg hlast]
          refine ((dirlookup_runs hkeep.sound hl (not_not.1 hdir) (hT.cons ip)).within
            (dirlookup_ends hkeep.sound hl)).bind ?_
          rintro (_ | ⟨next, off⟩) u ⟨-, hr⟩
          · obtain ⟨rfl, hnone⟩ := hr
            rw [hkeep.view] at hnone
            refine ((iput_runs hkeep.sound).within (iput_walked hkeep.sound (fun _ h => h))).bind ?_
            intro _ v hv
            exact treads_pure (resolved_none (by rw [childOf, hnone]; rfl) (hst.trans hv))
          · obtain ⟨hkeep', k, de, hk, hde, rfl, -⟩ := hr
            have hview := hkeep'.view.trans hkeep.view
            rw [hkeep.view] at hk hde
            have hnext : childOf (s.view sb) ip name = some de.inum := by
              rw [childOf, hk, Option.bind_some, hde, Option.map_some]
            have hsound : Sound sb (ip ::ₘ de.inum ::ₘ T) u := by
              rw [Multiset.cons_swap]
              exact hkeep'.sound
            refine ((iput_runs hsound).within (iput_walked hsound (Multiset.subset_cons T de.inum))).bind ?_
            intro _ v hv
            have hsv : Walked sb T (de.inum ::ₘ T) s v := (hst.trans (hkeep'.walked hsub)).trans hv
            obtain ⟨de', hde', hne, -⟩ := lookup_eq_some hk
            obtain rfl : de = de' := Option.some.inj (hde.symm.trans hde')
            have hPv : P → Anchored sb T v ∧ Closed (v.view sb) ∧ (v.view sb de.inum).type ≠ .none := by
              intro hp
              obtain ⟨ha, hclosed, -⟩ := hP hp
              rw [hsv.still ha]
              exact ⟨hsv.anchored ha, hclosed, hclosed ip de (List.mem_of_getElem? hde) hne⟩
            refine (ih hv.sound hPv).mono ?_
            rintro r w ⟨hr, hrdir⟩
            refine ⟨⟨fun ha => ?_, hsv.reached hr.reached, hr.live⟩, hrdir⟩
            rw [hnext, hr.eq (hsv.anchored ha), hsv.still ha]
            rfl

theorem namex_walks (h : Sound sb T s) (hcwd : cwd ∈ T) (hT : Extra T₀ k T)
    (hP : P → Navigable sb T s cwd) :
    Treads (Action sb A W D) (fun t e => Cause sb T₀ (k + 1) t e ∧ Allowed P e) (namex sb cwd path parent) s
      (Found sb T cwd path parent s) := by
  have hrest : ∀ ip t, ip = (if path.head? = some slash then rootIno else cwd) →
      Keeps sb T (ip ::ₘ T) s t → Treads (Action sb A W D)
        (fun t e => Cause sb T₀ (k + 1) t e ∧ Allowed P e) (namexLoop sb parent path.length ip path) t
        (Found sb T cwd path parent s) := by
    intro ip t hip hkeep
    have hst : Walked sb T (ip ::ₘ T) s t := hkeep.walked (fun _ h => h)
    have hPt : P → Anchored sb T t ∧ Closed (t.view sb) ∧ (t.view sb ip).type ≠ .none := by
      intro hp
      have hnav := hP hp
      rw [hkeep.view]
      refine ⟨hst.anchored hnav.anchored, hnav.closed, ?_⟩
      rw [hip]
      split
      · exact hnav.root
      · exact hnav.cwd
    refine (namexLoop_runs hkeep.sound hT hPt).mono ?_
    rintro r u ⟨hr, hdir⟩
    refine ⟨⟨fun ha => ?_, hst.reached hr.reached, hr.live⟩, hdir⟩
    rw [hr.eq (hst.anchored ha), hkeep.view, resolve, hip]
  rw [namex]
  refine Treads.ite (fun hslash => ?_) (fun hslash => ?_)
  · have hroot := h.blocks.sane.root_lt
    refine ((iget_runs h hroot (hT.mono (Nat.le_succ k))).within (iget_ends h hroot)).bind ?_
    rintro _ t ⟨rfl, hkeep⟩
    exact hrest _ t (if_pos hslash).symm hkeep
  · refine ((idup_runs h hcwd).within (idup_ends h hcwd)).bind ?_
    rintro _ t ⟨rfl, hkeep⟩
    exact hrest _ t (if_neg hslash).symm hkeep

end Walks

theorem namex_runs (h : Sound sb T s) (hcwd : cwd ∈ T) (hT : Extra T₀ k T) :
    Runs sb A W D T₀ (k + 1) (namex sb cwd path parent) s (Found sb T cwd path parent s) :=
  (namex_walks (P := False) h hcwd hT False.elim).weaken (fun _ _ h => h) (fun _ _ h => h.1)

theorem nameiparent_runs (h : Sound sb T s) (hcwd : cwd ∈ T) (hT : Extra T₀ k T) :
    Runs sb A W D T₀ (k + 1) (nameiparent sb cwd path) s (Found sb T cwd path true s) :=
  namex_runs h hcwd hT

end Xv6.FileSystem
