import Xv6.FileActions
import Xv6.FileCalls
import Xv6.PathWalk

/-!
# Functions as paths of actions

The functions of the inode and directory layers take the actions of `Xv6.FileActions`, and
panic for few causes: a full inode table, an inode without a type, a directory whose size is no
multiple of that of an entry.
-/

namespace Xv6.FileSystem

open ActionPaths ByteBlocks Function PanicPrograms Relation

/-- `T` has at most `k` references more than `T₀`. -/
def Extra (T₀ : Multiset ℕ) (k : ℕ) (T : Multiset ℕ) : Prop := ∃ D : Multiset ℕ, D.card ≤ k ∧ T = D + T₀

/-- Why a call that started with the references `T₀` panics, in the state where it does. When
the inode table is full, it holds at most `k` references more. -/
def Cause (sb : Superblock) (T₀ : Multiset ℕ) (k : ℕ) (s : FS) : Panic → Prop
  | .igetNoInodes => nInode ≤ s.active ∧ ∃ T, Extra T₀ k T ∧ Sound sb T s
  | .ilockNoType => True
  | .dirlookupRead => ¬ s.Aligned sb
  | .dirlinkRead => ¬ s.Aligned sb
  | .isdiremptyReadi => ¬ s.Aligned sb
  | _ => False

/-- A call gets to its end by actions, or panics for a cause. -/
abbrev Runs {α : Type} (sb : Superblock) (A W : ℕ → Prop) (D : Prop) (T₀ : Multiset ℕ) (k : ℕ) (m : M α) (s : FS)
    (Q : α → FS → Prop) : Prop := Treads (Action sb A W D) (Cause sb T₀ k) m s Q

variable {sb : Superblock} {A W : ℕ → Prop} {T₀ T : Multiset ℕ} {s t u : FS} {i j k n off dp ip : ℕ}
  {D P : Prop} {E : Panic → Prop}

theorem Extra.self : Extra T₀ k T₀ := ⟨0, Nat.zero_le k, (zero_add T₀).symm⟩

theorem Extra.cons (h : Extra T₀ k T) (i : ℕ) : Extra T₀ (k + 1) (i ::ₘ T) := by
  obtain ⟨D, hcard, rfl⟩ := h
  exact ⟨i ::ₘ D, by rw [Multiset.card_cons]; omega, (Multiset.cons_add i D T₀).symm⟩

theorem Extra.mono {l : ℕ} (h : Extra T₀ k T) (hk : k ≤ l) : Extra T₀ l T := by
  obtain ⟨D, hcard, hT⟩ := h
  exact ⟨D, hcard.trans hk, hT⟩

theorem Sound.current_eq_of {T' : Multiset ℕ} (h : Sound sb T s) (h' : Sound sb T' t)
    (hdinode : t.dinode = s.dinode) : t.current = s.current := by
  funext j
  rw [h'.current_eq, h.current_eq, hdinode]

theorem Sound.current_update {T' : Multiset ℕ} {d : Dinode} (h : Sound sb T s) (h' : Sound sb T' t)
    (hdinode : t.dinode = Function.update s.dinode i d) :
    t.current = Function.update s.current i d := by
  funext j
  rw [h'.current_eq, hdinode]
  rcases eq_or_ne j i with rfl | hne
  · rw [Function.update_self, Function.update_self]
  · rw [Function.update_of_ne hne, Function.update_of_ne hne, h.current_eq]

theorem Sound.inUse_eq (h : Sound sb T s) : s.inUse sb = T.toFinset := by
  ext i
  rw [FS.mem_inUse, h.ref_pos, Multiset.mem_toFinset]
  exact ⟨fun hi => hi.2, fun hi => ⟨h.lt i hi, hi⟩⟩

theorem Extra.card_le (h : Extra T₀ k T) : T.toFinset.card ≤ T₀.toFinset.card + k := by
  obtain ⟨D, hcard, rfl⟩ := h
  rw [Multiset.toFinset_add]
  have hunion := Finset.card_union_le D.toFinset T₀.toFinset
  have hD := D.toFinset_card_le
  omega

theorem iget_table : Ends (iget i) s (fun _ t => t.data = s.data ∧ t.dinode = s.dinode ∧
    (∀ j, (t.inode j).ref = (s.inode j).ref + if j = i then 1 else 0) ∧
    t.active = s.active + if (s.inode i).ref = 0 then 1 else 0)
    (fun e => e = .igetNoInodes ∧ nInode ≤ s.active) := by
  have href : ∀ (x : Inode), x.ref = (s.inode i).ref + 1 → ∀ j,
      (update s.inode i x j).ref = (s.inode j).ref + if j = i then 1 else 0 := by
    intro x hx j
    rcases eq_or_ne j i with rfl | hne
    · rw [update_self, if_pos rfl, hx]
    · rw [update_of_ne hne, if_neg hne, Nat.add_zero]
  simp only [iget, ends_bind, ends_get]
  refine ends_ite (fun hpos => ?_) (fun hzero => ends_ite (fun hfull => ⟨rfl, hfull⟩) (fun _ => ?_))
  · refine ⟨rfl, rfl, href _ rfl, ?_⟩
    rw [if_neg (by omega)]
    rfl
  · refine ⟨rfl, rfl, href _ ?_, ?_⟩
    · dsimp only
      omega
    · rw [if_pos (by omega)]

theorem iget_runs (h : Sound sb T s) (hi : i < sb.ninodes) (hT : Extra T₀ k T) :
    Runs sb A W D T₀ k (iget i) s (fun r t => r = i ∧ Keeps sb T (i ::ₘ T) s t) := by
  refine ((iget_ends (P := False) h hi).both iget_table).mono ?_ ?_
  · rintro r t ⟨⟨rfl, hkeep⟩, hdata, hdinode, href, hactive⟩
    exact ⟨.single (.get hi hdata (h.current_eq_of hkeep.sound hdinode) href hactive), rfl, hkeep⟩
  · rintro e ⟨-, rfl, hfull⟩
    exact ⟨s, .refl, hfull, T, hT, h⟩

theorem idup_runs (h : Sound sb T s) (hi : i ∈ T) :
    Runs sb A W D T₀ k (idup i) s (fun r t => r = i ∧ Keeps sb T (i ::ₘ T) s t) := by
  have hpos : 0 < (s.inode i).ref := h.ref_pos.2 hi
  refine Ends.mono (idup_ends (E := fun _ => False) h hi |>.both (R := fun _ t => t = s.setInode i
    { s.inode i with ref := (s.inode i).ref + 1 }) (F := fun _ => False) rfl) ?_ (fun _ he => he.1.elim)
  rintro r t ⟨⟨rfl, hkeep⟩, rfl⟩
  refine ⟨.single (.get (h.lt r hi) rfl (h.current_eq_of hkeep.sound rfl) (fun j => ?_) ?_), rfl, hkeep⟩
  · simp only [FS.setInode]
    rcases eq_or_ne j r with rfl | hne
    · rw [update_self, if_pos rfl]
    · rw [update_of_ne hne, if_neg hne, Nat.add_zero]
  · rw [if_neg (by omega)]
    rfl

theorem ilock_table (hpos : 0 < (s.inode i).ref) : Ends (ilock i) s (fun _ t => t.data = s.data ∧
    t.dinode = s.dinode ∧ SameTable s t) (fun e => e = .ilockNoType) := by
  simp only [ilock, ends_bind, ends_get]
  refine ends_ite (fun hzero => absurd hzero (by omega)) (fun _ => ?_)
  refine ends_ite (fun _ => ⟨rfl, rfl, .refl⟩) (fun _ => ?_)
  simp only [ends_bind, ends_modify]
  refine ends_ite (fun _ => rfl) (fun _ => ⟨rfl, rfl, fun j => ?_, rfl⟩)
  simp only [FS.setInode]
  rcases eq_or_ne j i with rfl | hne
  · rw [update_self]
  · rw [update_of_ne hne]

theorem ilock_runs (h : Sound sb T s) (hi : i ∈ T) :
    Runs sb A W D T₀ k (ilock i) s (fun _ t => Keeps sb T T s t ∧ t.live i) := by
  refine ((ilock_ends (P := False) h hi (fun hp => hp.elim)).both (ilock_table (h.ref_pos.2 hi))).mono ?_ ?_
  · rintro _ t ⟨⟨hkeep, hl⟩, hdata, hdinode, htable⟩
    exact ⟨.single (.load hdata (h.current_eq_of hkeep.sound hdinode) htable), hkeep, hl⟩
  · rintro e ⟨-, rfl⟩
    exact ⟨s, .refl, trivial⟩

section Active

theorem logWrite_active {b : ℕ} : Preserves FS.active E (logWrite b) := fun _ => rfl

theorem balloc_active : Preserves FS.active E (balloc sb) := by
  intro s
  simp only [balloc, ends_bind, ends_get]
  cases firstFree s.bitmap sb.size 0 <;> rfl

theorem bfree_active {b : ℕ} (hE : E .freeingFreeBlock) : Preserves FS.active E (bfree sb b) := by
  intro s
  simp only [bfree, ends_bind, ends_get]
  exact ends_ite (fun _ => hE) (fun _ => rfl)

theorem orAlloc_active {addr : ℕ} {store : ℕ → M Unit} (h : ∀ b, Preserves FS.active E (store b)) :
    Preserves FS.active E (orAlloc sb addr store) := by
  rw [orAlloc]
  refine (preserves_pure addr).ite (balloc_active.bind (fun b => ?_))
  exact ((h b).bind (fun _ => preserves_pure b)).ite (preserves_pure b)

theorem bmap_active {bn : ℕ} (hE : E .bmapOutOfRange) : Preserves FS.active E (bmap sb i bn) := by
  rw [bmap]
  refine preserves_get.bind (fun s => Preserves.ite ?_ (Preserves.ite ?_ (preserves_throw hE)))
  · exact orAlloc_active (fun b => fun _ => rfl)
  · refine Preserves.bind (orAlloc_active (fun b => fun _ => rfl)) (fun ind => ?_)
    refine (preserves_pure 0).ite (preserves_get.bind (fun s => orAlloc_active (fun b => ?_)))
    exact fun _ => rfl

theorem writeiLoop_active {src : ℕ → Option Byte} {fuel tot : ℕ} (hE : E .bmapOutOfRange) :
    Preserves FS.active E (writeiLoop sb i src fuel off n tot) := by
  induction fuel generalizing off n tot with
  | zero => exact preserves_pure _
  | succ fuel ih =>
    rw [writeiLoop]
    refine (preserves_pure _).ite ((bmap_active hE).bind (fun addr => (preserves_pure _).ite ?_))
    refine Preserves.bind (preserves_modify ?_) (fun _ => (preserves_pure _).ite ?_)
    · exact fun _ => rfl
    · exact logWrite_active.bind (fun _ => ih)

theorem writei_active {src : ℕ → Option Byte} (hE : E .bmapOutOfRange) :
    Preserves FS.active E (writei sb i src off n) := by
  rw [writei]
  refine preserves_get.bind (fun s => (preserves_pure _).ite ((preserves_pure _).ite ?_))
  refine (writeiLoop_active hE).bind (fun r => Preserves.bind (preserves_modify ?_) (fun _ => ?_))
  · intro s
    split <;> rfl
  · refine Preserves.bind ?_ (fun _ => preserves_pure _)
    exact fun _ => rfl

theorem itrunc_active (hE : E .freeingFreeBlock) : Preserves FS.active E (itrunc sb i) := by
  have hdirect : ∀ k, Preserves FS.active E (truncDirect sb i k) := by
    intro k
    rw [truncDirect]
    refine preserves_get.bind (fun s => Preserves.ite ?_ (preserves_pure _))
    refine (bfree_active hE).bind (fun _ => preserves_modify ?_)
    exact fun _ => rfl
  have hindirect : ∀ ind j, Preserves FS.active E (truncIndirect sb ind j) := by
    intro ind j
    rw [truncIndirect]
    exact preserves_get.bind (fun s => (bfree_active hE).ite (preserves_pure _))
  have hend : Preserves FS.active E (do
      modify (fun s => s.setBody i { s.body i with size := 0 })
      iupdate sb i) := fun _ => rfl
  rw [itrunc]
  refine (Preserves.forM hdirect _).bind (fun _ => preserves_get.bind (fun s => Preserves.ite ?_ hend))
  refine (Preserves.forM (hindirect _) _).bind (fun _ => (bfree_active hE).bind (fun _ => ?_))
  refine Preserves.bind (preserves_modify ?_) (fun _ => hend)
  exact fun _ => rfl

end Active

theorem relabel_runs (h : Sound sb T s) (hl : s.live i) {g : Dinode → Dinode}
    (hg : ∀ d, (g d).type = d.type ∧ (g d).size = d.size ∧ (g d).addrs = d.addrs) :
    Runs sb A W D T₀ k (do
      modify (fun s => s.setBody i (g (s.body i)))
      iupdate sb i) s
      (fun _ t => Sound sb T t ∧ Stays T s t ∧ t.view sb = update (s.view sb) i
        { s.view sb i with nlink := (g (s.body i)).nlink }) := by
  have hself := FS.current_of_live hl
  have htable : Ends (do
      modify (fun s => s.setBody i (g (s.body i)))
      iupdate sb i) s (fun _ t => t.data = s.data ∧ SameTable s t ∧
        t.dinode = update s.dinode i (g (s.body i))) (fun _ => False) := by
    refine ⟨rfl, ⟨fun j => ?_, rfl⟩, congrArg (update s.dinode i) FS.body_setBody_self⟩
    simp only [FS.setDinode, FS.setBody, FS.setInode]
    rcases eq_or_ne j i with rfl | hne
    · rw [update_self]
    · rw [update_of_ne hne]
  refine ((relabel_ends (E := fun _ => False) h hl hg).both htable).mono ?_ (fun _ he => he.1.elim)
  rintro _ t ⟨⟨hsound, hstays, hview⟩, hdata, hsame, hdinode⟩
  exact ⟨.single (.relabel hdata (h.current_update hsound hdinode) (by rw [hself]; exact hg _) hsame),
    hsound, hstays, hview⟩

/-- The namespace after a change of the link count of inode `i`. -/
def setLink (v : ℕ → Node) (i : ℕ) (f : ℤ → ℤ) : ℕ → Node :=
  update v i { v i with nlink := short (f (v i).nlink) }

theorem Sound.nlink_live (h : Sound sb T s) (hl : s.live i) :
    (s.view sb i).nlink = (s.body i).nlink := by
  have hself := FS.current_of_live hl
  rw [FS.nlink_view (FS.mem_of_live h hl) (by rw [hself]; exact h.typed i hl), hself]

theorem setNlink_runs {f : ℤ → ℤ} (h : Sound sb T s) (hl : s.live i) :
    Runs sb A W D T₀ k (setNlink sb i f) s
      (fun _ t => Turn sb T T T s t (t.view sb = setLink (s.view sb) i f)) := by
  refine (relabel_runs h hl (g := fun d => { d with nlink := short (f d.nlink) })
    (fun _ => ⟨rfl, rfl, rfl⟩)).mono ?_
  rintro _ t ⟨hsound, hstays, hview⟩
  rw [← h.nlink_live hl] at hview
  exact .of_update h hl hsound hstays hview

theorem Truncated.sameTable (h : Truncated sb i s t) (hactive : t.active = s.active) :
    SameTable s t := by
  obtain ⟨a, -, hinode, -⟩ := h.inode
  refine ⟨fun j => ?_, hactive⟩
  rw [hinode]
  simp only [FS.setBody, FS.setInode]
  rcases eq_or_ne j i with rfl | hne
  · rw [update_self]
  · rw [update_of_ne hne]

/-- The actions of a freeing `iput`: in `u` the inode is free, in `w` the reference is gone. -/
theorem free_path {v w : FS} {d x y : _} (hi : i < sb.ninodes) (href : (s.inode i).ref = 1)
    (htr : Truncated sb i s t) (hactive : t.active = s.active) (hdata : v.data = t.data)
    (hdinode : v.dinode = update t.dinode i d) (hnone : d.type = .none)
    (hinode : v.inode = update t.inode i x) (hx : x.ref = 1 ∧ x.valid = false)
    (hactive' : v.active = t.active) (hdata' : w.data = v.data) (hdinode' : w.dinode = v.dinode)
    (hinode' : w.inode = update v.inode i y) (hy : y.ref = 0 ∧ y.valid = false)
    (hactive'' : w.active = v.active - 1) : ReflTransGen (Action sb A W D) s w := by
  obtain ⟨a, -, htinode, htdinode⟩ := htr.inode
  have hcur : v.current = update s.current i d := by
    funext j
    rcases eq_or_ne j i with rfl | hne
    · rw [FS.current_of_not_live (fun hl => by simpa [hinode, hx.2] using hl.2), hdinode,
        update_self, update_self]
    · rw [update_of_ne hne]
      refine FS.current_congr ?_ ?_
      · rw [hinode, update_of_ne hne, htinode]
        exact update_of_ne hne _ _
      · rw [hdinode, update_of_ne hne, htdinode, update_of_ne hne]
  have hcur' : w.current = v.current := by
    funext j
    rcases eq_or_ne j i with rfl | hne
    · rw [FS.current_of_not_live (fun hl => by simpa [hinode', hy.2] using hl.2), hdinode',
        FS.current_of_not_live (fun hl => by simpa [hinode, hx.2] using hl.2)]
    · refine FS.current_congr ?_ (congrFun hdinode' j)
      rw [hinode', update_of_ne hne]
  have htable : SameTable s v := by
    have hsame := htr.sameTable hactive
    refine ⟨fun j => ?_, hactive'.trans hsame.active⟩
    rw [hinode]
    rcases eq_or_ne j i with rfl | hne
    · rw [update_self, hx.1, href]
    · rw [update_of_ne hne, hsame.ref]
  have hone : (v.inode i).ref = 1 := by rw [htable.ref, href]
  refine .tail (.single (.erase (hdata.trans htr.data) hcur hnone htable))
    (.put hi (by omega) hdata' hcur' (fun j => ?_) (by rw [if_pos hone, hactive'']))
  rw [hinode']
  rcases eq_or_ne j i with rfl | hne
  · rw [update_self, if_pos rfl, hy.1, hone]
  · rw [update_of_ne hne, if_neg hne, Nat.sub_zero]

theorem iput_runs (h : Sound sb (i ::ₘ T) s) :
    Runs sb A W D T₀ k (iput sb i) s (fun _ t => Turn sb T (i ::ₘ T) T s t
      (t.view sb = settled T (s.view sb) i)) := by
  have hi : i < sb.ninodes := h.lt i (Multiset.mem_cons_self i T)
  have hpos : 0 < (s.inode i).ref := h.ref_pos.2 (Multiset.mem_cons_self i T)
  have hpath : Ends (iput sb i) s (fun _ t => Sound sb T t → ReflTransGen (Action sb A W D) s t)
      (fun _ => False) := by
    simp only [iput, ends_bind, ends_get]
    refine ends_ite ?_ ?_
    · rintro ⟨href, hvalid, -⟩
      have hl : s.live i := ⟨hpos, hvalid⟩
      rw [ends_bind]
      refine ((itrunc_ends (E := fun _ => False) h.blocks hl hi (h.typed i hl)).both
        (itrunc_active (E := fun _ => True) trivial s)).mono ?_ (fun _ he => he.1)
      rintro _ t ⟨htr, hactive⟩
      have htref : (t.inode i).ref = 1 := by
        obtain ⟨a, -, htinode, -⟩ := htr.inode
        rw [htinode]
        simpa [FS.setBody, FS.setInode] using href
      simp only [iupdate, logWrite, ends_bind, ends_modify]
      intro _
      refine free_path (v := { ((t.setBody i { t.body i with type := .none }).setDinode i
        { t.body i with type := .none }).setInode i ⟨1, false, { t.body i with type := .none }⟩ with
          logged := t.logged ++ [sb.iblock i] })
        (x := ⟨1, false, { t.body i with type := .none }⟩)
        (y := ⟨0, false, { t.body i with type := .none }⟩) hi href htr hactive rfl rfl rfl ?_ ⟨rfl, rfl⟩
        rfl rfl ?_ ?_ ⟨rfl, rfl⟩ ?_
      · simp [FS.setInode, FS.setBody, FS.setDinode]
      · exact congrArg (update t.dinode i) FS.body_setBody_self
      · simp [FS.setInode, FS.setBody, FS.setDinode, htref]
      · simp [FS.setInode, FS.setBody, FS.setDinode, htref]
    · intro _
      rw [ends_modify]
      intro hsound
      refine .single (.put hi hpos rfl (h.current_eq_of hsound rfl) (fun j => ?_) ?_)
      · simp only [FS.setInode]
        rcases eq_or_ne j i with rfl | hne
        · rw [update_self, if_pos rfl]
        · rw [update_of_ne hne, if_neg hne, Nat.sub_zero]
      · dsimp only
        split <;> rfl
  refine ((iput_ends (E := fun _ => False) h).both hpath).mono ?_ (fun _ he => he.1.elim)
  rintro _ t ⟨hturn, hpath⟩
  exact ⟨hpath hturn.sound, hturn⟩

theorem ialloc_runs {type : FileType} (h : Sound sb T s) (htype : type ≠ .none) (hT : Extra T₀ k T)
    (hA : ∀ i, (s.view sb i).type = .none → A i) :
    Runs sb A W D T₀ k (ialloc sb type) s (fun r t => match r with
      | none => t = s
      | some i => Fresh sb T type s i t) := by
  have hpath : Runs sb A W D T₀ k (ialloc sb type) s (fun _ _ => True) := by
    rw [ialloc, Runs, treads_get]
    cases hfree : firstFree (fun i => (s.dinode i).type ≠ .none) (sb.ninodes - 1) 1 with
    | none => exact treads_pure trivial
    | some i =>
      obtain ⟨hused, hlow, hhigh⟩ := firstFree_spec hfree
      have hnone : (s.dinode i).type = .none := by simpa using hused
      have hi : i < sb.ninodes := by omega
      obtain ⟨hsound, -⟩ := h.allocInode (t := { s.setDinode i (newDinode type) with
        logged := s.logged ++ [sb.iblock i] }) hi hnone htype rfl rfl rfl rfl
      have hstep : Action sb A W D s { s.setDinode i (newDinode type) with
          logged := s.logged ++ [sb.iblock i] } := by
        have hfree : (s.current i).type = .none := by rw [h.current_eq, hnone]
        refine .alloc (hA i ?_) hfree rfl (h.current_update hsound rfl) ⟨fun _ => rfl, rfl⟩
        rw [FS.type_view hi, hfree]
      have hset : Treads (Action sb A W D) (Cause sb T₀ k) (do
          modify (fun s => s.setDinode i (newDinode type))
          logWrite (sb.iblock i)) s (fun _ t => t = { s.setDinode i (newDinode type) with
            logged := s.logged ++ [sb.iblock i] }) := ⟨.single hstep, rfl⟩
      have hrest : Treads (Action sb A W D) (Cause sb T₀ k) ((do
          modify (fun s => s.setDinode i (newDinode type))
          logWrite (sb.iblock i)) >>= fun _ => some <$> iget i) s (fun _ _ => True) := by
        refine hset.bind ?_
        rintro _ t rfl
        exact ((iget_runs hsound hi hT).mono (fun _ _ _ => trivial)).map
      exact hrest
  exact hpath.ending (ialloc_ends (P := False) h htype)

theorem Wrote.sameTable {src : ℕ → Option Byte} {m : ℕ} {a : ℕ → ℕ}
    (h : Wrote sb i src off n s t m u a) (hactive : t.active = s.active) : SameTable s t := by
  refine ⟨fun j => ?_, hactive⟩
  rw [h.inode]
  simp only [FS.setBody, FS.setInode]
  rcases eq_or_ne j i with rfl | hne
  · rw [update_self]
  · rw [update_of_ne hne]

theorem writei_runs {src : ℕ → Option Byte} {Q : ℤ → FS → Prop} (h : Sound sb T s) (hl : s.live i)
    (target : (D ∧ (s.body i).type = .dir ∧ EntryWrite off n src) ∨
      (s.body i).type ≠ .dir ∧ W i) (hQ : Ends (writei sb i src off n) s Q (fun _ => False)) :
    Runs sb A W D T₀ k (writei sb i src off n) s Q := by
  have hends : Ends (writei sb i src off n) s _ (fun _ => True) := writei_ends h hl
  have hboth := hends.both (writei_active (E := fun _ => True) trivial s)
  refine (hboth.both hQ).mono ?_ (fun _ he => he.2.elim)
  rintro r t ⟨⟨hwrite, hactive⟩, hq⟩
  rcases hwrite with ⟨-, rfl⟩ | ⟨m, u, a, -, hw⟩
  · exact ⟨.refl, hq⟩
  · exact ⟨.single (.write (FS.mem_of_live h hl) hl (h.typed i hl) target hw (hw.sameTable hactive)), hq⟩

theorem itrunc_runs (h : Sound sb T s) (hl : s.live i) (hfile : (s.body i).type ≠ .dir) (hW : W i) :
    Runs sb A W D T₀ k (itrunc sb i) s (fun _ t => Keeps sb T T s t) := by
  have hi := FS.mem_of_live h hl
  have hself := FS.current_of_live hl
  refine (((itrunc_file_ends (E := fun _ => False) h hl hfile).both
    (itrunc_ends (E := fun _ => True) h.blocks hl hi (h.typed i hl))).both
      (itrunc_active (E := fun _ => True) trivial s)).mono ?_ (fun _ he => he.1.1.elim)
  rintro _ t ⟨⟨hkeep, htr⟩, hactive⟩
  obtain ⟨a, -, -, hdinode⟩ := htr.inode
  refine ⟨.single (.trunc hW (by rwa [hself]) htr.data (h.current_update hkeep.sound hdinode)
    (by rw [hself]) rfl (htr.sameTable hactive)), hkeep⟩

end Xv6.FileSystem
