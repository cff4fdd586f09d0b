import Xv6.LinkCalls

/-!
# What `create` does to the namespace

Like the other calls it is a path of actions.
-/

namespace Xv6.FileSystem

open ActionPaths ByteBlocks Function PanicPrograms

variable {sb : Superblock} {A W : ℕ → Prop} {T₀ T : Multiset ℕ} {s t u : FS} {i k ip dp cwd : ℕ}
  {name path : Name} {type : FileType} {major minor : ℤ} {D : Prop}

/-- `A` has the inodes that are free in `s`, and in a state that a walk leaves. -/
def Offered (sb : Superblock) (T : Multiset ℕ) (s : FS) (A : ℕ → Prop) : Prop :=
  ∀ t : FS, (Anchored sb T s → t.view sb = s.view sb) → ∀ i, (t.view sb i).type = .none → A i

/-- Inode numbers fit into the `ushort` of an entry, and whatever is held is allocated. -/
structure Orderly (sb : Superblock) (T : Multiset ℕ) (v : ℕ → Node) : Prop where
  small : sb.ninodes ≤ 2 ^ 16
  held : ∀ i ∈ T, (v i).type ≠ .none

/-- A new inode; a directory has its first two entries. -/
def newNode (type : FileType) (dp ip : ℕ) : Node :=
  ⟨type, 1, if type = .dir then
    [⟨ip % 2 ^ 16, padName dot⟩, ⟨dp % 2 ^ 16, padName dotdot⟩] else []⟩

/-- The namespace after `create` has made inode `ip` and entered it in slot `k` of `dp`. -/
def created (T : Multiset ℕ) (v : ℕ → Node) (dp ip : ℕ) (name : Name) (type : FileType) (k : ℕ) :
    ℕ → Node :=
  let linked := update (update v ip (newNode type dp ip)) dp
    { v dp with slots := putSlot (v dp).slots k ⟨ip % 2 ^ 16, padName name⟩ }
  settled (ip ::ₘ T) (if type = .dir then setLink linked dp (· + 1) else linked) dp

/-- The directory, the slot and the inode that `create` has found. -/
structure Creates (sb : Superblock) (v : ℕ → Node) (cwd : ℕ) (path : Name) (dp ip : ℕ) (name : Name)
    (k : ℕ) : Prop where
  parent : resolve v cwd path true = some (dp, name)
  dir : (v dp).type = .dir
  absent : lookup name (v dp).slots = none
  le : k ≤ (v dp).slots.length
  empty : ∀ e, (v dp).slots[k]? = some e → e.inum = 0
  pos : 0 < ip
  lt : ip < sb.ninodes
  free : v ip = Node.free

/-- What `create` may do to the namespace when it returns `ip`. -/
def CreateEffect (sb : Superblock) (T : Multiset ℕ) (cwd : ℕ) (path : Name) (type : FileType) (ip : ℕ)
    (v w : ℕ → Node) : Prop :=
  (w = v ∧ ((v ip).type = .file ∨ (v ip).type = .device)) ∨
  ∃ dp name k, Creates sb v cwd path dp ip name k ∧ w = created T v dp ip name type k

theorem createDots_runs (hD : D) (h : Sound sb T s) (hip : s.AtDir ip) (hdp : dp < sb.ninodes)
    (hT : Extra T₀ k T) :
    Runs sb A W D T₀ k (createDots sb dp ip) s (fun ok t => Turn sb T T T s t
      (if ok = true then ∃ x k l, Linked (s.view sb) x ip dot ip k ∧
          Linked x (t.view sb) ip dotdot dp l
        else ∃ slots, t.view sb = update (s.view sb) ip
          { s.view sb ip with slots := slots })) := by
  have hmem := (h.live_iff.1 hip.live).1
  rw [createDots]
  refine Treads.bind (dirlink_runs hD h hip.live hip.dir (FS.mem_of_live h hip.live) hT) ?_
  rintro r t (⟨hneg, ht⟩ | ⟨rfl, k, ht⟩)
  · rw [if_pos hneg]
    refine treads_pure (ht.imp ?_)
    intro hview
    rw [hview]
    exact ⟨(s.view sb ip).slots, (update_eq_self _ _).symm⟩
  · have hipt := hip.stays h ht.sound ht.stays hmem hmem
    rw [if_neg (by decide)]
    refine Treads.bind (dirlink_runs hD ht.sound hipt.live hipt.dir hdp hT) ?_
    rintro r u (⟨hneg, hu⟩ | ⟨rfl, l, hu⟩)
    · refine treads_pure ((ht.trans hu).imp ?_)
      rintro ⟨hlinked, huv⟩
      rw [if_neg (by simpa using hneg), huv, hlinked.eq]
      exact ⟨_, rfl⟩
    · refine treads_pure ((ht.trans hu).imp ?_)
      rintro ⟨hlinked, hlinked'⟩
      exact ⟨_, k, l, hlinked, hlinked'⟩

theorem Linked.dots {v x w : ℕ → Node} {l : ℕ} (h : Linked v x ip dot ip k)
    (h' : Linked x w ip dotdot dp l) (hslots : (v ip).slots = []) (hpos : 0 < ip % 2 ^ 16) :
    w = update v ip { v ip with
      slots := [⟨ip % 2 ^ 16, padName dot⟩, ⟨dp % 2 ^ 16, padName dotdot⟩] } := by
  have hk : k = 0 := by
    have hle := h.le
    rw [hslots] at hle
    exact Nat.le_zero.1 hle
  have hx : x = update v ip { v ip with slots := [⟨ip % 2 ^ 16, padName dot⟩] } := by
    rw [h.eq, hslots, hk]
    rfl
  have hxs : (x ip).slots = [⟨ip % 2 ^ 16, padName dot⟩] := by rw [hx, update_self]
  have hl : l = 1 := by
    have hle := h'.le
    rw [hxs] at hle
    have hne : l ≠ 0 := by
      rintro rfl
      have hzero := h'.empty ⟨ip % 2 ^ 16, padName dot⟩ (by rw [hxs]; rfl)
      exact hpos.ne' hzero
    have hlen : l ≤ 1 := hle
    omega
  rw [h'.eq, hxs, hl, hx, update_self, update_idem]
  rfl

theorem createFail_runs (h : Sound sb (ip ::ₘ dp ::ₘ T) s) (hl : s.live ip) :
    Runs sb A W D T₀ k (createFail sb dp ip) s (fun r t => r = none ∧ Turn sb T (ip ::ₘ dp ::ₘ T) T s t
      (t.view sb = settled T (settled (dp ::ₘ T) (setLink (s.view sb) ip (fun _ => 0)) ip) dp)) := by
  have hsub : T ⊆ dp ::ₘ T := Multiset.subset_cons _ _
  have hsub' : T ⊆ ip ::ₘ dp ::ₘ T := Multiset.Subset.trans hsub (Multiset.subset_cons _ _)
  rw [createFail]
  refine Treads.bind (setNlink_runs h hl) (fun _ t ht => ?_)
  refine Treads.bind (iput_runs ht.sound) (fun _ u hu => ?_)
  refine Treads.bind (iput_runs hu.sound) (fun _ w hw => treads_pure ⟨rfl, ?_⟩)
  refine (((ht.mono hsub').trans (hu.mono hsub)).trans hw).imp ?_
  rintro ⟨⟨htv, huv⟩, hwv⟩
  rw [hwv, huv, htv]

theorem settled_fail {v : ℕ → Node} {x : Node} (ha : settled T v dp = v) (hfree : v ip = Node.free)
    (hnot : ip ∉ dp ::ₘ T) :
    settled T (settled (dp ::ₘ T) (setLink (update v ip x) ip (fun _ => 0)) ip) dp = v := by
  have hlink : setLink (update v ip x) ip (fun _ => 0) =
      update v ip { x with nlink := 0 } := by
    rw [setLink, update_self, update_idem]
    rfl
  rw [hlink]
  have hinner : settled (dp ::ₘ T) (update v ip { x with nlink := 0 }) ip = v := by
    rw [settled, update_self, if_pos ⟨hnot, rfl⟩, update_idem, ← hfree,
      update_eq_self]
  rw [hinner, ha]

/-- What `createNode` guarantees of its result, from the state before `ialloc`. -/
def NodeMade (sb : Superblock) (T : Multiset ℕ) (dp ip : ℕ) (name : Name) (type : FileType) (s : FS) :
    Option ℕ → FS → Prop
  | none, t => Turn sb T T T s t (Orderly sb T (s.view sb) → t.view sb = s.view sb)
  | some i, t => i = ip ∧ t.live ip ∧ (t.body ip).type = type ∧
    Turn sb T T (ip ::ₘ T) s t (Orderly sb T (s.view sb) →
      ∃ k ≤ (s.view sb dp).slots.length, (∀ e, (s.view sb dp).slots[k]? = some e → e.inum = 0) ∧
        t.view sb = created T (s.view sb) dp ip name type k)

section Making

variable (hfree : s.view sb ip = Node.free) (hdir : (s.view sb dp).type = .dir)

include hfree hdir

theorem Orderly.fresh (ho : Orderly sb T (s.view sb)) : ip ∉ dp ::ₘ T := by
  intro hmem
  rcases Multiset.mem_cons.1 hmem with rfl | hmem
  · rw [hfree] at hdir
    cases hdir
  · exact ho.held ip hmem (by rw [hfree]; rfl)

theorem createFail_made {x : FS} (hx : Turn sb (dp ::ₘ T) (dp ::ₘ T) (ip ::ₘ dp ::ₘ T) s x
    (∃ n, x.view sb = update (s.view sb) ip n)) (hlx : x.live ip) :
    Runs sb A W D T₀ k (createFail sb dp ip) x (NodeMade sb T dp ip name type s) := by
  have hsub : T ⊆ dp ::ₘ T := Multiset.subset_cons _ _
  refine (createFail_runs hx.sound hlx).mono ?_
  rintro _ y ⟨rfl, hy⟩
  refine ⟨hy.sound, (hx.stays.mono hsub).trans hy.stays, fun ha => ?_⟩
  obtain ⟨hax, n, hxv⟩ := hx.moves (ha.mono hsub)
  obtain ⟨hay, hyv⟩ := hy.moves hax
  refine ⟨hay, fun ho => ?_⟩
  rw [hyv, hxv, settled_fail ha.settled_eq hfree (ho.fresh hfree hdir)]

theorem createLink_made {x : FS} (hD : D) (h : Sound sb (dp ::ₘ T) s) (hdp : s.AtDir dp)
    (hx : Turn sb (dp ::ₘ T) (dp ::ₘ T) (ip ::ₘ dp ::ₘ T) s x
      (∃ n, x.view sb = update (s.view sb) ip n ∧
        (Orderly sb T (s.view sb) → n = newNode type dp ip))) (hlx : x.live ip)
    (hxtype : (x.body ip).type = type) (hT : Extra T₀ k T) :
    Runs sb A W D T₀ (k + 2) (do
      let r ← dirlink sb dp name ip
      if r < 0 then createFail sb dp ip
      else
        if type = .dir then setNlink sb dp (· + 1) else pure ()
        iput sb dp
        pure (some ip)) x (NodeMade sb T dp ip name type s) := by
  have hmemd : dp ∈ dp ::ₘ T := Multiset.mem_cons_self _ _
  have hmemi : ip ∈ ip ::ₘ T := Multiset.mem_cons_self _ _
  have hmemi' : ip ∈ ip ::ₘ dp ::ₘ T := Multiset.mem_cons_self _ _
  have hmemd' : dp ∈ ip ::ₘ dp ::ₘ T := Multiset.mem_cons_of_mem hmemd
  have hsub : T ⊆ dp ::ₘ T := Multiset.subset_cons _ _
  have hsub' : dp ::ₘ T ⊆ ip ::ₘ dp ::ₘ T := Multiset.subset_cons _ _
  have hsubi : T ⊆ ip ::ₘ T := Multiset.subset_cons _ _
  have hdpx := hdp.stays h hx.sound hx.stays hmemd hmemd'
  have hne : dp ≠ ip := by
    rintro rfl
    rw [hfree] at hdir
    cases hdir
  refine Treads.bind (dirlink_runs hD hx.sound hdpx.live hdpx.dir (FS.mem_of_live hx.sound hlx)
    ((hT.cons dp).cons ip)) ?_
  rintro r y (⟨hneg, hy⟩ | ⟨rfl, l, hy⟩)
  · rw [if_pos hneg]
    refine createFail_made hfree hdir ((hx.trans (hy.mono hsub')).imp ?_)
      (hx.sound.live_turn hy hmemi' hmemi' hlx)
    rintro ⟨⟨n, hxv, -⟩, hyv⟩
    exact ⟨n, hyv.trans hxv⟩
  · rw [if_neg (by decide)]
    have hlyi := hx.sound.live_turn hy hmemi' hmemi' hlx
    have hlyd := hx.sound.live_turn hy hmemd' hmemd' hdpx.live
    have hrest : ∀ z, Turn sb (ip ::ₘ dp ::ₘ T) (ip ::ₘ dp ::ₘ T) (ip ::ₘ dp ::ₘ T) y z
        (z.view sb = if type = .dir then setLink (y.view sb) dp (· + 1) else y.view sb) →
        Runs sb A W D T₀ (k + 2) (do
          iput sb dp
          pure (some ip)) z (NodeMade sb T dp ip name type s) := by
      intro z hz
      have hlzi := hy.sound.live_turn hz hmemi' hmemi' hlyi
      have hswap := hz.sound
      rw [Multiset.cons_swap] at hswap
      refine Treads.bind (iput_runs hswap) (fun _ w hw => treads_pure ?_)
      refine ⟨rfl, hswap.live_turn hw hmemi hmemi hlzi, ?_, hw.sound, ?_, fun ha => ?_⟩
      · rw [hw.stays.type ip hmemi hlzi.2, hz.stays.type ip hmemi' hlyi.2,
          hy.stays.type ip hmemi' hlx.2, hxtype]
      · exact ((hx.stays.mono hsub).trans ((hy.stays.trans hz.stays).mono
          (Multiset.Subset.trans hsub hsub'))).trans (hw.stays.mono hsubi)
      · obtain ⟨hax, n, hxv, hn⟩ := hx.moves (ha.mono hsub)
        obtain ⟨hay, hlinked⟩ := hy.moves hax
        obtain ⟨haz, hzv⟩ := hz.moves hay
        rw [Multiset.cons_swap] at haz
        obtain ⟨haw, hwv⟩ := hw.moves haz
        have hxd : x.view sb dp = s.view sb dp := by rw [hxv, update_of_ne hne]
        refine ⟨haw, fun ho => ⟨l, ?_, ?_, ?_⟩⟩
        · rw [← hxd]
          exact hlinked.le
        · rw [← hxd]
          exact hlinked.empty
        · rw [hwv, hzv, hlinked.eq, hxd, hxv, hn ho]
          rfl
    refine Treads.ite (fun htype => ?_) (fun htype => ?_)
    · refine Treads.bind (setNlink_runs hy.sound hlyd) (fun _ z hz => ?_)
      exact hrest z (hz.imp (fun hzv => by rw [hzv, if_pos htype]))
    · exact hrest y ((Keeps.refl hy.sound).turn.imp (fun _ => by rw [if_neg htype]))

end Making

theorem Fresh.turn (hfresh : Fresh sb T type s ip t) (hkeep : Keeps sb (ip ::ₘ T) (ip ::ₘ T) t u)
    (hl : u.live ip) : Turn sb T T (ip ::ₘ T) s u
      (u.view sb = update (s.view sb) ip ⟨type, 0, []⟩) := by
  have hsub : T ⊆ ip ::ₘ T := Multiset.subset_cons _ _
  have hst : Stays T s u := hfresh.stays.trans (hkeep.stays.mono hsub)
  have hview := hkeep.view.trans hfresh.view
  refine ⟨hkeep.sound, hst, fun ha => ⟨?_, hview⟩⟩
  intro j htype hlink
  rcases eq_or_ne j ip with rfl | hne
  · exact hkeep.sound.live_iff.1 hl
  · rw [hview, update_of_ne hne] at htype hlink
    obtain ⟨hj, hjv⟩ := ha j htype hlink
    exact ⟨hsub hj, hst.valid j hj hjv⟩

theorem createNode_runs (hD : D) (h : Sound sb (dp ::ₘ T) s) (hdp : s.AtDir dp)
    (hfresh : Fresh sb (dp ::ₘ T) type s ip t) (hT : Extra T₀ k T) :
    Runs sb A W D T₀ (k + 2) (createNode sb dp ip name type major minor) t
      (NodeMade sb T dp ip name type s) := by
  have hdir : (s.view sb dp).type = .dir := by rw [h.type_live hdp.live, hdp.dir]
  have hmemi : ip ∈ ip ::ₘ dp ::ₘ T := Multiset.mem_cons_self _ _
  have hsub : dp ::ₘ T ⊆ ip ::ₘ dp ::ₘ T := Multiset.subset_cons _ _
  rw [createNode]
  refine Treads.bind (ilock_runs hfresh.sound hmemi) ?_
  rintro _ u ⟨hkeep, hlu⟩
  have hu := hfresh.turn hkeep hlu
  refine treads_assoc.1 (Treads.bind (relabel_runs hu.sound hlu (g := fun d => { d with
    major := major, minor := minor, nlink := 1 }) (fun _ => ⟨rfl, rfl, rfl⟩)) ?_)
  rintro _ y ⟨hsound, hstays, hview⟩
  have hy : Turn sb (dp ::ₘ T) (dp ::ₘ T) (ip ::ₘ dp ::ₘ T) s y
      (y.view sb = update (s.view sb) ip ⟨type, 1, []⟩) := by
    refine (hu.trans ((Turn.of_update hu.sound hlu hsound hstays hview).mono hsub)).imp ?_
    rintro ⟨huv, hyv⟩
    rw [hyv, huv, update_self, update_idem]
  have hly : y.live ip := hu.sound.live_of_stays hsound hstays hmemi hmemi hlu
  have hytype : (y.body ip).type = type := by
    rw [hstays.type ip hmemi hlu.2, ← hu.sound.type_live hlu, hkeep.view, hfresh.view,
      update_self]
  refine Treads.ite (fun hd => ?_) (fun hd => treads_pure_bind.2 ?_)
  · refine Treads.bind (createDots_runs hD hsound ⟨hly, hytype.trans hd⟩
      (h.lt dp (Multiset.mem_cons_self _ _)) ((hT.cons dp).cons ip)) ?_
    intro ok z hz
    have hlz := hsound.live_turn hz hmemi hmemi hly
    have hall := hy.trans (hz.mono hsub)
    cases ok with
    | false =>
      refine createFail_made hfresh.free hdir (hall.imp ?_) hlz
      rintro ⟨hyv, slots, hzv⟩
      refine ⟨⟨type, 1, slots⟩, ?_⟩
      rw [hzv, hyv, update_self, update_idem]
    | true =>
      have hztype : (z.body ip).type = type := (hz.stays.type ip hmemi hly.2).trans hytype
      refine createLink_made hfresh.free hdir hD h hdp (hall.imp ?_) hlz hztype hT
      rintro ⟨hyv, v, k, l, hlinked, hlinked'⟩
      rw [hyv] at hlinked
      obtain ⟨n, hn⟩ : ∃ n, z.view sb = update (s.view sb) ip n := by
        rw [hlinked'.eq, hlinked.eq, update_idem, update_idem]
        exact ⟨_, rfl⟩
      refine ⟨n, hn, fun ho => ?_⟩
      have hsmall : ip % 2 ^ 16 = ip := Nat.mod_eq_of_lt (hfresh.lt.trans_le ho.small)
      have hpos : 0 < ip % 2 ^ 16 := by
        rw [hsmall]
        exact hfresh.pos
      have hdots := congrFun (hlinked.dots hlinked' (by rw [update_self]) hpos) ip
      rw [hn, update_self, update_self, update_self] at hdots
      rw [hdots, newNode, if_pos hd]
  · refine createLink_made hfresh.free hdir hD h hdp (hy.imp ?_) hly hytype hT
    intro hyv
    exact ⟨_, hyv, fun _ => by rw [newNode, if_neg hd]⟩

def Made (sb : Superblock) (T : Multiset ℕ) (cwd : ℕ) (path : Name) (type : FileType) (s : FS) :
    Option ℕ → FS → Prop
  | none, t => Turn sb T T T s t (Orderly sb T (s.view sb) → t.view sb = s.view sb)
  | some ip, t => t.live ip ∧ (type = .file → (t.body ip).type ≠ .dir) ∧ Turn sb T T (ip ::ₘ T) s t
      (Orderly sb T (s.view sb) → CreateEffect sb T cwd path type ip (s.view sb) (t.view sb))

theorem create_runs (hD : D) (h : Sound sb T s) (hcwd : cwd ∈ T) (htype : type ≠ .none)
    (hT : Extra T₀ k T) (hA : Offered sb T s A) :
    Runs sb A W D T₀ (k + 2) (create sb cwd path type major minor) s (Made sb T cwd path type s) := by
  have hquiet : ∀ t, Walked sb T T s t → Made sb T cwd path type s none t :=
    fun t ht => (ht.turn (fun _ h => h)).imp (fun hv _ => hv)
  rw [create]
  refine Treads.bind (nameiparent_runs h hcwd (hT.mono (Nat.le_succ k))) ?_
  rintro (_ | ⟨dp, name⟩) t hr
  · exact treads_pure (hquiet t hr.resolved.reached)
  · have hst : Walked sb T (dp ::ₘ T) s t := hr.resolved.reached
    have hsub : T ⊆ dp ::ₘ T := Multiset.subset_cons _ _
    have hTdp := (hT.cons dp).mono (Nat.le_succ (k + 1))
    refine Treads.bind (ilock_parent hst (hr.atDir rfl rfl)) ?_
    rintro _ u ⟨hsu, hdp⟩
    refine Treads.bind (dirlookup_runs hsu.sound hdp.live hdp.dir hTdp) ?_
    rintro (_ | ⟨_, off⟩) w ⟨hdir, hlook⟩
    · obtain ⟨rfl, habsent⟩ := hlook
      refine Treads.bind (ialloc_runs hsu.sound htype hTdp (hA w hsu.still)) ?_
      rintro (_ | ip) x hx
      · obtain rfl : x = w := hx
        exact Treads.bind (iput_resolved hsu) (fun _ y hy => treads_pure (hquiet y hy))
      · refine (createNode_runs hD hsu.sound hdp hx hT).mono ?_
        intro r y hy
        cases r with
        | none =>
          refine ⟨hy.sound, hsu.stays.trans hy.stays, fun ha => ?_⟩
          have hsv := hsu.still ha
          obtain ⟨hay, heff⟩ := hy.moves (hsu.anchored ha)
          rw [hsv] at heff
          exact ⟨hay, heff⟩
        | some j =>
          obtain ⟨rfl, hly, hytype, hy⟩ := hy
          refine ⟨hly, fun hfile => by simp [hytype, hfile], hy.sound, hsu.stays.trans hy.stays, fun ha => ?_⟩
          have hsv := hsu.still ha
          obtain ⟨hay, heff⟩ := hy.moves (hsu.anchored ha)
          have hfree := hx.free
          rw [hsv] at heff hdir habsent hfree
          refine ⟨hay, fun ho => ?_⟩
          obtain ⟨l, hle, hempty, hyv⟩ := heff ho
          exact .inr ⟨dp, name, l, ⟨(hr.resolved.eq ha).symm, hdir, habsent, hle, hempty, hx.pos, hx.lt,
            hfree⟩, hyv⟩
    · obtain ⟨hkeep, -⟩ := hlook
      rename_i ip
      have hswap := hkeep.sound
      rw [Multiset.cons_swap] at hswap
      have hsub' : T ⊆ ip ::ₘ T := Multiset.subset_cons _ _
      refine Treads.bind (iput_walked_runs hswap hsub') (fun _ x hx => ?_)
      refine Treads.bind (ilock_runs hx.sound (Multiset.mem_cons_self _ _)) ?_
      rintro _ y ⟨hkeep', hly⟩
      have hsy := ((hsu.trans (hkeep.walked hsub)).trans hx).trans (hkeep'.walked hsub')
      rw [treads_get]
      refine Treads.ite (fun hfile => treads_pure ?_) (fun _ => ?_)
      · refine ⟨hly, fun _ hdir => ?_, (hsy.turn hsub').imp ?_⟩
        · rcases hfile.2 with hfile | hfile <;> simp [hdir] at hfile
        · intro hyv _
          refine .inl ⟨hyv, ?_⟩
          rw [← hyv, hsy.sound.type_live hly]
          exact hfile.2
      · exact Treads.bind (iput_resolved hsy) (fun _ z hz => treads_pure (hquiet z hz))

end Xv6.FileSystem
