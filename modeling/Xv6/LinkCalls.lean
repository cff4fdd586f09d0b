import Xv6.DirectoryWalks

/-!
# What `link` and `unlink` do to the namespace

A call is a path of actions, and holds at most two references more than the processes do.
-/

namespace Xv6.FileSystem

open ActionPaths ByteBlocks Function PanicPrograms

variable {sb : Superblock} {A W : ℕ → Prop} {K T₀ T T' : Multiset ℕ} {s t u : FS}
  {i k l ip dp cwd : ℕ} {name path old new : Name} {f : ℤ → ℤ} {D : Prop}

/-- The table has the directory `dp`. -/
structure FS.AtDir (s : FS) (dp : ℕ) : Prop where
  live : s.live dp
  dir : (s.body dp).type = .dir

theorem FS.AtDir.stays (h : s.AtDir dp) (hs : Sound sb T s) (ht : Sound sb T' t) (hst : Stays K s t)
    (hmem : dp ∈ K) (hmem' : dp ∈ T') : t.AtDir dp :=
  ⟨hs.live_of_stays ht hst hmem hmem' h.live, (hst.type dp hmem h.live.2).trans h.dir⟩

theorem Found.atDir {parent : Bool} {r : Option (ℕ × Name)} (h : Found sb T cwd path parent s r t)
    (hp : parent = true) (hr : r = some (dp, name)) : t.AtDir dp :=
  ⟨h.resolved.live hp dp name hr, h.dir hp dp name hr⟩

theorem iput_resolved (h : Walked sb T (i ::ₘ T) s t) :
    Runs sb A W D T₀ k (iput sb i) t (fun _ u => Walked sb T T s u) :=
  (iput_walked_runs h.sound (fun _ h => h)).mono (fun _ _ hu => h.trans hu)

theorem ilock_parent (h : Walked sb T (dp ::ₘ T) s t) (hdp : t.AtDir dp) :
    Runs sb A W D T₀ k (ilock dp) t (fun _ u => Walked sb T (dp ::ₘ T) s u ∧ u.AtDir dp) := by
  have hmem : dp ∈ dp ::ₘ T := Multiset.mem_cons_self _ _
  refine (ilock_runs h.sound hmem).mono ?_
  rintro _ u ⟨hkeep, -⟩
  exact ⟨h.trans (hkeep.walked (Multiset.subset_cons _ _)),
    hdp.stays h.sound hkeep.sound hkeep.stays hmem hmem⟩

/-- The namespace after `unlink` has erased slot `k` of `dp`, which named `ip`. -/
def unlinked (T : Multiset ℕ) (v : ℕ → Node) (dp ip k : ℕ) : ℕ → Node :=
  let erased := update v dp
    { v dp with slots := putSlot (v dp).slots k ⟨0, List.replicate dirSiz 0⟩ }
  let dropped := if (v ip).type = .dir then setLink erased dp (· - 1) else erased
  settled T (setLink (settled (ip ::ₘ T) dropped dp) ip (· - 1)) ip

/-- The checks that `unlink` makes before it erases an entry. -/
structure Unlinks (v : ℕ → Node) (cwd : ℕ) (path : Name) (dp ip k : ℕ) : Prop where
  parent : ∃ name, resolve v cwd path true = some (dp, name) ∧ namecmp name dot = false ∧
    namecmp name dotdot = false ∧ lookup name (v dp).slots = some k
  dir : (v dp).type = .dir
  entry : ∃ de, (v dp).slots[k]? = some de ∧ de.inum = ip
  type : (v ip).type ≠ .none
  nlink : 1 ≤ (v ip).nlink
  empty : (v ip).type = .dir → ∀ e ∈ (v ip).slots.drop 2, e.inum = 0

/-- What `unlink` has done to the namespace when it returns `r`. -/
def UnlinkEffect (T : Multiset ℕ) (cwd : ℕ) (path : Name) (r : ℤ) (v w : ℕ → Node) : Prop :=
  (r = -1 ∧ w = v) ∨ (r = 0 ∧ ∃ dp ip k, Unlinks v cwd path dp ip k ∧ w = unlinked T v dp ip k)

/-- Why `unlink` panics besides: an entry names an inode without a link. -/
def Unlinkable (sb : Superblock) (T : Multiset ℕ) (s : FS) (e : Panic) : Prop :=
  e = .unlinkNlink ∧ (Anchored sb T s → ∃ dp name k de, (s.view sb dp).type = .dir ∧
    namecmp name dot = false ∧ namecmp name dotdot = false ∧
    lookup name (s.view sb dp).slots = some k ∧ (s.view sb dp).slots[k]? = some de ∧
    de.inum ≠ 0 ∧ (s.view sb de.inum).nlink < 1)

theorem unlinkEntry_runs (hD : D) (h : Sound sb (dp ::ₘ ip ::ₘ T) s) (hdp : s.AtDir dp) (hip : s.live ip)
    (hl : l < (s.view sb dp).slots.length) :
    Runs sb A W D T₀ k (unlinkEntry sb dp ip (direntSize * l)) s (fun r t => r = 0 ∧
      Turn sb T (dp ::ₘ ip ::ₘ T) T s t (t.view sb = unlinked T (s.view sb) dp ip l)) := by
  have hi := FS.mem_of_live h hdp.live
  have hsize : direntSize * (l + 1) ≤ (s.body dp).size := by
    rw [slots_view hdp.live hi, length_entries _ hdp.dir] at hl
    rw [Nat.mul_comm]
    exact (Nat.le_div_iff_mul_le (by decide)).1 hl
  have hmemd : dp ∈ dp ::ₘ ip ::ₘ T := Multiset.mem_cons_self _ _
  have hmemi : ip ∈ ip ::ₘ T := Multiset.mem_cons_self _ _
  have hmemi' : ip ∈ dp ::ₘ ip ::ₘ T := Multiset.mem_cons_of_mem hmemi
  have hsubT : T ⊆ ip ::ₘ T := Multiset.subset_cons _ _
  have hsub : T ⊆ dp ::ₘ ip ::ₘ T := Multiset.Subset.trans hsubT (Multiset.subset_cons _ _)
  have hlen : (List.replicate direntSize (0 : Byte)).length = direntSize := List.length_replicate
  have hzero : (decodeDirent (List.replicate direntSize 0)).inum < sb.ninodes := by
    rw [decode_erased]
    exact (Nat.zero_le _).trans_lt hi
  rw [unlinkEntry]
  refine Treads.bind ((writei_entry_runs hD h hdp.live hdp.dir (.inl hsize) (.inl rfl) hzero).also
    (writei_entry_present (E := fun _ => False) h hdp.live hdp.dir hsize hlen)) ?_
  rintro r t ⟨hr, rfl⟩
  obtain ⟨-, hst⟩ := hr.resolve_left (fun hr => hr.1 rfl)
  rw [decode_erased] at hst
  refine Treads.ite (fun hne => absurd rfl hne) (fun _ => treads_get.2 ?_)
  have hdpt := hdp.stays h hst.sound hst.stays hmemd hmemd
  have hipt := h.live_turn hst hmemi' hmemi' hip
  have htype := hst.sound.type_live hipt
  -- From the state in which the link count of `dp` is settled, both inodes are put.
  have hrest : ∀ u, Turn sb (dp ::ₘ ip ::ₘ T) (dp ::ₘ ip ::ₘ T) (dp ::ₘ ip ::ₘ T) t u
      (u.view sb = if (t.view sb ip).type = .dir then setLink (t.view sb) dp (· - 1) else t.view sb) →
      Runs sb A W D T₀ k (do
        iput sb dp
        setNlink sb ip (· - 1)
        iput sb ip
        pure (0 : ℤ)) u (fun r w => r = 0 ∧ Turn sb T (dp ::ₘ ip ::ₘ T) T s w
          (w.view sb = unlinked T (s.view sb) dp ip l)) := by
    intro u hu
    have hipu := hst.sound.live_turn hu hmemi' hmemi' hipt
    refine Treads.bind (iput_runs hu.sound) (fun _ v hv => ?_)
    refine Treads.bind (setNlink_runs hv.sound (hu.sound.live_turn hv hmemi hmemi hipu)) (fun _ w hw => ?_)
    refine Treads.bind (iput_runs hw.sound) (fun _ x hx => treads_pure ⟨rfl, ?_⟩)
    refine (((((hst.mono hsub).trans (hu.mono hsub)).trans (hv.mono hsubT)).trans
      (hw.mono hsubT)).trans hx).imp ?_
    rintro ⟨⟨⟨⟨htv, huv⟩, hvv⟩, hwv⟩, hxv⟩
    have hsame : (t.view sb ip).type = (s.view sb ip).type := by
      rw [htv]
      rcases eq_or_ne ip dp with rfl | hne
      · rw [update_self]
      · rw [update_of_ne hne]
    rw [hxv, hwv, hvv, huv, hsame, htv]
    rfl
  refine Treads.ite (fun hdirip => ?_) (fun hdirip => ?_)
  · refine Treads.bind (setNlink_runs hst.sound hdpt.live) (fun _ u hu => ?_)
    exact hrest u (hu.imp (fun hview => by rw [hview, htype, if_pos hdirip]))
  · refine hrest t ((Keeps.refl hst.sound).turn.imp (fun _ => ?_))
    rw [htype, if_neg hdirip]

theorem unlinkBad_runs (h : Walked sb T (dp ::ₘ T) s t) :
    Runs sb A W D T₀ k (unlinkBad sb dp) t (fun r u => Turn sb T T T s u
      (UnlinkEffect T cwd path r (s.view sb) (u.view sb))) := by
  rw [unlinkBad]
  refine Treads.bind (iput_resolved h) (fun _ u hu => treads_pure ?_)
  exact (hu.turn (fun _ h => h)).imp (fun hv => .inl ⟨rfl, hv⟩)

theorem sysUnlink_runs (hD : D) (h : Sound sb T s) (hcwd : cwd ∈ T) (hT : Extra T₀ k T) :
    Treads (Action sb A W D) (fun t e => Cause sb T₀ (k + 1) t e ∨ Unlinkable sb T s e)
      (sysUnlink sb cwd path) s (fun r t => Turn sb T T T s t
        (UnlinkEffect T cwd path r (s.view sb) (t.view sb))) := by
  have hcause : ∀ {α : Type} {m : M α} {t : FS} {Q : α → FS → Prop}, Runs sb A W D T₀ (k + 1) m t Q →
      Treads (Action sb A W D) (fun t e => Cause sb T₀ (k + 1) t e ∨ Unlinkable sb T s e) m t Q :=
    fun hm => hm.weaken (fun _ _ h => h) (fun _ _ h => .inl h)
  rw [sysUnlink]
  refine (hcause (nameiparent_runs h hcwd hT)).bind ?_
  rintro (_ | ⟨dp, name⟩) t hr
  · refine treads_pure ((Walked.turn hr.resolved.reached (fun _ h => h)).imp (fun hv => .inl ⟨rfl, hv⟩))
  · have hst : Walked sb T (dp ::ₘ T) s t := hr.resolved.reached
    have hmem : dp ∈ dp ::ₘ T := Multiset.mem_cons_self _ _
    refine (hcause (ilock_parent hst (hr.atDir rfl rfl))).bind ?_
    rintro _ u ⟨hsu, hdp⟩
    refine Treads.ite (fun _ => hcause (unlinkBad_runs hsu)) (fun hdots => ?_)
    have hdot : namecmp name dot = false ∧ namecmp name dotdot = false := by simpa [not_or] using hdots
    refine (hcause (dirlookup_runs hsu.sound hdp.live hdp.dir (hT.cons dp))).bind ?_
    rintro (_ | ⟨_, off⟩) w ⟨hdir, hlook⟩
    · obtain ⟨rfl, -⟩ := hlook
      exact hcause (unlinkBad_runs hsu)
    · obtain ⟨hkeep, l, de, hk, hde, rfl, rfl⟩ := hlook
      obtain ⟨de', hde', hne, -⟩ := lookup_eq_some hk
      obtain rfl : de = de' := Option.some.inj (hde.symm.trans hde')
      refine (hcause (ilock_runs hkeep.sound (Multiset.mem_cons_self _ _))).bind ?_
      rintro _ x ⟨hkeep', hlip⟩
      have hux := hkeep.trans hkeep'
      have hsx : Walked sb T (de.inum ::ₘ dp ::ₘ T) s x := hsu.trans (hux.walked (Multiset.subset_cons _ _))
      have hsound := hsx.sound
      rw [Multiset.cons_swap] at hsound
      have hdpx : x.AtDir dp := hdp.stays hsu.sound hsound hux.stays hmem (Multiset.mem_cons_self _ _)
      have hnl := hsound.nlink_live hlip
      rw [treads_get]
      refine Treads.ite (fun hlink => treads_throw (.inr ⟨rfl, fun ha => ?_⟩)) (fun hlink => ?_)
      · rw [hsx.still ha] at hnl
        rw [hsu.still ha] at hk hde hdir
        exact ⟨dp, name, l, de, hdir, hdot.1, hdot.2, hk, hde, hne, by rwa [hnl]⟩
      have htype := hsound.type_live hlip
      have hlt : l < (x.view sb dp).slots.length := by
        rw [hux.view]
        exact (List.getElem?_eq_some_iff.1 hde).1
      -- Behind the checks the entry is erased.
      have hgood : ((x.body de.inum).type = .dir → ∀ e ∈ (x.view sb de.inum).slots.drop 2, e.inum = 0) →
          Runs sb A W D T₀ (k + 1) (unlinkEntry sb dp de.inum (direntSize * l)) x (fun r t =>
            Turn sb T T T s t (UnlinkEffect T cwd path r (s.view sb) (t.view sb))) := by
        intro hempty
        refine (unlinkEntry_runs hD hsound hdpx hlip hlt).mono ?_
        rintro _ y ⟨rfl, hy⟩
        refine ⟨hy.sound, hsx.stays.trans hy.stays, fun ha => ?_⟩
        have hsv := hsx.still ha
        have hsub : T ⊆ dp ::ₘ de.inum ::ₘ T :=
          Multiset.Subset.trans (Multiset.subset_cons _ _) (Multiset.subset_cons _ _)
        obtain ⟨ha', hyv⟩ := hy.moves ((hsx.anchored ha).mono hsub)
        rw [hsv] at hyv hempty htype hnl
        rw [hsu.still ha] at hdir hk hde
        refine ⟨ha', .inr ⟨rfl, dp, de.inum, l, ⟨⟨name, (hr.resolved.eq ha).symm, hdot.1, hdot.2, hk⟩, hdir,
          ⟨de, hde, rfl⟩, ?_, by omega, fun hd => hempty (by rw [← htype, hd])⟩, hyv⟩⟩
        rw [htype]
        exact hsound.typed _ hlip
      refine Treads.ite (fun hdirip => ?_) (fun hdirip => treads_pure_bind.2 (hcause (hgood ?_)))
      · have hempty : Runs sb A W D T₀ (k + 1) ((!·) <$> isdirempty sb de.inum) x (fun full y => y = x ∧
            (full = false → ∀ e ∈ (x.view sb de.inum).slots.drop 2, e.inum = 0)) := by
          refine ((isdirempty_runs hsound hlip hdirip).mono ?_).map
          rintro empty y ⟨rfl, hiff⟩
          exact ⟨rfl, fun hfull => hiff.1 (by simpa using hfull)⟩
        refine (hcause hempty).bind ?_
        rintro full y ⟨rfl, hall⟩
        refine Treads.ite (fun _ => ?_) (fun hfull => hcause (hgood (fun _ => hall (by simpa using hfull))))
        refine (hcause (iput_walked_runs hkeep'.sound (Multiset.subset_cons _ _))).bind ?_
        exact fun _ z hz => hcause (unlinkBad_runs (hsx.trans hz))
      · exact fun hd => absurd hd hdirip

theorem type_setLink {v : ℕ → Node} (j : ℕ) : (setLink v i f j).type = (v j).type := by
  rw [setLink]
  rcases eq_or_ne j i with rfl | hne
  · rw [update_self]
  · rw [update_of_ne hne]

theorem resolve_setLink {v : ℕ → Node} {parent : Bool} :
    resolve (setLink v i f) cwd path parent = resolve v cwd path parent := by
  refine walk_congr (fun j => ⟨type_setLink j, ?_⟩)
  rw [setLink]
  rcases eq_or_ne j i with rfl | hne
  · rw [update_self]
  · rw [update_of_ne hne]

/-- The namespace after `link` has undone its count. -/
def unlinkedBack (T : Multiset ℕ) (v : ℕ → Node) (ip : ℕ) : ℕ → Node :=
  settled T (setLink (setLink v ip (· + 1)) ip (· - 1)) ip

/-- The inode that `link` links, and the directory in which it does. -/
structure Links (v w : ℕ → Node) (cwd : ℕ) (old new : Name) (ip dp k : ℕ) : Prop where
  old : ∃ last, resolve v cwd old false = some (ip, last)
  type : (v ip).type ≠ .dir ∧ (v ip).type ≠ .none
  new : ∃ name, resolve v cwd new true = some (dp, name) ∧
    Linked (setLink v ip (· + 1)) w dp name ip k

/-- What `link` has done to the namespace when it returns `r`. -/
def LinkEffect (T : Multiset ℕ) (cwd : ℕ) (old new : Name) (r : ℤ) (v w : ℕ → Node) : Prop :=
  (r = -1 ∧ (w = v ∨ ∃ ip last, resolve v cwd old false = some (ip, last) ∧ (v ip).type ≠ .dir ∧
    (v ip).type ≠ .none ∧ w = unlinkedBack T v ip)) ∨
  (r = 0 ∧ ∃ ip dp k x, Links v x cwd old new ip dp k ∧
    w = settled T (settled (ip ::ₘ T) x dp) ip)

theorem linkBad_runs (h : Sound sb (ip ::ₘ T) s) :
    Runs sb A W D T₀ k (linkBad sb ip) s (fun r t => r = -1 ∧ Turn sb T (ip ::ₘ T) T s t
      (t.view sb = settled T (setLink (s.view sb) ip (· - 1)) ip)) := by
  have hsub : T ⊆ ip ::ₘ T := Multiset.subset_cons _ _
  rw [linkBad]
  refine Treads.bind (ilock_runs h (Multiset.mem_cons_self _ _)) ?_
  rintro _ t ⟨hkeep, hl⟩
  refine Treads.bind (setNlink_runs hkeep.sound hl) (fun _ u hu => ?_)
  refine Treads.bind (iput_runs hu.sound) (fun _ w hw => treads_pure ⟨rfl, ?_⟩)
  refine (((hkeep.turn.mono hsub).trans (hu.mono hsub)).trans hw).imp ?_
  rintro ⟨⟨htv, huv⟩, hwv⟩
  rw [hwv, huv, htv]

/-- What is left of `link` once the count of the linked inode is raised. -/
def LinkTail (T : Multiset ℕ) (cwd : ℕ) (new : Name) (ip : ℕ) (r : ℤ) (v w : ℕ → Node) : Prop :=
  r = -1 ∧ w = settled T (setLink v ip (· - 1)) ip ∨
  r = 0 ∧ ∃ dp name k x, resolve v cwd new true = some (dp, name) ∧ Linked v x dp name ip k ∧
    w = settled T (settled (ip ::ₘ T) x dp) ip

theorem sysLinkTail_runs (hD : D) (h : Sound sb (ip ::ₘ T) s) (hl : s.live ip) (hcwd : cwd ∈ T)
    (hT : Extra T₀ k T) :
    Runs sb A W D T₀ (k + 2) (do
      match ← nameiparent sb cwd new with
      | none => linkBad sb ip
      | some (dp, name) => do
        ilock dp
        let r ← dirlink sb dp name ip
        iput sb dp
        if r < 0 then linkBad sb ip
        else
          iput sb ip
          pure 0) s
      (fun r t => Turn sb T (ip ::ₘ T) T s t (LinkTail T cwd new ip r (s.view sb) (t.view sb))) := by
  have hsub : T ⊆ ip ::ₘ T := Multiset.subset_cons _ _
  have hi := FS.mem_of_live h hl
  -- Any failure on the way undoes the count.
  have hbad : ∀ t, Turn sb (ip ::ₘ T) (ip ::ₘ T) (ip ::ₘ T) s t (t.view sb = s.view sb) →
      Runs sb A W D T₀ (k + 2) (linkBad sb ip) t (fun r u => Turn sb T (ip ::ₘ T) T s u
        (LinkTail T cwd new ip r (s.view sb) (u.view sb))) := by
    intro t ht
    refine (linkBad_runs ht.sound).mono ?_
    rintro _ u ⟨rfl, hu⟩
    refine ((ht.mono hsub).trans hu).imp ?_
    rintro ⟨htv, huv⟩
    rw [huv, htv]
    exact .inl ⟨rfl, rfl⟩
  refine Treads.bind (nameiparent_runs h (hsub hcwd) (hT.cons ip)) ?_
  rintro (_ | ⟨dp, name⟩) t hr
  · exact hbad t (Walked.turn hr.resolved.reached (fun _ h => h))
  · have hst : Walked sb (ip ::ₘ T) (dp ::ₘ ip ::ₘ T) s t := hr.resolved.reached
    have hsub' : ip ::ₘ T ⊆ dp ::ₘ ip ::ₘ T := Multiset.subset_cons _ _
    refine Treads.bind (ilock_parent hst (hr.atDir rfl rfl)) ?_
    rintro _ u ⟨hsu, hdp⟩
    have hsu' := hsu.turn hsub'
    refine Treads.bind (dirlink_runs hD hsu.sound hdp.live hdp.dir hi ((hT.cons ip).cons dp)) ?_
    rintro r w (⟨hneg, hw⟩ | ⟨rfl, l, hw⟩)
    · have hsw : Turn sb (ip ::ₘ T) (ip ::ₘ T) (dp ::ₘ ip ::ₘ T) s w (w.view sb = s.view sb) :=
        (hsu'.trans (hw.mono hsub')).imp (fun hv => hv.2.trans hv.1)
      refine Treads.bind (iput_runs hw.sound) (fun _ x hx => ?_)
      rw [if_pos hneg]
      refine hbad x ⟨hx.sound, hsw.stays.trans hx.stays, fun ha => ?_⟩
      obtain ⟨haw, hwv⟩ := hsw.moves ha
      obtain ⟨hax, hxv⟩ := hx.moves haw
      refine ⟨hax, ?_⟩
      rw [hxv, hwv, ha.settled_eq]
    · refine Treads.bind (iput_runs hw.sound) (fun _ x hx => ?_)
      rw [if_neg (by decide)]
      refine Treads.bind (iput_runs hx.sound) (fun _ y hy => treads_pure ?_)
      refine ⟨hy.sound, ((hsu'.stays.trans (hw.stays.mono hsub')).trans hx.stays).mono hsub |>.trans hy.stays,
        fun ha => ?_⟩
      obtain ⟨hau, huv⟩ := hsu'.moves ha
      obtain ⟨haw, hlinked⟩ := hw.moves hau
      obtain ⟨hax, hxv⟩ := hx.moves haw
      obtain ⟨hay, hyv⟩ := hy.moves hax
      rw [huv] at hlinked
      exact ⟨hay, .inr ⟨rfl, dp, name, l, _, (hr.resolved.eq ha).symm, hlinked, by rw [hyv, hxv]⟩⟩

theorem sysLink_runs (hD : D) (h : Sound sb T s) (hcwd : cwd ∈ T) (hT : Extra T₀ k T) :
    Runs sb A W D T₀ (k + 2) (sysLink sb cwd old new) s (fun r t => Turn sb T T T s t
      (LinkEffect T cwd old new r (s.view sb) (t.view sb))) := by
  have hself : T ⊆ T := fun _ h => h
  rw [sysLink, namei]
  refine treads_assoc.2 (Treads.bind (namex_runs h hcwd (hT.mono (Nat.le_succ k))) ?_)
  rintro (_ | ⟨ip, last⟩) t hr
  · refine treads_pure_bind.2 (treads_pure ?_)
    exact (Walked.turn hr.resolved.reached hself).imp (fun hv => .inl ⟨rfl, .inl hv⟩)
  · have hst : Walked sb T (ip ::ₘ T) s t := hr.resolved.reached
    have hmem : ip ∈ ip ::ₘ T := Multiset.mem_cons_self _ _
    have hsub : T ⊆ ip ::ₘ T := Multiset.subset_cons _ _
    refine treads_pure_bind.2 (Treads.bind (ilock_runs hst.sound hmem) ?_)
    rintro _ u ⟨hkeep, hl⟩
    have hsu := hst.trans (hkeep.walked hsub)
    rw [treads_get]
    refine Treads.ite (fun _ => ?_) (fun hdir => ?_)
    · refine Treads.bind (iput_resolved hsu) (fun _ w hw => treads_pure ?_)
      exact (hw.turn hself).imp (fun hv => .inl ⟨rfl, .inl hv⟩)
    · refine Treads.bind (setNlink_runs hsu.sound hl) (fun _ w hw => ?_)
      refine (sysLinkTail_runs hD hw.sound (hsu.sound.live_turn hw hmem hmem hl) hcwd hT).mono ?_
      intro _ x hx
      refine ⟨hx.sound, (hsu.stays.trans (hw.stays.mono hsub)).trans hx.stays, fun ha => ?_⟩
      have hsv := hsu.still ha
      obtain ⟨haw, hwv⟩ := hw.moves ((hsu.anchored ha).mono hsub)
      obtain ⟨hax, heff⟩ := hx.moves haw
      rw [hsv] at hwv
      rw [hwv] at heff
      have htype := hsu.sound.type_live hl
      rw [hsv] at htype
      have hold := (hr.resolved.eq ha).symm
      have hdir' : (s.view sb ip).type ≠ .dir := by rwa [htype]
      have hnone : (s.view sb ip).type ≠ .none := by
        rw [htype]
        exact hsu.sound.typed ip hl
      refine ⟨hax, ?_⟩
      rcases heff with ⟨rfl, heff⟩ | ⟨rfl, dp, name, k, y, hnew, hlinked, heff⟩
      · exact .inl ⟨rfl, .inr ⟨ip, last, hold, hdir', hnone, heff⟩⟩
      · rw [resolve_setLink] at hnew
        exact .inr ⟨rfl, ip, dp, k, y, ⟨⟨last, hold⟩, ⟨hdir', hnone⟩, ⟨name, hnew, hlinked⟩⟩, heff⟩

end Xv6.FileSystem
