import Xv6.CreateCalls

/-!
# Calls that take and drop references

`mkdir` and `mknod`, `open` up to the inode it opens, and `chdir`.
-/

namespace Xv6.FileSystem

open ActionPaths ByteBlocks Function PanicPrograms

variable {sb : Superblock} {A W : ℕ → Prop} {T₀ T : Multiset ℕ} {s t u : FS} {i k ip dp cwd : ℕ}
  {name path : Name} {type : FileType} {major minor : ℤ} {D : Prop} {v w : ℕ → Node}

theorem Creates.ne (h : Creates sb v cwd path dp ip name k) : dp ≠ ip := by
  rintro rfl
  have hdir := h.dir
  rw [h.free] at hdir
  cases hdir

theorem settled_of_ne (h : i ≠ ip) : settled T v ip i = v i := by
  rw [settled]
  split
  · exact update_of_ne h _ _
  · rfl

theorem setLink_of_ne {f : ℤ → ℤ} (h : i ≠ ip) : setLink v ip f i = v i := update_of_ne h _ _

theorem created_self (h : dp ≠ ip) : created T v dp ip name type k ip = newNode type dp ip := by
  rw [created, settled_of_ne h.symm]
  split
  · rw [setLink_of_ne h.symm, update_of_ne h.symm, update_self]
  · rw [update_of_ne h.symm, update_self]

theorem settled_created (h : dp ≠ ip) :
    settled T (created T v dp ip name type k) ip = created T v dp ip name type k := by
  rw [settled, created_self h]
  exact if_neg (fun hc => one_ne_zero hc.2)

def MakeEffect (sb : Superblock) (T : Multiset ℕ) (cwd : ℕ) (path : Name) (type : FileType)
    (v w : ℕ → Node) : Prop :=
  w = v ∨ ∃ dp ip name k, Creates sb v cwd path dp ip name k ∧ w = created T v dp ip name type k

theorem makeNode_runs (hD : D) (h : Sound sb T s) (hcwd : cwd ∈ T) (htype : type ≠ .none)
    (hT : Extra T₀ k T) (hA : Offered sb T s A) :
    Runs sb A W D T₀ (k + 2) (makeNode sb cwd path type major minor) s (fun _ t => Turn sb T T T s t
      (Orderly sb T (s.view sb) → MakeEffect sb T cwd path type (s.view sb) (t.view sb))) := by
  rw [makeNode]
  refine Treads.bind (create_runs hD h hcwd htype hT hA) ?_
  rintro (_ | ip) t ht
  · exact treads_pure (Turn.imp ht (fun heff ho => .inl (heff ho)))
  · obtain ⟨-, -, ht⟩ := ht
    refine Treads.bind (iput_runs ht.sound) (fun _ u hu => treads_pure ?_)
    refine ⟨hu.sound, ht.stays.trans hu.stays, fun ha => ?_⟩
    obtain ⟨hat, heff⟩ := ht.moves ha
    obtain ⟨hau, huv⟩ := hu.moves hat
    refine ⟨hau, fun ho => ?_⟩
    rcases heff ho with ⟨htv, -⟩ | ⟨dp, name, k, hc, htv⟩
    · rw [huv, htv, ha.settled_eq]
      exact .inl rfl
    · rw [huv, htv, settled_created hc.ne]
      exact .inr ⟨dp, ip, name, k, hc, rfl⟩

/-- What `open` may do to the namespace when it opens `ip`. -/
def OpenEffect (sb : Superblock) (T : Multiset ℕ) (cwd : ℕ) (path : Name) (mode : OpenMode) (ip : ℕ)
    (v w : ℕ → Node) : Prop :=
  (w = v ∧ (v ip).type ≠ .none) ∨
  (mode.create = true ∧ ∃ dp name k, Creates sb v cwd path dp ip name k ∧
    w = created T v dp ip name .file k)

/-- What `openInode` guarantees of its result. A writable file is no directory. -/
def Opened (sb : Superblock) (T : Multiset ℕ) (cwd : ℕ) (path : Name) (mode : OpenMode) (s : FS) :
    Option ℕ → FS → Prop
  | none, t => Turn sb T T T s t (Orderly sb T (s.view sb) → t.view sb = s.view sb)
  | some ip, t => t.live ip ∧ (mode.notReadOnly = true → (t.body ip).type ≠ .dir) ∧
    Turn sb T T (ip ::ₘ T) s t (Orderly sb T (s.view sb) →
      OpenEffect sb T cwd path mode ip (s.view sb) (t.view sb))

theorem openChecked_runs {mode : OpenMode} (hl : t.live ip)
    (hdir : mode.notReadOnly = true → (t.body ip).type ≠ .dir)
    (ht : Turn sb T T (ip ::ₘ T) s t (Orderly sb T (s.view sb) →
      OpenEffect sb T cwd path mode ip (s.view sb) (t.view sb))) :
    Runs sb A W D T₀ k (do
      let s ← get
      if (s.body ip).type = .device ∧ ((s.body ip).major < 0 ∨ nDev ≤ (s.body ip).major) then
        iput sb ip
        pure none
      else pure (some ip)) t (Opened sb T cwd path mode s) := by
  rw [Runs, treads_get]
  refine Treads.ite ?_ (fun _ => treads_pure ⟨hl, hdir, ht⟩)
  rintro ⟨hdev, -⟩
  have htype := ht.sound.type_live hl
  refine Treads.bind (iput_runs ht.sound) (fun _ u hu => treads_pure ?_)
  refine ⟨hu.sound, ht.stays.trans hu.stays, fun ha => ?_⟩
  obtain ⟨hat, heff⟩ := ht.moves ha
  obtain ⟨hau, huv⟩ := hu.moves hat
  refine ⟨hau, fun ho => ?_⟩
  rcases heff ho with ⟨htv, -⟩ | ⟨-, dp, name, k, hc, htv⟩
  · rw [huv, htv, ha.settled_eq]
  · rw [htv, created_self hc.ne, hdev] at htype
    cases htype

theorem openInode_runs {mode : OpenMode} (hcreate : mode.create = true → D ∧ Offered sb T s A)
    (h : Sound sb T s) (hcwd : cwd ∈ T) (hT : Extra T₀ k T) :
    Runs sb A W D T₀ (k + 2) (openInode sb cwd path mode) s (Opened sb T cwd path mode s) := by
  have hquiet : ∀ t, Walked sb T T s t → Opened sb T cwd path mode s none t :=
    fun t ht => (ht.turn (fun _ h => h)).imp (fun hv _ => hv)
  rw [openInode]
  refine Treads.ite (fun hmode => ?_) (fun _ => ?_)
  · obtain ⟨hD, hA⟩ := hcreate hmode
    refine Treads.bind (create_runs hD h hcwd (by decide) hT hA) ?_
    rintro (_ | ip) t ht
    · exact treads_pure ht
    · obtain ⟨hl, hdir, ht⟩ := ht
      refine openChecked_runs hl (fun _ => hdir rfl) (ht.imp ?_)
      intro heff ho
      rcases heff ho with ⟨htv, hfile⟩ | hnew
      · refine .inl ⟨htv, ?_⟩
        rcases hfile with hfile | hfile <;> simp [hfile]
      · exact .inr ⟨hmode, hnew⟩
  · rw [namei]
    refine treads_assoc.2 (Treads.bind (namex_runs h hcwd (hT.mono (Nat.le_succ k))) ?_)
    rintro (_ | ⟨ip, last⟩) t hr
    · exact treads_pure_bind.2 (treads_pure_bind.2 (treads_pure (hquiet t hr.resolved.reached)))
    · have hst : Walked sb T (ip ::ₘ T) s t := hr.resolved.reached
      have hsub : T ⊆ ip ::ₘ T := Multiset.subset_cons _ _
      refine treads_pure_bind.2 (Treads.bind (ilock_runs hst.sound (Multiset.mem_cons_self _ _)) ?_)
      rintro _ u ⟨hkeep, hl⟩
      have hsu := hst.trans (hkeep.walked hsub)
      refine treads_get.2 (Treads.ite (fun _ => ?_) (fun hdir => treads_pure_bind.2 ?_))
      · refine Treads.bind (iput_resolved hsu) (fun _ x hx => ?_)
        exact treads_pure_bind.2 (treads_pure (hquiet x hx))
      · refine openChecked_runs hl (fun hmode hd => hdir ⟨hd, hmode⟩) ((hsu.turn hsub).imp ?_)
        intro huv _
        refine .inl ⟨huv, ?_⟩
        rw [← huv, hsu.sound.type_live hl]
        exact hsu.sound.typed ip hl

/-- What `chdir` guarantees of its result: the reference to the old directory goes for one
to the new one. -/
def Moved (sb : Superblock) (T : Multiset ℕ) (cwd : ℕ) (s : FS) : Option ℕ → FS → Prop
  | none, t => Turn sb (cwd ::ₘ T) (cwd ::ₘ T) (cwd ::ₘ T) s t (t.view sb = s.view sb)
  | some ip, t => Turn sb T (cwd ::ₘ T) (ip ::ₘ T) s t ((s.view sb ip).type = .dir ∧
      t.view sb = settled (ip ::ₘ T) (s.view sb) cwd) ∧ t.live ip

theorem chdirInode_runs (h : Sound sb (cwd ::ₘ T) s) (hT : Extra T₀ k (cwd ::ₘ T)) :
    Runs sb A W D T₀ (k + 1) (chdirInode sb cwd path) s (Moved sb T cwd s) := by
  have hself : cwd ::ₘ T ⊆ cwd ::ₘ T := fun _ h => h
  rw [chdirInode, namei]
  refine treads_assoc.2 (Treads.bind (namex_runs h (Multiset.mem_cons_self _ _) hT) ?_)
  rintro (_ | ⟨ip, last⟩) t hr
  · exact treads_pure_bind.2 (treads_pure (Walked.turn hr.resolved.reached hself))
  · have hst : Walked sb (cwd ::ₘ T) (ip ::ₘ cwd ::ₘ T) s t := hr.resolved.reached
    have hsub : cwd ::ₘ T ⊆ ip ::ₘ cwd ::ₘ T := Multiset.subset_cons _ _
    refine treads_pure_bind.2 (Treads.bind (ilock_runs hst.sound (Multiset.mem_cons_self _ _)) ?_)
    rintro _ u ⟨hkeep, hl⟩
    have hsu := hst.trans (hkeep.walked hsub)
    rw [treads_get]
    refine Treads.ite (fun _ => ?_) (fun hdir => ?_)
    · exact Treads.bind (iput_resolved hsu) (fun _ x hx => treads_pure (hx.turn hself))
    · have hswap := hsu.sound
      rw [Multiset.cons_swap] at hswap
      have hmem' : ip ∈ ip ::ₘ T := Multiset.mem_cons_self _ _
      refine Treads.bind (iput_runs hswap) (fun _ x hx => treads_pure ?_)
      refine ⟨⟨hx.sound, (hsu.stays.mono (Multiset.subset_cons _ _)).trans
        (hx.stays.mono (Multiset.subset_cons _ _)), fun ha => ?_⟩, hswap.live_turn hx hmem' hmem' hl⟩
      have hau := (hsu.anchored ha).mono hsub
      rw [Multiset.cons_swap] at hau
      obtain ⟨hax, hxv⟩ := hx.moves hau
      have huv := hsu.still ha
      rw [huv] at hxv
      refine ⟨hax, ?_, hxv⟩
      rw [← huv, hsu.sound.type_live hl]
      exact not_not.1 hdir

end Xv6.FileSystem
