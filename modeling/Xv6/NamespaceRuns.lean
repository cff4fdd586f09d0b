import Xv6.SyscallWalks

/-!
# The namespace between calls

What holds of the namespace whenever no call is under way: an inode without links is held, what
is held is allocated, directories are made of whole entries, and a link count is a `short`.
-/

namespace Xv6.FileSystem

open ActionPaths ByteBlocks Function PanicPrograms Relation TransitionRuns

variable {sb : Superblock} {T T' : Multiset ℕ} {v w : ℕ → Node} {i j dp ip cwd k : ℕ} {f : ℤ → ℤ}
  {name : Name} {type : FileType} {c : Call} {x : Node}

theorem settled_of_mem (h : j ∈ T) : settled T v i j = v j := by
  rw [settled]
  split
  · rename_i hc
    have hne : j ≠ i := fun heq => hc.1 (heq ▸ h)
    exact update_of_ne hne _ _
  · rfl

theorem short_short (n : ℤ) : short (short n) = short n := Int.bmod_bmod

/-- Every link count is a `short`. -/
def Shorts (v : ℕ → Node) : Prop := ∀ i, short (v i).nlink = (v i).nlink

theorem Shorts.update (h : Shorts v) (hx : short x.nlink = x.nlink) :
    Shorts (Function.update v i x) := by
  intro j
  rcases eq_or_ne j i with rfl | hne
  · rwa [Function.update_self]
  · rw [Function.update_of_ne hne]
    exact h j

theorem Shorts.settled (h : Shorts v) : Shorts (settled T v i) := by
  rw [FileSystem.settled]
  split
  · exact h.update rfl
  · exact h

theorem Shorts.setLink (h : Shorts v) : Shorts (setLink v i f) := h.update (short_short _)

theorem Shorts.slots (h : Shorts v) {slots : List Dirent} :
    Shorts (Function.update v i { v i with slots := slots }) := h.update (h i)

theorem Shorts.created (h : Shorts v) : Shorts (created T v dp ip name type k) := by
  have hlinked : Shorts (Function.update (Function.update v ip (newNode type dp ip)) dp
      { v dp with slots := putSlot (v dp).slots k ⟨ip % 2 ^ 16, padName name⟩ }) :=
    (h.update rfl).update (h dp)
  rw [FileSystem.created]
  refine Shorts.settled ?_
  split
  · exact hlinked.setLink
  · exact hlinked

theorem Shorts.unlinked (h : Shorts v) : Shorts (unlinked T v dp ip k) := by
  rw [FileSystem.unlinked]
  refine Shorts.settled (Shorts.setLink (Shorts.settled ?_))
  split
  · exact h.slots.setLink
  · exact h.slots

theorem Change.shorts (h : Change sb cwd T v c T' w) (hv : Shorts v) : Shorts w := by
  cases h with
  | still => exact hv
  | hold => exact hv
  | make => exact hv.created
  | makeHold => exact hv.created
  | unlink => exact hv.unlinked
  | linkBack => exact hv.setLink.setLink.settled
  | @link mem mem' old new ip dp k x _ _ _ found =>
    obtain ⟨name, -, hlinked⟩ := found.new
    refine Shorts.settled (Shorts.settled ?_)
    rw [hlinked.eq]
    exact hv.setLink.slots
  | chdir => exact hv.settled
  | close => exact hv.settled

/-- Whatever is held is allocated. -/
def Held (T : Multiset ℕ) (v : ℕ → Node) : Prop := ∀ i ∈ T, (v i).type ≠ .none

theorem Held.settled (h : Held T v) (hsub : T ⊆ T') : Held T (settled T' v i) := by
  intro j hj
  rw [settled_of_mem (hsub hj)]
  exact h j hj

theorem Held.setLink (h : Held T v) : Held T (setLink v i f) := by
  intro j hj
  rw [type_setLink]
  exact h j hj

theorem Held.update (h : Held T v) (hx : i ∈ T → x.type ≠ .none) : Held T (Function.update v i x) := by
  intro j hj
  rcases eq_or_ne j i with rfl | hne
  · rw [Function.update_self]
    exact hx hj
  · rw [Function.update_of_ne hne]
    exact h j hj

theorem Held.slots (h : Held T v) {slots : List Dirent} :
    Held T (Function.update v i { v i with slots := slots }) := h.update (h i)

theorem Held.mono (h : Held T' v) (hsub : T ⊆ T') : Held T v := fun i hi => h i (hsub hi)

theorem Held.created (h : Held T v) (htype : type ≠ .none) (hne : dp ≠ ip) :
    Held (ip ::ₘ T) (created T v dp ip name type k) := by
  have hnew : Held (ip ::ₘ T) (Function.update v ip (newNode type dp ip)) := by
    intro j hj
    rcases eq_or_ne j ip with rfl | hj'
    · rw [Function.update_self]
      exact htype
    · rw [Function.update_of_ne hj']
      exact h j ((Multiset.mem_cons.1 hj).resolve_left hj')
  have hlinked : Held (ip ::ₘ T) (Function.update (Function.update v ip (newNode type dp ip)) dp
      { v dp with slots := putSlot (v dp).slots k ⟨ip % 2 ^ 16, padName name⟩ }) := by
    refine hnew.update (fun hdp => ?_)
    have hdp' := hnew dp hdp
    rwa [Function.update_of_ne hne] at hdp'
  rw [FileSystem.created]
  refine Held.settled ?_ (fun _ h => h)
  split
  · exact hlinked.setLink
  · exact hlinked

theorem makes_ne_none {path : Name} (h : c.makes = some (path, type)) : type ≠ .none := by
  cases c <;> simp only [Call.makes] at h
  case sysOpen mem mode =>
    split at h
    · obtain ⟨_, -, heq⟩ := Option.map_eq_some_iff.1 h
      cases heq
      simp
    · cases h
  case sysMkdir mem =>
    obtain ⟨_, -, heq⟩ := Option.map_eq_some_iff.1 h
    cases heq
    simp
  case sysMknod mem major minor =>
    obtain ⟨_, -, heq⟩ := Option.map_eq_some_iff.1 h
    cases heq
    simp
  all_goals cases h

theorem Change.held (h : Change sb cwd T v c T' w) (hv : Held T v) : Held T' w := by
  have hsub : ∀ {i : ℕ} {T : Multiset ℕ}, T ⊆ i ::ₘ T := fun {i T} => Multiset.subset_cons T i
  cases h with
  | still => exact hv
  | hold type =>
    intro j hj
    rcases Multiset.mem_cons.1 hj with rfl | hj
    · exact type
    · exact hv j hj
  | make path_eq found => exact (hv.created (makes_ne_none path_eq) found.ne).mono hsub
  | makeHold path_eq found => exact hv.created (makes_ne_none path_eq) found.ne
  | @unlink mem path dp ip k _ _ found =>
    rw [unlinked]
    refine Held.settled (Held.setLink (Held.settled ?_ hsub)) (fun _ h => h)
    split
    · exact hv.slots.setLink
    · exact hv.slots
  | linkBack => exact hv.setLink.setLink.settled (fun _ h => h)
  | @link mem mem' old new ip dp k x _ _ _ found =>
    obtain ⟨name, -, hlinked⟩ := found.new
    refine Held.settled (Held.settled ?_ hsub) (fun _ h => h)
    rw [hlinked.eq]
    exact hv.setLink.slots
  | @chdir ip T' refs type =>
    have hnew : Held (ip ::ₘ T') v := by
      intro j hj
      rcases Multiset.mem_cons.1 hj with rfl | hj
      · simp [type]
      · exact hv j (by rw [refs]; exact Multiset.mem_cons_of_mem hj)
    exact hnew.settled (fun _ h => h)
  | @close i T' refs =>
    have hrest : Held T' v := hv.mono (by rw [refs]; exact hsub)
    exact hrest.settled (fun _ h => h)

variable {ι : Type} [Fintype ι] {s t : Sys ι}

/-- What holds when no call is under way. -/
structure Idle (sb : Superblock) (s : Sys ι) : Prop where
  consistent : Consistent sb s
  anchored : Anchored sb s.refs s.fs
  orderly : Orderly sb s.refs (s.fs.view sb)
  aligned : s.fs.Aligned sb
  shorts : Shorts (s.fs.view sb)

variable [DecidableEq ι]

theorem Idle.step {a : ι × Call} (h : Idle sb s) (hstep : step sb s a = some t) : Idle sb t := by
  obtain ⟨hpath, hafter⟩ := step_runs h.consistent hstep
  obtain ⟨hanchored, hchange⟩ := hafter.change h.anchored
  have hchange := hchange h.orderly
  exact ⟨hafter.consistent, hanchored, ⟨h.orderly.small, hchange.held h.orderly.held⟩,
    path_keeps (fun _ _ ha => ha.aligned) hpath h.aligned,
    hchange.shorts h.shorts⟩

theorem Idle.run {guard : Sys ι → ι × Call → Prop} {as : List (ι × Call)} (h : Idle sb s)
    (hrun : Run (FileSystem.step sb) guard s as t) : Idle sb t :=
  hrun.invariant h (fun _ _ _ hv _ hnext => hv.step hnext)

theorem Idle.run_dense {guard : Sys ι → ι × Call → Prop} {as : List (ι × Call)} (h : Idle sb s)
    (hdense : s.fs.Dense sb) (hrun : Run (FileSystem.step sb) guard s as t) : t.fs.Dense sb := by
  refine (hrun.invariant (I := fun s => Idle sb s ∧ s.fs.Dense sb) ⟨h, hdense⟩ ?_).2
  rintro s a t ⟨hs, hd⟩ - hnext
  exact ⟨hs.step hnext, path_keeps (fun _ _ ha => ha.dense) (step_runs hs.consistent hnext).1 hd⟩

end Xv6.FileSystem
