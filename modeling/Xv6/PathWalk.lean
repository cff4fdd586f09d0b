import Xv6.DirectoryLinks

/-!
# Resolving path names

What `namex` returns, as a function of the namespace. In a state where no inode without
links is left unreferenced, a walk leaves the namespace as it is.
-/

namespace Xv6.FileSystem

open ByteBlocks PanicPrograms

variable {sb : Superblock} {T T' T'' : Multiset ℕ} {s t u : FS} {i ip cwd fuel : ℕ} {name path : Name}
  {parent : Bool} {P : Prop} {E : Panic → Prop}

/-- The inode that an entry of a directory names. -/
def childOf (v : ℕ → Node) (dp : ℕ) (name : Name) : Option ℕ :=
  (lookup name (v dp).slots).bind (fun k => ((v dp).slots[k]?).map Dirent.inum)

def walkEnd (parent : Bool) (ip : ℕ) : Option (ℕ × Name) := if parent then none else some (ip, [])

def walk (v : ℕ → Node) (parent : Bool) : ℕ → ℕ → Name → Option (ℕ × Name)
  | 0, ip, _ => walkEnd parent ip
  | fuel + 1, ip, path =>
    match skipelem path with
    | none => walkEnd parent ip
    | some (name, rest) =>
      if (v ip).type ≠ .dir then none
      else if parent = true ∧ rest = [] then some (ip, name)
      else (childOf v ip name).bind (fun next => walk v parent fuel next rest)

/-- What `namex` returns in the namespace `v`. -/
def resolve (v : ℕ → Node) (cwd : ℕ) (path : Name) (parent : Bool) : Option (ℕ × Name) :=
  walk v parent path.length (if path.head? = some slash then rootIno else cwd) path

/-- Every entry names an allocated inode. -/
def Closed (v : ℕ → Node) : Prop :=
  ∀ d, ∀ e ∈ (v d).slots, e.inum ≠ 0 → (v e.inum).type ≠ .none

theorem walk_congr {v w : ℕ → Node}
    (h : ∀ i, (w i).type = (v i).type ∧ (w i).slots = (v i).slots) :
    walk w parent fuel ip path = walk v parent fuel ip path := by
  induction fuel generalizing ip path with
  | zero => rfl
  | succ fuel ih =>
    rw [walk, walk]
    cases skipelem path with
    | none => rfl
    | some x => simp only [(h ip).1, childOf, (h ip).2, ih]

/-- A step that shows no difference in an anchored state. -/
structure Walked (sb : Superblock) (T T' : Multiset ℕ) (s t : FS) : Prop where
  sound : Sound sb T' t
  stays : Stays T s t
  still : Anchored sb T s → t.view sb = s.view sb

theorem Anchored.of_view (h : Anchored sb T s) (hst : Stays T s t) (hview : t.view sb = s.view sb) :
    Anchored sb T t := by
  intro i htype hlink
  rw [hview] at htype hlink
  obtain ⟨hmem, hvalid⟩ := h i htype hlink
  exact ⟨hmem, hst.valid i hmem hvalid⟩

theorem Walked.anchored (h : Walked sb T T' s t) (ha : Anchored sb T s) : Anchored sb T t :=
  ha.of_view h.stays (h.still ha)

theorem Walked.trans (h : Walked sb T T' s t) (h' : Walked sb T T'' t u) : Walked sb T T'' s u where
  sound := h'.sound
  stays := h.stays.trans h'.stays
  still := fun ha => (h'.still (h.anchored ha)).trans (h.still ha)

theorem Keeps.walked (h : Keeps sb T' T'' s t) (hT : T ⊆ T') : Walked sb T T'' s t :=
  ⟨h.sound, h.stays.mono hT, fun _ => h.view⟩

theorem Anchored.mono (h : Anchored sb T s) (hT : T ⊆ T') : Anchored sb T' s := by
  intro i htype hlink
  obtain ⟨hmem, hvalid⟩ := h i htype hlink
  exact ⟨hT hmem, hvalid⟩

theorem iput_walked (h : Sound sb (i ::ₘ T') s) (hT : T ⊆ T') :
    Ends (iput sb i) s (fun _ t => Walked sb T T' s t) E := by
  refine (iput_ends h).imp ?_
  intro _ t ht
  refine ⟨ht.sound, ht.stays.mono hT, fun ha => ?_⟩
  have ha' := ha.mono hT
  rw [(ht.moves (ha'.mono (Multiset.subset_cons T' i))).2, ha'.settled_eq]

/-- A walk returns with a reference to the inode it has reached. -/
def Reached (sb : Superblock) (T : Multiset ℕ) (s : FS) : Option (ℕ × Name) → FS → Prop
  | none, t => Walked sb T T s t
  | some (i, _), t => Walked sb T (i ::ₘ T) s t

theorem Walked.reached {r : Option (ℕ × Name)} (h : Walked sb T T' s t) (h' : Reached sb T t r u) :
    Reached sb T s r u := by
  cases r with
  | none => exact h.trans h'
  | some x => exact h.trans h'

/-- What a walk guarantees of its result `r`, where `want` is what the namespace says. The
parent directory that it returns has been locked. -/
structure Resolved (sb : Superblock) (T : Multiset ℕ) (parent : Bool) (want : Option (ℕ × Name))
    (s : FS) (r : Option (ℕ × Name)) (t : FS) : Prop where
  eq : Anchored sb T s → r = want
  reached : Reached sb T s r t
  live : parent = true → ∀ i name, r = some (i, name) → t.live i

/-- What keeps every walk from an inode that is not there. -/
structure Navigable (sb : Superblock) (T : Multiset ℕ) (s : FS) (cwd : ℕ) : Prop where
  anchored : Anchored sb T s
  closed : Closed (s.view sb)
  cwd : (s.view sb cwd).type ≠ .none
  root : (s.view sb rootIno).type ≠ .none

theorem Walked.turn (h : Walked sb T T' s t) (hT : T ⊆ T') :
    Turn sb T T T' s t (t.view sb = s.view sb) :=
  ⟨h.sound, h.stays, fun ha => ⟨(h.anchored ha).mono hT, h.still ha⟩⟩

end Xv6.FileSystem
