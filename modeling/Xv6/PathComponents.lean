import Xv6.FailedCalls

/-!
# Path names as lists of components

`skipelem` eats a path element by element. A walk of `namex` is a walk over the list of the
elements.
-/

namespace Xv6.FileSystem

open ActionPaths ByteBlocks PanicPrograms

/-- The non-empty parts of a path between slashes, each cut to `DIRSIZ` bytes. -/
def components (path : Name) : List Name :=
  ((path.splitOn slash).filter (· ≠ [])).map (List.take dirSiz)

variable {sb : Superblock} {T : Multiset ℕ} {s t : FS} {ip cwd fuel : ℕ} {name rest path : Name}
  {names : List Name} {parent : Bool} {v : ℕ → Node}

@[simp]
theorem components_nil : components [] = [] := rfl

theorem components_slash : components (slash :: path) = components path := by
  rw [components, List.splitOn_cons_eq_if_modifyHead, if_pos (by simp)]
  simp [components]

theorem components_dropWhile : components (path.dropWhile (· = slash)) = components path := by
  induction path with
  | nil => rfl
  | cons c path ih =>
    rw [List.dropWhile_cons]
    split
    · rename_i hc
      rw [ih, of_decide_eq_true hc, components_slash]
    · rfl

theorem components_append (hne : name ≠ []) (hname : slash ∉ name)
    (hrest : ∀ c, rest.head? = some c → c = slash) :
    components (name ++ rest) = name.take dirSiz :: components rest := by
  cases rest with
  | nil =>
    rw [List.append_nil, components, List.splitOn_eq_singleton hname]
    simp [hne]
  | cons c rest =>
    obtain rfl := hrest c rfl
    rw [components_slash, components, List.splitOn_append_cons_self_of_not_mem hname]
    simp [hne, components]

theorem components_cons {c : Byte} (hc : c ≠ slash) :
    components (c :: rest) = ((c :: rest).takeWhile (· ≠ slash)).take dirSiz ::
      components ((c :: rest).dropWhile (· ≠ slash)) := by
  have hname : slash ∉ (c :: rest).takeWhile (· ≠ slash) := by
    intro hmem
    simpa using List.mem_takeWhile_imp hmem
  have hrest : ∀ d, ((c :: rest).dropWhile (· ≠ slash)).head? = some d → d = slash := by
    intro d hd
    have hnot := List.head?_dropWhile_not (fun c => decide (c ≠ slash)) (c :: rest)
    rw [hd] at hnot
    simpa using hnot
  have happ := components_append (by simp [hc]) hname hrest
  rwa [List.takeWhile_append_dropWhile] at happ

theorem dropWhile_slash_cons {c : Byte} (h : path.dropWhile (· = slash) = c :: rest) : c ≠ slash := by
  have hnot := List.head?_dropWhile_not (fun c => decide (c = slash)) path
  rw [h] at hnot
  simpa using hnot

theorem skipelem_eq_none (h : skipelem path = none) : components path = [] := by
  rw [skipelem] at h
  split at h
  · rename_i hdrop
    rw [← components_dropWhile, hdrop, components_nil]
  · cases h

/-- `skipelem` takes the first component off. Nothing is left of the path only if no component
is. -/
theorem skipelem_eq_some (h : skipelem path = some (name, rest)) :
    components path = name :: components rest ∧ (components rest = [] ↔ rest = []) ∧
      rest.length < path.length := by
  rw [skipelem] at h
  split at h
  · cases h
  · rename_i c tail hdrop
    obtain ⟨rfl, rfl⟩ := Prod.mk.inj (Option.some.inj h)
    have hc := dropWhile_slash_cons hdrop
    refine ⟨?_, ⟨fun hnil => ?_, fun hnil => by rw [hnil, components_nil]⟩, ?_⟩
    · rw [components_dropWhile, ← components_cons hc, ← hdrop, components_dropWhile]
    · by_contra hne
      obtain ⟨d, rest, hd⟩ := List.exists_cons_of_ne_nil hne
      rw [hd, components_cons (dropWhile_slash_cons hd)] at hnil
      cases hnil
    · have hlen := (List.dropWhile_suffix (l := path) (fun c => decide (c = slash))).length_le
      rw [hdrop] at hlen
      rw [List.dropWhile_cons_of_pos (by simp [hc])]
      have hle : ((tail.dropWhile (· ≠ slash)).dropWhile (· = slash)).length ≤ tail.length :=
        ((List.dropWhile_suffix _).trans (List.dropWhile_suffix _)).length_le
      exact lt_of_le_of_lt hle hlen

/-- The lookup of a name in `d`, which is to be a directory. -/
def lookupIn (v : ℕ → Node) (d : ℕ) (name : Name) : Option ℕ :=
  if (v d).type = .dir then childOf v d name else none

def follow (v : ℕ → Node) (ip : ℕ) (names : List Name) : Option ℕ := names.foldlM (lookupIn v) ip

def startOf (cwd : ℕ) (path : Name) : ℕ := if path.head? = some slash then rootIno else cwd

theorem follow_cons : follow v ip (name :: names) =
    (lookupIn v ip name).bind (fun next => follow v next names) := rfl

theorem follow_append {names' : List Name} : follow v ip (names ++ names') =
    (follow v ip names).bind (fun d => follow v d names') := List.foldlM_append ..

/-- The directory of the last component, and that component. -/
def parentOf (v : ℕ → Node) (ip : ℕ) (names : List Name) : Option (ℕ × Name) :=
  names.getLast?.bind (fun last => (follow v ip names.dropLast).bind (fun d =>
    if (v d).type = .dir then some (d, last) else none))

theorem parentOf_singleton : parentOf v ip [name] = if (v ip).type = .dir then some (ip, name) else none := rfl

theorem parentOf_cons (hne : names ≠ []) : parentOf v ip (name :: names) =
    (lookupIn v ip name).bind (fun next => parentOf v next names) := by
  obtain ⟨name', names, rfl⟩ := List.exists_cons_of_ne_nil hne
  rw [parentOf, List.dropLast_cons_cons, follow_cons, List.getLast?_cons_cons]
  cases lookupIn v ip name with
  | none => simp
  | some next => rfl

theorem walk_eq (hfuel : path.length ≤ fuel) : walk v parent fuel ip path =
    if parent then parentOf v ip (components path)
    else (follow v ip (components path)).map (fun i => (i, [])) := by
  induction fuel generalizing ip path with
  | zero =>
    rw [List.eq_nil_of_length_eq_zero (Nat.le_zero.1 hfuel)]
    cases parent <;> rfl
  | succ fuel ih =>
    rw [walk]
    cases hskip : skipelem path with
    | none =>
      rw [skipelem_eq_none hskip]
      cases parent <;> rfl
    | some x =>
      obtain ⟨name, rest⟩ := x
      obtain ⟨hcomp, hend, hlt⟩ := skipelem_eq_some hskip
      rw [hcomp, follow_cons, lookupIn]
      simp only [ih (show rest.length ≤ fuel by omega)]
      by_cases hdir : (v ip).type = .dir
      · cases parent with
        | false => cases childOf v ip name <;> simp [hdir]
        | true =>
          by_cases hnil : rest = []
          · subst hnil
            simp [hdir, parentOf_singleton]
          · rw [parentOf_cons (fun h => hnil (hend.1 h))]
            simp [hdir, hnil, lookupIn]
      · by_cases hnil : components rest = []
        · simp [hdir, hnil, parentOf_singleton]
        · rw [parentOf_cons hnil]
          simp [hdir, lookupIn]

theorem resolve_false : resolve v cwd path false =
    (follow v (startOf cwd path) (components path)).map (fun i => (i, [])) := walk_eq le_rfl

/-- The call has left one reference more on the inode it returns, and the namespace as it was. -/
def Returns (sb : Superblock) (s : FS) (r : Option ℕ) (t : FS) : Prop :=
  (∀ j, (t.inode j).ref = (s.inode j).ref + if r = some j then 1 else 0) ∧ t.view sb = s.view sb

theorem Reached.returns {r : Option (ℕ × Name)} (h : Sound sb T s) (hanchored : Anchored sb T s)
    (hr : Reached sb T s r t) : Returns sb s (r.map Prod.fst) t := by
  cases r with
  | none =>
    have hr : Walked sb T T s t := hr
    refine ⟨fun j => ?_, hr.still hanchored⟩
    rw [hr.sound.ref_eq, h.ref_eq]
    rfl
  | some x =>
    have hr : Walked sb T (x.1 ::ₘ T) s t := hr
    refine ⟨fun j => ?_, hr.still hanchored⟩
    rw [hr.sound.ref_eq, h.ref_eq, Multiset.count_cons, Option.map_some]
    simp only [Option.some.injEq, eq_comm]

section SmallDisk

end SmallDisk

end Xv6.FileSystem
