import Xv6.PathComponents

/-!
# The search of `find`

`user/find.c`, with `stat` of `user/ulib.c`, on a file system that nobody changes. `open` sees the
namespace as `namei` does and takes the lowest free descriptor of the process; a directory is
read entry by entry. The buffer of `find` is the path, a slash and the name of an entry: the test
of its size leaves room for them. What is printed is a list with one text for each call. The stack
is the one page that `exec` gives to a process: `frames` calls of `find` in one another fit on it.
-/

namespace Xv6.Find

open ByteBlocks FileSystem Function

/-- The file system as a process with the current directory `cwd` finds it. -/
structure Disk where
  node : ℕ → Node
  major : ℕ → ℤ
  cwd : ℕ

/-- The inode and the offset, in entries, of an open file. -/
structure OpenFile where
  ip : ℕ
  off : ℕ
  deriving DecidableEq

abbrev Fds := ℕ → Option OpenFile

abbrev Text := List Byte

structure State where
  fds : Fds
  /-- standard output -/
  out : List Text
  /-- standard error -/
  err : List Text

namespace State

def print (s : State) (text : Text) : State := { s with out := s.out ++ [text] }

def warn (s : State) (text : Text) : State := { s with err := s.err ++ [text] }

def close (s : State) (fd : ℕ) : State := { s with fds := update s.fds fd none }

end State

def newline : Byte := 10

def bytes (text : String) : Text := text.toList.map (fun c => BitVec.ofNat 8 c.toNat)

def findBuf : ℕ := 512

namespace Disk

variable (d : Disk)

/-- A device that no driver serves cannot be opened. -/
def Openable (i : ℕ) : Prop := (d.node i).type = .device → 0 ≤ d.major i ∧ d.major i < nDev

instance (i : ℕ) : Decidable (d.Openable i) := inferInstanceAs (Decidable (_ → _))

def resolve (path : Name) : Option ℕ := follow d.node (startOf d.cwd path) (components path)

/-- `open` with `O_RDONLY`, up to the inode. `argstr` takes a path with its NUL in `MAXPATH` bytes. -/
def openInode (path : Name) : Option ℕ :=
  if path.length < maxPath then (d.resolve path).filter (fun i => d.Openable i) else none

def sysOpen (path : Name) (fds : Fds) : Option (ℕ × Fds) :=
  match d.openInode path with
  | none => none
  | some i =>
    match firstFree (fun fd => (fds fd).isSome) nOfile 0 with
    | none => none
    | some fd => some (fd, update fds fd (some ⟨i, 0⟩))

def fstat (fd : ℕ) (fds : Fds) : Option FileType := (fds fd).map (fun f => (d.node f.ip).type)

/-- `read` of an entry of a directory, `none` at its end. -/
def read (fd : ℕ) (fds : Fds) : Option (Dirent × Fds) :=
  (fds fd).bind (fun f => ((d.node f.ip).slots[f.off]?).map (fun de =>
    (de, update fds fd (some { f with off := f.off + 1 }))))

def stat (path : Name) (fds : Fds) : Option FileType × Fds :=
  match d.sysOpen path fds with
  | none => (none, fds)
  | some (fd, fds) => (d.fstat fd fds, update fds fd none)

end Disk

/-- `_basename`: from the end back to a slash. -/
def basename (path : Name) : Name := (path.reverse.takeWhile (· ≠ slash)).reverse

mutual

/-- `find`, with stack left for `frames` calls. One more writes below the page of the stack, and the
process is killed: the result is then `none`. -/
def find (d : Disk) (name : Name) : ℕ → ℕ → Name → State → Option (Option ℤ × State)
  | 0, _, _, _ => none
  | _ + 1, 0, _, s => some (none, s)
  | fuel + 1, frames + 1, path, s =>
    match d.sysOpen path s.fds with
    | none => some (some (-1), s.warn (bytes "find: cannot open " ++ path ++ [newline]))
    | some (fd, fds) =>
      let s := { s with fds := fds }
      match d.fstat fd s.fds with
      | none => some (some (-1), (s.warn (bytes "find: cannot stat " ++ path ++ [newline])).close fd)
      | some type =>
        if path.length + 1 + dirSiz + 1 > findBuf then
          some (some (-1), (s.print (bytes "find: path too long" ++ [newline])).close fd)
        else
          match type with
          | .file | .device =>
            some (some 1, (if name = basename path then s.print (path ++ [newline]) else s).close fd)
          | .dir =>
            match readEntries d name fuel frames fd path s with
            | none => none
            | some (false, s) => some (none, s)
            | some (true, s) => some (some 1, s.close fd)
          | .none | .other _ => some (some 1, s.close fd)

/-- The loop of `find` over the entries of the directory `path`, open as `fd`; `false` if the process
is killed in it. -/
def readEntries (d : Disk) (name : Name) : ℕ → ℕ → ℕ → Name → State → Option (Bool × State)
  | 0, _, _, _, _ => none
  | fuel + 1, frames, fd, path, s =>
    match d.read fd s.fds with
    | none => some (true, s)
    | some (de, fds) =>
      let s := { s with fds := fds }
      if cutName de.name = dot ∨ cutName de.name = dotdot then readEntries d name fuel frames fd path s
      else if de.inum = 0 then readEntries d name fuel frames fd path s
      else
        let buf := path ++ slash :: cutName de.name
        match d.stat buf s.fds with
        | (none, fds) =>
          readEntries d name fuel frames fd path
            ({ s with fds := fds }.warn (bytes "find: connt stat " ++ buf ++ [newline]))
        | (some _, fds) =>
          match find d name fuel frames buf { s with fds := fds } with
          | none => none
          | some (none, s) => some (false, s)
          | some (some _, s) => readEntries d name fuel frames fd path s

end

variable {d : Disk} {name path : Name} {s : State} {fds : Fds} {i j fd k frames : ℕ}

def free (fds : Fds) : ℕ := ((Finset.range nOfile).filter (fun fd => fds fd = none)).card

def Live (de : Dirent) : Prop := de.inum ≠ 0 ∧ cutName de.name ≠ dot ∧ cutName de.name ≠ dotdot

instance (de : Dirent) : Decidable (Live de) := inferInstanceAs (Decidable (_ ∧ _))

/-- The lines that `find` prints for `path` with `k` free descriptors, if the stack is large enough. -/
def found (d : Disk) (name : Name) : ℕ → Name → List Text
  | 0, _ => []
  | k + 1, path =>
    match d.openInode path with
    | none => []
    | some i =>
      match (d.node i).type with
      | .file | .device => if name = basename path then [path ++ [newline]] else []
      | .dir => ((d.node i).slots.filter (fun de => Live de)).flatMap
          (fun de => found d name k (path ++ slash :: cutName de.name))
      | .none | .other _ => []

/-- The stack is large enough for `find` on `path` with `k` free descriptors: `find` calls itself on
the live entries that `stat` can open. -/
def Fits (d : Disk) : ℕ → ℕ → Name → Prop
  | _, 0, _ => False
  | 0, _ + 1, _ => True
  | k + 1, frames + 1, path => ∀ i, d.openInode path = some i → (d.node i).type = .dir →
      ∀ de ∈ (d.node i).slots, Live de → k ≠ 0 → d.openInode (path ++ slash :: cutName de.name) ≠ none →
        Fits d k frames (path ++ slash :: cutName de.name)

theorem firstFree_eq_none (h : free fds = 0) :
    firstFree (fun fd => (fds fd).isSome) nOfile 0 = none := by
  cases hfd : firstFree (fun fd => (fds fd).isSome) nOfile 0 with
  | none => rfl
  | some fd =>
    obtain ⟨hnone, -, hlt⟩ := firstFree_spec hfd
    rw [free, Finset.card_eq_zero, Finset.filter_eq_empty_iff] at h
    exact absurd (by simpa using hnone) (h (Finset.mem_range.2 (by omega)))

theorem firstFree_eq_some (h : free fds = k + 1) :
    ∃ fd, firstFree (fun fd => (fds fd).isSome) nOfile 0 = some fd ∧ fds fd = none ∧
      ∀ x, free (update fds fd (some x)) = k := by
  cases hfd : firstFree (fun fd => (fds fd).isSome) nOfile 0 with
  | none =>
    have hzero : free fds = 0 := by
      rw [free, Finset.card_eq_zero, Finset.filter_eq_empty_iff]
      intro fd hmem hnone
      have hsome := firstFree_none hfd (Nat.zero_le fd) (by simpa using hmem)
      rw [hnone] at hsome
      cases hsome
    omega
  | some fd =>
    obtain ⟨hnone, -, hlt⟩ := firstFree_spec hfd
    have hnone : fds fd = none := by simpa using hnone
    refine ⟨fd, rfl, hnone, ?_⟩
    intro x
    have herase : (Finset.range nOfile).filter (fun fd' => update fds fd (some x) fd' = none) =
        ((Finset.range nOfile).filter (fun fd' => fds fd' = none)).erase fd := by
      ext fd'
      by_cases heq : fd' = fd
      · simp [heq]
      · simp [heq]
    rw [free, herase, Finset.card_erase_of_mem (by simp [hnone]; omega)]
    rw [free] at h
    omega

/-- The call has the result `x`, if it is given enough turns. -/
def Gives {α : Type} (f : ℕ → Option α) (x : α) : Prop := ∃ n, ∀ fuel ≥ n, f fuel = some x

theorem Gives.of_succ {α β : Type} {f : ℕ → Option α} {g : ℕ → Option β} {x : α} {y : β} (h : Gives g y)
    (hf : ∀ fuel, g fuel = some y → f (fuel + 1) = some x) : Gives f x := by
  obtain ⟨n, hn⟩ := h
  refine ⟨n + 1, ?_⟩
  intro fuel hfuel
  obtain ⟨m, rfl⟩ : ∃ m, fuel = m + 1 := ⟨fuel - 1, by omega⟩
  exact hf m (hn m (by omega))

theorem Gives.of_turn {α : Type} {f : ℕ → Option α} {x : α} (h : ∀ fuel, f (fuel + 1) = some x) : Gives f x := by
  refine ⟨1, ?_⟩
  intro fuel hfuel
  obtain ⟨m, rfl⟩ : ∃ m, fuel = m + 1 := ⟨fuel - 1, by omega⟩
  exact h m

theorem Gives.turn {α β : Type} {f : ℕ → Option α} {g : ℕ → Option β} {h : ℕ → Option α} {x : α} {y : β}
    (hg : Gives g y) (hh : Gives h x) (hf : ∀ fuel, g fuel = some y → h fuel = some x → f (fuel + 1) = some x) :
    Gives f x := by
  obtain ⟨m, hm⟩ := hg
  obtain ⟨n, hn⟩ := hh
  refine ⟨m + n + 1, ?_⟩
  intro fuel hfuel
  obtain ⟨l, rfl⟩ : ∃ l, fuel = l + 1 := ⟨fuel - 1, by omega⟩
  exact hf l (hm l (by omega)) (hn l (by omega))

theorem sysOpen_eq_none (h : free fds = 0 ∨ d.openInode path = none) : d.sysOpen path fds = none := by
  rw [Disk.sysOpen]
  rcases h with h | h
  · cases d.openInode path with
    | none => rfl
    | some i => simp only [firstFree_eq_none h]
  · rw [h]

theorem sysOpen_eq_some (hfree : free fds = k + 1) (hi : d.openInode path = some i) :
    ∃ fd, d.sysOpen path fds = some (fd, update fds fd (some ⟨i, 0⟩)) ∧ fds fd = none ∧
      ∀ x, free (update fds fd (some x)) = k := by
  obtain ⟨fd, hfd, hnone, hfree⟩ := firstFree_eq_some hfree
  refine ⟨fd, ?_, hnone, hfree⟩
  simp only [Disk.sysOpen, hi, hfd]

theorem stat_fds (path : Name) (fds : Fds) : (d.stat path fds).2 = fds := by
  rw [Disk.stat, Disk.sysOpen]
  cases d.openInode path with
  | none => rfl
  | some i =>
    dsimp only
    cases hfd : firstFree (fun fd => (fds fd).isSome) nOfile 0 with
    | none => rfl
    | some fd =>
      have hnone : fds fd = none := by simpa using (firstFree_spec hfd).1
      dsimp only
      rw [update_idem, ← hnone, update_eq_self]

theorem stat_eq_none : (d.stat path fds).1 = none ↔ free fds = 0 ∨ d.openInode path = none := by
  constructor
  · intro h
    by_contra hopens
    obtain ⟨hfree, hi⟩ := not_or.1 hopens
    obtain ⟨k, hk⟩ := Nat.exists_eq_succ_of_ne_zero hfree
    obtain ⟨i, hi⟩ := Option.ne_none_iff_exists'.1 hi
    obtain ⟨fd, hopen, -⟩ := sysOpen_eq_some hk hi
    simp only [Disk.stat, hopen, Disk.fstat, update_self] at h
    cases h
  · intro h
    rw [Disk.stat, sysOpen_eq_none h]

theorem found_unopened (h : k = 0 ∨ d.openInode path = none) : found d name k path = [] := by
  cases k with
  | zero => rfl
  | succ k =>
    rw [found, h.resolve_left (Nat.succ_ne_zero k)]

/-- A part of the search with `lines` to print, by the output before and after it: it ends before
their end only if the process is killed. -/
structure Searched (before after : List Text) (alive : Bool) (lines : List Text) (fits : Prop) : Prop where
  alive_iff : alive = true ↔ fits
  printed : ∃ out, after = before ++ out ∧ out <+: lines ∧ (alive = true → out = lines)

namespace Searched

variable {before between after lines lines' : List Text} {alive : Bool} {fits fits' : Prop}

theorem complete (lines : List Text) (h : fits) : Searched before (before ++ lines) true lines fits :=
  ⟨iff_of_true rfl h, lines, rfl, List.prefix_rfl, fun _ => rfl⟩

theorem silent (h : fits) : Searched before before true [] fits := by
  have hdone : Searched before (before ++ []) true [] fits := complete [] h
  rwa [List.append_nil] at hdone

theorem killed (h : Searched before after false lines fits) :
    Searched before after false (lines ++ lines') (fits ∧ fits') := by
  obtain ⟨halive, out, hout, hpre, -⟩ := h
  refine ⟨iff_of_false (by simp) (fun hfits => ?_), out, hout, hpre.trans (List.prefix_append _ _), fun h => ?_⟩
  · cases halive.2 hfits.1
  · cases h

theorem append (h : Searched before between true lines fits) (h' : Searched between after alive lines' fits') :
    Searched before after alive (lines ++ lines') (fits ∧ fits') := by
  obtain ⟨halive, out, hout, -, heq⟩ := h
  obtain ⟨halive', out', hout', hpre, heq'⟩ := h'
  obtain rfl := heq rfl
  refine ⟨halive'.trans (and_iff_right (halive.1 rfl)).symm, out ++ out', ?_, ?_, ?_⟩
  · rw [hout', hout, List.append_assoc]
  · exact (List.prefix_append_right_inj out).2 hpre
  · intro hok
    rw [heq' hok]

end Searched

/-- What is known of `find` with `k` free descriptors. -/
def Finds (d : Disk) (name : Name) (k : ℕ) : Prop :=
  ∀ frames path s, free s.fds = k → ∃ r t, Gives (fun fuel => find d name fuel frames path s) (r, t) ∧
    (r.isSome = true → t.fds = s.fds) ∧
    Searched s.out t.out r.isSome (found d name k path) (Fits d k frames path)

theorem readEntries_gives (h : Finds d name k) (hfree : ∀ x, free (update fds fd (some x)) = k)
    (frames : ℕ) (path : Name) (rest : List Dirent) : ∀ off s, (d.node i).slots.drop off = rest →
      s.fds = update fds fd (some ⟨i, off⟩) →
      ∃ off' alive t, Gives (fun fuel => readEntries d name fuel frames fd path s) (alive, t) ∧
        (alive = true → t.fds = update fds fd (some ⟨i, off'⟩)) ∧
        Searched s.out t.out alive ((rest.filter (fun de => Live de)).flatMap
            (fun de => found d name k (path ++ slash :: cutName de.name)))
          (∀ de ∈ rest, Live de → k ≠ 0 → d.openInode (path ++ slash :: cutName de.name) ≠ none →
            Fits d k frames (path ++ slash :: cutName de.name)) := by
  induction rest with
  | nil =>
    intro off s hrest hfds
    have hread : d.read fd s.fds = none := by
      rw [Disk.read, hfds, update_self, Option.bind_some,
        List.getElem?_eq_none (List.drop_eq_nil_iff.1 hrest), Option.map_none]
    refine ⟨off, true, s, Gives.of_turn ?_, fun _ => hfds, .silent ?_⟩
    · intro fuel
      simp only [readEntries, hread]
    · intro de hde
      cases hde
  | cons de rest ih =>
    intro off s hrest hfds
    have hde : (d.node i).slots[off]? = some de := by
      have := congrArg List.head? hrest
      rwa [List.head?_drop] at this
    have hdrop : (d.node i).slots.drop (off + 1) = rest := by
      rw [← List.tail_drop, hrest, List.tail_cons]
    have hread : d.read fd s.fds = some (de, update fds fd (some ⟨i, off + 1⟩)) := by
      rw [Disk.read, hfds, update_self, Option.bind_some, hde, Option.map_some, update_idem]
    rw [List.forall_mem_cons]
    by_cases hlive : Live de
    · rw [List.filter_cons_of_pos (by simpa using hlive), List.flatMap_cons, forall_prop_of_true hlive]
      obtain ⟨hinum, hdots⟩ := hlive
      have hnames := not_or.2 hdots
      set buf := path ++ slash :: cutName de.name
      obtain ⟨type, fds', hstat⟩ : ∃ type fds', d.stat buf (update fds fd (some ⟨i, off + 1⟩)) = (type, fds') :=
        ⟨_, _, rfl⟩
      obtain rfl : _ = fds' := (stat_fds buf _).symm.trans (congrArg Prod.snd hstat)
      have hopens : type = none ↔ k = 0 ∨ d.openInode buf = none := by
        rw [← hfree ⟨i, off + 1⟩, ← stat_eq_none, hstat]
      cases type with
      | none =>
        have hclosed := hopens.1 rfl
        rw [found_unopened hclosed]
        obtain ⟨off', alive, t, hgives, ht, hsearch⟩ := ih (off + 1) (State.warn ⟨_, s.out, s.err⟩
          (bytes "find: connt stat " ++ buf ++ [newline])) hdrop rfl
        refine ⟨off', alive, t, hgives.of_succ ?_, ht,
          (Searched.silent fun hk hi => absurd hclosed (not_or.2 ⟨hk, hi⟩)).append hsearch⟩
        intro fuel hfuel
        simp only [readEntries, hread, if_neg hnames, if_neg hinum, buf] at hstat ⊢
        rw [hstat]
        exact hfuel
      | some type =>
        obtain ⟨hk, hi⟩ := not_or.1 (mt hopens.2 (by simp))
        rw [forall_prop_of_true hk, forall_prop_of_true hi]
        obtain ⟨r, u, hfind, hufds, hsearch⟩ := h frames buf
          ⟨update fds fd (some ⟨i, off + 1⟩), s.out, s.err⟩ (hfree _)
        cases r with
        | none =>
          refine ⟨off, false, u, hfind.of_succ ?_, fun hok => ?_, hsearch.killed⟩
          · intro fuel hcall
            simp only [readEntries, hread, if_neg hnames, if_neg hinum, buf] at hstat hcall ⊢
            rw [hstat]
            dsimp only
            rw [hcall]
          · cases hok
        | some r =>
          obtain ⟨off', alive, t, hgives, ht, hrest⟩ := ih (off + 1) u hdrop (hufds rfl)
          refine ⟨off', alive, t, hfind.turn hgives ?_, ht, hsearch.append hrest⟩
          intro fuel hcall hfuel
          simp only [readEntries, hread, if_neg hnames, if_neg hinum, buf] at hstat hcall ⊢
          rw [hstat]
          dsimp only
          rw [hcall]
          exact hfuel
    · rw [List.filter_cons_of_neg (by simpa using hlive)]
      obtain ⟨off', alive, t, hgives, ht, hsearch⟩ := ih (off + 1) ⟨_, s.out, s.err⟩ hdrop rfl
      refine ⟨off', alive, t, hgives.of_succ ?_, ht,
        (Searched.silent fun hl => absurd hl hlive).append hsearch⟩
      intro fuel hfuel
      simp only [readEntries, hread]
      split
      · exact hfuel
      · rename_i hnames
        rw [if_pos (by_contra fun hinum => hlive ⟨hinum, not_or.1 hnames⟩)]
        exact hfuel

theorem openInode_eq_some :
    d.openInode path = some i ↔ path.length < maxPath ∧ d.resolve path = some i ∧ d.Openable i := by
  rw [Disk.openInode]
  split
  · rename_i hlen
    simp [hlen, Option.filter_eq_some_iff]
  · rename_i hlen
    simp [hlen]

theorem find_unopened (h : d.sysOpen path s.fds = none) {fits : Prop} (hfits : fits) :
    ∃ r t, Gives (fun fuel => find d name fuel (frames + 1) path s) (r, t) ∧
      (r.isSome = true → t.fds = s.fds) ∧ Searched s.out t.out r.isSome [] fits := by
  refine ⟨some (-1), s.warn (bytes "find: cannot open " ++ path ++ [newline]), Gives.of_turn ?_, fun _ => rfl,
    .silent hfits⟩
  intro fuel
  simp only [find, h]

theorem find_overrun (lines : List Text) : ∃ r t, Gives (fun fuel => find d name fuel 0 path s) (r, t) ∧
    (r.isSome = true → t.fds = s.fds) ∧ Searched s.out t.out r.isSome lines False := by
  refine ⟨none, s, Gives.of_turn ?_, by simp, ?_⟩
  · intro fuel
    rw [find]
  · exact ⟨by simp, [], by simp, List.nil_prefix, by simp⟩

theorem find_gives (d : Disk) (name : Name) (k : ℕ) : Finds d name k := by
  induction k with
  | zero =>
    intro frames path s hfree
    cases frames with
    | zero => exact find_overrun _
    | succ frames => exact find_unopened (sysOpen_eq_none (.inl hfree)) trivial
  | succ k ih =>
    intro frames path s hfree
    cases frames with
    | zero => exact find_overrun _
    | succ frames =>
      rw [found, Fits]
      cases hi : d.openInode path with
      | none => exact find_unopened (sysOpen_eq_none (.inr hi)) (by simp)
      | some i =>
        obtain ⟨fd, hopen, hnone, hless⟩ := sysOpen_eq_some hfree hi
        have hclose : ∀ x, update (update s.fds fd x) fd none = s.fds := by
          intro x
          rw [update_idem, ← hnone, update_eq_self]
        have hstat : d.fstat fd (update s.fds fd (some ⟨i, 0⟩)) = some (d.node i).type := by
          rw [Disk.fstat, update_self, Option.map_some]
        let u : State := { s with fds := update s.fds fd (some ⟨i, 0⟩) }
        -- A path that `open` takes leaves room for another name.
        have hroom : ¬ path.length + 1 + dirSiz + 1 > findBuf := by
          have hlen := (openInode_eq_some.1 hi).1
          simp only [maxPath, dirSiz, findBuf] at hlen ⊢
          omega
        simp only [Option.some.injEq, forall_eq']
        cases htype : (d.node i).type with
        | file | device =>
          refine ⟨some 1, State.close (if name = basename path then State.print u (path ++ [newline]) else u) fd,
            Gives.of_turn (fun fuel => ?_), fun _ => ?_, ?_⟩
          · simp only [find, hopen, hstat, if_neg hroom, htype, u]
          · split
            · exact hclose _
            · exact hclose _
          · split
            · exact .complete _ (by simp)
            · exact .silent (by simp)
        | none | other =>
          refine ⟨some 1, u.close fd, Gives.of_turn (fun fuel => ?_), fun _ => hclose _, .silent (by simp)⟩
          simp only [find, hopen, hstat, if_neg hroom, htype, u]
        | dir =>
          obtain ⟨off, alive, t, hgives, htfds, hsearch⟩ := readEntries_gives ih hless frames path
            (d.node i).slots 0 u (List.drop_zero ..) rfl
          rw [forall_prop_of_true rfl]
          cases alive with
          | false =>
            refine ⟨none, t, hgives.of_succ ?_, by simp, hsearch⟩
            intro fuel hfuel
            simp only [u] at hfuel
            simp only [find, hopen, hstat, if_neg hroom, htype, hfuel]
          | true =>
            refine ⟨some 1, t.close fd, hgives.of_succ ?_, fun _ => ?_, hsearch⟩
            · intro fuel hfuel
              simp only [u] at hfuel
              simp only [find, hopen, hstat, if_neg hroom, htype, hfuel]
            · rw [State.close, htfds rfl]
              exact hclose _

end Xv6.Find
