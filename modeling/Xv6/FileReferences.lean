import Mathlib.Algebra.Group.Pi.Lemmas
import Mathlib.Data.Fintype.Prod
import Mathlib.Data.Fintype.Sum
import Mathlib.Tactic.Abel
import Xv6.FileTable

/-!
# References to files, pipes and inodes

Descriptors point to file structures, file structures to inodes and to the ends of pipes,
and processes to their directories. `State.loose` is the difference between what the counts
say and the number of these pointers. It is zero between calls; inside a call it is what the
caller has in hand.
-/

namespace Xv6.FileTable

open Function PanicPrograms ReferenceCounts
open FileSystem (FileType)

inductive Obj (ι π : Type)
  | file (f : Index)
  | inode (ip : ι)
  | readEnd (pi : π)
  | writeEnd (pi : π)
  deriving DecidableEq

variable {n : ℕ} {ι π : Type}

def endOf (writable : Bool) (pi : π) : Obj ι π := if writable then .writeEnd pi else .readEnd pi

def File.target (x : File ι π) : Option (Obj ι π) :=
  match x.type with
  | .none => none
  | .pipe => x.pipe.map (endOf x.writable)
  | .inode => x.ip.map .inode
  | .device => x.ip.map .inode

/-- The pointers that go with the type are set. -/
structure File.Filled (x : File ι π) : Prop where
  pipe : x.type = .pipe → x.pipe ≠ none
  ip : x.type = .inode ∨ x.type = .device → x.ip ≠ none

theorem File.target_fill (x : File ι π) (found : Found ι) (omode : ℕ) :
    (x.fill found omode).target = some (.inode found.ip) := by
  by_cases hdev : found.type = .device
  · simp [File.target, File.fill, hdev]
  · simp [File.target, File.fill, hdev]

theorem File.filled_fill (x : File ι π) (found : Found ι) (omode : ℕ) : (x.fill found omode).Filled where
  pipe := by
    intro htype
    simp only [File.fill] at htype
    split at htype <;> cases htype
  ip := fun _ => nofun

def State.ptr (s : State n ι π) : Fd n ⊕ Index ⊕ Fin n → Option (Obj ι π)
  | .inl x => (s.ofile x).map .file
  | .inr (.inl f) => (s.file f).target
  | .inr (.inr p) => (s.cwd p).map .inode

def State.count (s : State n ι π) : Obj ι π → ℤ
  | .file f => (s.file f).ref
  | .inode ip => s.iref ip
  | .readEnd pi => ((s.pipe pi).map Pipe.readopen).getD 0
  | .writeEnd pi => ((s.pipe pi).map Pipe.writeopen).getD 0

/-- What `fileclose` and the like leave alone. -/
structure Frame (s t : State n ι π) : Prop where
  ofile : t.ofile = s.ofile
  proc : t.proc = s.proc
  cwd : t.cwd = s.cwd

theorem Frame.refl (s : State n ι π) : Frame s s := ⟨rfl, rfl, rfl⟩

theorem Frame.trans {s t u : State n ι π} (h : Frame s t) (h' : Frame t u) : Frame s u :=
  ⟨h'.ofile.trans h.ofile, h'.proc.trans h.proc, h'.cwd.trans h.cwd⟩

variable [DecidableEq ι] [DecidableEq π] {s t : State n ι π} {f : Index} {x : Fd n} {y : File ι π} {pi : π}
  {ip : ι} {p : Fin n}

def State.loose (s : State n ι π) : Obj ι π → ℤ := fun o => s.count o - refs s.ptr o

section Changes

variable (s : State n ι π)

theorem loose_of_ptr {r : Fd n ⊕ Index ⊕ Fin n} {o : Option (Obj ι π)} (hcount : t.count = s.count)
    (hptr : t.ptr = update s.ptr r o) : t.loose = s.loose + one (s.ptr r) - one o := by
  funext k
  have h := refs_update_one s.ptr r o k
  simp only [State.loose, hcount, hptr, Pi.add_apply, Pi.sub_apply]
  omega

theorem loose_setOfile (x : Fd n) (o : Option Index) :
    (s.setOfile x o).loose = s.loose + one ((s.ofile x).map .file) - one (o.map .file) := by
  refine loose_of_ptr s (r := .inl x) (o := o.map .file) ?_ ?_
  · funext k
    cases k <;> rfl
  · funext r
    rcases r with x' | f | p
    · rcases eq_or_ne x' x with rfl | hne
      · simp [State.ptr, State.setOfile]
      · simp [State.ptr, State.setOfile, hne]
    · simp [State.ptr, State.setOfile]
    · simp [State.ptr, State.setOfile]

theorem loose_setCwd (p : Fin n) (o : Option ι) :
    (s.setCwd p o).loose = s.loose + one ((s.cwd p).map .inode) - one (o.map .inode) := by
  refine loose_of_ptr s (r := .inr (.inr p)) (o := o.map .inode) ?_ ?_
  · funext k
    cases k <;> rfl
  · funext r
    rcases r with x | f | q
    · simp [State.ptr, State.setCwd]
    · simp [State.ptr, State.setCwd]
    · rcases eq_or_ne q p with rfl | hne
      · simp [State.ptr, State.setCwd]
      · simp [State.ptr, State.setCwd, hne]

theorem loose_setFile (f : Index) (y : File ι π) :
    (s.setFile f y).loose = s.loose + Pi.single (.file f) (y.ref - (s.file f).ref) +
      one (s.file f).target - one y.target := by
  have hcount : (s.setFile f y).count = s.count + Pi.single (.file f) (y.ref - (s.file f).ref) := by
    funext k
    rw [Pi.add_apply, Pi.single_apply]
    cases k with
    | file f' =>
      rcases eq_or_ne f' f with rfl | hne
      · simp [State.count, State.setFile]
      · simp [State.count, State.setFile, hne]
    | inode ip | readEnd pi | writeEnd pi => simp [State.count, State.setFile]
  have hptr : (s.setFile f y).ptr = update s.ptr (.inr (.inl f)) y.target := by
    funext r
    rcases r with x | f' | q
    · simp [State.ptr, State.setFile]
    · rcases eq_or_ne f' f with rfl | hne
      · simp [State.ptr, State.setFile]
      · simp [State.ptr, State.setFile, hne]
    · simp [State.ptr, State.setFile]
  funext k
  have h := refs_update_one s.ptr (.inr (.inl f)) y.target k
  simp only [State.loose, hcount, hptr, Pi.add_apply, Pi.sub_apply]
  simp only [State.ptr] at h
  omega

theorem loose_of_count {d : Obj ι π → ℤ} (hptr : t.ptr = s.ptr) (hcount : t.count = s.count + d) :
    t.loose = s.loose + d := by
  funext k
  simp only [State.loose, hcount, hptr, Pi.add_apply]
  omega

theorem loose_setRef (ip : ι) (k : ℤ) :
    (s.setRef ip k).loose = s.loose + Pi.single (.inode ip) (k - s.iref ip) := by
  refine loose_of_count s rfl ?_
  funext o
  rw [Pi.add_apply, Pi.single_apply]
  cases o with
  | inode ip' =>
    rcases eq_or_ne ip' ip with rfl | hne
    · simp [State.count, State.setRef]
    · simp [State.count, State.setRef, hne]
  | file f | readEnd pi | writeEnd pi => simp [State.count, State.setRef]

theorem loose_setPipe (pi : π) (x : Option Pipe) :
    (s.setPipe pi x).loose = s.loose +
      Pi.single (.readEnd pi) (((x.map Pipe.readopen).getD 0 : ℕ) - s.count (.readEnd pi)) +
      Pi.single (.writeEnd pi) (((x.map Pipe.writeopen).getD 0 : ℕ) - s.count (.writeEnd pi)) := by
  rw [add_assoc]
  refine loose_of_count s rfl ?_
  funext o
  rw [Pi.add_apply, Pi.add_apply, Pi.single_apply, Pi.single_apply]
  cases o with
  | readEnd pi' | writeEnd pi' =>
    rcases eq_or_ne pi' pi with rfl | hne
    · simp [State.count, State.setPipe]
    · simp [State.count, State.setPipe, hne]
  | file f | inode ip => simp [State.count, State.setPipe]

end Changes

/-- What holds inside a call, with `L` in the hands of the caller. -/
structure Inv (L : Obj ι π → ℤ) (s : State n ι π) : Prop where
  loose : s.loose = L
  unused : ∀ f, (s.file f).ref = 0 → (s.file f).type = .none
  filled : ∀ f, (s.file f).Filled
  pages : ∀ pi x, s.pipe pi = some x → x.readopen ≤ 1 ∧ x.writeopen ≤ 1 ∧ 0 < x.readopen + x.writeopen
  gone : ∀ p, s.proc p ≠ .used → s.cwd p = none ∧ ∀ fd, s.ofile (p, fd) = none

/-- The caller has all ends of pipes in structures, and owes no reference to an inode. -/
structure Owed (L : Obj ι π → ℤ) : Prop where
  inode : ∀ ip, 0 ≤ L (.inode ip)
  ends : ∀ writable pi, L (endOf writable pi) = 0

variable {L L' : Obj ι π → ℤ}

omit [DecidableEq ι] [DecidableEq π] in
theorem owed_zero : Owed (0 : Obj ι π → ℤ) := ⟨fun _ => le_rfl, fun _ _ => rfl⟩

theorem single_file_endOf (f : Index) (k : ℤ) (writable : Bool) (pi : π) :
    (Pi.single (.file f) k : Obj ι π → ℤ) (endOf writable pi) = 0 := by
  cases writable <;> simp [endOf]

theorem Owed.addFile (h : Owed L) (f : Index) (k : ℤ) : Owed (L + Pi.single (.file f) k) where
  inode := by
    intro ip
    simpa using h.inode ip
  ends := by
    intro writable pi
    rw [Pi.add_apply, single_file_endOf, add_zero]
    exact h.ends writable pi

theorem Owed.addInode (h : Owed L) (ip : ι) : Owed (L + Pi.single (.inode ip) 1) where
  inode := by
    intro ip'
    have := h.inode ip'
    rw [Pi.add_apply, Pi.single_apply]
    split <;> omega
  ends := by
    intro writable pi
    have hend : (Pi.single (.inode ip) 1 : Obj ι π → ℤ) (endOf writable pi) = 0 := by
      cases writable <;> simp [endOf]
    rw [Pi.add_apply, hend, add_zero]
    exact h.ends writable pi

namespace Inv

theorem of_eq (h : Inv L s) (heq : L = L') : Inv L' s := heq ▸ h

theorem count_eq (h : Inv L s) (o : Obj ι π) : s.count o = refs s.ptr o + L o := by
  rw [← h.loose]
  simp only [State.loose]
  omega

theorem count_pos (h : Inv L s) {r : Fd n ⊕ Index ⊕ Fin n} {o : Obj ι π} (hr : s.ptr r = some o)
    (ho : 0 ≤ L o) : 0 < s.count o := by
  have hrefs := refs_pos hr
  have hcount := h.count_eq o
  omega

theorem count_pos_of_loose (h : Inv L s) {o : Obj ι π} (ho : 0 < L o) : 0 < s.count o := by
  have hcount := h.count_eq o
  omega

theorem ref_pos (h : Inv L s) (hx : s.ofile x = some f) (hf : 0 ≤ L (.file f)) : 0 < (s.file f).ref :=
  h.count_pos (r := .inl x) (o := .file f) (by simp [State.ptr, hx]) hf

theorem setOfile (h : Inv L s) (o : Option Index) (hp : o ≠ none → s.proc x.1 = .used) :
    Inv (L + one ((s.ofile x).map .file) - one (o.map .file)) (s.setOfile x o) where
  loose := by rw [loose_setOfile, h.loose]
  unused := h.unused
  filled := h.filled
  pages := h.pages
  gone := by
    intro p hproc
    obtain ⟨hcwd, hnone⟩ := h.gone p hproc
    refine ⟨hcwd, fun fd => ?_⟩
    rcases eq_or_ne (p, fd) x with rfl | hne
    · simp only [State.setOfile, Function.update_self]
      by_contra ho
      exact hproc (hp ho)
    · simp only [State.setOfile, Function.update_of_ne hne]
      exact hnone fd

theorem give (h : Inv L s) (hx : s.ofile x = none) (hp : s.proc x.1 = .used) (f : Index) :
    Inv (L - Pi.single (.file f) 1) (s.setOfile x (some f)) := by
  have h' := h.setOfile (some f) (fun _ => hp)
  simpa [hx] using h'

theorem takeBack (h : Inv L s) (hx : s.ofile x = some f) :
    Inv (L + Pi.single (.file f) 1) (s.setOfile x none) := by
  have h' := h.setOfile none (fun hne => absurd rfl hne) (x := x)
  simpa [hx] using h'

theorem setFile (h : Inv L s) (hunused : y.ref = 0 → y.type = .none) (hfilled : y.Filled) :
    Inv (L + Pi.single (.file f) (y.ref - (s.file f).ref) + one (s.file f).target - one y.target)
      (s.setFile f y) where
  loose := by rw [loose_setFile, h.loose]
  unused := by
    intro f' hf
    rcases eq_or_ne f' f with rfl | hne
    · simp only [State.setFile, Function.update_self] at hf ⊢
      exact hunused hf
    · simp only [State.setFile, Function.update_of_ne hne] at hf ⊢
      exact h.unused f' hf
  filled := by
    intro f'
    rcases eq_or_ne f' f with rfl | hne
    · simp only [State.setFile, Function.update_self]
      exact hfilled
    · simp only [State.setFile, Function.update_of_ne hne]
      exact h.filled f'
  pages := h.pages
  gone := h.gone

theorem setCount (h : Inv L s) {k : ℤ} (hk : k ≠ 0) :
    Inv (L + Pi.single (.file f) (k - (s.file f).ref)) (s.setFile f { s.file f with ref := k }) := by
  have h' := h.setFile (f := f) (y := { s.file f with ref := k }) (fun h0 => absurd h0 hk)
    ⟨(h.filled f).pipe, (h.filled f).ip⟩
  have htarget : File.target { s.file f with ref := k } = (s.file f).target := rfl
  rwa [htarget, add_sub_cancel_right] at h'

theorem fill (h : Inv L s) (htype : (s.file f).type = .none) (hsame : y.ref = (s.file f).ref)
    (href : (s.file f).ref ≠ 0) (hfilled : y.Filled) : Inv (L - one y.target) (s.setFile f y) := by
  refine (h.setFile (fun h0 => absurd (hsame.symm.trans h0) href) hfilled).of_eq ?_
  have htarget : (s.file f).target = none := by simp [File.target, htype]
  rw [htarget, one_none, hsame, sub_self, Pi.single_zero, add_zero, add_zero]

theorem clear (h : Inv L s) :
    Inv (L - Pi.single (.file f) (s.file f).ref + one (s.file f).target)
      (s.setFile f { s.file f with ref := 0, type := .none }) := by
  have h' := h.setFile (f := f) (y := { s.file f with ref := 0, type := .none }) (fun _ => rfl)
    ⟨nofun, nofun⟩
  have htarget : File.target { s.file f with ref := 0, type := .none } = none := rfl
  refine h'.of_eq ?_
  rw [htarget, one_none, sub_zero, zero_sub, Pi.single_neg, ← sub_eq_add_neg]

theorem setPipe (h : Inv L s) {o : Option Pipe}
    (ho : ∀ z, o = some z → z.readopen ≤ 1 ∧ z.writeopen ≤ 1 ∧ 0 < z.readopen + z.writeopen) :
    Inv (L + Pi.single (.readEnd pi) (((o.map Pipe.readopen).getD 0 : ℕ) - s.count (.readEnd pi)) +
      Pi.single (.writeEnd pi) (((o.map Pipe.writeopen).getD 0 : ℕ) - s.count (.writeEnd pi)))
      (s.setPipe pi o) where
  loose := by rw [loose_setPipe, h.loose]
  unused := h.unused
  filled := h.filled
  pages := by
    intro pi' z hz
    rcases eq_or_ne pi' pi with rfl | hne
    · simp only [State.setPipe, Function.update_self] at hz
      exact ho z hz
    · simp only [State.setPipe, Function.update_of_ne hne] at hz
      exact h.pages pi' z hz
  gone := h.gone

theorem setCwd (h : Inv L s) {o : Option ι} (hp : o ≠ none → s.proc p = .used) :
    Inv (L + one ((s.cwd p).map .inode) - one (o.map .inode)) (s.setCwd p o) where
  loose := by rw [loose_setCwd, h.loose]
  unused := h.unused
  filled := h.filled
  pages := h.pages
  gone := by
    intro q hq
    obtain ⟨hcwd, hnone⟩ := h.gone q hq
    refine ⟨?_, hnone⟩
    rcases eq_or_ne q p with rfl | hne
    · simp only [State.setCwd, Function.update_self]
      by_contra ho
      exact hq (hp ho)
    · simp only [State.setCwd, Function.update_of_ne hne]
      exact hcwd

theorem setProc (h : Inv L s) {z : ProcState}
    (hp : z ≠ .used → s.cwd p = none ∧ ∀ fd, s.ofile (p, fd) = none) : Inv L (s.setProc p z) where
  loose := h.loose
  unused := h.unused
  filled := h.filled
  pages := h.pages
  gone := by
    intro q hq
    rcases eq_or_ne q p with rfl | hne
    · simp only [State.setProc, Function.update_self] at hq
      exact hp hq
    · simp only [State.setProc, Function.update_of_ne hne] at hq
      exact h.gone q hq

theorem setRef (h : Inv L s) (ip : ι) (k : ℤ) :
    Inv (L + Pi.single (.inode ip) (k - s.iref ip)) (s.setRef ip k) where
  loose := by rw [loose_setRef, h.loose]
  unused := h.unused
  filled := h.filled
  pages := h.pages
  gone := h.gone

end Inv

end Xv6.FileTable
