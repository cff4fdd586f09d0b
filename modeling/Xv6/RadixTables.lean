import Mathlib.Algebra.Order.Group.Multiset
import Mathlib.Algebra.BigOperators.Group.Multiset.Basic
import Mathlib.Tactic.Abel
import Mathlib.Tactic.Linarith
import Mathlib.Tactic.Positivity
import Mathlib.Tactic.Ring
import Xv6.TransitionRuns

/-!
# Tables of tables

A table with `b` entries lives in a frame of its own; an entry is empty or leads to a table of
the next level or, at the last one, to a value. Three levels make a partial map from numbers
below `b ^ 3`, read by their digits. `Table.frames` is the multiset of the frames that the
tables use.
-/

namespace Xv6.RadixTables

open TransitionRuns

structure Table (b : ℕ) (F α : Type) where
  frame : F
  entry : Fin b → Option α

variable {b : ℕ} {F α : Type}

def Table.empty (b : ℕ) (f : F) : Table b F α := ⟨f, fun _ => none⟩

def Table.set (t : Table b F α) (i : Fin b) (x : Option α) : Table b F α :=
  { t with entry := Function.update t.entry i x }

def Table.frames (g : α → Multiset F) (t : Table b F α) : Multiset F :=
  {t.frame} + ∑ i, (t.entry i).elim 0 g

@[simp] theorem Table.frames_empty (g : α → Multiset F) (f : F) :
    (Table.empty b f : Table b F α).frames g = {f} := by
  simp [Table.frames, Table.empty]

theorem Table.frames_zero (t : Table b F α) : t.frames (fun _ => 0) = {t.frame} := by
  have hzero : ∀ x : Option α, x.elim (0 : Multiset F) (fun _ => 0) = 0 := by
    intro x
    cases x <;> rfl
  simp [frames, hzero]

theorem Table.frames_set (g : α → Multiset F) (t : Table b F α) (i : Fin b) (x : Option α) :
    (t.set i x).frames g + (t.entry i).elim 0 g = t.frames g + x.elim 0 g := by
  have hsum := sum_update t.entry (fun y => y.elim 0 g) i x
  rw [frames, frames, add_assoc, add_assoc]
  exact congrArg ({t.frame} + ·) hsum

theorem Table.frames_set_grow {g : α → Multiset F} {t : Table b F α} {i : Fin b} {y : α} {m m' : Multiset F}
    (h : g y + m' = (t.entry i).elim 0 g + m) : (t.set i (some y)).frames g + m' = t.frames g + m := by
  have hset := t.frames_set g i (some y)
  rw [Option.elim_some] at hset
  refine add_right_cancel (b := (t.entry i).elim 0 g) ?_
  calc
    (t.set i (some y)).frames g + m' + (t.entry i).elim 0 g
      = (t.set i (some y)).frames g + (t.entry i).elim 0 g + m' := by abel
    _ = t.frames g + (g y + m') := by rw [hset, add_assoc]
    _ = t.frames g + m + (t.entry i).elim 0 g := by rw [h]; abel

theorem Table.frames_set_old {g : α → Multiset F} {t : Table b F α} {i : Fin b} {x y : α} {m : Multiset F}
    (h : t.entry i = some x) (hy : g y = g x + m) : (t.set i (some y)).frames g = t.frames g + m := by
  have hset := t.frames_set g i (some y)
  rw [h, Option.elim_some, Option.elim_some, hy, add_comm (g x) m, ← add_assoc] at hset
  exact add_right_cancel hset

theorem Table.mem_frames {g : α → Multiset F} {t : Table b F α} {f : F} :
    f ∈ t.frames g ↔ f = t.frame ∨ ∃ i x, t.entry i = some x ∧ f ∈ g x := by
  rw [frames, Multiset.mem_add, Multiset.mem_singleton, Multiset.mem_sum]
  constructor
  · rintro (hf | ⟨i, -, hi⟩)
    · exact Or.inl hf
    · cases hx : t.entry i with
      | none =>
        rw [hx] at hi
        exact absurd hi (Multiset.notMem_zero f)
      | some x =>
        rw [hx] at hi
        exact Or.inr ⟨i, x, hx, hi⟩
  · rintro (hf | ⟨i, x, hx, hf⟩)
    · exact Or.inl hf
    · refine Or.inr ⟨i, Finset.mem_univ i, ?_⟩
      rw [hx]
      exact hf

/-- What an entry leads to, of a table that may be missing. -/
def below (x : Option (Table b F α)) (i : Fin b) : Option α := x.bind (fun t => t.entry i)

@[simp] theorem below_some (t : Table b F α) (i : Fin b) : below (some t) i = t.entry i := rfl

@[simp] theorem below_none (i : Fin b) : below (none : Option (Table b F α)) i = none := rfl

theorem Table.entry_set (t : Table b F α) (i : Fin b) (x : Option α) (j : Fin b) :
    (t.set i x).entry j = if j = i then x else t.entry j :=
  Function.update_apply ..

abbrev Tree (b : ℕ) (F α : Type) := Table b F (Table b F (Table b F α))

abbrev Digits (b : ℕ) := Fin b × Fin b × Fin b

namespace Tree

/-- The entry at the last level, if the tables on the way to it exist. -/
def find (t : Tree b F α) (x : Digits b) : Option (Option α) :=
  (t.entry x.1).bind (fun t1 => (t1.entry x.2.1).map (fun t0 => t0.entry x.2.2))

/-- Writes the entry at the last level, if the tables on the way to it exist. -/
def put (t : Tree b F α) (x : Digits b) (a : Option α) : Tree b F α :=
  match t.entry x.1 with
  | none => t
  | some t1 =>
    match t1.entry x.2.1 with
    | none => t
    | some t0 => t.set x.1 (some (t1.set x.2.1 (some (t0.set x.2.2 a))))

def value (t : Tree b F α) (x : Digits b) : Option α := (t.find x).join

def tables (t : Tree b F α) : Multiset F := t.frames (Table.frames (Table.frames (fun _ => 0)))

theorem value_eq (t : Tree b F α) (x : Digits b) :
    t.value x = below (below (t.entry x.1) x.2.1) x.2.2 := by
  rw [value, find]
  cases t.entry x.1 with
  | none => rfl
  | some t1 => cases h0 : t1.entry x.2.1 <;> simp [h0]

theorem value_set {t : Tree b F α} {i : Fin b} {t1 : Table b F (Table b F α)}
    (h : ∀ j k, below (t1.entry j) k = below (below (t.entry i) j) k) (x : Digits b) :
    Tree.value (t.set i (some t1)) x = t.value x := by
  rw [value_eq, value_eq, Table.entry_set]
  split
  · rename_i hi
    rw [hi]
    exact h x.2.1 x.2.2
  · rfl

theorem below_set {t1 : Table b F (Table b F α)} {j : Fin b} {t0 : Table b F α}
    (h : ∀ k, t0.entry k = below (t1.entry j) k) (j' k : Fin b) :
    below ((t1.set j (some t0)).entry j') k = below (t1.entry j') k := by
  rw [Table.entry_set]
  split
  · rename_i hj
    rw [hj]
    exact h k
  · rfl

theorem find_put {t : Tree b F α} {x : Digits b} (h : t.find x ≠ none) (a : Option α) (y : Digits b) :
    (t.put x a).find y = if y = x then some a else t.find y := by
  obtain ⟨i, j, k⟩ := x
  obtain ⟨i', j', k'⟩ := y
  rcases h1 : t.entry i with _ | t1
  · simp [find, h1] at h
  rcases h0 : t1.entry j with _ | t0
  · simp [find, h1, h0] at h
  simp only [put, h1, h0, find, Table.set, Prod.mk.injEq]
  rcases eq_or_ne i' i with rfl | hi
  · rcases eq_or_ne j' j with rfl | hj
    · rcases eq_or_ne k' k with rfl | hk
      · simp
      · simp [hk, h1, h0]
    · simp [hj, h1]
  · simp [hi]

theorem value_put {t : Tree b F α} {x : Digits b} (h : t.find x ≠ none) (a : Option α) (y : Digits b) :
    (t.put x a).value y = if y = x then a else t.value y := by
  rw [value, find_put h]
  split
  · rfl
  · rfl

theorem tables_put (t : Tree b F α) (x : Digits b) (a : Option α) : (t.put x a).tables = t.tables := by
  obtain ⟨i, j, k⟩ := x
  simp only [put]
  split
  · rfl
  · rename_i t1 h1
    split
    · rfl
    · rename_i t0 h0
      have hlast : (t0.set k a).frames (fun _ => 0) = t0.frames (fun _ => 0) + 0 := by
        rw [Table.frames_zero, Table.frames_zero, add_zero]
        rfl
      have hmid := Table.frames_set_old (g := Table.frames (fun _ => 0)) h0 hlast
      have htop := Table.frames_set_old (g := Table.frames (Table.frames (fun _ => 0))) h1 hmid
      rw [tables, tables, htop, add_zero]

theorem value_of_find {t : Tree b F α} {x : Digits b} {a : Option α} (h : t.find x = some a) :
    t.value x = a := by
  rw [value, h]
  rfl

theorem find_of_value {t : Tree b F α} {x : Digits b} {a : α} (h : t.value x = some a) :
    t.find x = some (some a) := by
  rw [value] at h
  rcases hf : t.find x with _ | y
  · rw [hf] at h
    cases h
  · rw [hf] at h
    exact congrArg some h

end Tree

/-- The digits of a number, the most significant first. -/
def digits (b v : ℕ) [NeZero b] : Digits b :=
  (Fin.ofNat b (v / b ^ 2), Fin.ofNat b (v / b), Fin.ofNat b v)

theorem digits_inj [NeZero b] {v w : ℕ} (hv : v < b ^ 3) (hw : w < b ^ 3)
    (h : digits b v = digits b w) : v = w := by
  simp only [digits, Prod.mk.injEq, Fin.ofNat, Fin.mk.injEq] at h
  obtain ⟨h2, h1, h0⟩ := h
  have hlt : ∀ {u : ℕ}, u < b ^ 3 → u / b ^ 2 < b := by
    intro u hu
    refine Nat.div_lt_of_lt_mul ?_
    rwa [← Nat.pow_succ]
  rw [Nat.mod_eq_of_lt (hlt hv), Nat.mod_eq_of_lt (hlt hw)] at h2
  have hdiv : ∀ u : ℕ, u / b / b = u / b ^ 2 := by
    intro u
    rw [Nat.div_div_eq_div_mul, Nat.pow_two]
  have hmid : v / b = w / b := by
    rw [← Nat.div_add_mod (v / b) b, ← Nat.div_add_mod (w / b) b, hdiv, hdiv, h2, h1]
  rw [← Nat.div_add_mod v b, ← Nat.div_add_mod w b, hmid, h0]

theorem digits_surj [NeZero b] (x : Digits b) : ∃ v, v < b ^ 3 ∧ digits b v = x := by
  obtain ⟨i, j, k⟩ := x
  refine ⟨i * b ^ 2 + j * b + k, ?_, ?_⟩
  · have hi := i.isLt
    have hj := j.isLt
    have hk := k.isLt
    have h1 : (j : ℕ) * b + k < b ^ 2 := by nlinarith
    have h2 : (i : ℕ) * b ^ 2 + b ^ 2 ≤ b ^ 3 := by
      have hmul := Nat.mul_le_mul_right (b ^ 2) (Nat.succ_le_of_lt hi)
      have hpow : b * b ^ 2 = b ^ 3 := by ring
      rw [hpow, Nat.succ_mul] at hmul
      exact hmul
    omega
  · have hb : 0 < b := Nat.pos_of_ne_zero (NeZero.ne b)
    have h1 : (j : ℕ) * b + k < b ^ 2 := by
      have hj := j.isLt
      have hk := k.isLt
      nlinarith
    have hdiv2 : ((i : ℕ) * b ^ 2 + j * b + k) / b ^ 2 = i := by
      rw [add_assoc, Nat.add_comm, Nat.add_mul_div_right _ _ (by positivity), Nat.div_eq_of_lt h1, zero_add]
    have hdiv1 : ((i : ℕ) * b ^ 2 + j * b + k) / b = i * b + j := by
      have hform : (i : ℕ) * b ^ 2 + j * b + k = k + (i * b + j) * b := by ring
      rw [hform, Nat.add_mul_div_right _ _ hb, Nat.div_eq_of_lt k.isLt, zero_add]
    have hmod : ((i : ℕ) * b ^ 2 + j * b + k) % b = k := by
      have hform : (i : ℕ) * b ^ 2 + j * b + k = k + (i * b + j) * b := by ring
      rw [hform, Nat.add_mul_mod_self_right, Nat.mod_eq_of_lt k.isLt]
    have hmod1 : ((i : ℕ) * b + j) % b = j := by
      rw [Nat.add_comm, Nat.add_mul_mod_self_right, Nat.mod_eq_of_lt j.isLt]
    simp only [digits, Prod.mk.injEq]
    refine ⟨Fin.ext ?_, Fin.ext ?_, Fin.ext ?_⟩
    · simp [Fin.ofNat, hdiv2, Nat.mod_eq_of_lt i.isLt]
    · simp [Fin.ofNat, hdiv1, hmod1]
    · simp [Fin.ofNat, hmod]

end Xv6.RadixTables
