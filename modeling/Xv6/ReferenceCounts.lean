import Mathlib.Algebra.Group.Pi.Basic
import Mathlib.Algebra.Ring.Int.Defs
import Mathlib.Algebra.BigOperators.Group.Finset.Sigma
import Mathlib.Data.Fintype.BigOperators
import Xv6.TransitionRuns

/-!
# Counting references

References of a finite type point to objects; a reference that points nowhere is not in use.
`refs` is the number of references to an object.
-/

namespace Xv6.ReferenceCounts

open Function TransitionRuns

variable {ρ ε : Type*} [Fintype ρ] [DecidableEq ε] {ptr : ρ → Option ε} {r : ρ} {e : ε}

def refs (ptr : ρ → Option ε) (e : ε) : ℕ := (Finset.univ.filter (fun r => ptr r = some e)).card

theorem refs_pos_iff : 0 < refs ptr e ↔ ∃ r, ptr r = some e := by
  simp [refs, Finset.card_pos, Finset.filter_nonempty_iff]

theorem refs_pos (h : ptr r = some e) : 0 < refs ptr e := refs_pos_iff.2 ⟨r, h⟩

variable [DecidableEq ρ]

theorem refs_update (ptr : ρ → Option ε) (r : ρ) (x : Option ε) (e : ε) :
    refs (update ptr r x) e + (if ptr r = some e then 1 else 0) =
      refs ptr e + (if x = some e then 1 else 0) := by
  simp only [refs, Finset.card_filter]
  exact sum_update ptr (fun y => if y = some e then 1 else 0) r x

/-- One reference, as a change of the counts. -/
def one (x : Option ε) : ε → ℤ := x.elim 0 (fun e => Pi.single e 1)

@[simp] theorem one_none : one (none : Option ε) = 0 := rfl

@[simp] theorem one_some : one (some e) = Pi.single e 1 := rfl

omit [Fintype ρ] [DecidableEq ρ] in
theorem one_apply (x : Option ε) (e : ε) : one x e = if x = some e then 1 else 0 := by
  cases x with
  | none => rfl
  | some e' =>
    rw [one_some, Pi.single_apply]
    simp [eq_comm]

theorem refs_update_one (ptr : ρ → Option ε) (r : ρ) (x : Option ε) (e : ε) :
    (refs (update ptr r x) e : ℤ) = refs ptr e - one (ptr r) e + one x e := by
  have h := refs_update ptr r x e
  rw [one_apply, one_apply]
  split_ifs at h ⊢ <;> omega

omit [DecidableEq ρ] in
theorem refs_sum {ρ' : Type*} [Fintype ρ'] (ptr : ρ ⊕ ρ' → Option ε) (e : ε) :
    refs ptr e = refs (fun r => ptr (.inl r)) e + refs (fun r => ptr (.inr r)) e := by
  simp only [refs, Finset.card_filter, Fintype.sum_sum_type]

omit [DecidableEq ρ] in
theorem refs_map {ε' : Type*} [DecidableEq ε'] {g : ε → ε'} (hg : Function.Injective g) (e : ε) :
    refs (fun r => (ptr r).map g) (g e) = refs ptr e := by
  simp only [refs, Option.map_eq_some_iff, hg.eq_iff, exists_eq_right]

omit [DecidableEq ρ] in
theorem refs_eq_zero (h : ∀ r, ptr r ≠ some e) : refs ptr e = 0 := by
  simp [refs, h]

end Xv6.ReferenceCounts
