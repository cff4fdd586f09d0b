import Mathlib.Logic.Function.Basic

/-!
# Critical sections of a lock

Processes are at places, some of which lie inside the critical section of a lock that
records its holder. The discipline is that the holder is the process inside.
-/

namespace Xv6.CriticalSections

open Function

variable {ι α : Type*} {inside : α → Bool} {place place' : ι → α} {lock : Option ι} {p q : ι}
  {x : α}

/-- The lock is held by exactly the process that is inside its critical section. -/
def Exclusive (inside : α → Bool) (place : ι → α) (lock : Option ι) : Prop :=
  ∀ q, inside (place q) = true ↔ lock = some q

theorem Exclusive.eq (h : Exclusive inside place lock) (hp : inside (place p) = true)
    (hq : inside (place q) = true) : p = q :=
  Option.some.inj (((h p).mp hp).symm.trans ((h q).mp hq))

theorem Exclusive.not_inside (h : Exclusive inside place none) (q : ι) :
    inside (place q) = false := by
  have hq := h q
  simpa using hq

theorem Exclusive.outside (h : Exclusive inside place lock)
    (hsame : ∀ q, inside (place' q) = inside (place q)) : Exclusive inside place' lock := by
  intro q
  rw [hsame q]
  exact h q

variable [DecidableEq ι]

theorem Exclusive.move (h : Exclusive inside place lock) (hx : inside x = inside (place p)) :
    Exclusive inside (update place p x) lock := by
  apply h.outside
  intro q
  rcases eq_or_ne q p with rfl | hne
  · rw [update_self, hx]
  · rw [update_of_ne hne]

theorem Exclusive.acquire (h : Exclusive inside place none) (hx : inside x = true) :
    Exclusive inside (update place p x) (some p) := by
  intro q
  rcases eq_or_ne q p with rfl | hne
  · simp [hx]
  · simp [hne, Ne.symm hne, h.not_inside q]

theorem Exclusive.release (h : Exclusive inside place lock) (hp : inside (place p) = true)
    (hx : inside x = false) : Exclusive inside (update place p x) none := by
  intro q
  rcases eq_or_ne q p with rfl | hne
  · simp [hx]
  · have hq : inside (place q) ≠ true := fun hq => hne (h.eq hq hp)
    simpa [hne] using hq

end Xv6.CriticalSections
