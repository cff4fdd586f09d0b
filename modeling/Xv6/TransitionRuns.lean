import Mathlib.Algebra.BigOperators.Group.Finset.Basic
import Mathlib.Algebra.BigOperators.Group.Finset.Piecewise
import Mathlib.Algebra.GroupWithZero.Nat
import Mathlib.Data.Fintype.Basic

/-!
# Guarded runs of a partial step function

A labelled step is `none` exactly when its label is not enabled. A run records
its labels in order and checks a guard in the state before every step, so a
restriction on the environment is a property of runs and not of the program.
-/

namespace Xv6.TransitionRuns

open Function

-- The literals of the threads and processors on which concrete runs are evaluated.
instance neZeroOne : NeZero 1 := ⟨by decide⟩

instance neZeroTwo : NeZero 2 := ⟨by decide⟩

variable {σ α : Type*}

/-- A finite run, extended at its end: the shape in which invariants are proved. -/
inductive Run (step : σ → α → Option σ) (guard : σ → α → Prop) (s : σ) : List α → σ → Prop
  | nil : Run step guard s [] s
  | snoc {as : List α} {t u : σ} {a : α} (run : Run step guard s as t)
      (ok : guard t a) (next : step t a = some u) : Run step guard s (as ++ [a]) u

/-- The guard of a run on which the environment is not restricted. -/
def unguarded (_ : σ) (_ : α) : Prop := True

instance (s : σ) (a : α) : Decidable (unguarded s a) := inferInstanceAs (Decidable True)

variable {step : σ → α → Option σ} {guard guard' : σ → α → Prop} {s t u : σ}

theorem of_ite_some {c : Prop} [Decidable c] (h : (if c then some s else none) = some t) : c ∧ s = t := by
  rwa [Option.ite_none_right_eq_some, Option.some.injEq] at h

/-- A property of the history and the state that every step keeps holds after every run. -/
theorem Run.history {I : List α → σ → Prop} {as : List α} (h : Run step guard s as t)
    (init : I [] s)
    (keep : ∀ bs v a w, I bs v → guard v a → step v a = some w → I (bs ++ [a]) w) : I as t := by
  induction h with
  | nil => exact init
  | snoc _ ok next ih => exact keep _ _ _ _ ih ok next

theorem Run.invariant {I : σ → Prop} {as : List α} (h : Run step guard s as t) (init : I s)
    (keep : ∀ v a w, I v → guard v a → step v a = some w → I w) : I t :=
  h.history (I := fun _ => I) init (fun _ v a w hv ok next => keep v a w hv ok next)

theorem Run.weaken {as : List α} (h : Run step guard s as t)
    (hg : ∀ v a, guard v a → guard' v a) : Run step guard' s as t := by
  induction h with
  | nil => exact .nil
  | snoc _ ok next ih => exact .snoc ih (hg _ _ ok) next

/-- Executes a whole list of labels, checking the guard before every step. -/
def execute (step : σ → α → Option σ) (guard : σ → α → Prop) [∀ s a, Decidable (guard s a)] :
    σ → List α → Option σ
  | s, [] => some s
  | s, a :: as => if guard s a then (step s a).bind (fun t => execute step guard t as) else none

theorem Run.cons {as : List α} {a : α} (ok : guard s a) (next : step s a = some t)
    (h : Run step guard t as u) : Run step guard s (a :: as) u := by
  induction h with
  | nil => simpa using Run.snoc .nil ok next
  | snoc _ ok' next' ih => exact .snoc ih ok' next'

theorem Run.trans {as bs : List α} (h : Run step guard s as t) (h' : Run step guard t bs u) :
    Run step guard s (as ++ bs) u := by
  induction h' with
  | nil => simpa using h
  | snoc _ ok next ih => simpa using Run.snoc ih ok next

theorem Run.of_execute [∀ s a, Decidable (guard s a)] {as : List α}
    (h : execute step guard s as = some t) : Run step guard s as t := by
  induction as generalizing s with
  | nil =>
    cases Option.some.inj h
    exact .nil
  | cons a as ih =>
    rw [execute] at h
    split at h
    · rename_i ok
      obtain ⟨v, hv, hrest⟩ := Option.bind_eq_some_iff.mp h
      exact .cons ok hv (ih hrest)
    · cases h

/-- A concrete run, and what is decided of its last state. -/
theorem exists_run [∀ s a, Decidable (guard s a)] {as : List α} {P : σ → Prop} [DecidablePred P]
    (h : (execute step guard s as).any (fun t => decide (P t)) = true) :
    ∃ t, Run step guard s as t ∧ P t := by
  obtain ⟨t, ht, hP⟩ := (Option.any_eq_true _ _).1 h
  exact ⟨t, .of_execute ht, of_decide_eq_true hP⟩

/-- Changing one summand: the form in which counters over processes are maintained. -/
theorem sum_update_mem {ι β M : Type*} [DecidableEq ι] [AddCommMonoid M] {S : Finset ι} (f : ι → β)
    (g : β → M) {p : ι} (hp : p ∈ S) (x : β) :
    (∑ q ∈ S, g (update f p x q)) + g (f p) = (∑ q ∈ S, g (f q)) + g x := by
  have hrest : ∑ q ∈ S.erase p, g (update f p x q) = ∑ q ∈ S.erase p, g (f q) := by
    apply Finset.sum_congr rfl
    intro q hq
    rw [update_of_ne (Finset.ne_of_mem_erase hq)]
  rw [← Finset.add_sum_erase _ _ hp, hrest, update_self,
    ← Finset.add_sum_erase _ (fun q => g (f q)) hp]
  ac_rfl

theorem sum_update {ι β M : Type*} [Fintype ι] [DecidableEq ι] [AddCommMonoid M]
    (f : ι → β) (g : β → M) (p : ι) (x : β) :
    (∑ q, g (update f p x q)) + g (f p) = (∑ q, g (f q)) + g x :=
  sum_update_mem f g (Finset.mem_univ p) x

end Xv6.TransitionRuns
