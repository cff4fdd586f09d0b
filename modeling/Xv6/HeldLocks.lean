import Mathlib.Data.Finset.Card

/-!
# Families of locks held by processors

A family of locks of which a processor holds at most one at a time, next to other locks of
which it may hold any number; and the depth of nesting, which counts both.
-/

namespace Xv6.HeldLocks

open Function

variable {ι κ γ : Type*} {lock : ι → Option γ} {holds : γ → Option ι} {lk : κ → Option γ}
  {noff : γ → ℕ} {q : ι} {l : κ} {c c' : γ}

/-- A lock records the processor that holds it. -/
def Held (lock : ι → Option γ) (holds : γ → Option ι) : Prop :=
  ∀ q c, lock q = some c ↔ holds c = some q

theorem Held.unique (h : Held lock holds) (hc : holds c = some q) (hc' : holds c' = some q) : c = c' :=
  Option.some.inj (((h q c).2 hc).symm.trans ((h q c').2 hc'))

/-- The depth of nesting of a processor is the number of locks it holds. -/
def Depth (lk : κ → Option γ) (holds : γ → Option ι) (noff : γ → ℕ) : Prop :=
  ∀ c, ∃ S : Finset κ, (∀ l, l ∈ S ↔ lk l = some c) ∧ noff c = S.card + (holds c).elim 0 (fun _ => 1)

theorem Depth.pos (h : Depth lk holds noff) (hl : lk l = some c) : 0 < noff c := by
  obtain ⟨S, hS, hnoff⟩ := h c
  have hcard := Finset.card_pos.2 ⟨l, (hS l).2 hl⟩
  omega

theorem Depth.holds_eq_none (h : Depth lk holds noff) (hc : noff c = 0) : holds c = none := by
  obtain ⟨S, -, hnoff⟩ := h c
  cases hholds : holds c with
  | none => rfl
  | some q =>
    rw [hc, hholds, Option.elim_some] at hnoff
    omega

section Locks

variable [DecidableEq ι] [DecidableEq γ]

theorem Held.acquire (h : Held lock holds) (hq : lock q = none) (hc : holds c = none) :
    Held (Function.update lock q (some c)) (Function.update holds c (some q)) := by
  intro q' c'
  rcases eq_or_ne q' q with rfl | hq'
  · rcases eq_or_ne c' c with rfl | hc'
    · simp
    · have hne : holds c' ≠ some q' := by
        rw [Ne, ← h q' c', hq]
        exact nofun
      simp [hc', hne, Ne.symm hc']
  · rcases eq_or_ne c' c with rfl | hc'
    · have hne : lock q' ≠ some c' := by
        rw [Ne, h q' c', hc]
        exact nofun
      simp [hq', hne, Ne.symm hq']
    · simp [hq', hc', h q' c']

theorem Held.release (h : Held lock holds) (hc : holds c = some q) :
    Held (Function.update lock q none) (Function.update holds c none) := by
  intro q' c'
  rcases eq_or_ne q' q with rfl | hq'
  · rcases eq_or_ne c' c with rfl | hc'
    · simp
    · have hne : holds c' ≠ some q' := fun hc'' => hc' (h.unique hc'' hc)
      simp [hc', hne]
  · rcases eq_or_ne c' c with rfl | hc'
    · have hne : lock q' ≠ some c' := by
        rw [Ne, h q' c', hc]
        exact fun heq => hq' (Option.some.inj heq).symm
      simp [hq', hne]
    · simp [hq', hc', h q' c']

omit [DecidableEq ι] in
theorem Depth.enter (h : Depth lk holds noff) (hc : holds c = none) :
    Depth lk (update holds c (some q)) (update noff c (noff c + 1)) := by
  intro c'
  obtain ⟨S, hS, hnoff⟩ := h c'
  refine ⟨S, hS, ?_⟩
  rcases eq_or_ne c' c with rfl | hne
  · rw [hc, Option.elim_none] at hnoff
    simp [hnoff]
  · simpa [hne] using hnoff

omit [DecidableEq ι] in
theorem Depth.leave (h : Depth lk holds noff) (hc : holds c = some q) :
    Depth lk (update holds c none) (update noff c (noff c - 1)) := by
  intro c'
  obtain ⟨S, hS, hnoff⟩ := h c'
  refine ⟨S, hS, ?_⟩
  rcases eq_or_ne c' c with rfl | hne
  · rw [hc, Option.elim_some] at hnoff
    simp [hnoff]
  · simpa [hne] using hnoff

variable [DecidableEq κ]

omit [DecidableEq ι] in
theorem Depth.acquire (h : Depth lk holds noff) (hl : lk l = none) :
    Depth (update lk l (some c)) holds (update noff c (noff c + 1)) := by
  intro c'
  obtain ⟨S, hS, hnoff⟩ := h c'
  have hnot : l ∉ S := by
    rw [hS, hl]
    exact nofun
  rcases eq_or_ne c' c with rfl | hne
  · refine ⟨insert l S, fun l' => ?_, ?_⟩
    · rcases eq_or_ne l' l with rfl | hl'
      · simp
      · simp [hl', hS]
    · rw [Finset.card_insert_of_notMem hnot, update_self, hnoff]
      omega
  · refine ⟨S, fun l' => ?_, ?_⟩
    · rcases eq_or_ne l' l with rfl | hl'
      · simp [hnot, Ne.symm hne]
      · simp [hl', hS]
    · rw [update_of_ne hne, hnoff]

omit [DecidableEq ι] in
theorem Depth.release (h : Depth lk holds noff) (hl : lk l = some c) :
    Depth (update lk l none) holds (update noff c (noff c - 1)) := by
  intro c'
  obtain ⟨S, hS, hnoff⟩ := h c'
  rcases eq_or_ne c' c with rfl | hne
  · have hmem : l ∈ S := (hS l).2 hl
    refine ⟨S.erase l, fun l' => ?_, ?_⟩
    · rcases eq_or_ne l' l with rfl | hl'
      · simp
      · simp [hl', hS]
    · have hcard := Finset.card_erase_add_one hmem
      rw [update_self, hnoff]
      omega
  · have hnot : l ∉ S := by
      rw [hS, hl]
      exact fun heq => hne (Option.some.inj heq).symm
    refine ⟨S, fun l' => ?_, ?_⟩
    · rcases eq_or_ne l' l with rfl | hl'
      · simp [hnot]
      · simp [hl', hS]
    · rw [update_of_ne hne, hnoff]

end Locks

end Xv6.HeldLocks
