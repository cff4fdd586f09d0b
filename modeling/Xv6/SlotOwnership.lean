import Mathlib.Data.Nat.Notation
import Mathlib.Logic.Function.Basic

/-!
# Numbers owned by slots

A bitmap marks the numbers in `[lo, hi)` that are in use, and slots hold them; a slot that
holds 0 is empty. Every marked number is in exactly one slot, and a slot holds no other.
-/

namespace Xv6.SlotOwnership

open Function

variable {κ : Type*} {lo hi : ℕ} {bit bit' : ℕ → Bool} {slot slot' : κ → ℕ} {b : ℕ} {x y : κ}

structure Owned (lo hi : ℕ) (bit : ℕ → Bool) (slot : κ → ℕ) : Prop where
  range : ∀ x, slot x ≠ 0 → lo ≤ slot x ∧ slot x < hi
  inj : ∀ x y, slot x ≠ 0 → slot x = slot y → x = y
  marked : ∀ b, lo ≤ b → b < hi → (bit b = true ↔ ∃ x, slot x = b)

namespace Owned

theorem bit_slot (h : Owned lo hi bit slot) (hx : slot x ≠ 0) : bit (slot x) = true := by
  obtain ⟨hlo, hhi⟩ := h.range x hx
  exact (h.marked _ hlo hhi).2 ⟨x, rfl⟩

theorem slot_ne (h : Owned lo hi bit slot) (hb : bit b = false) (hx : slot x ≠ 0) :
    slot x ≠ b := by
  intro heq
  have hbit := h.bit_slot hx
  rw [heq, hb] at hbit
  cases hbit

theorem congr (h : Owned lo hi bit slot) (hbit : bit' = bit) (hslot : ∀ x, slot' x = slot x) :
    Owned lo hi bit' slot' := by
  obtain rfl : slot' = slot := funext hslot
  exact hbit ▸ h

variable [DecidableEq κ]

theorem assign (h : Owned lo hi bit slot) (hlo : 0 < lo) (hx : slot x = 0)
    (hb : bit b = false) (hrange : lo ≤ b ∧ b < hi) :
    Owned lo hi (update bit b true) (update slot x b) where
  range := by
    intro y hy
    rcases eq_or_ne y x with rfl | hne
    · simpa using hrange
    · rw [update_of_ne hne] at hy ⊢
      exact h.range y hy
  inj := by
    intro y z hy heq
    rcases eq_or_ne y x with rfl | hyx
    · rcases eq_or_ne z y with rfl | hzx
      · rfl
      · rw [update_self, update_of_ne hzx] at heq
        have hz : slot z ≠ 0 := by omega
        exact absurd heq.symm (h.slot_ne hb hz)
    · rw [update_of_ne hyx] at hy heq
      rcases eq_or_ne z x with rfl | hzx
      · rw [update_self] at heq
        exact absurd heq (h.slot_ne hb hy)
      · rw [update_of_ne hzx] at heq
        exact h.inj y z hy heq
  marked := by
    intro c hclo hchi
    rcases eq_or_ne c b with rfl | hne
    · simp only [update_self, true_iff]
      exact ⟨x, update_self ..⟩
    · rw [update_of_ne hne, h.marked c hclo hchi]
      constructor
      · rintro ⟨y, rfl⟩
        refine ⟨y, update_of_ne ?_ _ _⟩
        rintro rfl
        omega
      · rintro ⟨y, hy⟩
        rcases eq_or_ne y x with rfl | hyx
        · exact absurd ((update_self y b slot).symm.trans hy).symm hne
        · exact ⟨y, by rwa [update_of_ne hyx] at hy⟩

theorem release (h : Owned lo hi bit slot) (hlo : 0 < lo) (hx : slot x ≠ 0) :
    Owned lo hi (update bit (slot x) false) (update slot x 0) where
  range := by
    intro y hy
    rcases eq_or_ne y x with rfl | hne
    · simp at hy
    · rw [update_of_ne hne] at hy ⊢
      exact h.range y hy
  inj := by
    intro y z hy heq
    rcases eq_or_ne y x with rfl | hyx
    · simp at hy
    · rw [update_of_ne hyx] at hy heq
      rcases eq_or_ne z x with rfl | hzx
      · rw [update_self] at heq
        exact absurd heq hy
      · rw [update_of_ne hzx] at heq
        exact h.inj y z hy heq
  marked := by
    intro c hclo hchi
    rcases eq_or_ne c (slot x) with rfl | hne
    · simp only [update_self, Bool.false_eq_true, false_iff, not_exists]
      intro y hy
      rcases eq_or_ne y x with rfl | hyx
      · exact absurd ((update_self y 0 slot).symm.trans hy).symm hx
      · rw [update_of_ne hyx] at hy
        exact hyx (h.inj y x (by rw [hy]; exact hx) hy)
    · rw [update_of_ne hne, h.marked c hclo hchi]
      constructor
      · rintro ⟨y, rfl⟩
        refine ⟨y, update_of_ne ?_ _ _⟩
        rintro rfl
        exact hne rfl
      · rintro ⟨y, hy⟩
        rcases eq_or_ne y x with rfl | hyx
        · have hc : 0 = c := (update_self y 0 slot).symm.trans hy
          omega
        · exact ⟨y, by rwa [update_of_ne hyx] at hy⟩

end Owned

end Xv6.SlotOwnership
