import Mathlib.Data.BitVec
import Mathlib.Logic.Function.Basic
import Mathlib.Data.List.Range
import Mathlib.Tactic.Ring

/-!
# Ring buffers indexed by free-running counters

A reader counter and a writer counter of `n` bits run freely and wrap; the number
of elements in between is their difference in `n` bits, and an element stands at
its counter modulo the capacity. The capacity divides `2 ^ n`, so the places do
not jump when a counter wraps.
-/

namespace Xv6.FreeRunningCounters

open Function

variable {α : Type*} {n : ℕ}

def fill (r w : BitVec n) : ℕ := (w - r).toNat

def place (cap : ℕ) (c : BitVec n) : ℕ := c.toNat % cap

/-- The elements from the reader's counter up to the writer's. -/
def window (data : ℕ → α) (cap : ℕ) (r w : BitVec n) : List α :=
  (List.range (fill r w)).map (fun k => data (place cap (r + BitVec.ofNat n k)))

theorem fill_eq_iff {r w : BitVec n} {k : ℕ} (hk : k < 2 ^ n) :
    fill r w = k ↔ w = r + BitVec.ofNat n k := by
  have hto : (BitVec.ofNat n k).toNat = k := by
    rw [BitVec.toNat_ofNat, Nat.mod_eq_of_lt hk]
  rw [fill, ← sub_eq_iff_eq_add', ← BitVec.toNat_inj, hto]

theorem fill_lt (r w : BitVec n) : fill r w < 2 ^ n := (w - r).isLt

theorem writer_eq (r w : BitVec n) : w = r + BitVec.ofNat n (fill r w) :=
  (fill_eq_iff (fill_lt r w)).mp rfl

theorem fill_eq_zero_iff {r w : BitVec n} : fill r w = 0 ↔ r = w := by
  rw [fill_eq_iff (Nat.two_pow_pos n), BitVec.add_zero]
  exact eq_comm

@[simp] theorem fill_self (r : BitVec n) : fill r r = 0 := fill_eq_zero_iff.mpr rfl

theorem fill_succ_right {r w : BitVec n} (h : fill r w + 1 < 2 ^ n) :
    fill r (w + 1) = fill r w + 1 := by
  rw [fill_eq_iff h, BitVec.ofNat_add, ← add_assoc, ← writer_eq r w]
  rfl

theorem fill_succ_left {r w : BitVec n} (h : r ≠ w) : fill (r + 1) w + 1 = fill r w := by
  have hpos : fill r w ≠ 0 := fun h0 => h (fill_eq_zero_iff.mp h0)
  obtain ⟨k, hk⟩ := Nat.exists_eq_succ_of_ne_zero hpos
  have hlt := fill_lt r w
  have hw : w = r + 1 + BitVec.ofNat n k := by
    have hw := writer_eq r w
    rw [hk, Nat.succ_eq_one_add, BitVec.ofNat_add, ← add_assoc] at hw
    exact hw
  rw [hk, (fill_eq_iff (by omega)).mpr hw]

theorem fill_pred_right {r w : BitVec n} (h : w ≠ r) : fill r (w - 1) + 1 = fill r w := by
  have hpos : fill r w ≠ 0 := fun h0 => h (fill_eq_zero_iff.mp h0).symm
  obtain ⟨k, hk⟩ := Nat.exists_eq_succ_of_ne_zero hpos
  have hlt := fill_lt r w
  have hw : w - 1 = r + BitVec.ofNat n k := by
    have hw := writer_eq r w
    rw [hk, Nat.succ_eq_add_one, BitVec.ofNat_add, ← add_assoc] at hw
    rw [hw]
    exact add_sub_cancel_right _ _
  rw [hk, (fill_eq_iff (by omega)).mpr hw]

theorem place_add {cap : ℕ} (hcap : cap ∣ 2 ^ n) (c : BitVec n) (k : ℕ) :
    place cap (c + BitVec.ofNat n k) = (c.toNat + k) % cap := by
  rw [place, BitVec.toNat_add, BitVec.toNat_ofNat, Nat.add_mod_mod, Nat.mod_mod_of_dvd _ hcap]

/-- Two counters less than one turn apart have different places. -/
theorem place_add_ne {cap : ℕ} (hcap : cap ∣ 2 ^ n) (c : BitVec n) {i k : ℕ} (hik : i < k)
    (hk : k < cap) : place cap (c + BitVec.ofNat n i) ≠ place cap (c + BitVec.ofNat n k) := by
  rw [place_add hcap, place_add hcap]
  intro he
  have hmod : i ≡ k [MOD cap] := Nat.ModEq.add_left_cancel' c.toNat he
  rw [Nat.ModEq, Nat.mod_eq_of_lt (hik.trans hk), Nat.mod_eq_of_lt hk] at hmod
  exact absurd hmod hik.ne

@[simp] theorem length_window (data : ℕ → α) (cap : ℕ) (r w : BitVec n) :
    (window data cap r w).length = fill r w := by simp [window]

theorem window_self (data : ℕ → α) (cap : ℕ) (r : BitVec n) : window data cap r r = [] := by
  rw [window, fill_self, List.range_zero, List.map_nil]

/-- A third counter cuts the window in two. -/
theorem window_append (data : ℕ → α) (cap : ℕ) {r w e : BitVec n} (h : fill r w + fill w e = fill r e) :
    window data cap r e = window data cap r w ++ window data cap w e := by
  rw [window, ← h, List.range_add, List.map_append, List.map_map, window, window]
  congr 1
  apply List.map_congr_left
  intro k _
  rw [Function.comp_apply, BitVec.ofNat_add, ← add_assoc, ← writer_eq r w]

theorem window_pred (data : ℕ → α) (cap : ℕ) {r w : BitVec n} (h : w ≠ r) :
    window data cap r w = window data cap r (w - 1) ++ [data (place cap (w - 1))] := by
  rw [window, ← fill_pred_right h, List.range_succ, List.map_append, List.map_singleton,
    ← writer_eq r (w - 1), window]

/-- Storing behind a window, less than one turn ahead, leaves it. -/
theorem window_update {cap : ℕ} (hcap : cap ∣ 2 ^ n) (data : ℕ → α) {r w e : BitVec n} (x : α)
    (h : fill r w ≤ fill r e) (hlt : fill r e < cap) :
    window (update data (place cap e) x) cap r w = window data cap r w := by
  apply List.map_congr_left
  intro i hi
  have hi := List.mem_range.mp hi
  apply update_of_ne
  rw [writer_eq r e]
  exact place_add_ne hcap r (hi.trans_le h) hlt

theorem window_push {cap : ℕ} (hcap : cap ∣ 2 ^ n) (data : ℕ → α) {r w : BitVec n} (x : α)
    (h : fill r w < cap) (hroom : cap < 2 ^ n) :
    window (update data (place cap w) x) cap r (w + 1) = window data cap r w ++ [x] := by
  have hplace : place cap w = place cap (r + BitVec.ofNat n (fill r w)) := by
    rw [← writer_eq r w]
  have hkeep := window_update hcap data x (le_refl (fill r w)) h
  rw [window, fill_succ_right (by omega), List.range_succ, List.map_append, List.map_singleton,
    ← hplace, update_self, ← hkeep]
  rfl

theorem window_pop (data : ℕ → α) (cap : ℕ) {r w : BitVec n} (h : r ≠ w) :
    window data cap r w = data (place cap r) :: window data cap (r + 1) w := by
  rw [window, ← fill_succ_left h, List.range_succ_eq_map, List.map_cons, List.map_map, window]
  congr 1
  · rw [BitVec.add_zero]
  · apply List.map_congr_left
    intro k _
    rw [Function.comp_apply, Nat.succ_eq_one_add, BitVec.ofNat_add, ← add_assoc]
    rfl

end Xv6.FreeRunningCounters
