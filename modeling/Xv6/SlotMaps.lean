import Mathlib.Data.List.Basic

/-!
# Maps kept in slots

A finite map from keys to values, kept in a list of slots of which each is empty or holds one
entry. Entries are written into single slots.
-/

namespace SlotMaps

open Function

variable {σ K V : Type} (entry : σ → Option (K × V))

def value [DecidableEq K] (slots : List σ) (key : K) : Option V :=
  slots.findSome? (fun x => (entry x).bind (fun e => if e.1 = key then some e.2 else none))

/-- No two slots hold entries for one key. -/
def Distinct (slots : List σ) : Prop :=
  ∀ ⦃j k : ℕ⦄ ⦃x y : σ⦄ ⦃key : K⦄ ⦃v w : V⦄, slots[j]? = some x → slots[k]? = some y →
    entry x = some (key, v) → entry y = some (key, w) → j = k

/-- Slot `k`, which may be the first behind the end, has been set to `x`. -/
def Replaced (slots slots' : List σ) (k : ℕ) (x : σ) : Prop :=
  ∀ j, slots'[j]? = if j = k then some x else slots[j]?

variable {entry} {slots slots' : List σ} {j k : ℕ} {x y : σ} {key : K} {v : V}

theorem distinct_of_nodup (h : (slots.map (fun x => (entry x).map Prod.fst)).Nodup) :
    Distinct entry slots := by
  intro j k x y key v w hx hy hv hw
  have hlt : j < (slots.map (fun x => (entry x).map Prod.fst)).length := by
    rw [List.length_map]
    exact (List.getElem?_eq_some_iff.1 hx).1
  refine (List.getElem?_inj hlt h).1 ?_
  rw [List.getElem?_map, List.getElem?_map, hx, hy, Option.map_some, Option.map_some, hv, hw]
  rfl

theorem Replaced.self (h : Replaced slots slots' k x) : slots'[k]? = some x := by
  rw [h k, if_pos rfl]

theorem Replaced.of_ne (h : Replaced slots slots' k x) (hj : j ≠ k) : slots'[j]? = slots[j]? := by
  rw [h j, if_neg hj]

theorem Distinct.write (h : Distinct entry slots) (hput : Replaced slots slots' k x)
    (hnew : ∀ key v, entry x = some (key, v) → ∀ j y w, j ≠ k → slots[j]? = some y →
      entry y ≠ some (key, w)) : Distinct entry slots' := by
  intro i j y z key v w hy hz hyv hzw
  by_contra hij
  by_cases hi : i = k
  · subst hi
    rw [hput.self] at hy
    cases hy
    have hj : j ≠ i := fun h => hij h.symm
    rw [hput.of_ne hj] at hz
    exact hnew key v hyv j z w hj hz hzw
  · rw [hput.of_ne hi] at hy
    by_cases hj : j = k
    · subst hj
      rw [hput.self] at hz
      cases hz
      exact hnew key w hzw i y v hi hy hyv
    · rw [hput.of_ne hj] at hz
      exact hij (h hy hz hyv hzw)

variable [DecidableEq K]

theorem value_eq_none : value entry slots key = none ↔ ∀ x ∈ slots, ∀ v, entry x ≠ some (key, v) := by
  rw [value, List.findSome?_eq_none_iff]
  refine forall₂_congr (fun x _ => ?_)
  cases entry x with
  | none => simp
  | some e =>
    obtain ⟨key', v⟩ := e
    simp

theorem exists_of_value (h : value entry slots key = some v) :
    ∃ (k : ℕ) (x : σ), slots[k]? = some x ∧ entry x = some (key, v) := by
  obtain ⟨x, hx, hentry⟩ := List.exists_of_findSome?_eq_some h
  obtain ⟨k, hk⟩ := List.mem_iff_getElem?.1 hx
  obtain ⟨⟨key', w⟩, he, hw⟩ := Option.bind_eq_some_iff.1 hentry
  split at hw
  · rename_i hkey
    cases hw
    cases hkey
    exact ⟨k, x, hk, he⟩
  · cases hw

theorem value_eq_some (h : Distinct entry slots) :
    value entry slots key = some v ↔ ∃ (k : ℕ) (x : σ), slots[k]? = some x ∧ entry x = some (key, v) := by
  refine ⟨exists_of_value, ?_⟩
  rintro ⟨k, x, hx, he⟩
  cases hv : value entry slots key with
  | none => exact absurd he (value_eq_none.1 hv x (List.mem_of_getElem? hx) v)
  | some w =>
    obtain ⟨j, y, hy, he'⟩ := exists_of_value hv
    obtain rfl := h hx hy he he'
    rw [hx] at hy
    cases hy
    rw [he] at he'
    cases he'
    rfl

theorem Distinct.value_other (h : Distinct entry slots) (h' : Distinct entry slots')
    (hput : Replaced slots slots' k x) (hx : ∀ v, entry x ≠ some (key, v))
    (hold : ∀ y v, slots[k]? = some y → entry y ≠ some (key, v)) :
    value entry slots' key = value entry slots key := by
  refine Option.ext (fun v => ?_)
  rw [value_eq_some h, value_eq_some h']
  constructor
  · rintro ⟨j, y, hy, hv⟩
    have hj : j ≠ k := by
      rintro rfl
      rw [hput.self] at hy
      cases hy
      exact hx v hv
    exact ⟨j, y, by rwa [← hput.of_ne hj], hv⟩
  · rintro ⟨j, y, hy, hv⟩
    have hj : j ≠ k := by
      rintro rfl
      exact hold y v hy hv
    exact ⟨j, y, by rwa [hput.of_ne hj], hv⟩

theorem Distinct.insert (h : Distinct entry slots) (hput : Replaced slots slots' k x)
    (hx : entry x = some (key, v)) (hempty : ∀ y, slots[k]? = some y → entry y = none)
    (hnew : value entry slots key = none) :
    Distinct entry slots' ∧ value entry slots' = update (value entry slots) key (some v) := by
  have hdistinct : Distinct entry slots' := by
    refine h.write hput ?_
    intro key' v' hx' j y w _ hy
    rw [hx] at hx'
    cases hx'
    exact value_eq_none.1 hnew y (List.mem_of_getElem? hy) w
  refine ⟨hdistinct, funext (fun key' => ?_)⟩
  by_cases hkey : key' = key
  · subst hkey
    rw [update_self, value_eq_some hdistinct]
    exact ⟨k, x, hput.self, hx⟩
  · rw [update_of_ne hkey]
    refine h.value_other hdistinct hput ?_ (fun y w hy => by simp [hempty y hy])
    intro w hw
    rw [hx] at hw
    cases hw
    exact hkey rfl

theorem Distinct.erase (h : Distinct entry slots) (hput : Replaced slots slots' k x)
    (hx : entry x = none) (hy : slots[k]? = some y) (hold : entry y = some (key, v)) :
    Distinct entry slots' ∧ value entry slots' = update (value entry slots) key none := by
  have hdistinct : Distinct entry slots' := by
    refine h.write hput ?_
    intro key' v' hx'
    rw [hx] at hx'
    cases hx'
  refine ⟨hdistinct, funext (fun key' => ?_)⟩
  by_cases hkey : key' = key
  · subst hkey
    rw [update_self, value_eq_none]
    intro z hz w hw
    obtain ⟨j, hj⟩ := List.mem_iff_getElem?.1 hz
    by_cases hjk : j = k
    · subst hjk
      rw [hput.self] at hj
      cases hj
      rw [hx] at hw
      cases hw
    · rw [hput.of_ne hjk] at hj
      exact hjk (h hj hy hw hold)
  · rw [update_of_ne hkey]
    refine h.value_other hdistinct hput (fun w => by simp [hx]) ?_
    intro z w hz hw
    rw [hy] at hz
    cases hz
    rw [hold] at hw
    cases hw
    exact hkey rfl

end SlotMaps
