import Mathlib.Data.List.ReduceOption
import Xv6.Console

/-!
# Console lines

The order of the three indices of the console and what stands between them, as
interrupts and readers keep it, and a section of `consoleread` as a function on the list
of the characters that are pending.
-/

namespace Xv6.Console

open FreeRunningCounters

/-- The indices in order, a line that is not finished, and no full buffer without a line to
read. -/
structure Ordered (s : Cons) : Prop where
  split : fill s.r s.w + fill s.w s.e = fill s.r s.e
  le : fill s.r s.e ≤ inputBufSize
  unfinished : ∀ c ∈ s.editing, c ≠ newline ∧ c ≠ ctrlD
  full : fill s.r s.e = inputBufSize → s.w = s.e

/-- The step from `s` to `t` appends to what is pending, and nothing else happens to it. -/
structure Extends (s t : Cons) : Prop where
  ordered : Ordered t
  r : t.r = s.r
  pending : t.pending = s.pending ++ window t.buf inputBufSize s.w t.w

theorem dvd_inputBufSize : inputBufSize ∣ 2 ^ 32 := by decide

variable {s t : Cons} {c : Byte} {n target : ℕ} {killed : Bool}

theorem Extends.refl (h : Ordered s) : Extends s s := by
  refine ⟨h, rfl, ?_⟩
  rw [window_self, List.append_nil]

theorem Ordered.fill_le (h : Ordered s) : fill s.r s.w ≤ fill s.r s.e := by
  have hsplit := h.split
  omega

theorem Ordered.backspace (h : Ordered s) (hne : s.e ≠ s.w) :
    Ordered (backspace s) ∧ s.editing = (backspace s).editing ++ [s.buf (place inputBufSize (s.e - 1))] := by
  have hw := fill_pred_right hne
  have hsplit := h.split
  have hle := h.le
  have her : s.e ≠ s.r := by
    intro heq
    rw [heq, fill_self] at hsplit
    rw [heq] at hw
    omega
  have hr := fill_pred_right her
  have hediting := window_pred s.buf inputBufSize hne
  refine ⟨⟨?_, ?_, ?_, ?_⟩, hediting⟩
  · change fill s.r s.w + fill s.w (s.e - 1) = fill s.r (s.e - 1)
    omega
  · change fill s.r (s.e - 1) ≤ inputBufSize
    omega
  · intro c hc
    apply h.unfinished c
    rw [Cons.editing, hediting]
    exact List.mem_append_left _ hc
  · intro hfull
    change fill s.r (s.e - 1) = inputBufSize at hfull
    omega

/-- Killing the line erases it to the write index, since it holds no newline. -/
theorem killLine_spec (h : Ordered s) (hn : fill s.w s.e ≤ n) :
    Ordered (killLine n s) ∧ (killLine n s).e = s.w ∧ (killLine n s).buf = s.buf ∧
      (killLine n s).r = s.r ∧ (killLine n s).w = s.w := by
  induction n generalizing s with
  | zero =>
    have he := fill_eq_zero_iff.1 (Nat.le_zero.1 hn)
    exact ⟨h, he.symm, rfl, rfl, rfl⟩
  | succ n ih =>
    rw [killLine]
    split
    · rename_i hgo
      obtain ⟨hord, -⟩ := h.backspace hgo.1
      have hpred : fill s.w (s.e - 1) + 1 = fill s.w s.e := fill_pred_right hgo.1
      exact ih hord (by change fill s.w (s.e - 1) ≤ n; omega)
    · rename_i hstop
      have he : s.e = s.w := by
        by_contra hne
        refine hstop ⟨hne, ?_⟩
        obtain ⟨-, hediting⟩ := h.backspace hne
        exact (h.unfinished _ (by rw [hediting]; simp)).1
      exact ⟨h, he, rfl, rfl, rfl⟩

theorem store_extends (h : Ordered s) (hroom : fill s.r s.e < inputBufSize) : Extends s (store c s) := by
  have hsplit := h.split
  have hlt : inputBufSize < 2 ^ 32 := by decide
  have hr : fill s.r (s.e + 1) = fill s.r s.e + 1 := fill_succ_right (by omega)
  have hw : fill s.w (s.e + 1) = fill s.w s.e + 1 := fill_succ_right (by omega)
  have hpending := window_update dvd_inputBufSize s.buf c h.fill_le hroom
  have hediting := window_push dvd_inputBufSize s.buf c (r := s.w) (w := s.e) (by omega) hlt
  rw [store]
  dsimp only
  split
  · refine ⟨⟨?_, ?_, ?_, fun _ => rfl⟩, rfl, ?_⟩
    · simp
    · change fill s.r (s.e + 1) ≤ inputBufSize
      omega
    · intro c hc
      rw [Cons.editing, window_self] at hc
      cases hc
    · change window _ inputBufSize s.r (s.e + 1) = _
      have hcut : fill s.r s.w + fill s.w (s.e + 1) = fill s.r (s.e + 1) := by omega
      rw [window_append _ _ hcut, hpending]
      rfl
  · rename_i hkeep
    refine ⟨⟨?_, ?_, ?_, ?_⟩, rfl, ?_⟩
    · change fill s.r s.w + fill s.w (s.e + 1) = fill s.r (s.e + 1)
      omega
    · change fill s.r (s.e + 1) ≤ inputBufSize
      omega
    · intro x hx
      rw [Cons.editing, hediting, List.mem_append, List.mem_singleton] at hx
      rcases hx with hx | rfl
      · exact h.unfinished x hx
      · exact ⟨fun hnl => hkeep (.inl hnl), fun hd => hkeep (.inr (.inl hd))⟩
    · intro hfull
      exact absurd (.inr (.inr hfull)) hkeep
    · rw [window_self, List.append_nil]
      exact hpending

theorem consoleintr_extends (h : Ordered s) : Extends s (consoleintr c s) := by
  rw [consoleintr]
  split
  · exact .refl h
  split
  · obtain ⟨hord, -, hbuf, hr, hw⟩ := killLine_spec h le_rfl
    refine ⟨hord, hr, ?_⟩
    rw [hw, window_self, List.append_nil, Cons.pending, hbuf, hr, hw, Cons.pending]
  split
  · split
    · rename_i hne
      refine ⟨(h.backspace hne).1, rfl, ?_⟩
      rw [show (backspace s).w = s.w from rfl, window_self, List.append_nil]
      rfl
    · exact .refl h
  split
  · rename_i hroom
    exact store_extends h hroom.2
  · exact .refl h

def edits (c : Byte) : Prop := c = ctrlU ∨ c = ctrlH ∨ c = delete

theorem consoleintr_edits (h : Ordered s) (hc : edits c) :
    (consoleintr c s).r = s.r ∧ (consoleintr c s).w = s.w ∧
      (consoleintr c s).pending = s.pending ∧ (consoleintr c s).editing <+: s.editing := by
  rw [consoleintr]
  rcases hc with rfl | hc
  · rw [if_neg (by decide), if_pos rfl]
    obtain ⟨-, he, hbuf, hr, hw⟩ := killLine_spec h le_rfl
    refine ⟨hr, hw, ?_, ?_⟩
    · rw [Cons.pending, hbuf, hr, hw, Cons.pending]
    · rw [Cons.editing, he, hw, window_self]
      exact List.nil_prefix
  · have hne : c ≠ ctrlP ∧ c ≠ ctrlU := by
      rcases hc with rfl | rfl <;> decide
    rw [if_neg hne.1, if_neg hne.2, if_pos hc]
    split
    · rename_i hcut
      refine ⟨rfl, rfl, rfl, ?_⟩
      rw [(h.backspace hcut).2]
      exact List.prefix_append _ _
    · exact ⟨rfl, rfl, rfl, List.prefix_refl _⟩

/-- A section of `consoleread` on the list of pending characters: what it takes, what it
leaves, and how it ends. -/
def readLine (killed : Bool) (target : ℕ) : ℕ → List Byte → List (Option Byte) × List Byte × Outcome
  | 0, l => ([], l, .returned target)
  | n + 1, [] => ([], [], if killed then .returned (-1) else .asleep (n + 1))
  | n + 1, c :: l =>
    let done : ℕ := target - (n + 1)
    if c = ctrlD then
      if n + 1 < target then ([], c :: l, .returned done) else ([none], l, .returned done)
    else if c = newline then ([some c], l, .returned (done + 1))
    else
      let x := readLine killed target n l
      (some c :: x.1, x.2)

theorem Ordered.advance (h : Ordered s) (hne : s.r ≠ s.w) : Ordered { s with r := s.r + 1 } := by
  have hw := fill_succ_left hne
  have hsplit := h.split
  have hle := h.le
  have hre : s.r ≠ s.e := by
    intro heq
    rw [← heq, fill_self] at hsplit
    omega
  have he := fill_succ_left hre
  refine ⟨?_, ?_, h.unfinished, ?_⟩
  · change fill (s.r + 1) s.w + fill s.w s.e = fill (s.r + 1) s.e
    omega
  · change fill (s.r + 1) s.e ≤ inputBufSize
    omega
  · intro hfull
    change fill (s.r + 1) s.e = inputBufSize at hfull
    omega

/-- The state a section of `consoleread` leaves, and what it took, as `readLine` says. -/
structure Follows (s : Cons) (x : Section) (y : List (Option Byte) × List Byte × Outcome) : Prop where
  ordered : Ordered x.cons
  w : x.cons.w = s.w
  taken : x.taken = y.1
  pending : x.cons.pending = y.2.1
  outcome : x.outcome = y.2.2

theorem readLoop_follows (h : Ordered s) :
    Follows s (readLoop killed target none n s) (readLine killed target n s.pending) := by
  induction n generalizing s with
  | zero => exact ⟨h, rfl, rfl, rfl, rfl⟩
  | succ n ih =>
    rw [readLoop]
    by_cases hempty : s.r = s.w
    · have hnil : s.pending = [] := by rw [Cons.pending, hempty, window_self]
      rw [if_pos hempty, hnil, readLine]
      exact ⟨h, rfl, rfl, hnil, rfl⟩
    · have hpop := window_pop s.buf inputBufSize hempty
      have hord := h.advance hempty
      rw [if_neg hempty, Cons.pending, hpop, readLine]
      dsimp only
      by_cases hd : s.buf (place inputBufSize s.r) = ctrlD
      · rw [if_pos hd, if_pos hd]
        split
        · have hback : ({ s with r := s.r + 1 - 1 } : Cons) = s := by
            rw [add_sub_cancel_right]
          have hkeep : ({ s with r := s.r + 1 - 1 } : Cons).pending = s.pending := congrArg _ hback
          refine ⟨?_, rfl, rfl, hkeep.trans hpop, rfl⟩
          change Ordered { s with r := s.r + 1 - 1 }
          rw [hback]
          exact h
        · exact ⟨hord, rfl, rfl, rfl, rfl⟩
      · rw [if_neg hd, if_neg hd, if_neg (by simp)]
        split
        · exact ⟨hord, rfl, rfl, rfl, rfl⟩
        · have hx := ih hord
          exact ⟨hx.ordered, hx.w, congrArg _ hx.taken, hx.pending, hx.outcome⟩

theorem readLine_append (l : List Byte) :
    ((readLine killed target n l).1.map (·.getD ctrlD)) ++ (readLine killed target n l).2.1 = l := by
  induction n generalizing l with
  | zero => rfl
  | succ n ih =>
    cases l with
    | nil => rfl
    | cons c l =>
      rw [readLine]
      split
      · rename_i hd
        split
        · rfl
        · simp [hd]
      · split
        · rfl
        · simp [ih l]

theorem readLine_data (l : List Byte) : some ctrlD ∉ (readLine killed target n l).1 := by
  induction n generalizing l with
  | zero => simp [readLine]
  | succ n ih =>
    cases l with
    | nil => simp [readLine]
    | cons c l =>
      rw [readLine]
      split
      · split <;> simp
      · rename_i hd
        split
        · simpa using fun h => hd h.symm
        · simpa using ⟨fun h => hd h.symm, ih l⟩

theorem readLine_eof (l : List Byte) (hn : n ≤ target) (h : none ∈ (readLine killed target n l).1) :
    n = target ∧ (readLine killed target n l).1 = [none] ∧
      (readLine killed target n l).2.2 = .returned 0 := by
  induction n generalizing l with
  | zero => simp [readLine] at h
  | succ n ih =>
    cases l with
    | nil => simp [readLine] at h
    | cons c l =>
      rw [readLine] at h ⊢
      split at h
      · rename_i hd
        rw [if_pos hd]
        split at h
        · cases h
        · rename_i hfirst
          have heq : n + 1 = target := by omega
          rw [if_neg hfirst, heq]
          simp
      · rename_i hd
        split at h
        · simp at h
        · have hrest := ih l (by omega) (by simpa using h)
          omega

/-- How many bytes a section delivers, and what it returns. -/
def Counted (target n : ℕ) (x : List (Option Byte)) : Outcome → Prop
  | .asleep m => none ∉ x ∧ m + x.length = n
  | .returned v => v = -1 ∨ v = ((target - n + x.reduceOption.length : ℕ) : ℤ)

theorem readLine_counted (l : List Byte) (hn : n ≤ target) :
    Counted target n (readLine killed target n l).1 (readLine killed target n l).2.2 := by
  induction n generalizing l with
  | zero => exact .inr (by simp [readLine])
  | succ n ih =>
    cases l with
    | nil =>
      rw [readLine]
      cases killed with
      | true => exact .inl rfl
      | false => exact ⟨by simp, by simp⟩
    | cons c l =>
      rw [readLine]
      split
      · split
        · exact .inr (by simp)
        · exact .inr (by simp)
      · split
        · exact .inr (by simp)
        · have hrest := ih l (by omega)
          dsimp only
          cases hout : (readLine killed target n l).2.2 with
          | asleep m =>
            rw [hout] at hrest
            obtain ⟨hnone, hlen⟩ := hrest
            exact ⟨by simpa using hnone, by rw [List.length_cons]; omega⟩
          | returned v =>
            rw [hout] at hrest
            refine hrest.imp id (fun hv => ?_)
            rw [hv, List.reduceOption_cons_of_some, List.length_cons]
            congr 1
            omega

/-- What a section with `n` of `target` bytes to go does to the pending characters `l`. -/
structure Reads (target n : ℕ) (l : List Byte) (y : List (Option Byte) × List Byte × Outcome) :
    Prop where
  append : y.1.map (·.getD ctrlD) ++ y.2.1 = l
  data : some ctrlD ∉ y.1
  eof : none ∈ y.1 → n = target ∧ y.1 = [none] ∧ y.2.2 = .returned 0
  counted : Counted target n y.1 y.2.2

theorem readLine_reads (killed : Bool) (l : List Byte) (hn : n ≤ target) :
    Reads target n l (readLine killed target n l) :=
  ⟨readLine_append l, readLine_data l, readLine_eof l hn, readLine_counted l hn⟩

/-- A call that has bytes returns them when it meets an end of file, and leaves it. -/
theorem readLine_meets {pre rest : List Byte} (hn : n ≤ target) (hpre : ∀ c ∈ pre, c ≠ newline ∧ c ≠ ctrlD)
    (hlen : pre.length < n) (hsome : 0 < target - n + pre.length) :
    readLine killed target n (pre ++ ctrlD :: rest) =
      (pre.map some, ctrlD :: rest, .returned ((target - n + pre.length : ℕ) : ℤ)) := by
  induction pre generalizing n with
  | nil =>
    obtain ⟨m, rfl⟩ : ∃ m, n = m + 1 := ⟨n - 1, by simp at hlen; omega⟩
    rw [List.nil_append, readLine, if_pos rfl, if_pos (by simp at hsome; omega)]
    simp
  | cons c pre ih =>
    obtain ⟨m, rfl⟩ : ∃ m, n = m + 1 := ⟨n - 1, by simp at hlen; omega⟩
    have hc := hpre c (by simp)
    rw [List.length_cons] at hlen
    have hrest := ih (n := m) (by omega) (fun x hx => hpre x (by simp [hx])) (by omega) (by omega)
    rw [List.cons_append, readLine, if_neg hc.2, if_neg hc.1, hrest]
    simp only [List.map_cons, List.length_cons, Prod.mk.injEq, true_and]
    congr 2
    omega

end Xv6.Console
