import Mathlib.Data.List.TakeWhile
import Xv6.MemoryMoves

/-!
# Text in a buffer

A buffer of characters in which C strings end at a NUL: `strchr` and `memmove` of `user/ulib.c` as
the user programs call them, and what a `set` does to a buffer that is given in parts.
-/

namespace Xv6.TextBuffers

open MemoryMoves

/-- The C string at an index of a buffer. -/
def cstr (buf : List Char) (p : ℕ) : List Char := (buf.drop p).takeWhile (· ≠ '\x00')

/-- `strchr`, as the distance from the beginning of the string. -/
def strchrAt (c : Char) : List Char → Option ℕ
  | [] => none
  | d :: s => if d = '\x00' then none else if d = c then some 0 else (strchrAt c s).map (· + 1)

def strchr (buf : List Char) (p : ℕ) (c : Char) : Option ℕ := (strchrAt c (buf.drop p)).map (p + ·)

def store (buf : List Char) (m : ℕ) (cs : List Char) : List Char := buf.take m ++ cs ++ buf.drop (m + cs.length)

/-- `memmove` of `m` characters at `p` to the front. -/
def moveFront (buf : List Char) (p m : ℕ) : List Char := (buf.drop p).take m ++ buf.drop m

theorem strchrAt_lt {c : Char} {s : List Char} {k : ℕ} (h : strchrAt c s = some k) : k < s.length := by
  induction s generalizing k with
  | nil => cases h
  | cons d s ih =>
    rw [strchrAt] at h
    split at h
    · cases h
    split at h
    · cases h
      exact Nat.zero_lt_succ _
    · obtain ⟨j, hj, rfl⟩ := Option.map_eq_some_iff.1 h
      exact Nat.succ_lt_succ (ih hj)

theorem strchr_bounds {c : Char} {buf : List Char} {p q : ℕ} (h : strchr buf p c = some q) :
    p ≤ q ∧ q < buf.length := by
  obtain ⟨k, hk, rfl⟩ := Option.map_eq_some_iff.1 h
  have hlt := strchrAt_lt hk
  rw [List.length_drop] at hlt
  omega

section Parts

variable {line : List Char} {c : Char}

theorem strchrAt_eq (hnul : '\x00' ∉ line) (hc : c ∉ line) (hne : c ≠ '\x00') (s : List Char) :
    strchrAt c (line ++ c :: s) = some line.length := by
  induction line with
  | nil => rw [List.nil_append, strchrAt, if_neg hne, if_pos rfl, List.length_nil]
  | cons d line ih =>
    rw [List.mem_cons, not_or] at hnul hc
    rw [List.cons_append, strchrAt, if_neg (Ne.symm hnul.1), if_neg (Ne.symm hc.1), ih hnul.2 hc.2,
      Option.map_some, List.length_cons]

theorem strchrAt_eq_none (hc : c ∉ line) (s : List Char) : strchrAt c (line ++ '\x00' :: s) = none := by
  induction line with
  | nil => rw [List.nil_append, strchrAt, if_pos rfl]
  | cons d line ih =>
    rw [List.mem_cons, not_or] at hc
    rw [List.cons_append, strchrAt, ih hc.2, if_neg (Ne.symm hc.1)]
    split <;> rfl

theorem cstr_eq (hnul : '\x00' ∉ line) (before s : List Char) :
    cstr (before ++ (line ++ '\x00' :: s)) before.length = line := by
  rw [cstr, List.drop_left, List.takeWhile_append_of_pos]
  · rw [List.takeWhile_cons_of_neg (by decide), List.append_nil]
  · intro d hd
    rw [decide_eq_true_iff]
    rintro rfl
    exact hnul hd

theorem set_middle (before line s : List Char) (c d : Char) :
    (before ++ (line ++ c :: s)).set (before.length + line.length) d = before ++ (line ++ d :: s) := by
  rw [List.set_append_right _ _ (Nat.le_add_right _ _), Nat.add_sub_cancel_left,
    List.set_append_right _ _ (Nat.le_refl _), Nat.sub_self, List.set_cons_zero]

theorem exists_part {n : ℕ} (h : n ≤ line.length) :
    ∃ part rest, line = part ++ rest ∧ part.length = n :=
  ⟨line.take n, line.drop n, (List.take_append_drop n line).symm, List.length_take_of_le h⟩

theorem store_terminated {buf t : List Char} (part : List Char) (ht : buf.take t.length = t)
    (hlen : t.length + part.length < buf.length) : ∃ junk,
    (store buf t.length part).set (t.length + part.length) '\x00' = t ++ part ++ '\x00' :: junk ∧
    (t ++ part ++ '\x00' :: junk).length = buf.length := by
  obtain ⟨d, junk, hjunk⟩ : ∃ d junk, buf.drop (t.length + part.length) = d :: junk := by
    refine List.exists_cons_of_ne_nil ?_
    rw [Ne, List.drop_eq_nil_iff]
    omega
  have hset := set_middle [] (t ++ part) junk d '\x00'
  rw [List.length_nil, Nat.zero_add, List.length_append] at hset
  refine ⟨junk, ?_, ?_⟩
  · rw [store, ht, hjunk]
    exact hset
  · have hrest := congrArg List.length hjunk
    rw [List.length_drop, List.length_cons] at hrest
    rw [List.length_append, List.length_append, List.length_cons]
    omega

theorem moveFront_parts (before rest s : List Char) :
    (moveFront (before ++ (rest ++ s)) before.length rest.length).take rest.length = rest := by
  rw [moveFront, List.drop_left, List.take_left, List.take_left]

theorem length_moveFront (before rest s : List Char) :
    (moveFront (before ++ (rest ++ s)) before.length rest.length).length = (before ++ (rest ++ s)).length := by
  rw [moveFront, List.drop_left, List.take_left]
  simp only [List.length_append, List.length_drop]
  omega

end Parts

/-- The characters of `buf` are in memory from `a` on, with `code` for the byte of a character. -/
def InMemory (code : Char → BitVec 8) (mem : Memory) (a : Addr) (buf : List Char) : Prop :=
  ∀ i c, buf[i]? = some c → mem (a + BitVec.ofNat 64 i) = code c

/-- `moveFront` is what the `memmove` of `user/ulib.c` does to a buffer. -/
theorem InMemory.memmove {code : Char → BitVec 8} {mem : Memory} {a : Addr} {buf : List Char} {p m : ℕ}
    (h : InMemory code mem a buf) (hend : a.toNat + buf.length ≤ 2 ^ 64) (hm : m < 2 ^ 31)
    (hp : p + m ≤ buf.length) :
    InMemory code (userMemmove mem a (a + BitVec.ofNat 64 p) (BitVec.ofNat 32 m)).1 a (moveFront buf p m) := by
  have hint : (BitVec.ofNat 32 m).toInt.toNat = m := by
    have hto : (BitVec.ofNat 32 m).toNat = m := by
      rw [BitVec.toNat_ofNat, Nat.mod_eq_of_lt (by omega)]
    rw [BitVec.toInt_eq_toNat_of_lt (by omega), hto, Int.toNat_natCast]
  have hmoved := @userMemmove_moved mem a (a + BitVec.ofNat 64 p) (BitVec.ofNat 32 m)
  rw [hint] at hmoved
  have hsrc : (a + BitVec.ofNat 64 p).toNat + m ≤ 2 ^ 64 := by
    rw [BitVec.toNat_add, BitVec.toNat_ofNat]
    omega
  obtain ⟨hcopied, hother⟩ := hmoved hsrc (by omega)
  intro i c hc
  have hlen : ((buf.drop p).take m).length = m := by
    rw [List.length_take, List.length_drop]
    omega
  rw [moveFront] at hc
  rcases Nat.lt_or_ge i m with hi | hi
  · rw [List.getElem?_append_left (by omega), List.getElem?_take_of_lt hi, List.getElem?_drop] at hc
    rw [hcopied i hi, BitVec.add_assoc, ← BitVec.ofNat_add]
    exact h _ _ hc
  · rw [List.getElem?_append_right (by omega), hlen, List.getElem?_drop, Nat.add_sub_cancel' hi] at hc
    have hlt := (List.getElem?_eq_some_iff.1 hc).1
    rw [hother]
    · exact h _ _ hc
    · exact fun j hj => add_ne a (by omega) (by omega) (by omega)

end Xv6.TextBuffers
