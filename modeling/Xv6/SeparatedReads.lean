import Mathlib.Data.List.TakeWhile

/-!
# Reading separated pieces through a buffer

A stream is cut into pieces, each of which ends in a separator. A reader with a buffer gets the
stream in parts of any size, takes the complete pieces out of the buffer, and keeps what is left
for the next read. It finds the same pieces however the stream is split, up to the first that
does not fit into the buffer.
-/

namespace Xv6.SeparatedReads

variable {α : Type*} {sep : α → Bool} {s t : List α} {a : α}

/-- The pieces before the separators, and what follows the last of them. -/
def pieces (sep : α → Bool) : List α → List (List α) × List α
  | [] => ([], [])
  | a :: s =>
    if sep a then ([] :: (pieces sep s).1, (pieces sep s).2)
    else
      match pieces sep s with
      | ([], rest) => ([], a :: rest)
      | (p :: ps, rest) => ((a :: p) :: ps, rest)

/-- Something without a separator is put in front of the first piece. -/
def glue (t : List α) : List (List α) × List α → List (List α) × List α
  | ([], rest) => ([], t ++ rest)
  | (p :: ps, rest) => ((t ++ p) :: ps, rest)

theorem pieces_cons_of_sep (ha : sep a = true) (s : List α) :
    pieces sep (a :: s) = ([] :: (pieces sep s).1, (pieces sep s).2) := if_pos ha

theorem pieces_cons_of_not (ha : sep a = false) (s : List α) :
    pieces sep (a :: s) = glue [a] (pieces sep s) := by
  rw [pieces, if_neg (by rw [ha]; exact Bool.false_ne_true)]
  rcases pieces sep s with ⟨_ | ⟨p, ps⟩, rest⟩ <;> rfl

theorem glue_glue (s t : List α) (x : List (List α) × List α) : glue s (glue t x) = glue (s ++ t) x := by
  rcases x with ⟨_ | ⟨p, ps⟩, rest⟩
  · exact congrArg (Prod.mk []) (List.append_assoc s t rest).symm
  · exact congrArg (fun q => (q :: ps, rest)) (List.append_assoc s t p).symm

theorem glue_nil (x : List (List α) × List α) : glue [] x = x := by
  rcases x with ⟨_ | ⟨p, ps⟩, rest⟩ <;> rfl

theorem pieces_append_of_not (ht : ∀ a ∈ t, sep a = false) (s : List α) :
    pieces sep (t ++ s) = glue t (pieces sep s) := by
  induction t with
  | nil => exact (glue_nil _).symm
  | cons a t ih =>
    rw [List.cons_append, pieces_cons_of_not (ht a List.mem_cons_self),
      ih (fun b hb => ht b (List.mem_cons_of_mem a hb)), glue_glue]
    rfl

theorem pieces_of_not (ht : ∀ a ∈ t, sep a = false) : pieces sep t = ([], t) := by
  have h := pieces_append_of_not ht []
  rw [List.append_nil] at h
  rw [h, pieces, glue, List.append_nil]

theorem pieces_piece (ht : ∀ a ∈ t, sep a = false) (ha : sep a = true) (s : List α) :
    pieces sep (t ++ a :: s) = (t :: (pieces sep s).1, (pieces sep s).2) := by
  rw [pieces_append_of_not ht, pieces_cons_of_sep ha, glue, List.append_nil]

variable (sep) in
theorem pieces_rest (s : List α) : ∀ a ∈ (pieces sep s).2, sep a = false := by
  induction s with
  | nil => exact fun a ha => nomatch ha
  | cons b s ih =>
    cases hb : sep b with
    | true =>
      rw [pieces_cons_of_sep hb]
      exact ih
    | false =>
      rw [pieces_cons_of_not hb]
      rcases hs : pieces sep s with ⟨_ | ⟨p, ps⟩, rest⟩
      · rw [hs] at ih
        intro a ha
        rcases List.mem_cons.1 ha with rfl | ha
        · exact hb
        · exact ih a ha
      · rw [hs] at ih
        exact ih

variable (sep) in
/-- What is left of one part is read again with the next. -/
theorem pieces_append (s t : List α) : pieces sep (s ++ t) =
    ((pieces sep s).1 ++ (pieces sep ((pieces sep s).2 ++ t)).1, (pieces sep ((pieces sep s).2 ++ t)).2) := by
  induction s with
  | nil => rfl
  | cons a s ih =>
    cases ha : sep a with
    | true =>
      rw [List.cons_append, pieces_cons_of_sep ha, pieces_cons_of_sep ha, ih]
      rfl
    | false =>
      rw [List.cons_append, pieces_cons_of_not ha, pieces_cons_of_not ha, ih]
      have hrest := pieces_rest sep s
      rcases hs : pieces sep s with ⟨_ | ⟨p, ps⟩, rest⟩
      · rw [hs] at hrest
        have hcons : ∀ b ∈ a :: rest, sep b = false := by
          intro b hb
          rcases List.mem_cons.1 hb with rfl | hb
          · exact ha
          · exact hrest b hb
        change glue [a] (pieces sep (rest ++ t)) = pieces sep (a :: rest ++ t)
        rw [pieces_append_of_not hrest, pieces_append_of_not hcons, glue_glue]
        rfl
      · rfl

theorem length_lt_of_mem_pieces (s : List α) : ∀ p ∈ (pieces sep s).1, p.length < s.length := by
  induction s with
  | nil => exact fun p hp => nomatch hp
  | cons a s ih =>
    cases ha : sep a with
    | true =>
      rw [pieces_cons_of_sep ha]
      intro p hp
      rcases List.mem_cons.1 hp with rfl | hp
      · exact Nat.zero_lt_succ _
      · exact Nat.lt_succ_of_lt (ih p hp)
    | false =>
      rw [pieces_cons_of_not ha]
      rcases hs : pieces sep s with ⟨_ | ⟨p, ps⟩, rest⟩
      · exact fun p hp => nomatch hp
      · rw [hs] at ih
        intro q hq
        rcases List.mem_cons.1 hq with rfl | hq
        · exact Nat.succ_lt_succ (ih p List.mem_cons_self)
        · exact Nat.lt_succ_of_lt (ih q (List.mem_cons_of_mem p hq))

theorem pieces_rest_eq {rest : List α} (h : pieces sep s = ([], rest)) : rest = s := by
  induction s generalizing rest with
  | nil => exact (Prod.mk.inj h).2.symm
  | cons a s ih =>
    cases ha : sep a with
    | true =>
      rw [pieces_cons_of_sep ha] at h
      cases (Prod.mk.inj h).1
    | false =>
      rw [pieces_cons_of_not ha] at h
      rcases hs : pieces sep s with ⟨_ | ⟨p, ps⟩, rest'⟩
      · rw [hs] at h
        rw [← ih hs]
        exact (Prod.mk.inj h).2.symm
      · rw [hs] at h
        cases (Prod.mk.inj h).1

variable (sep) in
theorem pieces_rest_suffix (s : List α) : (pieces sep s).2 <:+ s := by
  induction s with
  | nil => exact List.suffix_refl _
  | cons a s ih =>
    cases ha : sep a with
    | true =>
      rw [pieces_cons_of_sep ha]
      exact ih.trans (List.suffix_cons a s)
    | false =>
      rw [pieces_cons_of_not ha]
      rcases hs : pieces sep s with ⟨_ | ⟨p, ps⟩, rest⟩
      · rw [pieces_rest_eq hs]
        exact List.suffix_refl _
      · rw [hs] at ih
        exact ih.trans (List.suffix_cons a s)

theorem splitOnP_eq (sep : α → Bool) (s : List α) : s.splitOnP sep = (pieces sep s).1 ++ [(pieces sep s).2] := by
  induction s with
  | nil => rfl
  | cons a s ih =>
    rw [List.splitOnP_cons_eq_if_modifyHead]
    cases ha : sep a with
    | true =>
      rw [if_pos rfl, pieces_cons_of_sep ha, ih]
      rfl
    | false =>
      rw [if_neg Bool.false_ne_true, pieces_cons_of_not ha, ih]
      rcases pieces sep s with ⟨_ | ⟨p, ps⟩, rest⟩ <;> rfl

/-- What `read` returns for `room` bytes when `len` are left: at least one byte if it can. -/
def readLen (wish room len : ℕ) : ℕ := min (max wish 1) (min room len)

theorem readLen_le_room (wish room len : ℕ) : readLen wish room len ≤ room := by
  rw [readLen]
  omega

theorem readLen_le_len (wish room len : ℕ) : readLen wish room len ≤ len := by
  rw [readLen]
  omega

theorem readLen_eq_zero {wish room len : ℕ} : readLen wish room len = 0 ↔ room = 0 ∨ len = 0 := by
  rw [readLen]
  omega

/-- The pieces that a reader finds with a buffer for `room` bytes, of which `t` are already there.
`wish` says how many bytes the reads return. -/
def feed (sep : α → Bool) (room : ℕ) (wish : ℕ → ℕ) (i : ℕ) (t stream : List α) : List (List α) :=
  let n := readLen (wish i) (room - t.length) stream.length
  if n = 0 then []
  else
    let ps := pieces sep (t ++ stream.take n)
    ps.1 ++ feed sep room wish (i + 1) ps.2 (stream.drop n)
  termination_by stream.length
  decreasing_by
    have := readLen_le_len (wish i) (room - t.length) stream.length
    rw [List.length_drop]
    omega

variable {room : ℕ} {wish : ℕ → ℕ}

/-- The pieces do not depend on the reads. -/
theorem feed_eq (i : ℕ) (ht : ∀ a ∈ t, sep a = false) (hroom : t.length ≤ room) :
    feed sep room wish i t s = (pieces sep (t ++ s)).1.takeWhile (fun p => p.length < room) := by
  induction hlen : s.length using Nat.strong_induction_on generalizing i t s with
  | _ len ih =>
    have hle := readLen_le_len (wish i) (room - t.length) s.length
    have hle' := readLen_le_room (wish i) (room - t.length) s.length
    rw [feed]
    generalize hn : readLen (wish i) (room - t.length) s.length = n at hle hle'
    simp only
    split
    · rename_i hzero
      rw [hzero] at hn
      rcases readLen_eq_zero.1 hn with hfull | hend
      · -- the buffer is full, and its only piece is not complete
        rw [pieces_append_of_not ht]
        rcases pieces sep s with ⟨_ | ⟨p, ps⟩, rest⟩
        · rfl
        · refine (List.takeWhile_cons_of_neg ?_).symm
          rw [decide_eq_true_iff, List.length_append]
          omega
      · rw [List.length_eq_zero_iff.1 hend, List.append_nil, pieces_of_not ht]
        rfl
    · have hpart : (t ++ s.take n).length ≤ room := by
        rw [List.length_append, List.length_take]
        omega
      have hpieces := pieces_append sep (t ++ s.take n) (s.drop n)
      rw [List.append_assoc, List.take_append_drop] at hpieces
      have hrest := (pieces_rest_suffix sep (t ++ s.take n)).length_le.trans hpart
      rw [ih (s.drop n).length ?_ (i + 1) (pieces_rest sep _) hrest rfl, hpieces, List.takeWhile_append_of_pos]
      · intro p hp
        have := length_lt_of_mem_pieces (t ++ s.take n) p hp
        rw [decide_eq_true_iff]
        omega
      · rw [List.length_drop]
        omega

end Xv6.SeparatedReads
