import Xv6.PatternMatching
import Xv6.SeparatedReads
import Xv6.TextBuffers

/-!
# The lines that grep prints

`grep` of `user/grep.c` with its buffer of 1024 bytes, in which the lines are cut by NULs in place.
The answers of `read` are an argument, and `write` puts everything out.
-/

namespace Xv6.Grep

open SeparatedReads TextBuffers

/-- The inner loop of `grep` from `p` on. It returns the buffer, where it stopped, and what it has
written. -/
def grepLines (pattern buf : List Char) (p : ℕ) : List Char × ℕ × List Char :=
  match h : strchr buf p '\n' with
  | none => (buf, p, [])
  | some q =>
    let cut := buf.set q '\x00'
    if match_ pattern (cstr cut p) then
      let buf := cut.set q '\n'
      let r := grepLines pattern buf (q + 1)
      (r.1, r.2.1, (buf.drop p).take (q + 1 - p) ++ r.2.2)
    else grepLines pattern cut (q + 1)
  termination_by buf.length - p
  decreasing_by
    all_goals
      have := strchr_bounds h
      simp only [List.length_set]
      omega

/-- The outer loop of `grep`; `m` characters are in the buffer. -/
def grepLoop (pattern : List Char) (wish : ℕ → ℕ) (i : ℕ) (buf : List Char) (m : ℕ) (stream : List Char) :
    List Char :=
  let n := readLen (wish i) (1024 - m - 1) stream.length
  if n = 0 then []
  else
    let buf₁ := store buf m (stream.take n)
    let m₁ := m + n
    let r := grepLines pattern (buf₁.set m₁ '\x00') 0
    let m₂ := if 0 < m₁ then m₁ - r.2.1 else m₁
    let buf₂ := if 0 < m₁ then moveFront r.1 r.2.1 m₂ else r.1
    r.2.2 ++ grepLoop pattern wish (i + 1) buf₂ m₂ (stream.drop n)
  termination_by stream.length
  decreasing_by
    have := readLen_le_len (wish i) (1024 - m - 1) stream.length
    rw [List.length_drop]
    omega

/-- `grep`, with any contents of the buffer before. -/
def grep (pattern : List Char) (wish : ℕ → ℕ) (buf stream : List Char) : List Char :=
  grepLoop pattern wish 0 buf 0 stream

section Buffer

variable {pattern buf before line s junk : List Char}

def printed (pattern line : List Char) : List Char := if match_ pattern line then line ++ ['\n'] else []

theorem grepLines_line (pattern before s : List Char) (hnul : '\x00' ∉ line) (hline : '\n' ∉ line) : ∃ before',
    before'.length = before.length + (line.length + 1) ∧
    grepLines pattern (before ++ (line ++ '\n' :: s)) before.length =
      ((grepLines pattern (before' ++ s) before'.length).1,
        (grepLines pattern (before' ++ s) before'.length).2.1,
        printed pattern line ++ (grepLines pattern (before' ++ s) before'.length).2.2) := by
  have hq : strchr (before ++ (line ++ '\n' :: s)) before.length '\n' = some (before.length + line.length) := by
    rw [strchr, List.drop_left, strchrAt_eq hnul hline (by decide), Option.map_some]
  have hlen : ∀ d, (before ++ (line ++ [d])).length = before.length + (line.length + 1) := by
    intro d
    rw [List.length_append, List.length_append, List.length_singleton]
  have hjoin : ∀ d, before ++ (line ++ d :: s) = before ++ (line ++ [d]) ++ s := by
    intro d
    simp only [List.append_assoc, List.singleton_append]
  rw [grepLines]
  split
  · rename_i hnone
    rw [hq] at hnone
    cases hnone
  · rename_i q hsome
    rw [hq] at hsome
    cases hsome
    simp only [set_middle, cstr_eq hnul]
    split
    · rename_i hmatch
      refine ⟨before ++ (line ++ ['\n']), hlen '\n', ?_⟩
      rw [hlen, ← hjoin, printed, if_pos hmatch, Nat.add_assoc]
      have htake : ((before ++ (line ++ '\n' :: s)).drop before.length).take
          (before.length + (line.length + 1) - before.length) = line ++ ['\n'] := by
        rw [List.drop_left, Nat.add_sub_cancel_left, ← List.singleton_append, ← List.append_assoc]
        exact List.take_left' (by rw [List.length_append, List.length_singleton])
      rw [htake]
    · rename_i hmatch
      refine ⟨before ++ (line ++ ['\x00']), hlen _, ?_⟩
      rw [hlen, ← hjoin, printed, if_neg hmatch, Nat.add_assoc]
      rfl

/-- The inner loop takes all lines of the buffer and stops at what is left. -/
theorem grepLines_eq (pattern before junk : List Char) (hnul : '\x00' ∉ s) : ∃ before',
    before'.length + (pieces (· == '\n') s).2.length = before.length + s.length ∧
    grepLines pattern (before ++ (s ++ '\x00' :: junk)) before.length =
      (before' ++ ((pieces (· == '\n') s).2 ++ '\x00' :: junk), before'.length,
        (pieces (· == '\n') s).1.flatMap (printed pattern)) := by
  induction hlen : s.length using Nat.strong_induction_on generalizing before s with
  | _ len ih =>
    by_cases hmem : '\n' ∈ s
    · obtain ⟨line, s', rfl, hline⟩ := List.eq_append_cons_of_mem hmem
      rw [List.mem_append, List.mem_cons, not_or, not_or] at hnul
      rw [List.append_assoc, List.cons_append] at *
      obtain ⟨before₁, hbefore₁, hfirst⟩ := grepLines_line pattern before (s' ++ '\x00' :: junk) hnul.1 hline
      rw [List.length_append, List.length_cons] at hlen
      obtain ⟨before₂, hbefore₂, hrest⟩ := ih s'.length (by omega) before₁ hnul.2.2 rfl
      have hpieces : pieces (· == '\n') (line ++ '\n' :: s') =
          (line :: (pieces (· == '\n') s').1, (pieces (· == '\n') s').2) := by
        apply pieces_piece
        · intro a ha
          rw [beq_eq_false_iff_ne]
          rintro rfl
          exact hline ha
        · rfl
      rw [hpieces]
      refine ⟨before₂, ?_, ?_⟩
      · dsimp only
        omega
      · rw [hfirst, hrest, List.flatMap_cons]
    · have hpieces : pieces (· == '\n') s = ([], s) := by
        apply pieces_of_not
        intro a ha
        rw [beq_eq_false_iff_ne]
        rintro rfl
        exact hmem ha
      rw [hpieces]
      refine ⟨before, congrArg (before.length + ·) hlen, ?_⟩
      have hnone : strchr (before ++ (s ++ '\x00' :: junk)) before.length '\n' = none := by
        rw [strchr, List.drop_left, strchrAt_eq_none hmem, Option.map_none]
      rw [grepLines]
      split
      · rfl
      · rename_i q hsome
        rw [hnone] at hsome
        cases hsome

theorem grepLoop_eq {t stream : List Char} (pattern : List Char) (wish : ℕ → ℕ) (i : ℕ)
    (hbuf : buf.length = 1024) (ht : t.length ≤ 1023)
    (hpre : buf.take t.length = t) (hnul : '\x00' ∉ t ++ stream) :
    grepLoop pattern wish i buf t.length stream =
      (feed (· == '\n') 1023 wish i t stream).flatMap (printed pattern) := by
  induction hlen : stream.length using Nat.strong_induction_on generalizing i buf t stream with
  | _ len ih =>
    have hroom : 1024 - t.length - 1 = 1023 - t.length := by omega
    have hle := readLen_le_len (wish i) (1023 - t.length) stream.length
    have hle' := readLen_le_room (wish i) (1023 - t.length) stream.length
    rw [grepLoop, feed, hroom]
    generalize readLen (wish i) (1023 - t.length) stream.length = n at hle hle'
    simp only
    split
    · rfl
    rename_i hn
    obtain ⟨part, rest, rfl, hpart⟩ := exists_part hle
    rw [List.take_left' hpart, List.drop_left' hpart]
    subst hpart
    obtain ⟨junk, hread, hjunk⟩ := store_terminated part hpre (by omega)
    have hs : '\x00' ∉ t ++ part := by
      intro hmem
      rw [← List.append_assoc] at hnul
      exact hnul (List.mem_append_left rest hmem)
    obtain ⟨before, hbefore, hlines⟩ := grepLines_eq pattern [] junk hs
    rw [List.length_nil, Nat.zero_add, List.length_append] at hbefore
    rw [List.nil_append, List.length_nil] at hlines
    have hkeep := pieces_rest_suffix (· == '\n') (t ++ part)
    generalize pieces (· == '\n') (t ++ part) = ps at hbefore hlines hkeep
    have hpos : 0 < t.length + part.length := by omega
    have hleft : t.length + part.length - before.length = ps.2.length := by omega
    simp only [hread, hlines, if_pos hpos, hleft, List.flatMap_append]
    congr 1
    rw [List.length_append] at hlen
    refine ih rest.length (by omega) (i + 1) ?_ (by omega) (moveFront_parts _ _ _) ?_ rfl
    · rw [length_moveFront, ← hbuf, ← hjunk]
      simp only [List.length_append]
      omega
    · intro hmem
      rcases List.mem_append.1 hmem with hmem | hmem
      · exact hs (hkeep.subset hmem)
      · exact hnul (List.mem_append_right t (List.mem_append_right part hmem))

end Buffer

section Output

variable {pattern buf : List Char} {lines : List (List Char)} {wish : ℕ → ℕ}

def unlines (lines : List (List Char)) : List Char := lines.flatMap (· ++ ['\n'])

theorem pieces_unlines (h : ∀ line ∈ lines, '\n' ∉ line) : pieces (· == '\n') (unlines lines) = (lines, []) := by
  induction lines with
  | nil => rfl
  | cons line lines ih =>
    rw [unlines, List.flatMap_cons, List.append_assoc, List.singleton_append, pieces_piece ?_ rfl]
    · change (line :: (pieces _ (unlines lines)).1, (pieces _ (unlines lines)).2) = _
      rw [ih (fun l hl => h l (List.mem_cons_of_mem line hl))]
    · intro c hc
      rw [beq_eq_false_iff_ne]
      rintro rfl
      exact h line List.mem_cons_self hc

theorem unlines_filter (pattern : List Char) (lines : List (List Char)) :
    unlines (lines.filter (match_ pattern)) = lines.flatMap (printed pattern) := by
  induction lines with
  | nil => rfl
  | cons line lines ih =>
    rw [List.flatMap_cons, printed, List.filter_cons]
    split
    · rw [unlines, List.flatMap_cons]
      exact congrArg _ ih
    · exact ih

/-- All is well up to the first line that does not fit into the buffer; there `read` is asked for
nothing, and `grep` takes its answer for the end of the file. -/
theorem grep_eq (hbuf : buf.length = 1024) (hlines : ∀ line ∈ lines, '\n' ∉ line ∧ '\x00' ∉ line) :
    grep pattern wish buf (unlines lines) =
      (lines.takeWhile (fun line => line.length < 1023)).flatMap (printed pattern) := by
  have hnul : '\x00' ∉ [] ++ unlines lines := by
    intro hmem
    obtain ⟨line, hline, hmem⟩ := List.mem_flatMap.1 hmem
    rcases List.mem_append.1 hmem with hmem | hmem
    · exact (hlines line hline).2 hmem
    · exact absurd (List.mem_singleton.1 hmem) (by decide)
  have hloop := grepLoop_eq pattern wish 0 hbuf (by decide) rfl hnul
  rw [feed_eq 0 (fun a ha => absurd ha List.not_mem_nil) (by decide), List.nil_append,
    pieces_unlines (fun line hline => (hlines line hline).1)] at hloop
  exact hloop

/-- The output is right unless a line matches at or behind the first that does not fit. -/
theorem grep_prints_iff (hbuf : buf.length = 1024) (hlines : ∀ line ∈ lines, '\n' ∉ line ∧ '\x00' ∉ line) :
    grep pattern wish buf (unlines lines) = unlines (lines.filter (match_ pattern)) ↔
      ∀ line ∈ lines.dropWhile (fun line => line.length < 1023), match_ pattern line = false := by
  have hsplit := List.takeWhile_append_dropWhile (p := fun line => line.length < 1023) (l := lines)
  rw [grep_eq hbuf hlines, unlines_filter]
  nth_rewrite 2 [← hsplit]
  rw [List.flatMap_append, List.self_eq_append_right, List.flatMap_eq_nil_iff]
  have hnil : ∀ line, printed pattern line = [] ↔ match_ pattern line = false := by
    intro line
    rw [printed]
    cases match_ pattern line with
    | false => exact ⟨fun _ => rfl, fun _ => rfl⟩
    | true =>
      constructor
      · intro h
        exact absurd h (List.append_ne_nil_of_right_ne_nil _ (List.cons_ne_nil _ _))
      · intro h
        cases h
  simp only [hnil]

/-- Two lines, read a byte at a time. -/
theorem grep_prints_two : grep ['b'] (fun _ => 1) (List.replicate 1024 '\x00') (unlines [['a', 'b'], ['c']]) =
    ['a', 'b', '\n'] :=
  (grep_prints_iff List.length_replicate (by decide)).2 (by decide)

/-- A line of 1023 characters is not printed, though it matches. -/
theorem grep_long_line : match_ ['a'] (List.replicate 1023 'a') = true ∧
    grep ['a'] (fun _ => 1024) (List.replicate 1024 '\x00') (unlines [List.replicate 1023 'a']) = [] := by
  constructor
  · rw [List.replicate_succ]
    rfl
  · rw [grep_eq List.length_replicate ?_]
    · rw [List.takeWhile_cons_of_neg]
      · rfl
      · rw [List.length_replicate]
        decide
    · intro line hline
      rw [List.mem_singleton.1 hline]
      constructor <;> intro h
      · exact absurd (List.eq_of_mem_replicate h) (by decide)
      · exact absurd (List.eq_of_mem_replicate h) (by decide)

end Output

end Xv6.Grep
