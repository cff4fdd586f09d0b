import Xv6.SeparatedReads
import Xv6.TextBuffers

/-!
# The commands that xargs runs

`user/xargs.c` with its buffer of 512 bytes. A run is the list of the argument vectors of the
commands; `fork` and `exec` succeed.
-/

namespace Xv6.Xargs

open SeparatedReads TextBuffers

abbrev Command := List (List Char)

/-- A space or a newline ends a token. -/
def isSep (c : Char) : Bool := c == ' ' || c == '\n'

/-- The `for` loop over the buffer. It returns the commands, the buffer, `p` and `start`. -/
def scanTokens (fixed : Command) (buf : List Char) (p start : ℕ) : List Command × List Char × ℕ × ℕ :=
  match h : buf[p]? with
  | none => ([], buf, p, start)
  | some c =>
    if c = '\x00' then ([], buf, p, start)
    else if isSep c then
      if start ≠ p then
        let cut := buf.set p '\x00'
        let r := scanTokens fixed cut (p + 1) (p + 1)
        ((fixed ++ [cstr cut start]) :: r.1, r.2)
      else scanTokens fixed buf (p + 1) (p + 1)
    else scanTokens fixed buf (p + 1) start
  termination_by buf.length - p
  decreasing_by
    · have := (List.getElem?_eq_some_iff.1 h).1
      rw [List.length_set]
      omega
    · have := (List.getElem?_eq_some_iff.1 h).1
      omega
    · have := (List.getElem?_eq_some_iff.1 h).1
      omega

/-- The `while` loop of `main`; `m` characters are in the buffer. -/
def xargsLoop (fixed : Command) (wish : ℕ → ℕ) (i : ℕ) (buf : List Char) (m : ℕ) (stream : List Char) :
    List Command :=
  let n := readLen (wish i) (512 - m - 1) stream.length
  if n = 0 then []
  else
    let buf₁ := store buf m (stream.take n)
    let m₁ := m + n
    let r := scanTokens fixed (buf₁.set m₁ '\x00') 0 0
    let p := r.2.2.1
    let start := r.2.2.2
    -- the last token may go on in the next read
    let m₂ := if start < p then p - start else 0
    let buf₂ := if start < p then moveFront r.2.1 start m₂ else r.2.1
    r.1 ++ xargsLoop fixed wish (i + 1) buf₂ m₂ (stream.drop n)
  termination_by stream.length
  decreasing_by
    have := readLen_le_len (wish i) (512 - m - 1) stream.length
    rw [List.length_drop]
    omega

/-- `main` with the arguments `fixed`, and any contents of the buffer before. -/
def xargs (fixed : Command) (wish : ℕ → ℕ) (buf stream : List Char) : List Command :=
  xargsLoop fixed wish 0 buf 0 stream

section Buffer

variable {fixed : Command} {buf before word s junk : List Char}

/-- The commands for some tokens; nothing is run for an empty one. -/
def commands (fixed : Command) (tokens : List (List Char)) : List Command :=
  (tokens.filter (· ≠ [])).map (fun token => fixed ++ [token])

theorem commands_append (fixed : Command) (ts us : List (List Char)) :
    commands fixed (ts ++ us) = commands fixed ts ++ commands fixed us := by
  rw [commands, List.filter_append, List.map_append, commands, commands]

theorem getElem?_middle (before word s : List Char) (c : Char) :
    (before ++ (word ++ c :: s))[before.length + word.length]? = some c := by
  rw [List.getElem?_append_right (Nat.le_add_right _ _), Nat.add_sub_cancel_left,
    List.getElem?_append_right (Nat.le_refl _), Nat.sub_self, List.getElem?_cons_zero]

theorem scanTokens_step {p start : ℕ} {c : Char} (h : buf[p]? = some c) : scanTokens fixed buf p start =
    if c = '\x00' then ([], buf, p, start)
    else if isSep c then
      if start ≠ p then
        let cut := buf.set p '\x00'
        let r := scanTokens fixed cut (p + 1) (p + 1)
        ((fixed ++ [cstr cut start]) :: r.1, r.2)
      else scanTokens fixed buf (p + 1) (p + 1)
    else scanTokens fixed buf (p + 1) start := by
  rw [scanTokens]
  split
  · rename_i hnone
    rw [h] at hnone
    cases hnone
  · rename_i d hsome
    rw [h] at hsome
    cases hsome
    rfl

theorem scanTokens_eq {p start : ℕ} (fixed : Command) (hword : ∀ c ∈ word, isSep c = false)
    (hnul : '\x00' ∉ word ++ s)
    (hbuf : buf = before ++ (word ++ (s ++ '\x00' :: junk))) (hstart : start = before.length)
    (hp : p = before.length + word.length) : ∃ before',
    before'.length + (pieces isSep (word ++ s)).2.length = p + s.length ∧
    scanTokens fixed buf p start =
      (commands fixed (pieces isSep (word ++ s)).1, before' ++ ((pieces isSep (word ++ s)).2 ++ '\x00' :: junk),
        p + s.length, before'.length) := by
  induction s generalizing buf before word p start with
  | nil =>
    have hget : buf[p]? = some '\x00' := by
      rw [hbuf, hp]
      exact getElem?_middle before word junk _
    rw [List.append_nil, pieces_of_not hword, scanTokens_step hget, if_pos rfl, hbuf, hstart]
    exact ⟨before, hp.symm, rfl⟩
  | cons c s ih =>
    have hget : buf[p]? = some c := by
      rw [hbuf, hp]
      exact getElem?_middle before word _ c
    have hc : c ≠ '\x00' := by
      rintro rfl
      exact hnul (List.mem_append_right word List.mem_cons_self)
    have hs : '\x00' ∉ s := fun h => hnul (List.mem_append_right word (List.mem_cons_of_mem c h))
    have hnil : ∀ d ∈ ([] : List Char), isSep d = false := fun d hd => absurd hd List.not_mem_nil
    rw [scanTokens_step hget, if_neg hc, List.length_cons, Nat.add_comm s.length, ← Nat.add_assoc]
    cases hsep : isSep c with
    | true =>
      rw [pieces_piece hword hsep, if_pos rfl]
      by_cases hne : start ≠ p
      · -- a token ends here
        have hcut : buf.set p '\x00' = before ++ (word ++ '\x00' :: (s ++ '\x00' :: junk)) := by
          rw [hbuf, hp]
          exact set_middle before word _ c _
        have htoken : cstr (buf.set p '\x00') start = word := by
          rw [hcut, hstart]
          exact cstr_eq (fun h => hnul (List.mem_append_left _ h)) before _
        have hnext : buf.set p '\x00' = before ++ (word ++ ['\x00']) ++ ([] ++ (s ++ '\x00' :: junk)) := by
          rw [hcut]
          simp
        have hlen : p + 1 = (before ++ (word ++ ['\x00'])).length := by
          rw [hp, List.length_append, List.length_append, Nat.add_assoc]
          rfl
        obtain ⟨before', hbefore', hrest⟩ := ih hnil hs hnext hlen hlen
        have hword' : word ≠ [] := by
          rintro rfl
          exact hne (by rw [hstart, hp, List.length_nil, Nat.add_zero])
        refine ⟨before', hbefore', ?_⟩
        simp only [if_pos hne, htoken, hrest, List.nil_append, commands, List.filter_cons, decide_eq_true hword',
          if_true, List.map_cons]
      · -- an empty one
        have hempty : word = [] := by
          rw [not_not, hstart, hp] at hne
          exact List.length_eq_zero_iff.1 (by omega)
        have hnext : buf = before ++ [c] ++ ([] ++ (s ++ '\x00' :: junk)) := by
          rw [hbuf, hempty]
          simp
        have hlen : p + 1 = (before ++ [c]).length := by
          rw [hp, hempty, List.length_append]
          rfl
        obtain ⟨before', hbefore', hrest⟩ := ih hnil hs hnext hlen hlen
        refine ⟨before', hbefore', ?_⟩
        rw [if_neg hne, hrest, hempty]
        rfl
    | false =>
      have hword' : ∀ d ∈ word ++ [c], isSep d = false := by
        intro d hd
        rcases List.mem_append.1 hd with hd | hd
        · exact hword d hd
        · rw [List.mem_singleton.1 hd]
          exact hsep
      have hassoc : word ++ c :: s = word ++ [c] ++ s := by
        rw [List.append_assoc, List.singleton_append]
      rw [hassoc] at hnul ⊢
      rw [if_neg Bool.false_ne_true]
      exact ih hword' hnul (by rw [hbuf]; simp) hstart (by rw [hp]; simp [Nat.add_assoc])

theorem xargsLoop_eq {t stream : List Char} (fixed : Command) (wish : ℕ → ℕ) (i : ℕ) (hbuf : buf.length = 512)
    (ht : t.length ≤ 511) (hpre : buf.take t.length = t) (hnul : '\x00' ∉ t ++ stream) :
    xargsLoop fixed wish i buf t.length stream = commands fixed (feed isSep 511 wish i t stream) := by
  induction hlen : stream.length using Nat.strong_induction_on generalizing i buf t stream with
  | _ len ih =>
    have hroom : 512 - t.length - 1 = 511 - t.length := by omega
    have hle := readLen_le_len (wish i) (511 - t.length) stream.length
    have hle' := readLen_le_room (wish i) (511 - t.length) stream.length
    rw [xargsLoop, feed, hroom]
    generalize readLen (wish i) (511 - t.length) stream.length = n at hle hle'
    simp only
    split
    · rfl
    rename_i hn
    obtain ⟨part, rest, rfl, hpart⟩ := exists_part hle
    rw [List.take_left' hpart, List.drop_left' hpart]
    subst hpart
    obtain ⟨junk, hread, hjunk⟩ := store_terminated part hpre (by omega)
    have hs : '\x00' ∉ [] ++ (t ++ part) := by
      intro hmem
      rw [← List.append_assoc] at hnul
      exact hnul (List.mem_append_left rest hmem)
    have hnil : ∀ c ∈ ([] : List Char), isSep c = false := fun c hc => absurd hc List.not_mem_nil
    obtain ⟨before, hbefore, hscan⟩ := scanTokens_eq fixed hnil hs (show _ = [] ++ ([] ++ _) from hread) rfl rfl
    simp only [List.length_nil, Nat.zero_add, List.nil_append, List.length_append] at hbefore hscan
    have hkeep := pieces_rest_suffix isSep (t ++ part)
    generalize pieces isSep (t ++ part) = ps at hbefore hscan hkeep
    have hsize : (before ++ (ps.2 ++ '\x00' :: junk)).length = 512 := by
      rw [← hbuf, ← hjunk]
      simp only [List.length_append]
      omega
    have hnul' : '\x00' ∉ ps.2 ++ rest := by
      intro hmem
      rcases List.mem_append.1 hmem with hmem | hmem
      · exact hs (hkeep.subset hmem)
      · exact hnul (List.mem_append_right t (List.mem_append_right part hmem))
    rw [List.length_append] at hlen
    simp only [hscan, commands_append]
    congr 1
    by_cases hmore : before.length < t.length + part.length
    · have hleft : t.length + part.length - before.length = ps.2.length := by omega
      rw [if_pos hmore, if_pos hmore, hleft]
      exact ih rest.length (by omega) (i + 1) (by rw [length_moveFront, hsize]) (by omega)
        (moveFront_parts _ _ _) hnul' rfl
    · have hempty : ps.2 = [] := List.length_eq_zero_iff.1 (by omega)
      rw [if_neg hmore, if_neg hmore]
      rw [hempty] at hsize hnul' ⊢
      exact ih rest.length (by omega) (i + 1) hsize (Nat.zero_le _) rfl hnul' rfl

end Buffer

section Runs

variable {fixed : Command} {buf input line : List Char}

/-- The maximal runs of other characters than space and newline. -/
def runs (s : List Char) : List (List Char) := (s.splitOnP isSep).filter (· ≠ [])

def words (line : List Char) : List (List Char) := (line.splitOnP (· == ' ')).filter (· ≠ [])

/-- The lines of a text; the last may lack its newline. -/
def lines (s : List Char) : List (List Char) :=
  (pieces (· == '\n') s).1 ++ (if (pieces (· == '\n') s).2 = [] then [] else [(pieces (· == '\n') s).2])

/-- A token is run once its separator has come, until one does not fit into the buffer. -/
theorem xargs_eq (fixed : Command) (wish : ℕ → ℕ) (hbuf : buf.length = 512) (hnul : '\x00' ∉ input) :
    xargs fixed wish buf input =
      commands fixed ((pieces isSep input).1.takeWhile (fun token => token.length < 511)) := by
  have hpre : buf.take ([] : List Char).length = [] := List.take_zero
  have hloop := xargsLoop_eq fixed wish 0 hbuf (Nat.zero_le _) hpre hnul
  rw [feed_eq 0 (fun c hc => absurd hc List.not_mem_nil) (Nat.zero_le _), List.nil_append] at hloop
  exact hloop

theorem runs_eq (s : List Char) : runs s = ((pieces isSep s).1 ++ [(pieces isSep s).2]).filter (· ≠ []) := by
  rw [runs, splitOnP_eq]

/-- The commands are the same however the input is read: one for each run of the input with a
separator behind it, in the order of the input, up to the first that does not fit into the buffer. -/
theorem xargs_independent (fixed : Command) (wish wish' : ℕ → ℕ) {buf buf' input : List Char}
    (hbuf : buf.length = 512) (hbuf' : buf'.length = 512) (hnul : '\x00' ∉ input) :
    xargs fixed wish buf input = xargs fixed wish' buf' input ∧
    xargs fixed wish buf input =
      commands fixed ((input.splitOnP isSep).dropLast.takeWhile (fun token => token.length < 511)) ∧
    ∃ tokens, tokens <+: runs input ∧ xargs fixed wish buf input = tokens.map (fun token => fixed ++ [token]) := by
  have heq := xargs_eq fixed wish hbuf hnul
  refine ⟨heq.trans (xargs_eq fixed wish' hbuf' hnul).symm, ?_, _, ?_, heq⟩
  · rw [heq, splitOnP_eq, List.dropLast_concat]
  · rw [runs_eq]
    exact (((List.takeWhile_prefix _).trans (List.prefix_append _ _)).filter _)

/-- Two ways to read the same input. The last run has no separator behind it. -/
theorem xargs_independent_two :
    xargs [['e']] (fun _ => 1) (List.replicate 512 '\x00') ['a', ' ', 'b', '\n', 'c'] =
      xargs [['e']] (fun _ => 4) (List.replicate 512 'x') ['a', ' ', 'b', '\n', 'c'] ∧
    xargs [['e']] (fun _ => 1) (List.replicate 512 '\x00') ['a', ' ', 'b', '\n', 'c'] =
      [[['e'], ['a']], [['e'], ['b']]] := by
  have hbuf : (List.replicate 512 '\x00').length = 512 := List.length_replicate
  have hbuf' : (List.replicate 512 'x').length = 512 := List.length_replicate
  have hnul : '\x00' ∉ ['a', ' ', 'b', '\n', 'c'] := by decide
  obtain ⟨hsame, hruns, -⟩ := xargs_independent [['e']] (fun _ => 1) (fun _ => 4) hbuf hbuf' hnul
  exact ⟨hsame, hruns.trans (by decide)⟩

theorem pieces_congr {sep sep' : Char → Bool} (h : ∀ c ∈ input, sep c = sep' c) :
    pieces sep input = pieces sep' input := by
  induction input with
  | nil => rfl
  | cons c s ih =>
    rw [pieces, pieces, h c List.mem_cons_self, ih (fun d hd => h d (List.mem_cons_of_mem c hd))]

theorem not_newline (h : '\n' ∉ line) : ∀ c ∈ line, (c == '\n') = false := by
  intro c hc
  rw [beq_eq_false_iff_ne]
  rintro rfl
  exact h hc

theorem words_eq (h : '\n' ∉ line) : words line = runs line := by
  have hsame : ∀ c ∈ line, (c == ' ') = isSep c := by
    intro c hc
    rw [isSep, not_newline h c hc, Bool.or_false]
  rw [words, runs, splitOnP_eq, splitOnP_eq, pieces_congr hsame]

theorem runs_newline (line s : List Char) : runs (line ++ '\n' :: s) = runs line ++ runs s := by
  rw [runs_eq, runs_eq, runs_eq, pieces_append, pieces_piece (pieces_rest isSep line) rfl, ← List.filter_append]
  simp only [List.append_assoc, List.cons_append, List.nil_append]

/-- The runs of the input are the words of its lines. -/
theorem runs_eq_words (s : List Char) : runs s = (lines s).flatMap words := by
  induction hlen : s.length using Nat.strong_induction_on generalizing s with
  | _ len ih =>
    by_cases hmem : '\n' ∈ s
    · obtain ⟨line, s', rfl, hline⟩ := List.eq_append_cons_of_mem hmem
      have hpieces : pieces (· == '\n') (line ++ '\n' :: s') =
          (line :: (pieces (· == '\n') s').1, (pieces (· == '\n') s').2) :=
        pieces_piece (not_newline hline) rfl s'
      have hlines : lines (line ++ '\n' :: s') = line :: lines s' := by
        rw [lines, hpieces]
        rfl
      rw [List.length_append, List.length_cons] at hlen
      rw [runs_newline, hlines, List.flatMap_cons, words_eq hline, ih s'.length (by omega) s' rfl]
    · have hpieces : pieces (· == '\n') s = ([], s) :=
        pieces_of_not (not_newline hmem)
      rw [lines, hpieces]
      by_cases hnil : s = []
      · rw [hnil]
        rfl
      · rw [if_neg hnil, List.nil_append, List.flatMap_singleton, words_eq hmem]

theorem pieces_rest_eq_nil (s : List Char) :
    (pieces isSep s).2 = [] ↔ ∀ c, s.getLast? = some c → isSep c = true := by
  rcases List.eq_nil_or_concat s with rfl | ⟨s', c, rfl⟩
  · exact ⟨fun _ c hc => (nomatch hc), fun _ => rfl⟩
  · rw [List.concat_eq_append, List.getLast?_concat, pieces_append]
    cases hc : isSep c with
    | true =>
      rw [pieces_piece (pieces_rest isSep s') hc]
      constructor
      · rintro - d hd
        rw [← Option.some.inj hd]
        exact hc
      · exact fun _ => rfl
    | false =>
      rw [pieces_append_of_not (pieces_rest isSep s'), pieces_cons_of_not hc]
      constructor
      · intro h
        exact absurd h (List.append_ne_nil_of_right_ne_nil _ (List.cons_ne_nil _ _))
      · intro h
        rw [h c rfl] at hc
        cases hc

/-- What the lab text asks for: one command for each line. -/
def perLine (fixed : Command) (s : List Char) : List Command := (lines s).map (fun line => fixed ++ words line)

theorem map_words {ls : List (List Char)} (h : ∀ line ∈ ls, (words line).length = 1) :
    ls.map (fun line => fixed ++ words line) = (ls.flatMap words).map (fun token => fixed ++ [token]) := by
  induction ls with
  | nil => rfl
  | cons line ls ih =>
    obtain ⟨token, htoken⟩ := List.length_eq_one_iff.1 (h line List.mem_cons_self)
    rw [List.map_cons, List.flatMap_cons, htoken, ih (fun l hl => h l (List.mem_cons_of_mem line hl))]
    rfl

theorem length_flatMap_words {ls : List (List Char)} (h : ∀ line ∈ ls, (words line).length = 1) :
    (ls.flatMap words).length = ls.length := by
  induction ls with
  | nil => rfl
  | cons line ls ih =>
    rw [List.flatMap_cons, List.length_append, h line List.mem_cons_self,
      ih (fun l hl => h l (List.mem_cons_of_mem line hl)), List.length_cons, Nat.add_comm]

theorem runs_eq_append (s : List Char) : runs s = (pieces isSep s).1.filter (· ≠ []) ++
    (if (pieces isSep s).2 = [] then [] else [(pieces isSep s).2]) := by
  rw [runs_eq, List.filter_append]
  by_cases hnil : (pieces isSep s).2 = []
  · rw [if_pos hnil, hnil]
    rfl
  · rw [if_neg hnil, List.filter_cons_of_pos (by simpa using hnil), List.filter_nil]

theorem xargs_eq_of_fit (wish : ℕ → ℕ) (hbuf : buf.length = 512) (hnul : '\x00' ∉ input)
    (hfit : ∀ token ∈ runs input, token.length < 511) :
    xargs fixed wish buf input = commands fixed (pieces isSep input).1 := by
  rw [xargs_eq fixed wish hbuf hnul, List.takeWhile_eq_self_iff.2]
  intro token htoken
  rw [decide_eq_true_iff]
  obtain rfl | hne := eq_or_ne token []
  · exact Nat.zero_lt_succ _
  · apply hfit
    rw [runs_eq_append]
    exact List.mem_append_left _ (List.mem_filter.2 ⟨htoken, decide_eq_true hne⟩)

/-- Each word gets a command of its own, and a word at the very end gets none. So this is one
command for each line only if every line has one word, and the last word a separator behind it. -/
theorem xargs_perLine_iff (fixed : Command) (wish : ℕ → ℕ) {buf input : List Char} (hbuf : buf.length = 512)
    (hnul : '\x00' ∉ input) (hfit : ∀ token ∈ runs input, token.length < 511) :
    xargs fixed wish buf input = perLine fixed input ↔
      (∀ line ∈ lines input, (words line).length = 1) ∧ ∀ c, input.getLast? = some c → isSep c = true := by
  rw [xargs_eq_of_fit wish hbuf hnul hfit, ← pieces_rest_eq_nil, perLine, commands]
  have hruns := runs_eq_append input
  rw [runs_eq_words] at hruns
  constructor
  · intro h
    have hone : ∀ line ∈ lines input, (words line).length = 1 := by
      intro line hline
      have hmem := List.mem_map_of_mem (f := fun line => fixed ++ words line) hline
      rw [← h] at hmem
      obtain ⟨token, -, htoken⟩ := List.mem_map.1 hmem
      rw [← List.append_cancel_left htoken, List.length_singleton]
    refine ⟨hone, ?_⟩
    -- as many commands as lines, and as many words
    by_contra hrest
    have hlen := congrArg List.length h
    rw [List.length_map, List.length_map, ← length_flatMap_words hone, hruns, if_neg hrest, List.length_append,
      List.length_singleton] at hlen
    omega
  · rintro ⟨hone, hrest⟩
    rw [if_pos hrest, List.append_nil] at hruns
    rw [map_words hone, hruns]

/-- Each line has one word. -/
theorem xargs_perLine_two : xargs [['e']] (fun _ => 3) (List.replicate 512 '\x00') ['a', '\n', ' ', 'b', '\n'] =
    [[['e'], ['a']], [['e'], ['b']]] :=
  (xargs_perLine_iff _ _ List.length_replicate (by decide) (by decide)).2
    ⟨by decide, fun c hc => by cases hc; rfl⟩

/-- Two words on a line are given to two commands. -/
theorem xargs_splits_line :
    xargs [['e']] (fun _ => 100) (List.replicate 512 '\x00') ['a', ' ', 'b', '\n'] =
      [[['e'], ['a']], [['e'], ['b']]] ∧
    perLine [['e']] ['a', ' ', 'b', '\n'] = [[['e'], ['a'], ['b']]] := by
  constructor
  · rw [xargs_eq_of_fit _ List.length_replicate (by decide) (by decide)]
    decide
  · decide

end Runs

end Xv6.Xargs
