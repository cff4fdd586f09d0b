import Xv6.ShellDerivations
import Xv6.TextBuffers

/-!
# The words of a command

`nulterminate` writes into the line from which the words of the tree were taken. It writes behind
words only, where there is whitespace, an operator that has been read, or the end of the line.
-/

namespace Xv6.Shell

open TextBuffers

variable {α : Type} {text buf : List Char} {s fuel i : ℕ} {toks : List (Token Span)} {c : Cmd Span} {w : Span}

/-- The words of the commands and the names of the files. -/
def Cmd.words : Cmd α → List α
  | .exec argv => argv
  | .redir cmd file _ _ => cmd.words ++ [file]
  | .pipe left right | .list left right => left.words ++ right.words
  | .back cmd => cmd.words

def Span.slice (line : List Char) (w : Span) : List Char := (line.drop w.start).take (w.stop - w.start)

theorem words_wrap (cmd : Cmd α) (rs : List (Redir α)) : (wrap cmd rs).words = cmd.words ++ rs.map Redir.file := by
  induction rs using List.reverseRecOn with
  | nil => exact (List.append_nil _).symm
  | append_singleton rs r ih =>
    obtain ⟨op, file⟩ := r
    rw [wrap_append, List.map_append, ← List.append_assoc, ← ih]
    cases op <;> rfl

theorem words_back (cmd : Cmd α) (n : ℕ) : (Cmd.back^[n] cmd).words = cmd.words := by
  induction n generalizing cmd with
  | zero => rfl
  | succ n ih => exact ih (.back cmd)

theorem file_mem_tokens {rs : List (Redir α)} {a : α} (h : a ∈ rs.map Redir.file) :
    .word a ∈ rs.flatMap Redir.tokens := by
  obtain ⟨r, hr, rfl⟩ := List.mem_map.1 h
  exact List.mem_flatMap.2 ⟨r, hr, by simp [Redir.tokens]⟩

theorem Derives.words_mem {nt : Nonterminal} {ts : List (Token α)} {c : Cmd α} (h : Derives nt ts c) :
    ∀ a ∈ c.words, .word a ∈ ts := by
  induction h with
  | line _ n ih =>
    intro a ha
    rw [words_back] at ha
    exact List.mem_append_left _ (ih a ha)
  | list _ n _ ih ih' =>
    intro a ha
    rw [Cmd.words, words_back, List.mem_append] at ha
    rcases ha with ha | ha
    · exact List.mem_append_left _ (List.mem_append_left _ (ih a ha))
    · exact List.mem_append_right _ (List.mem_cons_of_mem _ (ih' a ha))
  | exec _ ih => exact ih
  | pipe _ _ ih ih' =>
    intro a ha
    rw [Cmd.words, List.mem_append] at ha
    rcases ha with ha | ha
    · exact List.mem_append_left _ (ih a ha)
    · exact List.mem_append_right _ (List.mem_cons_of_mem _ (ih' a ha))
  | block _ rs ih =>
    intro a ha
    rw [words_wrap, List.mem_append] at ha
    rcases ha with ha | ha
    · exact List.mem_append_left _ (List.mem_cons_of_mem _ (ih a ha))
    · exact List.mem_append_right _ (List.mem_cons_of_mem _ (file_mem_tokens ha))
  | words rs args _ =>
    intro a ha
    rw [words_wrap, Cmd.words, List.map_append, List.mem_append, List.mem_append] at ha
    rcases ha with ha | ha | ha
    · obtain ⟨arg, harg, rfl⟩ := List.mem_map.1 ha
      exact List.mem_append_right _ (List.mem_flatMap.2 ⟨arg, harg, List.mem_cons_self⟩)
    · exact List.mem_append_left _ (file_mem_tokens ha)
    · rw [List.map_flatMap] at ha
      obtain ⟨arg, harg, ha⟩ := List.mem_flatMap.1 ha
      exact List.mem_append_right _ (List.mem_flatMap.2 ⟨arg, harg, List.mem_cons_of_mem _ (file_mem_tokens ha)⟩)

/-- A word is a run of characters of words, and none follows it. -/
structure IsWord (text : List Char) (w : Span) : Prop where
  lt : w.start < w.stop
  le : w.stop ≤ text.length
  plain : ∀ k, w.start ≤ k → k < w.stop → ∃ c, text[k]? = some c ∧ isPlain c = true
  stop : ∀ c, text[w.stop]? = some c → isPlain c = false

theorem Lexes.isWord (h : Lexes text s toks) (hw : .word w ∈ toks) : IsWord text w := by
  induction h with
  | stop => cases hw
  | space _ _ _ ih => exact ih hw
  | single _ htok _ _ ih =>
    rcases List.mem_cons.1 hw with rfl | hw
    · exact absurd htok single_ne_word
    · exact ih hw
  | append _ _ _ ih =>
    rcases List.mem_cons.1 hw with hw | hw
    · cases hw
    · exact ih hw
  | word hlt hplain hstop h ih =>
    rcases List.mem_cons.1 hw with hw | hw
    · cases hw
      have := h.length_le
      exact ⟨hlt, by dsimp only; omega, hplain, hstop⟩
    · exact ih hw

theorem IsWord.apart {w' : Span} (h : IsWord text w) (h' : IsWord text w') :
    ¬ (w'.start ≤ w.stop ∧ w.stop < w'.stop) := by
  rintro ⟨hle, hlt⟩
  obtain ⟨c, hc, hplain⟩ := h'.plain _ hle hlt
  rw [h.stop c hc] at hplain
  cases hplain

theorem getElem?_setAll (stops : List ℕ) (buf : List Char) (i : ℕ) :
    (stops.foldl (fun buf e => buf.set e '\x00') buf)[i]? =
      if i ∈ stops ∧ i < buf.length then some '\x00' else buf[i]? := by
  induction stops generalizing buf with
  | nil => simp
  | cons e stops ih =>
    rw [List.foldl_cons, ih, List.length_set, List.getElem?_set]
    by_cases hi : i < buf.length
    · by_cases he : e = i
      · simp [he, hi]
      · simp [he, hi, Ne.symm he]
    · have hnone : buf[i]? = none := List.getElem?_eq_none (Nat.le_of_not_lt hi)
      simp only [hi, and_false, if_false, hnone]
      split
      · rename_i he
        rw [if_neg (he ▸ hi)]
      · rfl

theorem nulterminate_eq (c : Cmd Span) : ∀ buf,
    nulterminate c buf = (c.words.map Span.stop).foldl (fun buf e => buf.set e '\x00') buf := by
  induction c with
  | exec argv =>
    intro buf
    rw [nulterminate, Cmd.words, List.foldl_map]
  | redir cmd file mode fd ih =>
    intro buf
    rw [nulterminate, ih, Cmd.words, List.map_append, List.foldl_append]
    rfl
  | pipe left right ih ih' | list left right ih ih' =>
    intro buf
    rw [nulterminate, ih', ih, Cmd.words, List.map_append, List.foldl_append]
  | back cmd ih => exact ih

theorem getElem?_nulterminate (c : Cmd Span) (buf : List Char) (i : ℕ) :
    (nulterminate c buf)[i]? = if (∃ w ∈ c.words, w.stop = i) ∧ i < buf.length then some '\x00' else buf[i]? := by
  rw [nulterminate_eq, getElem?_setAll]
  simp only [List.mem_map]

theorem cstr_slice (hnul : '\x00' ∉ text) (hw : w.start ≤ w.stop)
    (hsame : ∀ k, w.start ≤ k → k < w.stop → buf[k]? = text[k]?) (hstop : buf[w.stop]? = some '\x00') :
    cstr buf w.start = w.slice text := by
  obtain ⟨hlt, hget⟩ := List.getElem?_eq_some_iff.1 hstop
  have htake : (buf.drop w.start).take (w.stop - w.start) = w.slice text := by
    apply List.ext_getElem?
    intro k
    rw [Span.slice, List.getElem?_take, List.getElem?_take, List.getElem?_drop, List.getElem?_drop]
    split
    · exact hsame _ (by omega) (by omega)
    · rfl
  have hnul' : '\x00' ∉ w.slice text := fun hmem => hnul (List.mem_of_mem_drop (List.mem_of_mem_take hmem))
  have hparts : buf = buf.take w.start ++ (w.slice text ++ '\x00' :: buf.drop (w.stop + 1)) := by
    rw [← htake, ← hget, ← List.drop_eq_getElem_cons hlt]
    conv_lhs => rw [← List.take_append_drop w.start buf,
      ← List.take_append_drop (w.stop - w.start) (buf.drop w.start), List.drop_drop, Nat.add_sub_cancel' hw]
  have hcstr := cstr_eq hnul' (buf.take w.start) (buf.drop (w.stop + 1))
  rwa [← hparts, List.length_take_of_le (by omega)] at hcstr

/-- Each word of the tree and each file name is a token of the line, and the string at its place is
the text of the token. The writes are behind these words, within the line and its NUL: on that NUL,
on whitespace or on an operator, and never on a character of a word. -/
theorem parsecmd_words (hnul : '\x00' ∉ text) (h : parsecmd text fuel = .ok (c, buf)) :
    ∃ toks, Lexes text 0 toks ∧
      (∀ w ∈ c.words, .word w ∈ toks ∧ cstr buf w.start = w.slice text) ∧
      (∀ w ∈ c.words, w.stop < (text ++ ['\x00']).length ∧
        (∀ d, text[w.stop]? = some d → d ∈ whitespace ∨ d ∈ symbols) ∧
        ∀ w', .word w' ∈ toks → ¬ (w'.start ≤ w.stop ∧ w.stop < w'.stop)) ∧
      ∀ i, buf[i]? ≠ (text ++ ['\x00'])[i]? → ∃ w ∈ c.words, w.stop = i := by
  obtain ⟨⟨toks, hlex, hderives⟩, rfl⟩ := parsecmd_ok hnul h
  have hword : ∀ w ∈ c.words, .word w ∈ toks := hderives.words_mem
  have his : ∀ w, .word w ∈ toks → IsWord text w := fun w hw => hlex.isWord hw
  have hlen : (text ++ ['\x00']).length = text.length + 1 := by simp
  refine ⟨toks, hlex, ?_, ?_, ?_⟩
  · intro w hw
    have hwok := his w (hword w hw)
    refine ⟨hword w hw, cstr_slice hnul hwok.lt.le ?_ ?_⟩
    · -- A character of the word is not behind any word.
      intro k hk hlt
      have hno : ¬ ∃ w' ∈ c.words, w'.stop = k := by
        rintro ⟨w', hw', rfl⟩
        exact (his w' (hword w' hw')).apart hwok ⟨hk, hlt⟩
      rw [getElem?_nulterminate, if_neg (fun hand => hno hand.1)]
      exact List.getElem?_append_left (hlt.trans_le hwok.le)
    · rw [getElem?_nulterminate, if_pos ⟨⟨w, hw, rfl⟩, by have := hwok.le; omega⟩]
  · intro w hw
    have hwok := his w (hword w hw)
    refine ⟨by have := hwok.le; omega, fun d hd => ?_, fun w' hw' => hwok.apart (his w' hw')⟩
    have hplain := hwok.stop d hd
    rw [isPlain, decide_eq_false_iff_not, not_and_or, not_not, not_not] at hplain
    exact hplain
  · intro i hi
    rw [getElem?_nulterminate] at hi
    by_contra hno
    exact hi (if_neg (fun hand => hno hand.1))

/-- `a|b>c`: the words are `a`, `b` and `c`. -/
theorem parsecmd_words_pipe : ∃ toks, Lexes ['a', '|', 'b', '>', 'c'] 0 toks ∧
    cstr ['a', '\x00', 'b', '\x00', 'c', '\x00'] 2 = (⟨2, 3⟩ : Span).slice ['a', '|', 'b', '>', 'c'] := by
  have hok : parsecmd ['a', '|', 'b', '>', 'c'] 24 = .ok (.pipe (.exec [⟨0, 1⟩])
      (.redir (.exec [⟨2, 3⟩]) ⟨4, 5⟩ oTruncate 1), ['a', '\x00', 'b', '\x00', 'c', '\x00']) := by decide +kernel
  obtain ⟨toks, hlex, hwords, -⟩ := parsecmd_words (by decide) hok
  exact ⟨toks, hlex, (hwords ⟨2, 3⟩ (by decide)).2⟩

end Xv6.Shell
