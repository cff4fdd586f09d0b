import Xv6.PanicPrograms
import Mathlib.Data.List.TakeWhile

/-!
# The tokens of the shell

`gettoken` and `peek` of `user/sh.c`. A command line is a list of characters without a NUL; a
pointer into it is an index, and the state of the parser is the index at `*ps`. Behind the last
character the line has its NUL.
-/

namespace Xv6.Shell

open PanicPrograms

/-- A word of the line: the pointers `q` and `eq` to its first character and behind its last. -/
structure Span where
  start : ℕ
  stop : ℕ
  deriving DecidableEq

inductive Failure
  | panic (text : String)
  /-- the message `leftovers` with the line from `s` on, and the panic `syntax` -/
  | leftovers (s : ℕ)
  /-- the model is out of fuel -/
  | fuel
  deriving DecidableEq

abbrev Parser (α : Type) := Program ℕ Failure α

def whitespace : List Char := [' ', '\t', '\r', '\n', '\x0b']

def symbols : List Char := ['<', '|', '>', '&', ';', '(', ')']

def isSpace (c : Char) : Bool := c ∈ whitespace

def isPlain (c : Char) : Bool := c ∉ whitespace ∧ c ∉ symbols

def charAt (text : List Char) (s : ℕ) : Char := text.getD s '\x00'

def skip (text : List Char) (p : Char → Bool) (s : ℕ) : ℕ := s + ((text.drop s).takeWhile p).length

/-- The type of the token at `s`, which is no whitespace, and its end. -/
def scan (text : List Char) (s : ℕ) : Char × ℕ :=
  match charAt text s with
  | '\x00' => ('\x00', s)
  | '|' => ('|', s + 1)
  | '(' => ('(', s + 1)
  | ')' => (')', s + 1)
  | ';' => (';', s + 1)
  | '&' => ('&', s + 1)
  | '<' => ('<', s + 1)
  | '>' => if charAt text (s + 1) = '>' then ('+', s + 2) else ('>', s + 1)
  | _ => ('a', skip text isPlain s)

def gettoken (text : List Char) : Parser (Char × Span) := do
  let s ← get
  let q := skip text isSpace s
  let (ret, eq) := scan text q
  set (skip text isSpace eq)
  pure (ret, ⟨q, eq⟩)

def peek (text : List Char) (toks : List Char) : Parser Bool := do
  let s ← get
  let s := skip text isSpace s
  set s
  pure (charAt text s ≠ '\x00' ∧ charAt text s ∈ toks)

inductive Token (α : Type)
  | bar
  | lparen
  | rparen
  | semi
  | amp
  | less
  | great
  | append
  | word (a : α)
  deriving DecidableEq

variable {α : Type}

/-- The tokens of one character. A `>` is one unless another follows it. -/
def single : Char → Option (Token α)
  | '|' => some .bar
  | '(' => some .lparen
  | ')' => some .rparen
  | ';' => some .semi
  | '&' => some .amp
  | '<' => some .less
  | '>' => some .great
  | _ => none

/-- The line from `s` on is made of these tokens: operators, and words that are as long as can be. -/
inductive Lexes (text : List Char) : ℕ → List (Token Span) → Prop
  | stop : Lexes text text.length []
  | space {s toks c} (hc : text[s]? = some c) (hspace : c ∈ whitespace) (h : Lexes text (s + 1) toks) :
    Lexes text s toks
  | single {s toks c tok} (hc : text[s]? = some c) (htok : single c = some tok)
    (hnext : c = '>' → text[s + 1]? ≠ some '>') (h : Lexes text (s + 1) toks) : Lexes text s (tok :: toks)
  | append {s toks} (hc : text[s]? = some '>') (hnext : text[s + 1]? = some '>') (h : Lexes text (s + 2) toks) :
    Lexes text s (.append :: toks)
  | word {s e toks} (hlt : s < e) (hplain : ∀ k, s ≤ k → k < e → ∃ c, text[k]? = some c ∧ isPlain c = true)
    (hstop : ∀ c, text[e]? = some c → isPlain c = false) (h : Lexes text e toks) :
    Lexes text s (.word ⟨s, e⟩ :: toks)

def Token.code : Token α → Char
  | .bar => '|'
  | .lparen => '('
  | .rparen => ')'
  | .semi => ';'
  | .amp => '&'
  | .less => '<'
  | .great => '>'
  | .append => '+'
  | .word _ => 'a'

/-- The token is an operator that starts with one of the characters. -/
def Token.starts (set : List Char) : Token α → Bool
  | .append => '>' ∈ set
  | .word _ => false
  | tok => tok.code ∈ set

variable {text : List Char} {s e : ℕ} {toks : List (Token Span)} {c : Char} {p : Char → Bool}

theorem skip_of_pos (hc : text[s]? = some c) (h : p c = true) : skip text p s = skip text p (s + 1) := by
  obtain ⟨hlt, rfl⟩ := List.getElem?_eq_some_iff.1 hc
  rw [skip, skip, List.drop_eq_getElem_cons hlt, List.takeWhile_cons_of_pos h, List.length_cons]
  omega

theorem skip_of_neg (h : ∀ c, text[s]? = some c → p c = false) : skip text p s = s := by
  rw [skip]
  cases hdrop : text.drop s with
  | nil => rfl
  | cons c l =>
    have hc : text[s]? = some c := by
      rw [← List.head?_drop, hdrop, List.head?_cons]
    rw [List.takeWhile_cons_of_neg (by rw [h c hc]; exact Bool.false_ne_true)]
    rfl

theorem skip_run (hle : s ≤ e) (hrun : ∀ k, s ≤ k → k < e → ∃ c, text[k]? = some c ∧ p c = true)
    (hstop : ∀ c, text[e]? = some c → p c = false) : skip text p s = e := by
  induction hle using Nat.decreasingInduction with
  | self => exact skip_of_neg hstop
  | of_succ k hk ih =>
    obtain ⟨c, hc, hpc⟩ := hrun k le_rfl hk
    rw [skip_of_pos hc hpc]
    exact ih (fun j hj => hrun j (by omega))

theorem charAt_eq (hc : text[s]? = some c) : charAt text s = c := by
  rw [charAt, List.getD_eq_getElem?_getD, hc, Option.getD_some]

theorem charAt_length : charAt text text.length = '\x00' := by
  rw [charAt, List.getD_eq_getElem?_getD, List.getElem?_eq_none le_rfl, Option.getD_none]

theorem isPlain_iff : isPlain c = true ↔ c ∉ whitespace ∧ c ∉ symbols := decide_eq_true_iff

theorem single_code {tok : Token Span} (h : single c = some tok) :
    tok.code = c ∧ c ∈ symbols ∧ c ≠ '\x00' ∧ ∀ set, tok.starts set = decide (c ∈ set) := by
  unfold single at h
  split at h <;> cases h <;> exact ⟨rfl, by decide, by decide, fun _ => rfl⟩

theorem isSpace_of_symbol (h : c ∈ symbols) : isSpace c = false := by
  have hall : symbols.all (fun c => !isSpace c) = true := by decide
  simpa using List.all_eq_true.1 hall c h

theorem Lexes.skip (h : Lexes text s toks) :
    Lexes text (skip text isSpace s) toks ∧ ∀ c, text[skip text isSpace s]? = some c → isSpace c = false := by
  have hhere : ∀ {s toks}, Lexes text s toks → (∀ c, text[s]? = some c → isSpace c = false) →
      Lexes text (Shell.skip text isSpace s) toks ∧
        ∀ c, text[Shell.skip text isSpace s]? = some c → isSpace c = false := by
    intro s toks h hc
    rw [skip_of_neg hc]
    exact ⟨h, hc⟩
  induction h with
  | stop =>
    apply hhere .stop
    intro c hc
    rw [List.getElem?_eq_none le_rfl] at hc
    cases hc
  | space hc hspace _ ih =>
    rw [skip_of_pos hc (decide_eq_true hspace)]
    exact ih
  | single hc htok hnext h _ =>
    apply hhere (.single hc htok hnext h)
    intro d hd
    obtain rfl := Option.some.inj (hc.symm.trans hd)
    exact isSpace_of_symbol (single_code htok).2.1
  | append hc hnext h _ =>
    apply hhere (.append hc hnext h)
    intro d hd
    obtain rfl := Option.some.inj (hc.symm.trans hd)
    rfl
  | word hlt hplain hstop h _ =>
    apply hhere (.word hlt hplain hstop h)
    intro d hd
    obtain ⟨c, hc, hpc⟩ := hplain _ le_rfl hlt
    obtain rfl := Option.some.inj (hc.symm.trans hd)
    exact decide_eq_false (isPlain_iff.1 hpc).1

def Got (text : List Char) : List (Token Span) → Char → Span → ℕ → Prop
  | [], ret, _, t => ret = '\x00' ∧ Lexes text t []
  | tok :: rest, ret, sp, t => ret = tok.code ∧ Lexes text t rest ∧ ∀ a, tok = .word a → sp = a

theorem scan_word (hnul : '\x00' ∉ text) (hlt : s < e)
    (hplain : ∀ k, s ≤ k → k < e → ∃ c, text[k]? = some c ∧ isPlain c = true)
    (hstop : ∀ c, text[e]? = some c → isPlain c = false) : scan text s = ('a', e) := by
  obtain ⟨c, hc, hpc⟩ := hplain s le_rfl hlt
  have hne : ∀ d, d ∈ '\x00' :: symbols → c ≠ d := by
    intro d hd heq
    subst heq
    rcases List.mem_cons.1 hd with rfl | hd
    · exact hnul (List.mem_of_getElem? hc)
    · exact (isPlain_iff.1 hpc).2 hd
  rw [scan, charAt_eq hc]
  split <;> first | exact absurd rfl (hne _ (by decide)) | skip
  rw [skip_run hlt.le hplain hstop]

theorem single_ne_word {a : α} : single c ≠ some (.word a) := by
  unfold single
  split <;> nofun

theorem scan_single {tok : Token Span} (hc : text[s]? = some c) (htok : single c = some tok)
    (hnext : c = '>' → text[s + 1]? ≠ some '>') : scan text s = (tok.code, s + 1) := by
  rw [scan, charAt_eq hc]
  unfold single at htok
  split at htok <;> cases htok <;> try rfl
  have hne : charAt text (s + 1) ≠ '>' := by
    intro heq
    rw [charAt, List.getD_eq_getElem?_getD] at heq
    cases hopt : text[s + 1]? with
    | none =>
      rw [hopt] at heq
      cases heq
    | some d =>
      rw [hopt] at heq
      exact hnext rfl (hopt.trans (congrArg some heq))
  exact if_neg hne

theorem Lexes.scan (hnul : '\x00' ∉ text) (h : Lexes text s toks)
    (hc : ∀ c, text[s]? = some c → isSpace c = false) :
    Got text toks (scan text s).1 ⟨s, (scan text s).2⟩ (Shell.skip text isSpace (scan text s).2) := by
  cases h with
  | stop =>
    have hscan : Shell.scan text text.length = ('\x00', text.length) := by
      rw [Shell.scan, charAt_length]
      rfl
    rw [hscan]
    exact ⟨rfl, Lexes.stop.skip.1⟩
  | space hc' hspace _ =>
    have hno := hc _ hc'
    rw [isSpace, decide_eq_false_iff_not] at hno
    exact absurd hspace hno
  | single hc' htok hnext h =>
    rw [scan_single hc' htok hnext]
    refine ⟨rfl, h.skip.1, ?_⟩
    rintro a rfl
    exact absurd htok single_ne_word
  | append hc' hnext h =>
    have hscan : Shell.scan text s = ('+', s + 2) := by
      rw [Shell.scan, charAt_eq hc']
      exact if_pos (charAt_eq hnext)
    rw [hscan]
    exact ⟨rfl, h.skip.1, nofun⟩
  | word hlt hplain hstop h =>
    rw [scan_word hnul hlt hplain hstop]
    refine ⟨rfl, h.skip.1, ?_⟩
    rintro a ⟨⟩
    rfl

theorem gettoken_ends {E : Failure → Prop} (hnul : '\x00' ∉ text) (h : Lexes text s toks) :
    Ends (gettoken text) s (fun r t => Got text toks r.1 r.2 t) E := h.skip.1.scan hnul h.skip.2

theorem Lexes.charAt (h : Lexes text s toks) (hc : ∀ c, text[s]? = some c → isSpace c = false)
    {set : List Char} (hset : set ⊆ symbols) :
    (charAt text s ≠ '\x00' ∧ charAt text s ∈ set) ↔ toks.head?.any (Token.starts set) = true := by
  cases h with
  | stop => simp [charAt_length]
  | space hc' hspace _ =>
    have hno := hc _ hc'
    rw [isSpace, decide_eq_false_iff_not] at hno
    exact absurd hspace hno
  | single hc' htok hnext h =>
    obtain ⟨-, -, hne, hstarts⟩ := single_code htok
    simp [charAt_eq hc', hne, hstarts]
  | append hc' hnext h => simp [charAt_eq hc', Token.starts]
  | word hlt hplain hstop h =>
    obtain ⟨c, hc', hpc⟩ := hplain s le_rfl hlt
    have hnot : c ∉ set := fun hmem => (isPlain_iff.1 hpc).2 (hset hmem)
    simp [charAt_eq hc', hnot, Token.starts]

theorem peek_ends {E : Failure → Prop} (h : Lexes text s toks) {set : List Char} (hset : set ⊆ symbols) :
    Ends (peek text set) s (fun b t => b = toks.head?.any (Token.starts set) ∧ Lexes text t toks) E := by
  refine ⟨?_, h.skip.1⟩
  rw [Bool.eq_iff_iff, decide_eq_true_iff]
  exact h.skip.1.charAt h.skip.2 hset

theorem skip_le (hle : s ≤ text.length) : skip text p s ≤ text.length := by
  have htake := (List.takeWhile_prefix p (l := text.drop s)).length_le
  rw [List.length_drop] at htake
  rw [skip]
  omega

theorem skip_mem {k : ℕ} (hk : s ≤ k) (hlt : k < skip text p s) : ∃ c, text[k]? = some c ∧ p c = true := by
  have hj : k - s < ((text.drop s).takeWhile p).length := by
    rw [skip] at hlt
    omega
  refine ⟨((text.drop s).takeWhile p)[k - s], ?_, List.mem_takeWhile_imp (List.getElem_mem hj)⟩
  rw [(List.takeWhile_prefix p).getElem hj]
  have hlen := (List.takeWhile_prefix p (l := text.drop s)).length_le
  rw [List.getElem_drop, List.getElem?_eq_some_iff]
  have hadd : s + (k - s) = k := by omega
  rw [List.length_drop] at hlen
  exact ⟨by omega, by simp only [hadd]⟩

theorem skip_stop (hc : text[skip text p s]? = some c) : p c = false := by
  have hnot := List.head?_dropWhile_not p (text.drop s)
  have hhead : ((text.drop s).dropWhile p).head? = some c := by
    rw [← hc, skip, ← List.getElem?_drop]
    nth_rewrite 2 [← List.takeWhile_append_dropWhile (p := p) (l := text.drop s)]
    rw [List.getElem?_append_right le_rfl, Nat.sub_self, List.head?_eq_getElem?]
  rw [hhead] at hnot
  simpa using hnot

theorem exists_lexes (text : List Char) (hle : s ≤ text.length) : ∃ toks, Lexes text s toks := by
  induction hn : text.length - s using Nat.strong_induction_on generalizing s with
  | _ n ih =>
    have hnext : ∀ t, s < t → t ≤ text.length → ∃ toks, Lexes text t toks :=
      fun t hlt hle => ih (text.length - t) (by omega) hle rfl
    rcases hle.eq_or_lt with rfl | hlt
    · exact ⟨[], .stop⟩
    have hc : text[s]? = some text[s] := List.getElem?_eq_getElem hlt
    obtain ⟨toks, htoks⟩ := hnext (s + 1) (Nat.lt_succ_self s) hlt
    by_cases hspace : text[s] ∈ whitespace
    · exact ⟨toks, .space hc hspace htoks⟩
    by_cases hsym : text[s] ∈ symbols
    · by_cases happ : text[s] = '>' ∧ text[s + 1]? = some '>'
      · have hlt2 := (List.getElem?_eq_some_iff.1 happ.2).1
        obtain ⟨toks, htoks⟩ := hnext (s + 2) (by omega) hlt2
        exact ⟨_, .append (hc.trans (congrArg some happ.1)) happ.2 htoks⟩
      · obtain ⟨tok, htok⟩ : ∃ tok : Token Span, single text[s] = some tok := by
          revert hsym
          generalize text[s] = c
          intro hsym
          simp only [symbols, List.mem_cons, List.not_mem_nil, or_false] at hsym
          rcases hsym with rfl | rfl | rfl | rfl | rfl | rfl | rfl <;> exact ⟨_, rfl⟩
        exact ⟨_, .single hc htok (fun heq hnext => happ ⟨heq, hnext⟩) htoks⟩
    · have hplain : isPlain text[s] = true := isPlain_iff.2 ⟨hspace, hsym⟩
      have hskip : s < skip text isPlain s := by
        rw [skip_of_pos hc hplain, skip]
        omega
      obtain ⟨toks, htoks⟩ := hnext (skip text isPlain s) hskip (skip_le hle)
      exact ⟨_, .word hskip (fun k => skip_mem) (fun c => skip_stop) htoks⟩

theorem Lexes.length_le (h : Lexes text s toks) : s + toks.length ≤ text.length := by
  induction h with
  | stop => exact le_rfl
  | space _ _ _ ih => omega
  | single _ _ _ _ ih | append _ _ _ ih | word _ _ _ _ ih =>
    rw [List.length_cons]
    omega

end Xv6.Shell
