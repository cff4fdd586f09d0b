import Xv6.ShellGrammar

/-!
# Derivations and the parser of the shell

A line that is derived from the grammar is parsed, to the tree of its derivation. The parser looks
one token ahead: what may follow a nonterminal tells it where to stop.
-/

namespace Xv6.Shell

open PanicPrograms FileSystem

variable {text : List Char} {s fuel : ℕ} {toks ts rest : List (Token Span)} {cmd c : Cmd Span} {nt : Nonterminal}

/-- The first characters of the tokens that may follow. -/
def Nonterminal.follow : Nonterminal → List Char
  | .line => [')']
  | .pipe => [')', '&', ';']
  | .exec => ['|', ')', '&', ';']

def Follows (nt : Nonterminal) (rest : List (Token Span)) : Prop :=
  ∀ tok, rest.head? = some tok → tok.starts nt.follow = true

/-- None of the tokens that may follow starts with a character of `set`. -/
theorem Follows.not_starts (h : Follows nt rest) {set : List Char}
    (hset : nt.follow.all (fun c => decide (c ∉ set)) = true) :
    rest.head?.any (Token.starts set) = false := by
  cases rest with
  | nil => rfl
  | cons tok rest =>
    have hstarts := h tok rfl
    have hmem : ∀ {d}, decide (d ∈ nt.follow) = true → decide (d ∈ set) = false :=
      fun hd => decide_eq_false (of_decide_eq_true (List.all_eq_true.1 hset _ (of_decide_eq_true hd)))
    cases tok with
    | word a => rfl
    | _ => exact hmem hstarts

theorem follows_cons {tok : Token Span} (h : tok.starts nt.follow = true) : Follows nt (tok :: rest) := by
  rintro _ ⟨⟩
  exact h

theorem Follows.mono {nt' : Nonterminal} (h : Follows nt rest) (hsub : nt.follow ⊆ nt'.follow) :
    Follows nt' rest := by
  intro tok htok
  have hstarts := h tok htok
  have hmem : ∀ {d}, decide (d ∈ nt.follow) = true → decide (d ∈ nt'.follow) = true :=
    fun hd => decide_eq_true (hsub (of_decide_eq_true hd))
  cases tok with
  | word a => cases hstarts
  | _ => exact hmem hstarts

theorem follows_amps (n : ℕ) (h : Follows .pipe rest) : Follows .pipe (List.replicate n .amp ++ rest) := by
  cases n with
  | zero => exact h
  | succ n => exact follows_cons rfl

theorem peek_true {E : Failure → Prop} {tok : Token Span} {set : List Char} (h : Lexes text s (tok :: rest))
    (hset : set ⊆ symbols) (hstarts : tok.starts set = true) :
    Ends (peek text set) s (fun b t => b = true ∧ Lexes text t (tok :: rest)) E := by
  refine (peek_ends h hset).imp ?_
  rintro b t ⟨rfl, ht⟩
  exact ⟨hstarts, ht⟩

theorem peek_false {E : Failure → Prop} {set : List Char} (h : Lexes text s toks) (hset : set ⊆ symbols)
    (hno : toks.head?.any (Token.starts set) = false) :
    Ends (peek text set) s (fun b t => b = false ∧ Lexes text t toks) E := by
  refine (peek_ends h hset).imp ?_
  rintro b t ⟨rfl, ht⟩
  exact ⟨hno, ht⟩

theorem length_redirTokens (rs : List (Redir Span)) : (rs.flatMap Redir.tokens).length = 2 * rs.length := by
  induction rs with
  | nil => rfl
  | cons r rs ih =>
    rw [List.flatMap_cons, List.length_append, ih, List.length_cons]
    simp only [Redir.tokens, List.length_cons, List.length_nil]
    omega

section Complete

variable (hnul : '\x00' ∉ text)

include hnul

theorem parseredirs_complete {rs : List (Redir Span)} (hrest : rest.head?.any (Token.starts ['<', '>']) = false)
    (h : Lexes text s (rs.flatMap Redir.tokens ++ rest)) (hfuel : rs.length < fuel) :
    Ends (parseredirs text fuel cmd) s (fun c t => c = wrap cmd rs ∧ Lexes text t rest) (fun _ => False) := by
  induction rs generalizing fuel s cmd with
  | nil =>
    obtain ⟨fuel, rfl⟩ := Nat.exists_eq_add_one_of_ne_zero (Nat.ne_zero_of_lt hfuel)
    rw [parseredirs]
    refine (peek_false h (by decide) hrest).bind ?_
    rintro b t ⟨rfl, ht⟩
    exact ⟨rfl, ht⟩
  | cons r rs ih =>
    obtain ⟨fuel, rfl⟩ := Nat.exists_eq_add_one_of_ne_zero (Nat.ne_zero_of_lt hfuel)
    have hturn : ∀ {t}, Lexes text t (rs.flatMap Redir.tokens ++ rest) →
        Ends (parseredirs text fuel (Redir.node cmd r)) t (fun c t => c = wrap cmd (r :: rs) ∧ Lexes text t rest)
          (fun _ => False) := fun ht => ih ht (Nat.lt_of_succ_lt_succ hfuel)
    obtain ⟨op, file⟩ := r
    rw [List.flatMap_cons, List.append_assoc] at h
    rw [parseredirs, ends_bind]
    have hstarts : (op.token : Token Span).starts ['<', '>'] = true := by cases op <;> rfl
    refine (peek_true h (by decide) hstarts).imp ?_
    rintro b t ⟨rfl, ht⟩
    rw [if_pos rfl]
    refine (gettoken_ends hnul ht).bind ?_
    rintro ⟨ret, sp⟩ u ⟨rfl, hu, -⟩
    refine (gettoken_ends hnul hu).bind ?_
    rintro ⟨ret, sp⟩ w ⟨rfl, hw, hfile⟩
    obtain rfl : sp = file := hfile file rfl
    refine ends_ite (fun hne => absurd rfl hne) (fun _ => ?_)
    cases op with
    | input | output | append => exact hturn hw

theorem parseargs_complete {args : List (Span × List (Redir Span))} {argv : List Span} {rs : List (Redir Span)}
    (hrest : Follows .exec rest) (h : Lexes text s (args.flatMap argTokens ++ rest))
    (hargs : argv.length + args.length < maxArgs) (hfuel : (args.flatMap argTokens).length < fuel) :
    Ends (parseargs text fuel argv.length (wrap (.exec argv) rs)) s
      (fun c t => c = wrap (.exec (argv ++ args.map Prod.fst)) (rs ++ args.flatMap Prod.snd) ∧ Lexes text t rest)
      (fun _ => False) := by
  induction args generalizing fuel s argv rs with
  | nil =>
    obtain ⟨fuel, rfl⟩ := Nat.exists_eq_add_one_of_ne_zero (Nat.ne_zero_of_lt hfuel)
    have hdone : ∀ {t}, Lexes text t rest →
        wrap (.exec argv) rs = wrap (.exec (argv ++ [])) (rs ++ []) ∧ Lexes text t rest := by
      intro t ht
      rw [List.append_nil, List.append_nil]
      exact ⟨rfl, ht⟩
    rw [parseargs, ends_bind]
    cases rest with
    | nil =>
      refine (peek_false h (by decide) rfl).imp ?_
      rintro b t ⟨rfl, ht⟩
      rw [if_neg Bool.false_ne_true]
      refine (gettoken_ends hnul ht).bind ?_
      rintro ⟨ret, sp⟩ u ⟨rfl, hu⟩
      exact hdone hu
    | cons tok rest =>
      refine (peek_true h (by decide) (hrest tok rfl)).imp ?_
      rintro b t ⟨rfl, ht⟩
      exact hdone ht
  | cons arg args ih =>
    obtain ⟨fuel, rfl⟩ := Nat.exists_eq_add_one_of_ne_zero (Nat.ne_zero_of_lt hfuel)
    obtain ⟨a, rs'⟩ := arg
    simp only [List.flatMap_cons, argTokens, List.cons_append, List.append_assoc, List.length_cons,
      List.length_append] at h hfuel hargs
    rw [parseargs]
    refine (peek_false h (by decide) rfl).bind ?_
    rintro b t ⟨rfl, ht⟩
    rw [if_neg Bool.false_ne_true]
    refine (gettoken_ends hnul ht).bind ?_
    rintro ⟨ret, sp⟩ u ⟨rfl, hu, hword⟩
    obtain rfl : sp = a := hword a rfl
    refine ends_ite (fun hcode => by cases hcode) (fun _ => ?_)
    refine ends_ite (fun hne => absurd rfl hne) (fun _ => ?_)
    refine ends_ite (fun hmax => by omega) (fun _ => ?_)
    rw [addArg_wrap, ends_bind]
    have hnext : (args.flatMap argTokens ++ rest).head?.any (Token.starts ['<', '>']) = false := by
      cases args with
      | nil => exact hrest.not_starts (by decide)
      | cons arg args => rfl
    have hlen := length_redirTokens rs'
    refine (parseredirs_complete hnul hnext hu (by omega)).imp ?_
    rintro _ w ⟨rfl, hw⟩
    have hargv : (argv ++ [sp]).length = argv.length + 1 := by simp
    rw [← wrap_append, ← hargv]
    refine (ih hw (by omega) (by omega)).imp ?_
    rintro c t ⟨rfl, ht⟩
    exact ⟨by simp, ht⟩

theorem parseback_complete {n : ℕ} (hrest : rest.head?.any (Token.starts ['&']) = false)
    (h : Lexes text s (List.replicate n .amp ++ rest)) (hfuel : n < fuel) :
    Ends (parseback text fuel cmd) s (fun c t => c = Cmd.back^[n] cmd ∧ Lexes text t rest) (fun _ => False) := by
  induction n generalizing fuel s cmd with
  | zero =>
    obtain ⟨fuel, rfl⟩ := Nat.exists_eq_add_one_of_ne_zero (Nat.ne_zero_of_lt hfuel)
    rw [parseback]
    refine (peek_false h (by decide) hrest).bind ?_
    rintro b t ⟨rfl, ht⟩
    exact ⟨rfl, ht⟩
  | succ n ih =>
    obtain ⟨fuel, rfl⟩ := Nat.exists_eq_add_one_of_ne_zero (Nat.ne_zero_of_lt hfuel)
    rw [List.replicate_succ, List.cons_append] at h
    rw [parseback]
    refine (peek_true h (by decide) rfl).bind ?_
    rintro b t ⟨rfl, ht⟩
    rw [if_pos rfl]
    refine (gettoken_ends hnul ht).bind ?_
    rintro _ u ⟨-, hu, -⟩
    exact ih hu (Nat.lt_of_succ_lt_succ hfuel)

def Nonterminal.parse (text : List Char) : Nonterminal → ℕ → Parser (Cmd Span)
  | .line => parseline text
  | .pipe => parsepipe text
  | .exec => parseexec text

def Nonterminal.depth : Nonterminal → ℕ
  | .line => 4
  | .pipe => 3
  | .exec => 2

def Finds (text : List Char) (nt : Nonterminal) (ts : List (Token Span)) (c : Cmd Span) : Prop :=
  ∀ rest s fuel, Follows nt rest → Lexes text s (ts ++ rest) → 4 * ts.length + nt.depth ≤ fuel →
    Ends (nt.parse text fuel) s (fun c' t => c' = c ∧ Lexes text t rest) (fun _ => False)

theorem Finds.line (h : Finds text .pipe ts c) (n : ℕ) :
    Finds text .line (ts ++ List.replicate n .amp) (Cmd.back^[n] c) := by
  intro rest s fuel hrest hs hfuel
  simp only [List.length_append, List.length_replicate, Nonterminal.depth, List.append_assoc] at hfuel hs
  obtain ⟨fuel, rfl⟩ : ∃ m, fuel = m + 1 := ⟨fuel - 1, by omega⟩
  have hfollow : Follows .pipe (List.replicate n .amp ++ rest) := follows_amps n (hrest.mono (by decide))
  have hdepth : 4 * ts.length + Nonterminal.pipe.depth ≤ fuel := by
    rw [Nonterminal.depth]
    omega
  rw [Nonterminal.parse, parseline]
  refine (h _ s fuel hfollow hs hdepth).bind ?_
  rintro _ t ⟨rfl, ht⟩
  refine (parseback_complete hnul (hrest.not_starts (by decide)) ht (by omega)).bind ?_
  rintro _ u ⟨rfl, hu⟩
  refine (peek_false hu (by decide) (hrest.not_starts (by decide))).bind ?_
  rintro b w ⟨rfl, hw⟩
  exact ⟨rfl, hw⟩

theorem Finds.list {ts' : List (Token Span)} {c' : Cmd Span} (h : Finds text .pipe ts c) (n : ℕ)
    (h' : Finds text .line ts' c') :
    Finds text .line (ts ++ List.replicate n .amp ++ .semi :: ts') (.list (Cmd.back^[n] c) c') := by
  intro rest s fuel hrest hs hfuel
  simp only [List.length_append, List.length_replicate, List.length_cons, Nonterminal.depth, List.append_assoc,
    List.cons_append] at hfuel hs
  obtain ⟨fuel, rfl⟩ : ∃ m, fuel = m + 1 := ⟨fuel - 1, by omega⟩
  have hfollow : Follows .pipe (List.replicate n .amp ++ .semi :: (ts' ++ rest)) :=
    follows_amps n (follows_cons rfl)
  have hdepth : 4 * ts.length + Nonterminal.pipe.depth ≤ fuel := by
    rw [Nonterminal.depth]
    omega
  have hdepth' : 4 * ts'.length + Nonterminal.line.depth ≤ fuel := by
    rw [Nonterminal.depth]
    omega
  rw [Nonterminal.parse, parseline]
  refine (h _ s fuel hfollow hs hdepth).bind ?_
  rintro _ t ⟨rfl, ht⟩
  refine (parseback_complete hnul rfl ht (by omega)).bind ?_
  rintro _ u ⟨rfl, hu⟩
  refine (peek_true hu (by decide) rfl).bind ?_
  rintro b w ⟨rfl, hw⟩
  rw [if_pos rfl]
  refine (gettoken_ends hnul hw).bind ?_
  rintro _ w ⟨-, hw, -⟩
  refine (h' rest w fuel hrest hw hdepth').bind ?_
  rintro _ v ⟨rfl, hv⟩
  exact ⟨rfl, hv⟩

omit hnul in
theorem Finds.exec (h : Finds text .exec ts c) : Finds text .pipe ts c := by
  intro rest s fuel hrest hs hfuel
  simp only [Nonterminal.depth] at hfuel
  obtain ⟨fuel, rfl⟩ : ∃ m, fuel = m + 1 := ⟨fuel - 1, by omega⟩
  rw [Nonterminal.parse, parsepipe]
  refine (h rest s fuel (hrest.mono (by decide)) hs (Nat.le_of_succ_le_succ hfuel)).bind ?_
  rintro _ t ⟨rfl, ht⟩
  refine (peek_false ht (by decide) (hrest.not_starts (by decide))).bind ?_
  rintro b u ⟨rfl, hu⟩
  exact ⟨rfl, hu⟩

theorem Finds.pipe {ts' : List (Token Span)} {c' : Cmd Span} (h : Finds text .exec ts c)
    (h' : Finds text .pipe ts' c') : Finds text .pipe (ts ++ .bar :: ts') (.pipe c c') := by
  intro rest s fuel hrest hs hfuel
  simp only [List.length_append, List.length_cons, Nonterminal.depth, List.append_assoc, List.cons_append]
    at hfuel hs
  obtain ⟨fuel, rfl⟩ : ∃ m, fuel = m + 1 := ⟨fuel - 1, by omega⟩
  have hdepth : 4 * ts.length + Nonterminal.exec.depth ≤ fuel := by
    rw [Nonterminal.depth]
    omega
  have hdepth' : 4 * ts'.length + Nonterminal.pipe.depth ≤ fuel := by
    rw [Nonterminal.depth]
    omega
  rw [Nonterminal.parse, parsepipe]
  refine (h _ s fuel (follows_cons rfl) hs hdepth).bind ?_
  rintro _ t ⟨rfl, ht⟩
  refine (peek_true ht (by decide) rfl).bind ?_
  rintro b u ⟨rfl, hu⟩
  rw [if_pos rfl]
  refine (gettoken_ends hnul hu).bind ?_
  rintro _ w ⟨-, hw, -⟩
  refine (h' rest w fuel hrest hw hdepth').bind ?_
  rintro _ v ⟨rfl, hv⟩
  exact ⟨rfl, hv⟩

theorem Finds.block (h : Finds text .line ts c) (rs : List (Redir Span)) :
    Finds text .exec (.lparen :: ts ++ .rparen :: rs.flatMap Redir.tokens) (wrap c rs) := by
  intro rest s fuel hrest hs hfuel
  have hlen := length_redirTokens rs
  simp only [List.length_append, List.length_cons, Nonterminal.depth, List.append_assoc, List.cons_append]
    at hfuel hs
  obtain ⟨fuel, rfl⟩ : ∃ m, fuel = m + 2 := ⟨fuel - 2, by omega⟩
  have hdepth : 4 * ts.length + Nonterminal.line.depth ≤ fuel := by
    rw [Nonterminal.depth]
    omega
  rw [Nonterminal.parse, parseexec]
  refine (peek_true hs (by decide) rfl).bind ?_
  rintro b t ⟨rfl, ht⟩
  rw [if_pos rfl, parseblock]
  refine (peek_true ht (by decide) rfl).bind ?_
  rintro b t ⟨rfl, ht⟩
  rw [if_pos rfl]
  refine (gettoken_ends hnul ht).bind ?_
  rintro _ u ⟨-, hu, -⟩
  refine (h _ u fuel (follows_cons rfl) hu hdepth).bind ?_
  rintro _ w ⟨rfl, hw⟩
  refine (peek_true hw (by decide) rfl).bind ?_
  rintro b w ⟨rfl, hw⟩
  rw [if_pos rfl]
  refine (gettoken_ends hnul hw).bind ?_
  rintro _ v ⟨-, hv, -⟩
  exact parseredirs_complete hnul (hrest.not_starts (by decide)) hv (by omega)

theorem finds_words (rs : List (Redir Span)) (args : List (Span × List (Redir Span)))
    (hargs : args.length ≤ maxArgs - 1) :
    Finds text .exec (rs.flatMap Redir.tokens ++ args.flatMap argTokens)
      (wrap (.exec (args.map Prod.fst)) (rs ++ args.flatMap Prod.snd)) := by
  intro rest s fuel hrest hs hfuel
  have hlen := length_redirTokens rs
  simp only [List.length_append, Nonterminal.depth, List.append_assoc] at hfuel hs
  obtain ⟨fuel, rfl⟩ : ∃ m, fuel = m + 1 := ⟨fuel - 1, by omega⟩
  -- Behind the first redirections comes a word, or what follows the command.
  have hnext : ∀ {set : List Char}, Nonterminal.exec.follow.all (fun d => decide (d ∉ set)) = true →
      (args.flatMap argTokens ++ rest).head?.any (Token.starts set) = false := by
    intro set hset
    cases args with
    | nil => exact hrest.not_starts hset
    | cons arg args => rfl
  have hopen : (rs.flatMap Redir.tokens ++ (args.flatMap argTokens ++ rest)).head?.any
      (Token.starts ['(']) = false := by
    cases rs with
    | nil => exact hnext (by decide)
    | cons r rs =>
      obtain ⟨op, file⟩ := r
      cases op <;> rfl
  rw [Nonterminal.parse, parseexec]
  refine (peek_false hs (by decide) hopen).bind ?_
  rintro b t ⟨rfl, ht⟩
  rw [if_neg Bool.false_ne_true]
  refine (parseredirs_complete hnul (hnext (by decide)) ht (by omega)).bind ?_
  rintro _ u ⟨rfl, hu⟩
  have hcount : ([] : List Span).length + args.length < maxArgs := by
    simp only [List.length_nil, maxArgs] at hargs ⊢
    omega
  exact parseargs_complete hnul hrest hu hcount (by omega)

theorem Derives.finds (h : Derives nt ts c) : Finds text nt ts c := by
  induction h with
  | line _ n ih => exact ih.line hnul n
  | list _ n _ ih ih' => exact ih.list hnul n ih'
  | exec _ ih => exact ih.exec
  | pipe _ _ ih ih' => exact ih.pipe hnul ih'
  | block _ rs ih => exact ih.block hnul rs
  | words rs args hlen => exact finds_words hnul rs args hlen

end Complete

theorem Lexes.eq_nil (h : Lexes text s toks) (hs : s = text.length) : toks = [] := by
  have hle := h.length_le
  exact List.eq_nil_of_length_eq_zero (by omega)

theorem Lexes.skip_nil (h : Lexes text s []) : Shell.skip text isSpace s = text.length := by
  obtain ⟨hq, hspace⟩ := h.skip
  generalize Shell.skip text isSpace s = q at hq hspace
  cases hq with
  | stop => rfl
  | space hc hmem _ =>
    have hno := hspace _ hc
    rw [isSpace, decide_eq_false_iff_not] at hno
    exact absurd hmem hno

theorem parsecmd_ok {buf : List Char} (hnul : '\x00' ∉ text) (h : parsecmd text fuel = .ok (c, buf)) :
    (∃ toks, Lexes text 0 toks ∧ Derives .line toks c) ∧ buf = nulterminate c (text ++ ['\x00']) := by
  obtain ⟨toks, htoks⟩ := exists_lexes text (Nat.zero_le text.length)
  have hsound := (parse_sound hnul fuel).1 0 toks htoks
  rw [parsecmd] at h
  split at h
  · cases h
  · rename_i cmd s hparse
    obtain ⟨ts, rest, rfl, hs, hderives⟩ := hsound.of_ok hparse
    dsimp only at h
    split at h
    · cases h
    · rename_i hend
      obtain ⟨rfl, rfl⟩ := Prod.mk.inj (Except.ok.inj h)
      obtain rfl := hs.skip.1.eq_nil (not_not.1 hend)
      rw [List.append_nil] at htoks
      exact ⟨⟨ts, htoks, hderives⟩, rfl⟩

theorem parsecmd_fuel (hnul : '\x00' ∉ text) (hfuel : 4 * text.length + 4 ≤ fuel) :
    parsecmd text fuel ≠ .error .fuel := by
  obtain ⟨toks, htoks⟩ := exists_lexes text (Nat.zero_le text.length)
  have hlen := htoks.length_le
  intro h
  rw [parsecmd] at h
  split at h
  · rename_i hparse
    obtain rfl := Except.error.inj h
    have := (((parse_sound hnul fuel).1 0 toks htoks).of_error hparse) rfl
    omega
  · dsimp only at h
    split at h <;> cases h

theorem Derives.parsed (hnul : '\x00' ∉ text) (hfuel : 4 * text.length + 4 ≤ fuel) (hlex : Lexes text 0 toks)
    (h : Derives .line toks c) : ∃ buf, parsecmd text fuel = .ok (c, buf) := by
  have hlen := hlex.length_le
  have hfollow : Follows .line ([] : List (Token Span)) := fun tok htok => nomatch htok
  have hdepth : 4 * toks.length + Nonterminal.line.depth ≤ fuel := by
    rw [Nonterminal.depth]
    omega
  obtain ⟨c', s, hparse, hc, hs⟩ := (h.finds hnul [] 0 fuel hfollow (by rwa [List.append_nil]) hdepth).exists_ok
  have hparse : parseline text fuel 0 = .ok (c, s) := hc ▸ hparse
  refine ⟨nulterminate c (text ++ ['\x00']), ?_⟩
  rw [parsecmd, hparse]
  exact if_neg (not_not.2 hs.skip_nil)

/-- The shell's parser comes to an end on every line. It returns a tree if and only if that is the
tree of a derivation of the whole line. -/
theorem parsecmd_grammar (hnul : '\x00' ∉ text) (hfuel : 4 * text.length + 4 ≤ fuel) :
    parsecmd text fuel ≠ .error .fuel ∧
      ∀ c, (∃ buf, parsecmd text fuel = .ok (c, buf)) ↔ ∃ toks, Lexes text 0 toks ∧ Derives .line toks c := by
  refine ⟨parsecmd_fuel hnul hfuel, fun c => ?_⟩
  constructor
  · rintro ⟨buf, hok⟩
    exact (parsecmd_ok hnul hok).1
  · rintro ⟨toks, hlex, hderives⟩
    exact hderives.parsed hnul hfuel hlex

/-- `a|b>c`. -/
theorem parsecmd_grammar_pipe : ∃ toks, Lexes ['a', '|', 'b', '>', 'c'] 0 toks ∧
    Derives .line toks (.pipe (.exec [⟨0, 1⟩]) (.redir (.exec [⟨2, 3⟩]) ⟨4, 5⟩ oTruncate 1)) := by
  have hfuel : 4 * ['a', '|', 'b', '>', 'c'].length + 4 ≤ 24 := by decide
  refine ((parsecmd_grammar (by decide) hfuel).2 _).1 ⟨['a', '\x00', 'b', '\x00', 'c', '\x00'], ?_⟩
  decide +kernel

end Xv6.Shell
