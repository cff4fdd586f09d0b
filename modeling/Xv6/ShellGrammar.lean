import Xv6.ShellParser

/-!
# The grammar of the shell

`line = pipe &* [; line]`, `pipe = exec [| pipe]`, `exec = ( line ) redir*` or
`redir* (word redir*)*`, `redir = (< or > or >>) word`, with the tree of each derivation. The parser
returns a tree if and only if it is the tree of a derivation of the whole line.
-/

namespace Xv6.Shell

open PanicPrograms FileSystem

inductive RedirOp
  | input
  | output
  | append

structure Redir (α : Type) where
  op : RedirOp
  file : α

inductive Nonterminal
  | line
  | pipe
  | exec

variable {α : Type}

def RedirOp.token : RedirOp → Token α
  | .input => .less
  | .output => .great
  | .append => .append

def Redir.tokens (r : Redir α) : List (Token α) := [r.op.token, .word r.file]

def Redir.node (cmd : Cmd α) (r : Redir α) : Cmd α :=
  match r.op with
  | .input => .redir cmd r.file oRdonly 0
  | .output => .redir cmd r.file oTruncate 1
  | .append => .redir cmd r.file oAppend 1

/-- The nodes for redirections, the last one outermost. -/
def wrap (cmd : Cmd α) (rs : List (Redir α)) : Cmd α := rs.foldl Redir.node cmd

/-- A word with the redirections behind it. -/
def argTokens (arg : α × List (Redir α)) : List (Token α) := .word arg.1 :: arg.2.flatMap Redir.tokens

inductive Derives : Nonterminal → List (Token α) → Cmd α → Prop
  | line {ts c} (h : Derives .pipe ts c) (n : ℕ) :
    Derives .line (ts ++ List.replicate n .amp) (Cmd.back^[n] c)
  | list {ts c ts' c'} (h : Derives .pipe ts c) (n : ℕ) (h' : Derives .line ts' c') :
    Derives .line (ts ++ List.replicate n .amp ++ .semi :: ts') (.list (Cmd.back^[n] c) c')
  | exec {ts c} (h : Derives .exec ts c) : Derives .pipe ts c
  | pipe {ts c ts' c'} (h : Derives .exec ts c) (h' : Derives .pipe ts' c') :
    Derives .pipe (ts ++ .bar :: ts') (.pipe c c')
  | block {ts c} (h : Derives .line ts c) (rs : List (Redir α)) :
    Derives .exec (.lparen :: ts ++ .rparen :: rs.flatMap Redir.tokens) (wrap c rs)
  | words (rs : List (Redir α)) (args : List (α × List (Redir α))) (hlen : args.length ≤ maxArgs - 1) :
    Derives .exec (rs.flatMap Redir.tokens ++ args.flatMap argTokens)
      (wrap (.exec (args.map Prod.fst)) (rs ++ args.flatMap Prod.snd))

variable {text : List Char} {s fuel : ℕ} {toks rest : List (Token Span)} {cmd : Cmd Span}

theorem wrap_append (cmd : Cmd α) (rs rs' : List (Redir α)) : wrap cmd (rs ++ rs') = wrap (wrap cmd rs) rs' :=
  List.foldl_append

theorem addArg_wrap (a : α) (argv : List α) (rs : List (Redir α)) :
    (wrap (.exec argv) rs).addArg a = wrap (.exec (argv ++ [a])) rs := by
  induction rs using List.reverseRecOn with
  | nil => rfl
  | append_singleton rs r ih =>
    rw [wrap_append, wrap_append, ← ih]
    obtain ⟨op, file⟩ := r
    cases op <;> rfl

theorem exists_head {set : List Char} (h : toks.head?.any (Token.starts set) = true) :
    ∃ tok rest, toks = tok :: rest ∧ tok.starts set = true := by
  cases toks with
  | nil => cases h
  | cons tok rest => exact ⟨tok, rest, rfl, by simpa using h⟩

theorem exists_redirOp {tok : Token α} (h : tok.starts ['<', '>'] = true) : ∃ op : RedirOp, tok = op.token := by
  cases tok with
  | less => exact ⟨.input, rfl⟩
  | great => exact ⟨.output, rfl⟩
  | append => exact ⟨.append, rfl⟩
  | _ => cases h

theorem code_eq_word {tok : Token α} (h : tok.code = 'a') : ∃ a, tok = .word a := by
  cases tok with
  | word a => exact ⟨a, rfl⟩
  | _ => cases h

section Sound

variable (hnul : '\x00' ∉ text)

include hnul

/-- The tokens of a redirection, and the turn of the loop that takes them. -/
theorem parseredirs_sound (h : Lexes text s toks) : Ends (parseredirs text fuel cmd) s
    (fun c t => ∃ rs rest, toks = rs.flatMap Redir.tokens ++ rest ∧ Lexes text t rest ∧ c = wrap cmd rs)
    (fun e => e = .fuel → fuel ≤ toks.length) := by
  induction fuel generalizing s toks cmd with
  | zero => exact fun _ => Nat.zero_le _
  | succ fuel ih =>
    rw [parseredirs]
    refine (peek_ends h (by decide)).bind ?_
    rintro b t ⟨rfl, ht⟩
    apply ends_ite
    · intro hstarts
      obtain ⟨tok, rest, rfl, hstarts⟩ := exists_head hstarts
      obtain ⟨op, rfl⟩ := exists_redirOp hstarts
      refine (gettoken_ends hnul ht).bind ?_
      rintro ⟨ret, sp⟩ u ⟨rfl, hu, -⟩
      refine (gettoken_ends hnul hu).bind ?_
      rintro ⟨ret, file⟩ w hgot
      apply ends_ite
      · exact fun _ he => nomatch he
      intro hword
      obtain rfl : ret = 'a' := not_not.1 hword
      cases rest with
      | nil => cases hgot.1
      | cons tok rest =>
        obtain ⟨hcode, hw, hfile⟩ := hgot
        obtain ⟨a, rfl⟩ := code_eq_word hcode.symm
        obtain rfl := hfile a rfl
        have hturn : ∀ cmd', cmd' = Redir.node cmd ⟨op, file⟩ → Ends (parseredirs text fuel cmd') w
            (fun c t => ∃ rs rest', op.token :: .word file :: rest = rs.flatMap Redir.tokens ++ rest' ∧
              Lexes text t rest' ∧ c = wrap cmd rs)
            (fun e => e = .fuel → fuel + 1 ≤ (op.token :: .word file :: rest).length) := by
          rintro cmd' rfl
          refine (ih hw).mono ?_ ?_
          · rintro c t ⟨rs, rest', rfl, ht, rfl⟩
            exact ⟨⟨op, file⟩ :: rs, rest', rfl, ht, rfl⟩
          · intro e he hfuel
            have := he hfuel
            simp only [List.length_cons]
            omega
        cases op with
        | input | output | append => exact hturn _ rfl
    · intro _
      exact ⟨[], toks, rfl, ht, rfl⟩

theorem parseargs_sound {argv : List Span} {rs : List (Redir Span)} (hargs : argv.length < maxArgs)
    (h : Lexes text s toks) : Ends (parseargs text fuel argv.length (wrap (.exec argv) rs)) s
    (fun c t => ∃ (args : List (Span × List (Redir Span))) (rest : List (Token Span)),
      toks = args.flatMap argTokens ++ rest ∧ Lexes text t rest ∧
      argv.length + args.length < maxArgs ∧
      c = wrap (.exec (argv ++ args.map Prod.fst)) (rs ++ args.flatMap Prod.snd))
    (fun e => e = .fuel → fuel ≤ toks.length) := by
  induction fuel generalizing s toks argv rs with
  | zero => exact fun _ => Nat.zero_le _
  | succ fuel ih =>
    have hdone : ∀ {t}, Lexes text t toks →
      ∃ (args : List (Span × List (Redir Span))) (rest : List (Token Span)),
      toks = args.flatMap argTokens ++ rest ∧ Lexes text t rest ∧
        argv.length + args.length < maxArgs ∧
        wrap (.exec argv) rs = wrap (.exec (argv ++ args.map Prod.fst)) (rs ++ args.flatMap Prod.snd) := by
      intro t ht
      exact ⟨[], toks, rfl, ht, hargs, by simp⟩
    rw [parseargs]
    refine (peek_ends h (by decide)).bind ?_
    rintro b t ⟨rfl, ht⟩
    apply ends_ite
    · exact fun _ => hdone ht
    intro _
    refine (gettoken_ends hnul ht).bind ?_
    rintro ⟨ret, q⟩ u hgot
    cases toks with
    | nil =>
      obtain ⟨rfl, hu⟩ := hgot
      exact hdone hu
    | cons tok rest =>
      obtain ⟨rfl, hu, hq⟩ := hgot
      apply ends_ite
      · intro hcode
        cases tok <;> cases hcode
      intro _
      apply ends_ite
      · exact fun _ he => nomatch he
      intro hword
      obtain ⟨a, rfl⟩ := code_eq_word (not_not.1 hword)
      obtain rfl : q = a := hq a rfl
      apply ends_ite
      · exact fun _ he => nomatch he
      intro hmax
      rw [addArg_wrap, ends_bind]
      refine (parseredirs_sound hnul hu).mono ?_ ?_
      · rintro _ w ⟨rs', rest, rfl, hw, rfl⟩
        have hlen : (argv ++ [q]).length = argv.length + 1 := by simp
        rw [← wrap_append, ← hlen]
        refine (ih (by omega) hw).mono ?_ ?_
        · rintro c t ⟨args, rest', rfl, ht, hcount, rfl⟩
          refine ⟨(q, rs') :: args, rest', by simp [argTokens], ht, ?_, by simp⟩
          simp only [List.length_cons, List.length_append, List.length_nil] at hcount ⊢
          omega
        · intro e he hfuel
          have := he hfuel
          simp only [List.length_cons, List.length_append]
          omega
      · intro e he hfuel
        have := he hfuel
        simp only [List.length_cons]
        omega

theorem parseback_sound (h : Lexes text s toks) : Ends (parseback text fuel cmd) s
    (fun c t => ∃ n rest, toks = List.replicate n .amp ++ rest ∧ Lexes text t rest ∧ c = Cmd.back^[n] cmd)
    (fun e => e = .fuel → fuel ≤ toks.length) := by
  induction fuel generalizing s toks cmd with
  | zero => exact fun _ => Nat.zero_le _
  | succ fuel ih =>
    rw [parseback]
    refine (peek_ends h (by decide)).bind ?_
    rintro b t ⟨rfl, ht⟩
    apply ends_ite
    · intro hstarts
      obtain ⟨tok, rest, rfl, hstarts⟩ := exists_head hstarts
      cases tok with
      | amp =>
        refine (gettoken_ends hnul ht).bind ?_
        rintro _ u ⟨-, hu, -⟩
        refine (ih hu).mono ?_ ?_
        · rintro c t ⟨n, rest', rfl, ht, rfl⟩
          exact ⟨n + 1, rest', rfl, ht, rfl⟩
        · intro e he hfuel
          exact Nat.succ_le_succ (he hfuel)
      | _ => cases hstarts
    · intro _
      exact ⟨0, toks, rfl, ht, rfl⟩

/-- The parser of a nonterminal takes a part of the tokens and returns a tree for it. -/
def Parses (text : List Char) (nt : Nonterminal) (toks : List (Token Span)) (c : Cmd Span) (t : ℕ) : Prop :=
  ∃ ts rest, toks = ts ++ rest ∧ Lexes text t rest ∧ Derives nt ts c

/-- A parser of a nonterminal, with the fuel that it needs. -/
def Takes (text : List Char) (nt : Nonterminal) (k fuel : ℕ) (m : Parser (Cmd Span)) : Prop :=
  ∀ s toks, Lexes text s toks → Ends m s (Parses text nt toks) (fun e => e = .fuel → fuel < 4 * toks.length + k)

theorem parseline_sound (hpipe : Takes text .pipe 3 fuel (parsepipe text fuel))
    (hline : Takes text .line 4 fuel (parseline text fuel)) :
    Takes text .line 4 (fuel + 1) (parseline text (fuel + 1)) := by
  intro s toks h
  rw [parseline, ends_bind]
  refine (hpipe s toks h).mono ?_ ?_
  · rintro c t ⟨ts, toks, rfl, ht, hts⟩
    rw [ends_bind]
    refine (parseback_sound hnul ht).mono ?_ ?_
    · rintro _ u ⟨n, toks, rfl, hu, rfl⟩
      refine (peek_ends hu (by decide)).bind ?_
      rintro b u ⟨rfl, hu⟩
      apply ends_ite
      · intro hstarts
        obtain ⟨tok, rest, rfl, hstarts⟩ := exists_head hstarts
        cases tok with
        | semi =>
          refine (gettoken_ends hnul hu).bind ?_
          rintro _ w ⟨-, hw, -⟩
          rw [ends_bind]
          refine (hline w rest hw).mono ?_ ?_
          · rintro c' t' ⟨ts', rest', rfl, ht', hts'⟩
            refine ⟨_, rest', ?_, ht', .list hts n hts'⟩
            simp
          · intro e he hfuel
            have := he hfuel
            simp only [List.length_append, List.length_cons]
            omega
        | _ => cases hstarts
      · intro _
        refine ⟨_, toks, ?_, hu, .line hts n⟩
        simp
    · intro e he hfuel
      have := he hfuel
      simp only [List.length_append]
      omega
  · intro e he hfuel
    have := he hfuel
    omega

theorem parsepipe_sound (hexec : Takes text .exec 2 fuel (parseexec text fuel))
    (hpipe : Takes text .pipe 3 fuel (parsepipe text fuel)) :
    Takes text .pipe 3 (fuel + 1) (parsepipe text (fuel + 1)) := by
  intro s toks h
  rw [parsepipe, ends_bind]
  refine (hexec s toks h).mono ?_ ?_
  · rintro c t ⟨ts, toks, rfl, ht, hts⟩
    refine (peek_ends ht (by decide)).bind ?_
    rintro b u ⟨rfl, hu⟩
    apply ends_ite
    · intro hstarts
      obtain ⟨tok, rest, rfl, hstarts⟩ := exists_head hstarts
      cases tok with
      | bar =>
        refine (gettoken_ends hnul hu).bind ?_
        rintro _ w ⟨-, hw, -⟩
        rw [ends_bind]
        refine (hpipe w rest hw).mono ?_ ?_
        · rintro c' t' ⟨ts', rest', rfl, ht', hts'⟩
          refine ⟨_, rest', ?_, ht', .pipe hts hts'⟩
          simp
        · intro e he hfuel
          have := he hfuel
          simp only [List.length_append, List.length_cons]
          omega
      | _ => cases hstarts
    · intro _
      exact ⟨ts, toks, rfl, hu, .exec hts⟩
  · intro e he hfuel
    have := he hfuel
    omega

theorem parseblock_sound (hline : Takes text .line 4 fuel (parseline text fuel)) :
    Takes text .exec 1 (fuel + 1) (parseblock text (fuel + 1)) := by
  intro s toks h
  rw [parseblock]
  refine (peek_ends h (by decide)).bind ?_
  rintro b t ⟨rfl, ht⟩
  apply ends_ite
  · intro hstarts
    obtain ⟨tok, rest, rfl, hstarts⟩ := exists_head hstarts
    cases tok with
    | lparen =>
      refine (gettoken_ends hnul ht).bind ?_
      rintro _ u ⟨-, hu, -⟩
      rw [ends_bind]
      refine (hline u rest hu).mono ?_ ?_
      · rintro c t ⟨ts, toks, rfl, ht, hts⟩
        refine (peek_ends ht (by decide)).bind ?_
        rintro b t ⟨rfl, ht⟩
        apply ends_ite
        · intro hstarts
          obtain ⟨tok, rest, rfl, hstarts⟩ := exists_head hstarts
          cases tok with
          | rparen =>
            refine (gettoken_ends hnul ht).bind ?_
            rintro _ w ⟨-, hw, -⟩
            refine (parseredirs_sound hnul hw).mono ?_ ?_
            · rintro _ t' ⟨rs, rest', rfl, ht', rfl⟩
              refine ⟨_, rest', ?_, ht', .block hts rs⟩
              simp
            · intro e he hfuel
              have := he hfuel
              simp only [List.length_append, List.length_cons]
              omega
          | _ => cases hstarts
        · exact fun _ he => nomatch he
      · intro e he hfuel
        have := he hfuel
        simp only [List.length_cons]
        omega
    | _ => cases hstarts
  · exact fun _ he => nomatch he

theorem parseexec_sound (hblock : Takes text .exec 1 fuel (parseblock text fuel)) :
    Takes text .exec 2 (fuel + 1) (parseexec text (fuel + 1)) := by
  intro s toks h
  rw [parseexec]
  refine (peek_ends h (by decide)).bind ?_
  rintro b t ⟨rfl, ht⟩
  apply ends_ite
  · intro _
    refine (hblock t toks ht).mono (fun _ _ hc => hc) ?_
    intro e he hfuel
    have := he hfuel
    omega
  · intro _
    rw [ends_bind]
    refine (parseredirs_sound hnul ht).mono ?_ ?_
    · rintro _ u ⟨rs, rest, rfl, hu, rfl⟩
      have hargs : ([] : List Span).length < maxArgs := by decide
      refine (parseargs_sound hnul hargs hu).mono ?_ ?_
      · rintro _ w ⟨args, rest, rfl, hw, hlen, rfl⟩
        refine ⟨_, rest, ?_, hw, .words rs args ?_⟩
        · simp
        · simp only [List.length_nil, maxArgs] at hlen ⊢
          omega
      · intro e he hfuel
        have := he hfuel
        simp only [List.length_append]
        omega
    · intro e he hfuel
      have := he hfuel
      omega

/-- Whatever the parser returns is derived, and it needs no more fuel than there are tokens. -/
theorem parse_sound (fuel : ℕ) :
    Takes text .line 4 fuel (parseline text fuel) ∧ Takes text .pipe 3 fuel (parsepipe text fuel) ∧
      Takes text .exec 2 fuel (parseexec text fuel) ∧ Takes text .exec 1 fuel (parseblock text fuel) := by
  induction fuel with
  | zero => exact ⟨fun _ _ _ _ => by omega, fun _ _ _ _ => by omega, fun _ _ _ _ => by omega,
    fun _ _ _ _ => by omega⟩
  | succ fuel ih =>
    obtain ⟨hline, hpipe, hexec, hblock⟩ := ih
    exact ⟨parseline_sound hnul hpipe hline, parsepipe_sound hnul hexec hpipe, parseexec_sound hnul hblock,
      parseblock_sound hnul hline⟩

end Sound

end Xv6.Shell
