import Xv6.ShellGrammar
import Xv6.TransitionRuns
import Mathlib.Data.Set.Insert

/-!
# The processes of a command

`runcmd` of `user/sh.c`, one system call at a time, in the order in which the processes happen to
run. A process is its remaining calls and its descriptors; it is known by its place in the order of
the forks, and a node of the tree by the way to it. `fork`, `pipe`, `dup` and `open` succeed. A
program keeps its descriptors until it exits. A process that has exited never waits again, so its
children are not given to `init`.
-/

namespace Xv6.Shell

open FileSystem Function

inductive Dir
  | left
  | right
  | down
  deriving DecidableEq

/-- A node of the tree, by the way from the root. -/
abbrev Place := List Dir

inductive End
  | read
  | write
  deriving DecidableEq

/-- An open file. A pipe is named after the node that makes it. -/
inductive File (α : Type)
  | inherited (fd : ℕ)
  | opened (file : α) (mode : OpenMode)
  | pipe (place : Place) (e : End)
  deriving DecidableEq

abbrev Fds (α : Type) := ℕ → Option (File α)

variable {α : Type}

def lowest (fds : Fds α) : Option ℕ := (List.range 16).find? (fun fd => (fds fd).isNone)

inductive Code (α : Type)
  | run (place : Place) (cmd : Cmd α)
  | close (fd : ℕ) (next : Code α)
  | dup (fd : ℕ) (next : Code α)
  | opens (file : α) (mode : OpenMode) (next : Code α)
  /-- `fork1`: the child is made for a command of its own -/
  | fork (place : Place) (child next : Code α)
  | wait (next : Code α)
  | program (place : Place) (argv : List α)
  | exit
  | zombie
  deriving DecidableEq

def Code.isZombie : Code α → Bool
  | .zombie => true
  | _ => false

structure Proc (α : Type) where
  code : Code α
  fds : Fds α
  parent : Option ℕ
  born : Place
  place : Place
  reaped : Bool

/-- What a call does besides changing the process that makes it. -/
inductive Effect (α : Type)
  | alone
  | pipe (place : Place)
  | fork (child : Proc α)
  | wait

def pipeCode (place : Place) (p0 p1 : ℕ) (left right : Cmd α) : Code α :=
  .fork (place ++ [.left])
    (.close 1 (.dup p1 (.close p0 (.close p1 (.run (place ++ [.left]) left)))))
    (.fork (place ++ [.right])
      (.close 0 (.dup p0 (.close p0 (.close p1 (.run (place ++ [.right]) right)))))
      (.close p0 (.close p1 (.wait (.wait .exit)))))

/-- The next call of process `pid`; `ok` says whether `exec` succeeds. -/
def Proc.next (pr : Proc α) (pid : ℕ) (ok : Bool) : Option (Proc α × Effect α) :=
  match pr.code with
  | .run place cmd =>
    match cmd with
    | .exec argv =>
      let code := if argv.isEmpty || !ok then .exit else .program place argv
      some ({ pr with place := place, code := code }, .alone)
    | .redir cmd file mode fd =>
      let code := .close fd (.opens file mode (.run (place ++ [.down]) cmd))
      some ({ pr with place := place, code := code }, .alone)
    | .list left right =>
      let code := .fork (place ++ [.left]) (.run (place ++ [.left]) left) (.wait (.run (place ++ [.right]) right))
      some ({ pr with place := place, code := code }, .alone)
    | .pipe left right =>
      match lowest pr.fds with
      | none => none
      | some p0 =>
        let fds := update pr.fds p0 (some (.pipe place .read))
        match lowest fds with
        | none => none
        | some p1 =>
          let fds := update fds p1 (some (.pipe place .write))
          some ({ pr with place := place, code := pipeCode place p0 p1 left right, fds := fds }, .pipe place)
    | .back cmd =>
      let code := .fork (place ++ [.down]) (.run (place ++ [.down]) cmd) .exit
      some ({ pr with place := place, code := code }, .alone)
  | .close fd next => some ({ pr with code := next, fds := update pr.fds fd none }, .alone)
  | .dup fd next =>
    match lowest pr.fds with
    | none => none
    | some fd' => some ({ pr with code := next, fds := update pr.fds fd' (pr.fds fd) }, .alone)
  | .opens file mode next =>
    match lowest pr.fds with
    | none => none
    | some fd => some ({ pr with code := next, fds := update pr.fds fd (some (.opened file mode)) }, .alone)
  | .fork place child next => some ({ pr with code := next }, .fork ⟨child, pr.fds, some pid, place, place, false⟩)
  | .wait next => some ({ pr with code := next }, .wait)
  | .program .. => some ({ pr with code := .exit }, .alone)
  | .exit => some ({ pr with code := .zombie, fds := fun _ => none }, .alone)
  | .zombie => none

structure State (α : Type) where
  procs : List (Proc α)
  made : List Place

def State.childless (s : State α) (pid : ℕ) : Bool :=
  s.procs.all (fun q => q.parent ≠ some pid || q.reaped)

/-- A call of process `a.1`. It finds the child `a.2` if it is `wait`, and fails if it is `exec` and
`a.2` is not 0. -/
def step (s : State α) (a : ℕ × ℕ) : Option (State α) :=
  match s.procs[a.1]? with
  | none => none
  | some pr =>
    match pr.next a.1 (a.2 == 0) with
    | none => none
    | some (pr', .alone) => some { s with procs := s.procs.set a.1 pr' }
    | some (pr', .pipe place) => some { procs := s.procs.set a.1 pr', made := s.made ++ [place] }
    | some (pr', .fork child) => some { s with procs := s.procs.set a.1 pr' ++ [child] }
    | some (pr', .wait) =>
      if s.childless a.1 then some { s with procs := s.procs.set a.1 pr' }
      else
        match s.procs[a.2]? with
        | none => none
        | some q =>
          if q.parent = some a.1 ∧ q.code.isZombie = true ∧ q.reaped = false then
            some { s with procs := (s.procs.set a.2 { q with reaped := true }).set a.1 pr' }
          else none

def std (env : ℕ → File α) : Fds α := fun fd => if fd < 3 then some (env fd) else none

/-- A process without children that is to run the command. -/
def start (cmd : Cmd α) : State α where
  procs := [⟨.run [] cmd, std .inherited, none, [], [], false⟩]
  made := []

/-- The command below `cmd` in this direction, and its files when `cmd` has the files `env`. -/
def descend (place : Place) : Cmd α × (ℕ → File α) → Dir → Option (Cmd α × (ℕ → File α))
  | (.redir cmd file mode fd, env), .down => some (cmd, update env fd (.opened file mode))
  | (.pipe left _, env), .left => some (left, update env 1 (.pipe place .write))
  | (.pipe _ right, env), .right => some (right, update env 0 (.pipe place .read))
  | (.list left _, env), .left => some (left, env)
  | (.list _ right, env), .right => some (right, env)
  | (.back cmd, env), .down => some (cmd, env)
  | _, _ => none

def follows (place : Place) (x : Cmd α × (ℕ → File α)) : Place → Option (Cmd α × (ℕ → File α))
  | [] => some x
  | d :: ds => (descend place x d).bind (fun y => follows (place ++ [d]) y ds)

def commandAt (root : Cmd α) (place : Place) : Option (Cmd α × (ℕ → File α)) :=
  follows [] (root, .inherited) place

/-- On the way down from the command nothing takes the place of descriptor `fd`. -/
def Untouched (fd : ℕ) : Cmd α → Place → Prop
  | _, [] => True
  | .redir cmd _ _ fd', .down :: ds => fd' ≠ fd ∧ Untouched fd cmd ds
  | .pipe left _, .left :: ds => fd ≠ 1 ∧ Untouched fd left ds
  | .pipe _ right, .right :: ds => fd ≠ 0 ∧ Untouched fd right ds
  | .list left _, .left :: ds => Untouched fd left ds
  | .list _ right, .right :: ds => Untouched fd right ds
  | .back cmd, .down :: ds => Untouched fd cmd ds
  | _, _ => False

def Cmd.Standard : Cmd α → Prop
  | .exec _ => True
  | .redir cmd _ _ fd => fd < 3 ∧ cmd.Standard
  | .pipe left right => left.Standard ∧ right.Standard
  | .list left right => left.Standard ∧ right.Standard
  | .back cmd => cmd.Standard

theorem wrap_standard {cmd : Cmd α} (h : cmd.Standard) (rs : List (Redir α)) : (wrap cmd rs).Standard := by
  induction rs using List.reverseRecOn with
  | nil => exact h
  | append_singleton rs r ih =>
    rw [wrap_append]
    obtain ⟨op, file⟩ := r
    cases op with
    | input | output | append => exact ⟨by decide, ih⟩

theorem back_standard {cmd : Cmd α} (h : cmd.Standard) (n : ℕ) : (Cmd.back^[n] cmd).Standard := by
  induction n with
  | zero => exact h
  | succ n ih =>
    rw [Function.iterate_succ_apply']
    exact ih

theorem Derives.standard {nt : Nonterminal} {ts : List (Token α)} {cmd : Cmd α} (h : Derives nt ts cmd) :
    cmd.Standard := by
  induction h with
  | line _ n ih => exact back_standard ih n
  | list _ n _ ih ih' => exact ⟨back_standard ih n, ih'⟩
  | exec _ ih => exact ih
  | pipe _ _ ih ih' => exact ⟨ih, ih'⟩
  | block _ rs ih => exact wrap_standard ih rs
  | words rs args =>
    have hexec : (Cmd.exec (args.map Prod.fst)).Standard := trivial
    exact wrap_standard hexec _

theorem follows_append (place : Place) (x : Cmd α × (ℕ → File α)) (ds es : Place) :
    follows place x (ds ++ es) = (follows place x ds).bind (fun y => follows (place ++ ds) y es) := by
  induction ds generalizing place x with
  | nil => simp [follows]
  | cons d ds ih => simp [follows, ih, Option.bind_assoc]

theorem commandAt_snoc (root : Cmd α) (place : Place) (d : Dir) :
    commandAt root (place ++ [d]) = (commandAt root place).bind (fun x => descend place x d) := by
  simp [commandAt, follows_append, follows]

theorem follows_untouched {fd : ℕ} {place ds : Place} {cmd cmd' : Cmd α} {env env' : ℕ → File α}
    (h : follows place (cmd, env) ds = some (cmd', env')) (hkeep : Untouched fd cmd ds) : env' fd = env fd := by
  induction ds generalizing place cmd env with
  | nil =>
    cases h
    rfl
  | cons d ds ih =>
    obtain ⟨⟨c, e⟩, hd, hrest⟩ := Option.bind_eq_some_iff.1 h
    -- one case for every part that a command has
    cases cmd with
    | exec => cases hd
    | redir =>
      cases d with
      | down =>
        cases hd
        rw [ih hrest hkeep.2]
        exact update_of_ne hkeep.1.symm _ _
      | left | right => cases hd
    | pipe =>
      cases d with
      | left | right =>
        cases hd
        rw [ih hrest hkeep.2]
        exact update_of_ne hkeep.1 _ _
      | down => cases hd
    | list =>
      cases d with
      | left | right =>
        cases hd
        exact ih hrest hkeep
      | down => cases hd
    | back =>
      cases d with
      | down =>
        cases hd
        exact ih hrest hkeep
      | left | right => cases hd

/-- Only the parts of the left command of a pipe are to have the end that is written to. -/
theorem commandAt_sound {root : Cmd α} (hroot : root.Standard) {place : Place} {cmd : Cmd α} {env : ℕ → File α}
    (h : commandAt root place = some (cmd, env)) :
    cmd.Standard ∧ ∀ fd p, env fd = .pipe p .write → p ++ [.left] <+: place := by
  induction place using List.reverseRecOn generalizing cmd env with
  | nil =>
    cases h
    refine ⟨hroot, ?_⟩
    intro fd p hfd
    cases hfd
  | append_singleton place d ih =>
    rw [commandAt_snoc] at h
    obtain ⟨⟨c, e⟩, hc, hd⟩ := Option.bind_eq_some_iff.1 h
    obtain ⟨hstd, hends⟩ := ih hc
    have hup : ∀ fd p, e fd = .pipe p .write → p ++ [.left] <+: place ++ [d] :=
      fun fd p hfd => (hends fd p hfd).trans (List.prefix_append _ _)
    have hset : ∀ k f, (∀ p, f = .pipe p .write → p ++ [.left] <+: place ++ [d]) →
        ∀ fd p, update e k f fd = .pipe p .write → p ++ [.left] <+: place ++ [d] := by
      intro k f hf fd p hfd
      by_cases hk : fd = k
      · subst hk
        rw [update_self] at hfd
        exact hf p hfd
      · rw [update_of_ne hk] at hfd
        exact hup fd p hfd
    cases c with
    | exec => cases hd
    | redir c file mode fd =>
      cases d with
      | down =>
        cases hd
        exact ⟨hstd.2, hset _ _ (fun p hp => by cases hp)⟩
      | left | right => cases hd
    | pipe l r =>
      cases d with
      | left =>
        cases hd
        refine ⟨hstd.1, hset _ _ ?_⟩
        intro p hp
        cases hp
        exact List.prefix_rfl
      | right =>
        cases hd
        exact ⟨hstd.2, hset _ _ (fun p hp => by cases hp)⟩
      | down => cases hd
    | list l r =>
      cases d with
      | left =>
        cases hd
        exact ⟨hstd.1, hup⟩
      | right =>
        cases hd
        exact ⟨hstd.2, hup⟩
      | down => cases hd
    | back c =>
      cases d with
      | down =>
        cases hd
        exact ⟨hstd, hup⟩
      | left | right => cases hd

end Xv6.Shell
