import Xv6.ShellProcesses

/-!
# The descriptors and the order of the processes

The calls that a process still has to make are executed symbolically: they lead from its
descriptors to those that the node it will run is to have, and from its children to none that it
has not waited for. The nodes that the processes are going to run lie in different parts of the
tree, so that no command is run twice.
-/

namespace Xv6.Shell

open Function TransitionRuns

variable {α : Type} {root : Cmd α} {s t : State α} {pr pr' : Proc α}

/-- The calls up to the next `wait` or `runcmd` close the descriptor. -/
def Code.Closes (fd : ℕ) : Code α → Prop
  | .close fd' next => fd' = fd ∨ next.Closes fd
  | .dup _ next | .fork _ _ next => next.Closes fd
  | _ => False

/-- The node that the process runs before it makes another child. -/
def Code.goal : Code α → Option Place
  | .run p _ => some p
  | .close _ next | .dup _ next | .opens _ _ next | .wait next => next.goal
  | .fork .. | .program .. | .exit | .zombie => none

/-- The end of a pipe that is written to is open in the left command only, or it will be closed. -/
def Tidy (place : Place) (code : Code α) (fds : Fds α) : Prop :=
  ∀ fd p, fds fd = some (.pipe p .write) → p ++ [.left] <+: place ∨ code.Closes fd

/-- What is to be run on the right of a list is waited for by the process that forks for the left. -/
def LeftFirst (root : Cmd α) (p : Place) (child next : Code α) : Prop :=
  ∀ q left right env, commandAt root q = some (.list left right, env) →
    (p = q ++ [.left] → next = .wait (.run (q ++ [.right]) right)) ∧
      child.goal ≠ some (q ++ [.right]) ∧ (next.goal = some (q ++ [.right]) → p = q ++ [.left])

/-- The calls of a process for the command at `place` lead from its descriptors to those that the
commands it runs are to have. -/
def Works (root : Cmd α) (place : Place) : Code α → Fds α → Prop
  | .run p cmd, fds =>
    Tidy place (.run p cmd) fds ∧ ∃ env, commandAt root p = some (cmd, env) ∧ fds = std env
  | .program p argv, fds =>
    Tidy place (.program p argv) fds ∧ ∃ env, commandAt root p = some (.exec argv, env) ∧ fds = std env
  | .close fd next, fds => Tidy place (.close fd next) fds ∧ Works root place next (update fds fd none)
  | .dup fd next, fds =>
    Tidy place (.dup fd next) fds ∧
      ∃ fd', lowest fds = some fd' ∧ Works root place next (update fds fd' (fds fd))
  | .opens file mode next, fds =>
    Tidy place (.opens file mode next) fds ∧
      ∃ fd, lowest fds = some fd ∧ Works root place next (update fds fd (some (.opened file mode)))
  | .fork p child next, fds =>
    Tidy place (.fork p child next) fds ∧ Works root p child fds ∧ Works root place next fds ∧
      LeftFirst root p child next
  | .wait next, fds => Tidy place (.wait next) fds ∧ Works root place next fds
  | .exit, fds => Tidy place .exit fds
  | .zombie, fds => fds = fun _ => none

/-- The process waits for its children `S`, and for those it is going to have, before it runs another
command. -/
def Owed : Code α → Set ℕ → Prop
  | .run .., S | .program .., S => S = ∅
  | .close _ next, S | .dup _ next, S | .opens _ _ next, S => Owed next S
  | .fork _ child next, S => Owed child ∅ ∧ ∀ j ∉ S, Owed next (insert j S)
  | .wait next, S => (S = ∅ → Owed next S) ∧ ∀ j ∈ S, Owed next (S \ {j})
  | .exit, _ | .zombie, _ => True

/-- The nodes that the process and its future children run. -/
def Code.targets : Code α → List Place
  | .run p _ | .program p _ => [p]
  | .close _ next | .dup _ next | .opens _ _ next | .wait next => next.targets
  | .fork _ child next => child.targets ++ next.targets
  | .exit | .zombie => []

/-- Neither node is below the other. -/
def Apart (p q : Place) : Prop := ¬ p <+: q ∧ ¬ q <+: p

theorem Apart.symm {p q : Place} (h : Apart p q) : Apart q p := And.symm h

theorem Apart.below {p q p' : Place} (h : Apart p q) (hp : p <+: p') : Apart p' q := by
  constructor
  · intro hle
    exact h.1 (hp.trans hle)
  · intro hle
    rcases List.prefix_or_prefix_of_prefix hp hle with h' | h'
    · exact h.1 h'
    · exact h.2 h'

theorem apart_snoc (p : Place) {d d' : Dir} (h : d ≠ d') : Apart (p ++ [d]) (p ++ [d']) := by
  constructor
  · intro hle
    have := List.IsPrefix.eq_of_length hle (by simp)
    simp [h] at this
  · intro hle
    have := List.IsPrefix.eq_of_length hle (by simp)
    simp [h.symm] at this

theorem not_snoc_prefix (p : Place) (d : Dir) : ¬ p ++ [d] <+: p := by
  intro hle
  have hlen := hle.length_le
  rw [List.length_append] at hlen
  exact Nat.not_succ_le_self _ hlen

section Tables

variable {place : Place} {code next : Code α} {fds : Fds α} {env : ℕ → File α}

theorem Works.tidy (h : Works root place code fds) : Tidy place code fds := by
  cases code with
  | exit => exact h
  | zombie =>
    cases h
    intro fd p hfd
    cases hfd
  | _ => exact h.1

/-- Except for the descriptors in `E`, no end that is written to is open outside of the left command. -/
def Clean (place : Place) (E : List ℕ) (fds : Fds α) : Prop :=
  ∀ fd ∉ E, ∀ p, fds fd = some (.pipe p .write) → p ++ [.left] <+: place

variable {E : List ℕ}

theorem Clean.tidy (h : Clean place E fds) (hcode : ∀ fd ∈ E, code.Closes fd) : Tidy place code fds := by
  intro fd p hfd
  by_cases hmem : fd ∈ E
  · exact .inr (hcode fd hmem)
  · exact .inl (h fd hmem p hfd)

theorem Clean.below {place' : Place} (h : Clean place E fds) (hle : place <+: place') : Clean place' E fds :=
  fun fd hmem p hfd => (h fd hmem p hfd).trans hle

theorem Clean.except (h : Clean place [] fds) (E : List ℕ) : Clean place E fds :=
  fun fd _ p hfd => h fd List.not_mem_nil p hfd

theorem Clean.update (h : Clean place E fds) (fd : ℕ) {f : Option (File α)}
    (hf : fd ∉ E → ∀ p, f = some (.pipe p .write) → p ++ [.left] <+: place) :
    Clean place E (Function.update fds fd f) := by
  intro fd' hmem p hfd
  by_cases hk : fd' = fd
  · subst hk
    rw [Function.update_self] at hfd
    exact hf hmem p hfd
  · rw [Function.update_of_ne hk] at hfd
    exact h fd' hmem p hfd

theorem Clean.close (h : Clean place E fds) (fd : ℕ) : Clean place E (Function.update fds fd none) := by
  apply h.update
  intro _ p hp
  cases hp

theorem clean_std (hroot : root.Standard) {cmd : Cmd α} (h : commandAt root place = some (cmd, env)) :
    Clean place [] (std env) := by
  intro fd _ p hfd
  rw [std] at hfd
  split at hfd
  · exact (commandAt_sound hroot h).2 fd p (Option.some.inj hfd)
  · cases hfd

theorem works_run (hroot : root.Standard) {cmd : Cmd α} (h : commandAt root place = some (cmd, env)) :
    Works root place (.run place cmd) (std env) :=
  ⟨(clean_std hroot h).tidy (by simp), env, h, rfl⟩

theorem works_redir (hroot : root.Standard) {cmd : Cmd α} {file : α} {mode : FileSystem.OpenMode} {fd : ℕ}
    (h : commandAt root place = some (.redir cmd file mode fd, env)) :
    Works root place (.close fd (.opens file mode (.run (place ++ [.down]) cmd))) (std env) := by
  have hclean := clean_std hroot h
  have hfd : fd < 3 := (commandAt_sound hroot h).1.1
  have hlowest : lowest (update (std env) fd none) = some fd := by
    obtain rfl | rfl | rfl : fd = 0 ∨ fd = 1 ∨ fd = 2 := by omega
    all_goals rfl
  have htable : update (update (std env) fd none) fd (some (.opened file mode)) =
      std (update env fd (.opened file mode)) := by
    funext k
    rw [update_idem, std]
    by_cases hk : k = fd
    · subst hk
      rw [update_self, update_self, if_pos hfd]
    · rw [update_of_ne hk, update_of_ne hk, std]
  have hopened : Clean place [] (update (update (std env) fd none) fd (some (.opened file mode))) := by
    apply (hclean.close fd).update
    intro _ p hp
    cases hp
  refine ⟨hclean.tidy (by simp), (hclean.close fd).tidy (by simp), fd, hlowest, hopened.tidy (by simp),
    _, ?_, htable⟩
  rw [commandAt_snoc, h]
  rfl

theorem works_list (hroot : root.Standard) {left right : Cmd α}
    (h : commandAt root place = some (.list left right, env)) :
    Works root place (.fork (place ++ [.left]) (.run (place ++ [.left]) left)
      (.wait (.run (place ++ [.right]) right)))
      (std env) := by
  have hclean := clean_std hroot h
  have hleft : commandAt root (place ++ [.left]) = some (left, env) := by
    rw [commandAt_snoc, h]
    rfl
  have hright : commandAt root (place ++ [.right]) = some (right, env) := by
    rw [commandAt_snoc, h]
    rfl
  refine ⟨hclean.tidy (by simp), works_run hroot hleft,
    ⟨hclean.tidy (by simp), hclean.tidy (by simp), env, hright, rfl⟩, ?_⟩
  intro q left' right' env' hat
  refine ⟨?_, by simp [Code.goal], ?_⟩
  · intro hq
    obtain ⟨rfl, -⟩ := List.append_inj' hq rfl
    rw [h] at hat
    cases hat
    rfl
  · intro hgoal
    obtain ⟨rfl, -⟩ := List.append_inj' (Option.some.inj hgoal) rfl
    rfl

theorem works_back (hroot : root.Standard) {cmd : Cmd α} (h : commandAt root place = some (.back cmd, env)) :
    Works root place (.fork (place ++ [.down]) (.run (place ++ [.down]) cmd) .exit) (std env) := by
  have hclean := clean_std hroot h
  have hdown : commandAt root (place ++ [.down]) = some (cmd, env) := by
    rw [commandAt_snoc, h]
    rfl
  refine ⟨hclean.tidy (by simp), works_run hroot hdown, hclean.tidy (by simp), ?_⟩
  intro q left' right' env' hat
  exact ⟨by simp, by simp [Code.goal], by simp [Code.goal]⟩

def piped (env : ℕ → File α) (place : Place) : Fds α :=
  update (update (std env) 3 (some (.pipe place .read))) 4 (some (.pipe place .write))

theorem piped_left (env : ℕ → File α) (place : Place) :
    update (update (update (update (piped env place) 1 none) 1
      (some (.pipe place .write))) 3 none) 4 none = std (update env 1 (.pipe place .write)) := by
  funext fd
  rcases fd with _ | _ | _ | _ | _ | fd <;> simp [piped, std, update]

theorem piped_right (env : ℕ → File α) (place : Place) :
    update (update (update (update (piped env place) 0 none) 0
      (some (.pipe place .read))) 3 none) 4 none = std (update env 0 (.pipe place .read)) := by
  funext fd
  rcases fd with _ | _ | _ | _ | _ | fd <;> simp [piped, std, update]

theorem piped_closed (env : ℕ → File α) (place : Place) :
    update (update (piped env place) 3 none) 4 none = std env := by
  funext fd
  rcases fd with _ | _ | _ | _ | _ | fd <;> simp [piped, std, update]

/-- A child puts the end `f` of the pipe, which is descriptor `src`, in the place of `fd`. -/
theorem works_child {child : Place} {cmd : Cmd α} {fd src : ℕ} {f : File α}
    (hclean : Clean child [4] (piped env place)) (hsrc : piped env place src = some f) (hne : src ≠ fd)
    (hlowest : lowest (update (piped env place) fd none) = some fd)
    (hf : ∀ p, f = .pipe p .write → p ++ [.left] <+: child)
    (hrun : Works root child (.run child cmd) (update (update
      (update (update (piped env place) fd none) fd (some f)) 3 none) 4 none)) :
    Works root child (.close fd (.dup src (.close 3 (.close 4 (.run child cmd))))) (piped env place) := by
  have hdup : Clean child [4] (update (update (piped env place) fd none) fd (some f)) := by
    apply (hclean.close fd).update
    intro _ p hp
    exact hf p (Option.some.inj hp)
  refine ⟨hclean.tidy (by simp [Code.Closes]), (hclean.close fd).tidy (by simp [Code.Closes]), fd, hlowest, ?_⟩
  rw [update_of_ne hne, hsrc]
  exact ⟨hdup.tidy (by simp [Code.Closes]), (hdup.close 3).tidy (by simp [Code.Closes]), hrun⟩

theorem works_pipe (hroot : root.Standard) {left right : Cmd α}
    (h : commandAt root place = some (.pipe left right, env)) :
    Works root place (pipeCode place 3 4 left right) (piped env place) := by
  have hclean : Clean place [4] (piped env place) := by
    have hread : Clean place [4] (update (std env) 3 (some (.pipe place .read))) := by
      apply ((clean_std hroot h).except [4]).update
      intro _ p hp
      cases hp
    apply hread.update
    intro hmem
    simp at hmem
  have hleft : commandAt root (place ++ [.left]) = some (left, update env 1 (.pipe place .write)) := by
    rw [commandAt_snoc, h]
    rfl
  have hright : commandAt root (place ++ [.right]) = some (right, update env 0 (.pipe place .read)) := by
    rw [commandAt_snoc, h]
    rfl
  have hchildLeft : Works root (place ++ [.left])
      (.close 1 (.dup 4 (.close 3 (.close 4 (.run (place ++ [.left]) left))))) (piped env place) := by
    apply works_child (f := .pipe place .write) (hclean.below (List.prefix_append _ _)) rfl (by decide) rfl
    · rintro p ⟨⟩
      exact List.prefix_rfl
    · rw [piped_left]
      exact works_run hroot hleft
  have hchildRight : Works root (place ++ [.right])
      (.close 0 (.dup 3 (.close 3 (.close 4 (.run (place ++ [.right]) right))))) (piped env place) := by
    apply works_child (f := .pipe place .read) (hclean.below (List.prefix_append _ _)) rfl (by decide) rfl
    · rintro p ⟨⟩
    · rw [piped_right]
      exact works_run hroot hright
  have hparent : Works root place (.close 3 (.close 4 (.wait (.wait .exit)))) (piped env place) := by
    refine ⟨hclean.tidy (by simp [Code.Closes]), (hclean.close 3).tidy (by simp [Code.Closes]), ?_⟩
    rw [piped_closed]
    have htidy : ∀ code : Code α, Tidy place code (std env) := fun _ => (clean_std hroot h).tidy (by simp)
    exact ⟨htidy _, htidy _, htidy _⟩
  refine ⟨hclean.tidy (by simp [Code.Closes]), hchildLeft,
    ⟨hclean.tidy (by simp [Code.Closes]), hchildRight, hparent, ?_⟩, ?_⟩
  · intro q left' right' env' hat
    refine ⟨by simp, ?_, by simp [Code.goal]⟩
    intro hgoal
    obtain ⟨rfl, -⟩ := List.append_inj' (Option.some.inj hgoal) rfl
    rw [h] at hat
    cases hat
  · intro q left' right' env' hat
    refine ⟨?_, by simp [Code.goal], by simp [Code.goal]⟩
    intro hq
    obtain ⟨rfl, -⟩ := List.append_inj' hq rfl
    rw [h] at hat
    cases hat

end Tables

section Calls

variable {pid : ℕ} {ok : Bool} {e : Effect α}

/-- What a call does to the children that have not been waited for. -/
def Effect.After (e : Effect α) (S S' : Set ℕ) : Prop :=
  match e with
  | .alone | .pipe _ => S' = S
  | .fork _ => ∃ j ∉ S, S' = insert j S
  | .wait => S = ∅ ∧ S' = S ∨ ∃ j ∈ S, S' = S \ {j}

def Effect.Targets (e : Effect α) (T T' : List Place) : Prop :=
  match e with
  | .fork child => T = child.code.targets ++ T'
  | _ => (∀ p' ∈ T', ∃ p ∈ T, p <+: p') ∧ (T.Pairwise Apart → T'.Pairwise Apart)

def Effect.Goal (e : Effect α) (g g' : Option Place) : Prop :=
  match e with
  | .fork _ => True
  | _ => g' = none ∨ g' = g ∨ ∃ q, g' = some (q ++ [.down])

def Effect.Of (e : Effect α) (pid : ℕ) (pr pr' : Proc α) : Prop :=
  match e with
  | .alone => ∀ next, pr.code ≠ .wait next
  | .pipe p => ∃ left right p0 p1, pr.code = .run p (.pipe left right) ∧ pr'.code = pipeCode p p0 p1 left right
  | .fork child => ∃ p code, pr.code = .fork p code pr'.code ∧ child = ⟨code, pr.fds, some pid, p, p, false⟩
  | .wait => pr.code = .wait pr'.code

/-- The invariants of one process, over a call. -/
structure Advances (root : Cmd α) (pid : ℕ) (pr pr' : Proc α) (e : Effect α) : Prop where
  parent : pr'.parent = pr.parent
  born : pr'.born = pr.born
  reaped : pr'.reaped = pr.reaped
  alive : pr.code.isZombie = false
  call : e.Of pid pr pr'
  works : Works root pr'.place pr'.code pr'.fds
  owed : ∀ {S S'}, Owed pr.code S → e.After S S' → Owed pr'.code S'
  targets : e.Targets pr.code.targets pr'.code.targets
  goal : e.Goal pr.code.goal pr'.code.goal

/-- A call that concerns no other process and is followed by the same nodes. -/
theorem Advances.alone {code next : Code α} {fds fds' : Fds α} {parent : Option ℕ} {born place place' : Place}
    {reaped : Bool} (halive : code.isZombie = false) (hwait : ∀ next, code ≠ .wait next)
    (hworks : Works root place' next fds') (howed : ∀ {S}, Owed code S → Owed next S)
    (hle : ∀ p' ∈ next.targets, ∃ p ∈ code.targets, p <+: p')
    (hapart : code.targets.Pairwise Apart → next.targets.Pairwise Apart)
    (hgoal : next.goal = none ∨ next.goal = code.goal ∨ ∃ q, next.goal = some (q ++ [.down])) :
    Advances root pid ⟨code, fds, parent, born, place, reaped⟩ ⟨next, fds', parent, born, place', reaped⟩
      .alone where
  parent := rfl
  born := rfl
  reaped := rfl
  alive := halive
  call := hwait
  works := hworks
  owed := by
    rintro S S' hS rfl
    exact howed hS
  targets := ⟨hle, hapart⟩
  goal := hgoal

theorem targets_parts (p : Place) : (∀ p' ∈ [p ++ [Dir.left], p ++ [Dir.right]], ∃ q ∈ [p], q <+: p') ∧
    ([p].Pairwise Apart → [p ++ [Dir.left], p ++ [Dir.right]].Pairwise Apart) := by
  constructor
  · intro p' hp'
    simp only [List.mem_cons, List.not_mem_nil, or_false] at hp'
    rcases hp' with rfl | rfl <;> exact ⟨p, by simp, List.prefix_append _ _⟩
  · intro _
    simpa using apart_snoc p (by decide)

theorem next_spec (hroot : root.Standard) (hw : Works root pr.place pr.code pr.fds)
    (h : pr.next pid ok = some (pr', e)) : Advances root pid pr pr' e := by
  obtain ⟨code, fds, parent, born, place, reaped⟩ := pr
  cases code with
  | run p cmd =>
    obtain ⟨htidy, env, hat, rfl⟩ := hw
    cases cmd with
    | exec argv =>
      cases h
      have hclean := clean_std hroot hat
      split
      · exact .alone rfl (by simp) (hclean.tidy (by simp)) (fun _ => trivial) (by simp [Code.targets])
          (by simp [Code.targets]) (.inl rfl)
      · exact .alone rfl (by simp) ⟨hclean.tidy (by simp), env, hat, rfl⟩ id (by simp [Code.targets])
          (by simp [Code.targets]) (.inl rfl)
    | redir cmd file mode fd =>
      cases h
      exact .alone rfl (by simp) (works_redir hroot hat) id (by simp [Code.targets]) (by simp [Code.targets])
        (.inr (.inr ⟨p, rfl⟩))
    | list left right =>
      cases h
      refine .alone rfl (by simp) (works_list hroot hat) ?_ (targets_parts p).1 (targets_parts p).2 (.inl rfl)
      rintro S rfl
      simp [Owed]
    | pipe left right =>
      cases h
      exact {
        parent := rfl
        born := rfl
        reaped := rfl
        alive := rfl
        call := ⟨left, right, 3, 4, rfl, rfl⟩
        works := works_pipe hroot hat
        owed := by
          rintro S S' rfl rfl
          simp [pipeCode, Owed]
        targets := targets_parts p
        goal := .inl rfl }
    | back cmd =>
      cases h
      refine .alone rfl (by simp) (works_back hroot hat) ?_ (by simp [Code.targets])
        (by simp [Code.targets]) (.inl rfl)
      intro S _
      exact ⟨rfl, fun _ _ => trivial⟩
  | close fd next =>
    cases h
    exact .alone rfl (by simp) hw.2 id (fun p hp => ⟨p, hp, List.prefix_rfl⟩) id (.inr (.inl rfl))
  | dup fd next =>
    obtain ⟨-, fd', hfd', hnext⟩ := hw
    simp only [Proc.next, hfd'] at h
    cases h
    exact .alone rfl (by simp) hnext id (fun p hp => ⟨p, hp, List.prefix_rfl⟩) id (.inr (.inl rfl))
  | opens file mode next =>
    obtain ⟨-, fd, hfd, hnext⟩ := hw
    simp only [Proc.next, hfd] at h
    cases h
    exact .alone rfl (by simp) hnext id (fun p hp => ⟨p, hp, List.prefix_rfl⟩) id (.inr (.inl rfl))
  | fork p child next =>
    cases h
    exact {
      parent := rfl
      born := rfl
      reaped := rfl
      alive := rfl
      call := ⟨p, child, rfl, rfl⟩
      works := hw.2.2.1
      owed := by
        rintro S S' hS ⟨j, hj, rfl⟩
        exact hS.2 j hj
      targets := rfl
      goal := trivial }
  | wait next =>
    cases h
    exact {
      parent := rfl
      born := rfl
      reaped := rfl
      alive := rfl
      call := rfl
      works := hw.2
      owed := by
        rintro S S' hS (⟨hempty, rfl⟩ | ⟨j, hj, rfl⟩)
        · exact hS.1 hempty
        · exact hS.2 j hj
      targets := ⟨fun p hp => ⟨p, hp, List.prefix_rfl⟩, id⟩
      goal := .inr (.inl rfl) }
  | program p argv =>
    cases h
    have htidy : Tidy place .exit fds := fun fd q hfd => .inl ((hw.1 fd q hfd).resolve_right id)
    exact .alone rfl (by simp) htidy (fun _ => trivial) (by simp [Code.targets]) (by simp [Code.targets]) (.inl rfl)
  | exit =>
    cases h
    exact .alone rfl (by simp) rfl id (by simp [Code.targets]) (by simp [Code.targets]) (.inl rfl)
  | zombie => cases h

end Calls

end Xv6.Shell
