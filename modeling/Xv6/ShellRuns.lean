import Xv6.ShellInvariant

/-!
# The runs of a command

Whatever the order in which the processes of a command run, every program has the descriptors that
its node is to have, the ends of pipes are closed where they are not needed, and a list runs its
commands one after the other.
-/

namespace Xv6.Shell

open TransitionRuns

variable {α : Type} {root : Cmd α} {s t : State α} {pr pr' q : Proc α} {i j : ℕ} {e : Effect α}

theorem Inv.set (h : Inv root s) (hpr : s.procs[i]? = some pr) (hadv : Advances root i pr pr' e)
    (hle : ∀ p' ∈ pr'.code.targets, ∃ p ∈ pr.code.targets, p <+: p')
    (hapart : pr.code.targets.Pairwise Apart → pr'.code.targets.Pairwise Apart)
    (hwait : ∀ place cmd, pr.code = .wait (.run place cmd) → pr'.code = .run place cmd)
    (hgoal : pr'.code.goal = none ∨ pr'.code.goal = pr.code.goal ∨ ∃ q, pr'.code.goal = some (q ++ [.down]))
    (hafter : e.After (s.children i) (s.children i)) {made : List Place} (hmade : made.Nodup)
    (hfresh : ∀ m ∈ made, m ∉ s.made → ∀ (k : ℕ) (y : Proc α), (s.procs.set i pr')[k]? = some y →
      ∀ p ∈ y.code.targets, ¬ p <+: m) :
    Inv root ⟨s.procs.set i pr', made⟩ := by
  have hchildren := children_set hpr hadv.parent hadv.reaped made
  apply h.replaced hpr hadv (.set hpr pr' made) hle hapart hwait
  · rw [hchildren]
    exact hafter
  · exact fun k _ => hchildren k
  · exact hgoal
  · exact hmade
  · exact hfresh

theorem Inv.pipe {place : Place} (h : Inv root s) (hpr : s.procs[i]? = some pr)
    (hadv : Advances root i pr pr' (.pipe place)) : Inv root ⟨s.procs.set i pr', s.made ++ [place]⟩ := by
  obtain ⟨left, right, p0, p1, hcode, hcode'⟩ := hadv.call
  have hmem : place ∈ pr.code.targets := by simp [hcode, Code.targets]
  have hnew : place ∉ s.made := fun hm => h.fresh place hm i pr hpr place hmem List.prefix_rfl
  apply h.set hpr hadv hadv.targets.1 hadv.targets.2
  · intro p cmd hwait
    cases hcode.symm.trans hwait
  · exact hadv.goal
  · rfl
  · simpa [List.nodup_append] using ⟨h.made, fun m hm heq => hnew (heq ▸ hm)⟩
  · intro m hm hold k y hy p hp
    obtain rfl : m = place := by simpa [hold] using hm
    rcases getElem?_set_some hy with ⟨rfl, rfl⟩ | ⟨hk, hy⟩
    · rw [hcode'] at hp
      simp only [pipeCode, Code.targets, List.append_nil, List.singleton_append, List.mem_cons, List.not_mem_nil,
        or_false] at hp
      rcases hp with rfl | rfl <;> exact not_snoc_prefix _ _
    · exact (h.cross i k pr y hpr hy (Ne.symm hk) m hmem p hp).2

theorem children_eq_empty (h : s.childless i = true) : s.children i = ∅ := by
  rw [Set.eq_empty_iff_forall_notMem]
  rintro j ⟨q, hq, hp, hr⟩
  have := List.all_eq_true.1 h q (List.mem_of_getElem? hq)
  simp [hp, hr] at this

theorem Inv.reap (h : Inv root s) (hpr : s.procs[i]? = some pr) (hadv : Advances root i pr pr' .wait)
    (hq : s.procs[j]? = some q) (hparent : q.parent = some i) (hzombie : q.code.isZombie = true)
    (hlive : q.reaped = false) :
    Inv root { s with procs := (s.procs.set j { q with reaped := true }).set i pr' } := by
  have hcode : pr.code = .wait pr'.code := hadv.call
  have hij : i ≠ j := by
    rintro rfl
    cases hpr.symm.trans hq
    rw [hadv.alive] at hzombie
    cases hzombie
  have hpr₁ : (s.procs.set j { q with reaped := true })[i]? = some pr := by
    rw [List.getElem?_set_ne hij.symm]
    exact hpr
  have hchildren : ∀ k, State.children { s with procs := (s.procs.set j { q with reaped := true }).set i pr' } k =
      s.children k \ {j} := by
    intro k
    rw [← children_reap hq s.made k]
    exact children_set (s := ⟨s.procs.set j { q with reaped := true }, s.made⟩) hpr₁ hadv.parent hadv.reaped
      s.made k
  apply h.replaced hpr hadv (.reap hpr hq hzombie pr') hadv.targets.1 hadv.targets.2
  · intro place cmd hwait
    exact Code.wait.inj (hcode.symm.trans hwait)
  · rw [hchildren]
    exact .inr ⟨j, ⟨q, hq, hparent, hlive⟩, rfl⟩
  · intro k hk
    rw [hchildren, Set.sdiff_singleton_eq_self]
    rintro ⟨y, hy, hp, -⟩
    cases hq.symm.trans hy
    exact hk (Option.some.inj (hp.symm.trans hparent))
  · exact hadv.goal
  · exact h.made
  · exact fun m hm hnew => absurd hm hnew

theorem Inv.step (hroot : root.Standard) (h : Inv root s) {a : ℕ × ℕ} (hstep : step s a = some t) : Inv root t := by
  obtain ⟨i, j⟩ := a
  unfold Shell.step at hstep
  dsimp only at hstep
  split at hstep
  · cases hstep
  rename_i pr hpr
  have hworks := h.works i pr hpr
  split at hstep
  · cases hstep
  · rename_i pr' hnext
    cases hstep
    have hadv := next_spec hroot hworks hnext
    refine h.set hpr hadv hadv.targets.1 hadv.targets.2 (fun _ _ hcode => absurd hcode (hadv.call _))
      hadv.goal rfl h.made ?_
    exact fun m hm hnew => absurd hm hnew
  · rename_i pr' place hnext
    cases hstep
    have hadv := next_spec hroot hworks hnext
    exact h.pipe hpr hadv
  · rename_i pr' child hnext
    cases hstep
    exact h.fork hpr (next_spec hroot hworks hnext)
  · rename_i pr' hnext
    have hadv := next_spec hroot hworks hnext
    split at hstep
    · rename_i hnone
      cases hstep
      have hcode : pr.code = .wait pr'.code := hadv.call
      refine h.set hpr hadv hadv.targets.1 hadv.targets.2 ?_ hadv.goal (.inl ⟨children_eq_empty hnone, rfl⟩) h.made
        (fun m hm hnew => absurd hm hnew)
      intro place cmd hwait
      exact (Code.wait.inj (hcode.symm.trans hwait))
    · split at hstep
      · cases hstep
      · rename_i q hq
        split at hstep
        · rename_i hzombie
          cases hstep
          exact h.reap hpr hadv hq hzombie.1 hzombie.2.1 hzombie.2.2
        · cases hstep

theorem inv_start (hroot : root.Standard) : Inv root (start root) := by
  have hlookup : ∀ {k : ℕ} {y : Proc α}, (start root).procs[k]? = some y →
      k = 0 ∧ y = ⟨.run [] root, std .inherited, none, [], [], false⟩ := by
    intro k y hy
    cases k with
    | zero => exact ⟨rfl, (Option.some.inj hy).symm⟩
    | succ k => cases hy
  have hat : commandAt root [] = some (root, .inherited) := rfl
  constructor
  case works =>
    intro k y hy
    obtain ⟨rfl, rfl⟩ := hlookup hy
    exact works_run hroot hat
  case owed =>
    intro k y hy
    obtain ⟨rfl, rfl⟩ := hlookup hy
    refine Set.eq_empty_iff_forall_notMem.2 ?_
    rintro j ⟨q, hq, hp, -⟩
    obtain ⟨rfl, rfl⟩ := hlookup hq
    cases hp
  case parent =>
    intro k y p hy hp
    obtain ⟨rfl, rfl⟩ := hlookup hy
    cases hp
  case reaped =>
    intro k y hy hr
    obtain ⟨rfl, rfl⟩ := hlookup hy
    cases hr
  case apart =>
    intro k y hy
    obtain ⟨rfl, rfl⟩ := hlookup hy
    exact List.pairwise_singleton _ _
  case cross =>
    intro k l y z hy hz hkl
    obtain ⟨rfl, rfl⟩ := hlookup hy
    obtain ⟨rfl, rfl⟩ := hlookup hz
    exact absurd rfl hkl
  case listed =>
    intro k y hy _ place left right env _ hborn
    obtain ⟨rfl, rfl⟩ := hlookup hy
    simp at hborn
  case begun =>
    intro k y hy place left right env _ hgoal
    obtain ⟨rfl, rfl⟩ := hlookup hy
    simp [Code.goal] at hgoal
  case made => exact List.nodup_nil
  case fresh =>
    intro m hm
    cases hm

theorem Run.inv (hroot : root.Standard) {as : List (ℕ × ℕ)} (h : Run step unguarded (start root) as s) :
    Inv root s :=
  h.invariant (inv_start hroot) (fun _ _ _ hinv _ hstep => hinv.step hroot hstep)

/-- A process that is going to close a descriptor does not wait for anything before. -/
theorem Inv.closing (h : Inv root s) (hpr : s.procs[i]? = some pr) {fd : ℕ} (hfd : pr.code.Closes fd) :
    ∃ t, Shell.step s (i, 0) = some t := by
  have hworks := h.works i pr hpr
  obtain ⟨code, fds, parent, born, place, reaped⟩ := pr
  cases code with
  | close | fork => exact ⟨_, by simp only [Shell.step, hpr, Proc.next]; rfl⟩
  | dup =>
    obtain ⟨-, fd', hfd', -⟩ := hworks
    exact ⟨_, by simp only [Shell.step, hpr, Proc.next, hfd']; rfl⟩
  | _ => exact hfd.elim

def Proc.Runs (pr : Proc α) (place : Place) : Prop :=
  (∃ cmd, pr.code = .run place cmd) ∨ ∃ argv, pr.code = .program place argv

theorem Inv.runs (h : Inv root s) (hpr : s.procs[i]? = some pr) {place : Place} (hruns : pr.Runs place) :
    ∃ cmd env, commandAt root place = some (cmd, env) ∧ pr.fds = std env := by
  have hworks := h.works i pr hpr
  rcases hruns with ⟨cmd, hcode⟩ | ⟨argv, hcode⟩
  · rw [hcode] at hworks
    exact ⟨cmd, hworks.2⟩
  · rw [hcode] at hworks
    exact ⟨_, hworks.2⟩

/-- What the node has in a descriptor is still there below, unless something takes its place. -/
theorem Inv.inherited (h : Inv root s) (hpr : s.procs[i]? = some pr) {place ds : Place} {cmd : Cmd α}
    {env : ℕ → File α} (hat : commandAt root place = some (cmd, env)) (hruns : pr.Runs (place ++ ds)) {fd : ℕ}
    (hfd : fd < 3) (hkeep : Untouched fd cmd ds) : pr.fds fd = some (env fd) := by
  obtain ⟨cmd', env', hat', hfds⟩ := h.runs hpr hruns
  rw [commandAt, follows_append] at hat'
  obtain ⟨x, hx, hrest⟩ := Option.bind_eq_some_iff.1 hat'
  cases hat.symm.trans hx
  rw [hfds, std, if_pos hfd, follows_untouched hrest hkeep]

/-- Whatever the order of the calls: a program has exactly descriptors 0, 1 and 2; descriptor 1 of the
left command of a pipe and descriptor 0 of the right one are the ends of the pipe that the node has
made; whoever else has the end that is written to is about to close it; and when the right command
of a list is run, the process of the left one has exited. No node makes a second pipe. -/
theorem runcmd_wired (hroot : root.Standard) {as : List (ℕ × ℕ)} (h : Run step unguarded (start root) as s) :
    (∀ (i : ℕ) (pr : Proc α) place argv, s.procs[i]? = some pr → pr.code = .program place argv →
      ∃ env, commandAt root place = some (.exec argv, env) ∧ pr.fds = std env) ∧
    (∀ place left right env, commandAt root place = some (.pipe left right, env) →
      ∀ (i : ℕ) (pr : Proc α), s.procs[i]? = some pr →
        (∀ ds, pr.Runs (place ++ .left :: ds) → Untouched 1 left ds → pr.fds 1 = some (.pipe place .write)) ∧
        ∀ ds, pr.Runs (place ++ .right :: ds) → Untouched 0 right ds → pr.fds 0 = some (.pipe place .read)) ∧
    (∀ (i : ℕ) (pr : Proc α) fd place, s.procs[i]? = some pr → pr.fds fd = some (.pipe place .write) →
      place ++ [.left] <+: pr.place ∨ pr.code.Closes fd ∧ ∃ t, step s (i, 0) = some t) ∧
    (∀ place left right env, commandAt root place = some (.list left right, env) →
      ∀ (i : ℕ) (pr : Proc α), s.procs[i]? = some pr → pr.code = .run (place ++ [.right]) right →
        (∃ (j : ℕ) (q : Proc α), s.procs[j]? = some q ∧ q.born = place ++ [.left]) ∧
        ∀ (j : ℕ) (q : Proc α), s.procs[j]? = some q → q.born = place ++ [.left] → q.code.isZombie = true) ∧
    s.made.Nodup := by
  have hinv := Run.inv hroot h
  refine ⟨?_, ?_, ?_, ?_, hinv.made⟩
  · intro i pr place argv hpr hcode
    have hworks := hinv.works i pr hpr
    rw [hcode] at hworks
    exact hworks.2
  · intro place left right env hat i pr hpr
    constructor
    · intro ds hruns hkeep
      have hleft : commandAt root (place ++ [.left]) = some (left, Function.update env 1 (.pipe place .write)) := by
        rw [commandAt_snoc, hat]
        rfl
      rw [List.append_cons] at hruns
      exact hinv.inherited hpr hleft hruns (by decide) hkeep
    · intro ds hruns hkeep
      have hright : commandAt root (place ++ [.right]) =
          some (right, Function.update env 0 (.pipe place .read)) := by
        rw [commandAt_snoc, hat]
        rfl
      rw [List.append_cons] at hruns
      exact hinv.inherited hpr hright hruns (by decide) hkeep
  · intro i pr fd place hpr hfd
    rcases (hinv.works i pr hpr).tidy fd place hfd with hleft | hclose
    · exact .inl hleft
    · exact .inr ⟨hclose, hinv.closing hpr hclose⟩
  · intro place left right env hat i pr hpr hcode
    have hgoal : pr.code.goal = some (place ++ [.right]) := by simp [hcode, Code.goal]
    refine ⟨hinv.begun i pr hpr place left right env hat hgoal, ?_⟩
    intro j q hq hborn
    apply hinv.reaped j q hq
    by_contra hlive
    -- the parent would be waiting, and so would be about to run the same command
    obtain ⟨k, y, -, hy, hwait⟩ := hinv.listed j q hq (by simpa using hlive) place left right env hat hborn
    have hne : i ≠ k := by
      rintro rfl
      cases hpr.symm.trans hy
      cases hcode.symm.trans hwait
    have hapart := hinv.cross i k pr y hpr hy hne (place ++ [.right]) (by simp [hcode, Code.targets])
      (place ++ [.right]) (by simp [hwait, Code.targets])
    exact hapart.1 List.prefix_rfl

/-- `(0 | 1); 2`, run until both programs of the pipe have been started. -/
theorem runcmd_wired_pipe :
    ∃ (as : List (ℕ × ℕ)) (s : State ℕ) (q r : Proc ℕ),
      Run step unguarded (start (.list (.pipe (.exec [0]) (.exec [1])) (.exec [2]))) as s ∧
        s.procs[2]? = some q ∧ q.code = .program [.left, .left] [0] ∧ q.fds 1 = some (.pipe [.left] .write) ∧
        s.procs[3]? = some r ∧ r.code = .program [.left, .right] [1] ∧ r.fds 0 = some (.pipe [.left] .read) := by
  have hroot : (Cmd.list (.pipe (.exec [0]) (.exec [1])) (.exec [2])).Standard := by simp [Cmd.Standard]
  obtain ⟨s, hrun, hq, hr⟩ : ∃ s, Run step unguarded (start (.list (.pipe (.exec [0]) (.exec [1])) (.exec [2])))
      (List.replicate 2 (0, 0) ++ List.replicate 3 (1, 0) ++ List.replicate 5 (2, 0) ++ List.replicate 5 (3, 0)) s ∧
      (s.procs[2]?).map Proc.code = some (.program [.left, .left] [0]) ∧
      (s.procs[3]?).map Proc.code = some (.program [.left, .right] [1]) := exists_run (by decide +kernel)
  obtain ⟨q, hq, hqcode⟩ := Option.map_eq_some_iff.1 hq
  obtain ⟨r, hr, hrcode⟩ := Option.map_eq_some_iff.1 hr
  obtain ⟨-, hpipe, -⟩ := runcmd_wired hroot hrun
  have hends := hpipe [.left] (.exec [0]) (.exec [1]) .inherited rfl
  exact ⟨_, s, q, r, hrun, hq, hqcode, (hends 2 q hq).1 [] (.inr ⟨_, hqcode⟩) trivial,
    hr, hrcode, (hends 3 r hr).2 [] (.inr ⟨_, hrcode⟩) trivial⟩

end Xv6.Shell
