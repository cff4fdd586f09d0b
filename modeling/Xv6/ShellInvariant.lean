import Xv6.ShellWiring

/-!
# The processes of a command together

What holds of all processes of a command at every moment. A call changes the process that makes it;
besides, it may make a child or tell of the exit of one.
-/

namespace Xv6.Shell

variable {α : Type} {root : Cmd α} {s t : State α} {pr pr' q : Proc α} {i j : ℕ} {e : Effect α}

def State.children (s : State α) (pid : ℕ) : Set ℕ :=
  { j | ∃ q, s.procs[j]? = some q ∧ q.parent = some pid ∧ q.reaped = false }

/-- No node is going to be run by two processes. -/
def State.Crossed (s : State α) : Prop :=
  ∀ (i j : ℕ) (pr q : Proc α), s.procs[i]? = some pr → s.procs[j]? = some q → i ≠ j →
    ∀ p ∈ pr.code.targets, ∀ p' ∈ q.code.targets, Apart p p'

/-- The parent of the left command of a list waits for it. -/
def State.Listed (root : Cmd α) (s : State α) : Prop :=
  ∀ (j : ℕ) (q : Proc α), s.procs[j]? = some q → q.reaped = false →
    ∀ place left right env, commandAt root place = some (.list left right, env) → q.born = place ++ [.left] →
      ∃ (i : ℕ) (pr : Proc α), q.parent = some i ∧ s.procs[i]? = some pr ∧
        pr.code = .wait (.run (place ++ [.right]) right)

/-- A process was made for the left command of a list before the right one is run. -/
def State.Begun (root : Cmd α) (s : State α) : Prop :=
  ∀ (i : ℕ) (pr : Proc α), s.procs[i]? = some pr →
    ∀ place left right env, commandAt root place = some (.list left right, env) →
      pr.code.goal = some (place ++ [.right]) →
        ∃ (j : ℕ) (q : Proc α), s.procs[j]? = some q ∧ q.born = place ++ [.left]

structure Inv (root : Cmd α) (s : State α) : Prop where
  works : ∀ (i : ℕ) (pr : Proc α), s.procs[i]? = some pr → Works root pr.place pr.code pr.fds
  owed : ∀ (i : ℕ) (pr : Proc α), s.procs[i]? = some pr → Owed pr.code (s.children i)
  parent : ∀ (i : ℕ) (pr : Proc α) p, s.procs[i]? = some pr → pr.parent = some p → p < s.procs.length
  reaped : ∀ (i : ℕ) (pr : Proc α), s.procs[i]? = some pr → pr.reaped = true → pr.code.isZombie = true
  apart : ∀ (i : ℕ) (pr : Proc α), s.procs[i]? = some pr → pr.code.targets.Pairwise Apart
  cross : s.Crossed
  listed : s.Listed root
  begun : s.Begun root
  made : s.made.Nodup
  /-- a node that has made its pipe is not run again -/
  fresh : ∀ m ∈ s.made, ∀ (i : ℕ) (pr : Proc α), s.procs[i]? = some pr → ∀ p ∈ pr.code.targets, ¬ p <+: m

theorem getElem?_set_some {β : Type} {l : List β} {i k : ℕ} {x y : β} (h : (l.set i x)[k]? = some y) :
    k = i ∧ y = x ∨ k ≠ i ∧ l[k]? = some y := by
  by_cases hk : k = i
  · subst hk
    have hlen : k < l.length := by simpa using (List.getElem?_eq_some_iff.1 h).1
    rw [List.getElem?_set_self hlen] at h
    exact .inl ⟨rfl, (Option.some.inj h).symm⟩
  · rw [List.getElem?_set_ne (Ne.symm hk)] at h
    exact .inr ⟨hk, h⟩

/-- Process `i` has become `pr'`, and the others are the same but for a child that has been waited
for. -/
structure Replaced (s t : State α) (i : ℕ) (pr' : Proc α) : Prop where
  length : t.procs.length = s.procs.length
  self : t.procs[i]? = some pr'
  other : ∀ k ≠ i, ∀ y' : Proc α, t.procs[k]? = some y' →
    ∃ y, s.procs[k]? = some y ∧ y' = { y with reaped := y'.reaped } ∧
      (y'.reaped = false → y.reaped = false) ∧ (y'.reaped = true → y.reaped = true ∨ y.code.isZombie = true)
  back : ∀ k ≠ i, ∀ y : Proc α, s.procs[k]? = some y →
    ∃ y', t.procs[k]? = some y' ∧ y' = { y with reaped := y'.reaped }

theorem Replaced.lookup (h : Replaced s t i pr') {k : ℕ} {y' : Proc α} (hy' : t.procs[k]? = some y') :
    k = i ∧ y' = pr' ∨ k ≠ i ∧ ∃ y, s.procs[k]? = some y ∧ y' = { y with reaped := y'.reaped } ∧
      (y'.reaped = false → y.reaped = false) ∧ (y'.reaped = true → y.reaped = true ∨ y.code.isZombie = true) := by
  by_cases hk : k = i
  · subst hk
    rw [h.self] at hy'
    exact .inl ⟨rfl, (Option.some.inj hy').symm⟩
  · exact .inr ⟨hk, h.other k hk y' hy'⟩

theorem Replaced.set (hpr : s.procs[i]? = some pr) (pr' : Proc α) (made : List Place) :
    Replaced s ⟨s.procs.set i pr', made⟩ i pr' where
  length := List.length_set
  self := List.getElem?_set_self (List.getElem?_eq_some_iff.1 hpr).1
  other := by
    intro k hk y hy
    rw [List.getElem?_set_ne (Ne.symm hk)] at hy
    exact ⟨y, hy, rfl, id, .inl⟩
  back := by
    intro k hk y hy
    refine ⟨y, ?_, rfl⟩
    rw [List.getElem?_set_ne (Ne.symm hk)]
    exact hy

theorem Replaced.reap (hpr : s.procs[i]? = some pr) (hq : s.procs[j]? = some q) (hzombie : q.code.isZombie = true)
    (pr' : Proc α) : Replaced s { s with procs := (s.procs.set j { q with reaped := true }).set i pr' } i pr' where
  length := by simp
  self := List.getElem?_set_self (by simpa using (List.getElem?_eq_some_iff.1 hpr).1)
  other := by
    intro k hk y hy
    rw [List.getElem?_set_ne (Ne.symm hk)] at hy
    rcases getElem?_set_some hy with ⟨rfl, rfl⟩ | ⟨-, hy⟩
    · exact ⟨q, hq, rfl, (fun h => by cases h), fun _ => .inr hzombie⟩
    · exact ⟨y, hy, rfl, id, .inl⟩
  back := by
    intro k hk y hy
    rw [List.getElem?_set_ne (Ne.symm hk)]
    by_cases hkj : k = j
    · subst hkj
      cases hq.symm.trans hy
      exact ⟨_, List.getElem?_set_self (List.getElem?_eq_some_iff.1 hq).1, rfl⟩
    · rw [List.getElem?_set_ne (Ne.symm hkj)]
      exact ⟨y, hy, rfl⟩

theorem children_set (hpr : s.procs[i]? = some pr) (hparent : pr'.parent = pr.parent)
    (hreaped : pr'.reaped = pr.reaped)
    (made : List Place) (k : ℕ) : (⟨s.procs.set i pr', made⟩ : State α).children k = s.children k := by
  ext j
  constructor
  · rintro ⟨q, hq, hp, hr⟩
    rcases getElem?_set_some hq with ⟨rfl, rfl⟩ | ⟨-, hq⟩
    · exact ⟨pr, hpr, hparent ▸ hp, hreaped ▸ hr⟩
    · exact ⟨q, hq, hp, hr⟩
  · rintro ⟨q, hq, hp, hr⟩
    by_cases hj : j = i
    · subst hj
      cases hpr.symm.trans hq
      exact ⟨pr', List.getElem?_set_self (List.getElem?_eq_some_iff.1 hpr).1, hparent.trans hp, hreaped.trans hr⟩
    · exact ⟨q, by rwa [List.getElem?_set_ne (Ne.symm hj)], hp, hr⟩

theorem children_reap (hq : s.procs[j]? = some q) (made : List Place) (k : ℕ) :
    (⟨s.procs.set j { q with reaped := true }, made⟩ : State α).children k = s.children k \ {j} := by
  ext k'
  constructor
  · rintro ⟨y, hy, hp, hr⟩
    rcases getElem?_set_some hy with ⟨rfl, rfl⟩ | ⟨hne, hy⟩
    · cases hr
    · exact ⟨⟨y, hy, hp, hr⟩, hne⟩
  · rintro ⟨⟨y, hy, hp, hr⟩, hne⟩
    exact ⟨y, by rwa [List.getElem?_set_ne (Ne.symm hne)], hp, hr⟩

section Replaced

variable (h : Inv root s) (hpr : s.procs[i]? = some pr) (hadv : Advances root i pr pr' e)
  (hrep : Replaced s t i pr') (hle : ∀ p' ∈ pr'.code.targets, ∃ p ∈ pr.code.targets, p <+: p')

include h hpr hrep

include hle in
theorem Replaced.crossed : t.Crossed := by
  -- what the process is going to run lies below what it was going to run
  have hnew : ∀ (k : ℕ) (y : Proc α), k ≠ i → s.procs[k]? = some y →
      ∀ p' ∈ pr'.code.targets, ∀ p ∈ y.code.targets, Apart p' p := by
    intro k y hk hy p' hp' p hp
    obtain ⟨p₀, hp₀, hle₀⟩ := hle p' hp'
    exact (h.cross i k pr y hpr hy (Ne.symm hk) p₀ hp₀ p hp).below hle₀
  intro k l y z hy hz hkl p hp p' hp'
  rcases hrep.lookup hy with ⟨rfl, rfl⟩ | ⟨hk, y₀, hy₀, hy, -⟩
  · rcases hrep.lookup hz with ⟨rfl, rfl⟩ | ⟨hl, z₀, hz₀, hz, -⟩
    · exact absurd rfl hkl
    · rw [hz] at hp'
      exact hnew l z₀ hl hz₀ p hp p' hp'
  · rw [hy] at hp
    rcases hrep.lookup hz with ⟨rfl, rfl⟩ | ⟨hl, z₀, hz₀, hz, -⟩
    · exact (hnew k y₀ hk hy₀ p' hp' p hp).symm
    · rw [hz] at hp'
      exact h.cross k l y₀ z₀ hy₀ hz₀ hkl p hp p' hp'

include hadv

theorem Replaced.listed (hwait : ∀ place cmd, pr.code = .wait (.run place cmd) → pr'.code = .run place cmd)
    (hself : e.After (s.children i) (t.children i)) : t.Listed root := by
  intro k y hy hr place left right env hat hborn
  have hold : ∃ y₀, s.procs[k]? = some y₀ ∧ y₀.reaped = false ∧ y₀.born = y.born ∧ y₀.parent = y.parent := by
    rcases hrep.lookup hy with ⟨rfl, rfl⟩ | ⟨-, y₀, hy₀, heq, hr₀, -⟩
    · exact ⟨pr, hpr, hadv.reaped ▸ hr, hadv.born.symm, hadv.parent.symm⟩
    · rw [heq]
      exact ⟨y₀, hy₀, hr₀ hr, rfl, rfl⟩
  obtain ⟨y₀, hy₀, hr₀, hb₀, hp₀⟩ := hold
  obtain ⟨k', pr₀, hk', hpr₀, hcode⟩ := h.listed k y₀ hy₀ hr₀ place left right env hat (hb₀.trans hborn)
  by_cases hi : k' = i
  · -- it would have waited for this child
    subst hi
    cases hpr.symm.trans hpr₀
    have hnone := hadv.owed (h.owed _ pr hpr) hself
    rw [hwait _ _ hcode] at hnone
    have hmem : k ∈ t.children k' := ⟨y, hy, hp₀ ▸ hk', hr⟩
    rw [show t.children k' = ∅ from hnone] at hmem
    exact hmem.elim
  · obtain ⟨z, hz, hzeq⟩ := hrep.back k' hi pr₀ hpr₀
    refine ⟨k', z, hp₀ ▸ hk', hz, ?_⟩
    rw [hzeq]
    exact hcode

theorem Replaced.begun (hgoal : pr'.code.goal = none ∨ pr'.code.goal = pr.code.goal ∨
    ∃ q, pr'.code.goal = some (q ++ [.down])) : t.Begun root := by
  intro k y hy place left right env hat hright
  have hold : ∃ (j : ℕ) (q : Proc α), s.procs[j]? = some q ∧ q.born = place ++ [.left] := by
    rcases hrep.lookup hy with ⟨rfl, rfl⟩ | ⟨-, y₀, hy₀, heq, -⟩
    · rcases hgoal with hnone | hsame | ⟨q, hdown⟩
      · cases hnone.symm.trans hright
      · exact h.begun k pr hpr place left right env hat (hsame.symm.trans hright)
      · have hlast := (List.append_inj' (Option.some.inj (hdown.symm.trans hright)) rfl).2
        cases hlast
    · rw [heq] at hright
      exact h.begun k y₀ hy₀ place left right env hat hright
  obtain ⟨j, q, hq, hborn⟩ := hold
  by_cases hj : j = i
  · subst hj
    cases hpr.symm.trans hq
    exact ⟨j, pr', hrep.self, hadv.born.trans hborn⟩
  · obtain ⟨q', hq', heq⟩ := hrep.back j hj q hq
    refine ⟨j, q', hq', ?_⟩
    rw [heq]
    exact hborn

include hle in
theorem Inv.replaced (hapart : pr.code.targets.Pairwise Apart → pr'.code.targets.Pairwise Apart)
    (hwait : ∀ place cmd, pr.code = .wait (.run place cmd) → pr'.code = .run place cmd)
    (hself : e.After (s.children i) (t.children i)) (hother : ∀ k ≠ i, t.children k = s.children k)
    (hgoal : pr'.code.goal = none ∨ pr'.code.goal = pr.code.goal ∨ ∃ q, pr'.code.goal = some (q ++ [.down]))
    (hmade : t.made.Nodup)
    (hfresh : ∀ m ∈ t.made, m ∉ s.made →
      ∀ (k : ℕ) (y : Proc α), t.procs[k]? = some y → ∀ p ∈ y.code.targets, ¬ p <+: m) : Inv root t where
  works := by
    intro k y hy
    rcases hrep.lookup hy with ⟨rfl, rfl⟩ | ⟨-, y, hold, hy, -⟩
    · exact hadv.works
    · rw [hy]
      exact h.works k y hold
  owed := by
    intro k y hy
    rcases hrep.lookup hy with ⟨rfl, rfl⟩ | ⟨hk, y, hold, hy, -⟩
    · exact hadv.owed (h.owed k pr hpr) hself
    · rw [hy, hother k hk]
      exact h.owed k y hold
  parent := by
    intro k y p hy hp
    rw [hrep.length]
    rcases hrep.lookup hy with ⟨rfl, rfl⟩ | ⟨-, y, hold, hy, -⟩
    · exact h.parent k pr p hpr (hadv.parent ▸ hp)
    · rw [hy] at hp
      exact h.parent k y p hold hp
  reaped := by
    intro k y hy hr
    rcases hrep.lookup hy with ⟨rfl, rfl⟩ | ⟨-, y₀, hy₀, heq, -, hr₀⟩
    · have hzombie := h.reaped k pr hpr (hadv.reaped ▸ hr)
      rw [hadv.alive] at hzombie
      cases hzombie
    · rw [heq]
      exact (hr₀ hr).elim (h.reaped k y₀ hy₀) id
  apart := by
    intro k y hy
    rcases hrep.lookup hy with ⟨rfl, rfl⟩ | ⟨-, y, hold, hy, -⟩
    · exact hapart (h.apart k pr hpr)
    · rw [hy]
      exact h.apart k y hold
  cross := hrep.crossed h hpr hle
  listed := hrep.listed h hpr hadv hwait hself
  begun := hrep.begun h hpr hadv hgoal
  made := hmade
  fresh := by
    intro m hm k y hy p hp
    by_cases hold : m ∈ s.made
    · rcases hrep.lookup hy with ⟨rfl, rfl⟩ | ⟨-, y₀, hy₀, heq, -⟩
      · obtain ⟨p₀, hp₀, hle₀⟩ := hle p hp
        exact fun hpm => h.fresh m hold k pr hpr p₀ hp₀ (hle₀.trans hpm)
      · rw [heq] at hp
        exact h.fresh m hold k y₀ hy₀ p hp
    · exact hfresh m hm hold k y hy p hp

end Replaced

section Fork

variable {child : Proc α} {k : ℕ} {y : Proc α}

def State.forked (s : State α) (i : ℕ) (pr' child : Proc α) : State α :=
  { s with procs := s.procs.set i pr' ++ [child] }

theorem forked_lookup (hy : (s.forked i pr' child).procs[k]? = some y) :
    k = i ∧ k < s.procs.length ∧ y = pr' ∨ k ≠ i ∧ k < s.procs.length ∧ s.procs[k]? = some y ∨
      k = s.procs.length ∧ y = child := by
  rw [State.forked, List.getElem?_append, List.length_set] at hy
  split at hy
  · rename_i hlt
    rcases getElem?_set_some hy with ⟨hk, rfl⟩ | ⟨hk, hy⟩
    · exact .inl ⟨hk, hlt, rfl⟩
    · exact .inr (.inl ⟨hk, hlt, hy⟩)
  · rename_i hge
    have hk : k = s.procs.length := by
      have := (List.getElem?_eq_some_iff.1 hy).1
      simp at this
      omega
    subst hk
    simp at hy
    exact .inr (.inr ⟨rfl, hy.symm⟩)

theorem forked_self (hpr : s.procs[i]? = some pr) : (s.forked i pr' child).procs[i]? = some pr' := by
  have hlt : i < s.procs.length := (List.getElem?_eq_some_iff.1 hpr).1
  rw [State.forked, List.getElem?_append_left (by simpa using hlt)]
  exact List.getElem?_set_self hlt

theorem forked_other (hk : k ≠ i) (hy : s.procs[k]? = some y) : (s.forked i pr' child).procs[k]? = some y := by
  have hlt : k < s.procs.length := (List.getElem?_eq_some_iff.1 hy).1
  rw [State.forked, List.getElem?_append_left (by simpa using hlt), List.getElem?_set_ne (Ne.symm hk)]
  exact hy

theorem forked_child : (s.forked i pr' child).procs[s.procs.length]? = some child := by
  rw [State.forked, List.getElem?_append_right (by simp)]
  simp

theorem forked_children (hpr : s.procs[i]? = some pr) (hparent : pr'.parent = pr.parent)
    (hreaped : pr'.reaped = pr.reaped) {pid : ℕ} (hchild : child.parent = some i) (hlive : child.reaped = false) :
    (s.forked i pr' child).children pid =
      if pid = i then insert s.procs.length (s.children pid) else s.children pid := by
  have hold : ∀ j ∈ s.children pid, j ∈ (s.forked i pr' child).children pid := by
    rintro j ⟨q, hq, hp, hr⟩
    by_cases hj : j = i
    · subst hj
      cases hpr.symm.trans hq
      exact ⟨pr', forked_self hpr, hparent.trans hp, hreaped.trans hr⟩
    · exact ⟨q, forked_other hj hq, hp, hr⟩
  have hnew : ∀ j ∈ (s.forked i pr' child).children pid, j ∈ s.children pid ∨ j = s.procs.length ∧ pid = i := by
    rintro j ⟨q, hq, hp, hr⟩
    rcases forked_lookup hq with ⟨rfl, -, rfl⟩ | ⟨-, -, hq⟩ | ⟨rfl, rfl⟩
    · exact .inl ⟨pr, hpr, hparent ▸ hp, hreaped ▸ hr⟩
    · exact .inl ⟨q, hq, hp, hr⟩
    · exact .inr ⟨rfl, Option.some.inj (hp.symm.trans hchild)⟩
  ext j
  split
  · rename_i hpid
    constructor
    · intro hj
      rcases hnew j hj with hj | ⟨hj, -⟩
      · exact .inr hj
      · exact .inl hj
    · rintro (rfl | hj)
      · exact ⟨child, forked_child, hpid ▸ hchild, hlive⟩
      · exact hold j hj
  · rename_i hpid
    constructor
    · intro hj
      rcases hnew j hj with hj | ⟨-, hj⟩
      · exact hj
      · exact absurd hj hpid
    · exact hold j

theorem length_notMem_children (pid : ℕ) : s.procs.length ∉ s.children pid := by
  rintro ⟨q, hq, -⟩
  exact absurd (List.getElem?_eq_some_iff.1 hq).1 (lt_irrefl _)

theorem Inv.children_length (h : Inv root s) : s.children s.procs.length = ∅ := by
  rw [Set.eq_empty_iff_forall_notMem]
  rintro j ⟨q, hq, hp, -⟩
  exact absurd (h.parent j q _ hq hp) (lt_irrefl _)

section Clauses

variable {code : Code α} {p : Place} (h : Inv root s) (hpr : s.procs[i]? = some pr)
  (hadv : Advances root i pr pr' (.fork ⟨code, pr.fds, some i, p, p, false⟩))
  (hleft : LeftFirst root p code pr'.code)

include h hpr

theorem Inv.fork_crossed (htargets : pr.code.targets = code.targets ++ pr'.code.targets) :
    (s.forked i pr' ⟨code, pr.fds, some i, p, p, false⟩).Crossed := by
  have hall := h.apart i pr hpr
  rw [htargets, List.pairwise_append] at hall
  -- the parent and the child have the nodes of the parent between them
  have hold : ∀ (k : ℕ) (y : Proc α), k ≠ i → s.procs[k]? = some y →
      ∀ p' ∈ code.targets ++ pr'.code.targets, ∀ q ∈ y.code.targets, Apart p' q := by
    intro k y hk hy p' hp' q hq
    exact h.cross i k pr y hpr hy (Ne.symm hk) p' (htargets ▸ hp') q hq
  intro k l y z hy hz hkl q hq q' hq'
  rcases forked_lookup hy with ⟨rfl, -, rfl⟩ | ⟨hk, -, hy₀⟩ | ⟨rfl, rfl⟩
  · rcases forked_lookup hz with ⟨rfl, -, rfl⟩ | ⟨hl, -, hz⟩ | ⟨rfl, rfl⟩
    · exact absurd rfl hkl
    · exact hold l z hl hz q (List.mem_append_right _ hq) q' hq'
    · exact (hall.2.2 q' hq' q hq).symm
  · rcases forked_lookup hz with ⟨rfl, -, rfl⟩ | ⟨-, -, hz⟩ | ⟨rfl, rfl⟩
    · exact (hold k y hk hy₀ q' (List.mem_append_right _ hq') q hq).symm
    · exact h.cross k l y z hy₀ hz hkl q hq q' hq'
    · exact (hold k y hk hy₀ q' (List.mem_append_left _ hq') q hq).symm
  · rcases forked_lookup hz with ⟨rfl, -, rfl⟩ | ⟨hl, -, hz⟩ | ⟨rfl, rfl⟩
    · exact hall.2.2 q hq q' hq'
    · exact hold l z hl hz q (List.mem_append_left _ hq) q' hq'
    · exact absurd rfl hkl

include hadv hleft

theorem Inv.fork_listed (hcode : pr.code = .fork p code pr'.code) :
    (s.forked i pr' ⟨code, pr.fds, some i, p, p, false⟩).Listed root := by
  intro k y hy hr place left right env hat hborn
  have hold : ∀ (y₀ : Proc α), s.procs[k]? = some y₀ → y₀.reaped = false → y₀.born = place ++ [.left] →
      ∃ (i' : ℕ) (pr₀ : Proc α), y₀.parent = some i' ∧
        (s.forked i pr' ⟨code, pr.fds, some i, p, p, false⟩).procs[i']? = some pr₀ ∧
          pr₀.code = .wait (.run (place ++ [.right]) right) := by
    intro y₀ hy₀ hr₀ hb₀
    obtain ⟨i', pr₀, hi', hpr₀, hwait⟩ := h.listed k y₀ hy₀ hr₀ place left right env hat hb₀
    refine ⟨i', pr₀, hi', forked_other ?_ hpr₀, hwait⟩
    rintro rfl
    cases hpr.symm.trans hpr₀
    cases hcode.symm.trans hwait
  rcases forked_lookup hy with ⟨rfl, -, rfl⟩ | ⟨-, -, hy⟩ | ⟨rfl, rfl⟩
  · rw [hadv.parent]
    exact hold pr hpr (hadv.reaped ▸ hr) (hadv.born ▸ hborn)
  · exact hold y hy hr hborn
  · exact ⟨i, pr', rfl, forked_self hpr, (hleft place left right env hat).1 hborn⟩

theorem Inv.fork_begun : (s.forked i pr' ⟨code, pr.fds, some i, p, p, false⟩).Begun root := by
  intro k y hy place left right env hat hright
  have hold : (∃ (j : ℕ) (q : Proc α), s.procs[j]? = some q ∧ q.born = place ++ [.left]) →
      ∃ (j : ℕ) (q : Proc α), (s.forked i pr' ⟨code, pr.fds, some i, p, p, false⟩).procs[j]? = some q ∧
        q.born = place ++ [.left] := by
    rintro ⟨j, q, hq, hborn⟩
    by_cases hj : j = i
    · subst hj
      cases hpr.symm.trans hq
      exact ⟨j, pr', forked_self hpr, hadv.born.trans hborn⟩
    · exact ⟨j, q, forked_other hj hq, hborn⟩
  obtain ⟨-, hchild, hnext⟩ := hleft place left right env hat
  rcases forked_lookup hy with ⟨rfl, -, rfl⟩ | ⟨-, -, hy⟩ | ⟨rfl, rfl⟩
  · exact ⟨_, _, forked_child, hnext hright⟩
  · exact hold (h.begun k y hy place left right env hat hright)
  · exact absurd hright hchild

end Clauses

theorem Inv.fork (h : Inv root s) (hpr : s.procs[i]? = some pr) (hadv : Advances root i pr pr' (.fork child)) :
    Inv root (s.forked i pr' child) := by
  obtain ⟨p, code, hcode, rfl⟩ := hadv.call
  have hworks := h.works i pr hpr
  have howed := h.owed i pr hpr
  rw [hcode] at hworks howed
  have htargets : pr.code.targets = code.targets ++ pr'.code.targets := hadv.targets
  have hi : i < s.procs.length := (List.getElem?_eq_some_iff.1 hpr).1
  have hchildren : ∀ pid, (s.forked i pr' ⟨code, pr.fds, some i, p, p, false⟩).children pid =
      if pid = i then insert s.procs.length (s.children pid) else s.children pid :=
    fun _ => forked_children hpr hadv.parent hadv.reaped rfl rfl
  have hall := h.apart i pr hpr
  rw [htargets, List.pairwise_append] at hall
  constructor
  case works =>
    intro k y hy
    rcases forked_lookup hy with ⟨rfl, -, rfl⟩ | ⟨-, -, hy⟩ | ⟨rfl, rfl⟩
    · exact hadv.works
    · exact h.works k y hy
    · exact hworks.2.1
  case owed =>
    intro k y hy
    rw [hchildren]
    rcases forked_lookup hy with ⟨rfl, -, rfl⟩ | ⟨hk, -, hy⟩ | ⟨rfl, rfl⟩
    · rw [if_pos rfl]
      exact howed.2 _ (length_notMem_children k)
    · rw [if_neg hk]
      exact h.owed k y hy
    · rw [if_neg hi.ne', h.children_length]
      exact howed.1
  case parent =>
    intro k y q hy hq
    have hlen : (s.forked i pr' ⟨code, pr.fds, some i, p, p, false⟩).procs.length = s.procs.length + 1 := by
      simp [State.forked]
    rw [hlen]
    rcases forked_lookup hy with ⟨rfl, -, rfl⟩ | ⟨-, -, hy⟩ | ⟨rfl, rfl⟩
    · exact (h.parent k pr q hpr (hadv.parent ▸ hq)).trans (Nat.lt_succ_self _)
    · exact (h.parent k y q hy hq).trans (Nat.lt_succ_self _)
    · cases hq
      exact hi.trans (Nat.lt_succ_self _)
  case reaped =>
    intro k y hy hr
    rcases forked_lookup hy with ⟨rfl, -, rfl⟩ | ⟨-, -, hy⟩ | ⟨rfl, rfl⟩
    · have := h.reaped k pr hpr (hadv.reaped ▸ hr)
      rw [hadv.alive] at this
      cases this
    · exact h.reaped k y hy hr
    · cases hr
  case apart =>
    intro k y hy
    rcases forked_lookup hy with ⟨rfl, -, rfl⟩ | ⟨-, -, hy⟩ | ⟨rfl, rfl⟩
    · exact hall.2.1
    · exact h.apart k y hy
    · exact hall.1
  case cross => exact h.fork_crossed hpr htargets
  case listed => exact h.fork_listed hpr hadv hworks.2.2.2 hcode
  case begun => exact h.fork_begun hpr hadv hworks.2.2.2
  case made => exact h.made
  case fresh =>
    intro m hm k y hy q hq
    rcases forked_lookup hy with ⟨rfl, -, rfl⟩ | ⟨-, -, hy⟩ | ⟨rfl, rfl⟩
    · exact h.fresh m hm k pr hpr q (htargets ▸ List.mem_append_right _ hq)
    · exact h.fresh m hm k y hy q hq
    · exact h.fresh m hm i pr hpr q (htargets ▸ List.mem_append_left _ hq)

end Fork

end Xv6.Shell
