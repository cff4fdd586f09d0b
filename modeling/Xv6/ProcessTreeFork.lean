import Xv6.ProcessTree

/-!
# `fork` keeps the process tree

The moves of a running process that do not change the table, and the three sections of
`fork`: the slot is allocated, gets its parent, and is made runnable.
-/

namespace Xv6.ProcessTable

open CriticalSections Function

variable {n : ℕ} {initproc p q r : Fin n} {s t : State n} {x : Place n}

theorem asleep_of (hstate : ∀ q, (t.proc q).state = .sleeping →
      (s.proc q).state = .sleeping ∧ (t.proc q).chan = (s.proc q).chan)
    (hplace : ∀ q, q ≠ p → t.place q = s.place q) (hp : (s.proc p).state = .running) :
    ∀ q, t.AsleepInWait q → SleptOn s t q := by
  rintro q ⟨hs, addr, hq⟩
  obtain ⟨hold, hchan⟩ := hstate q hs
  have hne : q ≠ p := by
    rintro rfl
    rw [hp] at hold
    cases hold
  exact ⟨⟨hold, addr, (hplace q hne).symm.trans hq⟩, hchan⟩

section OneSlot

variable {y : Proc n} (ht : t.proc = update s.proc r y)
include ht

theorem kind_of_update : t.kind = update s.kind r y.state.kind := by
  funext q
  simp only [State.kind, ht]
  rcases eq_or_ne q r with rfl | hne <;> simp [State.kind, *]

theorem parent_of_update : t.parent = update s.parent r y.parent := by
  funext q
  simp only [State.parent, ht]
  rcases eq_or_ne q r with rfl | hne <;> simp [State.parent, *]

theorem parent_of_same (hy : y.parent = s.parent r) : t.parent = s.parent := by
  rw [parent_of_update ht, hy, update_eq_self]

theorem sleeping_of_update (hy : y.state ≠ .sleeping) (q : Fin n)
    (h : (t.proc q).state = .sleeping) :
    (s.proc q).state = .sleeping ∧ (t.proc q).chan = (s.proc q).chan := by
  rw [ht] at h ⊢
  rcases eq_or_ne q r with rfl | hne
  · rw [update_self] at h
    exact absurd h hy
  · rw [update_of_ne hne] at h ⊢
    exact ⟨h, rfl⟩

end OneSlot

theorem Tree.goto (h : Tree initproc s) (hrun : (s.proc p).state = .running)
    (hold : (s.place p).embryo = none) (hnew : x.embryo = none)
    (hholds : x.holds = (s.place p).holds) (hknows : Knows initproc s p x) :
    Tree initproc (s.goto p x) := by
  have hplace : ∀ q, q ≠ p → (s.goto p x).place q = s.place q := fun q hq =>
    update_of_ne hq _ _
  have hself : (s.goto p x).place p = x := by simp [State.goto]
  have hasleep := asleep_of (s := s) (t := s.goto p x) (fun _ hs => ⟨hs, rfl⟩) hplace hrun
  apply h.move (t := s.goto p x) rfl rfl hplace (h.mutex.move hholds)
    (kind_running hrun) hold (by rw [hself]; exact hnew)
  · rw [hself]
    apply hknows.frame
    · exact fun _ _ => ⟨rfl, rfl⟩
    · exact fun _ _ hq => hq
    · exact fun _ _ _ hz => hz
    · exact fun _ q hq ha => ⟨hq, (hasleep q ha).1⟩
  · exact fun q ha => Or.inl (hasleep q ha)

theorem Tree.acquire (h : Tree initproc s) (hrun : (s.proc p).state = .running)
    (hlock : s.waitLock = none) (hold : (s.place p).embryo = none) (hnew : x.embryo = none)
    (hholds : x.holds = true) (hknows : Knows initproc { s.goto p x with waitLock := some p } p x) :
    Tree initproc { s.goto p x with waitLock := some p } := by
  have hplace : ∀ q, q ≠ p → (s.goto p x).place q = s.place q := fun q hq =>
    update_of_ne hq _ _
  have hself : (s.goto p x).place p = x := by simp [State.goto]
  have hmutex := h.mutex
  rw [hlock] at hmutex
  apply h.move (t := { s.goto p x with waitLock := some p }) rfl rfl hplace
    (hmutex.acquire hholds) (kind_running hrun) hold (by rw [hself]; exact hnew)
  · simpa only [hself] using hknows
  · exact fun q ha => Or.inl (asleep_of (s := s) (t := s.goto p x) (fun _ hs => ⟨hs, rfl⟩) hplace hrun q ha)

theorem Tree.release (h : Tree initproc s) (hrun : (s.proc p).state = .running)
    (hold : (s.place p).embryo = none) (hholds : (s.place p).holds = true) :
    Tree initproc (s.release p .user) := by
  have hplace : ∀ q, q ≠ p → (s.release p .user).place q = s.place q := fun q hq =>
    update_of_ne hq _ _
  have hself : (s.release p .user).place p = .user := by simp [State.release]
  apply h.move (t := s.release p .user) rfl rfl hplace (h.mutex.release hholds rfl)
    (kind_running hrun) hold (by rw [hself]; rfl)
  · rw [hself]
    trivial
  · exact fun q ha =>
      Or.inl (asleep_of (s := s) (t := s.release p .user) (fun _ hs => ⟨hs, rfl⟩) hplace hrun q ha)

/-- An embryo is filled by the process that allocated it and by nobody else. -/
theorem Tree.alone (h : Tree initproc s) (hp : (s.place p).embryo = some r) (hq : q ≠ p) :
    (s.place q).embryo ≠ some r := fun he => hq (h.forker q p r he hp)

theorem Tree.embryo_kind (h : Tree initproc s) (hq : (s.place q).embryo = some r) :
    s.kind r = .embryo := by
  have hk := h.knows q
  cases hx : s.place q <;> rw [hx] at hq hk <;> cases hq
  · exact hk.1
  · exact hk.1

theorem Tree.place_of_kind (h : Tree initproc s) (hk : s.kind q ≠ .active) : s.place q = .user :=
  by_contra fun hne => hk (h.busy q hne)

theorem Tree.ne_initproc (h : Tree initproc s) (hk : s.kind q ≠ .active) : q ≠ initproc := by
  rintro rfl
  exact hk h.init.1

theorem place_of_update {x : Place n} (ht : t.place = update s.place p x) (q : Fin n) (hq : q ≠ p) :
    t.place q = s.place q := by
  rw [ht, update_of_ne hq]

theorem Tree.allocate {i : ℕ} {np : Fin n} {y : Proc n} (h : Tree initproc s)
    (hrun : (s.proc p).state = .running) (hp : s.place p = .forkScan i)
    (hfree : s.kind np = .free) (hy : y.state = .used) (hpar : y.parent = s.parent np)
    (ht : t.proc = update s.proc np y)
    (htp : t.place = update s.place p (.forkParent np)) (hlock : t.waitLock = s.waitLock) :
    Tree initproc t := by
  have hinactive : s.kind np ≠ .active := by rw [hfree]; decide
  have hnp : np ≠ p := fun he => hinactive (he ▸ kind_running hrun)
  have hkind : t.kind = update s.kind np .embryo := by
    rw [kind_of_update ht, hy]
    rfl
  have hparent := parent_of_same ht hpar
  have hplace := place_of_update htp
  have hself : t.place p = .forkParent np := by rw [htp, update_self]
  exact h.change (p := p) (r := np) {
    kind := fun q hq => by rw [hkind, update_of_ne hq]
    parent := fun q _ => congrFun hparent q
    place := hplace
    mutex := by
      rw [htp, hlock]
      exact h.mutex.move (by rw [hp]; rfl)
    notInit := h.ne_initproc hinactive
    free := fun _ => (congrFun hparent np).trans (h.free np hfree)
    newParent := by simp [hparent, h.free np hfree]
    children := Or.inr (fun q hq => hinactive (h.parent q np hq))
    orphan := fun _ _ => hself
    adopted := by simp [hp]
    forker := by simp [hself, Place.embryo]
    alone := fun q _ he => by simp [h.embryo_kind he] at hfree
    busy := fun _ => by rw [hkind, update_of_ne hnp.symm, kind_running hrun]
    resting := Or.inr (Or.inr (h.place_of_kind hinactive))
    knows := by
      rw [hself]
      exact ⟨by simp [hkind], by rw [hparent, h.free np hfree]⟩
    holder := fun _ _ _ => ⟨congrFun hparent np, by simp [hkind]⟩
    asleep := asleep_of (sleeping_of_update ht (by rw [hy]; decide)) hplace hrun
    awake := fun _ _ _ => by simp [hkind] }

theorem Tree.adopt {np : Fin n} {y : Proc n} (h : Tree initproc s)
    (hrun : (s.proc p).state = .running) (hp : s.place p = .forkParent np)
    (hlock : s.waitLock = none) (hy : y.state = (s.proc np).state) (hpar : y.parent = some p)
    (ht : t.proc = update s.proc np y)
    (htp : t.place = update s.place p (.forkRunnable np)) (htl : t.waitLock = s.waitLock) :
    Tree initproc t := by
  have hk := h.knows p
  rw [hp] at hk
  obtain ⟨hemb, hnone⟩ := hk
  have hinactive : s.kind np ≠ .active := by rw [hemb]; decide
  have hkind : t.kind = s.kind := by
    rw [kind_of_update ht, hy]
    exact update_eq_self np s.kind
  have hparent : t.parent = update s.parent np (some p) := by
    rw [parent_of_update ht, hpar]
  have hplace := place_of_update htp
  have hself : t.place p = .forkRunnable np := by rw [htp, update_self]
  have hempty := h.mutex
  rw [hlock] at hempty
  exact h.change (p := p) (r := np) {
    kind := fun q _ => congrFun hkind q
    parent := fun q hq => by rw [hparent, update_of_ne hq]
    place := hplace
    mutex := by
      rw [htp, htl]
      exact h.mutex.move (by rw [hp]; rfl)
    notInit := h.ne_initproc hinactive
    free := fun hf => by simp [hkind, hemb] at hf
    newParent := fun q hq => by
      rw [hparent, update_self] at hq
      rw [hkind, ← Option.some.inj hq, kind_running hrun]
    children := Or.inr (fun q hq => hinactive (h.parent q np hq))
    orphan := fun _ hq => by simp [hparent] at hq
    adopted := fun q hq => by
      rw [hp] at hq
      cases hq
      rfl
    forker := by simp [hself, Place.embryo]
    alone := fun q hq => h.alone (by rw [hp]; rfl) hq
    busy := fun _ => by rw [hkind, kind_running hrun]
    resting := Or.inr (Or.inr (h.place_of_kind hinactive))
    knows := by
      rw [hself]
      exact ⟨by rw [hkind, hemb], by simp [hparent]⟩
    holder := fun q _ hq => by simp [hempty.not_inside q] at hq
    asleep := by
      refine asleep_of (sleeping_of_update ht ?_) hplace hrun
      intro hs
      rw [State.kind, ← hy, hs] at hemb
      cases hemb
    awake := fun _ _ _ => by simp [hkind, hemb] }

theorem Tree.start {np : Fin n} {y : Proc n} (h : Tree initproc s)
    (hrun : (s.proc p).state = .running) (hp : s.place p = .forkRunnable np)
    (hy : y.state = .runnable) (hpar : y.parent = s.parent np)
    (ht : t.proc = update s.proc np y) (htp : t.place = update s.place p .user)
    (htl : t.waitLock = s.waitLock) : Tree initproc t := by
  have hk := h.knows p
  rw [hp] at hk
  obtain ⟨hemb, hchild⟩ := hk
  have hinactive : s.kind np ≠ .active := by rw [hemb]; decide
  have hnp : np ≠ p := fun he => hinactive (he ▸ kind_running hrun)
  have hkind : t.kind = update s.kind np .active := by
    rw [kind_of_update ht, hy]
    rfl
  have hparent := parent_of_same ht hpar
  have hplace := place_of_update htp
  have hself : t.place p = .user := by rw [htp, update_self]
  exact h.change (p := p) (r := np) {
    kind := fun q hq => by rw [hkind, update_of_ne hq]
    parent := fun q _ => congrFun hparent q
    place := hplace
    mutex := by
      rw [htp, htl]
      exact h.mutex.move (by rw [hp]; rfl)
    notInit := h.ne_initproc hinactive
    free := fun hf => by simp [hkind] at hf
    newParent := fun q hq => by
      rw [hparent, hchild] at hq
      rw [← Option.some.inj hq, hkind, update_of_ne hnp.symm, kind_running hrun]
    children := Or.inl (by rw [hkind, update_self])
    orphan := fun _ hq => by simp [hparent, hchild] at hq
    adopted := by simp [hp]
    forker := by simp [hself, Place.embryo]
    alone := fun q hq => h.alone (by rw [hp]; rfl) hq
    busy := fun hu => absurd hself hu
    resting := Or.inl (by rw [hkind, update_self])
    knows := by
      rw [hself]
      trivial
    holder := fun _ _ _ => ⟨congrFun hparent np, by simp [hkind]⟩
    asleep := asleep_of (sleeping_of_update ht (by rw [hy]; decide)) hplace hrun
    awake := fun _ _ _ => by simp [hkind] }

theorem tree_forkTurn {i : ℕ} (h : Tree initproc s) (hrun : (s.proc p).state = .running)
    (hp : s.place p = .forkScan i) (np : Fin n) (ok : Bool) :
    Tree initproc (forkTurn s p np ok) := by
  have hemb : (s.place p).embryo = none := by rw [hp]; rfl
  have hnot : (s.place p).holds = false := by rw [hp]; rfl
  rw [forkTurn]
  split
  · rename_i hunused
    have hfree : s.kind np = .free := by rw [State.kind, hunused]; rfl
    split
    · refine h.allocate hrun hp hfree ?_ ?_ rfl rfl rfl <;> rfl
    · -- `freeproc` on a slot that was free changes nothing here
      have hgoto := h.goto (x := .user) hrun hemb rfl (by rw [hnot]; rfl) trivial
      apply hgoto.restate
      · change (s.setProc np (freeproc (s.proc np))).kind = s.kind
        rw [kind_setProc, show (freeproc (s.proc np)).state.kind = s.kind np from hfree.symm,
          update_eq_self]
      · change (s.setProc np (freeproc (s.proc np))).parent = s.parent
        rw [parent_setProc, show (freeproc (s.proc np)).parent = s.parent np from
          (h.free np hfree).symm, update_eq_self]
      · rfl
      · rfl
      · rintro q ⟨hs, hq⟩
        obtain ⟨hold, hchan⟩ := sleeping_of_update (s := s)
          (t := s.setProc np (freeproc (s.proc np))) rfl (by simp [freeproc]) q hs
        exact ⟨⟨hold, hq⟩, hchan⟩
  · exact h.goto hrun hemb rfl (by rw [hnot]; rfl) trivial

end Xv6.ProcessTable
