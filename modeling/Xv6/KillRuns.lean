import Xv6.KillAndTrace

/-!
# Whom `kill` reaches

An unused slot has the pid 0, and `kill` does not look at the state of the slot. As long as
nobody calls `kill(0)` it reaches processes only, and only those with the pid it was given.
-/

namespace Xv6.KillAndTrace

open Function TransitionRuns
open ProcessTable (Tree SameSlot SlotEffect slotEffect_step sameSlot_exit tree_step tree_userinit freeproc newborn)

variable {n : ℕ} {initproc p q r : Fin n} {s t : State n} {c : Scan}

/-- What a call of `kill` that is under way has established. -/
structure Scanned (s : State n) (c : Scan) : Prop where
  nonzero : c.pid ≠ 0
  births : c.births ≤ s.table.births
  marked : ∀ q, s.Live q → (s.proc q).pid = c.pid → s.marked q = true
  passed : ∀ q, q.val < c.next → s.Live q → (s.proc q).pid = c.pid → c.births ≤ (s.proc q).uid

structure Marks (s : State n) : Prop where
  unused : ∀ q, ¬ s.Live q → (s.proc q).pid = 0 ∧ (s.proc q).killed = false
  killed : ∀ q, s.Live q → (s.proc q).killed = true → s.marked q = true
  scan : ∀ p c, s.killing p = some c → Scanned s c

theorem SameSlot.live {s t : State n} (h : SameSlot (s.proc q) (t.proc q)) : t.Live q ↔ s.Live q :=
  not_congr h.unused

theorem Scanned.same (h : Scanned s c) (hslots : ∀ q, SameSlot (s.proc q) (t.proc q))
    (hbirths : t.table.births = s.table.births) (hmarked : t.marked = s.marked) : Scanned t c where
  nonzero := h.nonzero
  births := hbirths ▸ h.births
  marked := by
    intro q hq hpid
    rw [(hslots q).pid] at hpid
    rw [hmarked]
    exact h.marked q (SameSlot.live (hslots q) |>.1 hq) hpid
  passed := by
    intro q hlt hq hpid
    rw [(hslots q).pid] at hpid
    rw [(hslots q).uid]
    exact h.passed q hlt (SameSlot.live (hslots q) |>.1 hq) hpid

theorem Marks.same (h : Marks s) (hslots : ∀ q, SameSlot (s.proc q) (t.proc q))
    (hbirths : t.table.births = s.table.births) (hmarked : t.marked = s.marked)
    (hkilling : t.killing = s.killing) : Marks t where
  unused := by
    intro q hq
    rw [(hslots q).pid, (hslots q).killed]
    exact h.unused q (fun hs => hq (SameSlot.live (hslots q) |>.2 hs))
  killed := by
    intro q hq hkilled
    rw [(hslots q).killed] at hkilled
    rw [hmarked]
    exact h.killed q (SameSlot.live (hslots q) |>.1 hq) hkilled
  scan := by
    intro p c hc
    rw [hkilling] at hc
    exact (h.scan p c hc).same hslots hbirths hmarked

structure SlotChange (s t : State n) (r : Fin n) (y : ProcessTable.Proc n) (m : Bool) : Prop where
  proc : t.table.proc = update s.table.proc r y
  births : s.table.births ≤ t.table.births
  marked : t.marked = update s.marked r m

variable {y : ProcessTable.Proc n} {m : Bool}

theorem SlotChange.proc_self (h : SlotChange s t r y m) : t.proc r = y := by
  rw [State.proc, h.proc, update_self]

theorem SlotChange.proc_other (h : SlotChange s t r y m) (hq : q ≠ r) : t.proc q = s.proc q := by
  rw [State.proc, h.proc, update_of_ne hq, State.proc]

theorem SlotChange.marked_self (h : SlotChange s t r y m) : t.marked r = m := by
  rw [h.marked, update_self]

theorem SlotChange.marked_other (h : SlotChange s t r y m) (hq : q ≠ r) : t.marked q = s.marked q := by
  rw [h.marked, update_of_ne hq]

theorem Scanned.change (h : Scanned s c) (ht : SlotChange s t r y m)
    (hy : y.state ≠ .unused → y.pid = c.pid → m = true ∧ (r.val < c.next → c.births ≤ y.uid)) :
    Scanned t c where
  nonzero := h.nonzero
  births := h.births.trans ht.births
  marked := by
    intro q hq hpid
    rw [State.Live] at hq
    rcases eq_or_ne q r with rfl | hne
    · rw [ht.proc_self] at hq hpid
      rw [ht.marked_self]
      exact (hy hq hpid).1
    · rw [ht.proc_other hne] at hq hpid
      rw [ht.marked_other hne]
      exact h.marked q hq hpid
  passed := by
    intro q hlt hq hpid
    rw [State.Live] at hq
    rcases eq_or_ne q r with rfl | hne
    · rw [ht.proc_self] at hq hpid ⊢
      exact (hy hq hpid).2 hlt
    · rw [ht.proc_other hne] at hq hpid ⊢
      exact h.passed q hlt hq hpid

theorem Marks.change (h : Marks s) (ht : SlotChange s t r y m)
    (hkilling : ∀ p c, t.killing p = some c → s.killing p = some c)
    (hunused : y.state = .unused → y.pid = 0 ∧ y.killed = false)
    (hkilled : y.state ≠ .unused → y.killed = true → m = true)
    (hscan : ∀ p c, s.killing p = some c → y.state ≠ .unused → y.pid = c.pid →
      m = true ∧ (r.val < c.next → c.births ≤ y.uid)) : Marks t where
  unused := by
    intro q hq
    rw [State.Live, not_not] at hq
    rcases eq_or_ne q r with rfl | hne
    · rw [ht.proc_self] at hq ⊢
      exact hunused hq
    · rw [ht.proc_other hne] at hq ⊢
      exact h.unused q (not_not.2 hq)
  killed := by
    intro q hq hk
    rw [State.Live] at hq
    rcases eq_or_ne q r with rfl | hne
    · rw [ht.proc_self] at hq hk
      rw [ht.marked_self]
      exact hkilled hq hk
    · rw [ht.proc_other hne] at hq hk
      rw [ht.marked_other hne]
      exact h.killed q hq hk
  scan := by
    intro p c hc
    exact (h.scan p c (hkilling p c hc)).change ht (hscan p c (hkilling p c hc))

theorem Marks.freed {x : ProcessTable.Proc n} (h : Marks s)
    (hproc : t.table.proc = update s.table.proc r (freeproc x))
    (hbirths : t.table.births = s.table.births) (hmarked : t.marked = s.marked)
    (hkilling : t.killing = s.killing) : Marks t := by
  have ht : SlotChange s t r (freeproc x) (s.marked r) :=
    ⟨hproc, hbirths.ge, by rw [hmarked, update_eq_self]⟩
  exact h.change ht (fun p c hc => hkilling ▸ hc) (fun _ => ⟨rfl, rfl⟩) (fun hu => absurd rfl hu)
    (fun _ _ _ hu => absurd rfl hu)

theorem setTable_of_none {a : ProcessTable.Action n} {u : ProcessTable.State n}
    (h : newborn s.table a = none) : s.setTable a u = { s with table := u } := by
  rw [State.setTable, h]

/-- A new process has not been killed, since its slot was free; `kill` knows its pid only from
a call that is under way. -/
theorem Marks.birth {a : ProcessTable.Action n} {u : ProcessTable.State n} {np : Fin n} (h : Marks s)
    (hunused : (s.table.proc np).state = .unused) (hborn : newborn s.table a = some (p, np))
    (hproc : u.proc = update s.table.proc np
      { s.table.proc np with state := .used, pid := s.table.nextpid, uid := s.table.births })
    (hbirths : u.births = s.table.births + 1) : Marks (s.setTable a u) := by
  rw [State.setTable, hborn]
  have hle : s.table.births ≤ u.births := by omega
  have ht : SlotChange s { s with
      table := u
      marked := update s.marked np
        (decide (∃ q, (s.killing q).map Scan.pid = some s.table.nextpid))
      traced := update s.traced np (s.traced p) } np _ _ := ⟨hproc, hle, rfl⟩
  refine h.change ht (fun _ _ hc => hc) nofun (fun _ hk => ?_) (fun q c hc _ hpid => ?_)
  · have hclear : (s.table.proc np).killed = false := (h.unused np (not_not.2 hunused)).2
    exact absurd (hclear.symm.trans hk) Bool.false_ne_true
  · refine ⟨decide_eq_true ⟨q, ?_⟩, fun _ => (h.scan q c hc).births⟩
    rw [hc]
    exact congrArg some hpid.symm

theorem Marks.table {a : ProcessTable.Action n} {u : ProcessTable.State n} (h : Marks s)
    (htree : Tree initproc s.table) (hbusy : busy s a = false)
    (hs : ProcessTable.step initproc s.table a = some u) : Marks (s.setTable a u) := by
  cases slotEffect_step htree hs with
  | same slots _ births _ _ unborn _ =>
    rw [setTable_of_none unborn]
    exact h.same (fun q => (slots q).toSameSlot) births rfl rfl
  | exit _ _ running proc _ births _ _ unborn _ =>
    rw [setTable_of_none unborn]
    exact h.same (sameSlot_exit running proc) births rfl rfl
  | failed _ _ _ _ proc _ births _ _ unborn _ | reap _ _ _ _ _ proc _ births _ _ unborn _ =>
    rw [setTable_of_none unborn]
    exact h.freed proc births rfl rfl
  | birth _ _ _ unused proc _ births _ _ born _ => exact h.birth unused born proc births
  | kill pid p hit _ _ _ _ =>
    subst hit
    cases hbusy

/-- The pid that is passed to `kill` is not that of an unused slot. -/
def nonzero (_ : State n) : Action n → Prop
  | .kill _ pid => pid ≠ 0
  | _ => True

instance (s : State n) : (a : Action n) → Decidable (nonzero s a)
  | .kill _ _ => inferInstanceAs (Decidable (_ ≠ _))
  | .table _ | .killTurn _ | .trap _ | .trace _ _ | .exec _ => inferInstanceAs (Decidable True)

theorem Marks.kill {pid : BitVec 32} (h : Marks s) (hpid : pid ≠ 0) : Marks { s with
    killing := update s.killing p (some ⟨pid, 0, s.table.births⟩)
    marked := fun q => s.marked q || decide (s.Live q ∧ (s.proc q).pid = pid) } where
  unused := h.unused
  killed := by
    intro q hq hk
    have hmarked : s.marked q = true := h.killed q hq hk
    simp only [hmarked, Bool.true_or]
  scan := by
    intro q c hc
    dsimp only at hc
    rcases eq_or_ne q p with rfl | hne
    · rw [update_self] at hc
      cases hc
      refine ⟨hpid, le_rfl, fun r hr hp => ?_, fun r hlt => absurd hlt (Nat.not_lt_zero _)⟩
      have hin : s.Live r ∧ (s.proc r).pid = pid := ⟨hr, hp⟩
      simp only [decide_eq_true hin, Bool.or_true]
    · rw [update_of_ne hne] at hc
      have hold := h.scan q c hc
      refine ⟨hold.nonzero, hold.births, fun r hr hp => ?_, hold.passed⟩
      have hmarked : s.marked r = true := hold.marked r hr hp
      simp only [hmarked, Bool.true_or]

theorem killing_of_update {killing : Fin n → Option Scan} (hc : update killing p none q = some c) :
    killing q = some c := by
  rcases eq_or_ne q p with rfl | hne
  · rw [update_self] at hc
    cases hc
  · rwa [update_of_ne hne] at hc

theorem Marks.killTurn (h : Marks s) (hc : s.killing p = some c) : Marks (killTurn s p c) := by
  have hscan := h.scan p c hc
  rw [KillAndTrace.killTurn]
  split
  · rename_i hlt
    split
    · rename_i hhit
      have hlive : s.Live ⟨c.next, hlt⟩ := by
        intro hu
        have hzero := (h.unused _ (not_not.2 hu)).1
        exact hscan.nonzero (hhit.symm.trans hzero)
      have hmarked := hscan.marked _ hlive hhit
      refine h.change ⟨rfl, le_rfl, (update_eq_self _ _).symm⟩ (fun _ _ => killing_of_update)
        (fun hu => ?_) (fun _ _ => hmarked) (fun q c' hc' _ hpid => ⟨hmarked, fun hpassed => ?_⟩)
      · simp only at hu
        split at hu
        · cases hu
        · exact absurd hu hlive
      · exact (h.scan q c' hc').passed _ hpassed hlive hpid
    · rename_i hmiss
      refine ⟨h.unused, h.killed, fun q c' hc' => ?_⟩
      rcases eq_or_ne q p with rfl | hne
      · simp only [update_self, Option.some.injEq] at hc'
        subst hc'
        refine ⟨hscan.nonzero, hscan.births, hscan.marked, fun r hr hlive hpid => ?_⟩
        rcases Nat.lt_succ_iff_lt_or_eq.1 hr with hbefore | hhere
        · exact hscan.passed r hbefore hlive hpid
        · have hr' : r = ⟨c.next, hlt⟩ := Fin.ext hhere
          exact absurd (hr' ▸ hpid) hmiss
      · simp only [update_of_ne hne] at hc'
        have hold := h.scan q c' hc'
        exact ⟨hold.nonzero, hold.births, hold.marked, hold.passed⟩
  · refine ⟨h.unused, h.killed, fun q c' hc' => ?_⟩
    have hold := h.scan q c' (killing_of_update hc')
    exact ⟨hold.nonzero, hold.births, hold.marked, hold.passed⟩

theorem Marks.trap (h : Marks s) (hlive : s.Live p) : Marks { s with
    table := setkilled s.table p
    marked := update s.marked p true } := by
  refine h.change ⟨rfl, le_rfl, rfl⟩ (fun _ _ hc => hc) (fun hu => absurd hu hlive) (fun _ _ => rfl)
    (fun q c hc _ hpid => ⟨rfl, fun hpassed => ?_⟩)
  exact (h.scan q c hc).passed p hpassed hlive hpid

theorem tree_kill (h : Tree initproc s.table) (hp : s.table.panicked = false) (q : Fin n) :
    Tree initproc (ProcessTable.kill s.table q) := by
  refine tree_step (a := .kill (s.table.proc q).pid q) h ?_
  simp [ProcessTable.step, hp]

theorem setkilled_eq (h : s.Running p) : setkilled s.table p = ProcessTable.kill s.table p := by
  have hrun : (s.table.proc p).state = .running := h.2
  simp [setkilled, ProcessTable.kill, hrun]

theorem State.Running.live (h : s.Running p) : s.Live p := by
  rw [State.Live, h.2]
  nofun

theorem tree_keep {a : Action n} (h : Tree initproc s.table) (hs : step initproc s a = some t) :
    Tree initproc t.table := by
  cases a with
  | table a =>
    simp only [step, Option.ite_none_left_eq_some, Option.map_eq_some_iff] at hs
    obtain ⟨-, u, hu, rfl⟩ := hs
    have htree := tree_step h hu
    rw [State.setTable]
    split <;> exact htree
  | kill p pid | trace p mask | exec p =>
    obtain ⟨-, rfl⟩ := of_ite_some hs
    exact h
  | killTurn p =>
    simp only [step, Option.ite_none_right_eq_some, Option.map_eq_some_iff] at hs
    obtain ⟨hrun, c, -, rfl⟩ := hs
    rw [killTurn]
    split
    · split
      · exact tree_kill h hrun.1 _
      · exact h
    · exact h
  | trap p =>
    obtain ⟨hidle, rfl⟩ := of_ite_some hs
    have htree := tree_kill h hidle.1.1 p
    rwa [← setkilled_eq hidle.1] at htree

theorem Marks.step {a : Action n} (h : Marks s) (htree : Tree initproc s.table) (ha : nonzero s a)
    (hs : step initproc s a = some t) : Marks t := by
  cases a with
  | table a =>
    simp only [KillAndTrace.step, Option.ite_none_left_eq_some, Option.map_eq_some_iff] at hs
    obtain ⟨hbusy, u, hu, rfl⟩ := hs
    exact h.table htree (by simpa using hbusy) hu
  | kill p pid =>
    obtain ⟨-, rfl⟩ := of_ite_some hs
    exact h.kill ha
  | killTurn p =>
    simp only [KillAndTrace.step, Option.ite_none_right_eq_some, Option.map_eq_some_iff] at hs
    obtain ⟨-, c, hc, rfl⟩ := hs
    exact h.killTurn hc
  | trap p =>
    obtain ⟨hidle, rfl⟩ := of_ite_some hs
    exact h.trap hidle.1.live
  | trace p mask =>
    obtain ⟨-, rfl⟩ := of_ite_some hs
    exact h.same (fun q => .refl _) rfl rfl rfl
  | exec p =>
    obtain ⟨-, rfl⟩ := of_ite_some hs
    exact h

theorem marks_start (initproc : Fin n) : Marks (start initproc) := by
  have hproc : ∀ q, (start initproc).proc q = (ProcessTable.userinit initproc).proc q := fun _ => rfl
  refine ⟨fun q hq => ?_, fun q _ hk => ?_, fun p c hc => nomatch hc⟩
  · rw [State.Live, not_not] at hq
    rw [hproc, ProcessTable.userinit] at hq ⊢
    dsimp only at hq ⊢
    split at hq
    · cases hq
    · rename_i hne
      rw [if_neg hne]
      exact ⟨rfl, rfl⟩
  · rw [hproc, ProcessTable.userinit] at hk
    dsimp only at hk
    split at hk <;> cases hk

/-- What `kill` returns, and whom it leaves alone. When it fails, a process with that pid has
been created during the call. -/
structure KillsLive (s : State n) : Prop where
  found : ∀ p c, s.killing p = some c → killReturn s c = some 0 → ∃ q, s.Live q ∧ (s.proc q).pid = c.pid
  absent : ∀ p c, s.killing p = some c → killReturn s c = some (-1) →
    ∀ q, s.Live q → (s.proc q).pid = c.pid → c.births ≤ (s.proc q).uid
  unmarked : ∀ q, s.Live q → s.marked q = false → (s.proc q).killed = false

theorem Marks.killsLive (h : Marks s) : KillsLive s where
  found := by
    intro p c hc hret
    rw [killReturn] at hret
    split at hret
    · rename_i hlt
      split at hret
      · rename_i hhit
        refine ⟨⟨c.next, hlt⟩, fun hu => ?_, hhit⟩
        have hzero := (h.unused _ (not_not.2 hu)).1
        exact (h.scan p c hc).nonzero (hhit.symm.trans hzero)
      · cases hret
    · cases hret
  absent := by
    intro p c hc hret q hq hpid
    rw [killReturn] at hret
    split at hret
    · split at hret <;> cases hret
    · rename_i hend
      exact (h.scan p c hc).passed q (by omega) hq hpid
  unmarked := by
    intro q hq hm
    cases hk : (s.proc q).killed with
    | false => rfl
    | true =>
      rw [h.killed q hq hk] at hm
      cases hm

theorem kill_run {as : List (Action n)} (h : Run (step initproc) nonzero (start initproc) as s) :
    KillsLive s := by
  have hi : Tree initproc s.table ∧ Marks s :=
    h.invariant (I := fun s => Tree initproc s.table ∧ Marks s)
      ⟨tree_userinit initproc, marks_start initproc⟩
      (fun _ _ _ hi ha hs => ⟨tree_keep hi.1 hs, hi.2.step hi.1 ha hs⟩)
  exact hi.2.killsLive

/-- The first process forks and kills its child. -/
def killChild : List (Action 2) :=
  ([.table (.schedule 0), .table (.fork 0)] : List (Action 2)) ++
    List.replicate 4 (.table (.run 0 true) : Action 2) ++ ([.kill 0 2, .killTurn 0] : List (Action 2))

theorem kill_run_child : ∃ s : State 2, Run (step 0) nonzero (start 0) killChild s ∧
    s.killing 0 = some ⟨2, 1, 2⟩ ∧ killReturn s ⟨2, 1, 2⟩ = some 0 ∧ KillsLive s := by
  have hrun : ∃ s : State 2, Run (step 0) nonzero (start 0) killChild s ∧
      s.killing 0 = some ⟨2, 1, 2⟩ ∧ killReturn s ⟨2, 1, 2⟩ = some 0 :=
    exists_run (by decide +kernel)
  obtain ⟨s, h, hc, hret⟩ := hrun
  exact ⟨s, h, hc, hret, kill_run h⟩

/-- `kill(0)` by the first process, and then `fork`. -/
def killZero : List (Action 2) :=
  [.table (.schedule 0), .kill 0 0, .killTurn 0]

def killZeroFork : List (Action 2) :=
  killZero ++ [.killTurn 0, .table (.fork 0)] ++ List.replicate 2 (.table (.run 0 true))

/-- `kill(0)` finds an unused slot, and the next process in it is born killed. -/
theorem killZero_hits_unused :
    (∃ s : State 2, Run (step 0) unguarded (start 0) killZero s ∧
      s.killing 0 = some ⟨0, 1, 1⟩ ∧ killReturn s ⟨0, 1, 1⟩ = some 0 ∧
      ∀ q, s.Live q → (s.proc q).pid ≠ 0) ∧
    ∃ s : State 2, Run (step 0) unguarded (start 0) killZeroFork s ∧
      s.Live 1 ∧ s.marked 1 = false ∧ (s.proc 1).killed = true := by
  constructor
  · exact exists_run (by decide +kernel)
  · exact exists_run (by decide +kernel)

end Xv6.KillAndTrace
