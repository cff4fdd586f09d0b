import Xv6.KillRuns

/-!
# Trace masks of reused slots

The trace mask of a slot stays when the process in it is gone. If every process that `wait`
frees has a mask of 0, no mask reaches another process.
-/

namespace Xv6.KillAndTrace

open Function TransitionRuns
open ProcessTable (Tree SlotEffect slotEffect_step sameSlot_exit tree_userinit freeproc newborn reaped)

variable {n : ℕ} {initproc p q r : Fin n} {s t : State n}

structure Masks (s : State n) : Prop where
  unused : ∀ q, ¬ s.Live q → s.tracemask q = 0
  untraced : ∀ q, s.Live q → s.traced q = false → s.tracemask q = 0

theorem Masks.same (h : Masks s) (hlive : ∀ q, t.Live q ↔ s.Live q) (hmask : t.tracemask = s.tracemask)
    (htraced : t.traced = s.traced) : Masks t where
  unused := by
    intro q hq
    rw [hmask]
    exact h.unused q (fun hs => hq ((hlive q).2 hs))
  untraced := by
    intro q hq ht
    rw [htraced] at ht
    rw [hmask]
    exact h.untraced q ((hlive q).1 hq) ht

theorem live_of_update {x : ProcessTable.Proc n} (hproc : t.table.proc = update s.table.proc r x)
    (hq : q ≠ r) : t.Live q ↔ s.Live q := by
  rw [State.Live, State.Live, State.proc, State.proc, hproc, update_of_ne hq]

theorem Masks.freed {x : ProcessTable.Proc n} (h : Masks s)
    (hproc : t.table.proc = update s.table.proc r (freeproc x)) (hr : s.tracemask r = 0)
    (hmask : t.tracemask = s.tracemask) (htraced : t.traced = s.traced) : Masks t where
  unused := by
    intro q hq
    rw [hmask]
    rcases eq_or_ne q r with rfl | hne
    · exact hr
    · exact h.unused q (fun hs => hq ((live_of_update hproc hne).2 hs))
  untraced := by
    intro q hq ht
    rw [htraced] at ht
    rw [hmask]
    rcases eq_or_ne q r with rfl | hne
    · exact hr
    · exact h.untraced q ((live_of_update hproc hne).1 hq) ht

theorem Masks.birth {a : ProcessTable.Action n} {u : ProcessTable.State n} {x : ProcessTable.Proc n}
    {np : Fin n} (h : Masks s) (hunused : (s.table.proc np).state = .unused)
    (hborn : newborn s.table a = some (p, np))
    (hproc : u.proc = update s.table.proc np x) : Masks (s.setTable a u) := by
  have hmask := h.unused np (not_not.2 hunused)
  rw [State.setTable, hborn]
  refine ⟨fun q hq => ?_, fun q hq ht => ?_⟩
  · rcases eq_or_ne q np with rfl | hne
    · exact hmask
    · exact h.unused q (fun hs => hq ((live_of_update hproc hne).2 hs))
  · rcases eq_or_ne q np with rfl | hne
    · exact hmask
    · simp only [update_of_ne hne] at ht
      exact h.untraced q ((live_of_update hproc hne).1 hq) ht

/-- A process that `wait` frees has no trace mask. -/
def cleanReap (s : State n) : Action n → Prop
  | .table a => ∀ pp ∈ reaped s.table a, s.tracemask pp = 0
  | _ => True

instance (s : State n) : (a : Action n) → Decidable (cleanReap s a)
  | .table a => inferInstanceAs (Decidable (∀ pp ∈ reaped s.table a, s.tracemask pp = 0))
  | .kill _ _ | .killTurn _ | .trap _ | .trace _ _ | .exec _ => inferInstanceAs (Decidable True)

theorem Masks.table {a : ProcessTable.Action n} {u : ProcessTable.State n} (h : Masks s)
    (htree : Tree initproc s.table) (hbusy : busy s a = false) (ha : cleanReap s (.table a))
    (hs : ProcessTable.step initproc s.table a = some u) : Masks (s.setTable a u) := by
  cases slotEffect_step htree hs with
  | same slots _ _ _ _ unborn _ =>
    rw [setTable_of_none unborn]
    exact h.same (fun q => not_congr (slots q).unused) rfl rfl
  | exit _ _ running proc _ _ _ _ unborn _ =>
    rw [setTable_of_none unborn]
    exact h.same (fun q => not_congr (sameSlot_exit running proc q).unused) rfl rfl
  | failed _ np _ unused proc _ _ _ _ unborn _ =>
    rw [setTable_of_none unborn]
    exact h.freed proc (h.unused np (not_not.2 unused)) rfl rfl
  | birth _ _ _ unused proc _ _ _ _ born _ => exact h.birth unused born proc
  | reap _ pp _ _ _ proc _ _ _ _ unborn dead =>
    rw [setTable_of_none unborn]
    exact h.freed proc (ha pp dead) rfl rfl
  | kill pid p hit _ _ _ _ =>
    subst hit
    cases hbusy

theorem live_kill (q : Fin n) (u : ProcessTable.State n) (r : Fin n) :
    ((ProcessTable.kill u q).proc r).state ≠ .unused ↔ (u.proc r).state ≠ .unused := by
  rcases eq_or_ne r q with rfl | hne
  · simp only [ProcessTable.kill, ProcessTable.State.setProc, update_self]
    split
    · rename_i hsleep
      rw [hsleep]
      exact iff_of_true (by rintro ⟨⟩) (by rintro ⟨⟩)
    · rfl
  · simp only [ProcessTable.kill, ProcessTable.State.setProc, update_of_ne hne]

theorem Masks.step {a : Action n} (h : Masks s) (htree : Tree initproc s.table) (ha : cleanReap s a)
    (hs : step initproc s a = some t) : Masks t := by
  cases a with
  | table a =>
    simp only [KillAndTrace.step, Option.ite_none_left_eq_some, Option.map_eq_some_iff] at hs
    obtain ⟨hbusy, u, hu, rfl⟩ := hs
    exact h.table htree (by simpa using hbusy) ha hu
  | kill p pid =>
    obtain ⟨-, rfl⟩ := of_ite_some hs
    exact h.same (fun _ => Iff.rfl) rfl rfl
  | killTurn p =>
    simp only [KillAndTrace.step, Option.ite_none_right_eq_some, Option.map_eq_some_iff] at hs
    obtain ⟨-, c, -, rfl⟩ := hs
    rw [KillAndTrace.killTurn]
    split
    · split
      · exact h.same (fun q => live_kill _ _ q) rfl rfl
      · exact h.same (fun _ => Iff.rfl) rfl rfl
    · exact h.same (fun _ => Iff.rfl) rfl rfl
  | trap p =>
    obtain ⟨hidle, rfl⟩ := of_ite_some hs
    refine h.same (fun q => ?_) rfl rfl
    rw [setkilled_eq hidle.1]
    exact live_kill p _ q
  | trace p mask =>
    obtain ⟨hidle, rfl⟩ := of_ite_some hs
    refine ⟨fun q hq => ?_, fun q hq ht => ?_⟩
    · have hne : q ≠ p := by
        rintro rfl
        exact hq hidle.1.live
      simp only [update_of_ne hne]
      exact h.unused q hq
    · rcases eq_or_ne q p with rfl | hne
      · simp only [update_self, Bool.true_eq_false] at ht
      · simp only [update_of_ne hne] at ht ⊢
        exact h.untraced q hq ht
  | exec p =>
    obtain ⟨-, rfl⟩ := of_ite_some hs
    exact h

theorem trace_run {as : List (Action n)} (h : Run (step initproc) cleanReap (start initproc) as s) :
    ∀ q, s.Live q → s.traced q = false →
      s.tracemask q = 0 ∧ ∀ num, printsTrace (s.tracemask q) num = false := by
  have hi : Tree initproc s.table ∧ Masks s :=
    h.invariant (I := fun s => Tree initproc s.table ∧ Masks s)
      ⟨tree_userinit initproc, ⟨fun _ _ => rfl, fun _ _ _ => rfl⟩⟩
      (fun _ _ _ hi ha hs => ⟨tree_keep hi.1 hs, hi.2.step hi.1 ha hs⟩)
  intro q hq ht
  have hmask := hi.2.untraced q hq ht
  refine ⟨hmask, fun num => ?_⟩
  simp [printsTrace, hmask]

/-- A child calls `trace` with a mask, exits and is waited for; the next child gets its slot. -/
def tracedThenReused (mask last : BitVec 32) : List (Action 2) :=
  ([.table (.schedule 0), .table (.fork 0)] : List (Action 2)) ++
    List.replicate 4 (.table (.run 0 true) : Action 2) ++
    ([.table (.schedule 1), .trace 1 mask, .trace 1 last, .table (.exit 1 0)] : List (Action 2)) ++
    List.replicate 6 (.table (.run 1 true) : Action 2) ++ [(.table (.wait 0 true) : Action 2)] ++
    List.replicate 3 (.table (.run 0 true) : Action 2) ++ [(.table (.fork 0) : Action 2)] ++
    List.replicate 4 (.table (.run 0 true) : Action 2)

/-- The child takes its mask back before it exits. -/
theorem trace_run_reset : ∃ s : State 2,
    Run (step 0) cleanReap (start 0) (tracedThenReused 32 0) s ∧ s.Live 1 ∧ (s.proc 1).pid = 3 ∧
      s.tracemask 1 = 0 := by
  have hrun : ∃ s : State 2, Run (step 0) cleanReap (start 0) (tracedThenReused 32 0) s ∧
      (s.proc 1).state = .runnable ∧ (s.proc 1).pid = 3 ∧ s.traced 1 = false :=
    exists_run (by decide +kernel)
  obtain ⟨s, h, hstate, hpid, ht⟩ := hrun
  have hlive : s.Live 1 := by
    rw [State.Live, hstate]
    rintro ⟨⟩
  exact ⟨s, h, hlive, hpid, (trace_run h 1 hlive ht).1⟩

/-- The new process is traced like the one that had its slot. -/
theorem tracemask_leaks : ∃ s : State 2,
    Run (step 0) unguarded (start 0) (tracedThenReused 32 32) s ∧ (s.proc 1).state = .runnable ∧
      (s.proc 1).pid = 3 ∧ s.traced 1 = false ∧ s.tracemask 1 = 32 ∧ printsTrace (s.tracemask 1) 5 = true :=
  exists_run (by decide +kernel)

end Xv6.KillAndTrace
