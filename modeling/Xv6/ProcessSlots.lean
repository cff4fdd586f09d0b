import Mathlib.Data.Finset.Card
import Xv6.ProcessTreeExit

/-!
# The lives of a slot

What a step does to the slots, to `nextpid` and to the record of exits and of what `wait` has
returned: only `allocproc` puts a process into a slot, and only `freeproc` takes it out again.
-/

namespace Xv6.ProcessTable

open Function TransitionRuns

variable {n : ℕ} {initproc p q : Fin n} {s t : State n}

/-- The parent and the slot of the process that this step creates. -/
def newborn (s : State n) : Action n → Option (Fin n × Fin n)
  | .run p true =>
    match s.place p with
    | .forkScan i =>
      if h : i < n then if (s.proc ⟨i, h⟩).state = .unused then some (p, ⟨i, h⟩) else none else none
    | _ => none
  | _ => none

/-- The slot that `wait` frees in this step. -/
def reaped (s : State n) : Action n → Option (Fin n)
  | .run p ok =>
    match s.place p with
    | .waitScan addr i _ =>
      if h : i < n then
        if (s.proc ⟨i, h⟩).parent = some p ∧ (s.proc ⟨i, h⟩).state = .zombie ∧ (addr = false ∨ ok = true)
          then some ⟨i, h⟩ else none
      else none
    | _ => none
  | _ => none

/-- In the loop of `allocproc`, with a pid still to come. -/
def Place.scans : Place n → Bool
  | .forkScan _ => true
  | _ => false

def State.scanners (s : State n) : Finset (Fin n) := Finset.univ.filter (fun p => (s.place p).scans)

def Action.isFork : Action n → Bool
  | .fork _ => true
  | _ => false

/-- The process goes on living, or the slot stays free. -/
structure SameSlot (x y : Proc n) : Prop where
  unused : y.state = .unused ↔ x.state = .unused
  pid : y.pid = x.pid
  killed : y.killed = x.killed
  uid : y.uid = x.uid

/-- Nor does the process exit. -/
structure SameLife (x y : Proc n) : Prop extends SameSlot x y where
  zombie : y.state = .zombie ↔ x.state = .zombie
  xstate : y.xstate = x.xstate

theorem SameSlot.refl (x : Proc n) : SameSlot x x := ⟨Iff.rfl, rfl, rfl, rfl⟩

theorem SameLife.of_state {x y : Proc n} (h : y.state = x.state) (hpid : y.pid = x.pid)
    (hkilled : y.killed = x.killed) (huid : y.uid = x.uid) (hx : y.xstate = x.xstate) : SameLife x y :=
  ⟨⟨by rw [h], hpid, hkilled, huid⟩, by rw [h], hx⟩

theorem SameLife.refl (x : Proc n) : SameLife x x := .of_state rfl rfl rfl rfl rfl

theorem SameLife.trans {x y z : Proc n} (h : SameLife x y) (h' : SameLife y z) : SameLife x z :=
  ⟨⟨h'.unused.trans h.unused, h'.pid.trans h.pid, h'.killed.trans h.killed, h'.uid.trans h.uid⟩,
    h'.zombie.trans h.zombie, h'.xstate.trans h.xstate⟩

def ProcState.lives : ProcState → Bool
  | .unused => false
  | .zombie => false
  | _ => true

theorem SameLife.of_lives {x y : Proc n} (hx : x.state.lives = true) (hy : y.state.lives = true)
    (hpid : y.pid = x.pid) (hkilled : y.killed = x.killed) (huid : y.uid = x.uid)
    (hxstate : y.xstate = x.xstate) : SameLife x y := by
  have hne : ∀ {z : ProcState}, z.lives = true → z ≠ .unused ∧ z ≠ .zombie := by
    intro z hz
    constructor <;> (rintro rfl; cases hz)
  exact ⟨⟨iff_of_false (hne hy).1 (hne hx).1, hpid, hkilled, huid⟩, iff_of_false (hne hy).2 (hne hx).2, hxstate⟩

theorem sameLife_setProc {y : Proc n} (h : SameLife (s.proc q) y) (r : Fin n) :
    SameLife (s.proc r) ((s.setProc q y).proc r) := by
  rcases eq_or_ne r q with rfl | hne
  · simpa [State.setProc] using h
  · simpa [State.setProc, hne] using SameLife.refl (s.proc r)

theorem sameLife_wakeup (s : State n) (p : Fin n) (c : Option (Chan n)) (q : Fin n) :
    SameLife (s.proc q) ((wakeup s p c).proc q) := by
  simp only [wakeup, Proc.wake]
  split
  · exact .refl _
  · split
    · rename_i hsleep
      exact .of_lives (by rw [hsleep.1]; rfl) rfl rfl rfl rfl rfl
    · exact .refl _

inductive SlotEffect (s t : State n) (a : Action n) : Prop
  | same (slots : ∀ q, SameLife (s.proc q) (t.proc q)) (nextpid : t.nextpid = s.nextpid)
      (births : t.births = s.births) (history : t.history = s.history)
      (scanners : a.isFork = false → t.scanners ⊆ s.scanners)
      (unborn : newborn s a = none) (unreaped : reaped s a = none)
  | failed (p np : Fin n) (scans : p ∈ s.scanners) (unused : (s.proc np).state = .unused)
      (proc : t.proc = update s.proc np (freeproc (s.proc np)))
      (nextpid : t.nextpid = s.nextpid + 1) (births : t.births = s.births) (history : t.history = s.history)
      (scanners : t.scanners ⊆ s.scanners.erase p)
      (unborn : newborn s a = none) (unreaped : reaped s a = none)
  | birth (p np : Fin n) (scans : p ∈ s.scanners) (unused : (s.proc np).state = .unused)
      (proc : t.proc = update s.proc np
        { s.proc np with state := .used, pid := s.nextpid, uid := s.births })
      (nextpid : t.nextpid = s.nextpid + 1) (births : t.births = s.births + 1) (history : t.history = s.history)
      (scanners : t.scanners ⊆ s.scanners.erase p)
      (born : newborn s a = some (p, np)) (unreaped : reaped s a = none)
  | exit (p : Fin n) (status : ℤ) (running : (s.proc p).state = .running)
      (proc : t.proc = update s.proc p { s.proc p with xstate := status, state := .zombie })
      (nextpid : t.nextpid = s.nextpid) (births : t.births = s.births)
      (history : t.history = s.history ++ [.exit (s.proc p).uid (s.proc p).pid status])
      (scanners : t.scanners ⊆ s.scanners) (unborn : newborn s a = none) (unreaped : reaped s a = none)
  | reap (p pp : Fin n) (addr : Bool) (parent : (s.proc pp).parent = some p) (zombie : (s.proc pp).state = .zombie)
      (proc : t.proc = update s.proc pp (freeproc (s.proc pp)))
      (nextpid : t.nextpid = s.nextpid) (births : t.births = s.births)
      (history : t.history = s.history ++ [.wait (s.proc p).uid (s.proc pp).uid (s.proc pp).pid
        (if addr then some (s.proc pp).xstate else none)])
      (scanners : t.scanners ⊆ s.scanners) (unborn : newborn s a = none) (dead : reaped s a = some pp)
  | kill (pid : BitVec 32) (p : Fin n) (hit : a = .kill pid p) (pids : (s.proc p).pid = pid)
      (result : t = kill s p) (unborn : newborn s a = none) (unreaped : reaped s a = none)

theorem mem_scanners : q ∈ s.scanners ↔ (s.place q).scans = true := Finset.mem_filter_univ q

theorem scanners_of_update {x : Place n} (ht : t.place = update s.place p x) (hx : x.scans = false) :
    t.scanners ⊆ s.scanners.erase p := by
  intro q hq
  rw [mem_scanners, ht, update_apply] at hq
  split at hq
  · rw [hx] at hq
    cases hq
  · exact Finset.mem_erase.2 ⟨‹_›, mem_scanners.2 hq⟩

theorem scanners_subset {x : Place n} (ht : t.place = update s.place p x) (hx : x.scans = false) :
    t.scanners ⊆ s.scanners := (scanners_of_update ht hx).trans (Finset.erase_subset _ _)

theorem sameSlot_exit {status : ℤ} (hrun : (s.proc p).state = .running)
    (ht : t.proc = update s.proc p { s.proc p with xstate := status, state := .zombie }) (q : Fin n) :
    SameSlot (s.proc q) (t.proc q) := by
  rw [ht]
  rcases eq_or_ne q p with rfl | hne
  · rw [update_self]
    exact ⟨iff_of_false (by rintro ⟨⟩) (by rw [hrun]; rintro ⟨⟩), rfl, rfl, rfl⟩
  · rw [update_of_ne hne]
    exact .refl _

theorem newborn_eq_none {ok : Bool} (h : ∀ i, s.place p ≠ .forkScan i) : newborn s (.run p ok) = none := by
  cases ok with
  | false => rfl
  | true =>
    cases hp : s.place p with
    | forkScan i => exact absurd hp (h i)
    | _ => simp only [newborn, hp]

theorem reaped_eq_none {ok : Bool} (h : ∀ addr i havekids, s.place p ≠ .waitScan addr i havekids) :
    reaped s (.run p ok) = none := by
  cases hp : s.place p with
  | waitScan addr i havekids => exact absurd hp (h addr i havekids)
  | _ => simp only [reaped, hp]

theorem slotEffect_forkTurn {i : ℕ} (hp : s.place p = .forkScan i) (hi : i < n) (ok : Bool) :
    SlotEffect s (forkTurn s p ⟨i, hi⟩ ok) (.run p ok) := by
  have hreap : reaped s (.run p ok) = none := reaped_eq_none (by simp [hp])
  have hscan : p ∈ s.scanners := mem_scanners.2 (by rw [hp]; rfl)
  rw [forkTurn]
  split
  · rename_i hfree
    cases ok with
    | true =>
      rw [if_pos rfl]
      refine .birth p ⟨i, hi⟩ hscan hfree rfl rfl rfl rfl (scanners_of_update rfl rfl) ?_ hreap
      simp only [newborn, hp, dif_pos hi, if_pos hfree]
    | false =>
      rw [if_neg (by rintro ⟨⟩)]
      exact .failed p ⟨i, hi⟩ hscan hfree rfl rfl rfl rfl (scanners_of_update rfl rfl) rfl hreap
  · rename_i hused
    refine .same (fun q => .refl _) rfl rfl rfl (fun _ q hq => ?_) ?_ hreap
    · rcases eq_or_ne q p with rfl | hne
      · exact hscan
      · have hscans : (update s.place p (.forkScan (i + 1)) q).scans = true := mem_scanners.1 hq
        rw [update_of_ne hne] at hscans
        exact mem_scanners.2 hscans
    · cases ok with
      | true => simp only [newborn, hp, dif_pos hi, if_neg hused]
      | false => rfl

theorem slotEffect_scanTurn {addr havekids : Bool} {i : ℕ} (hp : s.place p = .waitScan addr i havekids)
    (hi : i < n) (ok : Bool) : SlotEffect s (scanTurn s p ⟨i, hi⟩ addr ok havekids) (.run p ok) := by
  have hborn : newborn s (.run p ok) = none := newborn_eq_none (by rw [hp]; nofun)
  rw [scanTurn]
  split
  · rename_i hparent
    split
    · rename_i hzombie
      split
      · rename_i hfail
        refine .same (fun q => .refl _) rfl rfl rfl (fun _ => scanners_subset rfl rfl) hborn ?_
        simp [reaped, hp, hi, hfail]
      · rename_i hok
        refine .reap p ⟨i, hi⟩ addr hparent hzombie rfl rfl rfl rfl (scanners_subset rfl rfl) hborn ?_
        have hdone : addr = false ∨ ok = true := by
          cases addr <;> cases ok <;> simp_all
        simp only [reaped, hp, dif_pos hi]
        exact if_pos ⟨hparent, hzombie, hdone⟩
    · rename_i hlive
      refine .same (fun q => .refl _) rfl rfl rfl (fun _ => scanners_subset rfl rfl) hborn ?_
      simp [reaped, hp, hi, hlive]
  · rename_i hother
    refine .same (fun q => .refl _) rfl rfl rfl (fun _ => scanners_subset rfl rfl) hborn ?_
    simp [reaped, hp, hi, hother]

theorem SlotEffect.quiet {ok : Bool} {x : Place n} (hfork : ∀ i, s.place p ≠ .forkScan i)
    (hwait : ∀ addr i havekids, s.place p ≠ .waitScan addr i havekids)
    (slots : ∀ q, SameLife (s.proc q) (t.proc q)) (nextpid : t.nextpid = s.nextpid)
    (births : t.births = s.births) (history : t.history = s.history) (place : t.place = update s.place p x)
    (hx : x.scans = false) : SlotEffect s t (.run p ok) :=
  .same slots nextpid births history (fun _ => scanners_subset place hx) (newborn_eq_none hfork)
    (reaped_eq_none hwait)

theorem slotEffect_run {ok : Bool} (h : Tree initproc s) (hrun : (s.proc p).state = .running)
    (hs : run initproc s p ok = some t) : SlotEffect s t (.run p ok) := by
  have hlive : (s.proc p).state.lives = true := by
    rw [hrun]
    rfl
  rw [run] at hs
  cases hp : s.place p with
  | forkScan i =>
    rw [hp] at hs
    dsimp only at hs
    split at hs
    · rename_i hi
      cases hs
      exact slotEffect_forkTurn hp hi ok
    · rename_i hi
      cases hs
      refine .same (fun q => .refl _) rfl rfl rfl (fun _ => scanners_subset rfl rfl) ?_
        (reaped_eq_none (by simp [hp]))
      cases ok <;> simp [newborn, hp, hi]
  | waitScan addr i havekids =>
    rw [hp] at hs
    dsimp only at hs
    split at hs
    · rename_i hi
      cases hs
      exact slotEffect_scanTurn hp hi ok
    · rename_i hi
      cases hs
      refine .same (fun q => .refl _) rfl rfl rfl (fun _ => scanners_subset rfl rfl)
        (newborn_eq_none (by simp [hp])) ?_
      simp [reaped, hp, hi]
  | user =>
    rw [hp] at hs
    cases hs
  | forkParent np =>
    rw [hp] at hs
    obtain ⟨_, rfl⟩ := of_ite_some hs
    exact .quiet (by simp [hp]) (by simp [hp])
      (sameLife_setProc (.of_state rfl rfl rfl rfl rfl)) rfl rfl rfl rfl rfl
  | forkRunnable np =>
    have hk := h.knows p
    rw [hp] at hk
    have hembryo : (s.proc np).state.lives = true := by
      have hkind : (s.proc np).state.kind = .embryo := hk.1
      cases hstate : (s.proc np).state with
      | unused | zombie => simp [hstate, ProcState.kind] at hkind
      | _ => rfl
    rw [hp] at hs
    cases hs
    exact .quiet (by simp [hp]) (by simp [hp])
      (sameLife_setProc (.of_lives hembryo rfl rfl rfl rfl rfl)) rfl rfl rfl rfl rfl
  | exitAcquire status | waitAcquire addr =>
    rw [hp] at hs
    obtain ⟨_, rfl⟩ := of_ite_some hs
    exact .quiet (by simp [hp]) (by simp [hp]) (fun q => .refl _) rfl rfl rfl rfl rfl
  | exitReparent status i =>
    rw [hp] at hs
    dsimp only at hs
    split at hs <;> cases hs
    · rw [reparentTurn]
      split
      · refine .quiet (by simp [hp]) (by simp [hp]) (fun q => ?_) rfl rfl rfl rfl rfl
        have hset := sameLife_setProc (q := ⟨i, ‹i < n›⟩)
          (y := { s.proc ⟨i, ‹i < n›⟩ with parent := some initproc })
          (.of_state rfl rfl rfl rfl rfl) q
        exact hset.trans (sameLife_wakeup _ p _ q)
      · exact .quiet (by simp [hp]) (by simp [hp]) (fun q => .refl _) rfl rfl rfl rfl rfl
    · exact .quiet (by simp [hp]) (by simp [hp]) (fun q => .refl _) rfl rfl rfl rfl rfl
  | exitWakeup status =>
    rw [hp] at hs
    cases hs
    exact .quiet (by simp [hp]) (by simp [hp]) (sameLife_wakeup s p _) rfl rfl rfl rfl rfl
  | exitZombie status =>
    rw [hp] at hs
    cases hs
    exact .exit p status hrun rfl rfl rfl rfl (scanners_subset rfl rfl) (newborn_eq_none (by simp [hp]))
      (reaped_eq_none (by simp [hp]))
  | waitCheck addr havekids =>
    rw [hp] at hs
    dsimp only at hs
    split at hs <;> cases hs
    all_goals exact .quiet (by simp [hp]) (by simp [hp]) (fun q => .refl _) rfl rfl rfl rfl rfl
  | waitSleep addr =>
    rw [hp] at hs
    cases hs
    exact .quiet (by simp [hp]) (by simp [hp])
      (sameLife_setProc (.of_lives hlive rfl rfl rfl rfl rfl)) rfl rfl rfl rfl rfl

theorem slotEffect_step {a : Action n} (h : Tree initproc s) (hs : step initproc s a = some t) :
    SlotEffect s t a := by
  rw [step.eq_def] at hs
  split at hs
  · cases hs
  cases a with
  | fork p =>
    obtain ⟨_, rfl⟩ := call_eq_some hs
    exact .same (fun q => .refl _) rfl rfl rfl (by rintro ⟨⟩) rfl rfl
  | exit p status =>
    obtain ⟨_, rfl⟩ := call_eq_some hs
    rw [exitCall]
    split
    · exact .same (fun q => .refl _) rfl rfl rfl (fun _ => subset_rfl) rfl rfl
    · exact .same (fun q => .refl _) rfl rfl rfl (fun _ => scanners_subset rfl rfl) rfl rfl
  | wait p addr =>
    obtain ⟨_, rfl⟩ := call_eq_some hs
    exact .same (fun q => .refl _) rfl rfl rfl (fun _ => scanners_subset rfl rfl) rfl rfl
  | run p ok =>
    simp only [Option.ite_none_right_eq_some] at hs
    exact slotEffect_run h hs.1 hs.2
  | kill pid p =>
    simp only [Option.ite_none_right_eq_some, Option.some.injEq] at hs
    exact .kill pid p rfl hs.1 hs.2.symm rfl rfl
  | schedule p =>
    obtain ⟨hrunnable, rfl⟩ := of_ite_some hs
    exact .same (sameLife_setProc (.of_lives (by rw [hrunnable]; rfl) rfl rfl rfl rfl rfl)) rfl rfl rfl
      (fun _ => subset_rfl) rfl rfl
  | yield p =>
    obtain ⟨⟨hrun, _⟩, rfl⟩ := of_ite_some hs
    exact .same (sameLife_setProc (.of_lives (by rw [hrun]; rfl) rfl rfl rfl rfl rfl)) rfl rfl rfl
      (fun _ => subset_rfl) rfl rfl
  | sleep p k =>
    obtain ⟨⟨hrun, _⟩, rfl⟩ := call_eq_some hs
    exact .same (sameLife_setProc (.of_lives (by rw [hrun]; rfl) rfl rfl rfl rfl rfl)) rfl rfl rfl
      (fun _ => subset_rfl) rfl rfl
  | wakeup p k =>
    obtain ⟨_, rfl⟩ := call_eq_some hs
    exact .same (sameLife_wakeup s p _) rfl rfl rfl (fun _ => subset_rfl) rfl rfl

end Xv6.ProcessTable
