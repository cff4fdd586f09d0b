import Xv6.ProcessSlots

/-!
# Process ids

`nextpid` is a free-running 32-bit integer. Every call of `fork` takes at most one number, so
the pids of the processes in the table are positive and distinct until `nextpid` wraps.
-/

namespace Xv6.ProcessTable

open Function TransitionRuns

variable {n : ℕ} {initproc p q : Fin n} {s t : State n}

/-- `holdingsleep` of a sleep-lock that the process with this pid has taken. -/
def holdingsleep (pid : BitVec 32) (s : State n) (p : Fin n) : Bool := pid = (s.proc p).pid

/-- What a step does to `nextpid` and to the calls of `fork` that have no pid yet. Only a call of
`fork` asks for a pid. -/
theorem SlotEffect.pid {a : Action n} (h : SlotEffect s t a) (ha : a.isFork = false) :
    (t.nextpid = s.nextpid ∧ t.scanners ⊆ s.scanners) ∨
      ∃ p ∈ s.scanners, t.nextpid = s.nextpid + 1 ∧ t.scanners ⊆ s.scanners.erase p := by
  cases h with
  | same _ nextpid _ _ scanners _ _ => exact .inl ⟨nextpid, scanners ha⟩
  | failed p _ scans _ _ nextpid _ _ scanners _ _ | birth p _ scans _ _ nextpid _ _ scanners _ _ =>
    exact .inr ⟨p, scans, nextpid, scanners⟩
  | exit _ _ _ _ nextpid _ _ scanners _ _ | reap _ _ _ _ _ _ nextpid _ _ scanners _ _ =>
    exact .inl ⟨nextpid, scanners⟩
  | kill _ _ _ _ result _ _ =>
    subst result
    exact .inl ⟨rfl, subset_rfl⟩

/-- After `k` calls of `fork`. -/
structure Numbered (k : ℕ) (s : State n) : Prop where
  pos : 0 < s.nextpid.toNat
  next : s.nextpid.toNat + s.scanners.card ≤ 2 + k
  below : ∀ q, (s.proc q).state ≠ .unused → 0 < (s.proc q).pid.toNat ∧ (s.proc q).pid.toNat < s.nextpid.toNat
  distinct : ∀ q r, (s.proc q).state ≠ .unused → (s.proc r).state ≠ .unused →
    (s.proc q).pid = (s.proc r).pid → q = r

theorem toNat_succ {x : BitVec 32} {k : ℕ} (h : x.toNat ≤ k) (hk : k + 1 < 2 ^ 32) :
    (x + 1).toNat = x.toNat + 1 := by
  rw [BitVec.toNat_add]
  exact Nat.mod_eq_of_lt (by simpa using (by omega : x.toNat + 1 < 2 ^ 32))

theorem Numbered.next_step {k : ℕ} {a : Action n} (h : Numbered k s) (htree : Tree initproc s) (hk : k ≤ 2 ^ 31)
    (hs : step initproc s a = some t) :
    t.nextpid.toNat + t.scanners.card ≤ 2 + (k + if a.isFork then 1 else 0) := by
  have hnext := h.next
  cases ha : a.isFork with
  | false =>
    rcases (slotEffect_step htree hs).pid ha with ⟨hpid, hscan⟩ | ⟨p, hp, hpid, hscan⟩
    · have hcard := Finset.card_le_card hscan
      rw [hpid]
      simp only [Bool.false_eq_true, if_false]
      omega
    · have hcard := Finset.card_le_card hscan
      have hpos : 0 < s.scanners.card := Finset.card_pos.2 ⟨p, hp⟩
      rw [Finset.card_erase_of_mem hp] at hcard
      rw [hpid, toNat_succ (k := 2 + k) (by omega) (by omega)]
      simp only [Bool.false_eq_true, if_false]
      omega
  | true =>
    cases a with
    | fork p =>
      rw [step.eq_def] at hs
      split at hs
      · cases hs
      · obtain ⟨_, rfl⟩ := call_eq_some hs
        have hsub : (s.goto p (.forkScan 0)).scanners ⊆ insert p s.scanners := by
          intro q hq
          rw [mem_scanners] at hq
          change (update s.place p (.forkScan 0) q).scans = true at hq
          rw [update_apply] at hq
          split at hq
          · rename_i heq
            exact heq ▸ Finset.mem_insert_self q _
          · exact Finset.mem_insert_of_mem (mem_scanners.2 hq)
        have hcard := (Finset.card_le_card hsub).trans (Finset.card_insert_le p s.scanners)
        have hpid : (s.goto p (.forkScan 0)).nextpid = s.nextpid := rfl
        rw [hpid]
        simp only [if_true]
        omega
    | _ => cases ha

theorem Numbered.congr {k k' : ℕ} (h : Numbered k s) (hpid : s.nextpid.toNat ≤ t.nextpid.toNat)
    (hnext : t.nextpid.toNat + t.scanners.card ≤ 2 + k')
    (hold : ∀ q, (t.proc q).state ≠ .unused → (s.proc q).state ≠ .unused ∧ (t.proc q).pid = (s.proc q).pid) :
    Numbered k' t := by
  refine ⟨h.pos.trans_le hpid, hnext, fun q hq => ?_, fun q r hq hr heq => ?_⟩
  · obtain ⟨hlive, hsame⟩ := hold q hq
    have hbelow := h.below q hlive
    rw [hsame]
    omega
  · obtain ⟨hq', hsameq⟩ := hold q hq
    obtain ⟨hr', hsamer⟩ := hold r hr
    rw [hsameq, hsamer] at heq
    exact h.distinct q r hq' hr' heq

theorem Numbered.freed {k k' : ℕ} {x : Proc n} (h : Numbered k s) (hpid : s.nextpid.toNat ≤ t.nextpid.toNat)
    (hnext : t.nextpid.toNat + t.scanners.card ≤ 2 + k')
    (ht : t.proc = update s.proc q (freeproc x)) : Numbered k' t := by
  refine h.congr hpid hnext (fun r hr => ?_)
  rcases eq_or_ne r q with rfl | hne
  · rw [ht, update_self] at hr
    exact absurd rfl hr
  · rw [ht, update_of_ne hne] at hr ⊢
    exact ⟨hr, rfl⟩

theorem Numbered.birth {k k' : ℕ} {x : Proc n} (h : Numbered k s) (hpid : t.nextpid.toNat = s.nextpid.toNat + 1)
    (hnext : t.nextpid.toNat + t.scanners.card ≤ 2 + k') (hx : x.pid = s.nextpid)
    (ht : t.proc = update s.proc q x) : Numbered k' t := by
  have hpos := h.pos
  have hfresh : ∀ r, (s.proc r).state ≠ .unused → (s.proc r).pid ≠ s.nextpid := by
    intro r hr heq
    have hlt := (h.below r hr).2
    rw [heq] at hlt
    omega
  refine ⟨by omega, hnext, fun r hr => ?_, fun r r' hr hr' heq => ?_⟩
  · rcases eq_or_ne r q with rfl | hne
    · rw [ht, update_self, hx]
      omega
    · rw [ht, update_of_ne hne] at hr ⊢
      have hbelow := h.below r hr
      omega
  · rw [ht] at hr hr' heq
    rcases eq_or_ne r q with rfl | hne
    · rcases eq_or_ne r' r with rfl | hne'
      · rfl
      · rw [update_of_ne hne'] at hr' heq
        rw [update_self, hx] at heq
        exact absurd heq.symm (hfresh r' hr')
    · rw [update_of_ne hne] at hr heq
      rcases eq_or_ne r' q with rfl | hne'
      · rw [update_self, hx] at heq
        exact absurd heq (hfresh r hr)
      · rw [update_of_ne hne'] at hr' heq
        exact h.distinct r r' hr hr' heq

theorem Numbered.step {k : ℕ} {a : Action n} (h : Numbered k s) (htree : Tree initproc s) (hk : k ≤ 2 ^ 31)
    (hs : step initproc s a = some t) : Numbered (k + if a.isFork then 1 else 0) t := by
  have hnext := h.next_step htree hk hs
  have hle : s.nextpid.toNat ≤ 2 + k := (Nat.le_add_right ..).trans h.next
  have hsucc := toNat_succ hle (by omega)
  cases slotEffect_step htree hs with
  | same slots nextpid _ _ _ _ _ =>
    refine h.congr (le_of_eq (by rw [nextpid])) hnext (fun q hq => ⟨?_, (slots q).pid⟩)
    exact fun hu => hq ((slots q).unused.2 hu)
  | failed _ _ _ _ proc nextpid _ _ _ _ _ => exact h.freed (by rw [nextpid, hsucc]; omega) hnext proc
  | birth _ _ _ _ proc nextpid _ _ _ _ _ => exact h.birth (by rw [nextpid, hsucc]) hnext rfl proc
  | exit _ _ running proc nextpid _ _ _ _ _ =>
    have hslots := sameSlot_exit running proc
    refine h.congr (le_of_eq (by rw [nextpid])) hnext (fun q hq => ⟨?_, (hslots q).pid⟩)
    exact fun hu => hq ((hslots q).unused.2 hu)
  | reap _ _ _ _ _ proc nextpid _ _ _ _ _ => exact h.freed (le_of_eq (by rw [nextpid])) hnext proc
  | kill pid p _ _ result _ _ =>
    subst result
    refine h.congr le_rfl hnext (fun q hq => ?_)
    rcases eq_or_ne q p with rfl | hne
    · simp only [kill, State.setProc, update_self] at hq ⊢
      refine ⟨?_, trivial⟩
      intro hu
      rw [hu] at hq
      exact hq rfl
    · simp only [kill, State.setProc, update_of_ne hne] at hq ⊢
      exact ⟨hq, trivial⟩

theorem numbered_userinit (initproc : Fin n) : Numbered 0 (userinit initproc) := by
  have hlive : ∀ q, ((userinit initproc).proc q).state ≠ .unused → q = initproc := by
    intro q hq
    by_contra hne
    simp [userinit, hne] at hq
  have hpid : (userinit initproc).nextpid = 2 := rfl
  refine ⟨by rw [hpid]; decide, ?_, fun q hq => ?_, fun q r hq hr _ => (hlive q hq).trans (hlive r hr).symm⟩
  · have hempty : (userinit initproc).scanners = ∅ := Finset.filter_eq_empty_iff.2 (fun _ _ => by rintro ⟨⟩)
    rw [hempty, hpid, Finset.card_empty]
    decide
  · cases hlive q hq
    simp [userinit]

theorem numbered_run {as : List (Action n)} (hforks : as.countP Action.isFork ≤ 2 ^ 31)
    (h : Run (step initproc) unguarded (userinit initproc) as s) :
    Tree initproc s ∧ Numbered (as.countP Action.isFork) s := by
  have hi := h.history (I := fun bs v => Tree initproc v ∧
    (bs.countP Action.isFork ≤ 2 ^ 31 → Numbered (bs.countP Action.isFork) v))
    ⟨tree_userinit initproc, fun _ => numbered_userinit initproc⟩ ?_
  · exact ⟨hi.1, hi.2 hforks⟩
  · rintro bs v a w ⟨htree, hnum⟩ - hs
    refine ⟨tree_step htree hs, fun hle => ?_⟩
    rw [List.countP_append, List.countP_singleton] at hle ⊢
    exact (hnum (by omega)).step htree (by omega) hs

/-- Positive pids, one for each process in the table. -/
structure Identified (s : State n) : Prop where
  positive : ∀ q, (s.proc q).state ≠ .unused → 0 < (s.proc q).pid.toInt
  distinct : ∀ q r, (s.proc q).state ≠ .unused → (s.proc r).state ≠ .unused →
    (s.proc q).pid = (s.proc r).pid → q = r
  /-- the pid that `fork` is about to return -/
  fork : ∀ p np, (s.place p).embryo = some np → 0 < (s.proc np).pid.toInt ∧
    ∀ q ≠ np, (s.proc q).state ≠ .unused → (s.proc q).pid ≠ (s.proc np).pid
  /-- the process `q` has taken the sleep-lock -/
  holdingsleep : ∀ p q, (s.proc p).state ≠ .unused → (s.proc q).state ≠ .unused →
    (holdingsleep (s.proc q).pid s p = true ↔ p = q)

theorem Numbered.identified {k : ℕ} (h : Numbered k s) (htree : Tree initproc s) (hk : k ≤ 2 ^ 31 - 2) :
    Identified s := by
  have hpositive : ∀ q, (s.proc q).state ≠ .unused → 0 < (s.proc q).pid.toInt := by
    intro q hq
    have hbelow := h.below q hq
    have hnext := h.next
    rw [BitVec.toInt_eq_toNat_of_lt (by omega)]
    omega
  have hembryo : ∀ p np, (s.place p).embryo = some np → (s.proc np).state ≠ .unused := by
    intro p np hp hu
    have hkind := htree.embryo_kind hp
    rw [State.kind, hu] at hkind
    cases hkind
  refine ⟨hpositive, h.distinct, fun p np hp => ⟨hpositive np (hembryo p np hp), fun q hne hq heq => ?_⟩,
    fun p q hp hq => ?_⟩
  · exact hne (h.distinct q np hq (hembryo p np hp) heq)
  · rw [ProcessTable.holdingsleep, decide_eq_true_iff]
    exact ⟨fun heq => h.distinct p q hp hq heq.symm, fun heq => by rw [heq]⟩

theorem pids_run {as : List (Action n)} (hforks : as.countP Action.isFork ≤ 2 ^ 31 - 2)
    (h : Run (step initproc) unguarded (userinit initproc) as s) : Identified s := by
  obtain ⟨htree, hnum⟩ := numbered_run (hforks.trans (by decide)) h
  exact hnum.identified htree hforks

theorem pids_run_forked : ∃ s : State 3, Run (step 0) unguarded (userinit 0)
      ([.schedule 0, .fork 0] ++ List.replicate 4 (.run 0 true) ++ [.fork 0] ++ List.replicate 5 (.run 0 true)) s ∧
    (s.proc 1).pid = 2 ∧ (s.proc 2).pid = 3 ∧ Identified s := by
  have hrun : ∃ s : State 3, Run (step 0) unguarded (userinit 0)
      ([.schedule 0, .fork 0] ++ List.replicate 4 (.run 0 true) ++ [.fork 0] ++ List.replicate 5 (.run 0 true)) s ∧
      (s.proc 1).pid = 2 ∧ (s.proc 2).pid = 3 := exists_run (by decide +kernel)
  obtain ⟨s, h, hone, htwo⟩ := hrun
  exact ⟨s, h, hone, htwo, pids_run (by decide) h⟩

/-- The first process can call `fork`, and the second slot is free. -/
structure Ready (k : BitVec 32) (s : State 2) : Prop where
  panicked : s.panicked = false
  running : (s.proc 0).state = .running
  first : (s.proc 0).pid = 1
  user : s.place 0 = .user
  free : (s.proc 1).state = .unused
  nextpid : s.nextpid = k

variable {k : BitVec 32} {u : State 2}

theorem Ready.scan (h : Ready k u) : Run (step 0) unguarded u [.fork 0, .run 0 true]
    ((u.goto 0 (.forkScan 0)).goto 0 (.forkScan 1)) := by
  have hcall : step 0 u (.fork 0) = some (u.goto 0 (.forkScan 0)) := by
    simp [step, call, h.panicked, h.running, h.user]
  have hturn : step 0 (u.goto 0 (.forkScan 0)) (.run 0 true) =
      some ((u.goto 0 (.forkScan 0)).goto 0 (.forkScan 1)) := by
    simp [step, run, forkTurn, State.goto, h.panicked, h.running]
  exact .cons trivial hcall (.cons trivial hturn .nil)

/-- A call of `fork` that fails for want of memory has taken a pid. -/
theorem Ready.failedFork (h : Ready k u) :
    ∃ v, Run (step 0) unguarded u [.fork 0, .run 0 true, .run 0 false] v ∧ Ready (k + 1) v := by
  have hturn : step 0 ((u.goto 0 (.forkScan 0)).goto 0 (.forkScan 1)) (.run 0 false) =
      some (forkTurn ((u.goto 0 (.forkScan 0)).goto 0 (.forkScan 1)) 0 1 false) := by
    simp [step, run, State.goto, h.panicked, h.running]
  refine ⟨_, .snoc h.scan trivial hturn, ?_⟩
  constructor <;> simp [forkTurn, State.goto, State.setProc, freeproc, h.free, h.panicked, h.running, h.first,
    h.nextpid]

theorem Ready.fork (h : Ready k u) :
    ∃ v, Run (step 0) unguarded u [.fork 0, .run 0 true, .run 0 true] v ∧ (v.proc 0).pid = 1 ∧
      (v.proc 0).state = .running ∧ (v.proc 1).pid = k ∧ (v.proc 1).state = .used := by
  have hturn : step 0 ((u.goto 0 (.forkScan 0)).goto 0 (.forkScan 1)) (.run 0 true) =
      some (forkTurn ((u.goto 0 (.forkScan 0)).goto 0 (.forkScan 1)) 0 1 true) := by
    simp [step, run, State.goto, h.panicked, h.running]
  refine ⟨_, .snoc h.scan trivial hturn, ?_⟩
  simp [forkTurn, State.goto, h.free, h.running, h.first, h.nextpid]

theorem ready_run (m : ℕ) : ∃ as v, Run (step 0) unguarded (userinit (0 : Fin 2)) as v ∧
    Ready (2 + BitVec.ofNat 32 m) v := by
  induction m with
  | zero => exact ⟨[.schedule 0], _, .of_execute rfl, ⟨rfl, rfl, rfl, rfl, rfl, rfl⟩⟩
  | succ m ih =>
    obtain ⟨as, v, hrun, hready⟩ := ih
    obtain ⟨w, hloop, hnext⟩ := hready.failedFork
    refine ⟨_, w, hrun.trans hloop, ?_⟩
    rw [BitVec.ofNat_add, ← BitVec.add_assoc]
    exact hnext

/-- A process with a negative pid, and two processes with the same one. -/
theorem nextpid_wraps :
    (∃ as v, Run (step 0) unguarded (userinit (0 : Fin 2)) as v ∧ (v.proc 1).state = .used ∧
      (v.proc 1).pid.toInt < 0) ∧
    ∃ as v, Run (step 0) unguarded (userinit (0 : Fin 2)) as v ∧ (v.proc 0).state = .running ∧
      (v.proc 1).state = .used ∧ (v.proc 1).pid = (v.proc 0).pid := by
  constructor
  · obtain ⟨as, v, hrun, hready⟩ := ready_run (2 ^ 31 - 2)
    obtain ⟨w, hfork, -, -, hpid, hused⟩ := hready.fork
    refine ⟨_, w, hrun.trans hfork, hused, ?_⟩
    rw [hpid]
    decide
  · obtain ⟨as, v, hrun, hready⟩ := ready_run (2 ^ 32 - 1)
    obtain ⟨w, hfork, hone, hrunning, hpid, hused⟩ := hready.fork
    refine ⟨_, w, hrun.trans hfork, hrunning, hused, ?_⟩
    rw [hpid, hone]
    decide

end Xv6.ProcessTable
