import Xv6.LogAdmission
import Mathlib.Algebra.BigOperators.Ring.Finset
import Mathlib.Algebra.Order.BigOperators.Group.Finset
import Mathlib.Tactic.Linarith

/-!
# The reservation of log space is never exceeded

The invariant of every run of `begin_op`, `log_write`, `end_op` and `commit` whose
operations keep to `MAXOPBLOCKS` new entries. `begin_op` reserves a full
operation although some of its entries may already be counted in `log.lh.n`;
the sum below counts each entry once.
-/

namespace Xv6.LogAdmission

open Function TransitionRuns

def Proc.reserve : Proc → ℤ
  | .inOp op => maxOpBlocks - op.appended
  | _ => 0

def Proc.active : Proc → ℤ
  | .inOp _ => 1
  | _ => 0

/-- One for the process that is inside `commit`, or about to clear `log.committing`. -/
def Proc.committer : Proc → ℤ
  | .commit => 1
  | .install => 1
  | .committed => 1
  | _ => 0

@[simp] theorem Proc.reserve_wakeup (x : Proc) : x.wakeup.reserve = x.reserve := by
  cases x <;> rfl

@[simp] theorem Proc.active_wakeup (x : Proc) : x.wakeup.active = x.active := by
  cases x <;> rfl

@[simp] theorem Proc.committer_wakeup (x : Proc) : x.wakeup.committer = x.committer := by
  cases x <;> rfl

@[simp] theorem Proc.committer_inOp (op : Op) : (Proc.inOp op).committer = 0 := rfl

theorem Proc.active_nonneg (x : Proc) : 0 ≤ x.active := by cases x <;> simp [Proc.active]

theorem Proc.committer_nonneg (x : Proc) : 0 ≤ x.committer := by
  cases x <;> simp [Proc.committer]

theorem Proc.reserve_le_active (x : Proc) : x.reserve ≤ x.active * maxOpBlocks := by
  cases x with
  | inOp op =>
    simp only [Proc.reserve, Proc.active]
    omega
  | _ => simp [Proc.reserve, Proc.active]

section
variable {ι : Type}

/-- Everything a step can do: the place its process must be at, and the new state. -/
theorem step_cases [DecidableEq ι] {s t : State ι} {a : Action ι} (h : step s a = some t) :
    s.panicked = none ∧
    match a with
    | .beginOp p => (s.proc p = .idle ∨ s.proc p = .woken) ∧ t = beginOp s p
    | .logWrite p b => ∃ op, s.proc p = .inOp op ∧ t = logWrite s p op b
    | .endOp p => ∃ op, s.proc p = .inOp op ∧ t = endOp s p op
    | .writeHead p => s.proc p = .commit ∧ t = writeHead s p
    | .clearHead p => s.proc p = .install ∧ t = clearHead s p
    | .finishCommit p => s.proc p = .committed ∧ t = finishCommit s p
    | .kill p => t = s.setProc p (s.proc p).wakeup := by
  unfold step at h
  split at h
  · cases h
  · rename_i hp
    refine ⟨by simpa using hp, ?_⟩
    cases a with
    | beginOp p =>
      simp only at h ⊢
      split at h
      · exact ⟨Or.inl ‹_›, (Option.some.inj h).symm⟩
      · exact ⟨Or.inr ‹_›, (Option.some.inj h).symm⟩
      · cases h
    | logWrite p b | endOp p =>
      simp only at h ⊢
      split at h
      · exact ⟨_, ‹_›, (Option.some.inj h).symm⟩
      · cases h
    | writeHead p | clearHead p | finishCommit p =>
      simp only at h ⊢
      split at h
      · exact ⟨‹_›, (Option.some.inj h).symm⟩
      · cases h
    | kill p => exact (Option.some.inj h).symm

/-- The transaction that holds, or will hold, all that an ended operation logged. -/
def Recorded (s : State ι) (op : Op) : Prop :=
  match s.durable[op.epoch]? with
  | some header => op.blocks ⊆ header
  | none => op.epoch = s.durable.length ∧ op.blocks ⊆ s.lh

/-- What is true of the shared state because a process is where it is. -/
def Place (s : State ι) : Proc → Prop
  | .asleep => s.committing = true ∨ s.exhausts
  | .inOp op => op.appended ≤ maxOpBlocks ∧ op.epoch = s.durable.length ∧ op.blocks ⊆ s.lh
  | .install => ∀ op ∈ s.finished, op.epoch < s.durable.length
  | .committed => ∀ op ∈ s.finished, op.epoch < s.durable.length
  | _ => True

theorem length_absorb (b : ℕ) (cs : List ℕ) :
    (absorb b cs).length = if b ∈ cs then cs.length else cs.length + 1 := by
  split
  · rename_i h
    rw [absorb_of_mem h]
  · rename_i h
    rw [absorb_of_notMem h, List.length_append, List.length_singleton]

theorem Place.grow {s : State ι} {x : Proc} (b : ℕ) (h : Place s x) (hcom : s.committing = false)
    (f : ι → Proc) :    Place { s with lh := absorb b s.lh, proc := f } x := by
  cases x with
  | asleep =>
    have hw := h.resolve_left (by simp [hcom])
    have hlen := length_absorb b s.lh
    have hge : s.lh.length ≤ (absorb b s.lh).length := by split at hlen <;> omega
    refine Or.inr ?_
    simp only [State.exhausts] at hw ⊢
    omega
  | inOp op => exact ⟨h.1, h.2.1, fun c hc => subset_absorb b s.lh (h.2.2 hc)⟩
  | _ => exact h

/-- An ended operation stands in the header that the next commit will write. -/
theorem Place.recorded {s : State ι} {op : Op} (h : Place s (.inOp op)) : Recorded s op := by
  obtain ⟨_, hepoch, hblocks⟩ := h
  rw [Recorded, hepoch, List.getElem?_eq_none le_rfl]
  exact ⟨rfl, hblocks⟩

end

variable {ι : Type} [Fintype ι]

structure Inv (s : State ι) : Prop where
  reserve : (s.lh.length : ℤ) + ∑ p, (s.proc p).reserve ≤ logSize
  outstanding : s.outstanding = ∑ p, (s.proc p).active
  committer : (s.committing.toNat : ℤ) = ∑ p, (s.proc p).committer
  quiet : s.committing = true → s.outstanding = 0
  nodup : s.lh.Nodup
  place : ∀ p, Place s (s.proc p)
  recorded : ∀ op ∈ s.finished, Recorded s op
  panicked : s.panicked ≠ some .outsideTrans ∧ s.panicked ≠ some .logCommitting

theorem inv_initlog (sb : Superblock) : Inv (initlog sb : State ι) where
  reserve := by simp [initlog, Proc.reserve]
  outstanding := by simp [initlog, Proc.active]
  committer := by simp [initlog, Proc.committer]
  quiet := by simp [initlog]
  nodup := List.nodup_nil
  place := fun _ => trivial
  recorded := by simp [initlog]
  panicked := by simp [initlog]

variable {s : State ι}

theorem Inv.outstanding_pos (h : Inv s) {p : ι} {op : Op} (hp : s.proc p = .inOp op) :
    1 ≤ s.outstanding := by
  rw [h.outstanding]
  calc (1 : ℤ) = (s.proc p).active := by rw [hp]; rfl
    _ ≤ ∑ q, (s.proc q).active :=
      Finset.single_le_sum (fun q _ => (s.proc q).active_nonneg) (Finset.mem_univ p)

theorem Inv.not_committing (h : Inv s) {p : ι} {op : Op} (hp : s.proc p = .inOp op) :
    s.committing = false := by
  have hpos := h.outstanding_pos hp
  by_contra hc
  have := h.quiet (by simpa using hc)
  omega

theorem Inv.committing_of (h : Inv s) {p : ι} (hp : (s.proc p).committer = 1) :
    s.committing = true := by
  have hle : (s.proc p).committer ≤ ∑ q, (s.proc q).committer :=
    Finset.single_le_sum (fun q _ => (s.proc q).committer_nonneg) (Finset.mem_univ p)
  rw [← h.committer, hp] at hle
  cases hc : s.committing with
  | true => rfl
  | false => simp [hc] at hle

/-- What admission reserves is an upper bound of what the operations may append. -/
theorem Inv.reserve_le (h : Inv s) : ∑ p, (s.proc p).reserve ≤ s.outstanding * maxOpBlocks := by
  rw [h.outstanding, Finset.sum_mul]
  exact Finset.sum_le_sum (fun p _ => (s.proc p).reserve_le_active)

theorem Inv.panic (h : Inv s) : Inv (s.panic .tooBig) :=
  ⟨h.reserve, h.outstanding, h.committer, h.quiet, h.nodup, h.place, h.recorded,
    by simp [State.panic]⟩

variable [DecidableEq ι]

theorem Inv.counters (h : Inv s) (p : ι) (x : Proc) :
    (s.lh.length : ℤ) + ∑ q, (Function.update s.proc p x q).reserve ≤
        logSize + x.reserve - (s.proc p).reserve ∧
      s.outstanding + x.active - (s.proc p).active =
        ∑ q, (Function.update s.proc p x q).active ∧
      (s.committing.toNat : ℤ) + x.committer - (s.proc p).committer =
        ∑ q, (Function.update s.proc p x q).committer := by
  have hr := sum_update s.proc Proc.reserve p x
  have ha := sum_update s.proc Proc.active p x
  have hc := sum_update s.proc Proc.committer p x
  have hres := h.reserve
  have hout := h.outstanding
  have hcom := h.committer
  exact ⟨by omega, by omega, by omega⟩

theorem Inv.setProc (h : Inv s) {p : ι} {x : Proc} (hr : x.reserve = (s.proc p).reserve)
    (ha : x.active = (s.proc p).active) (hc : x.committer = (s.proc p).committer)
    (hx : Place s x) : Inv (s.setProc p x) := by
  obtain ⟨hres, hact, hcmt⟩ := h.counters p x
  rw [hr, add_sub_cancel_right] at hres
  rw [ha, add_sub_cancel_right] at hact
  rw [hc, add_sub_cancel_right] at hcmt
  refine ⟨hres, hact, hcmt, h.quiet, h.nodup, ?_, h.recorded, h.panicked⟩
  exact (Function.forall_update_iff s.proc (fun _ => Place s)).mpr ⟨hx, fun q _ => h.place q⟩

theorem inv_beginOp (h : Inv s) {p : ι} (hp : s.proc p = .idle ∨ s.proc p = .woken) :
    Inv (beginOp s p) := by
  have hr : (s.proc p).reserve = 0 := by rcases hp with hp | hp <;> rw [hp] <;> rfl
  have ha : (s.proc p).active = 0 := by rcases hp with hp | hp <;> rw [hp] <;> rfl
  have hc : (s.proc p).committer = 0 := by rcases hp with hp | hp <;> rw [hp] <;> rfl
  have hsleep (hw : s.committing = true ∨ s.exhausts) : Inv (s.setProc p .asleep) :=
    h.setProc hr.symm ha.symm hc.symm hw
  unfold beginOp
  split
  · rename_i hcom
    exact hsleep (Or.inl hcom)
  · rename_i hcom
    split
    · rename_i hex
      exact hsleep (Or.inr hex)
    · rename_i hex
      have hroom : (s.lh.length : ℤ) + (s.outstanding + 1) * maxOpBlocks ≤ logSize := by
        simpa [State.exhausts] using hex
      have hres := sum_update s.proc Proc.reserve p (.inOp ⟨s.durable.length, [], 0⟩)
      obtain ⟨-, hact, hcmt⟩ := h.counters p (.inOp ⟨s.durable.length, [], 0⟩)
      refine ⟨?_, ?_, ?_, fun hq => absurd hq hcom, h.nodup, ?_, h.recorded, h.panicked⟩
      · -- the old reservations fit in `outstanding * MAXOPBLOCKS`, the new one in the rest
        have hle := h.reserve_le
        rw [hr, Proc.reserve.eq_1] at hres
        simp only [Nat.cast_zero, sub_zero] at hres
        linarith
      · simpa [ha, Proc.active.eq_1] using hact
      · simpa [hc] using hcmt
      · refine (Function.forall_update_iff s.proc (fun _ => Place _)).mpr ⟨by simp [Place], ?_⟩
        intro q _
        have hq := h.place q
        cases hx : s.proc q with
        | asleep =>
          -- whoever was asleep needed more room than is left now
          rw [hx] at hq
          have := hq.resolve_left hcom
          refine Or.inr ?_
          simp only [State.exhausts, maxOpBlocks] at this ⊢
          omega
        | _ => rw [hx] at hq; exact hq

theorem inv_logWrite (h : Inv s) {p : ι} {b : ℕ} {op : Op} (hp : s.proc p = .inOp op)
    (hb : b ∉ s.lh → op.appended < maxOpBlocks) : Inv (logWrite s p op b) := by
  have hcom := h.not_committing hp
  have hout := h.outstanding_pos hp
  unfold logWrite
  split
  · exact h.panic
  · rw [if_neg (by omega)]
    obtain ⟨hres, hact, hcmt⟩ := h.counters p (.inOp (op.record b (b ∉ s.lh)))
    rw [hp, Proc.reserve.eq_1, Proc.reserve.eq_1] at hres
    rw [hp, Proc.active.eq_1, Proc.active.eq_1, add_sub_cancel_right] at hact
    rw [hp, Proc.committer_inOp, Proc.committer_inOp, add_sub_cancel_right] at hcmt
    have hlen := length_absorb b s.lh
    have hold := h.place p
    rw [hp] at hold
    refine ⟨?_, hact, hcmt, h.quiet, absorb_nodup h.nodup, ?_, ?_, h.panicked⟩
    · -- an entry moves from the reservation into the header, or nothing changes
      by_cases hmem : b ∈ s.lh
      · simp only [Op.record, hmem, not_true_eq_false, decide_false, Bool.false_eq_true,
          if_false, if_true] at hres hlen ⊢
        omega
      · simp only [Op.record, hmem, not_false_eq_true, decide_true, if_true, if_false,
          Nat.cast_add, Nat.cast_one] at hres hlen ⊢
        omega
    · refine (Function.forall_update_iff s.proc (fun _ => Place _)).mpr
        ⟨⟨?_, hold.2.1, ?_⟩, fun q _ => (h.place q).grow b hcom _⟩
      · by_cases hmem : b ∈ s.lh
        · simpa [Op.record, hmem] using hold.1
        · simpa [Op.record, hmem] using Nat.succ_le_of_lt (hb hmem)
      · simp only [Op.record, List.cons_subset]
        exact ⟨mem_absorb b s.lh, fun x hx => subset_absorb b s.lh (hold.2.2 hx)⟩
    · intro op' hop'
      have hrec := h.recorded op' hop'
      unfold Recorded at hrec ⊢
      simp only
      split at hrec
      · exact hrec
      · exact ⟨hrec.1, fun x hx => subset_absorb b s.lh (hrec.2 hx)⟩

theorem inv_endOp (h : Inv s) {p : ι} {op : Op} (hp : s.proc p = .inOp op) :
    Inv (endOp s p op) := by
  have hcom := h.not_committing hp
  have hplace := h.place p
  rw [hp] at hplace
  have hrec : ∀ op' ∈ op :: s.finished, Recorded s op' := by
    intro op' hop'
    rcases List.mem_cons.mp hop' with rfl | hold
    · exact hplace.recorded
    · exact h.recorded op' hold
  -- nobody is in the last two phases of a commit, so their clause has no instance
  have hlast (q : ι) : (s.proc q).committer ≠ 1 := fun hq => by
    have := h.committing_of hq
    simp [hcom] at this
  have hroom : 0 ≤ (Proc.inOp op).reserve := by
    have := hplace.1
    simp only [Proc.reserve]
    omega
  unfold endOp
  rw [if_neg (by simp [hcom])]
  split
  · rename_i hzero
    obtain ⟨hres, hact, hcmt⟩ := h.counters p .commit
    rw [hp, Proc.reserve.eq_2 .commit (by simp)] at hres
    refine ⟨by simp only; omega, ?_, ?_, fun _ => hzero, h.nodup, ?_, hrec, h.panicked⟩
    · simpa [hp, Proc.active.eq_1, Proc.active.eq_2 .commit (by simp)] using hact
    · simpa [hp, hcom, Proc.committer.eq_1] using hcmt
    · refine (Function.forall_update_iff s.proc (fun _ => Place _)).mpr ⟨trivial, ?_⟩
      intro q _
      have hq := h.place q
      have hl := hlast q
      cases hx : s.proc q with
      | asleep => exact Or.inl rfl
      | install | committed => simp [hx, Proc.committer] at hl
      | _ => rw [hx] at hq; exact hq
  · -- `wakeup(&log)` leaves nobody asleep, so it does not matter that more room is left
    obtain ⟨hres, hact, hcmt⟩ := h.counters p .idle
    rw [hp, Proc.reserve.eq_2 .idle (by simp)] at hres
    refine ⟨?_, ?_, ?_, ?_, h.nodup, ?_, hrec, h.panicked⟩
    · simp only [State.wakeup, Proc.reserve_wakeup]
      omega
    · simpa [State.wakeup, hp, Proc.active.eq_1, Proc.active.eq_2 .idle (by simp)] using hact
    · simpa [State.wakeup, hp, Proc.committer.eq_4 .idle (by simp) (by simp) (by simp)] using hcmt
    · simp [State.wakeup, hcom]
    · intro q
      simp only [State.wakeup]
      by_cases hqp : q = p
      · simp [hqp, Proc.wakeup, Place]
      · have hq := h.place q
        have hl := hlast q
        rw [update_of_ne hqp]
        cases hx : s.proc q with
        | install | committed => simp [hx, Proc.committer] at hl
        | inOp op' => rw [hx] at hq; exact hq
        | _ => trivial

theorem Inv.counters_commit (h : Inv s) {p : ι} {x : Proc} (hp : (s.proc p).committer = 1)
    (hx : x.committer = 1) :
    (s.lh.length : ℤ) + ∑ q, (Function.update s.proc p x q).reserve ≤ logSize ∧
      s.outstanding = ∑ q, (Function.update s.proc p x q).active ∧
      (s.committing.toNat : ℤ) = ∑ q, (Function.update s.proc p x q).committer := by
  have hweight (y : Proc) (hy : y.committer = 1) : y.reserve = 0 ∧ y.active = 0 := by
    cases y <;> simp_all [Proc.committer, Proc.reserve, Proc.active]
  obtain ⟨hres, hact, hcmt⟩ := h.counters p x
  obtain ⟨hr, ha⟩ := hweight _ hp
  obtain ⟨hr', ha'⟩ := hweight _ hx
  exact ⟨by omega, by omega, by omega⟩

theorem inv_writeHead (h : Inv s) {p : ι} (hp : s.proc p = .commit) : Inv (writeHead s p) := by
  have hcmt : (s.proc p).committer = 1 := by rw [hp]; rfl
  have hcom := h.committing_of hcmt
  have hx : (if 0 < s.lh.length then Proc.install else Proc.committed).committer = 1 := by
    split <;> rfl
  obtain ⟨hr, ha, hc⟩ := h.counters_commit hcmt hx
  have hold : ∀ op ∈ s.finished, op.epoch ≤ s.durable.length := by
    intro op hop
    have hrec := h.recorded op hop
    unfold Recorded at hrec
    split at hrec
    · rename_i hget
      exact (List.getElem?_eq_some_iff.mp hget).1.le
    · exact hrec.1.le
  have hnew : ∀ op ∈ s.finished, op.epoch < (s.durable ++ [s.lh]).length := by
    intro op hop
    rw [List.length_append, List.length_singleton]
    exact Nat.lt_succ_of_le (hold op hop)
  refine ⟨hr, ha, hc, h.quiet, h.nodup, ?_, ?_, h.panicked⟩
  · refine (Function.forall_update_iff s.proc (fun _ => Place _)).mpr ⟨?_, ?_⟩
    · split
      · exact hnew
      · exact hnew
    · intro q _
      have hq := h.place q
      cases hx : s.proc q with
      | asleep => exact Or.inl hcom
      | inOp op =>
        rw [h.not_committing hx] at hcom
        cases hcom
      | install => exact hnew
      | committed => exact hnew
      | _ => trivial
  · -- the header on disk is the one every operation of this transaction is recorded in
    intro op hop
    have hrec := h.recorded op hop
    unfold Recorded at hrec ⊢
    split at hrec
    · rename_i header hget
      simp only [writeHead, List.getElem?_append_left (List.getElem?_eq_some_iff.mp hget).1, hget]
      exact hrec
    · simp only [writeHead, hrec.1, List.getElem?_concat_length]
      exact hrec.2

theorem inv_clearHead (h : Inv s) {p : ι} (hp : s.proc p = .install) : Inv (clearHead s p) := by
  have hcmt : (s.proc p).committer = 1 := by rw [hp]; rfl
  have hcom := h.committing_of hcmt
  have hlt := h.place p
  rw [hp] at hlt
  obtain ⟨hr, ha, hc⟩ := h.counters_commit hcmt (x := .committed) rfl
  refine ⟨?_, ha, hc, h.quiet, List.nodup_nil, ?_, ?_, h.panicked⟩
  · simp only [clearHead, List.length_nil]
    omega
  · refine (Function.forall_update_iff s.proc (fun _ => Place _)).mpr ⟨hlt, ?_⟩
    intro q _
    have hq := h.place q
    cases hx : s.proc q with
    | asleep => exact Or.inl hcom
    | inOp op =>
      rw [h.not_committing hx] at hcom
      cases hcom
    | _ => rw [hx] at hq; exact hq
  · intro op hop
    have hrec := h.recorded op hop
    unfold Recorded at hrec ⊢
    simp only [clearHead, List.getElem?_eq_getElem (hlt op hop)] at hrec ⊢
    exact hrec

theorem inv_finishCommit (h : Inv s) {p : ι} (hp : s.proc p = .committed) :
    Inv (finishCommit s p) := by
  have hcmt : (s.proc p).committer = 1 := by rw [hp]; rfl
  have hcom := h.committing_of hcmt
  obtain ⟨hr, ha, hc⟩ := h.counters p .idle
  rw [hp, Proc.reserve.eq_2 _ (by simp), Proc.reserve.eq_2 _ (by simp)] at hr
  rw [hp, Proc.active.eq_2 _ (by simp), Proc.active.eq_2 _ (by simp)] at ha
  rw [hcmt, hcom, Proc.committer.eq_4 _ (by simp) (by simp) (by simp)] at hc
  refine ⟨?_, ?_, ?_, by simp [finishCommit, State.wakeup], h.nodup, ?_, h.recorded, h.panicked⟩
  · simp only [finishCommit, State.wakeup, Proc.reserve_wakeup]
    omega
  · simpa [finishCommit, State.wakeup] using ha
  · simpa [finishCommit, State.wakeup] using hc
  · intro q
    simp only [finishCommit, State.wakeup]
    by_cases hqp : q = p
    · simp [hqp, Proc.wakeup, Place]
    · have hq := h.place q
      rw [update_of_ne hqp]
      cases hx : s.proc q with
      | asleep => trivial
      | _ => rw [hx] at hq; exact hq

theorem inv_step {a : Action ι} {t : State ι} (h : Inv s) (hb : AppendBound s a)
    (hs : step s a = some t) : Inv t := by
  obtain ⟨_, hs⟩ := step_cases hs
  cases a with
  | beginOp p =>
    obtain ⟨hp, rfl⟩ := hs
    exact inv_beginOp h hp
  | logWrite p b =>
    obtain ⟨op, hp, rfl⟩ := hs
    exact inv_logWrite h hp (by simpa [AppendBound, Proc.appended, hp] using hb)
  | endOp p =>
    obtain ⟨op, hp, rfl⟩ := hs
    exact inv_endOp h hp
  | writeHead p =>
    obtain ⟨hp, rfl⟩ := hs
    exact inv_writeHead h hp
  | clearHead p =>
    obtain ⟨hp, rfl⟩ := hs
    exact inv_clearHead h hp
  | finishCommit p =>
    obtain ⟨hp, rfl⟩ := hs
    exact inv_finishCommit h hp
  | kill p =>
    rw [show t = s.setProc p (s.proc p).wakeup from hs]
    refine h.setProc (by simp) (by simp) (by simp) ?_
    have hp := h.place p
    cases hx : s.proc p <;> simp_all [Proc.wakeup, Place]

theorem inv_run {sb : Superblock} {as : List (Action ι)}
    (h : Run step AppendBound (initlog sb) as s) : Inv s :=
  h.invariant (inv_initlog sb) (fun _ _ _ hi hb hs => inv_step hi hb hs)

/-- While a commit runs, no step but its own clearing of the header changes `log.lh`. -/
theorem Inv.header_fixed (h : Inv s) {a : Action ι} {t : State ι} (hs : step s a = some t)
    (hcom : s.committing = true) (hlh : t.lh ≠ s.lh) : ∃ p, a = .clearHead p := by
  obtain ⟨_, hs⟩ := step_cases hs
  cases a with
  | beginOp p =>
    obtain ⟨_, rfl⟩ := hs
    simp [beginOp, hcom, State.setProc] at hlh
  | logWrite p b | endOp p =>
    obtain ⟨op, hp, _⟩ := hs
    simp [h.not_committing hp] at hcom
  | writeHead p =>
    obtain ⟨_, rfl⟩ := hs
    exact absurd rfl hlh
  | clearHead p => exact ⟨p, rfl⟩
  | finishCommit p =>
    obtain ⟨_, rfl⟩ := hs
    exact absurd rfl hlh
  | kill p =>
    rw [show t = s.setProc p (s.proc p).wakeup from hs] at hlh
    exact absurd rfl hlh

/-- Log admission and group commit, in every state of every interleaving in which
each operation appends at most `MAXOPBLOCKS` new entries. -/
theorem admission_groupCommit {sb : Superblock} {as : List (Action ι)}
    (h : Run step AppendBound (initlog sb) as s) :
    ((s.lh.length : ℤ) + ∑ p, (s.proc p).reserve ≤ logSize) ∧
    (s.committing = true → s.outstanding = 0 ∧
      ∀ a t, step s a = some t → t.lh ≠ s.lh → ∃ p, a = .clearHead p) ∧
    s.panicked ≠ some .logCommitting ∧
    (∀ p op, s.proc p = .inOp op → op.epoch = s.durable.length ∧ op.blocks ⊆ s.lh) ∧
    (∀ op ∈ s.finished, Recorded s op) ∧
    s.lh.Nodup ∧
    (∀ p, s.proc p = .asleep → s.committing = false → s.exhausts) := by
  have hi := inv_run h
  refine ⟨hi.reserve, ?_, hi.panicked.2, ?_, hi.recorded, hi.nodup, ?_⟩
  · intro hcom
    exact ⟨hi.quiet hcom, fun a t hs hlh => hi.header_fixed hs hcom hlh⟩
  · intro p op hp
    have hplace := hi.place p
    rw [hp] at hplace
    exact hplace.2
  · intro p hp hcom
    have hplace := hi.place p
    rw [hp] at hplace
    exact hplace.resolve_left (by simp [hcom])

/-- Two operations share one transaction; the second one commits it. -/
theorem admission_groupCommit_shared : ∃ s : State (Fin 2),
    Run step AppendBound (initlog Mkfs.superblock)
      [.beginOp 0, .beginOp 1, .logWrite 0 46, .logWrite 1 33, .endOp 0, .logWrite 1 46,
        .endOp 1, .writeHead 1] s ∧
    s.durable = [[46, 33]] ∧ s.outstanding = 0 ∧ ∀ op ∈ s.finished, Recorded s op := by
  have hrun : ∃ s : State (Fin 2), Run step AppendBound (initlog Mkfs.superblock)
      [.beginOp 0, .beginOp 1, .logWrite 0 46, .logWrite 1 33, .endOp 0, .logWrite 1 46,
        .endOp 1, .writeHead 1] s ∧ s.durable = [[46, 33]] ∧ s.committing = true :=
    exists_run (by decide +kernel)
  obtain ⟨s, h, hd, hc⟩ := hrun
  have hall := admission_groupCommit h
  exact ⟨s, h, hd, (hall.2.1 hc).1, hall.2.2.2.2.1⟩

end Xv6.LogAdmission
