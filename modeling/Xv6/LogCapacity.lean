import Xv6.LogAdmissionInvariant

/-!
# The log that `mkfs` lays out and the check of `log_write`

`mkfs` gives the log `LOGSIZE` blocks, of which the first is the header, while
`begin_op` admits operations up to `LOGSIZE` data blocks. The check of
`log_write` against `log.size - 1` is therefore met one block too early, and it
is made before absorption.
-/

namespace Xv6.LogAdmission

open TransitionRuns

variable {ι : Type}

/-- The distinct blocks passed to `log_write` since the last commit, read off the
calls alone. -/
def loggedBlocks : List (Action ι) → Finset ℕ :=
  List.foldl (fun bs a => match a with
    | .logWrite _ b => insert b bs
    | .clearHead _ => ∅
    | _ => bs) ∅

theorem loggedBlocks_concat (as : List (Action ι)) (a : Action ι) :
    loggedBlocks (as ++ [a]) = match a with
      | .logWrite _ b => insert b (loggedBlocks as)
      | .clearHead _ => ∅
      | _ => loggedBlocks as := by
  simp only [loggedBlocks, List.foldl_append, List.foldl_cons, List.foldl_nil]

/-- Every call of `log_write` in the history found room for its block among the
data blocks of the log of `mkfs`. -/
def RoomAtEachWrite (as : List (Action ι)) : Prop :=
  ∀ pre p b post, as = pre ++ Action.logWrite p b :: post →
    (loggedBlocks pre).card < logSize - 1

theorem roomAtEachWrite_concat (as : List (Action ι)) (a : Action ι) :
    RoomAtEachWrite (as ++ [a]) ↔ RoomAtEachWrite as ∧
      ∀ p b, a = .logWrite p b → (loggedBlocks as).card < logSize - 1 := by
  constructor
  · intro h
    refine ⟨fun pre p b post he => h pre p b (post ++ [a]) (by simp [he]), ?_⟩
    rintro p b rfl
    exact h as p b [] rfl
  · rintro ⟨hold, hlast⟩ pre p b post he
    rcases List.eq_nil_or_concat post with rfl | ⟨post', c, rfl⟩
    · obtain ⟨rfl, hc⟩ := List.append_inj' he rfl
      exact hlast p b (by simpa using hc)
    · have he' : as ++ [a] = (pre ++ Action.logWrite p b :: post') ++ [c] := by simpa using he
      obtain ⟨rfl, _⟩ := List.append_inj' he' rfl
      exact hold pre p b post' rfl

variable [Fintype ι]

/-- The invariant of the log that `mkfs` made. A panic leaves the header as it
was, hence `logged` speaks of the calls before it. -/
structure CapacityInv (as : List (Action ι)) (s : State ι) : Prop where
  inv : Inv s
  size : s.size = logSize
  appended : ∀ p, (s.proc p).appended ≤ (s.proc p).blocks.toFinset.card
  logged : s.panicked = none → s.lh.toFinset = loggedBlocks as
  room : s.panicked ≠ some .tooBig ↔ RoomAtEachWrite as

theorem capacityInv_initlog : CapacityInv [] (initlog Mkfs.superblock : State ι) where
  inv := inv_initlog _
  size := rfl
  appended := fun _ => le_rfl
  logged := fun _ => rfl
  room := by simp [initlog, RoomAtEachWrite]

variable {as : List (Action ι)} {s t : State ι} {a : Action ι}

/-- Distinct blocks bound new entries: a block that is new in the header is new for
the operation too. -/
theorem CapacityInv.appendBound (h : CapacityInv as s) (hb : DistinctBound s a) :
    AppendBound s a := by
  cases a with
  | logWrite p b =>
    intro hnew
    have hsub : (s.proc p).blocks ⊆ s.lh := by
      have hp := h.inv.place p
      cases hx : s.proc p with
      | inOp op => rw [hx] at hp; exact hp.2.2
      | _ => exact List.nil_subset _
    have hfresh : b ∉ (s.proc p).blocks.toFinset := fun hm => hnew (hsub (List.mem_toFinset.mp hm))
    have hcard : (insert b (s.proc p).blocks.toFinset).card ≤ maxOpBlocks := by
      simpa [DistinctBound] using hb
    rw [Finset.card_insert_of_notMem hfresh] at hcard
    exact lt_of_le_of_lt (h.appended p) hcard
  | _ => trivial

theorem CapacityInv.length_eq (h : CapacityInv as s) (hp : s.panicked = none) :
    s.lh.length = (loggedBlocks as).card := by
  rw [← h.logged hp, List.toFinset_card_of_nodup h.inv.nodup]

variable [DecidableEq ι]

theorem CapacityInv.of_quiet (h : CapacityInv as s) (hs : step s a = some t) (hi : Inv t)
    (hsize : t.size = s.size) (hproc : ∀ p, (t.proc p).appended ≤ (t.proc p).blocks.toFinset.card)
    (hlog : t.lh.toFinset = loggedBlocks (as ++ [a])) (hpanic : t.panicked = none)
    (ha : ∀ p b, a ≠ .logWrite p b) : CapacityInv (as ++ [a]) t := by
  have hnone := (step_cases hs).1
  refine ⟨hi, hsize.trans h.size, hproc, fun _ => hlog, ?_⟩
  have hroom : RoomAtEachWrite as := h.room.mp (by simp [hnone])
  rw [roomAtEachWrite_concat]
  exact ⟨fun _ => ⟨hroom, fun p b he => absurd he (ha p b)⟩, fun _ => by simp [hpanic]⟩

omit [Fintype ι] in
theorem appended_update {f : ι → Proc} {p : ι} {x : Proc}
    (hf : ∀ q, (f q).appended ≤ (f q).blocks.toFinset.card)
    (hx : x.appended ≤ x.blocks.toFinset.card) (q : ι) :
    (Function.update f p x q).appended ≤ (Function.update f p x q).blocks.toFinset.card :=
  (Function.forall_update_iff f (fun _ y => y.appended ≤ y.blocks.toFinset.card)).mpr
    ⟨hx, fun r _ => hf r⟩ q

theorem appended_wakeup {x : Proc} (h : x.appended ≤ x.blocks.toFinset.card) :
    x.wakeup.appended ≤ x.wakeup.blocks.toFinset.card := by
  cases x <;> exact h

theorem capacityInv_logWrite (h : CapacityInv as s) {p : ι} {b : ℕ} {op : Op}
    (hp : s.proc p = .inOp op) (hnone : s.panicked = none)
    (hi : Inv (logWrite s p op b)) : CapacityInv (as ++ [.logWrite p b]) (logWrite s p op b) := by
  have hlen := h.length_eq hnone
  have hroom : RoomAtEachWrite as := h.room.mp (by simp [hnone])
  have hout := h.inv.outstanding_pos hp
  have hsize := h.size
  have htest : (logSize ≤ s.lh.length ∨ (s.size : ℤ) - 1 ≤ s.lh.length) ↔
      ¬ (loggedBlocks as).card < logSize - 1 := by
    rw [hsize, hlen]
    simp only [logSize, maxOpBlocks]
    omega
  have hconcat : RoomAtEachWrite (as ++ [.logWrite p b]) ↔
      (loggedBlocks as).card < logSize - 1 := by
    rw [roomAtEachWrite_concat]
    exact ⟨fun hr => hr.2 p b rfl, fun hr => ⟨hroom, fun _ _ _ => hr⟩⟩
  by_cases hfull : logSize ≤ s.lh.length ∨ (s.size : ℤ) - 1 ≤ s.lh.length
  · have heq : logWrite s p op b = s.panic .tooBig := by rw [logWrite, if_pos hfull]
    rw [heq] at hi ⊢
    refine ⟨hi, hsize, h.appended, by simp [State.panic], ?_⟩
    rw [hconcat]
    simpa [State.panic] using htest.mp hfull
  · rw [logWrite, if_neg hfull, if_neg (by omega)] at hi ⊢
    refine ⟨hi, hsize, ?_, ?_, ?_⟩
    · refine appended_update h.appended ?_
      have hold := h.appended p
      rw [hp] at hold
      by_cases hmem : b ∈ s.lh
      · simp only [Op.record, Proc.appended, Proc.blocks, hmem, not_true_eq_false, decide_false,
          Bool.false_eq_true, if_false, List.toFinset_cons]
        exact hold.trans (Finset.card_le_card (Finset.subset_insert _ _))
      · have hblocks := h.inv.place p
        rw [hp] at hblocks
        have hfresh : b ∉ op.blocks.toFinset :=
          fun hm => hmem (hblocks.2.2 (List.mem_toFinset.mp hm))
        simp only [Op.record, Proc.appended, Proc.blocks, hmem, not_false_eq_true, decide_true,
          if_true, List.toFinset_cons, Finset.card_insert_of_notMem hfresh]
        exact Nat.succ_le_succ hold
    · intro _
      exact (absorb_toFinset b s.lh).trans (by rw [loggedBlocks_concat, h.logged hnone])
    · rw [hconcat]
      exact ⟨fun _ => not_not.mp (htest.not.mp hfull), fun _ => by simp [hnone]⟩

theorem capacityInv_step (h : CapacityInv as s) (hb : DistinctBound s a)
    (hs : step s a = some t) : CapacityInv (as ++ [a]) t := by
  have hi := inv_step h.inv (h.appendBound hb) hs
  obtain ⟨hnone, hcase⟩ := step_cases hs
  have hlog := h.logged hnone
  cases a with
  | beginOp p =>
    obtain ⟨_, rfl⟩ := hcase
    refine h.of_quiet hs hi ?_ ?_ ?_ ?_ (by simp)
    · unfold beginOp
      split_ifs <;> rfl
    · unfold beginOp
      split_ifs
      · exact appended_update h.appended (Nat.zero_le _)
      · exact appended_update h.appended (Nat.zero_le _)
      · exact appended_update h.appended (Nat.zero_le _)
    · rw [loggedBlocks_concat, ← hlog]
      unfold beginOp
      split_ifs <;> rfl
    · rw [← hnone]
      unfold beginOp
      split_ifs <;> rfl
  | logWrite p b =>
    obtain ⟨op, hp, rfl⟩ := hcase
    exact capacityInv_logWrite h hp hnone hi
  | endOp p =>
    obtain ⟨op, hp, rfl⟩ := hcase
    have hcom := h.inv.not_committing hp
    refine h.of_quiet hs hi ?_ ?_ ?_ ?_ (by simp)
    · unfold endOp
      split_ifs <;> rfl
    · unfold endOp
      split_ifs
      · exact h.appended
      · exact appended_update h.appended (Nat.zero_le _)
      · exact fun q => appended_wakeup (appended_update h.appended (Nat.zero_le _) q)
    · rw [loggedBlocks_concat, ← hlog]
      unfold endOp
      split_ifs <;> rfl
    · rw [← hnone]
      unfold endOp
      rw [if_neg (by simp [hcom])]
      split_ifs <;> rfl
  | writeHead p =>
    obtain ⟨_, rfl⟩ := hcase
    refine h.of_quiet hs hi rfl ?_ ?_ hnone (by simp)
    · refine appended_update h.appended ?_
      split_ifs <;> exact Nat.zero_le _
    · rw [loggedBlocks_concat, ← hlog]
      rfl
  | clearHead p =>
    obtain ⟨_, rfl⟩ := hcase
    refine h.of_quiet hs hi rfl (appended_update h.appended (Nat.zero_le _)) ?_ hnone (by simp)
    rw [loggedBlocks_concat]
    rfl
  | finishCommit p =>
    obtain ⟨_, rfl⟩ := hcase
    refine h.of_quiet hs hi rfl ?_ ?_ hnone (by simp)
    · exact fun q => appended_wakeup (appended_update h.appended (Nat.zero_le _) q)
    · rw [loggedBlocks_concat, ← hlog]
      rfl
  | kill p =>
    have ht : t = s.setProc p (s.proc p).wakeup := hcase
    subst ht
    refine h.of_quiet hs hi rfl ?_ ?_ hnone (by simp)
    · exact appended_update h.appended (appended_wakeup (h.appended p))
    · rw [loggedBlocks_concat, ← hlog]
      rfl

/-- On the log that `mkfs` lays out, a run of admitted operations that each log at
most `MAXOPBLOCKS` distinct blocks avoids `panic("too big a transaction")` exactly
when every `log_write` comes before `LOGSIZE - 1` distinct blocks have been logged
since the last commit. -/
theorem logWrite_fits_iff (h : Run step DistinctBound (initlog Mkfs.superblock) as s) :
    s.panicked ≠ some .tooBig ↔ RoomAtEachWrite as :=
  (h.history (I := CapacityInv) capacityInv_initlog
    (fun _ _ _ _ hi hb hs => capacityInv_step hi hb hs)).room

/-- Three operations are admitted together and log ten distinct blocks each. -/
def threeFullOps : List (Action (Fin 3)) :=
  ([.beginOp 0, .beginOp 1, .beginOp 2] : List (Action (Fin 3))) ++
    (List.range 10).map (fun k => (.logWrite 0 (46 + k) : Action (Fin 3))) ++
    (List.range 10).map (fun k => (.logWrite 1 (56 + k) : Action (Fin 3))) ++
    (List.range 10).map (fun k => (.logWrite 2 (66 + k) : Action (Fin 3)))

/-- The last of the thirty blocks meets a full log. -/
theorem threeFullOps_panic : ∃ s : State (Fin 3),
    Run step DistinctBound (initlog Mkfs.superblock) threeFullOps s ∧
      s.panicked = some .tooBig :=
  exists_run (by decide +kernel)

theorem logWrite_fits_oneOp : ∃ s : State (Fin 3),
    Run step DistinctBound (initlog Mkfs.superblock) [.beginOp 0, .logWrite 0 46] s ∧
      s.panicked ≠ some .tooBig := by
  have hrun : ∃ s : State (Fin 3),
      Run step DistinctBound (initlog Mkfs.superblock) [.beginOp 0, .logWrite 0 46] s :=
    ⟨_, Run.of_execute rfl⟩
  obtain ⟨s, h⟩ := hrun
  refine ⟨s, h, (logWrite_fits_iff h).mpr ?_⟩
  have hfirst : RoomAtEachWrite [Action.beginOp (0 : Fin 3)] := by
    intro pre p b post he
    rcases pre with _ | ⟨c, _ | ⟨d, pre⟩⟩ <;> simp at he
  exact (roomAtEachWrite_concat [Action.beginOp 0] (.logWrite 0 46)).mpr
    ⟨hfirst, fun _ _ _ => by decide⟩

end Xv6.LogAdmission
