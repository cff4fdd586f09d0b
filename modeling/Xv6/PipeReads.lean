import Xv6.PipeFifo

/-!
# What a read takes out of a pipe

`piperead` advances `nread` before `copyout` says whether the byte has arrived. A call that
meets a place it cannot write to has taken one byte more than it has stored. Such a byte is lost
for good: a pipe still has every byte that it accepted and did not deliver exactly if no
`copyout` has failed.
-/

namespace Xv6.PipeProtocol

open FreeRunningCounters Function TransitionRuns

variable {ι : Type} [DecidableEq ι] {s t : State ι} {p : ι}

/-- The bytes that the copy loop can still take. -/
def ReadCall.room (c : ReadCall) (s : State ι) : ℕ := min (c.n - c.i).toNat (fill s.nread s.nwrite)

structure Copied (s : State ι) (p : ι) (c : ReadCall) (m : ℕ) (t : State ι) : Prop where
  ret : t.place p = .readReturn c.n (c.i + m : ℕ)
  delivered : t.delivered = s.delivered ++ (window s.data pipeSize s.nread s.nwrite).take m
  advance : t.nread = s.nread + BitVec.ofNat 32 m ↔ ∀ j < c.room s, c.dst (c.i + j) = true

theorem run_cons {k : ℕ} {u : State ι} (hfreed : s.freed = false) (hrun : run s p = some t)
    (h : Run step unguarded t (List.replicate k (.run p)) u) :
    Run step unguarded s (List.replicate (k + 1) (.run p)) u := by
  apply Run.cons trivial _ h
  simp [step, hfreed, hrun]

variable {c : ReadCall}

theorem exit_run (hp : s.place p = .readExit c) (hfreed : s.freed = false) :
    Run step unguarded s (List.replicate 1 (.run p))
      (s.wakeupNwrite.release p (.readReturn c.n c.i)) := by
  apply run_cons hfreed _ .nil
  rw [run, hp]

section Turns

variable (hp : s.place p = .readCopy c)

include hp

theorem run_copy_end (h : c.n ≤ c.i ∨ s.nread = s.nwrite) :
    run s p = some (s.goto p (.readExit c)) := by
  rw [run, hp]
  simp only [readCopy]
  split
  · rename_i hi
    rw [if_pos (h.resolve_left (by omega))]
  · rfl

theorem run_copy_byte (hi : c.i < c.n) (hsome : s.nread ≠ s.nwrite) (hdst : c.dst c.i = true) :
    run s p = some { s with
      nread := s.nread + 1
      place := update s.place p (.readCopy { c with i := c.i + 1 })
      delivered := s.delivered ++ [s.data (place pipeSize s.nread)] } := by
  rw [run, hp]
  simp only [readCopy, if_pos hi, if_neg hsome, if_pos hdst]

/-- The byte is taken and `copyout` fails. -/
theorem run_copy_fault (hi : c.i < c.n) (hsome : s.nread ≠ s.nwrite) (hdst : c.dst c.i = false) :
    run s p = some { s with nread := s.nread + 1, place := update s.place p (.readExit c) } := by
  rw [run, hp]
  simp only [readCopy, if_pos hi, if_neg hsome, hdst, Bool.false_eq_true, if_false]

end Turns

theorem copy_run (k : ℕ) (hk : c.room s = k) (hp : s.place p = .readCopy c)
    (hfreed : s.freed = false) :
    ∃ j m t, Run step unguarded s (List.replicate j (.run p)) t ∧ Copied s p c m t := by
  induction k generalizing s c with
  | zero =>
    -- nothing is asked for, or the pipe is empty
    have hexit := run_copy_end hp (by rw [← fill_eq_zero_iff]; rw [ReadCall.room] at hk; omega)
    refine ⟨2, 0, _, run_cons hfreed hexit (exit_run (update_self ..) hfreed), update_self .., ?_, ?_⟩
    · rw [List.take_zero, List.append_nil]
      rfl
    · constructor
      · intro _ j hj
        omega
      · intro _
        exact (BitVec.add_zero _).symm
  | succ k ih =>
    have hi : (c.i : ℤ) < c.n := by
      rw [ReadCall.room] at hk
      omega
    have hsome : s.nread ≠ s.nwrite := by
      intro heq
      rw [ReadCall.room, fill_eq_zero_iff.2 heq, Nat.min_zero] at hk
      cases hk
    cases hdst : c.dst c.i with
    | true =>
      let u : State ι := { s with
        nread := s.nread + 1
        place := update s.place p (.readCopy { c with i := c.i + 1 })
        delivered := s.delivered ++ [s.data (place pipeSize s.nread)] }
      have hturn : run s p = some u := run_copy_byte hp hi hsome hdst
      have hroom : ReadCall.room { c with i := c.i + 1 } u = k := by
        have hfill : fill u.nread u.nwrite + 1 = fill s.nread s.nwrite := fill_succ_left hsome
        rw [ReadCall.room] at hk ⊢
        push_cast
        omega
      obtain ⟨j, m, t, hrun, hret, hdel, hadv⟩ := ih hroom (update_self ..) hfreed
      refine ⟨j + 1, m + 1, t, run_cons hfreed hturn hrun, ?_, ?_, ?_⟩
      · rw [hret]
        simp only [Nat.add_right_comm, Nat.add_assoc]
      · rw [hdel, window_pop s.data pipeSize hsome, List.take_succ_cons, List.append_assoc]
        rfl
      · have hsum : s.nread + BitVec.ofNat 32 (m + 1) = u.nread + BitVec.ofNat 32 m := by
          simp only [u, BitVec.ofNat_add, BitVec.add_assoc, BitVec.add_comm 1]
          rfl
        rw [hsum, hadv, hroom, hk]
        constructor
        · intro hall j hj
          cases j with
          | zero => exact hdst
          | succ j =>
            have hbyte := hall j (by omega)
            rwa [Nat.add_assoc, Nat.add_comm 1] at hbyte
        · intro hall j hj
          have hbyte := hall (j + 1) (by omega)
          rwa [Nat.add_comm j, ← Nat.add_assoc] at hbyte
    | false =>
      have hturn := run_copy_fault hp hi hsome hdst
      refine ⟨2, 0, _, run_cons hfreed hturn (exit_run (update_self ..) hfreed), update_self .., ?_, ?_⟩
      · rw [List.take_zero, List.append_nil]
        rfl
      · constructor
        · intro hsame
          have hone : (1 : BitVec 32) = 0 := add_left_cancel hsame
          cases hone
        · intro hall
          have hbyte := hall 0 (by omega)
          rw [Nat.add_zero, hdst] at hbyte
          cases hbyte

/-- Fewer bytes have been delivered or are in the ring than have been accepted. -/
def Lost (s : State ι) : Prop := s.delivered.length + fill s.nread s.nwrite < s.accepted.length

theorem Lost.turn (h : Lost s) (hbound : fill s.nread s.nwrite ≤ pipeSize) (ht : Turn s p t) :
    Lost t := by
  rw [Lost] at h
  cases ht with
  | writeByte c ch hp hroom hsrc =>
    have hfill : fill s.nread (s.nwrite + 1) = fill s.nread s.nwrite + 1 := by
      apply fill_succ_right
      exact lt_of_le_of_lt (Nat.succ_le_succ hbound) (by decide)
    rw [Lost, List.length_append]
    dsimp only
    rw [hfill, List.length_singleton]
    omega
  | readByte c hp hi hsome hdst =>
    have hfill : fill (s.nread + 1) s.nwrite + 1 = fill s.nread s.nwrite := fill_succ_left hsome
    rw [Lost, List.length_append, List.length_singleton]
    dsimp only
    omega
  | readFault c hp hi hsome hdst =>
    have hfill : fill (s.nread + 1) s.nwrite + 1 = fill s.nread s.nwrite := fill_succ_left hsome
    rw [Lost]
    dsimp only
    omega
  | _ => exact h

theorem Fifo.lost (h : Fifo s) (ht : Turn s p t) (hfail : copyoutResult s p = some false) : Lost t := by
  have hlen := congrArg List.length h.bytes
  rw [List.length_append, length_window] at hlen
  rw [copyoutResult] at hfail
  cases ht with
  | readByte c hp hi hsome hdst =>
    rw [hp] at hfail
    simp [hi, hsome, hdst] at hfail
  | readFault c hp hi hsome hdst =>
    have hfill : fill (s.nread + 1) s.nwrite + 1 = fill s.nread s.nwrite := fill_succ_left hsome
    rw [Lost]
    dsimp only
    omega
  | readEmpty c hp hi hempty => simp [hp, hempty] at hfail
  | readDone c hp hi => simp [hp, hi] at hfail
  | writeAcquire c hp | writeRefused c hp | writeEnter c hp | writeDone c hp | writeFull c hp
  | writeFault c hp | writeByte c ch hp | writeExit c hp | readAcquire c hp | readKilled c hp
  | readBlock c hp | readReady c hp | readSleep c hp | readExit c hp => simp [hp] at hfail

theorem lost_run {as : List (Action ι)} (h : Run step unguarded pipealloc as s) :
    fill s.nread s.nwrite ≤ pipeSize ∧ (Run step CopyoutSucceeds pipealloc as s ∨ Lost s) := by
  induction h with
  | nil => exact ⟨fifo_pipealloc.bound, Or.inl .nil⟩
  | @snoc as u v a _ _ next ih =>
    obtain ⟨hbound, hlost⟩ := ih
    cases a with
    | run p =>
      have hturn : Turn u p v := step_cases next
      refine ⟨fill_turn hbound hturn, ?_⟩
      rcases hlost with hrun | hlost
      · by_cases hfail : copyoutResult u p = some false
        · exact Or.inr ((fifo_run hrun).lost hturn hfail)
        · exact Or.inl (.snoc hrun hfail next)
      · exact Or.inr (hlost.turn hbound hturn)
    | _ =>
      obtain ⟨-, hr, hw, hacc, hdel⟩ := ring_step next (by simp)
      rw [Lost, hr, hw, hacc, hdel]
      exact ⟨hbound, hlost.imp (fun hrun => .snoc hrun trivial next) (fun h => h)⟩

/-- A call of `piperead` advances `nread` by the number of bytes that it stores exactly if it
can write to every place for a byte that it takes; and a pipe keeps every byte that it has not
delivered exactly if all `copyout`s have succeeded. -/
theorem piperead_loses_nothing_iff :
    (∀ (s : State ι) (p : ι) (c : ReadCall), s.place p = .readCopy c → c.i = 0 → s.freed = false →
      ∃ (j m : ℕ) (t : State ι), Run step unguarded s (List.replicate j (.run p)) t ∧
        t.place p = .readReturn c.n (m : ℕ) ∧
        t.delivered = s.delivered ++ (window s.data pipeSize s.nread s.nwrite).take m ∧
        (t.nread = s.nread + BitVec.ofNat 32 m ↔
          ∀ j < min c.n.toNat (fill s.nread s.nwrite), c.dst j = true)) ∧
    ∀ (as : List (Action ι)) (s : State ι), Run step unguarded pipealloc as s →
      (s.accepted = s.delivered ++ window s.data pipeSize s.nread s.nwrite ↔
        Run step CopyoutSucceeds pipealloc as s) := by
  constructor
  · intro s p c hp h0 hfreed
    obtain ⟨j, m, t, hrun, hret, hdel, hadv⟩ := copy_run (c.room s) rfl hp hfreed
    refine ⟨j, m, t, hrun, ?_, hdel, ?_⟩
    · rw [hret, h0, Nat.zero_add]
    · rw [hadv, ReadCall.room, h0]
      simp only [Nat.cast_zero, sub_zero, Nat.zero_add]
  · intro as s hrun
    constructor
    · intro hbytes
      refine (lost_run hrun).2.resolve_right (fun hlost => ?_)
      have hlen := congrArg List.length hbytes
      rw [List.length_append, length_window] at hlen
      rw [Lost] at hlost
      omega
    · intro hall
      exact (fifo_run hall).bytes

/-- One byte is written, and a reader has come to its copy loop. -/
def writeThenCopy : List (Action (Fin 2)) :=
  (.callWrite 0 (fun _ => some 104#8) 1 : Action (Fin 2)) :: List.replicate 5 (.run 0 : Action (Fin 2)) ++
    [.callRead 1 (fun _ => true) 1, .run 1, .run 1]

theorem piperead_loses_nothing_one : ∃ (s t : State (Fin 2)) (j m : ℕ),
    Run step unguarded pipealloc writeThenCopy s ∧ s.place 1 = .readCopy ⟨fun _ => true, 1, 0⟩ ∧
    s.accepted = s.delivered ++ window s.data pipeSize s.nread s.nwrite ∧
    Run step unguarded s (List.replicate j (.run 1)) t ∧ t.place 1 = .readReturn 1 m ∧
    t.nread = s.nread + BitVec.ofNat 32 m := by
  obtain ⟨s, hrun, hcopied, hplace, hfreed⟩ : ∃ s : State (Fin 2), Run step unguarded pipealloc writeThenCopy s ∧
      Run step CopyoutSucceeds pipealloc writeThenCopy s ∧ s.place 1 = .readCopy ⟨fun _ => true, 1, 0⟩ ∧
      s.freed = false := ⟨_, Run.of_execute rfl, Run.of_execute rfl, rfl, rfl⟩
  obtain ⟨hcopy, hloses⟩ := piperead_loses_nothing_iff (ι := Fin 2)
  obtain ⟨j, m, t, hread, hret, -, hadv⟩ := hcopy s 1 _ hplace rfl hfreed
  exact ⟨s, t, j, m, hrun, hplace, (hloses _ s hrun).2 hcopied, hread, hret, hadv.2 (fun _ _ => rfl)⟩

/-- One byte is written; then it is read to a place that cannot be written to. -/
def readToNowhere : List (Action (Fin 2)) :=
  (.callWrite 0 (fun _ => some 104#8) 1 : Action (Fin 2)) :: List.replicate 5 (.run 0 : Action (Fin 2)) ++
    (.callRead 1 (fun _ => false) 1 : Action (Fin 2)) :: List.replicate 4 (.run 1 : Action (Fin 2))

/-- The read returns 0, and the byte is in the pipe no more. -/
theorem piperead_drops_byte : ∃ s : State (Fin 2), Run step unguarded pipealloc readToNowhere s ∧
    s.place 1 = .readReturn 1 0 ∧ s.readopen = true ∧ s.accepted = [104#8] ∧ s.delivered = [] ∧
    s.nread = s.nwrite :=
  ⟨_, Run.of_execute rfl, rfl, rfl, rfl, rfl, rfl⟩

end Xv6.PipeProtocol
