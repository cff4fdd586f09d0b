import Xv6.ConsoleLines

/-!
# Every committed character goes to one read

The line discipline of the console over whole runs: the order of its indices, and what
calls of `consoleread` take from it and return, for any input and any readers.
-/

namespace Xv6.Console

open FreeRunningCounters Function TransitionRuns

/-- What the call `id` has taken from the buffer. -/
def takenBy (l : List (ℕ × Option Byte)) (id : ℕ) : List (Option Byte) :=
  (l.filter (fun x => x.1 = id)).map Prod.snd

theorem takenBy_append (l : List (ℕ × Option Byte)) (x : List (Option Byte)) (i id : ℕ) :
    takenBy (l ++ x.map (i, ·)) id = takenBy l id ++ if i = id then x else [] := by
  rw [takenBy, List.filter_append, List.map_append, takenBy]
  congr 1
  split
  · rename_i hid
    rw [List.filter_eq_self.2 (by simp [hid]), List.map_map]
    exact List.map_id x
  · rename_i hid
    rw [List.filter_eq_nil_iff.2 (by simp [hid]), List.map_nil]

theorem mem_takenBy {l : List (ℕ × Option Byte)} {id : ℕ} {x : Option Byte} :
    x ∈ takenBy l id ↔ (id, x) ∈ l := by
  simp [takenBy]

variable {ι : Type}

/-- The line discipline. What has been committed and is not pending was taken from the
buffer in order, each character by one call. An end of file is not delivered; the call that
takes it takes nothing else and returns 0. A call returns the number of bytes delivered to
it, or -1 if it was killed. -/
structure LineDiscipline (s : State ι) : Prop where
  ordered : Ordered s.cons
  inOrder : s.committed = s.consumed.map (fun x => x.2.getD ctrlD) ++ s.cons.pending
  data : ∀ x ∈ s.consumed, x.2 ≠ some ctrlD
  eof : ∀ id, (id, none) ∈ s.consumed → takenBy s.consumed id = [none] ∧ (id, 0) ∈ s.results
  bytes : ∀ id v, (id, v) ∈ s.results →
    v = -1 ∨ v = ((takenBy s.consumed id).reduceOption.length : ℤ)
  once : (s.results.map Prod.fst).Nodup

structure Active (s : State ι) (x : Read) : Prop where
  id_lt : x.id < s.calls
  copies : x.fault = none
  le : x.n ≤ x.target
  length : (takenBy s.consumed x.id).length = x.target - x.n
  noEof : none ∉ takenBy s.consumed x.id
  running : ∀ v, (x.id, v) ∉ s.results

structure Calls (s : State ι) : Prop where
  consumed_lt : ∀ x ∈ s.consumed, x.1 < s.calls
  results_lt : ∀ x ∈ s.results, x.1 < s.calls
  distinct : ∀ p q x y, s.reader p = some x → s.reader q = some y → x.id = y.id → p = q
  active : ∀ p x, s.reader p = some x → Active s x

variable {s t : State ι} {p : ι} {x : Read} {killed : Bool} {a : Action ι} {c : Byte}

/-- A section of a call in terms of what it takes from the list of pending characters. -/
structure ReadTo (s t : State ι) (p : ι) (x : Read) (y : List (Option Byte) × List Byte × Outcome) :
    Prop where
  ordered : Ordered t.cons
  pending : t.cons.pending = y.2.1
  calls : t.calls = s.calls
  committed : t.committed = s.committed
  consumed : t.consumed = s.consumed ++ y.1.map (x.id, ·)
  other : ∀ q ≠ p, t.reader q = s.reader q
  reader : t.reader p = match y.2.2 with | .asleep n => some { x with n := n } | .returned _ => none
  results : t.results = s.results ++ match y.2.2 with | .asleep _ => [] | .returned v => [(x.id, v)]

section ReadTo

variable {y : List (Option Byte) × List Byte × Outcome} (h : ReadTo s t p x y) (hd : LineDiscipline s)
  (hc : Calls s) (hp : s.reader p = some x) (hx : Active s x) (hy : Reads x.target x.n s.cons.pending y)

include h in
theorem ReadTo.takenBy_self : takenBy t.consumed x.id = takenBy s.consumed x.id ++ y.1 := by
  rw [h.consumed, takenBy_append, if_pos rfl]

include h in
theorem ReadTo.takenBy_ne {id : ℕ} (hne : id ≠ x.id) : takenBy t.consumed id = takenBy s.consumed id := by
  rw [h.consumed, takenBy_append, if_neg hne.symm, List.append_nil]

include h in
theorem ReadTo.results_mem {r : ℕ × ℤ} (hr : r ∈ t.results) :
    r ∈ s.results ∨ ∃ v, y.2.2 = .returned v ∧ r = (x.id, v) := by
  rw [h.results, List.mem_append] at hr
  refine hr.imp id (fun hr => ?_)
  cases hout : y.2.2 with
  | asleep n =>
    rw [hout] at hr
    cases hr
  | returned v =>
    rw [hout] at hr
    exact ⟨v, rfl, List.mem_singleton.1 hr⟩

include h hd hx hy in
theorem ReadTo.lineDiscipline : LineDiscipline t := by
  refine ⟨h.ordered, ?_, ?_, ?_, ?_, ?_⟩
  · rw [h.committed, hd.inOrder, h.consumed, h.pending, List.map_append, List.map_map,
      List.append_assoc]
    congr 1
    exact hy.append.symm
  · intro r hr
    rw [h.consumed, List.mem_append, List.mem_map] at hr
    rcases hr with hr | ⟨b, hb, rfl⟩
    · exact hd.data r hr
    · intro heq
      exact hy.data (heq ▸ hb)
  · intro id hid
    rw [← mem_takenBy] at hid
    rcases eq_or_ne id x.id with rfl | hne
    · -- The call takes an end of file only as the first character.
      rw [h.takenBy_self, List.mem_append] at hid
      obtain ⟨hn, hall, hret⟩ := hy.eof (hid.resolve_left hx.noEof)
      have hnil : takenBy s.consumed x.id = [] := by
        rw [← List.length_eq_zero_iff, hx.length]
        omega
      rw [h.takenBy_self, hnil, hall, h.results, hret]
      exact ⟨rfl, by simp⟩
    · rw [h.takenBy_ne hne] at hid ⊢
      obtain ⟨hall, hret⟩ := hd.eof id (mem_takenBy.1 hid)
      refine ⟨hall, ?_⟩
      rw [h.results]
      exact List.mem_append_left _ hret
  · intro id v hv
    rcases h.results_mem hv with hv | ⟨v', hout, heq⟩
    · have hne : id ≠ x.id := by
        rintro rfl
        exact hx.running v hv
      rw [h.takenBy_ne hne]
      exact hd.bytes id v hv
    · cases heq
      have hcount := hy.counted
      rw [hout] at hcount
      refine hcount.imp_right (fun hv => ?_)
      have hsome : (takenBy s.consumed x.id).reduceOption.length = x.target - x.n := by
        rw [← hx.length, List.reduceOption_length_eq_iff]
        intro b hb
        exact Option.isSome_iff_ne_none.2 (fun hnone => hx.noEof (hnone ▸ hb))
      rw [hv, h.takenBy_self, List.reduceOption_append, List.length_append, hsome]
  · rw [h.results, List.map_append]
    cases y.2.2 with
    | asleep n => simpa using hd.once
    | returned v =>
      refine List.Nodup.append hd.once (List.nodup_singleton _) ?_
      simpa using hx.running

include h hp in
theorem ReadTo.reader_id {q : ι} {z : Read} (hz : t.reader q = some z) :
    ∃ z', s.reader q = some z' ∧ z.id = z'.id := by
  rcases eq_or_ne q p with rfl | hne
  · refine ⟨x, hp, ?_⟩
    rw [h.reader] at hz
    split at hz
    · cases hz
      rfl
    · cases hz
  · rw [h.other q hne] at hz
    exact ⟨z, hz, rfl⟩

include h hc hp hy in
theorem ReadTo.toCalls : Calls t := by
  have hx := hc.active p x hp
  have hid := hx.id_lt
  refine ⟨?_, ?_, ?_, ?_⟩
  · intro r hr
    rw [h.consumed, List.mem_append, List.mem_map] at hr
    rw [h.calls]
    rcases hr with hr | ⟨b, -, rfl⟩
    · exact hc.consumed_lt r hr
    · exact hid
  · intro r hr
    rw [h.calls]
    rcases h.results_mem hr with hr | ⟨v, -, rfl⟩
    · exact hc.results_lt r hr
    · exact hid
  · intro q q' z z' hz hz' heq
    obtain ⟨u, hu, hzu⟩ := h.reader_id hp hz
    obtain ⟨u', hu', hzu'⟩ := h.reader_id hp hz'
    exact hc.distinct q q' u u' hu hu' (by rw [← hzu, ← hzu', heq])
  · intro q z hz
    rcases eq_or_ne q p with rfl | hne
    · -- The call goes to sleep with what it has taken.
      rw [h.reader] at hz
      cases hout : y.2.2 with
      | returned v =>
        rw [hout] at hz
        cases hz
      | asleep n =>
        rw [hout] at hz
        cases hz
        have hcount := hy.counted
        rw [hout] at hcount
        obtain ⟨hnone, hlen⟩ := hcount
        have hle := hx.le
        refine ⟨h.calls ▸ hid, hx.copies, by dsimp only; omega, ?_, ?_, fun v hv => ?_⟩
        · dsimp only
          rw [h.takenBy_self, List.length_append, hx.length]
          omega
        · dsimp only
          rw [h.takenBy_self, List.mem_append]
          exact fun hmem => hmem.elim hx.noEof hnone
        · rcases h.results_mem hv with hv | ⟨v', hret, -⟩
          · exact hx.running v hv
          · rw [hout] at hret
            cases hret
    · rw [h.other q hne] at hz
      have hz' := hc.active q z hz
      have hidne : z.id ≠ x.id := fun heq => hne (hc.distinct q p z x hz hp heq)
      refine ⟨h.calls ▸ hz'.id_lt, hz'.copies, hz'.le, ?_, ?_, fun v hv => ?_⟩
      · rw [h.takenBy_ne hidne]
        exact hz'.length
      · rw [h.takenBy_ne hidne]
        exact hz'.noEof
      · rcases h.results_mem hv with hv | ⟨v', -, heq⟩
        · exact hz'.running v hv
        · exact hidne (congrArg Prod.fst heq)

end ReadTo

variable [DecidableEq ι]

theorem readSection_readTo (p : ι) (killed : Bool) (h : Ordered s.cons) (hx : x.fault = none) :
    ReadTo s (s.readSection p x killed) p x (readLine killed x.target x.n s.cons.pending) := by
  have hf : Follows s.cons (readLoop killed x.target none x.n s.cons) _ := readLoop_follows h
  rw [State.readSection, hx, hf.outcome, hf.taken]
  dsimp only
  cases hout : (readLine killed x.target x.n s.cons.pending).2.2 with
  | asleep n =>
    refine ⟨hf.ordered, hf.pending, rfl, rfl, rfl, fun q hq => update_of_ne hq _ _, ?_, ?_⟩
    · rw [hout]
      simp [hx]
    · rw [hout]
      exact (List.append_nil _).symm
  | returned v =>
    refine ⟨hf.ordered, hf.pending, rfl, rfl, rfl, fun q hq => update_of_ne hq _ _, ?_, ?_⟩
    · rw [hout]
      simp
    · rw [hout]

def State.begin (s : State ι) (p : ι) (x : Read) : State ι :=
  { s with calls := s.calls + 1, reader := update s.reader p (some x) }

theorem Calls.begin (h : Calls s) (hp : s.reader p = none) (hid : x.id = s.calls)
    (hn : x.n = x.target) (hx : x.fault = none) : Calls (s.begin p x) := by
  have hnone : takenBy s.consumed x.id = [] := by
    rw [takenBy, List.map_eq_nil_iff, List.filter_eq_nil_iff]
    intro r hr
    have hlt := h.consumed_lt r hr
    simp only [decide_eq_true_eq]
    omega
  have hother : ∀ q z, (s.begin p x).reader q = some z → q = p ∧ z = x ∨ q ≠ p ∧ s.reader q = some z := by
    intro q z hz
    rcases eq_or_ne q p with rfl | hne
    · exact .inl ⟨rfl, by simpa [State.begin] using hz.symm⟩
    · exact .inr ⟨hne, by simpa [State.begin, hne] using hz⟩
  have hlt : ∀ q z, s.reader q = some z → z.id ≠ x.id := by
    intro q z hz
    have hzlt := (h.active q z hz).id_lt
    omega
  refine ⟨fun r hr => (h.consumed_lt r hr).trans (Nat.lt_succ_self _),
    fun r hr => (h.results_lt r hr).trans (Nat.lt_succ_self _), ?_, ?_⟩
  · intro q q' z z' hz hz' heq
    rcases hother q z hz with ⟨hq, hzx⟩ | ⟨-, hzs⟩
    · rcases hother q' z' hz' with ⟨hq', -⟩ | ⟨-, hzs'⟩
      · rw [hq, hq']
      · exact absurd (heq.symm.trans (congrArg Read.id hzx)) (hlt q' z' hzs')
    · rcases hother q' z' hz' with ⟨-, hzx'⟩ | ⟨-, hzs'⟩
      · exact absurd (heq.trans (congrArg Read.id hzx')) (hlt q z hzs)
      · exact h.distinct q q' z z' hzs hzs' heq
  · intro q z hz
    rcases hother q z hz with ⟨rfl, rfl⟩ | ⟨-, hz⟩
    · refine ⟨?_, hx, hn.le, ?_, ?_, fun v hv => ?_⟩
      · rw [hid]
        exact Nat.lt_succ_self _
      · rw [hn, Nat.sub_self]
        exact List.length_eq_zero_iff.2 hnone
      · rw [show (s.begin q z).consumed = s.consumed from rfl, hnone]
        exact List.not_mem_nil
      · exact absurd hid (h.results_lt _ hv).ne
    · obtain ⟨hidlt, hcopies, hle, hlen, heof, hrun⟩ := h.active q z hz
      exact ⟨hidlt.trans (Nat.lt_succ_self _), hcopies, hle, hlen, heof, hrun⟩

theorem step_cases (h : step s a = some t) (hcopies : copies s a) :
    (∃ c, a = .input c ∧ t = s.input c) ∨
    ∃ p x killed v, a.call s = some (p, x, killed) ∧ v.reader p = some x ∧ v.cons = s.cons ∧
      v.consumed = s.consumed ∧ v.results = s.results ∧ t = v.readSection p x killed ∧
      (LineDiscipline s → LineDiscipline v) ∧ (Calls s → Calls v) := by
  cases a with
  | input c => exact .inl ⟨c, rfl, (Option.some.inj h).symm⟩
  | read p n fault killed =>
    obtain ⟨⟨q, x, k⟩, hcall, ht⟩ := Option.map_eq_some_iff.1 h
    have hsome := hcall
    rw [Action.call] at hcall
    split at hcall
    · cases hcall
    · rename_i hnone
      cases hcall
      have hp : s.reader p = none := by simpa using hnone
      refine .inr ⟨p, _, killed, s.begin p ⟨s.calls, n.toNat, n.toNat, fault⟩, hsome, ?_, rfl, rfl, rfl,
        ?_, fun hd => ⟨hd.ordered, hd.inOrder, hd.data, hd.eof, hd.bytes, hd.once⟩,
        fun hc => hc.begin hp rfl rfl hcopies⟩
      · simp [State.begin]
      · rw [← ht]
        simp only [State.readSection, State.begin, Action.starts, update_idem]
        rfl
  | resume p killed =>
    obtain ⟨⟨q, x, k⟩, hcall, ht⟩ := Option.map_eq_some_iff.1 h
    have hsome := hcall
    obtain ⟨x, hp, heq⟩ := Option.map_eq_some_iff.1 hcall
    cases heq
    exact .inr ⟨p, x, killed, s, hsome, hp, rfl, rfl, rfl, ht.symm, id, id⟩

omit [DecidableEq ι] in
theorem input_lineDiscipline (h : LineDiscipline s) : LineDiscipline (s.input c) := by
  have hext := consoleintr_extends (c := c) h.ordered
  refine ⟨hext.ordered, ?_, h.data, h.eof, h.bytes, h.once⟩
  change s.committed ++ _ = _ ++ (consoleintr c s.cons).pending
  rw [h.inOrder, hext.pending, List.append_assoc]
  rfl

theorem step_lineDiscipline (h : LineDiscipline s ∧ Calls s) (hcopies : copies s a)
    (hstep : step s a = some t) : LineDiscipline t ∧ Calls t := by
  rcases step_cases hstep hcopies with ⟨c, -, rfl⟩ | ⟨p, x, killed, v, -, hp, -, -, -, rfl, hd, hc⟩
  · exact ⟨input_lineDiscipline h.1, ⟨h.2.consumed_lt, h.2.results_lt, h.2.distinct,
      fun p x hp => ⟨(h.2.active p x hp).id_lt, (h.2.active p x hp).copies, (h.2.active p x hp).le,
        (h.2.active p x hp).length, (h.2.active p x hp).noEof, (h.2.active p x hp).running⟩⟩⟩
  · have hx := (hc h.2).active p x hp
    have hto := readSection_readTo p killed (hd h.1).ordered hx.copies
    have hreads := readLine_reads killed v.cons.pending hx.le
    exact ⟨hto.lineDiscipline (hd h.1) hx hreads, hto.toCalls (hc h.2) hp hreads⟩

omit [DecidableEq ι] in
theorem Started.lineDiscipline (h : Started s) : LineDiscipline s ∧ Calls s := by
  obtain ⟨hw, he, hreader, hcommitted, hconsumed, hresults⟩ := h
  refine ⟨⟨⟨?_, ?_, ?_, ?_⟩, ?_, ?_, ?_, ?_, ?_⟩, ?_, ?_, ?_, ?_⟩
  · simp [hw, he]
  · simp [he]
  · simp [Cons.editing, hw, he, window_self]
  · simp [hw, he]
  · simp [hcommitted, hconsumed, Cons.pending, hw, window_self]
  · simp [hconsumed]
  · simp [hconsumed]
  · simp [hresults]
  · simp [hresults]
  · simp [hconsumed]
  · simp [hresults]
  · simp [hreader]
  · simp [hreader]

theorem console_lineDiscipline {as : List (Action ι)} (h : Started s) (hrun : Run step copies s as t) :
    LineDiscipline t ∧
    -- editing
    (∀ c, edits c → (t.input c).cons.r = t.cons.r ∧ (t.input c).cons.w = t.cons.w ∧
      (t.input c).cons.pending = t.cons.pending ∧ (t.input c).cons.editing <+: t.cons.editing) ∧
    -- a read that meets an end of file after at least one byte
    ∀ a u p x killed pre rest, copies t a → step t a = some u → a.call t = some (p, x, killed) →
      t.cons.pending = pre ++ ctrlD :: rest → (∀ c ∈ pre, c ≠ newline ∧ c ≠ ctrlD) →
      pre.length < x.n → 0 < x.target - x.n + pre.length →
      u.cons.pending = ctrlD :: rest ∧ u.consumed = t.consumed ++ pre.map (fun c => (x.id, some c)) ∧
      u.results = t.results ++ [(x.id, ((x.target - x.n + pre.length : ℕ) : ℤ))] := by
  have ht : LineDiscipline t ∧ Calls t :=
    hrun.invariant h.lineDiscipline (fun _ _ _ hv hok hnext => step_lineDiscipline hv hok hnext)
  refine ⟨ht.1, fun c hc => consoleintr_edits ht.1.ordered hc, ?_⟩
  intro a u p x killed pre rest hcopies hstep hcall hpending hpre hlen hsome
  rcases step_cases hstep hcopies with ⟨c, rfl, -⟩ | ⟨p', x', k, v, hcall', hp, hcons, hconsumed, hresults,
    rfl, hd, hc⟩
  · cases hcall
  · rw [hcall] at hcall'
    cases hcall'
    have hx := (hc ht.2).active p x hp
    have hto := readSection_readTo p killed (hd ht.1).ordered hx.copies
    rw [hcons, hpending, readLine_meets hx.le hpre hlen hsome] at hto
    refine ⟨hto.pending, ?_, ?_⟩
    · rw [hto.consumed, hconsumed, List.map_map]
      rfl
    · rw [hto.results, hresults]

def twoReaders : State (Fin 2) where
  cons := ⟨fun _ => 0, 0xfffffffe, 0xfffffffe, 0xfffffffe, []⟩
  reader := fun _ => none
  calls := 0
  committed := []
  consumed := []
  results := []

/-- The first reader sleeps, is woken by a line and then meets an end of file; the second one
takes that. -/
def twoReads : List (Action (Fin 2)) :=
  [.read 0 9 none false, .input 97, .input 98, .input ctrlH, .input ctrlD, .resume 0 false,
    .read 1 5 none false]

theorem console_lineDiscipline_wrap : ∃ t, Run step copies twoReaders twoReads t ∧ LineDiscipline t ∧
    t.results = [(0, 1), (1, 0)] := by
  obtain ⟨t, hrun, hresults⟩ : ∃ t, Run step copies twoReaders twoReads t ∧ t.results = [(0, 1), (1, 0)] :=
    exists_run (by decide +kernel)
  exact ⟨t, hrun, (console_lineDiscipline ⟨rfl, rfl, fun _ => rfl, rfl, rfl, rfl⟩ hrun).1, hresults⟩

end Xv6.Console
