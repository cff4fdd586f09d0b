import Mathlib.Data.Finset.Card
import Xv6.TransitionRuns

/-!
# Nested disabling of interrupts

`push_off` and `pop_off` of `kernel/spinlock.c`, the spinlocks on top of them, and the switches
through `sched`. A CPU counts the calls that are outstanding on it and remembers whether interrupts
were on before the first; a process that switches away takes that flag along on its stack, since it
belongs to the process and the process may go on elsewhere.
-/

namespace Xv6.InterruptNesting

open Function TransitionRuns

/-- Where `swtch` to a process arrives: at `forkret`, or in `sched` with its local `intena`. -/
inductive Context (γ : Type)
  | forkret
  | sched (intena : Bool)
  | running (c : γ)
  deriving DecidableEq

/-- The CPUs (`γ`), the locks (`κ`) and the processes (`τ`). -/
structure Machine (γ τ κ : Type) where
  noff : γ → ℕ
  intena : γ → Bool
  /-- `intr_get` of each CPU. -/
  intr : γ → Bool
  /-- `lk->cpu` of a lock with `lk->locked`. -/
  lock : κ → Option γ
  /-- The process that a CPU runs; its scheduler loop runs if there is none. -/
  proc : γ → Option τ
  context : τ → Context γ

inductive Panic
  | acquire
  | release
  | popOffInterruptible
  | popOff
  | schedLock
  | schedLocks
  | schedInterruptible
  deriving DecidableEq

variable {γ τ κ : Type} [DecidableEq γ] [DecidableEq τ] [DecidableEq κ]

namespace Machine

variable (m : Machine γ τ κ) (c : γ)

def pushOff : Machine γ τ κ :=
  { m with
    intr := update m.intr c false
    intena := if m.noff c = 0 then update m.intena c (m.intr c) else m.intena
    noff := update m.noff c (m.noff c + 1) }

/-- `pop_off` after its checks. -/
def popped : Machine γ τ κ :=
  { m with
    noff := update m.noff c (m.noff c - 1)
    intr := if m.noff c - 1 = 0 ∧ m.intena c then update m.intr c true else m.intr }

def popOff : Except Panic (Machine γ τ κ) :=
  if m.intr c then .error .popOffInterruptible
  else if m.noff c < 1 then .error .popOff
  else .ok (m.popped c)

/-- `acquire` up to its loop. -/
def acquire (k : κ) : Except Panic (Machine γ τ κ) :=
  if (m.pushOff c).lock k = some c then .error .acquire else .ok (m.pushOff c)

/-- A turn of the loop of `acquire`: it ends when the swap finds the lock free. -/
def testAndSet (k : κ) : Machine γ τ κ :=
  if m.lock k = none then { m with lock := update m.lock k (some c) } else m

/-- `release` up to its `pop_off`. -/
def release (k : κ) : Except Panic (Machine γ τ κ) :=
  if m.lock k ≠ some c then .error .release else .ok { m with lock := update m.lock k none }

variable (lockOf : τ → κ)

/-- `sched` up to its `swtch`. -/
def sched (p : τ) : Except Panic (Machine γ τ κ) :=
  if m.lock (lockOf p) ≠ some c then .error .schedLock
  else if m.noff c ≠ 1 then .error .schedLocks
  else if m.intr c then .error .schedInterruptible
  else .ok { m with
    context := update m.context p (.sched (m.intena c))
    proc := update m.proc c none }

/-- `swtch` of the scheduler loop to a process that does not run, and the rest of its `sched`. -/
def swtch (p : τ) : Machine γ τ κ :=
  match m.context p with
  | .running _ => m
  | .forkret => { m with
    context := update m.context p (.running c)
    proc := update m.proc c (some p) }
  | .sched intena => { m with
    context := update m.context p (.running c)
    proc := update m.proc c (some p)
    intena := update m.intena c intena }

/-- `allocproc` makes a free process start at `forkret`. -/
def allocproc (p : τ) : Machine γ τ κ :=
  match m.context p with
  | .running _ => m
  | _ => { m with context := update m.context p .forkret }

end Machine

/-- What the kernel thread of a CPU does next. `setIntr` stands for `intr_on`, `intr_off`, and a
trap and the return from it. -/
inductive Op (τ κ : Type)
  | pushOff
  | popOff
  | acquire (k : κ)
  | testAndSet (k : κ)
  | release (k : κ)
  | sched (p : τ)
  | swtch (p : τ)
  | allocproc (p : τ)
  | setIntr (b : Bool)
  deriving DecidableEq

def call (lockOf : τ → κ) (m : Machine γ τ κ) (c : γ) : Op τ κ → Except Panic (Machine γ τ κ)
  | .pushOff => .ok (m.pushOff c)
  | .popOff => m.popOff c
  | .acquire k => m.acquire c k
  | .testAndSet k => .ok (m.testAndSet c k)
  | .release k => m.release c k
  | .sched p => m.sched c lockOf p
  | .swtch p => .ok (m.swtch c p)
  | .allocproc p => .ok (m.allocproc p)
  | .setIntr b => .ok { m with intr := update m.intr c b }

/-- What the threads have done so far. -/
structure History (γ τ κ : Type) where
  /-- The calls of `push_off` that are outstanding on a CPU, apart from those of held locks. -/
  plain : γ → ℕ
  held : γ → Finset κ
  /-- Interrupts were on when the process made its first outstanding `push_off`. -/
  wasOn : τ → Bool
  /-- The process has come from `forkret` and not yet got through its first `release`. -/
  fresh : τ → Bool

namespace History

variable (h : History γ τ κ) (m : Machine γ τ κ) (c : γ)

def Clear (h : History γ τ κ) (c : γ) : Prop := h.plain c = 0 ∧ h.held c = ∅

instance : Decidable (h.Clear c) := inferInstanceAs (Decidable (_ ∧ _))

def pushed : History γ τ κ :=
  { h with
    plain := update h.plain c (h.plain c + 1)
    wasOn := fun p => if m.proc c = some p ∧ h.Clear c then m.intr c else h.wasOn p }

def popped : History γ τ κ :=
  { h with
    plain := update h.plain c (h.plain c - 1)
    fresh := fun p =>
      if m.proc c = some p ∧ h.plain c = 1 ∧ h.held c = ∅ then false else h.fresh p }

def note : Op τ κ → History γ τ κ
  | .pushOff => h.pushed m c
  | .acquire _ => h.pushed m c
  | .popOff => h.popped m c
  | .testAndSet k => if m.lock k = none then { h with
      plain := update h.plain c (h.plain c - 1)
      held := update h.held c (insert k (h.held c)) } else h
  | .release k => { h with
      plain := update h.plain c (h.plain c + 1)
      held := update h.held c ((h.held c).erase k) }
  | .swtch p => if m.context p = .forkret then { h with fresh := update h.fresh p true } else h
  | _ => h

end History

/-- A thread releases what it has acquired and calls `pop_off` after a `push_off`, in any order; a
process enters `sched` and the scheduler loop switches to a process with that process's lock and
nothing else. -/
def Matched (lockOf : τ → κ) (s : Machine γ τ κ × History γ τ κ) (a : γ × Op τ κ) : Prop :=
  match a.2 with
  | .pushOff => True
  | .popOff => 0 < s.2.plain a.1
  | .acquire k => k ∉ s.2.held a.1
  | .testAndSet _ => 0 < s.2.plain a.1
  | .release k => k ∈ s.2.held a.1
  | .sched p => s.1.proc a.1 = some p ∧ s.2.plain a.1 = 0 ∧ s.2.held a.1 = {lockOf p}
  | .swtch p => s.1.proc a.1 = none ∧ s.2.plain a.1 = 0 ∧ s.2.held a.1 = {lockOf p}
  | .allocproc p => lockOf p ∈ s.2.held a.1
  | .setIntr _ => s.2.Clear a.1

instance (lockOf : τ → κ) (s : Machine γ τ κ × History γ τ κ) (a : γ × Op τ κ) :
    Decidable (Matched lockOf s a) := by
  unfold Matched
  split <;> infer_instance

def step (lockOf : τ → κ) (s : Machine γ τ κ × History γ τ κ) (a : γ × Op τ κ) :
    Option (Machine γ τ κ × History γ τ κ) :=
  (call lockOf s.1 a.1 a.2).toOption.map (fun m => (m, s.2.note s.1 a.1 a.2))

def start (intr : γ → Bool) : Machine γ τ κ × History γ τ κ :=
  (⟨fun _ => 0, fun _ => false, intr, fun _ => none, fun _ => none, fun _ => .forkret⟩,
    ⟨fun _ => 0, fun _ => ∅, fun _ => false, fun _ => false⟩)

/-- The depth of nesting of a CPU, and what it means. -/
structure Counts (m : Machine γ τ κ) (h : History γ τ κ) : Prop where
  depth : ∀ c, m.noff c = h.plain c + (h.held c).card
  off : ∀ c, 0 < m.noff c → m.intr c = false
  held : ∀ k c, m.lock k = some c ↔ k ∈ h.held c

/-- The flag of a process is in its CPU while it runs and on its stack while it does not. -/
structure Flags (m : Machine γ τ κ) (h : History γ τ κ) : Prop where
  runs : ∀ c p, m.proc c = some p → m.context p = .running c
  stack : ∀ p b, m.context p = .sched b → h.fresh p = false → b = h.wasOn p
  cpu : ∀ c p, m.proc c = some p → h.fresh p = false → 0 < m.noff c → m.intena c = h.wasOn p

variable {m m' : Machine γ τ κ} {h : History γ τ κ} {c : γ} {k : κ} {p : τ} {lockOf : τ → κ}

omit [DecidableEq γ] [DecidableEq τ] [DecidableEq κ] in
theorem Counts.clear_iff (hC : Counts m h) : h.Clear c ↔ m.noff c = 0 := by
  rw [hC.depth c, Nat.add_eq_zero_iff, Finset.card_eq_zero]
  rfl

omit [DecidableEq γ] [DecidableEq τ] [DecidableEq κ] in
theorem Flags.proc_ne (hF : Flags m h) (hp : m.context p ≠ .running c) : m.proc c ≠ some p :=
  fun hc => hp (hF.runs c p hc)

omit [DecidableEq γ] [DecidableEq τ] [DecidableEq κ] in
theorem Flags.once (hF : Flags m h) {c' : γ} (hp : m.proc c' = some p) (hc : c' ≠ c) :
    m.proc c ≠ some p :=
  hF.proc_ne (by simpa [hF.runs c' p hp] using hc)

theorem Counts.pushOff (hC : Counts m h) : Counts (m.pushOff c) (h.pushed m c) where
  depth c' := by
    rcases eq_or_ne c' c with rfl | hc
    · simp only [Machine.pushOff, History.pushed, update_self, hC.depth c']
      omega
    · simp only [Machine.pushOff, History.pushed, update_of_ne hc, hC.depth c']
  off c' hpos := by
    rcases eq_or_ne c' c with rfl | hc
    · exact update_self ..
    · simp only [Machine.pushOff, update_of_ne hc] at hpos ⊢
      exact hC.off c' hpos
  held := hC.held

theorem Flags.pushOff (hF : Flags m h) (hC : Counts m h) : Flags (m.pushOff c) (h.pushed m c) where
  runs := hF.runs
  stack p b hp hfresh := by
    have hne : m.proc c ≠ some p := hF.proc_ne (by simp [show m.context p = _ from hp])
    simp only [History.pushed, hne, false_and, if_false]
    exact hF.stack p b hp hfresh
  cpu c' p hp hfresh hpos := by
    have hp : m.proc c' = some p := hp
    simp only [History.pushed, Machine.pushOff] at hpos ⊢
    rcases eq_or_ne c' c with rfl | hc
    · by_cases hzero : m.noff c' = 0
      · rw [if_pos hzero, update_self, if_pos ⟨hp, hC.clear_iff.2 hzero⟩]
      · rw [if_neg hzero, if_neg (fun hclear => hzero (hC.clear_iff.1 hclear.2))]
        exact hF.cpu c' p hp hfresh (by omega)
    · have hne := hF.once hp hc
      rw [update_of_ne hc] at hpos
      simp only [hne, false_and, if_false, ← hF.cpu c' p hp hfresh hpos]
      split
      · exact update_of_ne hc _ _
      · rfl

omit [DecidableEq τ] [DecidableEq κ] in
theorem Counts.popOff (hC : Counts m h) (hpos : 0 < h.plain c) : m.popOff c = .ok (m.popped c) := by
  have hdepth := hC.depth c
  rw [Machine.popOff, if_neg (by simp [hC.off c (by omega)]), if_neg (by omega)]

theorem Counts.popped (hC : Counts m h) (hpos : 0 < h.plain c) :
    Counts (m.popped c) (h.popped m c) where
  depth c' := by
    rcases eq_or_ne c' c with rfl | hc
    · simp only [Machine.popped, History.popped, update_self, hC.depth c']
      omega
    · simp only [Machine.popped, History.popped, update_of_ne hc, hC.depth c']
  off c' hpos' := by
    simp only [Machine.popped] at hpos' ⊢
    rcases eq_or_ne c' c with rfl | hc
    · rw [update_self] at hpos'
      rw [if_neg (by omega)]
      exact hC.off c' (by omega)
    · rw [update_of_ne hc] at hpos'
      rw [← hC.off c' hpos']
      split
      · exact update_of_ne hc _ _
      · rfl
  held := hC.held

omit [DecidableEq τ] [DecidableEq κ] in
theorem Counts.intr_popped (hC : Counts m h) (hone : m.noff c = 1) : (m.popped c).intr c = m.intena c := by
  simp only [Machine.popped, hone, Nat.sub_self, true_and]
  split
  · rename_i hintena
    rw [update_self, hintena]
  · rename_i hintena
    rw [hC.off c (by omega), Bool.eq_false_iff.2 hintena]

theorem Flags.popped (hF : Flags m h) (hC : Counts m h) : Flags (m.popped c) (h.popped m c) where
  runs := hF.runs
  stack p b hp hfresh := by
    have hne : m.proc c ≠ some p := hF.proc_ne (by simp [show m.context p = _ from hp])
    simp only [History.popped, hne, false_and, if_false] at hfresh
    exact hF.stack p b hp hfresh
  cpu c' p hp hfresh hpos := by
    have hp : m.proc c' = some p := hp
    simp only [History.popped, Machine.popped] at hfresh hpos
    rcases eq_or_ne c' c with rfl | hc
    · rw [update_self] at hpos
      have hlast : ¬ (h.plain c' = 1 ∧ h.held c' = ∅) := by
        rintro ⟨hplain, hheld⟩
        rw [hC.depth c', hplain, hheld, Finset.card_empty] at hpos
        omega
      rw [if_neg (fun hl => hlast hl.2)] at hfresh
      exact hF.cpu c' p hp hfresh (by omega)
    · rw [if_neg (fun hl => hF.once hp hc hl.1)] at hfresh
      rw [update_of_ne hc] at hpos
      exact hF.cpu c' p hp hfresh hpos

/-- The history of a CPU on which a lock has been taken or given back. -/
def History.setHeld (h : History γ τ κ) (c : γ) (n : ℕ) (S : Finset κ) : History γ τ κ :=
  { h with plain := update h.plain c n, held := update h.held c S }

omit [DecidableEq τ] in
theorem Counts.setLock (hC : Counts m h) {o : Option γ} {n : ℕ} {S : Finset κ}
    (hn : n + S.card = h.plain c + (h.held c).card)
    (hk : ∀ c', o = some c' ↔ k ∈ update h.held c S c')
    (hS : ∀ l ≠ k, l ∈ S ↔ l ∈ h.held c) :
    Counts { m with lock := update m.lock k o } (h.setHeld c n S) where
  depth c' := by
    rcases eq_or_ne c' c with rfl | hc
    · simp only [History.setHeld, update_self, hC.depth c', hn]
    · simp only [History.setHeld, update_of_ne hc, hC.depth c']
  off := hC.off
  held l c' := by
    simp only [History.setHeld]
    rcases eq_or_ne l k with rfl | hl
    · rw [update_self]
      exact hk c'
    · rw [update_of_ne hl, hC.held l c']
      rcases eq_or_ne c' c with rfl | hc
      · rw [update_self, hS l hl]
      · rw [update_of_ne hc]

theorem testAndSet_keeps (hC : Counts m h) (hF : Flags m h) (hpos : 0 < h.plain c) :
    Counts (m.testAndSet c k) (h.note m c (.testAndSet k : Op τ κ)) ∧
      Flags (m.testAndSet c k) (h.note m c (.testAndSet k : Op τ κ)) := by
  rw [Machine.testAndSet, History.note]
  split
  · rename_i hfree
    have hnot : ∀ c', k ∉ h.held c' := by
      intro c' hmem
      rw [← hC.held k c', hfree] at hmem
      cases hmem
    refine ⟨hC.setLock ?_ ?_ ?_, hF.runs, hF.stack, hF.cpu⟩
    · rw [Finset.card_insert_of_notMem (hnot c)]
      omega
    · intro c'
      rcases eq_or_ne c' c with rfl | hc
      · simp
      · simp [hc, hnot c', Ne.symm hc]
    · intro l hl
      simp [hl]
  · exact ⟨hC, hF⟩

theorem Counts.release (hC : Counts m h) (hk : k ∈ h.held c) :
    Counts { m with lock := update m.lock k none } (h.note m c (.release k : Op τ κ)) := by
  refine hC.setLock ?_ ?_ ?_
  · have hcard := Finset.card_erase_add_one hk
    omega
  · intro c'
    have hheld := hC.held k c'
    rw [(hC.held k c).2 hk] at hheld
    rcases eq_or_ne c' c with rfl | hc
    · simp
    · simp [hc, ← hheld, Ne.symm hc]
  · intro l hl
    simp [hl]

omit [DecidableEq κ] in
theorem Flags.sched (hF : Flags m h) (hp : m.proc c = some p) (hpos : 0 < m.noff c) :
    Flags { m with
      context := update m.context p (.sched (m.intena c))
      proc := update m.proc c none } h where
  runs c' q hq := by
    rcases eq_or_ne c' c with rfl | hc
    · simp at hq
    · simp only [update_of_ne hc] at hq
      have hne : q ≠ p := by
        rintro rfl
        exact hF.once hq hc hp
      simp only [update_of_ne hne, hF.runs c' q hq]
  stack q b hq hfresh := by
    rcases eq_or_ne q p with rfl | hne
    · simp only [update_self, Context.sched.injEq] at hq
      rw [← hq]
      exact hF.cpu c q hp hfresh hpos
    · simp only [update_of_ne hne] at hq
      exact hF.stack q b hq hfresh
  cpu c' q hq hfresh hpos' := by
    rcases eq_or_ne c' c with rfl | hc
    · simp at hq
    · simp only [update_of_ne hc] at hq
      exact hF.cpu c' q hq hfresh hpos'

omit [DecidableEq κ] in
/-- The scheduler loop goes over to a process; `hflag` is for a process that comes out of `sched`. -/
theorem Flags.enter (hF : Flags m h) {intena : γ → Bool} {fresh : τ → Bool}
    (hp : ∀ c', m.context p ≠ .running c') (hother : ∀ q ≠ p, fresh q = h.fresh q)
    (hintena : ∀ c' ≠ c, intena c' = m.intena c')
    (hflag : fresh p = false → intena c = h.wasOn p) :
    Flags { m with
      context := update m.context p (.running c)
      proc := update m.proc c (some p)
      intena } { h with fresh } where
  runs c' q hq := by
    rcases eq_or_ne c' c with rfl | hc
    · simp only [update_self, Option.some.injEq] at hq
      rw [← hq]
      exact update_self ..
    · simp only [update_of_ne hc] at hq
      have hne : q ≠ p := by
        rintro rfl
        exact hF.proc_ne (hp c') hq
      simp only [update_of_ne hne, hF.runs c' q hq]
  stack q b hq hfresh := by
    rcases eq_or_ne q p with rfl | hne
    · simp at hq
    · simp only [update_of_ne hne] at hq
      exact hF.stack q b hq ((hother q hne).symm.trans hfresh)
  cpu c' q hq hfresh hpos := by
    rcases eq_or_ne c' c with rfl | hc
    · simp only [update_self, Option.some.injEq] at hq
      rw [← hq] at hfresh ⊢
      exact hflag hfresh
    · simp only [update_of_ne hc] at hq
      have hne : q ≠ p := by
        rintro rfl
        exact hF.proc_ne (hp c') hq
      exact (hintena c' hc).trans (hF.cpu c' q hq ((hother q hne).symm.trans hfresh) hpos)

theorem swtch_keeps (hC : Counts m h) (hF : Flags m h) :
    Counts (m.swtch c p) (h.note m c (.swtch p : Op τ κ)) ∧
      Flags (m.swtch c p) (h.note m c (.swtch p : Op τ κ)) := by
  rw [Machine.swtch, History.note]
  cases hp : m.context p with
  | running c' => exact ⟨hC, hF⟩
  | forkret =>
    rw [if_pos rfl]
    refine ⟨⟨hC.depth, hC.off, hC.held⟩, hF.enter (by simp [hp]) ?_ (fun _ _ => rfl) ?_⟩
    · intro q hne
      exact update_of_ne hne ..
    · intro hfresh
      simp at hfresh
  | sched b =>
    rw [if_neg nofun]
    refine ⟨⟨hC.depth, hC.off, hC.held⟩, hF.enter (by simp [hp]) (fun _ _ => rfl) ?_ ?_⟩
    · intro c' hc
      exact update_of_ne hc ..
    · intro hfresh
      rw [update_self]
      exact hF.stack p b hp hfresh

omit [DecidableEq γ] [DecidableEq κ] in
theorem allocproc_keeps (hC : Counts m h) (hF : Flags m h) :
    Counts (m.allocproc p) h ∧ Flags (m.allocproc p) h := by
  rw [Machine.allocproc]
  split
  · exact ⟨hC, hF⟩
  · rename_i hidle
    refine ⟨⟨hC.depth, hC.off, hC.held⟩, ?_, ?_, hF.cpu⟩
    · intro c' q hq
      have hne : q ≠ p := by
        rintro rfl
        exact hidle c' (hF.runs c' q hq)
      simp only [update_of_ne hne, hF.runs c' q hq]
    · intro q b hq
      rcases eq_or_ne q p with rfl | hne
      · simp at hq
      · simp only [update_of_ne hne] at hq
        exact hF.stack q b hq

/-- What a thread does under its discipline does not panic, and keeps the invariant. -/
theorem call_matched (hC : Counts m h) (hF : Flags m h) {op : Op τ κ}
    (hop : Matched lockOf (m, h) (c, op)) : ∃ m', call lockOf m c op = .ok m' ∧
      Counts m' (h.note m c op) ∧ Flags m' (h.note m c op) := by
  cases op with
  | pushOff => exact ⟨_, rfl, hC.pushOff, hF.pushOff hC⟩
  | popOff => exact ⟨_, hC.popOff hop, hC.popped hop, hF.popped hC⟩
  | acquire k =>
    have hfree : (m.pushOff c).lock k ≠ some c := fun hk => hop ((hC.held k c).1 hk)
    exact ⟨_, if_neg hfree, hC.pushOff, hF.pushOff hC⟩
  | testAndSet k => exact ⟨_, rfl, testAndSet_keeps hC hF hop⟩
  | release k =>
    have hlock : m.lock k = some c := (hC.held k c).2 hop
    exact ⟨_, if_neg (not_not.2 hlock), hC.release hop, hF.runs, hF.stack, hF.cpu⟩
  | sched p =>
    obtain ⟨hp, hplain, hheld⟩ : m.proc c = some p ∧ h.plain c = 0 ∧ h.held c = {lockOf p} := hop
    have hlock : m.lock (lockOf p) = some c := by
      rw [hC.held, hheld]
      exact Finset.mem_singleton_self _
    have hone : m.noff c = 1 := by rw [hC.depth c, hplain, hheld, Finset.card_singleton]
    have hoff : m.intr c = false := hC.off c (by omega)
    refine ⟨_, (if_neg (not_not.2 hlock)).trans ((if_neg (not_not.2 hone)).trans (if_neg ?_)),
      ⟨hC.depth, hC.off, hC.held⟩, hF.sched hp (by omega)⟩
    simp [hoff]
  | swtch p => exact ⟨_, rfl, swtch_keeps hC hF⟩
  | allocproc p => exact ⟨_, rfl, allocproc_keeps hC hF⟩
  | setIntr b =>
    have hclear : h.Clear c := hop
    refine ⟨_, rfl, ⟨hC.depth, ?_, hC.held⟩, hF.runs, hF.stack, hF.cpu⟩
    intro c' hpos
    have hne : c' ≠ c := by
      rintro rfl
      exact hpos.ne' (hC.clear_iff.1 hclear)
    simp only [update_of_ne hne]
    exact hC.off c' hpos

theorem run_keeps {intr : γ → Bool} {as : List (γ × Op τ κ)} {s : Machine γ τ κ × History γ τ κ}
    (hrun : Run (step lockOf) (Matched lockOf) (start intr) as s) : Counts s.1 s.2 ∧ Flags s.1 s.2 := by
  refine hrun.invariant (I := fun s => Counts s.1 s.2 ∧ Flags s.1 s.2)
    ⟨⟨fun _ => rfl, ?_, ?_⟩, nofun, nofun, nofun⟩ ?_
  · intro c hpos
    exact absurd hpos (lt_irrefl 0)
  · intro k c
    simp [start]
  · rintro ⟨m, h⟩ ⟨c, op⟩ w ⟨hC, hF⟩ hop hstep
    obtain ⟨m', hcall, hkeeps⟩ := call_matched hC hF hop
    rw [step, hcall] at hstep
    cases hstep
    exact hkeeps

/-- The depth of nesting of each CPU is the number of `push_off`s and of held locks outstanding on
it, and while there is one interrupts are off. No call of the discipline panics. When a process calls
the last `pop_off`, interrupts become what they were at its first, whichever CPU that was on. -/
theorem interrupt_nesting (lockOf : τ → κ) (intr : γ → Bool) (as : List (γ × Op τ κ))
    (s : Machine γ τ κ × History γ τ κ)
    (hrun : Run (step lockOf) (Matched lockOf) (start intr) as s) :
    (∀ c, s.1.noff c = s.2.plain c + (s.2.held c).card ∧ ∀ k, k ∈ s.2.held c ↔ s.1.lock k = some c) ∧
    (∀ c, 0 < s.1.noff c → s.1.intr c = false) ∧
    (∀ c op, Matched lockOf s (c, op) → ∃ m, call lockOf s.1 c op = .ok m) ∧
    ∀ c p, s.1.proc c = some p → s.2.fresh p = false → s.2.plain c = 1 → s.2.held c = ∅ →
      ∃ m, s.1.popOff c = .ok m ∧ m.noff c = 0 ∧ m.intr c = s.2.wasOn p := by
  obtain ⟨hC, hF⟩ := run_keeps hrun
  refine ⟨fun c => ⟨hC.depth c, fun k => (hC.held k c).symm⟩, hC.off, ?_, ?_⟩
  · intro c op hop
    obtain ⟨m, hcall, -⟩ := call_matched hC hF hop
    exact ⟨m, hcall⟩
  · intro c p hp hfresh hplain hheld
    have hone : s.1.noff c = 1 := by rw [hC.depth c, hplain, hheld, Finset.card_empty]
    refine ⟨_, hC.popOff (by omega), ?_, ?_⟩
    · simp [Machine.popped, hone]
    · rw [hC.intr_popped hone, hF.cpu c p hp hfresh (by omega)]

/-- A process sleeps on CPU 0: it releases the lock 1 that it holds while it has its own, 0. It goes
on on CPU 1, where interrupts were off. -/
def sleeps : List (Fin 2 × Op (Fin 1) (Fin 2)) :=
  [(0, .acquire 0), (0, .testAndSet 0), (0, .swtch 0), (0, .release 0), (0, .popOff),
    (0, .acquire 1), (0, .testAndSet 1), (0, .acquire 0), (0, .testAndSet 0), (0, .release 1),
    (0, .popOff), (0, .sched 0), (0, .release 0), (0, .popOff),
    (1, .acquire 0), (1, .testAndSet 0), (1, .swtch 0), (1, .release 0)]

theorem interrupt_nesting_sleeps : ∃ s,
    Run (step (fun _ : Fin 1 => (0 : Fin 2))) (Matched (fun _ => 0))
      (start (fun c : Fin 2 => decide (c = 0))) sleeps s ∧ s.1.intr 1 = false ∧
      ∃ m, s.1.popOff 1 = .ok m ∧ m.noff 1 = 0 ∧ m.intr 1 = true := by
  obtain ⟨s, hrun, hproc, hfresh, hplain, hheld, hwasOn, hoff⟩ : ∃ s,
      Run (step (fun _ : Fin 1 => (0 : Fin 2))) (Matched (fun _ => 0))
        (start (fun c : Fin 2 => decide (c = 0))) sleeps s ∧
      s.1.proc 1 = some 0 ∧ s.2.fresh 0 = false ∧ s.2.plain 1 = 1 ∧ s.2.held 1 = ∅ ∧
        s.2.wasOn 0 = true ∧ s.1.intr 1 = false := exists_run (by decide +kernel)
  obtain ⟨m, hpop, hnoff, hintr⟩ :=
    (interrupt_nesting _ _ _ s hrun).2.2.2 1 0 hproc hfresh hplain hheld
  exact ⟨s, hrun, hoff, m, hpop, hnoff, hintr.trans hwasOn⟩

end Xv6.InterruptNesting
