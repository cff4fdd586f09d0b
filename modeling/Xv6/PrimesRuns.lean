import Xv6.PrimesPipeline

/-!
# Runs of the pipeline of primes

The last stage prints and makes the next one; every step keeps the invariant, and the invariant says
what has been printed.
-/

namespace Xv6.Primes

open Function PrimeSieve TransitionRuns

variable {N : ℕ} {s t : State}

section Facts

variable {C W : ℕ → List ℕ} {i : ℕ}

theorem Inv.extend {pr : Proc} {pipes : List (List ℕ)} {out : List ℕ} (more : List Proc) (h : Inv N C W s)
    (hlast : i + 2 = s.procs.length) (hqueue : ∀ k : ℕ, (pipes[k]?).getD [] = (s.pipes[k]?).getD [])
    (hle : s.pipes.length ≤ pipes.length)
    (hok : StageOk N (s.procs.length + more.length) pipes.length out i pr (C i) (W (i + 1)))
    (hmore : ∀ pr' ∈ more, more = [pr'] ∧
      StageOk N (s.procs.length + 1) pipes.length out (i + 1) pr' (C (i + 1)) (W (i + 2)))
    (hpipes : s.procs.length + more.length ≤ pipes.length + 1) :
    Inv N C W { procs := s.procs.set (i + 1) pr ++ more, pipes := pipes, out := out } where
  queue := by
    intro k
    rw [hqueue]
    exact h.queue k
  sent := h.sent
  main := by
    obtain ⟨pr₀, hpr₀, hmain⟩ := h.main
    refine ⟨pr₀, ?_, hmain⟩
    rw [List.getElem?_append_left (by rw [List.length_set]; omega), List.getElem?_set_ne (Nat.succ_ne_zero i)]
    exact hpr₀
  stage := by
    intro j pr' hpr'
    rw [List.length_append, List.length_set]
    rcases lt_or_ge (j + 1) s.procs.length with hj | hj
    · rw [List.getElem?_append_left (by rw [List.length_set]; exact hj)] at hpr'
      by_cases hji : j = i
      · subst hji
        rw [List.getElem?_set_self hj] at hpr'
        cases hpr'
        exact hok
      · rw [List.getElem?_set_ne (by omega)] at hpr'
        exact (h.stage j pr' hpr').older (by omega) (Nat.le_add_right _ _)
    · rw [List.getElem?_append_right (by rw [List.length_set]; exact hj), List.length_set] at hpr'
      obtain ⟨hone, hnew⟩ := hmore pr' (List.mem_of_getElem? hpr')
      have hlt := (List.getElem?_eq_some_iff.1 hpr').1
      rw [hone, List.length_singleton] at hlt ⊢
      obtain rfl : j = i + 1 := by omega
      exact hnew
  two := by
    rw [List.length_append, List.length_set]
    exact h.two.trans (Nat.le_add_right _ _)
  pipes := by
    rw [List.length_append, List.length_set]
    exact hpipes
  fresh := fun k hk => h.fresh k (hle.trans hk)

theorem Inv.read_prefix (h : Inv N C W s) (i : ℕ) : C i <+: stream N i := by
  have hprefix : C i <+: W i := by
    rw [h.queue i]
    exact List.prefix_append _ _
  exact hprefix.trans (h.sent i)

theorem Inv.print {p0 prime : ℕ} {fds : Finset (ℕ × End)} (h : Inv N C W s)
    (hpr : s.procs[i + 1]? = some ⟨.print p0 prime, fds⟩) :
    Inv N C W { s.goto (i + 1) (.pipe p0 prime) fds with out := s.out ++ [prime] } := by
  obtain ⟨hp0, hfds, hc, hw, hlast⟩ := h.stage i _ hpr
  obtain ⟨rest, hrest⟩ := h.read_prefix i
  rw [hc] at hrest
  have hout : s.out ++ [prime] = heads N (i + 1) := by
    rw [heads_succ, hlast.out, ← hrest]
    rfl
  have hne : ∀ k < i + 1, stream N k ≠ [] := by
    intro k hk
    rcases Nat.lt_succ_iff_lt_or_eq.1 hk with hk | rfl
    · exact hlast.ne_nil k hk
    · rw [← hrest]
      exact List.cons_ne_nil _ _
  have hok : StageOk N s.procs.length s.pipes.length (s.out ++ [prime]) i ⟨.pipe p0 prime, fds⟩ (C i) (W (i + 1)) :=
    ⟨hp0, hfds, hc, hw, hlast.last, hlast.pipes, hout, hne⟩
  have hinv := h.extend [] hlast.last (fun k => rfl) le_rfl hok
    (fun pr' hpr' => absurd hpr' List.not_mem_nil) h.pipes
  rw [List.append_nil] at hinv
  exact hinv

theorem Inv.pipe {p0 prime : ℕ} {fds : Finset (ℕ × End)} (h : Inv N C W s)
    (hpr : s.procs[i + 1]? = some ⟨.pipe p0 prime, fds⟩) :
    Inv N C W { s.goto (i + 1) (.fork p0 prime s.pipes.length)
      (insert (s.pipes.length, .read) (insert (s.pipes.length, .write) fds)) with pipes := s.pipes ++ [[]] } := by
  obtain ⟨hp0, hfds, hc, hw, hlast⟩ := h.stage i _ hpr
  have hpipes := hlast.pipes
  have hqueue : ∀ k : ℕ, ((s.pipes ++ [[]])[k]?).getD [] = (s.pipes[k]?).getD [] := by
    intro k
    rcases lt_trichotomy k s.pipes.length with hk | rfl | hk
    · rw [List.getElem?_append_left hk]
    · rw [List.getElem?_append_right (Nat.le_refl _), Nat.sub_self, List.getElem?_eq_none (Nat.le_refl _)]
      rfl
    · rw [List.getElem?_append_right hk.le, List.getElem?_eq_none hk.le, List.getElem?_eq_none]
      exact Nat.le_sub_of_add_le' hk
  have hlen : (s.pipes ++ [[]]).length = i + 2 := by
    rw [List.length_append, hpipes]
    rfl
  have hok : StageOk N s.procs.length (s.pipes ++ [[]]).length s.out i ⟨.fork p0 prime s.pipes.length,
      insert (s.pipes.length, .read) (insert (s.pipes.length, .write) fds)⟩ (C i) (W (i + 1)) := by
    refine ⟨hp0, hpipes, ?_, ?_, ?_, hc, hw, hlast.last, hlen, hlast.out, hlast.ne_nil⟩
    · exact Finset.mem_insert_of_mem (Finset.mem_insert_of_mem hfds)
    · rw [hpipes]
      exact Finset.mem_insert_self _ _
    · rw [hpipes]
      exact Finset.mem_insert_of_mem (Finset.mem_insert_self _ _)
  have hbound : s.procs.length ≤ (s.pipes ++ [[]]).length + 1 := by
    have := hlast.last
    omega
  have hinv := h.extend [] hlast.last hqueue (by omega) hok (fun pr' hpr' => absurd hpr' List.not_mem_nil) hbound
  rw [List.append_nil] at hinv
  exact hinv

theorem Inv.fork {p0 prime p : ℕ} {fds : Finset (ℕ × End)} (h : Inv N C W s)
    (hpr : s.procs[i + 1]? = some ⟨.fork p0 prime p, fds⟩) :
    Inv N C W { s.goto (i + 1) (.closeRead p0 prime p s.procs.length) fds with
      procs := (s.goto (i + 1) (.closeRead p0 prime p s.procs.length) fds).procs ++ [⟨.child p, fds⟩] } := by
  obtain ⟨hp0, hp, hfds, hread, hwrite, hc, hw, hlast⟩ := h.stage i _ hpr
  have hlen := hlast.last
  have hpipes := hlast.pipes
  -- nothing has been sent to the child
  have hempty : W (i + 1) = C (i + 1) ++ (s.pipes[i + 1]?).getD [] := h.queue (i + 1)
  rw [hw] at hempty
  have hC := (List.append_eq_nil_iff.1 hempty.symm).1
  refine h.extend [⟨.child p, fds⟩] hlen (fun _ => rfl) le_rfl ?_ ?_ ?_
  · exact ⟨hp0, hp, hfds, hwrite, by rw [List.length_singleton]; omega, [], hc, hw⟩
  · intro pr' hpr'
    rw [List.mem_singleton.1 hpr']
    refine ⟨rfl, hp, hread, hC, ?_, by omega, hpipes, hlast.out, hlast.ne_nil⟩
    rw [h.queue (i + 2), h.fresh (i + 2) (by omega), List.getElem?_eq_none (by omega)]
    rfl
  · change s.procs.length + 1 ≤ s.pipes.length + 1
    omega

theorem filter_concat {prime n : ℕ} {cs w : List ℕ} (hw : w = cs.filter (fun n => n % prime ≠ 0))
    (hn : ¬n % prime ≠ 0) : w = (cs ++ [n]).filter (fun n => n % prime ≠ 0) := by
  rw [List.filter_append, ← hw, List.filter_cons_of_neg (by simpa using hn), List.filter_nil, List.append_nil]

theorem Inv.stage_step (h : Inv N C W s) (ht : step N s (i + 1) = some t) : ∃ C' W', Inv N C' W' t := by
  cases hpr : s.procs[i + 1]? with
  | none =>
    simp only [step, hpr] at ht
    cases ht
  | some pr =>
    obtain ⟨pc, fds⟩ := pr
    have hi := (List.getElem?_eq_some_iff.1 hpr).1
    have hok := h.stage i _ hpr
    cases pc with
    | mainClose | feed | mainDone => exact hok.elim
    | child p =>
      simp only [step, hpr, Option.some.injEq] at ht
      obtain ⟨rfl, hfds, hc, hw, hlast⟩ := hok
      subst ht
      exact ⟨C, W, h.goto hi ⟨rfl, Finset.mem_erase.2 ⟨(by rintro ⟨⟩), hfds⟩, hc, hw, hlast⟩⟩
    | first p0 =>
      simp only [step, hpr] at ht
      obtain ⟨rfl, hfds, hc, hw, hlast⟩ := hok
      split at ht
      · cases ht
      · rename_i pipes hread
        cases ht
        have heof := h.eof hi hread
        refine ⟨C, W, h.goto hi ⟨hc, ⟨heof, ?_⟩, hlast⟩⟩
        rw [hw, stream, ← heof, hc]
        rfl
      · rename_i prime pipes hread
        cases ht
        refine ⟨_, W, h.read hi hread ⟨rfl, hfds, ?_, hw, hlast⟩⟩
        rw [hc]
        rfl
    | giveUp p0 =>
      simp only [step, hpr, Option.some.injEq] at ht
      subst ht
      exact ⟨C, W, h.goto hi ⟨hok.2.1, fun _ => ⟨hok.1, hok.2.2⟩⟩⟩
    | print p0 prime =>
      simp only [step, hpr, Option.some.injEq] at ht
      subst ht
      exact ⟨C, W, h.print hpr⟩
    | pipe p0 prime =>
      simp only [step, hpr, Option.some.injEq] at ht
      subst ht
      exact ⟨C, W, h.pipe hpr⟩
    | fork p0 prime p =>
      simp only [step, hpr, Option.some.injEq] at ht
      subst ht
      exact ⟨C, W, h.fork hpr⟩
    | closeRead p0 prime p child =>
      simp only [step, hpr, Option.some.injEq] at ht
      obtain ⟨rfl, rfl, hfds, hwrite, hlt, hcs⟩ := hok
      subst ht
      refine ⟨C, W, h.goto hi
        ⟨rfl, rfl, Finset.mem_erase.2 ⟨?_, hfds⟩, Finset.mem_erase.2 ⟨(by rintro ⟨⟩), hwrite⟩, hlt, hcs⟩⟩
      intro heq
      exact Nat.succ_ne_self p0 (Prod.mk.inj heq).1.symm
    | loop p0 prime p child =>
      simp only [step, hpr] at ht
      obtain ⟨rfl, rfl, hfds, hwrite, hlt, cs, hc, hw⟩ := hok
      split at ht
      · cases ht
      · rename_i pipes hread
        cases ht
        have heof := h.eof hi hread
        refine ⟨C, W, h.goto hi ⟨⟨heof, ?_⟩, hlt⟩⟩
        rw [hw, stream, ← heof, hc]
        rfl
      · rename_i n pipes hread
        cases ht
        refine ⟨_, W, h.read hi hread ?_⟩
        rw [hc, List.cons_append]
        split
        · rename_i hn
          exact ⟨rfl, rfl, hfds, hwrite, hlt, hn, cs, rfl, hw⟩
        · rename_i hn
          exact ⟨rfl, rfl, hfds, hwrite, hlt, cs ++ [n], rfl, filter_concat hw hn⟩
    | write p0 prime p child n =>
      simp only [step, hpr, Option.some.injEq] at ht
      obtain ⟨rfl, rfl, hfds, hwrite, hlt, hn, cs, hc, hw⟩ := hok
      subst ht
      have hsent : W (p0 + 1) ++ [n] = (cs ++ [n]).filter (fun n => n % prime ≠ 0) := by
        rw [List.filter_append, ← hw, List.filter_cons_of_pos (by simpa using hn), List.filter_nil]
      refine ⟨C, _, h.write hlt ?_ ⟨rfl, rfl, hfds, hwrite, hlt, cs ++ [n], hc, hsent⟩⟩
      rw [hsent]
      exact prefix_sift (hc ▸ h.read_prefix p0)
    | closeWrite p0 p child | closeIn p0 child | exit =>
      simp only [step, hpr, Option.some.injEq] at ht
      subst ht
      exact ⟨C, W, h.goto hi hok⟩
    | wait child =>
      simp only [step, hpr, Option.ite_none_right_eq_some, Option.some.injEq] at ht
      obtain ⟨-, rfl⟩ := ht
      exact ⟨C, W, h.goto hi ⟨hok.1, fun heq => absurd hok.2 (by omega)⟩⟩
    | exited =>
      simp only [step, hpr] at ht
      cases ht

theorem Inv.updateMain {W' : ℕ → List ℕ} {pr : Proc} {pipes : List (List ℕ)} (h : Inv N C W s)
    (hW : ∀ k ≠ 0, W' k = W k) (hqueue : ∀ k, W' k = C k ++ (pipes[k]?).getD [])
    (hsent : ∀ k, W' k <+: stream N k) (hlen : pipes.length = s.pipes.length) (hok : MainOk N pr (W' 0)) :
    Inv N C W' { s with procs := s.procs.set 0 pr, pipes := pipes } where
  queue := hqueue
  sent := hsent
  main := by
    have := h.two
    exact ⟨pr, List.getElem?_set_self (by omega), hok⟩
  stage := by
    intro j pr' hpr'
    rw [List.getElem?_set_ne (Nat.succ_ne_zero j).symm] at hpr'
    rw [List.length_set, hlen, hW (j + 1) (Nat.succ_ne_zero j)]
    exact h.stage j pr' hpr'
  two := by
    rw [List.length_set]
    exact h.two
  pipes := by
    rw [List.length_set, hlen]
    exact h.pipes
  fresh := by
    intro k hk
    change pipes.length ≤ k at hk
    exact h.fresh k (by omega)

theorem Inv.gotoMain {pc : Pc} {fds : Finset (ℕ × End)} (h : Inv N C W s) (hok : MainOk N ⟨pc, fds⟩ (W 0)) :
    Inv N C W (s.goto 0 pc fds) :=
  h.updateMain (fun _ _ => rfl) h.queue h.sent rfl hok

theorem Inv.feed {k child : ℕ} {fds : Finset (ℕ × End)} (h : Inv N C W s) (hfds : (0, .write) ∈ fds)
    (hk : 2 ≤ k) (hN : k ≤ N) (hw : W 0 = List.range' 2 (k - 2)) :
    Inv N C (Function.update W 0 (W 0 ++ [k]))
      { s.goto 0 (.feed (k + 1) 0 child) fds with pipes := s.write 0 k } := by
  have hnext : W 0 ++ [k] = List.range' 2 (k + 1 - 2) := by
    obtain ⟨j, rfl⟩ := Nat.exists_eq_add_of_le' hk
    rw [hw, show j + 2 + 1 - 2 = j + 2 - 2 + 1 by omega, List.range'_concat]
    simp only [Nat.add_sub_cancel, Nat.one_mul, Nat.add_comm]
  have hprefix : W 0 ++ [k] <+: stream N 0 := by
    rw [hnext, stream]
    refine ⟨List.range' (2 + (k + 1 - 2)) (N - k), ?_⟩
    rw [List.range'_append_1, show k + 1 - 2 + (N - k) = N - 1 by omega]
  obtain ⟨hlen, hqueue⟩ := h.written h.two hprefix
  refine h.updateMain (fun j hj => Function.update_of_ne hj _ _) hqueue ?_ hlen ?_
  · intro j
    by_cases hj : j = 0
    · rw [hj, Function.update_self]
      exact hprefix
    · rw [Function.update_of_ne hj]
      exact h.sent j
  · rw [Function.update_self]
    exact ⟨rfl, hfds, by omega, by omega, hnext⟩

theorem Inv.main_step (hN : 2 ≤ N) (h : Inv N C W s) (ht : step N s 0 = some t) : ∃ C' W', Inv N C' W' t := by
  obtain ⟨⟨pc, fds⟩, hpr, hok⟩ := h.main
  cases pc with
  | mainClose p child =>
    simp only [step, hpr, Option.some.injEq] at ht
    obtain ⟨rfl, hfds, hw⟩ := hok
    subst ht
    exact ⟨C, W, h.gotoMain ⟨rfl, Finset.mem_erase.2 ⟨nofun, hfds⟩, le_rfl, by omega, hw⟩⟩
  | feed k p child =>
    obtain ⟨rfl, hfds, hk, hle, hw⟩ := hok
    simp only [step, hpr] at ht
    split at ht
    · rename_i hkN
      cases ht
      exact ⟨C, _, h.feed hfds hk hkN hw⟩
    · rename_i hkN
      cases ht
      obtain rfl : k = N + 1 := by omega
      exact ⟨C, W, h.gotoMain hw⟩
  | mainDone p child | exit =>
    simp only [step, hpr, Option.some.injEq] at ht
    subst ht
    exact ⟨C, W, h.gotoMain hok⟩
  | wait child =>
    simp only [step, hpr, Option.ite_none_right_eq_some, Option.some.injEq] at ht
    obtain ⟨-, rfl⟩ := ht
    exact ⟨C, W, h.gotoMain hok⟩
  | exited =>
    simp only [step, hpr] at ht
    cases ht
  | _ => exact hok.elim

end Facts

theorem inv_start (N : ℕ) : Inv N (fun _ => []) (fun _ => []) start where
  queue := by
    intro k
    cases k <;> rfl
  sent := fun _ => List.nil_prefix
  main := ⟨_, rfl, rfl, by decide, rfl⟩
  stage := by
    intro i pr hpr
    cases i with
    | zero =>
      cases hpr
      exact ⟨rfl, by decide, rfl, rfl, rfl, rfl, rfl, fun k hk => absurd hk (Nat.not_lt_zero k)⟩
    | succ i => cases hpr
  two := le_rfl
  pipes := le_rfl
  fresh := fun _ _ => rfl

theorem run_inv {is : List ℕ} (hN : 2 ≤ N) (h : Run (step N) unguarded start is s) : ∃ C W, Inv N C W s := by
  refine h.invariant (I := fun v => ∃ C W, Inv N C W v) ⟨_, _, inv_start N⟩ ?_
  rintro v i w ⟨C, W, hv⟩ - hw
  cases i with
  | zero => exact hv.main_step hN hw
  | succ i => exact hv.stage_step hw

/-- The lines that have been printed are the first primes. -/
theorem Inv.out_prefix {C W : ℕ → List ℕ} (h : Inv N C W s) : s.out <+: primes N := by
  obtain ⟨i, hi⟩ : ∃ i, s.procs.length = i + 2 := Nat.exists_eq_add_of_le' h.two
  obtain ⟨⟨pc, fds⟩, hpr⟩ : ∃ pr, s.procs[i + 1]? = some pr := ⟨_, List.getElem?_eq_getElem (by omega)⟩
  have hok := h.stage i _ hpr
  have hprefix : ∀ {k j}, Last N i s.procs.length s.pipes.length s.out k j → s.out <+: primes N := by
    intro k j hlast
    rw [hlast.out]
    exact heads_prefix hlast.ne_nil
  cases pc with
  | child | first | print | pipe => exact hprefix hok.2.2.2.2
  | giveUp => exact hprefix hok.2.2
  | fork => exact hprefix hok.2.2.2.2.2.2.2
  | closeRead | loop | write => exact absurd hok.2.2.2.2.1 (by omega)
  | closeWrite | closeIn | wait => exact absurd hok.2 (by omega)
  | exit | exited => exact hprefix (hok.2 hi.symm).2
  | mainClose | feed | mainDone => exact hok.elim

theorem Inv.exit_empty {C W : ℕ → List ℕ} {i : ℕ} {pr : Proc} (h : Inv N C W s) (hpr : s.procs[i + 1]? = some pr)
    (hpc : pr.pc = .exit ∨ pr.pc = .exited) : s.pipes[i]? = some [] := by
  obtain ⟨pc, fds⟩ := pr
  have hok := h.stage i _ hpr
  have hpipes := h.pipes
  have hi := (List.getElem?_eq_some_iff.1 hpr).1
  have hdone : C i = stream N i := by
    rcases hpc with rfl | rfl
    · exact hok.1.1
    · exact hok.1.1
  have hq := (h.complete hdone).2
  obtain ⟨q, hsome⟩ : ∃ q, s.pipes[i]? = some q := ⟨_, List.getElem?_eq_getElem (by omega)⟩
  rw [hsome] at hq ⊢
  exact congrArg some hq

theorem Inv.exited_out {C W : ℕ → List ℕ} (h : Inv N C W s)
    (hall : ∀ i pr, s.procs[i + 1]? = some pr → pr.pc = .exited) : s.out = primes N := by
  obtain ⟨i, hi⟩ : ∃ i, s.procs.length = i + 2 := Nat.exists_eq_add_of_le' h.two
  obtain ⟨⟨pc, fds⟩, hpr⟩ : ∃ pr, s.procs[i + 1]? = some pr := ⟨_, List.getElem?_eq_getElem (by omega)⟩
  have hok := h.stage i _ hpr
  cases hall i _ hpr
  obtain ⟨⟨hc, -⟩, hlast⟩ := hok
  obtain ⟨hnil, hlast⟩ := hlast hi.symm
  rw [hlast.out]
  exact heads_eq_primes hlast.ne_nil (hc ▸ hnil)

/-- The pipeline prints the primes up to `N`, however its processes are scheduled. -/
theorem primes_sieved {is : List ℕ} (hN : 2 ≤ N) (run : Run (step N) unguarded start is s) :
    s.out <+: (List.range (N + 1)).filter Nat.Prime ∧
    (∀ i pr, s.procs[i + 1]? = some pr → pr.pc = .exit ∨ pr.pc = .exited → s.pipes[i]? = some []) ∧
    ((∀ i pr, s.procs[i + 1]? = some pr → pr.pc = .exited) → s.out = (List.range (N + 1)).filter Nat.Prime) := by
  obtain ⟨C, W, h⟩ := run_inv hN run
  exact ⟨h.out_prefix, fun i pr hpr hpc => h.exit_empty hpr hpc, h.exited_out⟩

theorem primes_sieved_four : ∃ s is, Run (step 4) unguarded start is s ∧
    (∀ pr ∈ s.procs, pr.pc = .exited) ∧ s.out = (List.range 5).filter Nat.Prime := by
  obtain ⟨s, hrun, hall⟩ : ∃ s, Run (step 4) unguarded start
      [0, 0, 0, 0, 0, 0, 1, 1, 1, 1, 1, 1, 1, 1, 1, 1, 1, 1, 2, 2, 2, 2, 2, 2, 2, 2, 2, 3, 3, 3, 3, 2, 2, 1,
       1, 0, 0]
      s ∧ ∀ pr ∈ s.procs, pr.pc = .exited :=
    exists_run (by decide +kernel)
  refine ⟨s, _, hrun, hall, (primes_sieved (by decide) hrun).2.2 ?_⟩
  exact fun i pr hpr => hall pr (List.mem_of_getElem? hpr)

end Xv6.Primes
