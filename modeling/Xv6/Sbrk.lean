import Xv6.AddressSpaceRuns
import Xv6.ProcessContents

/-!
# `sbrk`

`sys_sbrk` of `kernel/sysproc.c`. It grows or shrinks the memory of the process by a number of
bytes. A process that gives back more than it has keeps everything, and is told its old size.
-/

namespace Xv6.VirtualMemory

open ByteBlocks Function PanicPrograms RadixTables TransitionRuns

variable {n : ℕ} {F : Type} {s t : State n F} {p : Fin n} {m m' : Multiset F} {pt pt' : PageTable F}
  {k : ℤ} {sz : ℕ}

variable [DecidableEq F]

def sysSbrk (p : Fin n) (k : ℤ) : S n F ℤ := do
  let s ← get
  let addr := (s.proc p).sz
  let r ← growproc p k
  if r < 0 then pure (-1) else pure addr

-- a sum over all page numbers is not to be unfolded
attribute [local irreducible] own

/-- What `sbrk` promises. -/
structure Contract (p : Fin n) (k : ℤ) (s : State n F) (r : ℤ) (t : State n F) : Prop where
  returned : r ≠ -1 → r = (s.proc p).sz ∧ (t.proc p).sz = (s.proc p).sz + k ∧
    (∀ v, v * pgSize < min (s.proc p).sz (t.proc p).sz → pageAt t p v = pageAt s p v) ∧
    ∀ v < trapframePage, pageAt s p v = none → ∀ perm b, pageAt t p v = some (perm, b) → b = fill 0
  failed : r = -1 → (t.proc p).sz = (s.proc p).sz ∧ ∀ v < trapframePage, pageAt t p v = pageAt s p v

/-- What it does. -/
structure Sbrk (p : Fin n) (k : ℤ) (s : State n F) (r : ℤ) (t : State n F) : Prop where
  returned : r ≠ -1 → r = (s.proc p).sz ∧
    ((t.proc p).sz = (s.proc p).sz + k ↔ 0 ≤ (s.proc p).sz + k) ∧
    (∀ v, v * pgSize < min (s.proc p).sz (t.proc p).sz → pageAt t p v = pageAt s p v) ∧
    ∀ v < trapframePage, pageAt s p v = none → ∀ perm b, pageAt t p v = some (perm, b) → b = fill 0
  failed : r = -1 → (t.proc p).sz = (s.proc p).sz ∧ ∀ v < trapframePage, pageAt t p v = pageAt s p v
  grew : r = -1 → 0 < k

omit [DecidableEq F] in
/-- Only a call that asks for memory fails, so that the size decides. -/
theorem Sbrk.contract_iff {r : ℤ} (h : Sbrk p k s r t) : Contract p k s r t ↔ 0 ≤ (s.proc p).sz + k := by
  constructor
  · intro hc
    by_cases hr : r = -1
    · have hpos := h.grew hr
      omega
    · exact (h.returned hr).2.1.1 (hc.returned hr).2.1
  · refine fun hle => ⟨fun hr => ?_, h.failed⟩
    obtain ⟨hold, hsz, hrest⟩ := h.returned hr
    exact ⟨hold, hsz.2 hle, hrest⟩

omit [DecidableEq F] in
theorem page_lt_pages {v : ℕ} (h : v * pgSize < sz) : v < pages sz := by
  simp only [pages, pgSize] at h ⊢
  omega

omit [DecidableEq F] in
theorem sbrk_grown {u : Mem F} {sz1 : ℕ} {w x : Bool} (hpt : (s.proc p).pagetable = some pt)
    (hnodup : (own pt + (s.mem.freelist : Multiset F)).Nodup) (husers : Users pt (pages (s.proc p).sz))
    (hu : Resized (userPerm w x) pt (s.proc p).sz ((s.proc p).sz + k.toNat) m' (pt', sz1) u)
    (hcontents : Spared ∅ s.mem u)
    (hzero : sz1 ≠ 0 → Holds (fun _ => fill 0) (pages (s.proc p).sz) (pages sz1) pt' u)
    (hk : 0 < k) (hpt' : (t.proc p).pagetable = some pt') (hmem : t.mem = u) :
    (sz1 = 0 → (t.proc p).sz = (s.proc p).sz → Sbrk p k s (-1) t) ∧
    (sz1 ≠ 0 → (t.proc p).sz = sz1 → Sbrk p k s (s.proc p).sz t) := by
  have hlast := trapframePage_lt
  have hmax := maxPage_le
  have hspared : ∀ v < trapframePage, ∀ f perm,
      leafAt pt v = some ⟨.frame f, perm⟩ → t.mem.content f = s.mem.content f := by
    intro v hv f perm hf
    rw [hmem]
    exact hcontents.content f (notMem_freelist hnodup hv hf) (Set.notMem_empty f)
  constructor
  · intro hfail hsz
    refine ⟨fun hc => absurd rfl hc, fun _ => ⟨hsz, fun v hv => ?_⟩, fun _ => hk⟩
    exact pageAt_same hpt hpt' (hu.undone hfail v (by omega)) (hspared v hv)
  · intro hne hsz
    obtain ⟨hsz1, htop, hg⟩ := hu.done hne
    dsimp only at hsz1 htop hg
    refine ⟨fun _ => ⟨rfl, ?_, ?_, ?_⟩, fun hc => by omega, fun hc => by omega⟩
    · rw [hsz, hsz1]
      omega
    · intro v hv
      have hlow : v < pages (s.proc p).sz := page_lt_pages (by omega)
      have hle := husers.le
      exact pageAt_same hpt hpt' (hg.same v (by omega) (Or.inl hlow)) (hspared v (by omega))
    · intro v hv hnone perm b hb
      rw [pageAt_eq hpt, pageIn, Option.map_eq_none_iff] at hnone
      rw [pageAt_eq hpt', pageIn] at hb
      by_cases hnew : pages (s.proc p).sz ≤ v ∧ v < pages sz1
      · obtain ⟨f, perm', hf, -⟩ := hg.new v hnew.1 hnew.2
        have hfill := hzero hne v hnew.1 hnew.2 f perm' hf
        rw [hf] at hb
        cases hb
        rw [Mem.read, hmem, hfill]
      · rw [hg.same v (by omega) (by omega), hnone] at hb
        cases hb

omit [DecidableEq F] in
theorem sbrk_shrunk {u : Mem F} {sz1 newsz : ℕ} (hpt : (s.proc p).pagetable = some pt)
    (husers : Users pt (pages (s.proc p).sz)) (hsz1 : sz1 = min (s.proc p).sz newsz)
    (hmin : (sz1 : ℤ) = (s.proc p).sz + k ↔ 0 ≤ ((s.proc p).sz : ℤ) + k)
    (hleaf : ∀ w < numPages, leafAt pt' w =
      if pages sz1 ≤ w ∧ w < pages (s.proc p).sz then none else leafAt pt w)
    (hcontents : ∀ v < pages newsz, ∀ f perm, leafAt pt v = some ⟨.frame f, perm⟩ → v < trapframePage →
      u.content f = s.mem.content f)
    (hpt' : (t.proc p).pagetable = some pt') (hsz : (t.proc p).sz = sz1) (hmem : t.mem = u) :
    Sbrk p k s (s.proc p).sz t := by
  have htop := husers.le
  have hlast := trapframePage_lt
  have hmax := maxPage_le
  refine ⟨fun _ => ⟨rfl, ?_, ?_, ?_⟩, fun hc => by omega, fun hc => by omega⟩
  · rw [hsz]
    exact hmin
  · intro v hv
    have hlow : v < pages sz1 := page_lt_pages (by omega)
    have hold : v < pages (s.proc p).sz := page_lt_pages (by omega)
    have hnew : v < pages newsz := page_lt_pages (by omega)
    refine pageAt_same hpt hpt' ?_ ?_
    · rw [hleaf v (by omega), if_neg (by omega)]
    · intro f perm hf
      rw [hmem]
      exact hcontents v hnew f perm hf (by omega)
  · intro v hv hnone perm b hb
    rw [pageAt_eq hpt, pageIn, Option.map_eq_none_iff] at hnone
    rw [pageAt_eq hpt', pageIn, hleaf v (by omega), hnone, ite_self] at hb
    cases hb

section Bound

variable (hm : m.card ≤ maxFrames)

include hm

omit [DecidableEq F] in
theorem Sound.sz_le (h : Sound m none s) (hpt : (s.proc p).pagetable = some pt) : (s.proc p).sz ≤ 2 ^ 27 := by
  obtain ⟨tf, htf, hshape, -⟩ := h.table hm hpt
  exact (hshape.sized (h.fits hm hpt)).trans (by decide)

variable (hd : m.Nodup) (h : Sound m none s) (hlive : (s.proc p).state ≠ .unused)

include hd h hlive

theorem grow_ends (hk : 0 < k) (hk' : k < 2 ^ 31) :
    Ends (sysSbrk p k) s (fun r t => Sbrk p k s r t) (fun _ => False) := by
  obtain ⟨pt, hpt⟩ := h.live p nofun hlive
  obtain ⟨tf, htf, hshape, hsz⟩ := h.table hm hpt
  have hle := h.sz_le hm hpt
  have hnodup := h.nodup hd hpt
  have hnew : ((((s.proc p).sz : ℤ) + k) % 2 ^ 64).toNat = (s.proc p).sz + k.toNat := by
    rw [Int.emod_eq_of_lt (by omega) (by omega)]
    omega
  simp only [sysSbrk, growproc, ends_bind, ends_get, hpt, if_pos hk, onMem, ends_zoom, ends_modify,
    State.setProc, hnew]
  refine ((uvmalloc_ends hshape.users hsz (h.fits hm hpt)).also
    (uvmalloc_contents hshape.users hsz (h.fits hm hpt) hnodup)).imp ?_
  rintro ⟨pt', sz1⟩ u ⟨hu, hcontents, hzero⟩
  refine ends_ite (fun hfail => ?_) (fun hne => ?_)
  · refine (sbrk_grown hpt hnodup hshape.users hu hcontents hzero hk ?_ rfl).1 hfail ?_
    · simp only [update_self]
    · simp only [update_self]
  · simp only [ends_bind, ends_modify, ends_pure, update_self, update_idem]
    refine (sbrk_grown hpt hnodup hshape.users hu hcontents hzero hk ?_ rfl).2 hne ?_
    · simp only [update_self]
    · simp only [update_self]

theorem shrink_ends (hk : k < 0) (hk' : -2 ^ 31 ≤ k) :
    Ends (sysSbrk p k) s (fun r t => Sbrk p k s r t) (fun _ => False) := by
  obtain ⟨pt, hpt⟩ := h.live p nofun hlive
  obtain ⟨tf, htf, hshape, hsz⟩ := h.table hm hpt
  have hle := h.sz_le hm hpt
  have hnodup := h.nodup hd hpt
  -- a sum below 0 wraps around to a size that is larger than the old one
  generalize hnew : ((((s.proc p).sz : ℤ) + k) % 2 ^ 64).toNat = newsz
  have hmin : ((min (s.proc p).sz newsz : ℕ) : ℤ) = (s.proc p).sz + k ↔ 0 ≤ ((s.proc p).sz : ℤ) + k := by
    omega
  simp only [sysSbrk, growproc, ends_bind, ends_get, hpt, if_neg (not_lt.2 hk.le), if_pos hk, onMem, ends_zoom,
    ends_modify, State.setProc, hnew]
  refine ((uvmdealloc_ends hshape.users hsz s.mem).also
    (uvmdealloc_contents hshape.users hsz hnodup)).imp ?_
  rintro ⟨pt', sz1⟩ u ⟨⟨-, hsz1, hleaf⟩, hcontents⟩
  simp only [ends_pure, lt_irrefl, if_false]
  dsimp only at hsz1
  rw [← hsz1] at hmin
  refine sbrk_shrunk hpt hshape.users hsz1 hmin hleaf hcontents ?_ ?_ rfl
  · simp only [update_self]
  · simp only [update_self]

theorem sysSbrk_ends (hk : -2 ^ 31 ≤ k ∧ k < 2 ^ 31) :
    Ends (sysSbrk p k) s (fun r t => Sbrk p k s r t) (fun _ => False) := by
  rcases lt_trichotomy k 0 with hneg | rfl | hpos
  · exact shrink_ends hm hd h hlive hneg hk.1
  · obtain ⟨pt, hpt⟩ := h.live p nofun hlive
    simp only [sysSbrk, growproc, ends_bind, ends_get, hpt, lt_irrefl, if_false, ends_pure]
    refine ⟨fun _ => ⟨rfl, by omega, fun _ _ => rfl, fun v _ hnone perm b hb => ?_⟩, fun hc => by omega,
      fun hc => by omega⟩
    rw [hnone] at hb
    cases hb
  · exact grow_ends hm hd h hlive hpos hk.2

end Bound

/-- The state when processes have stored `bytes` in memory; `luck` is for the calls of `kalloc`. -/
def State.stored (s : State n F) (luck : List Bool) (bytes : F → Block) : State n F :=
  { s with mem := { s.mem with luck := luck, content := bytes } }

/-- `sbrk` keeps its promise exactly if the process has as much as it gives back. -/
theorem sbrk_contract_iff {freelist : List F} {content : F → Block} {as : List (Action n F)}
    (hd : freelist.Nodup) (hm : freelist.length ≤ maxFrames)
    (run : Run step unguarded (start freelist content) as s)
    (hlive : (s.proc p).state = .used) (hk : -2 ^ 31 ≤ k ∧ k < 2 ^ 31) (luck : List Bool) (bytes : F → Block) :
    ∃ r t, sysSbrk p k (s.stored luck bytes) = .ok (r, t) ∧ Sbrk p k (s.stored luck bytes) r t ∧
      (Contract p k (s.stored luck bytes) r t ↔ 0 ≤ (s.proc p).sz + k) := by
  have hsound : Sound (freelist : Multiset F) none (s.stored luck bytes) := (run_sound hm run).setMem rfl
  have hused : ((s.stored luck bytes).proc p).state ≠ .unused := by
    change (s.proc p).state ≠ .unused
    rw [hlive]
    nofun
  have hcard : (freelist : Multiset F).card ≤ maxFrames := hm
  have hnodup : (freelist : Multiset F).Nodup := hd
  obtain ⟨r, t, hrun, hsbrk⟩ := (sysSbrk_ends hcard hnodup hsound hused hk).exists_ok
  exact ⟨r, t, hrun, hsbrk, hsbrk.contract_iff⟩

/-- The first process has filled its page, and asks for 5000 bytes. -/
theorem sbrk_contract_first : ∃ s : State 1 (Fin 16),
    Run step unguarded (start (List.finRange 16) (fun _ => zeros)) [.userinit] s ∧ (s.proc 0).sz = 4096 ∧
    ∃ t, sysSbrk 0 5000 (s.stored [] (fun _ => fill 7)) = .ok (4096, t) ∧ (t.proc 0).sz = 9096 ∧
      Contract 0 5000 (s.stored [] (fun _ => fill 7)) 4096 t := by
  obtain ⟨s, run, hused, hsz, hret⟩ : ∃ s : State 1 (Fin 16),
      Run step unguarded (start (List.finRange 16) (fun _ => zeros)) [.userinit] s ∧
      (s.proc 0).state = .used ∧ (s.proc 0).sz = 4096 ∧
      returns (sysSbrk 0 5000) (s.stored [] (fun _ => fill 7)) (fun r t => r = 4096 ∧ (t.proc 0).sz = 9096) =
        true := exists_run (by decide +kernel)
  obtain ⟨r, t, hok, hr⟩ := exists_of_returns hret
  obtain ⟨rfl, hsz'⟩ := of_decide_eq_true hr
  obtain ⟨r, u, hok', -, hiff⟩ := sbrk_contract_iff (List.nodup_finRange 16) (by decide) run hused
    (by decide : -2 ^ 31 ≤ (5000 : ℤ) ∧ (5000 : ℤ) < 2 ^ 31) [] (fun _ => fill 7)
  obtain ⟨rfl, rfl⟩ := Prod.mk.inj (Except.ok.inj (hok.symm.trans hok'))
  exact ⟨s, run, hsz, t, hok, hsz', hiff.2 (by omega)⟩

/-- It gives back 5000 bytes of 4096: the call succeeds and the size stays. -/
theorem sbrk_below_zero : ∃ s t : State 1 (Fin 16),
    Run step unguarded (start (List.finRange 16) (fun _ => zeros)) [.userinit] s ∧
    sysSbrk 0 (-5000) s = .ok (4096, t) ∧ (s.proc 0).sz = 4096 ∧ (t.proc 0).sz = 4096 := by
  obtain ⟨s, run, hsz, hsbrk⟩ : ∃ s : State 1 (Fin 16),
      Run step unguarded (start (List.finRange 16) (fun _ => zeros)) [.userinit] s ∧ (s.proc 0).sz = 4096 ∧
      returns (sysSbrk 0 (-5000)) s (fun r t => r = 4096 ∧ (t.proc 0).sz = 4096) = true :=
    exists_run (by decide +kernel)
  obtain ⟨r, t, ht, hr⟩ := exists_of_returns hsbrk
  obtain ⟨rfl, hsz'⟩ := of_decide_eq_true hr
  exact ⟨s, t, run, ht, hsz, hsz'⟩

end Xv6.VirtualMemory
