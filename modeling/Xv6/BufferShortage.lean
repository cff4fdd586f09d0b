import Xv6.BufferOrder

/-!
# Running out of buffers

`bget` panics when it needs a buffer and all of them are in use. Blocks of the log are pinned,
and processes sleep with a buffer in hand while the disk is at work. A process that holds one
buffer and asks for another, as `bmap` does around `balloc`, is two callers.
-/

namespace Xv6.BufferCache

open Function LinkedRings TransitionRuns

section Callers

variable {κ : Type} [Fintype κ] {s t : State κ} {dev blockno : BitVec 32}

/-- The callers that have a buffer. -/
def State.holders (s : State κ) : ℕ := (Finset.univ.filter (fun k => s.phase k ≠ .idle)).card

theorem bget_eq_none (h : Invariant s) : bget s.cache dev blockno = none ↔
    (∀ b, s.cache.cached dev blockno b = false) ∧ ∀ b, s.cache.refcnt b ≠ 0 := by
  obtain ⟨l, hl⟩ := h.recent
  have hlen := hl.length_eq.le
  rw [bget, Bcache.lookup, Bcache.unused, hl.ring.scan_next hlen, hl.ring.scan_prev hlen]
  constructor
  · intro hnone
    split at hnone
    · cases hnone
    · rename_i hmiss
      rw [Option.map_eq_none_iff, List.find?_eq_none] at hnone
      refine ⟨fun b => ?_, fun b => ?_⟩
      · simpa using List.find?_eq_none.1 hmiss b (hl.complete b)
      · simpa using hnone b (List.mem_reverse.2 (hl.complete b))
  · rintro ⟨hmiss, hused⟩
    have hlookup : l.find? (s.cache.cached dev blockno) = none :=
      List.find?_eq_none.2 (fun b _ => by simp [hmiss b])
    rw [hlookup]
    refine Option.map_eq_none_iff.2 (List.find?_eq_none.2 (fun b _ => ?_))
    simpa using hused b

theorem sum_refcnt (h : Invariant s) : ∑ b, s.cache.refcnt b = s.holders + ∑ b, s.pins b := by
  have hone : ∀ k, ∑ b, (s.phase k).on b = if s.phase k ≠ .idle then 1 else 0 := by
    intro k
    cases s.phase k <;> simp [Phase.on, Phase.buf]
  simp only [h.refcnt, Finset.sum_add_distrib, State.refs, State.holders]
  rw [Finset.sum_comm, Finset.sum_congr rfl (fun k _ => hone k), Finset.card_filter]

/-- While fewer than `NBUF` buffers are taken or pinned, one is unused. -/
theorem exists_buffer (h : Invariant s) (hlt : s.holders + ∑ b, s.pins b < nBuf) :
    bget s.cache dev blockno ≠ none := by
  intro hnone
  have hused := ((bget_eq_none h).1 hnone).2
  have hcount : ∑ _b : Buf, 1 ≤ ∑ b, s.cache.refcnt b :=
    Finset.sum_le_sum (fun b _ => Nat.one_le_iff_ne_zero.2 (hused b))
  rw [sum_refcnt h, ← Finset.card_eq_sum_ones, Finset.card_univ, Fintype.card_fin] at hcount
  omega

variable [DecidableEq κ] {as : List (Action κ)} {r q : ℕ} {k : κ}

theorem Invariant.of_run (hrun : Run step matched start as t) : Invariant t :=
  hrun.invariant start_invariant (fun _ _ _ hv hm hnext => step_invariant hv hm hnext)

/-- A state in which `r` callers have a buffer and `q` are pinned, all of them different and with
blocks numbered below `r + q`. -/
structure Taken (r q : ℕ) (s : State κ) : Prop where
  reached : ∃ as, Run step matched start as s
  used : (Finset.univ.filter (fun b => s.cache.refcnt b ≠ 0)).card = r + q
  fresh : ∀ m, r + q ≤ m → m < 2 ^ 32 → ∀ b, s.cache.cached 1 (BitVec.ofNat 32 m) b = false
  holders : s.holders = r
  pins : ∑ b, s.pins b = q

theorem Taken.start : Taken 0 0 (start : State κ) where
  reached := ⟨[], .nil⟩
  used := by simp [BufferCache.start, binit]
  fresh := fun m _ _ b => by simp [BufferCache.start, binit, Bcache.cached]
  holders := by simp [BufferCache.start, State.holders]
  pins := by simp [BufferCache.start]

theorem Taken.exists_idle (h : Taken r q s) (hr : r < Fintype.card κ) : ∃ k, s.phase k = .idle := by
  by_contra hall
  have huniv : Finset.univ.filter (fun k => s.phase k ≠ .idle) = Finset.univ :=
    Finset.filter_true_of_mem (fun k _ hk => hall ⟨k, hk⟩)
  have hholders := h.holders
  rw [State.holders, huniv, Finset.card_univ] at hholders
  omega

/-- The next block takes a buffer that was unused. -/
theorem Taken.bget (h : Taken r q s) (hlt : r + q < nBuf) : ∃ b, s.cache.refcnt b = 0 ∧
    BufferCache.bget s.cache 1 (BitVec.ofNat 32 (r + q)) =
      some (b, s.cache.recycle 1 (BitVec.ofNat 32 (r + q)) b) := by
  obtain ⟨as, hrun⟩ := h.reached
  have hs := Invariant.of_run hrun
  have hmiss := h.fresh (r + q) le_rfl (hlt.trans (by decide))
  cases hget : BufferCache.bget s.cache 1 (BitVec.ofNat 32 (r + q)) with
  | none => exact absurd hget (exists_buffer hs (by rw [h.holders, h.pins]; exact hlt))
  | some x =>
    obtain ⟨b, c⟩ := x
    obtain ⟨l, hl⟩ := hs.recent
    rcases bget_cases hl hget with ⟨hhit, -⟩ | ⟨-, hzero, -, rfl⟩
    · rw [hmiss b] at hhit
      cases hhit
    · exact ⟨b, hzero, rfl⟩

theorem Taken.recycled (h : Taken r q s) {b : Buf} (hzero : s.cache.refcnt b = 0)
    (hcache : t.cache.refcnt = update s.cache.refcnt b 1)
    (hdev : t.cache.dev = update s.cache.dev b 1)
    (hblock : t.cache.blockno = update s.cache.blockno b (BitVec.ofNat 32 (r + q))) (hlt : r + q < nBuf) :
    (Finset.univ.filter (fun b => t.cache.refcnt b ≠ 0)).card = r + q + 1 ∧
    ∀ m, r + q + 1 ≤ m → m < 2 ^ 32 → ∀ b, t.cache.cached 1 (BitVec.ofNat 32 m) b = false := by
  constructor
  · have hset : Finset.univ.filter (fun b => t.cache.refcnt b ≠ 0) =
        insert b (Finset.univ.filter (fun b => s.cache.refcnt b ≠ 0)) := by
      ext b'
      rw [hcache]
      rcases eq_or_ne b' b with rfl | hne
      · simp
      · simp [hne]
    rw [hset, Finset.card_insert_of_notMem (by simp [hzero]), h.used]
  · intro m hm hsmall b'
    have hold := h.fresh m (by omega) hsmall b'
    rw [Bcache.cached, hdev, hblock]
    rcases eq_or_ne b' b with rfl | hne
    · have hdiff : BitVec.ofNat 32 (r + q) ≠ BitVec.ofNat 32 m := by
        intro heq
        have hnat := congrArg BitVec.toNat heq
        have hbuf : nBuf < 2 ^ 32 := by decide
        rw [BitVec.toNat_ofNat, BitVec.toNat_ofNat, Nat.mod_eq_of_lt (by omega), Nat.mod_eq_of_lt hsmall] at hnat
        omega
      simp [hdiff]
    · simpa [Bcache.cached, hne] using hold

omit [Fintype κ] in
theorem step_bget {b : Buf} {c : Bcache} (hk : s.phase k = .idle) (hget : bget s.cache dev blockno = some (b, c)) :
    step s (.bget k dev blockno) =
      some { s with cache := c, phase := update s.phase k (.waiting b), clock := s.clock + 1 } := by
  rw [step, act, if_pos hk, hget]
  rfl

theorem Taken.hold (h : Taken r q s) (hlt : r + q < nBuf) (hr : r < Fintype.card κ) :
    ∃ t : State κ, Taken (r + 1) q t := by
  obtain ⟨k, hk⟩ := h.exists_idle hr
  obtain ⟨b, hzero, hget⟩ := h.bget hlt
  obtain ⟨as, hrun⟩ := h.reached
  obtain ⟨hused, hfresh⟩ := h.recycled hzero (t := { s with
      cache := s.cache.recycle 1 (BitVec.ofNat 32 (r + q)) b
      phase := update s.phase k (.waiting b)
      clock := s.clock + 1 }) rfl rfl rfl hlt
  have hmatched : matched s (.bget k 1 (BitVec.ofNat 32 (r + q))) := trivial
  refine ⟨_, ⟨_, hrun.snoc hmatched (step_bget hk hget)⟩, ?_, ?_, ?_, h.pins⟩
  · rw [hused]
    omega
  · intro m hm
    exact hfresh m (by omega)
  · have hsum := sum_update s.phase (fun x => if x ≠ .idle then 1 else 0) k (.waiting b)
    have hholders := h.holders
    rw [State.holders, Finset.card_filter] at hholders ⊢
    rw [hholders, hk] at hsum
    simpa using hsum

omit [Fintype κ] in
/-- A caller takes buffer `b` for a block that it pins and gives back, as `log_write` does it. -/
theorem exists_pinned {b : Buf} (hk : s.phase k = .idle) (hlock : s.lock b = none)
    (hget : BufferCache.bget s.cache dev blockno = some (b, s.cache.recycle dev blockno b)) :
    ∃ as t, Run step matched s as t ∧ t.phase = s.phase ∧ t.pins = update s.pins b (s.pins b + 1) ∧
      t.cache.refcnt = update s.cache.refcnt b 1 ∧ t.cache.dev = update s.cache.dev b dev ∧
      t.cache.blockno = update s.cache.blockno b blockno := by
  have hidle : update s.phase k .idle = s.phase := by rw [← hk, update_eq_self]
  have hacquire : step { s with
      cache := s.cache.recycle dev blockno b
      phase := update s.phase k (.waiting b)
      clock := s.clock + 1 } (.acquiresleep k) = some { s with
      cache := s.cache.recycle dev blockno b
      lock := update s.lock b (some k)
      phase := update s.phase k (.holding b)
      clock := s.clock + 2 } := by
    simp [step, act, hlock]
  have hrelease : step { s with
      cache := bpin (s.cache.recycle dev blockno b) b
      lock := update s.lock b (some k)
      phase := update s.phase k (.holding b)
      pins := update s.pins b (s.pins b + 1)
      clock := s.clock + 3 } (.releasesleep k) = some { s with
      cache := bpin (s.cache.recycle dev blockno b) b
      lock := update s.lock b none
      phase := update s.phase k (.releasing b)
      pins := update s.pins b (s.pins b + 1)
      clock := s.clock + 4 } := by
    simp [step, act]
  have hbrelse : ∃ t, step { s with
      cache := bpin (s.cache.recycle dev blockno b) b
      lock := update s.lock b none
      phase := update s.phase k (.releasing b)
      pins := update s.pins b (s.pins b + 1)
      clock := s.clock + 4 } (.brelse k) = some t ∧ t.phase = update s.phase k .idle ∧
      t.pins = update s.pins b (s.pins b + 1) ∧
      t.cache = brelse (bpin (s.cache.recycle dev blockno b) b) b := by
    simp [step, act]
  obtain ⟨t, hlast, hphase, hpins, hcache⟩ := hbrelse
  refine ⟨[.bget k dev blockno, .acquiresleep k, .bpin b, .releasesleep k, .brelse k], t,
    .cons trivial (step_bget hk hget) (.cons trivial hacquire (.cons trivial rfl (.cons trivial hrelease
      (.cons trivial hlast .nil)))), hphase.trans hidle, hpins, ?_, ?_, ?_⟩
  all_goals rw [hcache]
  · simp [brelse_refcnt, bpin, Bcache.recycle]
  · simp [brelse, bunpin, bpin, Bcache.recycle]
  · simp [brelse, bunpin, bpin, Bcache.recycle]

theorem Taken.pin (h : Taken 0 q s) (hlt : q < nBuf) (hr : 0 < Fintype.card κ) :
    ∃ t : State κ, Taken 0 (q + 1) t := by
  obtain ⟨k, hk⟩ := h.exists_idle hr
  obtain ⟨b, hzero, hget⟩ := h.bget (by omega)
  obtain ⟨as, hrun⟩ := h.reached
  have hs := Invariant.of_run hrun
  have hrefs := hs.refcnt b
  have hlock : s.lock b = none := by
    refine Option.eq_none_iff_forall_ne_some.2 (fun k' hk' => ?_)
    have hon := State.on_le_refs (s := s) (k := k') (b := b)
    rw [(hs.locked b k').1 hk', Phase.on_self rfl] at hon
    omega
  obtain ⟨as', t, hrun', hphase, hpins, hrefcnt, hdev, hblock⟩ := exists_pinned hk hlock hget
  obtain ⟨hused, hfresh⟩ := h.recycled hzero hrefcnt hdev hblock (by omega)
  refine ⟨t, ⟨_, hrun.trans hrun'⟩, ?_, ?_, ?_, ?_⟩
  · rw [hused]
    omega
  · intro m hm
    exact hfresh m (by omega)
  · rw [State.holders, hphase]
    exact h.holders
  · have hsum := sum_update s.pins id b (s.pins b + 1)
    simp only [id_eq, h.pins] at hsum
    rw [hpins]
    omega

theorem exists_taken (hr : r ≤ Fintype.card κ) (hpos : 0 < Fintype.card κ) (hle : r + q ≤ nBuf) :
    ∃ t : State κ, Taken r q t := by
  induction r with
  | zero =>
    induction q with
    | zero => exact ⟨_, .start⟩
    | succ q ih =>
      obtain ⟨t, ht⟩ := ih (by omega)
      exact ht.pin (by omega) hpos
  | succ r ih =>
    obtain ⟨t, ht⟩ := ih (by omega) (by omega)
    exact ht.hold (by omega) (by omega)

theorem Taken.panics (h : Taken r q s) (heq : r + q = nBuf) :
    BufferCache.bget s.cache 1 (BitVec.ofNat 32 nBuf) = none := by
  obtain ⟨as, hrun⟩ := h.reached
  have hall : Finset.univ.filter (fun b => s.cache.refcnt b ≠ 0) = Finset.univ := by
    refine Finset.eq_univ_of_card _ ?_
    rw [h.used, heq, Fintype.card_fin]
  refine (bget_eq_none (Invariant.of_run hrun)).2 ⟨h.fresh nBuf heq.le (by decide), fun b => ?_⟩
  have hmem := Finset.mem_univ b
  rw [← hall, Finset.mem_filter] at hmem
  exact hmem.2

/-- `bget` finds a buffer in every run with at most `r` callers that have one and at most `q`
pins exactly if these are together fewer than `NBUF`. -/
theorem buffers_suffice_iff (hκ : nBuf ≤ Fintype.card κ) (r q : ℕ) :
    (∀ (as : List (Action κ)) (t : State κ), Run step matched start as t → t.holders ≤ r → ∑ b, t.pins b ≤ q →
      ∀ dev blockno, bget t.cache dev blockno ≠ none) ↔ r + q < nBuf := by
  constructor
  · intro hall
    by_contra hge
    have hbuf : 0 < nBuf := by decide
    obtain ⟨t, ht⟩ : ∃ t : State κ, Taken (min r nBuf) (nBuf - min r nBuf) t :=
      exists_taken (by omega) (by omega) (by omega)
    obtain ⟨as, hrun⟩ := ht.reached
    exact hall as t hrun (by rw [ht.holders]; omega) (by rw [ht.pins]; omega) _ _ (ht.panics (by omega))
  · intro hlt as t hrun hr hq dev blockno
    exact exists_buffer (Invariant.of_run hrun) (by omega)

end Callers

/-- Two operations with ten blocks each, and nine buffers in hand. -/
theorem buffers_suffice_two : 9 + 2 * maxOpBlocks < nBuf ∧
    ∀ (as : List (Action (Fin nProc))) (t : State (Fin nProc)), Run step matched start as t → t.holders ≤ 9 →
      ∑ b, t.pins b ≤ 2 * maxOpBlocks → ∀ dev blockno, bget t.cache dev blockno ≠ none :=
  ⟨by decide, (buffers_suffice_iff (by decide) 9 (2 * maxOpBlocks)).2 (by decide)⟩

/-- `readi` in thirty processes, each of them at a block of its own. -/
def readers : List (Action (Fin nProc)) :=
  (List.finRange nBuf).map (fun k : Buf => .bget (k.castLE (by decide)) 1 (BitVec.ofNat 32 (46 + k)))

set_option maxRecDepth 100000 in
/-- One more process that reads a block of its own. -/
theorem readers_exhaust : ∃ t, Run step matched start readers t ∧ (∃ k, t.phase k = .idle) ∧
    bget t.cache 1 76 = none := by
  obtain ⟨t, hrun, hidle, hnone⟩ : ∃ t, Run step matched start readers t ∧ (∃ k, t.phase k = .idle) ∧
      (bget t.cache 1 76).isNone = true := exists_run (by decide +kernel)
  exact ⟨t, hrun, hidle, Option.isNone_iff_eq_none.1 hnone⟩

end Xv6.BufferCache
