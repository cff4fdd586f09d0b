import Mathlib.Algebra.Order.BigOperators.Group.Finset
import Mathlib.Data.Fintype.Card
import Xv6.BufferCache

/-!
# The order of the buffer cache

The list of buffers stays one ring through all of them, in the order of their last release,
no block has two buffers, and a buffer in use stays with its block.
-/

namespace Xv6.BufferCache

open Function LinkedRings TransitionRuns

variable {κ : Type} {s t : State κ} {k : κ} {b : Buf} {l : List Buf} {dev blockno : BitVec 32} {a : Action κ}

/-- The list of buffers in the order of the ring: every buffer once, the last one released
first. -/
structure Recent (s : State κ) (l : List Buf) : Prop where
  ring : Ring s.cache.links l
  complete : ∀ b, b ∈ l
  sorted : l.Pairwise (fun a b => s.released b ≤ s.released a)

theorem Recent.length_eq (h : Recent s l) : l.length = nBuf := by
  have hcard := List.toFinset_card_of_nodup h.ring.nodup
  have huniv : l.toFinset = Finset.univ := Finset.eq_univ_of_forall (fun b => by simpa using h.complete b)
  rw [← hcard, huniv, Finset.card_univ, Fintype.card_fin]

/-- What `bget` returns: the buffer of the block, or else the unused buffer that was released
first. -/
theorem bget_cases {c : Bcache} (hl : Recent s l) (h : bget s.cache dev blockno = some (b, c)) :
    (s.cache.cached dev blockno b = true ∧ c = bpin s.cache b) ∨
    ((∀ b', s.cache.cached dev blockno b' = false) ∧ s.cache.refcnt b = 0 ∧
      (∀ b', s.cache.refcnt b' = 0 → s.released b ≤ s.released b') ∧
      c = s.cache.recycle dev blockno b) := by
  have hlen := hl.length_eq.le
  rw [bget, Bcache.lookup, hl.ring.scan_next hlen, Bcache.unused, hl.ring.scan_prev hlen] at h
  cases hfind : l.find? (s.cache.cached dev blockno) with
  | some b' =>
    rw [hfind] at h
    cases h
    exact .inl ⟨List.find?_some hfind, rfl⟩
  | none =>
    rw [hfind] at h
    obtain ⟨b', hlast, heq⟩ := Option.map_eq_some_iff.1 h
    cases heq
    obtain ⟨hzero, front, back, hsplit, hfront⟩ := List.find?_eq_some_iff_append.1 hlast
    have hl' : l = back.reverse ++ b :: front.reverse := by
      have hrev := congrArg List.reverse hsplit
      simpa using hrev
    refine .inr ⟨fun b' => ?_, of_decide_eq_true hzero, fun b' hb' => ?_, rfl⟩
    · simpa using List.find?_eq_none.1 hfind b' (hl.complete b')
    · have hmem := hl.complete b'
      have hsorted := hl.sorted
      rw [hl', List.pairwise_append] at hsorted
      rw [hl', List.mem_append, List.mem_cons, List.mem_reverse, List.mem_reverse] at hmem
      rcases hmem with hmem | rfl | hmem
      · exact hsorted.2.2 b' (List.mem_reverse.2 hmem) b List.mem_cons_self
      · exact le_rfl
      · have hne := hfront b' hmem
        simp [hb'] at hne

theorem Recent.congr (h : Recent s l) (hlinks : t.cache.links = s.cache.links)
    (hreleased : t.released = s.released) : Recent t l :=
  ⟨hlinks ▸ h.ring, h.complete, hreleased ▸ h.sorted⟩

theorem Recent.front (h : Recent s l) (hle : ∀ b, s.released b ≤ s.clock)
    (hlinks : t.cache.links = (s.cache.links.unlink b).pushFront b)
    (hreleased : t.released = update s.released b (s.clock + 1)) : ∃ l', Recent t l' := by
  obtain ⟨front, back, rfl⟩ := List.append_of_mem (h.complete b)
  have hring := h.ring.moveToFront
  have hnot : b ∉ front ++ back := (List.nodup_cons.1 hring.nodup).1
  refine ⟨b :: (front ++ back), hlinks ▸ hring, fun b' => ?_, ?_⟩
  · have hmem := h.complete b'
    simp only [List.mem_append, List.mem_cons] at hmem ⊢
    tauto
  · have hsorted : (front ++ back).Pairwise (fun a b => s.released b ≤ s.released a) :=
      h.sorted.sublist (List.Sublist.append_left (List.sublist_cons_self b back) front)
    rw [hreleased, List.pairwise_cons]
    refine ⟨fun c hc => ?_, hsorted.imp_of_mem (fun {c d} hc hd hcd => ?_)⟩
    · have hne : c ≠ b := fun heq => hnot (heq ▸ hc)
      rw [update_self, update_of_ne hne]
      exact (hle c).trans (Nat.le_succ _)
    · have hcne : c ≠ b := fun heq => hnot (heq ▸ hc)
      have hdne : d ≠ b := fun heq => hnot (heq ▸ hd)
      rwa [update_of_ne hcne, update_of_ne hdne]

variable [Fintype κ]

/-- One reference, if the caller has one to `b`. -/
def Phase.on (x : Phase) (b : Buf) : ℕ := if x.buf = some b then 1 else 0

def State.refs (s : State κ) (b : Buf) : ℕ := ∑ k, (s.phase k).on b

structure Invariant (s : State κ) : Prop where
  recent : ∃ l, Recent s l
  released_le : ∀ b, s.released b ≤ s.clock
  unique : ∀ a b, s.cache.dev a ≠ 0 → s.cache.dev a = s.cache.dev b →
    s.cache.blockno a = s.cache.blockno b → a = b
  refcnt : ∀ b, s.cache.refcnt b = s.refs b + s.pins b
  locked : ∀ b k, s.lock b = some k ↔ s.phase k = .holding b

theorem Phase.on_eq {x y : Phase} (h : x.buf = y.buf) : x.on b = y.on b := by
  rw [Phase.on, Phase.on, h]

theorem Phase.on_self {x : Phase} (h : x.buf = some b) : x.on b = 1 := if_pos h

theorem Phase.on_ne {x : Phase} {b' : Buf} (h : x.buf = some b) (hne : b' ≠ b) : x.on b' = 0 := by
  rw [Phase.on, h, if_neg (by simpa using hne.symm)]

theorem Phase.on_idle : Phase.idle.on b = 0 := if_neg (by simp [Phase.buf])

theorem State.on_le_refs : (s.phase k).on b ≤ s.refs b :=
  Finset.single_le_sum (f := fun k => (s.phase k).on b) (fun _ _ => Nat.zero_le _) (Finset.mem_univ k)

theorem pin_invariant {n m : ℕ} (h : Invariant s) (hn : n = s.refs b + m) :
    Invariant { s with
      cache := { s.cache with refcnt := update s.cache.refcnt b n }
      pins := update s.pins b m
      clock := s.clock + 1 } := by
  obtain ⟨l, hl⟩ := h.recent
  refine ⟨⟨l, hl.congr rfl rfl⟩, fun b' => (h.released_le b').trans (Nat.le_succ _), h.unique,
    fun b' => ?_, h.locked⟩
  dsimp only
  rcases eq_or_ne b' b with rfl | hne
  · rw [update_self, update_self]
    exact hn
  · rw [update_of_ne hne, update_of_ne hne]
    exact h.refcnt b'

theorem ring_binit {p : Links Buf} {m : List Buf} (l : List Buf) (hp : Ring p m) (hl : l.Nodup)
    (hdisj : ∀ b ∈ l, b ∉ m) : Ring (l.foldl Links.pushFront p) (l.reverse ++ m) := by
  induction l generalizing p m with
  | nil => exact hp
  | cons b l ih =>
    obtain ⟨hb, hl⟩ := List.nodup_cons.1 hl
    rw [List.reverse_cons, List.append_assoc]
    refine ih (hp.pushFront (hdisj b List.mem_cons_self)) hl (fun c hc hmem => ?_)
    rcases List.mem_cons.1 hmem with rfl | hmem
    · exact hb hc
    · exact hdisj c (List.mem_cons_of_mem b hc) hmem

theorem start_invariant : Invariant (start : State κ) := by
  have hring := ring_binit (p := ⟨fun _ => none, fun _ => none⟩) (m := []) (List.finRange nBuf)
    ⟨⟨rfl, rfl⟩, List.nodup_nil⟩ (List.nodup_finRange nBuf) (by simp)
  refine ⟨⟨_, hring, by simp, List.pairwise_of_forall (fun _ _ => le_rfl)⟩, fun _ => le_rfl,
    fun a b hdev => absurd rfl hdev, fun b => ?_, fun b k => ?_⟩
  · simp [start, binit, State.refs, Phase.on, Phase.buf]
  · simp [start]

/-- From the head, `next` visits every buffer once and returns; `prev` is its inverse; no block
of a device has two buffers. -/
structure Structured (c : Bcache) : Prop where
  visits : ∃ l : List Buf, l.Nodup ∧ (∀ b, b ∈ l) ∧ ∀ k ≤ nBuf, c.links.next^[k + 1] none = l[k]?
  inverse : ∀ x, c.links.prev (c.links.next x) = x ∧ c.links.next (c.links.prev x) = x
  unique : ∀ a b, c.dev a ≠ 0 → c.dev a = c.dev b → c.blockno a = c.blockno b → a = b

theorem Invariant.structured (h : Invariant s) : Structured s.cache := by
  obtain ⟨l, hl⟩ := h.recent
  have hlen := hl.length_eq
  refine ⟨⟨l, hl.ring.nodup, hl.complete, fun k hk => hl.ring.path.iterate (hlen ▸ hk)⟩, fun x => ?_,
    h.unique⟩
  obtain ⟨hhead, hmember⟩ := hl.ring.path.prev_next
  obtain ⟨hhead', hmember'⟩ := hl.ring.path.reverse.prev_next
  cases x with
  | none => exact ⟨hhead, hhead'⟩
  | some b => exact ⟨hmember b (hl.complete b), hmember' b (List.mem_reverse.2 (hl.complete b))⟩

variable [DecidableEq κ]

theorem refs_update (x : Phase) : ({ s with phase := update s.phase k x } : State κ).refs b +
    (s.phase k).on b = s.refs b + x.on b :=
  sum_update s.phase (fun y => y.on b) k x

omit [Fintype κ] in
theorem locked_update {x : Phase} (h : ∀ b k, s.lock b = some k ↔ s.phase k = .holding b)
    (hk : ∀ b, s.phase k ≠ .holding b) (hx : ∀ b, x ≠ .holding b) (b : Buf) (k' : κ) :
    s.lock b = some k' ↔ update s.phase k x k' = .holding b := by
  rw [h b k']
  rcases eq_or_ne k' k with rfl | hne
  · rw [update_self]
    exact iff_of_false (hk b) (hx b)
  · rw [update_of_ne hne]

theorem bget_invariant {c : Bcache} (h : Invariant s) (hk : s.phase k = .idle)
    (hget : bget s.cache dev blockno = some (b, c)) :
    Invariant { s with
      cache := c, phase := update s.phase k (.waiting b), clock := s.clock + 1 } := by
  obtain ⟨l, hl⟩ := h.recent
  have hlocked := locked_update (x := .waiting b) h.locked (k := k) (by simp [hk]) (by simp)
  have hrefs : ∀ b', ({ s with phase := update s.phase k (.waiting b) } : State κ).refs b' =
      s.refs b' + (Phase.waiting b).on b' := by
    intro b'
    have hupd := refs_update (s := s) (k := k) (b := b') (.waiting b)
    rwa [hk, Phase.on_idle, add_zero] at hupd
  rcases bget_cases hl hget with ⟨-, rfl⟩ | ⟨hmiss, hzero, -, rfl⟩
  · refine ⟨⟨l, hl.congr rfl rfl⟩, fun b' => (h.released_le b').trans (Nat.le_succ _), h.unique,
      fun b' => ?_, hlocked⟩
    have hb' := h.refcnt b'
    refine Eq.trans ?_ (congrArg (· + s.pins b') (hrefs b')).symm
    rcases eq_or_ne b' b with rfl | hne
    · rw [Phase.on_self rfl]
      simp only [bpin, update_self]
      omega
    · rw [Phase.on_ne rfl hne]
      simp only [bpin, update_of_ne hne]
      omega
  · refine ⟨⟨l, hl.congr rfl rfl⟩, fun b' => (h.released_le b').trans (Nat.le_succ _), ?_,
      fun b' => ?_, hlocked⟩
    · -- No other buffer has the block.
      have hother : ∀ b' ≠ b, ¬ (s.cache.dev b' = dev ∧ s.cache.blockno b' = blockno) :=
        fun b' _ => of_decide_eq_false (hmiss b')
      intro a b' hdev heq hblock
      simp only [Bcache.recycle] at hdev heq hblock
      rcases eq_or_ne a b with rfl | ha
      · rcases eq_or_ne b' a with rfl | hb'
        · rfl
        · rw [update_self, update_of_ne hb'] at heq hblock
          exact absurd ⟨heq.symm, hblock.symm⟩ (hother b' hb')
      · rw [update_of_ne ha] at hdev heq hblock
        rcases eq_or_ne b' b with rfl | hb'
        · rw [update_self] at heq hblock
          exact absurd ⟨heq, hblock⟩ (hother a ha)
        · rw [update_of_ne hb'] at heq hblock
          exact h.unique a b' hdev heq hblock
    · have hb' := h.refcnt b'
      refine Eq.trans ?_ (congrArg (· + s.pins b') (hrefs b')).symm
      rcases eq_or_ne b' b with rfl | hne
      · rw [Phase.on_self rfl]
        simp only [Bcache.recycle, update_self]
        omega
      · rw [Phase.on_ne rfl hne]
        simp only [Bcache.recycle, update_of_ne hne]
        omega

theorem sleeplock_invariant {x : Phase} {r : Option κ} (h : Invariant s) (hbuf : x.buf = (s.phase k).buf)
    (hlocked : ∀ b' k', update s.lock b r b' = some k' ↔
      update s.phase k x k' = .holding b') :
    Invariant { s with
      lock := update s.lock b r
      phase := update s.phase k x
      clock := s.clock + 1 } := by
  obtain ⟨l, hl⟩ := h.recent
  refine ⟨⟨l, hl.congr rfl rfl⟩, fun b' => (h.released_le b').trans (Nat.le_succ _), h.unique,
    fun b' => ?_, hlocked⟩
  have hupd := refs_update (s := s) (k := k) (b := b') x
  rw [Phase.on_eq hbuf] at hupd
  exact (h.refcnt b').trans (congrArg (· + s.pins b') (add_right_cancel hupd).symm)

theorem brelse_refcnt (c : Bcache) : (brelse c b).refcnt = update c.refcnt b (c.refcnt b - 1) := by
  rw [brelse]
  split <;> rfl

theorem brelse_invariant (h : Invariant s) (hk : s.phase k = .releasing b) :
    Invariant { s with
      cache := brelse s.cache b
      phase := update s.phase k .idle
      released := if (brelse s.cache b).refcnt b = 0 then
        update s.released b (s.clock + 1) else s.released
      clock := s.clock + 1 } := by
  obtain ⟨l, hl⟩ := h.recent
  have hlocked := locked_update (x := .idle) h.locked (k := k) (by simp [hk]) (by simp)
  have hone : 1 ≤ s.refs b := by
    have hle := State.on_le_refs (s := s) (k := k) (b := b)
    rwa [hk, Phase.on_self rfl] at hle
  refine ⟨?_, fun b' => ?_, ?_, fun b' => ?_, hlocked⟩
  · rw [brelse_refcnt, update_self]
    by_cases hzero : s.cache.refcnt b - 1 = 0
    · refine hl.front h.released_le ?_ (if_pos hzero)
      simp [brelse, bunpin, hzero]
    · refine ⟨l, hl.congr ?_ (if_neg hzero)⟩
      simp [brelse, bunpin, hzero]
  · dsimp only
    split
    · rcases eq_or_ne b' b with rfl | hne
      · rw [update_self]
      · rw [update_of_ne hne]
        exact (h.released_le b').trans (Nat.le_succ _)
    · exact (h.released_le b').trans (Nat.le_succ _)
  · have hsame : (brelse s.cache b).dev = s.cache.dev ∧ (brelse s.cache b).blockno = s.cache.blockno := by
      rw [brelse]
      split <;> exact ⟨rfl, rfl⟩
    dsimp only
    rw [hsame.1, hsame.2]
    exact h.unique
  · have hupd := refs_update (s := s) (k := k) (b := b') .idle
    rw [hk, Phase.on_idle, add_zero] at hupd
    have hb' := h.refcnt b'
    dsimp only
    rw [brelse_refcnt]
    change _ = ({ s with phase := update s.phase k .idle } : State κ).refs b' + s.pins b'
    rcases eq_or_ne b' b with rfl | hne
    · rw [Phase.on_self rfl] at hupd
      rw [update_self]
      omega
    · rw [Phase.on_ne rfl hne] at hupd
      rw [update_of_ne hne]
      omega

theorem step_invariant (h : Invariant s) (hm : matched s a) (hstep : step s a = some t) :
    Invariant t := by
  obtain ⟨u, hact, rfl⟩ := Option.map_eq_some_iff.1 hstep
  cases a with
  | bget k dev blockno =>
    rw [act] at hact
    split at hact
    · rename_i hk
      obtain ⟨⟨b, c⟩, hget, rfl⟩ := Option.map_eq_some_iff.1 hact
      exact bget_invariant h hk hget
    · cases hact
  | acquiresleep k =>
    rw [act] at hact
    split at hact
    · rename_i b hk
      split at hact
      · rename_i hfree
        cases hact
        refine sleeplock_invariant h (by rw [hk]; rfl) (fun b' k' => ?_)
        have hb := h.locked b' k'
        rcases eq_or_ne b' b with rfl | hbne
        · rw [hfree] at hb
          rcases eq_or_ne k' k with rfl | hkne
          · simp
          · simpa [hkne, hkne.symm] using hb
        · rcases eq_or_ne k' k with rfl | hkne
          · rw [hk] at hb
            simpa [hbne, hbne.symm] using hb
          · simpa [hbne, hkne] using hb
      · cases hact
    · cases hact
  | releasesleep k =>
    rw [act] at hact
    split at hact
    · rename_i b hk
      split at hact
      · rename_i hheld
        cases hact
        refine sleeplock_invariant h (by rw [hk]; rfl) (fun b' k' => ?_)
        have hb := h.locked b' k'
        rcases eq_or_ne k' k with rfl | hkne
        · rw [hk] at hb
          rcases eq_or_ne b' b with rfl | hbne
          · simp
          · simpa [hbne, hbne.symm] using hb
        · rcases eq_or_ne b' b with rfl | hbne
          · rw [hheld] at hb
            simpa [hkne, hkne.symm] using hb
          · simpa [hbne, hkne] using hb
      · cases hact
    · cases hact
  | brelse k =>
    rw [act] at hact
    split at hact
    · rename_i b hk
      cases hact
      exact brelse_invariant h hk
    · cases hact
  | bpin b =>
    cases hact
    have hb := h.refcnt b
    exact pin_invariant h (by omega)
  | bunpin b =>
    cases hact
    have hb := h.refcnt b
    have hpos := hm.1
    exact pin_invariant h (by omega)

/-- What one action does to the buffers. A buffer in use keeps its block. The time recorded for
a buffer is that of its last release to a count of 0. A miss takes the unused buffer that was
released first. -/
structure Steady (s t : State κ) (a : Action κ) : Prop where
  kept : ∀ b, 0 < s.cache.refcnt b → t.cache.dev b = s.cache.dev b ∧
    t.cache.blockno b = s.cache.blockno b ∧ t.cache.valid b = s.cache.valid b
  released : ∀ b, t.released b =
    if 0 < s.cache.refcnt b ∧ t.cache.refcnt b = 0 then t.clock else s.released b
  oldest : ∀ k dev blockno, a = .bget k dev blockno → (∀ b, s.cache.cached dev blockno b = false) →
    ∃ b, t.phase k = .waiting b ∧ s.cache.refcnt b = 0 ∧
      ∀ b', s.cache.refcnt b' = 0 → s.released b ≤ s.released b'

omit [Fintype κ] [DecidableEq κ] in
theorem Steady.of_same (hcache : t.cache.dev = s.cache.dev ∧ t.cache.blockno = s.cache.blockno ∧
    t.cache.valid = s.cache.valid) (hreleased : t.released = s.released)
    (hpos : ∀ b, 0 < s.cache.refcnt b → 0 < t.cache.refcnt b)
    (ha : ∀ k dev blockno, a ≠ .bget k dev blockno) : Steady s t a := by
  refine ⟨fun b _ => ?_, fun b => ?_, fun k dev blockno heq => absurd heq (ha k dev blockno)⟩
  · rw [hcache.1, hcache.2.1, hcache.2.2]
    exact ⟨rfl, rfl, rfl⟩
  · rw [hreleased, if_neg]
    rintro ⟨hb, hzero⟩
    exact (hpos b hb).ne' hzero

theorem bget_steady {c : Bcache} (h : Invariant s) (hget : bget s.cache dev blockno = some (b, c)) :
    Steady s { s with
      cache := c
      phase := update s.phase k (.waiting b)
      clock := s.clock + 1 } (.bget k dev blockno) := by
  obtain ⟨l, hl⟩ := h.recent
  rcases bget_cases hl hget with ⟨hhit, rfl⟩ | ⟨hmiss, hzero, hold, rfl⟩
  · refine ⟨fun _ _ => ⟨rfl, rfl, rfl⟩, fun b' => (if_neg ?_).symm, fun _ _ _ heq hnone => ?_⟩
    · rintro ⟨hpos, hb'⟩
      simp only [bpin, update_apply] at hb'
      split at hb' <;> omega
    · cases heq
      rw [hnone b] at hhit
      cases hhit
  · refine ⟨fun b' hpos => ?_, fun b' => (if_neg ?_).symm, fun _ _ _ heq _ => ?_⟩
    · have hne : b' ≠ b := by
        rintro rfl
        omega
      simp only [Bcache.recycle, update_of_ne hne]
      exact ⟨trivial, trivial, trivial⟩
    · rintro ⟨hpos, hb'⟩
      simp only [Bcache.recycle, update_apply] at hb'
      split at hb' <;> omega
    · cases heq
      exact ⟨b, update_self .., hzero, hold⟩

theorem brelse_steady (h : Invariant s) (hk : s.phase k = .releasing b) :
    Steady s { s with
      cache := brelse s.cache b
      phase := update s.phase k .idle
      released := if (brelse s.cache b).refcnt b = 0 then
        update s.released b (s.clock + 1) else s.released
      clock := s.clock + 1 } (.brelse k) := by
  have hpos : 0 < s.cache.refcnt b := by
    have hle := State.on_le_refs (s := s) (k := k) (b := b)
    rw [hk, Phase.on_self rfl] at hle
    have hb := h.refcnt b
    omega
  refine ⟨fun b' _ => ?_, fun b' => ?_, fun _ _ _ heq => by cases heq⟩
  · rw [brelse]
    split <;> exact ⟨rfl, rfl, rfl⟩
  · simp only [brelse_refcnt, update_self]
    rcases eq_or_ne b' b with rfl | hne
    · rw [update_self]
      split
      · rename_i hzero
        rw [update_self, if_pos ⟨hpos, hzero⟩]
      · rename_i hmore
        rw [if_neg (fun hc => hmore hc.2)]
    · have hno : ¬ (0 < s.cache.refcnt b' ∧ s.cache.refcnt b' = 0) := by omega
      rw [update_of_ne hne, if_neg hno]
      split
      · exact update_of_ne hne _ _
      · rfl

theorem step_steady (h : Invariant s) (hm : matched s a) (hstep : step s a = some t) : Steady s t a := by
  obtain ⟨u, hact, rfl⟩ := Option.map_eq_some_iff.1 hstep
  cases a with
  | bget k dev blockno =>
    rw [act] at hact
    split at hact
    · obtain ⟨⟨b, c⟩, hget, rfl⟩ := Option.map_eq_some_iff.1 hact
      exact bget_steady h hget
    · cases hact
  | acquiresleep k | releasesleep k =>
    rw [act] at hact
    split at hact
    · split at hact
      · cases hact
        exact .of_same ⟨rfl, rfl, rfl⟩ rfl (fun _ hb => hb) (by simp)
      · cases hact
    · cases hact
  | brelse k =>
    rw [act] at hact
    split at hact
    · rename_i b hk
      cases hact
      exact brelse_steady h hk
    · cases hact
  | bpin b =>
    cases hact
    refine .of_same ⟨rfl, rfl, rfl⟩ rfl (fun b' hb' => ?_) (by simp)
    simp only [bpin, update_apply]
    split <;> omega
  | bunpin b =>
    cases hact
    -- The holder's reference stays.
    obtain ⟨hpin, k, hk⟩ := hm
    have hle := State.on_le_refs (s := s) (k := k) (b := b)
    rw [hk, Phase.on_self rfl] at hle
    have hb := h.refcnt b
    refine .of_same ⟨rfl, rfl, rfl⟩ rfl (fun b' hb' => ?_) (by simp)
    simp only [bunpin, update_apply]
    split <;> omega

theorem bufferCache_run {as : List (Action κ)} (hrun : Run step matched start as t) :
    Structured t.cache ∧ ∀ a u, matched t a → step t a = some u → Steady t u a := by
  have ht : Invariant t :=
    hrun.invariant start_invariant (fun _ _ _ hv hm hnext => step_invariant hv hm hnext)
  exact ⟨ht.structured, fun a u hm hstep => step_steady ht hm hstep⟩

instance (s : State κ) : (a : Action κ) → Decidable (matched s a)
  | .bunpin b => inferInstanceAs (Decidable (0 < s.pins b ∧ ∃ k, s.phase k = .holding b))
  | .bget .. | .acquiresleep _ | .releasesleep _ | .brelse _ | .bpin _ =>
    inferInstanceAs (Decidable True)

def firstBuf : Buf := ⟨0, by decide⟩

/-- Two callers use a block one after the other; it is pinned in between. -/
def pinnedTwice : List (Action (Fin 2)) :=
  [.bget 0 1 33, .acquiresleep 0, .bget 1 1 33, .bpin firstBuf, .releasesleep 0, .brelse 0, .acquiresleep 1,
    .bunpin firstBuf, .releasesleep 1, .brelse 1]

set_option maxRecDepth 10000 in
theorem bufferCache_run_pinnedTwice : ∃ t, Run step matched start pinnedTwice t ∧
    t.cache.links.next none = some firstBuf ∧ Structured t.cache ∧
    ∀ a u, matched t a → step t a = some u → Steady t u a := by
  obtain ⟨t, hrun, hfirst⟩ : ∃ t, Run step matched start pinnedTwice t ∧
      t.cache.links.next none = some firstBuf := exists_run (by decide +kernel)
  exact ⟨t, hrun, hfirst, bufferCache_run hrun⟩

end Xv6.BufferCache
