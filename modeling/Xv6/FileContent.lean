import Mathlib.Data.List.ReduceOption
import Mathlib.Data.List.TakeWhile
import Xv6.FileGrowth
import Xv6.InodeUpdates

/-!
# Reading and writing file content

`writei` changes the bytes of one file where it writes and no others, wherever it stops;
`readi` of a directory entry changes nothing.
-/

namespace Xv6.FileSystem

open ByteBlocks Function PanicPrograms SlotOwnership

variable {sb : Superblock} {T : Multiset ℕ} {s t u : FS} {i j c off n tot fuel : ℕ}
  {src : ℕ → Option Byte} {bs : List Byte} {E : Panic → Prop}

theorem contentPlace_inj {a b : ℕ} (h : contentPlace a = contentPlace b) : a = b := by
  simp only [contentPlace] at h
  split at h <;> split at h <;> omega

section Splice

variable (hB : Blocks sb s) (hl : s.live i) (hi : i < sb.ninodes) (htype : (s.body i).type ≠ .none)
  (hc : place s.data (s.body i) (contentPlace (off / bSize)) = c) (hc0 : c ≠ 0)
  (hfit : off % bSize + bs.length ≤ bSize)

include hB hl hi htype hc hc0

/-- The block of one position of a file's content is no other file's, and no other
position's. -/
theorem slot_content {x : ℕ × ℕ} (hx : s.slot sb x = c) : x = (i, contentPlace (off / bSize)) := by
  have hself := FS.current_of_live hl
  refine hB.owned.inj _ _ (by rwa [hx]) ?_
  rw [hx, FS.slot_eq hi (by rwa [hself]), hself, hc]

theorem place_splice {x : Block} (hj : j < sb.ninodes) (hjtype : (s.current j).type ≠ .none) (l : ℕ) :
    place (update s.data c x) (s.current j) l = place s.data (s.current j) l := by
  refine place_congr rfl (fun hind => update_of_ne ?_ _ _)
  intro heq
  rw [← place_addrs s.data le_rfl, ← FS.slot_eq hj hjtype] at heq
  have hpair := slot_content hB hl hi htype hc hc0 heq
  exact contentPlace_ne (congrArg Prod.snd hpair).symm

theorem written_splice :
    Written sb i (fun p => off ≤ p ∧ p < off + bs.length) s
      (s.setBlock c (splice (s.data c) (off % bSize) bs)) := by
  have hself := FS.current_of_live hl
  have hplace := fun {j} => place_splice (j := j) (x := splice (s.data c) (off % bSize) bs)
    hB hl hi htype hc hc0
  -- A byte that is not in the written range stays, whether or not it is in the block.
  have hbyte : ∀ j < sb.ninodes, (s.current j).type ≠ .none → ∀ p x,
      ¬ (j = i ∧ off ≤ p ∧ p < off + bs.length) → byteAt s.data (s.current j) p = some x →
      byteAt (update s.data c (splice (s.data c) (off % bSize) bs)) (s.current j) p =
        some x := by
    intro j hj hjtype p x hp hx
    obtain ⟨hne, hx⟩ := byteAt_eq_some.1 hx
    refine byteAt_eq_some.2 ?_
    rw [hplace hj hjtype]
    refine ⟨hne, ?_⟩
    rcases eq_or_ne (place s.data (s.current j) (contentPlace (p / bSize))) c with heq | hcne
    · rw [heq, update_self, splice]
      rw [heq] at hx
      rw [← FS.slot_eq hj hjtype] at heq
      obtain ⟨rfl, hpl⟩ := Prod.mk.inj (slot_content hB hl hi htype hc hc0 heq)
      have hdiv := contentPlace_inj hpl
      rw [if_neg ?_, hx]
      rintro ⟨hlow, hhigh⟩
      have hpdm := Nat.div_add_mod p bSize
      have hodm := Nat.div_add_mod off bSize
      rw [hdiv] at hpdm
      exact hp ⟨rfl, by omega, by omega⟩
    · rw [update_of_ne hcne, hx]
  refine ⟨⟨hB.sane, hB.owned.congr rfl ?_, hB.reserved⟩, ⟨(s.body i).addrs, ?_⟩, rfl, hbyte, ?_⟩
  · rintro ⟨j, l⟩
    simp only [FS.slot]
    by_cases hj : j < sb.ninodes ∧ (s.current j).type ≠ .none
    · exact (if_pos hj).trans ((hplace hj.1 hj.2 l).trans (if_pos hj).symm)
    · exact (if_neg hj).trans (if_neg hj).symm
  · simp [FS.setBlock, FS.setBody, FS.setInode, FS.body]
  · intro p hp
    have htype' : (s.current i).type ≠ .none := by rwa [hself]
    rw [byteAt_ne_none] at hp ⊢
    exact (hplace hi htype' _).symm ▸ hp

include hfit in
theorem byteAt_splice {q : ℕ} (hq : q < bs.length) :
    byteAt (update s.data c (splice (s.data c) (off % bSize) bs)) (s.body i) (off + q) =
      some (bs.getD q 0) := by
  have hself := FS.current_of_live hl
  have hb : 0 < bSize := by decide
  have hmod : (off + q) % bSize = off % bSize + q := by
    rw [Nat.add_mod, Nat.mod_eq_of_lt (show q < bSize by omega), Nat.mod_eq_of_lt (by omega)]
  have hdiv : (off + q) / bSize = off / bSize := by
    have h1 := Nat.div_add_mod (off + q) bSize
    have h2 := Nat.div_add_mod off bSize
    exact Nat.eq_of_mul_eq_mul_left hb (by omega)
  have hplace := place_splice (j := i) (x := splice (s.data c) (off % bSize) bs) hB hl hi htype hc hc0
    hi (by rwa [hself]) (contentPlace ((off + q) / bSize))
  rw [hself, hdiv, hc] at hplace
  rw [byteAt_eq_some, hdiv, hplace, update_self, hmod, splice,
    if_pos ⟨by omega, by omega⟩]
  exact ⟨hc0, by rw [Nat.add_sub_cancel_left]⟩

end Splice

theorem Filled.splice {x : Block} {L : List ℕ} (hB : Blocks sb s) (hl : s.live i)
    (hi : i < sb.ninodes) (htype : (s.body i).type ≠ .none)
    (hc : place s.data (s.body i) (contentPlace (off / bSize)) = c) (hc0 : c ≠ 0) :
    Filled sb i ∅ s { s.setBlock c x with logged := L } where
  present := fun _ hl => absurd hl (Finset.notMem_empty _)
  kept := by
    intro l _
    have hplace := place_splice (x := x) hB hl hi htype hc hc0 hi (by rwa [FS.current_of_live hl]) l
    rwa [FS.current_of_live hl] at hplace
  count := rfl
  other := fun j _ hj hjtype l => place_splice hB hl hi htype hc hc0 hj hjtype l

theorem blank_splice {W : ℕ → Prop} {x : Block} {L : List ℕ}
    (h : Filled sb i ∅ s { s.setBlock c x with logged := L }) :
    Blank i W s { s.setBlock c x with logged := L } := by
  intro p y _ hnone hy
  have hne := (byteAt_eq_some.1 hy).1
  rw [h.kept _ (.inl (Finset.notMem_empty _))] at hne
  exact absurd hnone (byteAt_ne_none.2 hne)

theorem take_reduceOption (l : List (Option Byte)) :
    l.take (l.takeWhile Option.isSome).reduceOption.length =
      (l.takeWhile Option.isSome).reduceOption.map some := by
  induction l with
  | nil => rfl
  | cons a l ih =>
    cases a with
    | none => rfl
    | some x => simpa [List.reduceOption_cons_of_some] using ih

theorem length_copyin_le (src : ℕ → Option Byte) (tot m : ℕ) : (copyin src tot m).length ≤ m := by
  have hprefix : ((List.range m).map (fun j => src (tot + j))).takeWhile Option.isSome <+:
      (List.range m).map (fun j => src (tot + j)) := List.takeWhile_prefix _
  calc (copyin src tot m).length
      ≤ (((List.range m).map (fun j => src (tot + j))).takeWhile Option.isSome).length :=
        List.reduceOption_length_le _
    _ ≤ m := by simpa using hprefix.length_le

theorem getElem?_takeWhile (l : List (Option Byte))
    (h : (l.takeWhile Option.isSome).reduceOption.length < l.length) :
    l[(l.takeWhile Option.isSome).reduceOption.length]? = some none := by
  induction l with
  | nil => cases h
  | cons a l ih =>
    cases a with
    | none => rfl
    | some x => simpa [List.reduceOption_cons_of_some] using ih (by simpa [List.reduceOption_cons_of_some] using h)

theorem copyin_getD {m q : ℕ} (hq : q < (copyin src tot m).length) :
    src (tot + q) = some ((copyin src tot m).getD q 0) := by
  have hm := length_copyin_le src tot m
  have htake := take_reduceOption ((List.range m).map (fun j => src (tot + j)))
  change List.take (copyin src tot m).length _ = (copyin src tot m).map some at htake
  have hget := congrArg (fun l => l[q]?) htake
  simp only [List.getElem?_take_of_lt hq, List.getElem?_map,
    List.getElem?_range (show q < m by omega), Option.map_some] at hget
  rw [List.getD_eq_getElem?_getD]
  rw [List.getElem?_eq_getElem hq, Option.map_some] at hget
  rw [List.getElem?_eq_getElem hq, Option.getD_some]
  exact Option.some.inj hget

theorem copyin_stop {m : ℕ} (h : (copyin src tot m).length < m) :
    src (tot + (copyin src tot m).length) = none := by
  have hstop := getElem?_takeWhile ((List.range m).map (fun j => src (tot + j)))
    (by simpa [copyin] using h)
  change ((List.range m).map (fun j => src (tot + j)))[(copyin src tot m).length]? = some none at hstop
  rw [List.getElem?_map, List.getElem?_range h, Option.map_some] at hstop
  exact Option.some.inj hstop

/-- One block of a write: `m` bytes at `off` are there, in a block that the file has got for them
if it had none. -/
structure Spliced (sb : Superblock) (i off m : ℕ) (s t : FS) : Prop where
  written : Written sb i (fun p => off ≤ p ∧ p < off + m) s t
  blank : Blank i (fun p => off ≤ p ∧ p < off + m) s t
  filled : Filled sb i (blockPlaces (off / bSize)) s t

theorem Mapped.splice (h : Mapped sb i (off / bSize) s c t) (bs : List Byte) (L : List ℕ) (hl : s.live i)
    (hi : i < sb.ninodes) (htype : (s.body i).type ≠ .none) (hne : c ≠ 0) :
    Spliced sb i off bs.length s { t.setBlock c (splice (t.data c) (off % bSize) bs) with logged := L } := by
  have hB := h.written.blocks
  have htl : t.live i := h.written.live.2 hl
  obtain ⟨_, hbody⟩ := h.written.body_self
  have httype : (t.body i).type ≠ .none := by rwa [hbody]
  have hkept := Filled.splice (L := L) (x := ByteBlocks.splice (t.data c) (off % bSize) bs) hB htl hi httype
    (h.addr hne) hne
  have hwritten : Written sb i (fun p => off ≤ p ∧ p < off + bs.length) t _ :=
    (written_splice hB htl hi httype (h.addr hne) hne).log L
  refine ⟨(h.written.mono (fun _ h => h.elim)).trans hwritten hl,
    (h.grows.blank.mono (fun _ h => h.elim)).trans (blank_splice hkept) hwritten htl hi httype, ?_⟩
  have hfilled := (h.grows.filled hne).trans hkept (fun _ => h.written.type hl)
  rwa [Finset.union_empty] at hfilled

/-- The loop of `writei`, asked for `n` bytes, ends after `m`: it has written them all, it does not
get the next block, or it gets the block and the copy fails after `c` bytes more. -/
inductive Stops (sb : Superblock) (i : ℕ) (src : ℕ → Option Byte) (off n tot : ℕ) (s t : FS) (m c : ℕ) : Prop where
  | all (done : c = 0 ∧ m = n) (filled : Filled sb i (rangePlaces off n) s t)
  | full (short : c = 0 ∧ m < n) (empty : place s.data (s.body i) (contentPlace ((off + m) / bSize)) = 0)
      (few : ¬ (s.missing i (rangePlaces off (m + 1))).card ≤ (s.free sb).card)
  | failed (lt : m + c < n) (unread : src (tot + (m + c)) = none)
      (block : (off + (m + c)) / bSize = (off + m) / bSize)
      (filled : Filled sb i (rangePlaces off (m + 1)) s t)

/-- The loop of `writei`, asked for `n` bytes, has written the first `m`, and a copy that
then failed has left `c` bytes more. -/
structure Copied (sb : Superblock) (i : ℕ) (src : ℕ → Option Byte) (off n tot : ℕ) (s t : FS)
    (m c : ℕ) : Prop where
  le : m + c ≤ n
  written : Written sb i (fun p => off ≤ p ∧ p < off + (m + c)) s t
  blank : Blank i (fun p => off ≤ p ∧ p < off + (m + c)) s t
  bytes : ∀ q < m + c, src (tot + q) ≠ none ∧ byteAt t.data (t.body i) (off + q) = src (tot + q)
  boundary : m = n ∨ m = 0 ∨ (off + m) % bSize = 0
  stop : Stops sb i src off n tot s t m c

/-- The loop of `writei`, asked for `n` bytes, has written the first `m`. It stops early for
a copy that fails, or for a block that it does not get. -/
structure Stored (sb : Superblock) (i : ℕ) (src : ℕ → Option Byte) (off n tot : ℕ) (s t : FS)
    (m : ℕ) : Prop where
  le : m ≤ n
  written : Written sb i (fun p => off ≤ p ∧ p < off + n) s t
  bytes : ∀ q < m, src (tot + q) ≠ none ∧ byteAt t.data (t.body i) (off + q) = src (tot + q)
  stop : (∀ q < n, src (tot + q) ≠ none) →
    Written sb i (fun p => off ≤ p ∧ p < off + m) s t ∧
      (m = n ∨ m = 0 ∨ (off + m) % bSize = 0)

theorem turn_end {m : ℕ} (hm : m = min n (bSize - off % bSize)) (hlt : m < n) :
    off + m = bSize * (off / bSize + 1) := by
  have hb : bSize = 1024 := rfl
  rw [hb] at hm ⊢
  omega

theorem Copied.nothing (hB : Blocks sb s) (hn : n = 0) : Copied sb i src off n tot s s 0 0 where
  le := Nat.zero_le n
  written := .refl hB
  blank := .refl
  bytes := fun q hq => absurd hq (Nat.not_lt_zero q)
  boundary := .inr (.inl rfl)
  stop := by
    subst hn
    exact .all ⟨rfl, rfl⟩ (.refl fun _ hl => absurd hl (Finset.notMem_empty _))

theorem Copied.full (h : Mapped sb i (off / bSize) s 0 t) (hn : 0 < n)
    (hempty : place s.data (s.body i) (contentPlace (off / bSize)) = 0) :
    Copied sb i src off n tot s t 0 0 where
  le := Nat.zero_le n
  written := h.written.mono (fun _ h => h.elim)
  blank := h.grows.blank.mono (fun _ h => h.elim)
  bytes := fun q hq => absurd hq (Nat.not_lt_zero q)
  boundary := .inr (.inl rfl)
  stop := by
    have hmod : off % bSize < bSize := Nat.mod_lt _ (by decide)
    refine .full ⟨rfl, hn⟩ hempty ?_
    rw [Nat.zero_add, rangePlaces_block one_pos (by omega)]
    exact fun hfree => h.grows.enough hfree rfl

theorem Stops.turn {m k c : ℕ} (hm : m = min n (bSize - off % bSize)) (hlt : 0 < m)
    (hst : Filled sb i (blockPlaces (off / bSize)) s t) (htype : ∀ j, (t.current j).type = (s.current j).type)
    (h : Stops sb i src (off + m) (n - m) (tot + m) t u k c) : Stops sb i src off n tot s u (m + k) c := by
  have hmod : off % bSize < bSize := Nat.mod_lt _ (by decide)
  have hrange : rangePlaces off (m + k + 1) = blockPlaces (off / bSize) ∪ rangePlaces (off + m) (k + 1) := by
    rw [Nat.add_assoc, rangePlaces_add, rangePlaces_block hlt (by omega)]
  cases h with
  | all h hfilled =>
    refine .all (by omega) ?_
    rw [rangePlaces_turn off (by omega) hm]
    exact hst.trans hfilled htype
  | full h hempty hfew =>
    rw [Nat.add_assoc] at hempty
    refine .full (by omega) ?_ ?_
    · by_contra hne
      rw [hst.kept _ (.inr hne)] at hempty
      exact hne hempty
    · rw [hrange]
      exact fun hfree => hfew (hst.enough hfree)
  | failed h hunread hblock hfilled =>
    rw [Nat.add_assoc, ← Nat.add_assoc m] at hunread
    rw [Nat.add_assoc, Nat.add_assoc, ← Nat.add_assoc m] at hblock
    refine .failed (by omega) hunread hblock ?_
    rw [hrange]
    exact hst.trans hfilled htype

theorem Copied.turn {m m' c : ℕ} (hst : Spliced sb i off m s t)
    (hl : s.live i) (hi : i < sb.ninodes) (htype : (s.body i).type ≠ .none)
    (hm : m = min n (bSize - off % bSize)) (hpos : 0 < m)
    (hbytes : ∀ q < m, src (tot + q) ≠ none ∧ byteAt t.data (t.body i) (off + q) = src (tot + q))
    (hrest : Copied sb i src (off + m) (n - m) (tot + m) t u m' c) :
    Copied sb i src off n tot s u (m + m') c := by
  have hle := hrest.le
  have htl : t.live i := hst.written.live.2 hl
  have htype' : (t.current i).type ≠ .none := by rwa [hst.written.type hl, FS.current_of_live hl]
  have hwritten : Written sb i (fun p => off ≤ p ∧ p < off + (m + m' + c)) t u :=
    hrest.written.mono (fun p hp => ⟨by omega, by omega⟩)
  refine ⟨by omega, (hst.written.mono (fun p hp => ⟨hp.1, by omega⟩)).trans hwritten hl, ?_, ?_, ?_,
    hrest.stop.turn hm hpos hst.filled (fun _ => hst.written.type hl)⟩
  · refine (hst.blank.mono (fun p hp => ⟨hp.1, by omega⟩)).trans
      (hrest.blank.mono (fun p hp => ⟨by omega, by omega⟩)) hwritten htl hi ?_
    rwa [FS.current_of_live htl] at htype'
  · intro q hq
    rcases lt_or_ge q m with hlt | hge
    · -- The rest of the loop writes behind the bytes of this turn.
      obtain ⟨hsome, hbyte⟩ := hbytes q hlt
      obtain ⟨x, hx⟩ := Option.ne_none_iff_exists'.1 hsome
      rw [hx, ← FS.current_of_live htl] at hbyte
      have hux := hrest.written.bytes i hi htype' (off + q) x
        (fun hc => absurd hc.2.1 (by omega)) hbyte
      rw [FS.current_of_live (hrest.written.live.2 htl)] at hux
      exact ⟨hsome, hux.trans hx.symm⟩
    · obtain ⟨k, rfl⟩ := Nat.exists_eq_add_of_le hge
      have hk := hrest.bytes k (by omega)
      rwa [Nat.add_assoc, Nat.add_assoc] at hk
  · rcases Nat.lt_or_ge m n with hlt | hge
    · rcases hrest.boundary with heq | rfl | hbound
      · exact .inl (by omega)
      · exact .inr (.inr (by rw [Nat.add_zero, turn_end hm hlt, Nat.mul_mod_right]))
      · rw [Nat.add_assoc] at hbound
        exact .inr (.inr hbound)
    · exact .inl (by omega)

theorem Copied.complete {m c : ℕ} (h : Copied sb i src off n tot s t m c) (hsrc : ∀ q < n, src (tot + q) ≠ none) :
    c = 0 ∧ (m = n ∧ Filled sb i (rangePlaces off n) s t ∨
      place s.data (s.body i) (contentPlace ((off + m) / bSize)) = 0 ∧
        ¬ (s.missing i (rangePlaces off n)).card ≤ (s.free sb).card) := by
  cases h.stop with
  | all h hfilled => exact ⟨h.1, .inl ⟨h.2, hfilled⟩⟩
  | full h hempty hfew =>
    exact ⟨h.1, .inr ⟨hempty, fun hfree => hfew ((FS.card_missing_mono (rangePlaces_mono h.2)).trans hfree)⟩⟩
  | failed h hunread => exact absurd hunread (hsrc _ h)

theorem Copied.stored {m c : ℕ} (h : Copied sb i src off n tot s t m c) :
    Stored sb i src off n tot s t m where
  le := by
    have := h.le
    omega
  written := by
    have hle := h.le
    exact h.written.mono (fun p hp => ⟨hp.1, by omega⟩)
  bytes := fun q hq => h.bytes q (by omega)
  stop := by
    intro hsrc
    obtain rfl := (h.complete hsrc).1
    exact ⟨h.written, h.boundary⟩

theorem writeiLoop_copied (hB : Blocks sb s) (hl : s.live i) (hi : i < sb.ninodes)
    (htype : (s.body i).type ≠ .none) (hmax : off + n ≤ maxFile * bSize) (hfuel : n ≤ fuel) :
    Ends (writeiLoop sb i src fuel off n tot) s (fun r t =>
      ∃ m c, r = (off + m, tot + m) ∧ Copied sb i src off n tot s t m c) E := by
  induction fuel generalizing s off n tot with
  | zero => exact ⟨0, 0, rfl, .nothing hB (by omega)⟩
  | succ fuel ih =>
    rw [writeiLoop]
    refine ends_ite (fun hn => ⟨0, 0, rfl, .nothing hB hn⟩) ?_
    intro hn
    rw [ends_bind]
    have hb : 0 < bSize := by decide
    have hmod := Nat.mod_lt off hb
    have hbn : off / bSize < maxFile := (Nat.div_lt_iff_lt_mul hb).2 (by omega)
    refine (bmap_found hB hl hi htype hbn).imp ?_
    rintro addr t ⟨hmap, hzero⟩
    refine ends_ite ?_ ?_
    · rintro rfl
      exact ⟨0, 0, rfl, .full hmap (Nat.pos_of_ne_zero hn) (hzero rfl)⟩
    intro hne
    have htl : t.live i := hmap.written.live.2 hl
    obtain ⟨_, htbody⟩ := hmap.written.body_self
    have httype : (t.body i).type ≠ .none := by rwa [htbody]
    have hlen := length_copyin_le src tot (min n (bSize - off % bSize))
    have hspliced := fun L => hmap.splice (copyin src tot (min n (bSize - off % bSize))) L hl hi htype hne
    have hbytes : ∀ q < (copyin src tot (min n (bSize - off % bSize))).length, src (tot + q) ≠ none ∧
        byteAt (update t.data addr (splice (t.data addr) (off % bSize)
          (copyin src tot (min n (bSize - off % bSize))))) (t.body i) (off + q) = src (tot + q) := by
      intro q hq
      rw [copyin_getD hq]
      exact ⟨Option.some_ne_none _,
        byteAt_splice hmap.written.blocks htl hi httype (hmap.addr hne) hne (by omega) hq⟩
    simp only [ends_bind, ends_modify]
    refine ends_ite ?_ ?_
    · intro hshort
      obtain ⟨hwritten, hblank, hfilled⟩ := hspliced t.logged
      refine ⟨0, (copyin src tot (min n (bSize - off % bSize))).length, rfl, ?_⟩
      refine ⟨by omega, ?_, ?_, ?_, .inr (.inl rfl), .failed (by omega) ?_ ?_ ?_⟩
      · rwa [Nat.zero_add]
      · rwa [Nat.zero_add]
      · rwa [Nat.zero_add]
      · rw [Nat.zero_add]
        exact copyin_stop hshort
      · rw [Nat.zero_add]
        exact div_of_fit (by omega)
      · rwa [Nat.zero_add, rangePlaces_block one_pos (by omega)]
    · intro hfull
      have hmlen := le_antisymm hlen (not_lt.1 hfull)
      rw [hmlen] at hspliced hbytes
      simp only [logWrite, ends_bind, ends_modify]
      have hmax' : off + min n (bSize - off % bSize) + (n - min n (bSize - off % bSize)) ≤
          maxFile * bSize := by omega
      refine (ih (hspliced _).written.blocks htl httype hmax' (by omega)).imp ?_
      rintro r u ⟨m', c, rfl, hrest⟩
      exact ⟨_, c, by rw [Nat.add_assoc, Nat.add_assoc],
        .turn (hspliced _) hl hi htype rfl (by omega) hbytes hrest⟩

/-- The inode that `writei` writes back. -/
def Dinode.grown (d : Dinode) (a : ℕ → ℕ) (z : ℕ) : Dinode :=
  { d with addrs := a, size := max d.size z }

theorem FS.setBody_self : s.setBody i (s.body i) = s := by
  simp [FS.setBody, FS.setInode, FS.body]

/-- What `writei` leaves when it has written `m` bytes, in the state `u` before it wrote the
inode back. -/
structure Wrote (sb : Superblock) (i : ℕ) (src : ℕ → Option Byte) (off n : ℕ) (s t : FS) (m : ℕ)
    (u : FS) (a : ℕ → ℕ) : Prop where
  stored : Stored sb i src off n 0 s u m
  le : off ≤ (s.body i).size
  body : u.body i = { s.body i with addrs := a }
  blocks : Blocks sb t
  data : t.data = u.data
  inode : t.inode = (s.setBody i ((s.body i).grown a (off + m))).inode
  dinode : t.dinode = update s.dinode i ((s.body i).grown a (off + m))

theorem writei_accepted (hB : Blocks sb s) (hl : s.live i) (hi : i < sb.ninodes) (htype : (s.body i).type ≠ .none)
    (hoff : ¬ ((s.body i).size < off ∨ (off + n) % 2 ^ 32 < off)) (hmax : off + n ≤ maxFile * bSize) :
    Ends (writei sb i src off n) s (fun r t =>
      ∃ (m : ℕ) (u : FS) (a : ℕ → ℕ), r = m ∧ Wrote sb i src off n s t m u a ∧
        t.bitmap = u.bitmap ∧ ∃ c, Copied sb i src off n 0 s u m c) E := by
  simp only [writei, ends_bind, ends_get]
  rw [if_neg hoff, if_neg (not_lt.2 hmax), ends_bind]
  refine (writeiLoop_copied hB hl hi htype hmax le_rfl).imp ?_
  rintro _ u ⟨m, c, rfl, hcopied⟩
  have hst := hcopied.stored
  obtain ⟨a, ha⟩ := hst.written.body_self
  have hul : u.live i := hst.written.live.2 hl
  have hx : (if (u.body i).size < off + m then u.setBody i { u.body i with size := off + m } else u) =
      u.setBody i ((s.body i).grown a (off + m)) := by
    rw [ha]
    split
    · rename_i hlt
      rw [Dinode.grown, max_eq_right (le_of_lt hlt)]
    · rename_i hge
      rw [Dinode.grown, max_eq_left (not_lt.1 hge), ← ha, FS.setBody_self]
  simp only [iupdate, logWrite, ends_bind, ends_modify, ends_pure]
  rw [hx, FS.body_setBody_self]
  refine ⟨m, u, a, by simp, ⟨hst, by omega, ha, ?_, rfl, ?_, ?_⟩, rfl, c, hcopied⟩
  · have hcur := (FS.current_setDinode (FS.live_setBody (d := (s.body i).grown a (off + m)) |>.2 hul)).trans
      (FS.current_setBody hul)
    rw [FS.body_setBody_self] at hcur
    exact hst.written.blocks.relabel hul hi (by rwa [ha]) rfl rfl hcur (by rw [ha]; rfl) htype
  · obtain ⟨a', ha'⟩ := hst.written.inode
    change (u.setBody i _).inode = _
    simp only [FS.setBody, FS.setInode, ha']
    simp [update_idem]
  · exact congrArg (fun f => update f i _) hst.written.dinode

theorem writei_refused (h : ((s.body i).size < off ∨ (off + n) % 2 ^ 32 < off) ∨
    maxFile * bSize < off + n) :
    Ends (writei sb i src off n) s (fun r t => r = -1 ∧ t = s) E := by
  simp only [writei, ends_bind, ends_get]
  refine ends_ite (fun _ => ⟨rfl, rfl⟩) (fun hoff => ?_)
  rw [if_pos (h.resolve_left hoff)]
  exact ⟨rfl, rfl⟩

theorem writei_copied (hB : Blocks sb s) (hl : s.live i) (hi : i < sb.ninodes)
    (htype : (s.body i).type ≠ .none) :
    Ends (writei sb i src off n) s (fun r t => (r = -1 ∧ t = s) ∨
      ∃ (m : ℕ) (u : FS) (a : ℕ → ℕ), r = m ∧ Wrote sb i src off n s t m u a ∧
        ∃ c, Copied sb i src off n 0 s u m c) E := by
  by_cases hrefused : ((s.body i).size < off ∨ (off + n) % 2 ^ 32 < off) ∨ maxFile * bSize < off + n
  · exact (writei_refused hrefused).mono (fun _ _ h => .inl h) (fun _ h => h)
  · obtain ⟨hoff, hmax⟩ := not_or.1 hrefused
    refine (writei_accepted hB hl hi htype hoff (not_lt.1 hmax)).imp ?_
    rintro r t ⟨m, u, a, rfl, hw, -, hc⟩
    exact .inr ⟨m, u, a, rfl, hw, hc⟩

theorem writei_ends (h : Sound sb T s) (hl : s.live i) :
    Ends (writei sb i src off n) s (fun r t => (r = -1 ∧ t = s) ∨
      ∃ (m : ℕ) (u : FS) (a : ℕ → ℕ), r = m ∧ Wrote sb i src off n s t m u a) E := by
  refine (writei_copied h.blocks hl (FS.mem_of_live h hl) (h.typed i hl)).imp ?_
  rintro r t (hrefused | ⟨m, u, a, rfl, hw, -⟩)
  · exact .inl hrefused
  · exact .inr ⟨m, u, a, rfl, hw⟩

theorem Wrote.other {m : ℕ} {a : ℕ → ℕ} (h : Wrote sb i src off n s t m u a) (hl : s.live i)
    (hne : j ≠ i) (hj : j < sb.ninodes) (hjtype : (s.current j).type ≠ .none) {p : ℕ} {x : Byte}
    (hx : byteAt s.data (s.current j) p = some x) : byteAt t.data (s.current j) p = some x := by
  obtain ⟨a', ha'⟩ := h.stored.written.current hl
  have hux := h.stored.written.bytes j hj hjtype p x (fun hc => hne hc.1) hx
  rw [ha', update_of_ne hne] at hux
  rwa [h.data]

/-- A write to a file does not show in the namespace. -/
theorem writei_file_ends (h : Sound sb T s) (hl : s.live i) (hfile : (s.body i).type ≠ .dir) :
    Ends (writei sb i src off n) s (fun _ t => Keeps sb T T s t) E := by
  refine (writei_ends h hl).imp ?_
  rintro r t (⟨-, rfl⟩ | ⟨m, u, a, -, hw⟩)
  · exact .refl h
  · have hnode : nodeOf t.data ((s.body i).grown a (off + m)) = s.view sb i := by
      have hnil : entries t.data ((s.body i).grown a (off + m)) = [] := entries_of_ne hfile
      rw [FS.view_eq (FS.mem_of_live h hl), FS.current_of_live hl]
      exact nodeOf_congr rfl rfl (hnil.trans (entries_of_ne hfile).symm)
    obtain ⟨hsound, hstays, hview⟩ := h.rewriteInode hl hw.blocks hw.inode hw.dinode rfl
      (fun hdir => absurd hdir hfile) (by rw [hnode]; exact h.named i)
      (fun j hne hj hjtype p x hx => hw.other hl hne hj hjtype hx)
    refine ⟨hsound, hstays, fun _ h => h, ?_⟩
    rw [hview, hnode, update_eq_self]

end Xv6.FileSystem
