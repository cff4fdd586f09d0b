import Xv6.ShortWrites

/-!
# Files as growable byte arrays

An inode whose blocks below its size are all there is a list of bytes. `readi` returns a
slice of it, `writei` replaces one, and extends the list where it writes past the end.
-/

namespace Xv6.FileSystem

open ByteBlocks Function PanicPrograms SlotOwnership

variable {sb : Superblock} {s t u : FS} {i j off n m tot p q fuel : ℕ} {bs l : List Byte}
  {src : ℕ → Option Byte} {copyout : ℕ → ℕ → Bool} {x : Byte} {E : Panic → Prop}

def FS.content (s : FS) (i : ℕ) : List Byte :=
  (List.range (s.current i).size).map (fun p => (byteAt s.data (s.current i) p).getD 0)

def FS.dense (s : FS) (i : ℕ) : Prop :=
  ∀ p < (s.current i).size, byteAt s.data (s.current i) p ≠ none

def overwrite (l : List Byte) (off : ℕ) (bs : List Byte) : List Byte :=
  l.take off ++ bs ++ l.drop (off + bs.length)

def sourceBytes (src : ℕ → Option Byte) (n : ℕ) : List Byte :=
  (List.range n).map (fun q => (src q).getD 0)

theorem FS.length_content : (s.content i).length = (s.current i).size := by
  simp [FS.content]

theorem FS.getElem?_content (hp : p < (s.current i).size) :
    (s.content i)[p]? = some ((byteAt s.data (s.current i) p).getD 0) := by
  rw [FS.content, List.getElem?_map, List.getElem?_range hp, Option.map_some]

theorem getElem?_overwrite (hoff : off ≤ l.length) :
    (overwrite l off bs)[p]? = if off ≤ p ∧ p < off + bs.length then bs[p - off]? else l[p]? := by
  have htake : (l.take off).length = off := by simp [hoff]
  rw [overwrite, List.append_assoc]
  rcases Nat.lt_or_ge p off with hlt | hge
  · rw [List.getElem?_append_left (by omega), List.getElem?_take_of_lt hlt, if_neg (by omega)]
  · rw [List.getElem?_append_right (by omega), htake]
    rcases Nat.lt_or_ge p (off + bs.length) with hlt | hge'
    · rw [List.getElem?_append_left (by omega), if_pos ⟨hge, hlt⟩]
    · rw [List.getElem?_append_right (by omega), List.getElem?_drop, if_neg (by omega)]
      congr 1
      omega

theorem FS.slice_content (h : off + n ≤ (s.current i).size) :
    ((s.content i).drop off).take n =
      (List.range n).map (fun q => (byteAt s.data (s.current i) (off + q)).getD 0) := by
  refine List.ext_getElem? (fun q => ?_)
  rcases Nat.lt_or_ge q n with hlt | hge
  · rw [List.getElem?_take_of_lt hlt, List.getElem?_drop, FS.getElem?_content (by omega),
      List.getElem?_map, List.getElem?_range hlt, Option.map_some]
  · rw [List.getElem?_eq_none (by simp; omega), List.getElem?_eq_none (by simpa using hge)]

theorem readiLoop_ends (hdst : ∀ k m, k + m ≤ tot + n → copyout k m = true)
    (hfilled : ∀ q < n, byteAt s.data (s.body i) (off + q) ≠ none) (hfuel : n ≤ fuel) :
    Ends (readiLoop sb i copyout fuel off n tot bs) s (fun r t => t = s ∧ r = (((tot + n : ℕ) : ℤ),
      bs ++ (List.range n).map (fun q => (byteAt s.data (s.body i) (off + q)).getD 0))) E := by
  induction fuel generalizing off n tot bs with
  | zero =>
    obtain rfl : n = 0 := by omega
    exact ⟨rfl, by simp⟩
  | succ fuel ih =>
    rw [readiLoop]
    refine ends_ite ?_ ?_
    · rintro rfl
      exact ⟨rfl, by simp⟩
    intro hn
    have hb : 0 < bSize := by decide
    have hmod := Nat.mod_lt off hb
    have hpres := hfilled 0 (by omega)
    rw [Nat.add_zero] at hpres
    have hne := byteAt_ne_none.1 hpres
    have hbn : off / bSize < maxFile := (Nat.div_lt_iff_lt_mul hb).2 (byteAt_lt hpres)
    refine (bmap_hit hbn hne).bind ?_
    rintro _ t ⟨rfl, rfl⟩
    rw [if_neg hne]
    simp only [ends_bind, ends_get]
    rw [if_pos (hdst _ _ (by omega))]
    -- The rest of the loop reads behind the bytes of this turn.
    have hrest : ∀ q < n - min n (bSize - off % bSize),
        byteAt t.data (t.body i) (off + min n (bSize - off % bSize) + q) ≠ none := by
      intro q hq
      rw [Nat.add_assoc]
      exact hfilled _ (by omega)
    refine (ih (fun k m hle => hdst k m (by omega)) hrest (by omega)).imp ?_
    rintro r u ⟨rfl, rfl⟩
    refine ⟨rfl, Prod.ext (by dsimp only; omega) ?_⟩
    have hsplit : n = min n (bSize - off % bSize) + (n - min n (bSize - off % bSize)) := by omega
    dsimp only
    rw [List.append_assoc]
    congr 1
    conv_rhs => rw [hsplit, List.range_add, List.map_append]
    congr 1
    · refine List.map_congr_left (fun q hq => ?_)
      have hq := List.mem_range.1 hq
      have hmodq : (off + q) % bSize = off % bSize + q := by
        rw [Nat.add_mod, Nat.mod_eq_of_lt (show q < bSize by omega), Nat.mod_eq_of_lt (by omega)]
      rw [byteAt, div_of_fit (by omega), if_neg hne, hmodq, Option.getD_some]
    · rw [List.map_map]
      refine List.map_congr_left (fun q _ => ?_)
      rw [Function.comp_apply, Nat.add_assoc]

theorem readi_ends (hl : s.live i) (hdense : s.dense i) (hoff : off < 2 ^ 32) (hn : n < 2 ^ 32)
    (hdst : ∀ k m, k + m ≤ (s.current i).size → copyout k m = true) :
    Ends (readi sb i copyout off n) s (fun r t => t = s ∧ r =
      if (s.current i).size < off ∨ 2 ^ 32 ≤ off + n then (0, [])
      else (((min n ((s.current i).size - off) : ℕ) : ℤ), ((s.content i).drop off).take n)) E := by
  have hself := FS.current_of_live hl
  have hwrap : (off + n) % 2 ^ 32 < off ↔ 2 ^ 32 ≤ off + n := by omega
  simp only [readi, ends_bind, ends_get]
  rw [← hself]
  refine ends_ite ?_ ?_
  · intro h
    rw [if_pos (by omega)]
    exact ⟨rfl, rfl⟩
  · intro h
    have hpass : ¬ ((s.current i).size < off ∨ 2 ^ 32 ≤ off + n) := by omega
    have hlen : (if (s.current i).size < off + n then (s.current i).size - off else n) =
        min n ((s.current i).size - off) := by
      split <;> omega
    have htake : ((s.content i).drop off).take n =
        ((s.content i).drop off).take (min n ((s.current i).size - off)) := by
      rw [← FS.length_content, ← List.length_drop, List.take_eq_take_min]
    rw [hlen, if_neg hpass, htake, FS.slice_content (by omega), hself]
    refine (readiLoop_ends (fun k m hle => hdst k m (by rw [hself]; omega)) ?_ le_rfl).mono ?_
      (fun _ h => h)
    · intro q hq
      rw [← hself]
      exact hdense _ (by rw [hself]; omega)
    · rintro r t ⟨rfl, rfl⟩
      exact ⟨rfl, by simp⟩

theorem Wrote.current_other {a : ℕ → ℕ} (h : Wrote sb i src off n s t m u a) (hne : j ≠ i) :
    t.current j = s.current j := by
  refine FS.current_congr ?_ ?_
  · rw [h.inode]
    exact update_of_ne hne _ _
  · rw [h.dinode]
    exact update_of_ne hne _ _

/-- A write of `n` bytes that has written the first `m` of them, and no others. -/
structure Put (sb : Superblock) (i : ℕ) (src : ℕ → Option Byte) (off n m : ℕ) (s t u : FS)
    (a : ℕ → ℕ) : Prop where
  wrote : Wrote sb i src off n s t m u a
  copied : Copied sb i src off n 0 s u m 0

/-- A write of `n` bytes that has run to its end, with a block for every place. -/
structure Extended (sb : Superblock) (i : ℕ) (src : ℕ → Option Byte) (off n : ℕ) (s t u : FS)
    (a : ℕ → ℕ) : Prop extends Put sb i src off n n s t u a where
  filled : Filled sb i (rangePlaces off n) s u
  bitmap : t.bitmap = u.bitmap
  blank : Blank i (fun p => off ≤ p ∧ p < off + n) s u

/-- A write of readable bytes, past its tests. If it returns `n` it has run to its end, and it
does so if there are enough free blocks. -/
theorem writei_puts (hB : Blocks sb s) (hl : s.live i) (hi : i < sb.ninodes)
    (htype : (s.body i).type ≠ .none) (hoff : off ≤ (s.body i).size) (hwrap : off + n < 2 ^ 32)
    (hmax : off + n ≤ maxFile * bSize) (hsrc : ∀ q < n, src q ≠ none) :
    Ends (writei sb i src off n) s (fun r t => ∃ (m : ℕ) (u : FS) (a : ℕ → ℕ), r = m ∧
      Put sb i src off n m s t u a ∧ (m = n → Extended sb i src off n s t u a) ∧
      ((s.missing i (rangePlaces off n)).card ≤ (s.free sb).card → m = n)) E := by
  refine (writei_accepted hB hl hi htype (by omega) hmax).imp ?_
  rintro r t ⟨m, u, a, rfl, hw, hbit, c, hcopied⟩
  obtain ⟨rfl, hend⟩ := hcopied.complete (by simpa using hsrc)
  refine ⟨m, u, a, rfl, ⟨hw, hcopied⟩, ?_, fun hfree => ?_⟩
  · rintro rfl
    cases hcopied.stop with
    | all _ hfilled => exact ⟨⟨hw, hcopied⟩, hfilled, hbit, hcopied.blank⟩
    | full h => omega
    | failed h => omega
  · exact (hend.resolve_right fun h => h.2 hfree).1

theorem Put.complete {a : ℕ → ℕ} (h : Put sb i src off n m s t u a) (hsrc : ∀ q < n, src q ≠ none)
    (hpresent : byteAt s.data (s.body i) (off + m) ≠ none) : m = n := by
  obtain ⟨-, hend⟩ := h.copied.complete (by simpa using hsrc)
  exact (hend.resolve_right fun hfull => byteAt_ne_none.1 hpresent hfull.1).1

theorem writei_extends (hB : Blocks sb s) (hl : s.live i) (hi : i < sb.ninodes)
    (htype : (s.body i).type ≠ .none) (hoff : off ≤ (s.body i).size) (hwrap : off + n < 2 ^ 32)
    (hmax : off + n ≤ maxFile * bSize) (hsrc : ∀ q < n, src q ≠ none) :
    Ends (writei sb i src off n) s (fun r t =>
      (r = n → ∃ u a, Extended sb i src off n s t u a) ∧
      ((s.missing i (rangePlaces off n)).card ≤ (s.free sb).card → r = n)) E := by
  refine (writei_puts hB hl hi htype hoff hwrap hmax hsrc).imp ?_
  rintro r t ⟨m, u, a, rfl, -, hend, henough⟩
  exact ⟨fun hm => ⟨u, a, hend (by exact_mod_cast hm)⟩, fun hfree => by rw [henough hfree]⟩

section Writes

variable {a : ℕ → ℕ} (h : Wrote sb i src off n s t m u a) (hl : s.live i)

include h hl

theorem Wrote.current_self : t.current i = (s.body i).grown a (off + m) := by
  rw [FS.current_of_live (h.live hl), h.body_self]

theorem Wrote.size : (t.current i).size = max (s.current i).size (off + m) := by
  rw [h.current_self hl, FS.current_of_live hl]
  rfl

theorem Wrote.place_self (k : ℕ) : place t.data (t.current i) k = place u.data (u.body i) k := by
  rw [h.current_self hl, h.body, h.data]
  exact place_congr rfl (fun _ => rfl)

theorem Wrote.byteAt_current (p : ℕ) : byteAt t.data (t.current i) p = byteAt u.data (u.body i) p := by
  rw [FS.current_of_live (h.live hl), h.byteAt_self]

theorem Wrote.byteAt_in (hq : q < m) :
    src q ≠ none ∧ byteAt t.data (t.current i) (off + q) = src q := by
  obtain ⟨hsome, hbyte⟩ := h.stored.bytes q hq
  rw [Nat.zero_add] at hsome hbyte
  rw [h.byteAt_current hl]
  exact ⟨hsome, hbyte⟩

theorem Wrote.dense (hdense : s.dense i) : t.dense i := by
  intro p hp
  rw [h.size hl] at hp
  rcases Nat.lt_or_ge p (s.current i).size with hlt | hge
  · have hpres := h.stored.written.present p (hdense p hlt)
    rwa [FS.current_of_live (h.stored.written.live.2 hl), ← h.byteAt_current hl] at hpres
  · have hle := h.le
    rw [← FS.current_of_live hl] at hle
    obtain ⟨q, rfl⟩ := Nat.exists_eq_add_of_le (hle.trans hge)
    obtain ⟨hsome, hbyte⟩ := h.byteAt_in hl (show q < m by omega)
    rwa [hbyte]

variable (hwritten : Written sb i (fun p => off ≤ p ∧ p < off + m) s u) (hi : i < sb.ninodes)
  (htype : (s.body i).type ≠ .none)

include hwritten hi htype

theorem Wrote.byteAt_out (hp : ¬ (off ≤ p ∧ p < off + m)) (hx : byteAt s.data (s.current i) p ≠ none) :
    byteAt t.data (t.current i) p = byteAt s.data (s.current i) p := by
  rw [FS.current_of_live hl] at hx ⊢
  rw [h.byteAt_current hl]
  obtain ⟨x, hx⟩ := Option.ne_none_iff_exists'.1 hx
  have hself := FS.current_of_live hl
  have hux := hwritten.bytes i hi (by rwa [hself]) p x (fun hc => hp hc.2) (by rwa [hself])
  rw [FS.current_of_live (hwritten.live.2 hl)] at hux
  rw [hux, hx]

theorem Wrote.content (hdense : s.dense i) :
    t.content i = overwrite (s.content i) off (sourceBytes src m) := by
  have hle : off ≤ (s.current i).size := by
    rw [FS.current_of_live hl]
    exact h.le
  have hlen : (sourceBytes src m).length = m := by simp [sourceBytes]
  refine List.ext_getElem? (fun p => ?_)
  rw [getElem?_overwrite (by rwa [FS.length_content]), hlen]
  split
  · rename_i hin
    obtain ⟨q, rfl⟩ := Nat.exists_eq_add_of_le hin.1
    have hq : q < m := by omega
    rw [FS.getElem?_content (by rw [h.size hl]; omega), (h.byteAt_in hl hq).2, sourceBytes,
      List.getElem?_map, Nat.add_sub_cancel_left, List.getElem?_range hq, Option.map_some]
  · rename_i hout
    rcases Nat.lt_or_ge p (s.current i).size with hlt | hge
    · rw [FS.getElem?_content (by rw [h.size hl]; omega), FS.getElem?_content hlt,
        h.byteAt_out hl hwritten hi htype hout (hdense p hlt)]
    · rw [List.getElem?_eq_none (by rw [FS.length_content, h.size hl]; omega),
        List.getElem?_eq_none (by rwa [FS.length_content])]

end Writes

theorem Extended.other {a : ℕ → ℕ} (h : Extended sb i src off n s t u a) (hl : s.live i) (hne : j ≠ i)
    (hj : j < sb.ninodes) (hjtype : (s.current j).type ≠ .none) :
    t.current j = s.current j ∧ byteAt t.data (t.current j) = byteAt s.data (s.current j) := by
  have hcur := h.wrote.current_other hne
  refine ⟨hcur, funext (fun p => ?_)⟩
  cases hx : byteAt s.data (s.current j) p with
  | some x =>
    rw [hcur]
    exact h.wrote.other hl hne hj hjtype hx
  | none =>
    have hplace := h.filled.other j hne hj hjtype (contentPlace (p / bSize))
    obtain ⟨a', ha'⟩ := h.copied.written.current hl
    rw [ha', update_of_ne hne] at hplace
    have hzero : place s.data (s.current j) (contentPlace (p / bSize)) = 0 := by
      by_contra hc
      exact byteAt_ne_none.2 hc hx
    rw [hcur, h.wrote.data, byteAt, hplace, hzero, if_pos rfl]

theorem Extended.fills {a : ℕ → ℕ} (h : Extended sb i src off n s t u a) (hl : s.live i) :
    Filled sb i (rangePlaces off n) s t := by
  have hbody : t.body i = t.current i := (FS.current_of_live (h.wrote.live hl)).symm
  obtain ⟨a', ha'⟩ := h.copied.written.current hl
  refine ⟨fun l hl' => ?_, fun l hl' => ?_, ?_, fun j hne hj hjtype l => ?_⟩
  · rw [hbody, h.wrote.place_self hl]
    exact h.filled.present l hl'
  · rw [hbody, h.wrote.place_self hl]
    exact h.filled.kept l hl'
  · have hfree : t.free sb = u.free sb := by rw [FS.free, FS.free, h.bitmap]
    rw [hfree]
    exact h.filled.count
  · have hplace := h.filled.other j hne hj hjtype l
    rw [ha', update_of_ne hne] at hplace
    rw [h.wrote.current_other hne, h.wrote.data, hplace]

/-- `readi` and `writei` on an inode without holes. A write is refused where one of the tests
of `writei` fails; otherwise, given a block for every place that lacks one, it replaces and
extends. -/
theorem growable_array (hB : Blocks sb s) (hl : s.live i) (hi : i < sb.ninodes)
    (htype : (s.current i).type ≠ .none) (hdense : s.dense i) (hoff : off < 2 ^ 32)
    (hn : n < 2 ^ 32) (hsrc : ∀ q < n, src q ≠ none) (hdst : ∀ tot m, copyout tot m = true) :
    ((s.current i).size < off ∨ 2 ^ 32 ≤ off + n ∨ maxFile * bSize < off + n →
      Ends (writei sb i src off n) s (fun r t => r = -1 ∧ t = s) E) ∧
    (off ≤ (s.current i).size → off + n < 2 ^ 32 → off + n ≤ maxFile * bSize →
      (s.missing i (rangePlaces off n)).card ≤ (s.free sb).card →
      Ends (writei sb i src off n) s (fun r t => r = n ∧
        t.content i = overwrite (s.content i) off (sourceBytes src n) ∧
        (t.current i).size = max (s.current i).size (off + n) ∧ t.dense i ∧ Blocks sb t ∧
        ∀ j < sb.ninodes, j ≠ i → (s.current j).type ≠ .none →
          t.current j = s.current j ∧ byteAt t.data (t.current j) = byteAt s.data (s.current j)) E) ∧
    Ends (readi sb i copyout off n) s (fun r t => t = s ∧ r =
      if (s.current i).size < off ∨ 2 ^ 32 ≤ off + n then (0, [])
      else (((min n ((s.current i).size - off) : ℕ) : ℤ), ((s.content i).drop off).take n)) E := by
  have hself := FS.current_of_live hl
  refine ⟨?_, ?_, readi_ends hl hdense hoff hn (fun k m _ => hdst k m)⟩
  · intro h
    rw [hself] at h
    exact writei_refused (by omega)
  · intro hle hwrap hmax hfree
    rw [hself] at hle htype
    refine (writei_extends hB hl hi htype hle hwrap hmax hsrc).imp ?_
    rintro r t ⟨hextended, hdone⟩
    obtain rfl := hdone hfree
    obtain ⟨u, a, h⟩ := hextended rfl
    exact ⟨rfl, h.wrote.content hl h.copied.written hi htype hdense, h.wrote.size hl, h.wrote.dense hl hdense,
      h.wrote.blocks, fun j hj hne hjtype => h.other hl hne hj hjtype⟩

theorem fileFs_dense {size : ℕ} (h : size ≤ bSize) : (fileFs size).dense 2 := by
  intro p hp
  have hcur : (fileFs size).current 2 = fileDinode size := rfl
  rw [hcur] at hp ⊢
  have hp : p < size := hp
  rw [byteAt_ne_none, Nat.div_eq_of_lt (by omega)]
  exact Nat.succ_ne_zero 29

/-- A write over the end of the first block, into a second one. -/
theorem growable_array_append :
    Ends (writei fileSb 2 (fun _ => some 7) 1020 10) (fileFs 1024) (fun r t => r = 10 ∧
      t.content 2 = overwrite ((fileFs 1024).content 2) 1020 (List.replicate 10 7) ∧
      (t.current 2).size = 1030 ∧ t.dense 2) (fun _ => False) := by
  have h := (@growable_array fileSb (fileFs 1024) 2 1020 10 (fun _ => some 7) toKernel
    (fun _ => False) (fileFs_blocks 1024) (by decide) (by decide) (by decide) (fileFs_dense le_rfl)
    (by decide) (by decide)
    (fun _ _ => Option.some_ne_none _) (fun _ _ => rfl)).2.1
    (by decide) (by decide) (by decide) (by decide +kernel)
  exact h.mono (fun r t hr => ⟨hr.1, hr.2.1, hr.2.2.1, hr.2.2.2.1⟩) (fun _ h => h)

end Xv6.FileSystem
