import Xv6.DirectoryEntries

/-!
# Writes that stop early

`writei` copies a block-sized piece of the source into the buffer and asks afterwards
whether the copy succeeded. The bytes of a copy that failed stay in the buffer, and are
not counted.
-/

namespace Xv6.FileSystem

open ByteBlocks PanicPrograms SlotOwnership

variable {sb : Superblock} {s t u : FS} {i off n m c p q : ℕ} {src : ℕ → Option Byte} {x : Byte}
  {E : Panic → Prop}

/-- A `readi` of the one byte at `p` returns `x`, and leaves the state as it is. -/
def Shows (sb : Superblock) (i : ℕ) (s : FS) (p : ℕ) (x : Byte) : Prop :=
  Ends (readi sb i toKernel p 1) s (fun r t => t = s ∧ r = (1, [x])) (fun _ => False)

theorem Shows.unique {y : Byte} (h : Shows sb i s p x) (h' : Shows sb i s p y) : x = y := by
  obtain ⟨r, t, hr, -, rfl⟩ := h.exists_ok
  simpa using (h'.of_ok hr).2

theorem shows_of_byteAt (hp : p < (s.body i).size) (hx : byteAt s.data (s.body i) p = some x) :
    Shows sb i s p x := by
  have hmaxsize : maxFile * bSize = 274432 := rfl
  have hpres : byteAt s.data (s.body i) p ≠ none := by simp [hx]
  have hlt := byteAt_lt hpres
  obtain ⟨hne, hdata⟩ := byteAt_eq_some.1 hx
  have hbn : p / bSize < maxFile := (Nat.div_lt_iff_lt_mul (by decide)).2 hlt
  have hmod : p % bSize < bSize := Nat.mod_lt _ (by decide)
  simp only [Shows, readi, ends_bind, ends_get]
  rw [if_neg (by rw [Nat.mod_eq_of_lt (by omega)]; omega), if_neg (by omega)]
  refine (readiLoop_block one_pos hbn (by omega) hne).imp ?_
  rintro _ t ⟨rfl, rfl⟩
  simp [slice, hdata]

theorem Shows.lt (h : Shows sb i s p x) : p < (s.body i).size := by
  by_contra hge
  have hzero : (s.body i).size - p = 0 := by omega
  simp only [Shows, readi, ends_bind, ends_get] at h
  split at h
  · simp at h
  · rw [if_pos (by omega), hzero] at h
    simp [readiLoop] at h

theorem Shows.present (h : Shows sb i s p x) (hB : Blocks sb s) (hl : s.live i)
    (hi : i < sb.ninodes) (htype : (s.body i).type ≠ .none) :
    byteAt s.data (s.body i) p ≠ none := by
  have hp := h.lt
  rw [byteAt_ne_none]
  intro hempty
  simp only [Shows, readi, ends_bind, ends_get] at h
  split at h
  · simp at h
  rw [if_neg (by omega), readiLoop, if_neg one_ne_zero, ends_bind] at h
  by_cases hbn : p / bSize < maxFile
  · obtain ⟨a, t, hr, hrest⟩ := h.exists_ok
    have haddr := ((bmap_ends (E := fun _ => False) hB hl hi htype hbn).of_ok hr).addr
    split at hrest
    · simp at hrest
    · rename_i hne
      have hmod : p % bSize < bSize := Nat.mod_lt _ (by decide)
      simp only [ends_bind, ends_get, toKernel, if_true, readiLoop, ends_pure] at hrest
      rw [hrest.1, hempty] at haddr
      exact hne (haddr hne).symm
  · have hmax : maxFile = nDirect + nIndirect := rfl
    simp only [bmap, ends_bind, ends_get] at h
    rw [if_neg (by omega), if_neg (by omega)] at h
    exact h

/-- The bytes that `readi` shows are those below the size whose block is there. -/
theorem shows_iff (hB : Blocks sb s) (hl : s.live i) (hi : i < sb.ninodes)
    (htype : (s.body i).type ≠ .none) :
    Shows sb i s p x ↔ p < (s.body i).size ∧ byteAt s.data (s.body i) p = some x := by
  constructor
  · intro h
    obtain ⟨y, hy⟩ := Option.ne_none_iff_exists'.1 (h.present hB hl hi htype)
    rw [h.unique (shows_of_byteAt h.lt hy)]
    exact ⟨h.lt, hy⟩
  · rintro ⟨hp, hx⟩
    exact shows_of_byteAt hp hx

/-- What a write that returns `tot` reports: the bytes it has written, with every other byte
that was in the file as it was. -/
structure Reported (sb : Superblock) (i : ℕ) (src : ℕ → Option Byte) (off tot : ℕ) (s t : FS) :
    Prop where
  bytes : ∀ q < tot, ∃ x, src q = some x ∧ Shows sb i t (off + q) x
  kept : ∀ p x, ¬ (off ≤ p ∧ p < off + tot) → Shows sb i s p x → Shows sb i t p x
  size : (t.body i).size = max (s.body i).size (off + tot)

/-- Where the first source byte that cannot be read belongs into a block that the write gets, the
source bytes before it agree with the bytes of that block that are in the file. -/
def Harmless (sb : Superblock) (i : ℕ) (src : ℕ → Option Byte) (off n : ℕ) (s : FS) : Prop :=
  ∀ f < n, src f = none → (∀ q < f, src q ≠ none) →
    (s.missing i (rangePlaces off (f + 1))).card ≤ (s.free sb).card →
    ∀ q < f, (off + q) / bSize = (off + f) / bSize → ∀ x, Shows sb i s (off + q) x → src q = some x

theorem rangePlaces_same (hle : m ≤ q) (hblock : (off + q) / bSize = (off + m) / bSize) :
    rangePlaces off (q + 1) = rangePlaces off (m + 1) := by
  have hb : bSize = 1024 := rfl
  have hfit : (off + m) % bSize + (q + 1 - m) ≤ bSize := by
    rw [hb] at hblock ⊢
    omega
  have hmod : (off + m) % bSize < bSize := Nat.mod_lt _ (by decide)
  rw [show q + 1 = m + (q + 1 - m) by omega, rangePlaces_add, rangePlaces_add,
    rangePlaces_block (by omega) hfit, rangePlaces_block one_pos (by omega)]

theorem Copied.readable (h : Copied sb i src off n 0 s t m c) : ∀ q < m + c, src q ≠ none := by
  intro q hq
  have := (h.bytes q hq).1
  rwa [Nat.zero_add] at this

section Copied

variable {a : ℕ → ℕ} (hl : s.live i) (hi : i < sb.ninodes) (htype : (s.body i).type ≠ .none)
  (hB : Blocks sb s) (hw : Wrote sb i src off n s t m u a) (hc : Copied sb i src off n 0 s u m c)

include hl hw in
theorem Wrote.live : t.live i := by
  have h : (s.setBody i ((s.body i).grown a (off + m))).live i := FS.live_setBody.2 hl
  simpa only [FS.live, hw.inode] using h

include hw in
theorem Wrote.body_self : t.body i = (s.body i).grown a (off + m) := by
  have h : (s.setBody i ((s.body i).grown a (off + m))).body i = (s.body i).grown a (off + m) :=
    FS.body_setBody_self
  simpa only [FS.body, hw.inode] using h

include hw in
theorem Wrote.byteAt_self (p : ℕ) : byteAt t.data (t.body i) p = byteAt u.data (u.body i) p := by
  refine byteAt_congr ?_ (fun _ => by rw [hw.data])
  refine place_congr ?_ (fun _ => by rw [hw.data])
  rw [hw.body_self, hw.body]
  rfl

include hl hi htype hw in
theorem Wrote.shows_iff : Shows sb i t p x ↔
    p < max (s.body i).size (off + m) ∧ byteAt u.data (u.body i) p = some x := by
  rw [FileSystem.shows_iff hw.blocks (hw.live hl) hi (by rwa [hw.body_self]), hw.byteAt_self,
    hw.body_self]
  rfl

include hc in
/-- What is known of the first byte that cannot be read, if the write gets its block: the copy has
come up to it. -/
theorem Copied.first_unread {f : ℕ} (hf : f < n) (hunread : src f = none) (hfirst : ∀ q < f, src q ≠ none)
    (hfree : (s.missing i (rangePlaces off (f + 1))).card ≤ (s.free sb).card) :
    f = m + c ∧ (off + f) / bSize = (off + m) / bSize := by
  have hge : m + c ≤ f := not_lt.1 fun hlt => hc.readable f hlt hunread
  cases hc.stop with
  | all h _ => omega
  | full _ _ hfew => exact absurd ((FS.card_missing_mono (rangePlaces_mono (by omega))).trans hfree) hfew
  | failed _ hnone hblock _ =>
    rw [Nat.zero_add] at hnone
    obtain rfl : f = m + c := le_antisymm (not_lt.1 fun hlt => hfirst _ hlt hnone) hge
    exact ⟨rfl, hblock⟩

include hl hi htype hB hw hc in
/-- A write leaves what it reports exactly if the copy that made it stop has changed no byte. -/
theorem Wrote.reported_iff : Reported sb i src off m s t ↔ Harmless sb i src off n s := by
  have hself := FS.current_of_live hl
  have hshows : ∀ {p x}, Shows sb i s p x ↔ p < (s.body i).size ∧ byteAt s.data (s.body i) p = some x :=
    FileSystem.shows_iff hB hl hi htype
  -- A byte that was there and is not copied over is still there.
  have hkept : ∀ p x, ¬ (off ≤ p ∧ p < off + (m + c)) → byteAt s.data (s.body i) p = some x →
      byteAt u.data (u.body i) p = some x := by
    intro p x hp hx
    rw [← hself] at hx
    have hux := hc.written.bytes i hi (by rwa [hself]) p x (fun h => hp h.2) hx
    rwa [FS.current_of_live (hc.written.live.2 hl)] at hux
  constructor
  · intro h f hf hunread hfirst hfree q hqf hblock x hx
    obtain ⟨rfl, hdiv⟩ := hc.first_unread hf hunread hfirst hfree
    -- The write stopped at the start of the block.
    have hmq : m ≤ q := by
      rcases hc.boundary with rfl | rfl | hbound
      · omega
      · omega
      · have hb : bSize = 1024 := rfl
        rw [hb] at hbound hblock hdiv
        omega
    have htx := ((hw.shows_iff hl hi htype).1 (h.kept _ _ (by omega) hx)).2
    rwa [(hc.bytes q hqf).2, Nat.zero_add] at htx
  · intro h
    refine ⟨?_, ?_, by rw [hw.body_self]; rfl⟩
    · intro q hq
      obtain ⟨hsome, hbyte⟩ := hc.bytes q (by omega)
      rw [Nat.zero_add] at hsome hbyte
      obtain ⟨x, hx⟩ := Option.ne_none_iff_exists'.1 hsome
      exact ⟨x, hx, (hw.shows_iff hl hi htype).2 ⟨by omega, hbyte.trans hx⟩⟩
    · intro p x hp hx
      obtain ⟨hlt, hbyte⟩ := hshows.1 hx
      refine (hw.shows_iff hl hi htype).2 ⟨by omega, ?_⟩
      by_cases hin : off ≤ p ∧ p < off + (m + c)
      · -- The byte was copied over, by a copy that failed.
        obtain ⟨q, rfl⟩ := Nat.exists_eq_add_of_le hin.1
        have hq : q < m + c := by omega
        rw [(hc.bytes q hq).2, Nat.zero_add]
        cases hc.stop with
        | all h _ => omega
        | full h _ _ => omega
        | failed hfn hunread hblock hfilled =>
          rw [Nat.zero_add] at hunread
          have hdiv : (off + q) / bSize = (off + (m + c)) / bSize := by
            rw [hblock]
            exact le_antisymm (hblock ▸ Nat.div_le_div_right (by omega)) (Nat.div_le_div_right (by omega))
          refine h (m + c) hfn hunread hc.readable ?_ q hq hdiv x hx
          have hcount := hfilled.count
          rw [rangePlaces_same (Nat.le_add_right m c) hblock]
          omega
      · exact hkept p x hin hbyte

end Copied

/-- `writei` returns how much it has written, and leaves what that reports exactly if the copy of
the block with the first unreadable byte changes nothing. -/
theorem short_write (hB : Blocks sb s) (hl : s.live i) (hi : i < sb.ninodes)
    (htype : (s.body i).type ≠ .none) :
    Ends (writei sb i src off n) s (fun r t => ∀ tot : ℕ, r = tot →
      tot ≤ n ∧ (Reported sb i src off tot s t ↔ Harmless sb i src off n s)) E := by
  refine (writei_copied hB hl hi htype).imp ?_
  rintro r t (⟨rfl, -⟩ | ⟨m, u, a, rfl, hw, c, hc⟩) tot htot
  · omega
  · obtain rfl : m = tot := by exact_mod_cast htot
    exact ⟨hw.stored.le, hw.reported_iff hl hi htype hB hc⟩

/-- A disk with one file of `size` bytes, in block 30, that is open. -/
def fileSb : Superblock :=
  { size := 40, nblocks := 10, ninodes := 8, nlog := 3, logstart := 2, inodestart := 5, bmapstart := 6 }

def fileDinode (size : ℕ) : Dinode :=
  { newDinode .file with nlink := 1, size := size, addrs := fun k => if k = 0 then 30 else 0 }

def fileFs (size : ℕ) : FS where
  bitmap := fun b => b < 31
  dinode := fun i => if i = 2 then fileDinode size else newDinode .none
  data := fun b => if b = 30 then fun j => BitVec.ofNat 8 j else zeros
  inode := fun i => { ref := if i = 2 then 1 else 0, valid := true, body := fileDinode size }
  active := 1
  logged := []

theorem slot_fileFs (size : ℕ) (x : ℕ × ℕ) :
    (fileFs size).slot fileSb x = if x = (2, 0) then 30 else 0 := by
  obtain ⟨i, k⟩ := x
  have hind : (fileDinode size).addrs nDirect = 0 := rfl
  by_cases hi : i = 2
  · subst hi
    have hcur : (fileFs size).current 2 = fileDinode size := rfl
    rw [FS.slot_eq (by decide) (by simp [hcur, fileDinode, newDinode]), hcur, place, hind]
    split
    · simp [fileDinode]
    · rename_i hk
      simp [show k ≠ 0 by omega]
  · have hcur : (fileFs size).current i = newDinode .none := by
      simp [FS.current, FS.live, fileFs, hi]
    simp [FS.slot, hcur, newDinode, hi]

theorem fileFs_blocks (size : ℕ) : Blocks fileSb (fileFs size) where
  sane := ⟨by decide, by decide, by decide⟩
  owned := by
    refine ⟨fun x => ?_, fun x y => ?_, fun b hlo hhi => ?_⟩
    · rw [slot_fileFs]
      split
      · exact fun _ => by decide
      · exact fun h => absurd rfl h
    · simp only [slot_fileFs]
      intro hx heq
      split_ifs at hx heq with h1 h2 <;> simp_all
    · have hstart : 30 ≤ b := hlo
      have hbit : (fileFs size).bitmap b = true ↔ b = 30 := by
        simp only [fileFs, decide_eq_true_eq]
        omega
      rw [hbit]
      constructor
      · rintro rfl
        exact ⟨(2, 0), slot_fileFs size _⟩
      · rintro ⟨x, rfl⟩
        rw [slot_fileFs] at hstart ⊢
        split
        · rfl
        · rename_i hx
          rw [if_neg hx] at hstart
          omega
  reserved := by
    intro b hb
    have hb' : b < 30 := hb
    simp only [fileFs, decide_eq_true_eq]
    omega

/-- A source of which the first four bytes can be read: the page ends there. -/
def endOfPage (j : ℕ) : Option Byte := if j < 4 then some (BitVec.ofNat 8 (100 + j)) else none

theorem short_write_append :
    Ends (writei fileSb 2 endOfPage 16 8) (fileFs 16)
      (fun r t => r = 0 ∧ Reported fileSb 2 endOfPage 16 0 (fileFs 16) t) (fun _ => False) := by
  have hval : (writei fileSb 2 endOfPage 16 8 (fileFs 16)).map Prod.fst = .ok 0 := by decide +kernel
  have hwrite : Ends (writei fileSb 2 endOfPage 16 8) (fileFs 16) (fun r t => ∀ tot : ℕ, r = tot →
      tot ≤ 8 ∧ (Reported fileSb 2 endOfPage 16 tot (fileFs 16) t ↔
        Harmless fileSb 2 endOfPage 16 8 (fileFs 16))) (fun _ => False) :=
    short_write (fileFs_blocks 16) (by decide) (by decide) (by decide)
  obtain ⟨r, t, hr, h⟩ := hwrite.exists_ok
  rw [hr] at hval
  obtain rfl : r = 0 := Except.ok.inj hval
  -- The file has no byte where the copy failed.
  have hagrees : Harmless fileSb 2 endOfPage 16 8 (fileFs 16) := by
    intro f _ _ _ _ q _ _ x hx
    have hlt : 16 + q < 16 := hx.lt
    omega
  exact ends_of_ok hr ⟨rfl, (h 0 rfl).2.2 hagrees⟩

/-- A write of eight bytes over the start of the file, of which the second half cannot be
read, returns 0 and has changed the first four bytes. -/
theorem failed_copy_shows :
    ∃ t, writei fileSb 2 endOfPage 0 8 (fileFs 16) = .ok (0, t) ∧
      ¬ Reported fileSb 2 endOfPage 0 0 (fileFs 16) t := by
  have hval : (writei fileSb 2 endOfPage 0 8 (fileFs 16)).map
      (fun r => (r.1, (r.2.body 2).size, byteAt r.2.data (r.2.body 2) 0)) =
        .ok (0, 16, some 100) := by decide +kernel
  obtain ⟨⟨r, t⟩, hr, hval⟩ := exists_of_map_ok hval
  simp only [Prod.mk.injEq] at hval
  obtain ⟨rfl, hsize, hbyte⟩ := hval
  refine ⟨t, hr, fun h => ?_⟩
  have hbefore : Shows fileSb 2 (fileFs 16) 0 0 := shows_of_byteAt (by decide) (by decide)
  have hafter : Shows fileSb 2 t 0 100 := shows_of_byteAt (by omega) hbyte
  exact absurd ((h.kept 0 0 (by omega) hbefore).unique hafter) (by decide)

end Xv6.FileSystem
