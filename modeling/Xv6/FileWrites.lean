import Xv6.FileArrays

/-!
# `filewrite`

The part of `filewrite` of `kernel/file.c` for inodes. The write is cut into transactions of
three blocks, each from `begin_op` to `end_op`, at whatever offset it starts. Every chunk may
be written whole, be refused, or stop short for want of a block.
-/

namespace Xv6.FileWrites

open ByteBlocks FileSystem PanicPrograms

/-- `struct file`, as far as `filewrite` of an inode uses it. -/
structure File where
  writable : Bool
  ip : ℕ
  off : ℕ

structure State where
  fs : FS
  file : File

abbrev W (α : Type) := Program State Panic α

def onFS {α : Type} (m : M α) : W α := zoom State.fs (fun s fs => { s with fs := fs }) m

def maxChunk : ℕ := (maxOpBlocks - 1 - 1 - 2) / 2 * bSize

/-- What `filewrite` does between `begin_op` and `end_op`: `n1` bytes from `addr + i` on go to
the offset, which moves on by what is written. -/
def writeChunk (sb : Superblock) (src : ℕ → Option Byte) (i n1 : ℕ) : W ℤ := do
  let s ← get
  onFS (ilock s.file.ip)
  let r ← onFS (writei sb s.file.ip (fun q => src (i + q)) s.file.off n1)
  if 0 < r then
    modify (fun s => { s with file := { s.file with off := (s.file.off + r.toNat) % 2 ^ 32 } })
  else pure ()
  pure r

/-- The loop of `filewrite`, which returns `i`; `fuel` is at least `n - i`. -/
def filewriteLoop (sb : Superblock) (src : ℕ → Option Byte) (n : ℕ) : ℕ → ℕ → W ℕ
  | 0, i => pure i
  | fuel + 1, i =>
    if i < n then do
      let n1 := min (n - i) maxChunk
      let r ← writeChunk sb src i n1
      if r ≠ n1 then pure i else filewriteLoop sb src n fuel (i + n1)
    else pure i

def filewrite (sb : Superblock) (src : ℕ → Option Byte) (n : ℕ) : W ℤ := do
  let s ← get
  if s.file.writable = false then pure (-1)
  else
    let i ← filewriteLoop sb src n n 0
    pure (if i = n then n else -1)

variable {sb : Superblock} {s t u : State} {src : ℕ → Option Byte} {i j k m n n1 fuel off : ℕ}
  {l a b : List Byte} {E : Panic → Prop}

def State.content (s : State) : List Byte := s.fs.content s.file.ip

structure Ready (sb : Superblock) (s : State) : Prop where
  blocks : Blocks sb s.fs
  live : s.fs.live s.file.ip
  lt : s.file.ip < sb.ninodes
  typed : (s.fs.body s.file.ip).type ≠ .none
  dense : s.fs.dense s.file.ip
  off_lt : s.file.off < 2 ^ 32

/-- A write of `n` bytes at the offset neither leaves a gap nor passes the largest size, and
there are as many free blocks as it has to allocate. -/
def State.room (sb : Superblock) (s : State) (n : ℕ) : Prop :=
  s.file.off ≤ (s.fs.current s.file.ip).size ∧ s.file.off + n ≤ maxFile * bSize ∧
    (s.fs.missing s.file.ip (rangePlaces s.file.off n)).card ≤ (s.fs.free sb).card

@[simp] theorem overwrite_nil : overwrite l off [] = l := by simp [overwrite]

theorem length_overwrite (h : off ≤ l.length) :
    (overwrite l off a).length = max l.length (off + a.length) := by
  simp [overwrite, h]
  omega

theorem overwrite_overwrite (h : off ≤ l.length) :
    overwrite (overwrite l off a) (off + a.length) b = overwrite l off (a ++ b) := by
  refine List.ext_getElem? (fun p => ?_)
  rw [getElem?_overwrite (by rw [length_overwrite h]; omega), getElem?_overwrite h,
    getElem?_overwrite h, List.length_append, List.getElem?_append]
  split_ifs <;> first
    | rfl
    | omega
    | (congr 1; omega)

theorem sourceBytes_add :
    sourceBytes src (m + n) = sourceBytes src m ++ sourceBytes (fun q => src (m + q)) n := by
  rw [sourceBytes, List.range_add, List.map_append, List.map_map]
  rfl

@[simp] theorem length_sourceBytes : (sourceBytes src n).length = n := by simp [sourceBytes]

/-- The first `m` bytes of the source are written at the offset, which has moved behind them. -/
structure Advanced (sb : Superblock) (src : ℕ → Option Byte) (m : ℕ) (s t : State) : Prop where
  ready : Ready sb t
  file : t.file = { s.file with off := s.file.off + m }
  content : t.content = overwrite s.content s.file.off (sourceBytes src m)

theorem Advanced.refl (h : Ready sb s) : Advanced sb src 0 s s :=
  ⟨h, rfl, by simp [sourceBytes]⟩

theorem Advanced.trans (h : Advanced sb src m s t) (hle : s.file.off ≤ s.content.length)
    (h' : Advanced sb (fun q => src (m + q)) n t u) : Advanced sb src (m + n) s u where
  ready := h'.ready
  file := by
    rw [h'.file, h.file]
    simp only [File.mk.injEq, true_and]
    omega
  content := by
    have hover := overwrite_overwrite (a := sourceBytes src m)
      (b := sourceBytes (fun q => src (m + q)) n) hle
    rw [length_sourceBytes] at hover
    rw [h'.content, h.content, h.file, hover, sourceBytes_add]

theorem State.length_content : s.content.length = (s.fs.current s.file.ip).size := FS.length_content

theorem room_add (hfile : t.file = { s.file with off := s.file.off + m })
    (hsize : t.file.off ≤ (t.fs.current t.file.ip).size)
    (hfill : Filled sb s.file.ip (rangePlaces s.file.off m) s.fs t.fs) (hroom : s.room sb m) :
    s.room sb (m + n) ↔ t.room sb n := by
  have hunion := hfill.count_union (Q := rangePlaces (s.file.off + m) n)
  have hcount := hfill.count
  obtain ⟨hoff, hmax, hfree⟩ := hroom
  rw [hfile] at hsize
  simp only [State.room, hfile, rangePlaces_add]
  dsimp only at hsize
  constructor
  · rintro ⟨-, hmax', hfree'⟩
    exact ⟨hsize, by omega, by omega⟩
  · rintro ⟨-, hmax', hfree'⟩
    exact ⟨hoff, by omega, by omega⟩

theorem ilock_live {fs : FS} (h : fs.live i) :
    Ends (ilock i) fs (fun _ t => t = fs) E := by
  simp only [ilock, ends_bind, ends_get]
  rw [if_neg (by have := h.1; omega), if_pos h.2]
  rfl

/-- One chunk: nothing or the first `m` bytes are written, and all of them exactly if there is
room. -/
theorem writeChunk_ends (h : Ready sb s) (hsrc : ∀ q < n, src (i + q) ≠ none) :
    Ends (writeChunk sb src i n) s (fun r t => ∃ m ≤ n, Advanced sb (fun q => src (i + q)) m s t ∧
      (r = m ∨ m = 0 ∧ r = -1) ∧ (r = n ↔ s.room sb n) ∧
      (r = n → Filled sb s.file.ip (rangePlaces s.file.off n) s.fs t.fs)) E := by
  have hself := FS.current_of_live h.live
  simp only [writeChunk, onFS, ends_bind, ends_get, ends_zoom]
  refine (ilock_live h.live).imp ?_
  rintro _ _ rfl
  by_cases hrefused : ((s.fs.body s.file.ip).size < s.file.off ∨
      (s.file.off + n) % 2 ^ 32 < s.file.off) ∨ maxFile * bSize < s.file.off + n
  · refine (writei_refused hrefused).imp ?_
    rintro _ _ ⟨rfl, rfl⟩
    rw [if_neg (by decide)]
    refine ⟨0, Nat.zero_le n, .refl h, .inr ⟨rfl, rfl⟩, ?_, fun hc => absurd hc (by omega)⟩
    refine ⟨fun hc => absurd hc (by omega), ?_⟩
    rintro ⟨hoff, hmax, -⟩
    have hbig : maxFile * bSize < 2 ^ 32 := by decide
    rw [hself] at hoff
    rw [Nat.mod_eq_of_lt (by omega)] at hrefused
    omega
  · obtain ⟨hpass, hmax⟩ := not_or.1 hrefused
    have hbig : maxFile * bSize < 2 ^ 32 := by decide
    have hwrap : s.file.off + n < 2 ^ 32 := by omega
    have hle : s.file.off ≤ (s.fs.body s.file.ip).size := by omega
    refine (writei_puts h.blocks h.live h.lt h.typed hle hwrap (by omega) hsrc).imp ?_
    rintro _ fs ⟨m, v, c, rfl, hput, hend, henough⟩
    have hmn : m ≤ n := by
      have := hput.copied.le
      omega
    have hready : ∀ x, x < 2 ^ 32 → Ready sb { fs := fs, file := { s.file with off := x } } := by
      intro x hx
      refine ⟨hput.wrote.blocks, hput.wrote.live h.live, h.lt, ?_, hput.wrote.dense h.live h.dense,
        hx⟩
      dsimp only
      rw [hput.wrote.body_self]
      exact h.typed
    have hadv : Advanced sb (fun q => src (i + q)) m s
        { fs := fs, file := { s.file with off := s.file.off + m } } :=
      ⟨hready _ (by omega), rfl, hput.wrote.content h.live hput.copied.written h.lt h.typed h.dense⟩
    have hiff : ((m : ℤ) = n) ↔ s.room sb n := by
      constructor
      · intro hm
        have hfill := (hend (by exact_mod_cast hm)).fills h.live
        have := hfill.count
        exact ⟨hself ▸ hle, by omega, by omega⟩
      · rintro ⟨-, -, hfree⟩
        rw [henough hfree]
    refine ends_ite (fun _ => ?_) (fun hzero => ?_)
    · have hmod : (s.file.off + (m : ℤ).toNat) % 2 ^ 32 = s.file.off + m := by
        rw [Int.toNat_natCast, Nat.mod_eq_of_lt (by omega)]
      simp only [ends_bind, ends_modify, ends_pure]
      rw [hmod]
      exact ⟨m, hmn, hadv, .inl rfl, hiff, fun hm => (hend (by exact_mod_cast hm)).fills h.live⟩
    · obtain rfl : m = 0 := by omega
      exact ⟨0, hmn, hadv, .inl rfl, hiff, fun hm => (hend (by exact_mod_cast hm)).fills h.live⟩

theorem maxChunk_pos : 0 < maxChunk := by decide

/-- What the loop guarantees of its result `j`, from `i` on: the first `k` of the bytes to go
are written, and all of them exactly if there is room. Room for more is then left. -/
def Looped (sb : Superblock) (src : ℕ → Option Byte) (n i : ℕ) (s : State) (j : ℕ) (t : State) : Prop :=
  ∃ k ≤ n - i, Advanced sb (fun q => src (i + q)) k s t ∧ (j = n ↔ k = n - i) ∧
    (j = n ↔ i = n ∨ s.room sb (n - i)) ∧ (j = n → ∀ l, s.room sb (n - i + l) → t.room sb l)

theorem State.room.mono (h : s.room sb (m + n)) : s.room sb m := by
  obtain ⟨hoff, hmax, hfree⟩ := h
  refine ⟨hoff, by omega, (Finset.card_le_card (Finset.filter_subset_filter _ ?_)).trans hfree⟩
  rw [rangePlaces_add]
  exact Finset.subset_union_left

theorem Looped.refl (h : Ready sb s) : Looped sb src n n s n s := by
  refine ⟨0, Nat.zero_le _, .refl h, ⟨fun _ => (Nat.sub_self n).symm, fun _ => rfl⟩,
    ⟨.inl, fun _ => rfl⟩, fun _ l hl => ?_⟩
  rwa [Nat.sub_self, Nat.zero_add] at hl

theorem Looped.stop {r : ℤ} (hlt : i < n) (hn1 : 0 < n1) (hle : n1 ≤ n - i) (hm : m ≤ n1)
    (hadv : Advanced sb (fun q => src (i + q)) m s t) (hr : r = m ∨ m = 0 ∧ r = -1)
    (hiff : r = n1 ↔ s.room sb n1) (hne : r ≠ n1) : Looped sb src n i s i t := by
  refine ⟨m, hm.trans hle, hadv, ⟨fun hc => absurd hc hlt.ne, fun hc => ?_⟩,
    ⟨fun hc => absurd hc hlt.ne, fun hc => ?_⟩, fun hc => absurd hc hlt.ne⟩
  · omega
  · rcases hc with hc | hroom
    · exact hc
    · rw [← Nat.add_sub_cancel' hle] at hroom
      exact absurd (hiff.2 hroom.mono) hne

theorem Looped.turn (hle : n1 ≤ n - i) (hi : i < n) (hroom : s.room sb n1)
    (hadv : Advanced sb (fun q => src (i + q)) n1 s t)
    (hfill : Filled sb s.file.ip (rangePlaces s.file.off n1) s.fs t.fs)
    (hrest : Looped sb src n (i + n1) t j u) : Looped sb src n i s j u := by
  obtain ⟨k, hk, hadv', hjk, hjroom, hmore⟩ := hrest
  have hoff : s.file.off ≤ s.content.length := by
    rw [State.length_content]
    exact hroom.1
  have hsize : t.file.off ≤ (t.fs.current t.file.ip).size := by
    rw [← State.length_content, hadv.content, length_overwrite hoff, length_sourceBytes, hadv.file]
    exact le_max_right _ _
  have hsplit : n - i = n1 + (n - (i + n1)) := by omega
  have hadd : ∀ l, s.room sb (n1 + l) ↔ t.room sb l := fun l => room_add hadv.file hsize hfill hroom
  refine ⟨n1 + k, by omega, hadv.trans hoff ?_, ?_, ?_, fun hj l hl => hmore hj l ((hadd _).1 ?_)⟩
  · simpa only [Nat.add_assoc] using hadv'
  · rw [hjk]
    omega
  · rw [hjroom, hsplit, hadd]
    constructor
    · rintro (hin | hin)
      · -- Nothing is left to write.
        have hzero : n - (i + n1) = 0 := by omega
        refine .inr ⟨hsize, ?_, ?_⟩
        · rw [hzero, hadv.file]
          exact hroom.2.1
        · rw [hzero]
          simp [rangePlaces, FS.missing]
      · exact .inr hin
    · rintro (hin | hin)
      · exact absurd hin hi.ne
      · exact .inr hin
  · rwa [← Nat.add_assoc, ← hsplit]

theorem filewriteLoop_ends (h : Ready sb s) (hsrc : ∀ q < n, src q ≠ none) (hi : i ≤ n)
    (hfuel : n - i ≤ fuel) :
    Ends (filewriteLoop sb src n fuel i) s (Looped sb src n i s) E := by
  induction fuel generalizing s i with
  | zero =>
    obtain rfl : i = n := by omega
    exact .refl h
  | succ fuel ih =>
    rw [filewriteLoop]
    refine ends_ite (fun hlt => ?_) (fun hge => ?_)
    · have hpos : 0 < min (n - i) maxChunk := lt_min (by omega) maxChunk_pos
      have hle : min (n - i) maxChunk ≤ n - i := min_le_left _ _
      dsimp only
      generalize min (n - i) maxChunk = n1 at hpos hle ⊢
      refine (writeChunk_ends h (fun q hq => hsrc _ (by omega))).bind ?_
      rintro r t ⟨m, hm, hadv, hr, hiff, hfill⟩
      refine ends_ite (fun hne => .stop hlt hpos hle hm hadv hr hiff hne) (fun heq => ?_)
      have heq := not_not.1 heq
      obtain rfl : m = n1 := by omega
      refine (ih hadv.ready (by omega) (by omega)).imp ?_
      intro j u hrest
      exact .turn hle hlt (hiff.1 heq) hadv (hfill heq) hrest
    · obtain rfl : i = n := by omega
      exact .refl h

/-- The chunks do not show. A write returns `n` exactly if there is room for `n` bytes, and then
leaves the content and the offset that one `writei` of all of them leaves; one that returns -1
has written exactly the first `k` bytes for some `k < n`, and moved the offset by `k`. -/
theorem filewrite_chunks_invisible (h : Ready sb s) (hw : s.file.writable = true)
    (hsrc : ∀ q < n, src q ≠ none) :
    Ends (filewrite sb src n) s (fun r t => (r = n ↔ n = 0 ∨ s.room sb n) ∧
      ((r = n ∧ Ends (writeChunk sb src 0 n) s
        (fun _ t' => t'.content = t.content ∧ t'.file = t.file) (fun _ => False)) ∨
      (r = -1 ∧ ∃ k < n, t.content = overwrite s.content s.file.off (sourceBytes src k) ∧
        t.file = { s.file with off := s.file.off + k }))) (fun _ => False) := by
  simp only [filewrite, ends_bind, ends_get]
  rw [if_neg (by simp [hw]), ends_bind]
  refine (filewriteLoop_ends h hsrc (Nat.zero_le n) le_rfl).imp ?_
  rintro j t ⟨k, hk, hadv, hjk, hroom, -⟩
  simp only [Nat.zero_add, Nat.sub_zero] at hk hadv hjk hroom
  rw [ends_pure]
  by_cases hj : j = n
  · rw [if_pos hj]
    obtain rfl := hjk.1 hj
    refine ⟨iff_of_true rfl ((hroom.1 hj).imp_left Eq.symm), .inl ⟨rfl, ?_⟩⟩
    refine (writeChunk_ends h (by simpa using hsrc)).imp ?_
    rintro r t' ⟨m, hm, hadv', hr, hiff, -⟩
    simp only [Nat.zero_add] at hadv'
    have hmk : m = k := by
      rcases hroom.1 hj with rfl | hroom
      · omega
      · have := hiff.2 hroom
        omega
    subst hmk
    exact ⟨hadv'.content.trans hadv.content.symm, hadv'.file.trans hadv.file.symm⟩
  · rw [if_neg hj]
    have hnot : ¬ (n = 0 ∨ s.room sb n) := fun hin => hj (hroom.2 (hin.imp_left Eq.symm))
    exact ⟨iff_of_false (by omega) hnot, .inr ⟨rfl, k, by omega, hadv.content, hadv.file⟩⟩

def oneBlock (off : ℕ) : State := { fs := fileFs 1024, file := { writable := true, ip := 2, off := off } }

theorem oneBlock_ready (hoff : off < 2 ^ 32) : Ready fileSb (oneBlock off) :=
  ⟨fileFs_blocks 1024, show (fileFs 1024).live 2 by decide, show 2 < 8 by decide,
    show ((fileFs 1024).body 2).type ≠ .none by decide, fileFs_dense le_rfl, hoff⟩

/-- Ten bytes over the end of the file. -/
theorem filewrite_chunks_invisible_append :
    Ends (filewrite fileSb (fun _ => some 7) 10) (oneBlock 1020) (fun r t => r = 10 ∧
      t.content = overwrite (oneBlock 1020).content 1020 (List.replicate 10 7) ∧ t.file.off = 1030)
      (fun _ => False) := by
  have h : Ready fileSb (oneBlock 1020) := oneBlock_ready (by decide)
  have hsrc : ∀ q < 10, (fun _ => some 7 : ℕ → Option Byte) q ≠ none := fun _ _ => Option.some_ne_none _
  have hroom : (oneBlock 1020).room fileSb 10 :=
    ⟨by decide, by decide, show ((fileFs 1024).missing 2 (rangePlaces 1020 10)).card ≤
      ((fileFs 1024).free fileSb).card by decide +kernel⟩
  refine (filewrite_chunks_invisible h rfl hsrc).imp ?_
  rintro r t ⟨hiff, ⟨hr, hchunk⟩ | ⟨hr, -⟩⟩
  · obtain ⟨r', t', -, ⟨hcontent, hfile⟩, m, -, hadv, hm, hwhole, -⟩ :=
      (hchunk.and (writeChunk_ends (i := 0) h hsrc)).exists_ok
    obtain rfl : m = 10 := by
      have := hwhole.2 hroom
      omega
    refine ⟨hr, ?_, ?_⟩
    · rw [← hcontent, hadv.content]
      rfl
    · rw [← hfile, hadv.file]
      rfl
  · have := hiff.2 (.inr hroom)
    omega

end Xv6.FileWrites
