import Mathlib.Data.List.Nodup
import Xv6.RedoLog

/-!
# What a disk redoes to

`Redo g d v lh` says that a recovery of the disk `d`, whose header lists `lh`, ends in
the file system `v`. It speaks of the disk alone, so a crash cannot break it. The
four kinds of block write of `kernel/log.c` are the four lemmas about it; only the
header write changes `v`.
-/

namespace Xv6.RedoLog

open Function

variable {g : Geometry} {d v w : Disk} {lh : List BlockNo} {b : BlockNo} {i tail : ℕ}

theorem Geometry.toNat_block (hi : i < g.size) : (g.block i).toNat = g.start + i := by
  have hfits := g.fits
  simp only [Geometry.block, BitVec.toNat_ofNat]
  exact Nat.mod_eq_of_lt (by omega)

theorem Geometry.inside_block (hi : i < g.size) : g.Inside (g.block i) := by
  rw [Geometry.Inside, Geometry.toNat_block hi]
  omega

theorem Geometry.block_ne {j : ℕ} (hi : i < g.size) (hj : j < g.size) (hne : i ≠ j) :
    g.block i ≠ g.block j := by
  intro h
  have hnat := congrArg BitVec.toNat h
  rw [Geometry.toNat_block hi, Geometry.toNat_block hj] at hnat
  omega

theorem Geometry.ne_block (hb : ¬ g.Inside b) (hi : i < g.size) : b ≠ g.block i := by
  rintro rfl
  exact hb (Geometry.inside_block hi)

theorem readHeader_writeHeader (x : Block) (h : lh.length ≤ logSize) :
    readHeader (writeHeader x lh) = lh := by
  have hcap : logSize = 30 := rfl
  have hwords : wordsPerBlock = 256 := rfl
  have hnat : (BitVec.ofNat 32 lh.length).toNat = lh.length := by
    rw [BitVec.toNat_ofNat, Nat.mod_eq_of_lt (by omega)]
  have hn : (BitVec.ofNat 32 lh.length).toInt.toNat = lh.length := by
    rw [BitVec.toInt_eq_toNat_of_lt (by omega), hnat, Int.toNat_natCast]
  apply List.ext_getElem
  · simp [readHeader, writeHeader, hn]
  · intro i hi hi'
    have hmod : (i + 1) % wordsPerBlock = i + 1 := Nat.mod_eq_of_lt (by omega)
    have hne : Fin.ofNat wordsPerBlock (i + 1) ≠ 0 := by
      intro hz
      have hval := congrArg Fin.val hz
      simp [hmod] at hval
    calc (readHeader (writeHeader x lh))[i]
        = writeHeader x lh (Fin.ofNat wordsPerBlock (i + 1)) := by simp [readHeader]
      _ = lh[i] := by
        rw [writeHeader, if_neg hne]
        simp [hmod, List.getElem?_eq_getElem hi']

/-- The header that the next `read_head` will find. -/
def readHead (g : Geometry) (d : Disk) : List BlockNo := readHeader (d (g.block 0))

theorem readHead_update (hb : b ≠ g.block 0) (x : Block) :
    readHead g (update d b x) = readHead g d := by
  rw [readHead, update_of_ne (Ne.symm hb), readHead]

theorem readHead_writeHeader (x : Block) (h : lh.length ≤ logSize) :
    readHead g (update d (g.block 0) (writeHeader x lh)) = lh := by
  rw [readHead, update_self, readHeader_writeHeader x h]

/-- What `log_write` makes of `log.lh`. -/
structure Loggable (g : Geometry) (lh : List BlockNo) : Prop where
  nodup : lh.Nodup
  outside : ∀ b ∈ lh, ¬ g.Inside b
  room : lh.length < g.size
  cap : lh.length ≤ logSize

/-- With the header `lh` on it, the disk `d` redoes to the file system `v`. -/
structure Redo (g : Geometry) (d v : Disk) (lh : List BlockNo) : Prop where
  head : readHead g d = lh
  outside : ∀ b ∈ lh, ¬ g.Inside b
  room : lh.length < g.size
  logged : ∀ i b, lh[i]? = some b → d (g.block (i + 1)) = v b
  home : ∀ b, ¬ g.Inside b → b ∉ lh → d b = v b

theorem Redo.home_of_nil (h : Redo g d v []) (hb : ¬ g.Inside b) : d b = v b :=
  h.home b hb List.not_mem_nil

/-- Under an erased header the log area is free to be written. -/
theorem Redo.writeLog (h : Redo g d v []) (hi : i + 1 < g.size) (x : Block) :
    Redo g (update d (g.block (i + 1)) x) v [] where
  head := by
    rw [readHead_update (Geometry.block_ne hi g.pos (Nat.succ_ne_zero i)), h.head]
  outside := h.outside
  room := h.room
  logged := by simp
  home b hb _ := by rw [update_of_ne (Geometry.ne_block hb hi), h.home_of_nil hb]

/-- The commit point: one write exchanges the file system that a recovery restores. -/
theorem Redo.writeHead (h : Redo g d v []) (hl : Loggable g lh)
    (hlog : ∀ i b, lh[i]? = some b → d (g.block (i + 1)) = w b)
    (hsame : ∀ b, b ∉ lh → w b = v b) (x : Block) :
    Redo g (update d (g.block 0) (writeHeader x lh)) w lh where
  head := readHead_writeHeader x hl.cap
  outside := hl.outside
  room := hl.room
  logged i b hb := by
    have hi : i < lh.length := (List.getElem?_eq_some_iff.mp hb).1
    have hne := Geometry.block_ne (g := g) (Nat.lt_of_le_of_lt hi hl.room) g.pos (Nat.succ_ne_zero i)
    rw [update_of_ne hne, hlog i b hb]
  home b hb hnot := by
    rw [update_of_ne (Geometry.ne_block hb g.pos), h.home_of_nil hb, hsame b hnot]

/-- Copying a logged block home changes nothing about what the disk redoes to. -/
theorem Redo.install (h : Redo g d v lh) (hb : b ∈ lh) :
    Redo g (update d b (v b)) v lh where
  head := by rw [readHead_update (Geometry.ne_block (h.outside b hb) g.pos), h.head]
  outside := h.outside
  room := h.room
  logged i c hc := by
    have hi : i < lh.length := (List.getElem?_eq_some_iff.mp hc).1
    have hne := Geometry.ne_block (h.outside b hb) (Nat.lt_of_le_of_lt hi h.room)
    rw [update_of_ne (Ne.symm hne), h.logged i c hc]
  home c hc hnot := by
    have hne : c ≠ b := fun he => hnot (he ▸ hb)
    rw [update_of_ne hne, h.home c hc hnot]

theorem Redo.erase (h : Redo g d v lh) (hall : ∀ b ∈ lh, d b = v b) (x : Block) :
    Redo g (update d (g.block 0) (writeHeader x [])) v [] where
  head := readHead_writeHeader x (Nat.zero_le _)
  outside := by simp
  room := g.pos
  logged := by simp
  home b hb _ := by
    rw [update_of_ne (Geometry.ne_block hb g.pos)]
    rcases em (b ∈ lh) with hin | hnot
    · exact hall b hin
    · exact h.home b hb hnot

/-- The cache holds the file system `v` for the pinned blocks `todo` and agrees with the
disk on all others. -/
structure Buffers (s : State) (v : Disk) (todo : List BlockNo) : Prop where
  dirty : ∀ b ∈ todo, s.cache b = some (v b) ∧ 0 < s.pins b
  clean : ∀ b, b ∉ todo → s.buffer b = s.disk b

variable {s t : State} {todo : List BlockNo}

theorem Buffers.buffer_eq (h : Buffers s v todo) (hb : b ∈ todo) : s.buffer b = v b := by
  rw [State.buffer, (h.dirty b hb).1, Option.getD_some]

theorem State.buffer_setCache (s : State) (b c : BlockNo) (x : Option Block) :
    { s with cache := update s.cache b x }.buffer c =
      if c = b then x.getD (s.disk b) else s.buffer c := by
  rcases eq_or_ne c b with rfl | hne
  · simp [State.buffer]
  · simp [State.buffer, hne]

theorem Buffers.bread (h : Buffers s v todo) (b : BlockNo) : Buffers (s.bread b) v todo where
  dirty c hc := by
    refine ⟨?_, (h.dirty c hc).2⟩
    rcases eq_or_ne c b with rfl | hne
    · simp [State.bread, h.buffer_eq hc]
    · simp [State.bread, hne, (h.dirty c hc).1]
  clean c hc := by
    rw [State.bread, State.buffer_setCache]
    split
    · subst c
      exact h.clean b hc
    · exact h.clean c hc

theorem Buffers.evict (h : Buffers s v todo) (hb : s.pins b = 0) :
    Buffers { s with cache := update s.cache b none } v todo where
  dirty c hc := by
    have hne : c ≠ b := by
      rintro rfl
      exact absurd hb (Nat.pos_iff_ne_zero.mp (h.dirty c hc).2)
    simp [hne, h.dirty c hc]
  clean c hc := by
    rw [State.buffer_setCache]
    split
    · subst c
      rfl
    · exact h.clean c hc

theorem Buffers.bwrite (h : Buffers s v todo) (hb : b ∉ todo) (x : Block) :
    Buffers (s.bwrite b x) v todo where
  dirty c hc := by
    have hne : c ≠ b := fun he => hb (he ▸ hc)
    simp [State.bwrite, State.setBuffer, hne, h.dirty c hc]
  clean c hc := by
    rcases eq_or_ne c b with rfl | hne
    · simp [State.bwrite, State.setBuffer, State.buffer]
    · simpa [State.bwrite, State.setBuffer, State.buffer, hne] using h.clean c hc

/-- `install_trans(0)` writes a dirty block home and gives its pin back. -/
theorem Buffers.unpin (h : Buffers s v (b :: todo)) (hb : b ∉ todo) (x : Block) :
    Buffers ((s.bwrite b x).bunpin b) v todo where
  dirty c hc := by
    have hne : c ≠ b := fun he => hb (he ▸ hc)
    have hold := h.dirty c (List.mem_cons_of_mem b hc)
    simp [State.bunpin, State.bwrite, State.setBuffer, hne, hold]
  clean c hc := by
    rcases eq_or_ne c b with rfl | hne
    · simp [State.bunpin, State.bwrite, State.setBuffer, State.buffer]
    · have hold := h.clean c (by simp [hne, hc])
      simpa [State.bunpin, State.bwrite, State.setBuffer, State.buffer, hne] using hold

end Xv6.RedoLog
