import Xv6.FileReads

/-!
# The length of a read

What `fileread` returns and changes, against the length it is given. For pipes and the console
a negative length reads nothing. `readi` takes it for a large one: unless its sum with the
offset wraps, it is cut to the rest of the file, and the rest of the file is read.
-/

namespace Xv6.FileReads

open ByteBlocks FileSystem PanicPrograms UserMem
open VirtualMemory (pgSize maxVa pgRoundDown)

variable {mem mem' : UserMem} {dstva n fuel : ℕ} {bs : List Byte}

/-- The answers that `copyout` gives for copies to `dst` on. -/
def UserMem.accepts (mem : UserMem) (dst : BitVec 64) (tot m : ℕ) : Bool :=
  (copyout (dst + BitVec.ofNat 64 tot).toNat (List.replicate m 0) mem).1

theorem copyoutLoop_congr {cs : List Byte} (hlen : bs.length = cs.length)
    (hmem : mem.writable = mem'.writable) :
    (copyoutLoop fuel dstva bs mem).1 = (copyoutLoop fuel dstva cs mem').1 := by
  induction fuel generalizing dstva bs cs mem mem' with
  | zero => rfl
  | succ fuel ih =>
    have hnil : bs = [] ↔ cs = [] := by
      rw [← List.length_eq_zero_iff, hlen, List.length_eq_zero_iff]
    simp only [copyoutLoop, hnil, hmem, hlen]
    split
    · rfl
    split
    · rfl
    · exact ih (by simp [hlen]) hmem

theorem copyout_accepts {dst : BitVec 64} {tot : ℕ} (hmem : mem.writable = mem'.writable) :
    (copyout (dst + BitVec.ofNat 64 tot).toNat bs mem).1 = mem'.accepts dst tot bs.length := by
  rw [UserMem.accepts, copyout, copyout, List.length_replicate]
  exact copyoutLoop_congr (by simp) hmem

theorem readiLoop_fst {sb : Superblock} {i off tot : ℕ} {dst : BitVec 64} {bs : List Byte}
    (hmem : mem.writable = mem'.writable) :
    Prod.fst <$> readiLoop sb i fuel (dst + BitVec.ofNat 64 tot) off n tot mem =
      Prod.fst <$> FileSystem.readiLoop sb i (mem'.accepts dst) fuel off n tot bs := by
  induction fuel generalizing off n tot mem bs with
  | zero => simp [readiLoop, FileSystem.readiLoop]
  | succ fuel ih =>
    rw [readiLoop, FileSystem.readiLoop]
    split
    · simp
    rw [map_bind, map_bind]
    congr 1
    funext addr
    split
    · simp
    rw [map_bind, map_bind]
    congr 1
    funext s
    dsimp only
    rw [copyout_accepts hmem, length_slice]
    split
    · rw [BitVec.add_assoc, ← BitVec.ofNat_add]
      exact ih ((copyout_within _ _ _).writable.trans hmem)
    · simp

theorem readi_fst {sb : Superblock} {i off : ℕ} {dst : BitVec 64} :
    Prod.fst <$> readi sb i dst off n mem =
      Prod.fst <$> FileSystem.readi sb i (mem.accepts dst) off n := by
  rw [readi, FileSystem.readi, map_bind, map_bind]
  congr 1
  funext s
  split
  · simp
  · have h := fun k => @readiLoop_fst mem mem k k sb i off 0 dst [] rfl
    simp only [BitVec.add_zero] at h
    exact h _

/-- The file is of a type that can be read. An inode is referenced and allocated, and not
larger than a file can be. -/
def State.usable (s : State) : Prop :=
  s.file.type ≠ .none ∧ (s.file.type = .inode → 0 < (s.fs.inode s.file.ip).ref ∧
    (s.fs.current s.file.ip).type ≠ .none ∧ (s.fs.current s.file.ip).size ≤ maxFile * bSize)

/-- A call returns at most the length, and changes bytes in the range given by it only. -/
def Respects (sb : Superblock) (waits : Waits) (addr : BitVec 64) (n : BitVec 32) (s : State) : Prop :=
  Ends (fileread sb waits addr n) s (fun r t => r ≤ max n.toInt 0 ∧
    ∀ a, t.mem.byte a ≠ s.mem.byte a → addr.toNat ≤ a ∧ (a : ℤ) < addr.toNat + n.toInt)
    (fun _ => ¬ s.usable)

/-- For an inode, the length is not negative, or nothing is left to read, or the sum of offset
and length wraps. -/
def State.lengthOk (s : State) (n : BitVec 32) : Prop :=
  s.file.type = .inode → 0 ≤ n.toInt ∨ (s.fs.current s.file.ip).size ≤ s.file.off.toNat ∨
    -n.toInt ≤ s.file.off.toNat

variable {sb : Superblock} {s : State}

theorem ilock_loads {fs : FS} {i : ℕ} {E : Panic → Prop}
    (hE : ∀ e, ¬ (0 < (fs.inode i).ref ∧ (fs.current i).type ≠ .none) → E e) :
    Ends (ilock i) fs (fun _ t => t.live i ∧ t.body i = fs.current i ∧ t.data = fs.data) E := by
  simp only [ilock, ends_bind, ends_get]
  refine ends_ite (fun href => hE _ (by omega)) (fun href => ?_)
  refine ends_ite (fun hvalid => ?_) (fun hvalid => ?_)
  · have hl : fs.live i := ⟨by omega, hvalid⟩
    exact ⟨hl, (FS.current_of_live hl).symm, rfl⟩
  · have hcur := FS.current_of_not_live (s := fs) (i := i) (fun hl => hvalid hl.2)
    simp only [ends_bind, ends_modify]
    refine ends_ite (fun hnone => hE _ ?_) (fun _ => ?_)
    · rintro ⟨-, htype⟩
      rw [hcur] at htype
      exact htype hnone
    · rw [hcur]
      refine ⟨⟨?_, ?_⟩, ?_, rfl⟩
      · simp only [FS.setInode, Function.update_self]
        omega
      · simp [FS.setInode]
      · simp [FS.body, FS.setInode]

theorem respects_of_within {mem : UserMem} {addr : BitVec 64} {n : BitVec 32}
    (h : UserMem.Within s.mem mem addr.toNat n.toInt.toNat) (a : ℕ) (ha : mem.byte a ≠ s.mem.byte a) :
    addr.toNat ≤ a ∧ (a : ℤ) < addr.toNat + n.toInt := by
  have := h.byte a ha
  omega

theorem fileread_respects {n : BitVec 32} (h : s.lengthOk n) (waits : Waits) (addr : BitVec 64) :
    Respects sb waits addr n s := by
  have hfail : (-1 : ℤ) ≤ max n.toInt 0 := by omega
  simp only [Respects, fileread, ends_bind, ends_get]
  refine ends_ite (fun _ => ⟨hfail, fun a ha => absurd rfl ha⟩) (fun _ => ?_)
  cases htype : s.file.type with
  | none => exact fun husable => husable.1 htype
  | pipe =>
    obtain ⟨hret, hwithin⟩ := piperead_within waits.pipe addr n s.pipe s.mem
    exact ⟨hret, respects_of_within hwithin⟩
  | device =>
    refine ends_ite (fun _ => ⟨hfail, fun a ha => absurd rfl ha⟩) (fun _ => ?_)
    obtain ⟨hret, hwithin⟩ := consoleread_within waits.cons addr n s.cons s.mem
    exact ⟨hret, respects_of_within hwithin⟩
  | inode =>
    simp only [ends_bind, onFS, ends_zoom]
    refine (ilock_loads (fun e hc husable => hc ?_)).imp ?_
    · exact ⟨(husable.2 htype).1, (husable.2 htype).2.1⟩
    rintro _ fs ⟨-, hbody, -⟩
    have hlen : n.toNat ≤ n.toInt.toNat ∨ (fs.body s.file.ip).size ≤ s.file.off.toNat ∨
        2 ^ 32 ≤ s.file.off.toNat + n.toNat := by
      rw [hbody]
      have hint := BitVec.toInt_eq_toNat_cond n
      rcases h htype with hpos | hsize | hwrap
      · split at hint <;> omega
      · exact .inr (.inl hsize)
      · split at hint <;> omega
    refine (readi_within s.file.off.isLt n.isLt hlen (fun e hbig husable => ?_)).imp ?_
    · rw [hbody] at hbig
      have := (husable.2 htype).2.2
      omega
    rintro ⟨r, mem⟩ fs' ⟨hret, hwithin⟩
    have hret : r ≤ max n.toInt 0 := by
      dsimp only at hret
      omega
    refine ends_ite (fun _ => ?_) (fun _ => ?_)
    · exact ⟨hret, respects_of_within hwithin⟩
    · exact ⟨hret, respects_of_within hwithin⟩

/-- Memory of which every page can be written. -/
def openMem : UserMem := ⟨fun _ => true, fun _ => 0⟩

theorem copyoutLoop_openMem {mem : UserMem} {bs : List Byte} {dstva fuel : ℕ}
    (hmem : mem.writable = openMem.writable) (h : dstva + bs.length ≤ maxVa) :
    (copyoutLoop fuel dstva bs mem).1 = true := by
  induction fuel generalizing dstva bs mem with
  | zero => rfl
  | succ fuel ih =>
    rw [copyoutLoop]
    split
    · rfl
    rename_i hne
    have hpos := List.length_pos_of_ne_nil hne
    have hle := pgRoundDown_le dstva
    have hlt := lt_pgRoundDown dstva
    have hpg := pgRoundDown_add_le (show pgRoundDown dstva < maxVa by omega)
    dsimp only
    rw [if_neg (by rw [hmem]; simp [openMem]; omega)]
    refine ih hmem ?_
    rw [List.length_drop]
    omega

theorem accepts_openMem {k m : ℕ} (h : k + m ≤ maxVa) : openMem.accepts 0 k m = true := by
  have hmax : maxVa < 2 ^ 64 := by decide
  have hk : ((0 : BitVec 64) + BitVec.ofNat 64 k).toNat = k := by
    rw [zero_add, BitVec.toNat_ofNat, Nat.mod_eq_of_lt (by omega)]
  rw [UserMem.accepts, hk]
  exact copyoutLoop_openMem rfl (by simpa using h)

/-- A negative length reads the rest of the file. -/
theorem fileread_rest {n : BitVec 32} (waits : Waits) (htype : s.file.type = .inode)
    (hread : s.file.readable = true) (hs : s.usable) (hdense : s.fs.dense s.file.ip)
    (hneg : n.toInt < 0) (hoff : s.file.off.toNat < (s.fs.current s.file.ip).size)
    (hwrap : (s.file.off.toNat : ℤ) < -n.toInt) :
    Ends (fileread sb waits 0 n) { s with mem := openMem } (fun r _ =>
      r = ((s.fs.current s.file.ip).size - s.file.off.toNat : ℕ)) (fun _ => False) := by
  obtain ⟨href, hsome, hsize⟩ := hs.2 htype
  simp only [fileread, ends_bind, ends_get, hread, htype, onFS]
  rw [if_neg (by decide)]
  simp only [ends_bind, ends_zoom]
  refine (ilock_loads (fun _ hc => hc ⟨href, hsome⟩)).imp ?_
  rintro _ fs ⟨hl, hbody, hdata⟩
  have hcur : fs.current s.file.ip = s.fs.current s.file.ip := (FS.current_of_live hl).trans hbody
  have hmax : maxFile * bSize ≤ maxVa := by decide
  have hfs : fs.dense s.file.ip := by
    intro p hp
    rw [hcur] at hp ⊢
    rw [hdata]
    exact hdense p hp
  have haccepts : ∀ k m, k + m ≤ (fs.current s.file.ip).size → openMem.accepts 0 k m = true :=
    fun k m hle => accepts_openMem (by rw [hcur] at hle; omega)
  have hmap : Ends (Prod.fst <$> readi sb s.file.ip 0 s.file.off.toNat n.toNat openMem) fs
      (fun r _ => r = ((s.fs.current s.file.ip).size - s.file.off.toNat : ℕ)) (fun _ => False) := by
    rw [readi_fst, ends_map]
    refine (readi_ends hl hfs s.file.off.isLt n.isLt haccepts).imp ?_
    rintro r _ ⟨-, rfl⟩
    rw [hcur]
    have hint := BitVec.toInt_eq_toNat_cond n
    have hbig : maxFile * bSize < 2 ^ 31 := by decide
    split at hint
    · omega
    · rw [if_neg (by omega)]
      dsimp only
      congr 1
      omega
  rw [ends_map] at hmap
  refine hmap.imp ?_
  rintro ⟨r, mem⟩ fs' hr
  exact ends_ite (fun _ => hr) (fun _ => hr)

/-- `fileread` respects its length as long as a negative one is not taken for a large one by
`readi`. For a readable file without holes, it does so at every address and for every memory
only then. -/
theorem fileread_respects_length (s : State) (n : BitVec 32) :
    (s.lengthOk n → ∀ waits addr, Respects sb waits addr n s) ∧
    (s.file.readable = true → s.usable → s.fs.dense s.file.ip →
      (∀ waits addr mem, Respects sb waits addr n { s with mem := mem }) → s.lengthOk n) := by
  refine ⟨fun h waits addr => fileread_respects h waits addr, ?_⟩
  intro hread husable hdense hall htype
  by_contra hc
  push Not at hc
  obtain ⟨hneg, hoff, hwrap⟩ := hc
  obtain ⟨r, t, hrun, hr⟩ := (@fileread_rest sb s n ⟨fun _ => none, fun _ => none⟩ htype hread husable
    hdense hneg hoff hwrap).exists_ok
  obtain ⟨hle, -⟩ := (hall ⟨fun _ => none, fun _ => none⟩ 0 openMem).of_ok hrun
  rw [hr] at hle
  omega

/-- A file of one byte, open for reading, and memory of ones. -/
def oneByte : State where
  file := { type := .inode, readable := true, ip := 2, off := 0, major := 0 }
  fs := fileFs 1
  pipe := ⟨fun _ => 0, 0, 0⟩
  cons := ⟨fun _ => 0, 0, 0, 0, []⟩
  mem := ⟨fun _ => true, fun _ => 255⟩

/-- A read of one byte respects its length. The file can be read and has no holes, so a read of
length -1 does not, for some memory. -/
theorem fileread_respects_one : Respects fileSb ⟨fun _ => none, fun _ => none⟩ 0 1 oneByte ∧
    (oneByte.file.readable = true ∧ oneByte.usable ∧ oneByte.fs.dense oneByte.file.ip) ∧
    ¬ ∀ waits addr mem, Respects fileSb waits addr (-1) { oneByte with mem := mem } := by
  have husable : oneByte.usable := ⟨by decide, fun _ => by decide⟩
  have hdense : oneByte.fs.dense oneByte.file.ip := by
    intro p hp
    obtain rfl : p = 0 := Nat.lt_one_iff.1 hp
    decide +kernel
  refine ⟨(fileread_respects_length oneByte 1).1 (fun _ => .inl (by decide)) _ 0, ⟨rfl, husable, hdense⟩,
    fun h => ?_⟩
  exact absurd ((fileread_respects_length oneByte (-1)).2 rfl husable hdense h rfl) (by decide)

/-- `read(fd, buf, -1)` copies the file to the buffer. -/
theorem fileread_minus_one : ¬ Respects fileSb ⟨fun _ => none, fun _ => none⟩ 0 (-1) oneByte ∧
    ∃ t, fileread fileSb ⟨fun _ => none, fun _ => none⟩ 0 (-1) oneByte = .ok (1, t) ∧
      oneByte.mem.byte 0 = 255 ∧ t.mem.byte 0 = 0 := by
  have hrun : (fileread fileSb ⟨fun _ => none, fun _ => none⟩ 0 (-1) oneByte).toOption.map
      (fun x => (x.1, x.2.mem.byte 0)) = some (1, 0) := by decide +kernel
  cases hok : fileread fileSb ⟨fun _ => none, fun _ => none⟩ 0 (-1) oneByte with
  | error e =>
    rw [hok] at hrun
    cases hrun
  | ok x =>
    obtain ⟨r, t⟩ := x
    rw [hok] at hrun
    have hrun : (r, t.mem.byte 0) = (1, 0) := Option.some.inj hrun
    obtain ⟨rfl, hbyte⟩ := Prod.mk.inj hrun
    refine ⟨fun h => ?_, t, rfl, rfl, hbyte⟩
    exact absurd (h.of_ok hok).1 (by decide)

end Xv6.FileReads
