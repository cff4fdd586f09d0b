import Xv6.FileReads
import Xv6.UserTranslation

/-!
# Copies between the kernel and the user

`copyin` and `copyinstr` of `kernel/vm.c`, and what they and `copyout` do in terms of single
addresses.
-/

namespace Xv6.VirtualMemory

open ByteBlocks PanicPrograms RadixTables

variable {F : Type}

/-- The loop of `copyin`; `fuel` is at least the number of bytes. `dst` is what has been stored. -/
def copyinLoop (pt : PageTable F) : ℕ → ℕ → ℕ → List Byte → M F (Bool × List Byte)
  | 0, _, _, dst => pure (true, dst)
  | fuel + 1, srcva, len, dst =>
    if len = 0 then pure (true, dst)
    else
      let va0 := pgRoundDown srcva
      do
        match ← walkaddr pt va0 with
        | none => pure (false, dst)
        | some page =>
          let n := min (pgSize - (srcva - va0)) len
          let s ← get
          copyinLoop pt fuel (va0 + pgSize) (len - n) (dst ++ slice (s.read page) (srcva - va0) n)

/-- `copyin`: whether it succeeds, and the bytes that it has stored. -/
def copyin (pt : PageTable F) (srcva len : ℕ) : M F (Bool × List Byte) := copyinLoop pt len srcva len []

/-- The inner loop of `copyinstr`: the bytes that it stores, and `got_null`. -/
def copyStr : List Byte → List Byte × Bool
  | [] => ([], false)
  | b :: bs => if b = 0 then ([0], true) else (b :: (copyStr bs).1, (copyStr bs).2)

/-- The outer loop of `copyinstr`; `fuel` is at least `max`. -/
def copyinstrLoop (pt : PageTable F) : ℕ → ℕ → ℕ → List Byte → M F (Bool × List Byte)
  | 0, _, _, dst => pure (false, dst)
  | fuel + 1, srcva, max, dst =>
    if max = 0 then pure (false, dst)
    else
      let va0 := pgRoundDown srcva
      do
        match ← walkaddr pt va0 with
        | none => pure (false, dst)
        | some page =>
          let n := min (pgSize - (srcva - va0)) max
          let s ← get
          let (bs, gotNull) := copyStr (slice (s.read page) (srcva - va0) n)
          if gotNull then pure (true, dst ++ bs)
          else copyinstrLoop pt fuel (va0 + pgSize) (max - n) (dst ++ bs)

def copyinstr (pt : PageTable F) (srcva max : ℕ) : M F (Bool × List Byte) :=
  copyinstrLoop pt max srcva max []

section Copies

variable {pt : PageTable F} {a n : ℕ} {bs cs : List Byte} {s t : Mem F} {page : Page F} {E : Panic → Prop}

/-- The user finds the bytes `bs` at the addresses from `a` on. -/
def Reads (s : Mem F) (pt : PageTable F) (a : ℕ) (bs : List Byte) : Prop :=
  ∀ i b, bs[i]? = some b → s.byte pt (a + i) = some b

theorem reads_nil (s : Mem F) (pt : PageTable F) (a : ℕ) : Reads s pt a [] := nofun

theorem Reads.append (h₁ : Reads s pt a bs) (hn : bs.length = n) (h₂ : Reads s pt (a + n) cs) :
    Reads s pt a (bs ++ cs) := by
  subst hn
  intro i b hb
  rcases lt_or_ge i bs.length with hlt | hge
  · rw [List.getElem?_append_left hlt] at hb
    exact h₁ i b hb
  · rw [List.getElem?_append_right hge] at hb
    have hbyte := h₂ _ b hb
    rwa [Nat.add_assoc, Nat.add_sub_cancel' hge] at hbyte

theorem reads_slice (hp : userPage readable pt a = some page) (hn : a % pgSize + n ≤ pgSize) :
    Reads s pt a (slice (s.read page) (a % pgSize) n) := by
  intro i b hb
  have hi : i < n := by
    have hlt := (List.getElem?_eq_some_iff.1 hb).1
    rwa [length_slice] at hlt
  rw [slice, List.getElem?_map, List.getElem?_range hi, Option.map_some, Option.some.injEq] at hb
  have hin : a % pgSize + i < pgSize := by omega
  rw [Mem.byte, userPage_congr (div_add_of_lt hin), hp, mod_add_of_lt hin, ← hb]
  rfl

theorem copyinLoop_zero (pt : PageTable F) (fuel a : ℕ) (dst : List Byte) :
    copyinLoop pt fuel a 0 dst = pure (true, dst) := by
  cases fuel with
  | zero => rfl
  | succ fuel => rfl

/-- `copyin` stops at the first address that the user cannot read. -/
theorem copyinLoop_reads (fuel : ℕ) (hfuel : n ≤ fuel) (dst : List Byte) :
    Ends (copyinLoop pt fuel a n dst) s (fun r t => t = s ∧ ∃ bs, r.2 = dst ++ bs ∧ Reads s pt a bs ∧
      ((r.1 = true ∧ bs.length = n) ∨
        (r.1 = false ∧ bs.length < n ∧ s.byte pt (a + bs.length) = none))) E := by
  induction fuel generalizing a n dst with
  | zero => exact ⟨rfl, [], (List.append_nil _).symm, reads_nil s pt a, Or.inl ⟨rfl, by simp; omega⟩⟩
  | succ fuel ih =>
    rw [copyinLoop]
    refine ends_ite (fun hzero => ?_) (fun hne => ?_)
    · exact ⟨rfl, [], (List.append_nil _).symm, reads_nil s pt a, Or.inl ⟨rfl, hzero.symm⟩⟩
    refine (walkaddr_ends pt (pgRoundDown a) s).bind ?_
    rintro r u ⟨hr, rfl⟩
    rw [userPage_congr (pgRoundDown_div a)] at hr
    cases r with
    | none =>
      refine ⟨rfl, [], (List.append_nil _).symm, reads_nil u pt a, Or.inr ⟨rfl, Nat.pos_of_ne_zero hne, ?_⟩⟩
      rw [List.length_nil, Nat.add_zero, Mem.byte, ← hr]
      rfl
    | some page =>
      have hmod := Nat.mod_lt a (show 0 < pgSize by decide)
      simp only [ends_bind, ends_get, sub_pgRoundDown]
      generalize hm : min (pgSize - a % pgSize) n = m
      have hfirst := reads_slice (s := u) (n := m) hr.symm (by omega)
      rcases Nat.lt_or_ge m n with hmore | hlast
      · have hnext : pgRoundDown a + pgSize = a + m := by
          rw [pgRoundDown_next]
          omega
        rw [hnext]
        refine (ih (by omega) _).imp ?_
        rintro r t ⟨rfl, bs, hdst, hreads, hend⟩
        refine ⟨rfl, _, hdst.trans (List.append_assoc ..), hfirst.append (length_slice ..) hreads, ?_⟩
        rw [Nat.add_assoc] at hend
        rw [List.length_append, length_slice]
        rcases hend with ⟨hr, hlen⟩ | ⟨hr, hlen, hnone⟩
        · exact Or.inl ⟨hr, by omega⟩
        · exact Or.inr ⟨hr, by omega, hnone⟩
      · rw [show n - m = 0 by omega, copyinLoop_zero]
        exact ⟨rfl, _, rfl, hfirst, Or.inl ⟨rfl, by rw [length_slice]; omega⟩⟩

/-- A NUL is stored last, and before it none. -/
def EndsInNul (bs : List Byte) : Prop := ∃ cs, bs = cs ++ [0] ∧ 0 ∉ cs

theorem EndsInNul.append (hbs : 0 ∉ bs) (h : EndsInNul cs) : EndsInNul (bs ++ cs) := by
  obtain ⟨ds, rfl, hds⟩ := h
  refine ⟨bs ++ ds, (List.append_assoc ..).symm, ?_⟩
  rw [List.mem_append]
  exact not_or.2 ⟨hbs, hds⟩

/-- The inner loop stores the bytes up to the first NUL, or all. -/
theorem copyStr_spec (bs : List Byte) : (copyStr bs).1 <+: bs ∧
    (((copyStr bs).2 = true ∧ EndsInNul (copyStr bs).1) ∨
      ((copyStr bs).2 = false ∧ (copyStr bs).1 = bs ∧ 0 ∉ bs)) := by
  induction bs with
  | nil => exact ⟨List.prefix_refl _, Or.inr ⟨rfl, rfl, List.not_mem_nil⟩⟩
  | cons b bs ih =>
    rw [copyStr]
    obtain ⟨hpre, hend⟩ := ih
    by_cases hb : b = 0
    · rw [if_pos hb, hb]
      exact ⟨⟨bs, rfl⟩, Or.inl ⟨rfl, [], rfl, List.not_mem_nil⟩⟩
    · rw [if_neg hb]
      refine ⟨(List.prefix_cons_inj b).2 hpre, ?_⟩
      have hnot : (0 : Byte) ∉ [b] := by
        rw [List.mem_singleton]
        exact Ne.symm hb
      rcases hend with ⟨hnull, hnul⟩ | ⟨hnull, hstored, hnone⟩
      · exact Or.inl ⟨hnull, hnul.append hnot⟩
      · refine Or.inr ⟨hnull, congrArg (b :: ·) hstored, ?_⟩
        rw [List.mem_cons]
        exact not_or.2 ⟨Ne.symm hb, hnone⟩

theorem Reads.of_prefix (h : Reads s pt a bs) (hpre : cs <+: bs) : Reads s pt a cs := by
  intro i b hb
  obtain ⟨ds, rfl⟩ := hpre
  have hi := (List.getElem?_eq_some_iff.1 hb).1
  apply h i b
  rw [List.getElem?_append_left hi]
  exact hb

theorem copyinstrLoop_zero (pt : PageTable F) (fuel a : ℕ) (dst : List Byte) :
    copyinstrLoop pt fuel a 0 dst = pure (false, dst) := by
  cases fuel with
  | zero => rfl
  | succ fuel => rfl

/-- `copyinstr` stops at the first NUL, at the first address that the user cannot read, or
after `max` bytes. -/
theorem copyinstrLoop_reads (fuel : ℕ) (hfuel : n ≤ fuel) (dst : List Byte) :
    Ends (copyinstrLoop pt fuel a n dst) s (fun r t => t = s ∧ ∃ bs, r.2 = dst ++ bs ∧ Reads s pt a bs ∧
      bs.length ≤ n ∧ ((r.1 = true ∧ EndsInNul bs) ∨
        (r.1 = false ∧ 0 ∉ bs ∧ (bs.length < n → s.byte pt (a + bs.length) = none)))) E := by
  -- nothing is stored
  have hstop : ∀ {a n : ℕ} (dst : List Byte), (0 < n → s.byte pt a = none) → ∃ bs, dst = dst ++ bs ∧
      Reads s pt a bs ∧ bs.length ≤ n ∧ ((false = true ∧ EndsInNul bs) ∨
        (false = false ∧ 0 ∉ bs ∧ (bs.length < n → s.byte pt (a + bs.length) = none))) := by
    intro a n dst hnone
    exact ⟨[], (List.append_nil _).symm, reads_nil s pt a, Nat.zero_le _,
      Or.inr ⟨rfl, List.not_mem_nil, hnone⟩⟩
  induction fuel generalizing a n dst with
  | zero => exact ⟨rfl, hstop dst (fun hpos => absurd hpos (by omega))⟩
  | succ fuel ih =>
    rw [copyinstrLoop]
    refine ends_ite (fun hzero => ?_) (fun hne => ?_)
    · exact ⟨rfl, hstop dst (fun hpos => absurd hpos (by omega))⟩
    refine (walkaddr_ends pt (pgRoundDown a) s).bind ?_
    rintro r u ⟨hr, rfl⟩
    rw [userPage_congr (pgRoundDown_div a)] at hr
    cases r with
    | none =>
      refine ⟨rfl, hstop dst (fun _ => ?_)⟩
      rw [Mem.byte, ← hr]
      rfl
    | some page =>
      have hmod := Nat.mod_lt a (show 0 < pgSize by decide)
      simp only [ends_bind, ends_get, sub_pgRoundDown]
      generalize hm : min (pgSize - a % pgSize) n = m
      have hfirst := reads_slice (s := u) (n := m) hr.symm (by omega)
      have hlen : (slice (u.read page) (a % pgSize) m).length = m := length_slice ..
      generalize slice (u.read page) (a % pgSize) m = bytes at hfirst hlen ⊢
      obtain ⟨hpre, hnul | ⟨hnull, hstored, hnone⟩⟩ := copyStr_spec bytes
      · have hle := hpre.length_le
        refine ends_ite (fun _ => ?_) (fun hc => absurd hnul.1 hc)
        exact ⟨rfl, _, rfl, hfirst.of_prefix hpre, by omega, Or.inl ⟨rfl, hnul.2⟩⟩
      · refine ends_ite (fun hc => absurd hc (by rw [hnull]; decide)) (fun _ => ?_)
        rw [hstored]
        rcases Nat.lt_or_ge m n with hmore | hlast
        · have hnext : pgRoundDown a + pgSize = a + m := by
            rw [pgRoundDown_next]
            omega
          rw [hnext]
          refine (ih (by omega) _).imp ?_
          rintro r t ⟨rfl, bs, hdst, hreads, hle, hend⟩
          refine ⟨rfl, bytes ++ bs, hdst.trans (List.append_assoc ..), hfirst.append hlen hreads, ?_, ?_⟩
          · rw [List.length_append]
            omega
          · rcases hend with ⟨hr, hnul⟩ | ⟨hr, hfree, hnext⟩
            · exact Or.inl ⟨hr, hnul.append hnone⟩
            · refine Or.inr ⟨hr, ?_, ?_⟩
              · rw [List.mem_append]
                exact not_or.2 ⟨hnone, hfree⟩
              · intro hlt
                rw [List.length_append, hlen] at hlt ⊢
                rw [← Nat.add_assoc]
                exact hnext (by omega)
        · rw [show n - m = 0 by omega, copyinstrLoop_zero]
          refine ⟨rfl, bytes, rfl, hfirst, by omega, Or.inr ⟨rfl, hnone, ?_⟩⟩
          intro hlt
          omega

def CopiesOut (pt : PageTable F) (dstva : ℕ) (src : List Byte) (s : Mem F) (r : Bool) (t : Mem F) : Prop :=
  (r = true ↔ ∀ i < src.length, (userPage writable pt (dstva + i)).isSome) ∧
    (r = true → Written pt dstva src s t) ∧ ∃ m ≤ src.length, Written pt dstva (src.take m) s t

def CopiesIn (pt : PageTable F) (srcva len : ℕ) (s : Mem F) (r : Bool × List Byte) (t : Mem F) : Prop :=
  t = s ∧ (r.1 = true ↔ ∀ i < len, (s.byte pt (srcva + i)).isSome) ∧ (r.1 = true → r.2.length = len) ∧
    r.2.length ≤ len ∧ Reads s pt srcva r.2

def CopiesInStr (pt : PageTable F) (srcva max : ℕ) (s : Mem F) (r : Bool × List Byte) (t : Mem F) : Prop :=
  t = s ∧ (r.1 = true ↔ ∃ k < max, s.byte pt (srcva + k) = some 0 ∧
    ∀ i < k, (s.byte pt (srcva + i)).isSome) ∧
    (r.1 = true → EndsInNul r.2) ∧ r.2.length ≤ max ∧ Reads s pt srcva r.2

theorem copyin_copies (pt : PageTable F) (srcva len : ℕ) (s : Mem F) :
    Ends (copyin pt srcva len) s (CopiesIn pt srcva len s) E := by
  refine (copyinLoop_reads len le_rfl []).imp ?_
  rintro ⟨r, dst⟩ t ⟨ht, bs, hdst, hreads, hend⟩
  rw [List.nil_append] at hdst
  subst hdst
  rcases hend with ⟨rfl, hlen⟩ | ⟨rfl, hlen, hnone⟩
  · refine ⟨ht, iff_of_true rfl (fun i hi => ?_), fun _ => hlen, hlen.le, hreads⟩
    rw [hreads i _ (List.getElem?_eq_getElem (by omega))]
    rfl
  · refine ⟨ht, iff_of_false nofun (fun hall => ?_), nofun, hlen.le, hreads⟩
    have hsome := hall _ hlen
    rw [hnone] at hsome
    cases hsome

theorem copyinstr_copies (pt : PageTable F) (srcva max : ℕ) (s : Mem F) :
    Ends (copyinstr pt srcva max) s (CopiesInStr pt srcva max s) E := by
  refine (copyinstrLoop_reads max le_rfl []).imp ?_
  rintro ⟨r, dst⟩ t ⟨ht, bs, hdst, hreads, hle, hend⟩
  rw [List.nil_append] at hdst
  subst hdst
  rcases hend with ⟨rfl, hnul⟩ | ⟨rfl, hfree, hstop⟩
  · refine ⟨ht, iff_of_true rfl ?_, fun _ => hnul, hle, hreads⟩
    obtain ⟨cs, hcs, -⟩ := hnul
    have hlen : dst.length = cs.length + 1 := by
      rw [show dst = cs ++ [0] from hcs, List.length_append, List.length_singleton]
    refine ⟨cs.length, ?_, ?_, fun i hi => ?_⟩
    · have hle' : dst.length ≤ max := hle
      omega
    · apply hreads
      dsimp only
      rw [show dst = cs ++ [0] from hcs, List.getElem?_append_right le_rfl, Nat.sub_self]
      rfl
    · rw [hreads i _ (List.getElem?_eq_getElem (by dsimp only; omega))]
      rfl
  · refine ⟨ht, iff_of_false nofun ?_, nofun, hle, hreads⟩
    rintro ⟨k, hk, hzero, hbefore⟩
    -- the NUL is among the stored bytes, or a byte before it cannot be read
    rcases lt_or_ge k dst.length with hlt | hge
    · have hbyte := hreads k _ (List.getElem?_eq_getElem hlt)
      rw [hzero, Option.some.injEq] at hbyte
      apply hfree
      rw [hbyte]
      exact List.getElem_mem hlt
    · have hnone : s.byte pt (srcva + dst.length) = none := hstop (by dsimp only; omega)
      rcases Nat.lt_or_eq_of_le hge with hlt | heq
      · have hsome := hbefore _ hlt
        rw [hnone] at hsome
        cases hsome
      · rw [← heq, hnone] at hzero
        cases hzero

/-- The memory that the user sees through the page table. -/
def userMem (s : Mem F) (pt : PageTable F) : FileReads.UserMem where
  writable := fun v => (userPage writable pt (v * pgSize)).isSome
  byte := fun a => (s.byte pt a).getD 0

theorem userMem_takes (s : Mem F) (pt : PageTable F) (a : ℕ) :
    (userMem s pt).takes a = (userPage writable pt a).isSome := by
  have hpage : userPage writable pt (pgRoundDown a / pgSize * pgSize) = userPage writable pt a := by
    rw [pgRoundDown_div]
    exact userPage_congr (pgRoundDown_div a)
  simp only [FileReads.UserMem.takes, userMem, hpage]
  cases ha : userPage writable pt a with
  | none => rw [Option.isSome_none, Bool.and_false]
  | some page =>
    have hlt := (userPage_eq_some.1 ha).1
    have hle := FileReads.pgRoundDown_le a
    rw [Option.isSome_some, Bool.and_true, decide_eq_true_iff]
    omega

theorem Written.userMem_eq (h : UserPages pt) (hw : Written pt a bs s t) :
    userMem t pt = (userMem s pt).store a bs := by
  have hread : ∀ perm, readable perm = true → perm.u = true := fun _ hu => hu
  simp only [userMem, FileReads.UserMem.store, FileReads.UserMem.mk.injEq, true_and]
  funext x
  have hsame : (∀ i < bs.length, a + i ≠ x) → t.byte pt x = s.byte pt x := by
    intro hout
    rw [Mem.byte, Mem.byte]
    cases hx : userPage readable pt x with
    | none => rfl
    | some page =>
      obtain ⟨f, rfl⟩ := h.page_eq hread hx
      refine congrArg some (hw.frame f _ (fun i hi hf hmod => hout i hi ?_))
      exact h.addr_eq (fun _ => readable_of_writable) hread hf hx hmod
  split
  · rename_i hle
    obtain ⟨i, rfl⟩ := Nat.exists_eq_add_of_le hle
    rw [Nat.add_sub_cancel_left]
    cases hb : bs[i]? with
    | none =>
      have hge := List.getElem?_eq_none_iff.1 hb
      rw [hsame (fun j hj => by omega), Option.getD_none]
    | some b =>
      obtain ⟨f, hf, hbyte⟩ := hw.copied i b hb
      obtain ⟨hlt, leaf, hleaf, hperm, hpage⟩ := userPage_eq_some.1 hf
      have hpage : userPage readable pt (a + i) = some (.frame f) :=
        userPage_eq_some.2 ⟨hlt, leaf, hleaf, readable_of_writable hperm, hpage⟩
      rw [Mem.byte, hpage, Option.map_some, Option.getD_some, Option.getD_some]
      exact hbyte
  · rw [hsame (fun j _ => by omega)]

variable [DecidableEq F]

theorem copyout_copies (h : UserPages pt) (dstva : ℕ) (src : List Byte) (s : Mem F) :
    Ends (copyout pt dstva src) s (CopiesOut pt dstva src s) E := by
  refine (copyoutLoop_writes h src.length le_rfl).imp ?_
  rintro r t ⟨m, hw, ⟨rfl, rfl⟩ | ⟨rfl, hm, hnone⟩⟩
  · rw [List.take_length] at hw
    refine ⟨iff_of_true rfl (fun i hi => ?_), fun _ => hw, src.length, le_rfl, ?_⟩
    · obtain ⟨f, hf, -⟩ := hw.copied i _ (List.getElem?_eq_getElem hi)
      rw [hf]
      rfl
    · rw [List.take_length]
      exact hw
  · refine ⟨iff_of_false nofun (fun hall => ?_), nofun, m, hm.le, hw⟩
    have hsome := hall m hm
    rw [hnone] at hsome
    cases hsome

/-- `copyout`, `copyin` and `copyinstr` agree with the translation of single addresses, and
`walk` never panics in them. -/
theorem copies_bytewise (h : UserPages pt) (va n : ℕ) (src : List Byte) (s : Mem F) :
    Ends (copyout pt va src) s (CopiesOut pt va src s) (fun _ => False) ∧
    Ends (copyin pt va n) s (CopiesIn pt va n s) (fun _ => False) ∧
    Ends (copyinstr pt va n) s (CopiesInStr pt va n s) (fun _ => False) :=
  ⟨copyout_copies h va src s, copyin_copies pt va n s, copyinstr_copies pt va n s⟩

/-- Through the page table, `copyout` is the one of `FileReads`. -/
theorem copyout_userMem (h : UserPages pt) (dstva : ℕ) (bs : List Byte) (s : Mem F) :
    Ends (copyout pt dstva bs) s (fun r t => (r, userMem t pt) = FileReads.copyout dstva bs (userMem s pt)) E := by
  refine (copyoutLoop_writes h bs.length le_rfl).imp ?_
  rintro r t ⟨m, hw, hend⟩
  obtain ⟨k, hk, hloop, htakes, hstop⟩ := @FileReads.copyoutLoop_stores (userMem s pt) dstva bs.length bs le_rfl
  simp only [userMem_takes] at htakes hstop
  have hm : m = k := by
    rcases Nat.lt_trichotomy m k with hlt | heq | hgt
    · obtain ⟨-, -, hnone⟩ := hend.resolve_left (by omega)
      have hsome := htakes m hlt
      rw [hnone] at hsome
      cases hsome
    · exact heq
    · have hin : k < bs.length := by omega
      obtain ⟨f, hf, -⟩ := hw.copied k bs[k] (by
        rw [List.getElem?_take_of_lt hgt, List.getElem?_eq_getElem hin])
      have hnone := hstop hin
      rw [hf] at hnone
      cases hnone
  subst hm
  rw [FileReads.copyout, hloop, hw.userMem_eq h]
  rcases hend with ⟨rfl, hlen⟩ | ⟨rfl, hlen, -⟩
  · rw [decide_eq_true hlen]
  · rw [decide_eq_false hlen.ne]

end Copies

def onePage : PageTable (Fin 8) :=
  ⟨0, fun i => if i = 0 then some ⟨1, fun j => if j = 0 then some ⟨2, fun k => if k = 0 then
    some ⟨.frame 3, ⟨true, true, false, true⟩⟩ else none⟩ else none⟩ else none⟩

theorem onePage_userPages : UserPages onePage := by
  have hleaf : ∀ v leaf, leafAt onePage v = some leaf →
      digits 512 v = (0, 0, 0) ∧ leaf = ⟨.frame 3, ⟨true, true, false, true⟩⟩ := by
    intro v leaf hv
    rw [leafAt, Tree.value_eq] at hv
    generalize digits 512 v = x at hv ⊢
    obtain ⟨i, j, k⟩ := x
    by_cases hi : i = 0
    · by_cases hj : j = 0
      · by_cases hk : k = 0
        · subst hi hj hk
          exact ⟨rfl, (Option.some.inj hv).symm⟩
        · simp [onePage, hi, hj, hk] at hv
      · simp [onePage, hi, hj] at hv
    · simp [onePage, hi] at hv
  constructor
  · intro v leaf _ hv _
    exact ⟨3, by rw [(hleaf v leaf hv).2]⟩
  · intro v w leaf leaf' hv hw hlv hlw _ _ _
    exact digits_inj (hv.trans_le maxPage_le) (hw.trans_le maxPage_le)
      ((hleaf v leaf hlv).1.trans (hleaf w leaf' hlw).1.symm)

/-- Three bytes from 4094 on: the second page is missing. -/
theorem copies_bytewise_onePage : UserPages onePage ∧
    Ends (copyout onePage 4094 [1, 2, 3]) ⟨[], [], fun _ => zeros⟩
      (CopiesOut onePage 4094 [1, 2, 3] ⟨[], [], fun _ => zeros⟩) (fun _ => False) ∧
    userPage writable onePage 4096 = none ∧
    Ends (copyinstr onePage 4094 9) ⟨[], [], fun _ => zeros⟩
      (CopiesInStr onePage 4094 9 ⟨[], [], fun _ => zeros⟩) (fun _ => False) := by
  have hcopies := copies_bytewise onePage_userPages 4094 9 [1, 2, 3] ⟨[], [], fun _ => zeros⟩
  exact ⟨onePage_userPages, hcopies.1, rfl, hcopies.2.2⟩

end Xv6.VirtualMemory
