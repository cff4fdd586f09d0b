import Xv6.ProcessPageTables

/-!
# The image that `exec` builds

Segments and stack of the new image are added to a table without user pages. Whatever is in
the file, the table has the shape of a process, or all its frames are given back.
-/

namespace Xv6.VirtualMemory

open ByteBlocks PanicPrograms RadixTables

variable {F : Type} [DecidableEq F] {pt pt' : PageTable F} {k sz : ℕ} {s t : Mem F} {tf : F}
  {guard : Option ℕ} {E : Panic → Prop}

theorem Mem.freelist_write (s : Mem F) (page : Page F) (off : ℕ) (bs : List Byte) :
    (s.write page off bs).freelist = s.freelist := by
  cases page <;> rfl

omit [DecidableEq F] in
theorem walk_ends {va : ℕ} (hva : va < maxVa) (s : Mem F) {Q : Option (Option (Leaf F)) → Mem F → Prop}
    (hQ : Q (pt.find (px va)) s) : Ends (walk pt va) s Q E :=
  ends_ite (fun hge => absurd hge (by omega)) (fun _ => hQ)

theorem copyoutLoop_ends (pt : PageTable F) (fuel dstva : ℕ) (bs : List Byte) (s : Mem F) :
    Ends (copyoutLoop pt fuel dstva bs) s (fun _ t => t.freelist = s.freelist) E := by
  induction fuel generalizing dstva bs s with
  | zero => rfl
  | succ fuel ih =>
    rw [copyoutLoop]
    refine ends_ite (fun _ => rfl) (fun _ => ends_ite (fun _ => rfl) (fun hlt => ?_))
    rw [ends_bind]
    refine walk_ends (by omega) s ?_
    split
    · refine ends_ite (fun _ => rfl) (fun _ => ?_)
      simp only [ends_bind, ends_modify]
      refine (ih _ _ _).imp ?_
      intro _ t ht
      rw [ht, Mem.freelist_write]
    · rfl

theorem copyout_ends (pt : PageTable F) (dstva : ℕ) (bs : List Byte) (s : Mem F) :
    Ends (copyout pt dstva bs) s (fun _ t => t.freelist = s.freelist) E :=
  copyoutLoop_ends pt bs.length dstva bs s

theorem pushArgs_ends (pt : PageTable F) (stackbase : ℕ) (args : List (List Byte)) (sp : ℕ)
    (ustack : List ℕ) (s : Mem F) :
    Ends (pushArgs pt stackbase args sp ustack) s (fun _ t => t.freelist = s.freelist) E := by
  induction args generalizing sp ustack s with
  | nil => rfl
  | cons arg rest ih =>
    rw [pushArgs]
    refine ends_ite (fun _ => rfl) (fun _ => ends_ite (fun _ => rfl) (fun _ => ?_))
    refine (copyout_ends pt _ _ s).bind ?_
    intro ok t ht
    refine ends_ite (fun _ => ?_) (fun _ => ht)
    refine (ih _ _ t).imp ?_
    intro _ u hu
    exact hu.trans ht

-- numbers as large as `2 ^ 64` are not to be unfolded
attribute [local irreducible] copyout pushArgs sub64

theorem pushStack_ends (pt : PageTable F) (sz : ℕ) (args : List (List Byte)) (s : Mem F) :
    Ends (pushStack pt sz args) s (fun _ t => t.freelist = s.freelist) E := by
  rw [pushStack]
  refine (pushArgs_ends pt _ args sz [] s).bind ?_
  rintro (_ | ⟨sp, ustack⟩) t ht
  · exact ht
  · refine ends_ite (fun _ => ht) (fun _ => ?_)
    refine (copyout_ends pt _ _ t).bind ?_
    intro ok u hu
    exact ends_ite (fun _ => hu.trans ht) (fun _ => hu.trans ht)

theorem loadsegLoop_ends {img : Image} {va offset n turns i : ℕ} (h : Shape pt tf (pages sz) none)
    (hva : va % pgSize = 0) (hn : va + n ≤ sz) (hi : i % pgSize = 0) (hturns : turns * pgSize + i < n + pgSize)
    (s : Mem F) :
    Ends (loadsegLoop img pt va offset n turns i) s (fun _ t => t.freelist = s.freelist) E := by
  induction turns generalizing i s with
  | zero => rfl
  | succ turns ih =>
    have hlast := trapframePage_lt
    have hlt : va + i < sz := by
      rw [Nat.succ_mul] at hturns
      omega
    have hpage : (va + i) / pgSize < pages sz := by
      simp only [pages, pgSize] at *
      omega
    have hle := h.users.le
    have hmax : va + i < maxVa := by
      have hconst : trapframePage * pgSize ≤ maxVa := by decide
      have hmul := Nat.mul_le_mul_right pgSize hle
      have hsz := le_pages_mul sz
      omega
    obtain ⟨f, perm, hleaf, -⟩ := h.users.low _ hpage
    have hu : perm.u = true := (h.open_ _ hpage _ hleaf).resolve_right (by rintro ⟨⟩)
    have hfind : pt.find (px (va + i)) = some (some ⟨.frame f, perm⟩) := Tree.find_of_value hleaf
    rw [loadsegLoop, ends_bind, walkaddr]
    refine ends_ite (fun hge => absurd hge (by omega)) (fun _ => ?_)
    rw [ends_bind]
    refine walk_ends hmax s ?_
    simp only [hfind, hu, if_true, ends_pure]
    split
    · rfl
    · simp only [ends_bind, ends_modify]
      refine (ih ?_ ?_ _).imp ?_
      · simp only [pgSize] at hi ⊢
        omega
      · rw [Nat.succ_mul] at hturns
        omega
      · intro _ t ht
        rw [ht, Mem.freelist_write]

theorem loadseg_ends {img : Image} {va offset n : ℕ} (h : Shape pt tf (pages sz) none)
    (hva : va % pgSize = 0) (hn : va + n ≤ sz) (s : Mem F) :
    Ends (loadseg img pt va offset n) s (fun _ t => t.freelist = s.freelist) E := by
  have hmod : n % 2 ^ 32 ≤ n := Nat.mod_le ..
  refine loadsegLoop_ends h hva (by omega) (Nat.zero_mod _) ?_ s
  simp only [pgSize]
  omega

def Sized (sz : ℕ) : Prop := sz ≤ maxFrames * pgSize

theorem Sized.no_wrap (h : Sized sz) : sz + pgSize ≤ 2 ^ 64 := by
  have hconst : maxFrames * pgSize + pgSize ≤ 2 ^ 64 := by decide
  rw [Sized] at h
  omega

omit [DecidableEq F] in
theorem Shape.sized (h : Shape pt tf (pages sz) guard) (hfits : Fits pt s) : Sized sz :=
  (le_pages_mul sz).trans (Nat.mul_le_mul_right pgSize (h.users.le_maxFrames hfits))

omit [DecidableEq F] in
theorem Resized.shape {w x : Bool} {oldsz newsz : ℕ} {m : Multiset F} {r : PageTable F × ℕ}
    (h : Resized (userPerm w x) pt oldsz newsz m r t) (hs : Shape pt tf (pages oldsz) guard) :
    (r.2 = 0 → Shape r.1 tf (pages oldsz) guard) ∧
      (r.2 ≠ 0 → r.2 = max oldsz newsz ∧ Shape r.1 tf (pages r.2) guard) := by
  refine ⟨fun h0 => hs.congr (h.undone h0), fun hne => ?_⟩
  obtain ⟨hmax, hle, hg⟩ := h.done hne
  refine ⟨hmax, hs.grow hg ?_ hle (fun _ _ hv => hv) ?_⟩
  · rintro _ _ rfl
    rfl
  · rintro _ _ _ _ rfl
    exact Or.inl rfl

structure Loaded (tf : F) (m : Multiset F) (r : PageTable F × ℕ × Bool) (t : Mem F) : Prop where
  shape : Shape r.1 tf (pages r.2.1) none
  own : own r.1 + (t.freelist : Multiset F) = m

theorem loadImage_ends {img : Image} (headers : List (Option Proghdr)) (h : Shape pt tf (pages sz) none)
    (hfits : Fits pt s) : Ends (loadImage img headers pt sz) s
      (fun r t => Loaded tf (own pt + (s.freelist : Multiset F)) r t) E := by
  induction headers generalizing pt sz s with
  | nil => exact ⟨h, rfl⟩
  | cons header rest ih =>
    cases header with
    | none => exact ⟨h, rfl⟩
    | some ph =>
      rw [loadImage]
      refine ends_ite (fun _ => ih h hfits) (fun _ => ?_)
      refine ends_ite (fun _ => ⟨h, rfl⟩) (fun hfile => ?_)
      refine ends_ite (fun _ => ⟨h, rfl⟩) (fun hwrap => ?_)
      refine ends_ite (fun _ => ⟨h, rfl⟩) (fun halign => ?_)
      refine (uvmalloc_ends h.users (h.sized hfits).no_wrap hfits).bind ?_
      rintro ⟨pt', sz1⟩ t ht
      obtain ⟨hfail, hdone⟩ := ht.shape h
      refine ends_ite (fun h0 => ⟨hfail h0, ht.own⟩) (fun hne => ?_)
      obtain ⟨hmax, hshape⟩ := hdone hne
      -- the sum has not wrapped, so the segment lies below the new size
      have hsum : ph.vaddr + ph.filesz ≤ sz1 := by
        have hv := ph.vaddr_lt
        have hm := ph.memsz_lt
        have hlt : (ph.vaddr + ph.memsz) % 2 ^ 64 = ph.vaddr + ph.memsz := by omega
        rw [hlt] at hmax
        have hle := le_max_right sz (ph.vaddr + ph.memsz)
        dsimp only at hmax
        omega
      refine (loadseg_ends hshape (by omega) hsum t).bind ?_
      intro ok u hu
      have hown : own pt' + (u.freelist : Multiset F) = own pt + (s.freelist : Multiset F) := by
        rw [show u.freelist = t.freelist from hu]
        exact ht.own
      refine ends_ite (fun _ => ?_) (fun _ => ⟨hshape, hown⟩)
      rw [← hown]
      exact ih hshape (hfits.of_eq hown)

attribute [local irreducible] pushStack

omit [DecidableEq F] in
theorem uvmclear_ends {v : ℕ} (h : Shape pt tf k none) (hv : v < k) (s : Mem F) :
    Ends (uvmclear pt (v * pgSize)) s (fun pt' t => Shape pt' tf k (some v) ∧
      own pt' + (t.freelist : Multiset F) = own pt + (s.freelist : Multiset F)) E := by
  have hlast := trapframePage_lt
  have hmax := maxPage_le
  have heq := trampolinePage_eq
  have hlt := trampolinePage_lt
  have hle := h.users.le
  obtain ⟨f, perm, hleaf, hr⟩ := h.users.low v hv
  have hfind := Tree.find_of_value hleaf
  rw [uvmclear, ends_bind]
  refine walk_ends (page_lt (by omega)) s ?_
  simp only [px_page, hfind, ends_pure, Option.map_some]
  have hput : ∀ w < numPages, leafAt (pt.put (digits 512 v) (some ⟨.frame f, { perm with u := false }⟩)) w =
      if w = v then some ⟨.frame f, { perm with u := false }⟩ else leafAt pt w :=
    fun w hw => leafAt_put (by rw [hfind]; nofun) _ (by omega) hw
  refine ⟨⟨⟨hle, fun w hw => ?_, fun w hw hw' => ?_⟩, fun w hw leaf hl => ?_, ?_, ?_, fun w hw hw' => ?_⟩, ?_⟩
  · rw [hput w (by omega)]
    split
    · exact ⟨f, _, rfl, hr⟩
    · exact h.users.low w hw
  · rw [hput w (by omega), if_neg (by omega)]
    exact h.users.high w hw hw'
  · rw [hput w (by omega)] at hl
    by_cases hwv : w = v
    · exact Or.inr (by rw [hwv])
    · rw [if_neg hwv] at hl
      exact Or.inl ((h.open_ w hw leaf hl).resolve_right nofun)
  · rw [hput _ (by omega), if_neg (by omega)]
    exact h.trapframe
  · rw [hput _ hlt, if_neg (by omega)]
    exact h.trampoline
  · rw [hput w hw, if_neg (by omega)]
    exact h.rest w hw hw'
  · have huser := userFrames_update (v := v) (by omega) (fun w hw => hput w (by omega))
    rw [hleaf] at huser
    rw [own, own, Tree.tables_put, add_right_cancel huser]

/-- The new image has the shape of a process, with its guard page below the stack; otherwise
all frames are back. -/
theorem execImage_ends {img : Image} {args : List (List Byte)} (hfree : s.freelist.length ≤ maxFrames) :
    Ends (execImage tf img args) s (fun r t => match r with
      | none => (t.freelist : Multiset F) = (s.freelist : Multiset F)
      | some (pt, sz) => Shape pt tf (pages sz) (some (sz / pgSize - 2)) ∧
        own pt + (t.freelist : Multiset F) = (s.freelist : Multiset F)) E := by
  have hgive : ∀ {pt : PageTable F} {sz : ℕ} {guard : Option ℕ} {t : Mem F}, Shape pt tf (pages sz) guard →
      own pt + (t.freelist : Multiset F) = (s.freelist : Multiset F) →
      Ends (procFreepagetable pt sz) t
        (fun _ u => (u.freelist : Multiset F) = (s.freelist : Multiset F)) E := by
    intro pt sz guard t hshape hown
    have hfits : Fits pt t := by
      rw [Fits, hown]
      exact hfree
    refine (procFreepagetable_ends hshape (hshape.sized hfits).no_wrap t).imp ?_
    intro _ u hu
    exact hu.trans hown
  refine ends_ite (fun _ => rfl) (fun _ => ?_)
  refine (procPagetable_ends tf s).bind ?_
  rintro (_ | pt) t ht
  · exact ht
  obtain ⟨hshape, hown⟩ := ht
  have hfits : Fits pt t := by
    rw [Fits, hown]
    exact hfree
  refine (loadImage_ends img.headers hshape hfits).bind ?_
  rintro ⟨pt₁, sz, ok⟩ t₁ ⟨hshape₁, hown₁⟩
  replace hown₁ := hown₁.trans hown
  refine ends_ite (fun _ => ?_) (fun _ => ?_)
  · rw [ends_bind]
    exact hgive hshape₁ hown₁
  have hfits₁ : Fits pt₁ t₁ := by
    rw [Fits, hown₁]
    exact hfree
  have hsized := hshape₁.sized hfits₁
  -- the stack goes to the next page boundary
  have hround : pgRoundUp sz = pages sz * pgSize := pgRoundUp_eq hsized.no_wrap
  have hshape₁' : Shape pt₁ tf (pages (pgRoundUp sz)) none := by
    rw [hround, pages_mul]
    exact hshape₁
  have hsized' := hshape₁'.sized hfits₁
  refine (uvmalloc_ends hshape₁'.users hsized'.no_wrap hfits₁).bind ?_
  rintro ⟨pt₂, sz1⟩ t₂ ht₂
  obtain ⟨hfail, hdone⟩ := ht₂.shape hshape₁'
  have hown₂ : own pt₂ + (t₂.freelist : Multiset F) = (s.freelist : Multiset F) := ht₂.own.trans hown₁
  refine ends_ite (fun h0 => ?_) (fun hne => ?_)
  · rw [ends_bind]
    exact hgive (hfail h0) hown₂
  have hmax := (hdone hne).1
  have hshape₂ := (hdone hne).2
  have hsz1 : sz1 = (pages sz + 2) * pgSize := by
    have hconst : maxFrames * pgSize + 2 * pgSize < 2 ^ 64 := by decide
    rw [Sized] at hsized'
    have hmod : (pgRoundUp sz + 2 * pgSize) % 2 ^ 64 = pgRoundUp sz + 2 * pgSize := Nat.mod_eq_of_lt (by omega)
    dsimp only at hmax
    rw [hmod] at hmax
    rw [hmax, max_eq_right (by omega), hround, Nat.add_mul]
  have hpages : pages sz1 = pages sz + 2 := by rw [hsz1, pages_mul]
  have hguard : sz1 - 2 * pgSize = pages sz * pgSize := by
    rw [hsz1, Nat.add_mul]
    omega
  have hnum : sz1 / pgSize - 2 = pages sz := by
    rw [hsz1, Nat.mul_div_cancel _ (by decide)]
    omega
  simp only [ends_bind, hguard]
  refine (uvmclear_ends hshape₂ (by dsimp only; omega) t₂).imp ?_
  rintro pt₃ t₃ ⟨hshape₃, hown₃⟩
  replace hown₃ := hown₃.trans hown₂
  refine (pushStack_ends pt₃ sz1 args t₃).imp ?_
  rintro (_ | sp) t₄ ht₄
  · simp only [ends_bind]
    exact hgive hshape₃ (by rw [show t₄.freelist = t₃.freelist from ht₄]; exact hown₃)
  · refine ⟨?_, by rw [show t₄.freelist = t₃.freelist from ht₄]; exact hown₃⟩
    rw [hnum]
    exact hshape₃

omit [DecidableEq F] in
theorem held_append {held : List F} {f : F} (h : s.freelist = f :: t.freelist) :
    ((held ++ [f] : List F) : Multiset F) + (t.freelist : Multiset F) =
      (held : Multiset F) + (s.freelist : Multiset F) := by
  rw [h, coe_cons_eq, ← Multiset.coe_add, add_assoc]
  rfl

theorem fetchArgs_ends (args : List Arg) (held : List F) (strs : List (List Byte)) (s : Mem F) :
    Ends (fetchArgs args held strs) s (fun r t =>
      (r.1 : Multiset F) + (t.freelist : Multiset F) = (held : Multiset F) + (s.freelist : Multiset F)) E := by
  induction args generalizing held strs s with
  | nil => rfl
  | cons arg rest ih =>
    cases arg with
    | badAddr => exact ends_ite (fun _ => rfl) (fun _ => rfl)
    | badStr =>
      refine ends_ite (fun _ => rfl) (fun _ => ?_)
      refine (kalloc_ends s).bind ?_
      rintro (_ | f) t ht
      · exact congrArg (fun l : List F => (held : Multiset F) + (l : Multiset F)) ht
      · exact held_append ht
    | str bs =>
      refine ends_ite (fun _ => rfl) (fun _ => ?_)
      refine (kalloc_ends s).bind ?_
      rintro (_ | f) t ht
      · exact congrArg (fun l : List F => (held : Multiset F) + (l : Multiset F)) ht
      · refine (ih (held ++ [f]) (strs ++ [bs]) t).imp ?_
        intro r u hu
        exact hu.trans (held_append ht)

end Xv6.VirtualMemory
