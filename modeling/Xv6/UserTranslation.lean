import Xv6.ExecImages

/-!
# Addresses of the user

An address is translated by itself: it lies below `MAXVA` on a page that is mapped with the
permissions which a copy asks for. `copyout` of `kernel/vm.c` goes page by page; it writes to the
translated addresses, one after another, and stops at the first that has no translation.
-/

namespace Xv6.VirtualMemory

open ByteBlocks Function PanicPrograms RadixTables

variable {F : Type}

section Translation

variable {pt : PageTable F} {ok : Perm → Bool} {a b n : ℕ} {s t u : Mem F} {E : Panic → Prop}

/-- `PTE_U`. -/
def readable (perm : Perm) : Bool := perm.u

/-- `PTE_U` and `PTE_W`. -/
def writable (perm : Perm) : Bool := perm.u && perm.w

/-- The page of an address that is mapped with permissions that will do. -/
def userPage (ok : Perm → Bool) (pt : PageTable F) (va : ℕ) : Option (Page F) :=
  if maxVa ≤ va then none
  else (leafAt pt (va / pgSize)).bind (fun leaf => if ok leaf.perm then some leaf.page else none)

def Mem.byte (s : Mem F) (pt : PageTable F) (va : ℕ) : Option Byte :=
  (userPage readable pt va).map (fun page => s.read page (va % pgSize))

theorem userPage_congr (h : a / pgSize = b / pgSize) : userPage ok pt a = userPage ok pt b := by
  have hmax : maxVa = maxPage * pgSize := by decide
  have hiff : maxVa ≤ a ↔ maxVa ≤ b := by
    rw [hmax, ← Nat.le_div_iff_mul_le (by decide), ← Nat.le_div_iff_mul_le (by decide), h]
  rw [userPage, userPage, h]
  exact if_congr hiff rfl rfl

theorem div_add_of_lt (h : a % pgSize + n < pgSize) : (a + n) / pgSize = a / pgSize := by
  simp only [pgSize] at *
  omega

theorem mod_add_of_lt (h : a % pgSize + n < pgSize) : (a + n) % pgSize = a % pgSize + n := by
  simp only [pgSize] at *
  omega

theorem pgRoundDown_div (a : ℕ) : pgRoundDown a / pgSize = a / pgSize :=
  Nat.mul_div_cancel _ (by decide)

theorem sub_pgRoundDown (a : ℕ) : a - pgRoundDown a = a % pgSize := by
  have h := Nat.div_add_mod a pgSize
  rw [Nat.mul_comm] at h
  rw [pgRoundDown]
  omega

theorem pgRoundDown_next (a : ℕ) : pgRoundDown a + pgSize = a + (pgSize - a % pgSize) := by
  have h := Nat.div_add_mod a pgSize
  have hlt := Nat.mod_lt a (show 0 < pgSize by decide)
  rw [Nat.mul_comm] at h
  rw [pgRoundDown]
  omega

theorem userPage_eq_some {page : Page F} : userPage ok pt a = some page ↔
    a < maxVa ∧ ∃ leaf, leafAt pt (a / pgSize) = some leaf ∧ ok leaf.perm = true ∧ leaf.page = page := by
  rw [userPage]
  split
  · simp only [reduceCtorEq, false_iff, not_and]
    omega
  · simp only [Option.bind_eq_some_iff, Option.ite_none_right_eq_some, Option.some.injEq]
    exact ⟨fun h => ⟨by omega, h⟩, fun h => h.2⟩

/-- `walkaddr` is the translation for reading. It does not panic. -/
theorem walkaddr_ends (pt : PageTable F) (a : ℕ) (s : Mem F) :
    Ends (walkaddr pt a) s (fun r t => r = userPage readable pt a ∧ t = s) E := by
  refine ends_ite (fun hge => ?_) (fun hlt => ?_)
  · exact ⟨(if_pos hge).symm, rfl⟩
  · rw [ends_bind]
    refine walk_ends (by omega) s ?_
    have hleaf : leafAt pt (a / pgSize) = (pt.find (px a)).join := rfl
    rw [userPage, if_neg hlt, hleaf]
    rcases pt.find (px a) with _ | _ | leaf
    · exact ⟨rfl, rfl⟩
    · exact ⟨rfl, rfl⟩
    · exact ⟨rfl, rfl⟩

end Translation

/-- The pages of the user have frames of their own. -/
structure UserPages (pt : PageTable F) : Prop where
  frame : ∀ v leaf, v < maxPage → leafAt pt v = some leaf → leaf.perm.u = true → ∃ f, leaf.page = .frame f
  inj : ∀ v w leaf leaf', v < maxPage → w < maxPage → leafAt pt v = some leaf → leafAt pt w = some leaf' →
    leaf.perm.u = true → leaf'.perm.u = true → leaf.page = leaf'.page → v = w

section Copies

variable {pt : PageTable F} {ok : Perm → Bool} {a b n : ℕ} {bs cs : List Byte} {s t u : Mem F} {f : F}
  {page : Page F} {E : Panic → Prop}

theorem div_lt_maxPage (h : a < maxVa) : a / pgSize < maxPage := by
  have hmax : maxVa = pgSize * maxPage := by decide
  exact Nat.div_lt_of_lt_mul (by omega)

theorem UserPages.page_eq (h : UserPages pt) (hok : ∀ perm, ok perm = true → perm.u = true)
    (ha : userPage ok pt a = some page) : ∃ f, page = .frame f := by
  obtain ⟨hlt, leaf, hleaf, hperm, rfl⟩ := userPage_eq_some.1 ha
  exact h.frame _ leaf (div_lt_maxPage hlt) hleaf (hok _ hperm)

theorem UserPages.addr_eq {ok' : Perm → Bool} (h : UserPages pt) (hok : ∀ perm, ok perm = true → perm.u = true)
    (hok' : ∀ perm, ok' perm = true → perm.u = true) (ha : userPage ok pt a = some page)
    (hb : userPage ok' pt b = some page) (hmod : a % pgSize = b % pgSize) : a = b := by
  obtain ⟨hlt, leaf, hleaf, hperm, hpage⟩ := userPage_eq_some.1 ha
  obtain ⟨hlt', leaf', hleaf', hperm', hpage'⟩ := userPage_eq_some.1 hb
  have hdiv := h.inj _ _ leaf leaf' (div_lt_maxPage hlt) (div_lt_maxPage hlt') hleaf hleaf' (hok _ hperm)
    (hok' _ hperm') (hpage.trans hpage'.symm)
  rw [← Nat.div_add_mod a pgSize, ← Nat.div_add_mod b pgSize, hdiv, hmod]

theorem readable_of_writable {perm : Perm} (h : writable perm = true) : perm.u = true :=
  (Bool.and_eq_true_iff.1 h).1

/-- The bytes `bs` have been written to the addresses from `a` on, and nothing else. -/
structure Written (pt : PageTable F) (a : ℕ) (bs : List Byte) (s t : Mem F) : Prop where
  copied : ∀ i b, bs[i]? = some b →
    ∃ f, userPage writable pt (a + i) = some (.frame f) ∧ t.content f ((a + i) % pgSize) = b
  frame : ∀ f o, (∀ i < bs.length, userPage writable pt (a + i) = some (.frame f) → (a + i) % pgSize ≠ o) →
    t.content f o = s.content f o
  freelist : t.freelist = s.freelist
  luck : t.luck = s.luck

theorem Written.nil (pt : PageTable F) (a : ℕ) (s : Mem F) : Written pt a [] s s where
  copied := nofun
  frame := fun _ _ _ => rfl
  freelist := rfl
  luck := rfl

theorem Written.append (h : UserPages pt) (h₁ : Written pt a bs s u) (hn : bs.length = n)
    (h₂ : Written pt (a + n) cs u t) : Written pt a (bs ++ cs) s t where
  copied := by
    subst hn
    intro i b hb
    rcases lt_or_ge i bs.length with hlt | hge
    · rw [List.getElem?_append_left hlt] at hb
      obtain ⟨f, hf, hbyte⟩ := h₁.copied i b hb
      refine ⟨f, hf, ?_⟩
      rw [h₂.frame f _ ?_, hbyte]
      -- the second part goes to other addresses
      intro j _ hj hmod
      have heq := h.addr_eq (fun _ => readable_of_writable) (fun _ => readable_of_writable) hf hj hmod.symm
      omega
    · rw [List.getElem?_append_right hge] at hb
      obtain ⟨f, hf, hbyte⟩ := h₂.copied (i - bs.length) b hb
      rw [Nat.add_assoc, Nat.add_sub_cancel' hge] at hf hbyte
      exact ⟨f, hf, hbyte⟩
  frame := by
    subst hn
    intro f o hout
    rw [List.length_append] at hout
    rw [h₂.frame f o ?_, h₁.frame f o (fun i hi => hout i (by omega))]
    intro j hj hf
    rw [Nat.add_assoc] at hf ⊢
    exact hout (bs.length + j) (by omega) hf
  freelist := h₂.freelist.trans h₁.freelist
  luck := h₂.luck.trans h₁.luck

variable [DecidableEq F]

@[simp] theorem Mem.content_write (s : Mem F) (f : F) (o : ℕ) (bs : List Byte) :
    (s.write (.frame f) o bs).content = update s.content f (splice (s.content f) o bs) := rfl

theorem written_write (hf : userPage writable pt a = some (.frame f)) (hlen : a % pgSize + bs.length ≤ pgSize) :
    Written pt a bs s (s.write (.frame f) (a % pgSize) bs) where
  copied := by
    intro i b hb
    have hi := (List.getElem?_eq_some_iff.1 hb).1
    have hin : a % pgSize + i < pgSize := by omega
    refine ⟨f, ?_, ?_⟩
    · rw [userPage_congr (div_add_of_lt hin)]
      exact hf
    · rw [mod_add_of_lt hin, Mem.content_write, update_self, splice,
        if_pos (by omega), Nat.add_sub_cancel_left, List.getD_eq_getElem?_getD, hb]
      rfl
  frame := by
    intro g o hout
    rw [Mem.content_write]
    by_cases hg : g = f
    · subst hg
      rw [update_self, splice]
      split
      · rename_i hin
        have hlt : a % pgSize + (o - a % pgSize) < pgSize := by omega
        refine absurd ?_ (hout (o - a % pgSize) (by omega) ?_)
        · rw [mod_add_of_lt hlt]
          omega
        · rw [userPage_congr (div_add_of_lt hlt)]
          exact hf
      · rfl
    · exact congrFun (update_of_ne hg _ _) o
  freelist := rfl
  luck := rfl

theorem copyoutLoop_nil (pt : PageTable F) (fuel a : ℕ) : copyoutLoop pt fuel a [] = pure true := by
  cases fuel with
  | zero => rfl
  | succ fuel => rfl

/-- `copyout` stops at the first address that the user cannot write to. -/
theorem copyoutLoop_writes (h : UserPages pt) (fuel : ℕ) (hfuel : bs.length ≤ fuel) :
    Ends (copyoutLoop pt fuel a bs) s (fun r t => ∃ m, Written pt a (bs.take m) s t ∧
      ((r = true ∧ m = bs.length) ∨
        (r = false ∧ m < bs.length ∧ userPage writable pt (a + m) = none))) E := by
  induction fuel generalizing a bs s with
  | zero =>
    obtain rfl : bs = [] := List.eq_nil_of_length_eq_zero (by omega)
    exact ⟨0, Written.nil pt a s, Or.inl ⟨rfl, rfl⟩⟩
  | succ fuel ih =>
    have hfail : bs ≠ [] → userPage writable pt a = none → ∃ m, Written pt a (bs.take m) s s ∧
        ((false = true ∧ m = bs.length) ∨
          (false = false ∧ m < bs.length ∧ userPage writable pt (a + m) = none)) := by
      intro hne hnone
      exact ⟨0, Written.nil pt a s, Or.inr ⟨rfl, List.length_pos_iff.2 hne, hnone⟩⟩
    have hdiv := pgRoundDown_div a
    have hsame : userPage writable pt (pgRoundDown a) = userPage writable pt a := userPage_congr hdiv
    rw [copyoutLoop]
    refine ends_ite (fun hnil => ?_) (fun hne => ?_)
    · subst hnil
      exact ⟨0, Written.nil pt a s, Or.inl ⟨rfl, rfl⟩⟩
    refine ends_ite (fun hge => ?_) (fun hlt => ?_)
    · refine hfail hne ?_
      rw [← hsame, userPage, if_pos hge]
    rw [ends_bind]
    refine walk_ends (by omega) s ?_
    have hleaf : leafAt pt (a / pgSize) = (pt.find (px (pgRoundDown a))).join := by
      rw [← hdiv]
      rfl
    have hpage : userPage writable pt a = (leafAt pt (a / pgSize)).bind
        (fun leaf => if writable leaf.perm then some leaf.page else none) := by
      rw [← hsame, userPage, if_neg hlt, hdiv]
    rcases hfind : pt.find (px (pgRoundDown a)) with _ | _ | leaf
    · exact hfail hne (by rw [hpage, hleaf, hfind]; rfl)
    · exact hfail hne (by rw [hpage, hleaf, hfind]; rfl)
    rw [hpage, hleaf, hfind] at hfail
    rw [hleaf, hfind] at hpage
    change userPage writable pt a = if writable leaf.perm = true then some leaf.page else none at hpage
    refine ends_ite (fun hperm => ?_) (fun hperm => ?_)
    · refine hfail hne ?_
      refine if_neg (fun hw => ?_)
      rw [writable, Bool.and_eq_true_iff] at hw
      rw [hw.1, hw.2] at hperm
      simp at hperm
    have hw : writable leaf.perm = true := by
      rw [writable]
      simpa using hperm
    rw [if_pos hw] at hpage
    obtain ⟨f, hf⟩ := h.page_eq (fun _ => readable_of_writable) hpage
    rw [hf] at hpage ⊢
    simp only [ends_bind, ends_modify, sub_pgRoundDown]
    have hmod := Nat.mod_lt a (show 0 < pgSize by decide)
    have hpos := List.length_pos_iff.2 hne
    -- the bytes that go to this page
    generalize hn : min (pgSize - a % pgSize) bs.length = n
    have hlen : (bs.take n).length = n := by
      rw [List.length_take]
      omega
    have hfirst : Written pt a (bs.take n) s (s.write (.frame f) (a % pgSize) (bs.take n)) :=
      written_write hpage (by omega)
    rcases Nat.lt_or_ge n bs.length with hmore | hlast
    · have hnext : pgRoundDown a + pgSize = a + n := by
        rw [pgRoundDown_next]
        omega
      rw [hnext]
      have hfuel : (bs.drop n).length ≤ fuel := by
        rw [List.length_drop]
        omega
      refine (ih hfuel).imp ?_
      rintro r t ⟨m, hwritten, hend⟩
      have hall := hfirst.append h hlen hwritten
      rw [← List.take_add] at hall
      rw [List.length_drop, Nat.add_assoc] at hend
      refine ⟨n + m, hall, ?_⟩
      rcases hend with ⟨hr, hm⟩ | ⟨hr, hm, hnone⟩
      · exact Or.inl ⟨hr, by omega⟩
      · exact Or.inr ⟨hr, by omega, hnone⟩
    · -- this was the last page
      rw [List.drop_eq_nil_of_le hlast, copyoutLoop_nil]
      exact ⟨n, hfirst, Or.inl ⟨rfl, by omega⟩⟩

end Copies

end Xv6.VirtualMemory
