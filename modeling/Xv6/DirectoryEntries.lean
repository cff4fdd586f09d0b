import Xv6.FileContent

/-!
# Searching and changing directories

`dirSearch` finds the first entry it is asked for, `dirlookup`, `dirlink` and `isdirempty`
follow. A directory of which every block is there is read without allocating.
-/

namespace Xv6.FileSystem

open ByteBlocks PanicPrograms SlotOwnership

variable {sb : Superblock} {T : Multiset ℕ} {s t u : FS} {i k bn off n fuel dp : ℕ} {d : Dinode}
  {data : ℕ → Block} {found : Dirent → Bool} {short : Panic} {P : Prop} {E : Panic → Prop}

theorem readiLoop_block (hn : 0 < n) (hbn : off / bSize < maxFile)
    (hfit : off % bSize + n ≤ bSize)
    (hne : place s.data (s.body i) (contentPlace (off / bSize)) ≠ 0) :
    Ends (readiLoop sb i toKernel n off n 0 []) s (fun r t => t = s ∧ r = ((n : ℤ),
      slice (s.data (place s.data (s.body i) (contentPlace (off / bSize)))) (off % bSize) n)) E := by
  obtain ⟨m, rfl⟩ := Nat.exists_eq_succ_of_ne_zero hn.ne'
  have hmin : min (m + 1) (bSize - off % bSize) = m + 1 := by omega
  rw [readiLoop, if_neg (by omega)]
  refine (bmap_hit hbn hne).bind ?_
  rintro _ t ⟨rfl, rfl⟩
  rw [if_neg hne]
  simp only [ends_bind, ends_get, toKernel, if_true, Nat.succ_eq_add_one, hmin]
  cases m with
  | zero => simp [readiLoop]
  | succ m => simp [readiLoop]

theorem length_entries (data : ℕ → Block) (hdir : d.type = .dir) :
    (entries data d).length = d.size / direntSize := by
  rw [entries, if_pos hdir]
  simp

theorem getElem?_entries (hdir : d.type = .dir) (hk : direntSize * (k + 1) ≤ d.size) :
    (entries data d)[k]? = some (entryAt data d k) := by
  have hlt : k < d.size / direntSize := by
    rw [Nat.mul_comm] at hk
    exact (Nat.le_div_iff_mul_le (by decide)).2 hk
  rw [entries, if_pos hdir, List.getElem?_map, List.getElem?_range hlt, Option.map_some]

theorem entry_div {j : ℕ} (hj : j < direntSize) :
    (direntSize * k + j) / bSize = direntSize * k / bSize ∧
      (direntSize * k + j) % bSize = direntSize * k % bSize + j ∧
      direntSize * k % bSize + direntSize ≤ bSize := by
  have hd : direntSize = 16 := rfl
  have hb : bSize = 1024 := rfl
  rw [hd] at hj ⊢
  rw [hb]
  omega

/-- `readi` of an entry of a directory, in a block that is there. It is short at the end of a
directory whose size is no multiple of that of an entry. -/
theorem readi_entry_ends (hdir : (s.body i).type = .dir)
    (hpres : byteAt s.data (s.body i) (direntSize * k) ≠ none)
    (hoff : direntSize * k < (s.body i).size) :
    Ends (readi sb i toKernel (direntSize * k) direntSize) s (fun r t => t = s ∧
      if direntSize * (k + 1) ≤ (s.body i).size then
        r.1 = direntSize ∧ (entries s.data (s.body i))[k]? = some (decodeDirent r.2)
      else r.1 ≠ direntSize) E := by
  have hlt := byteAt_lt hpres
  have hne := byteAt_ne_none.1 hpres
  have hmaxsize : maxFile * bSize = 274432 := rfl
  have hd : direntSize = 16 := rfl
  have hsucc : direntSize * (k + 1) = direntSize * k + direntSize := Nat.mul_succ _ _
  have hbn : direntSize * k / bSize < maxFile := (Nat.div_lt_iff_lt_mul (by decide)).2 hlt
  obtain ⟨-, -, hfit⟩ := entry_div (k := k) (j := 0) (by decide)
  simp only [readi, ends_bind, ends_get]
  rw [if_neg (by rw [Nat.mod_eq_of_lt (by omega)]; omega)]
  by_cases hend : direntSize * (k + 1) ≤ (s.body i).size
  · rw [if_neg (by omega)]
    refine (readiLoop_block (by omega) hbn hfit hne).imp ?_
    rintro _ t ⟨rfl, rfl⟩
    rw [if_pos hend]
    refine ⟨rfl, rfl, ?_⟩
    rw [getElem?_entries hdir hend, entryAt, slice]
    dsimp only
    refine congrArg (fun bs => some (decodeDirent bs)) (List.map_congr_left ?_)
    intro j hj
    obtain ⟨hdiv, hmod, -⟩ := entry_div (k := k) (List.mem_range.1 hj)
    rw [byteAt, hdiv, hmod, if_neg hne, Option.getD_some]
  · rw [if_pos (by omega)]
    refine (readiLoop_block (by omega) hbn (by omega) hne).imp ?_
    rintro _ t ⟨rfl, rfl⟩
    rw [if_neg hend]
    refine ⟨rfl, ?_⟩
    change (((t.body i).size - direntSize * k : ℕ) : ℤ) ≠ direntSize
    omega

/-- What a search of `slots` from slot `k` on returns, in a directory of `size` bytes. -/
def Searched (slots : List Dirent) (found : Dirent → Bool) (k size : ℕ) (r : ℕ × Option Dirent) :
    Prop :=
  match (slots.drop k).findIdx? found with
  | some n => r.1 = direntSize * (k + n) ∧ r.2 = slots[k + n]? ∧ k + n < slots.length
  | none => r.2 = none ∧ direntSize ∣ r.1 ∧ (direntSize * k ≤ size → r.1 = size)

theorem dirSearch_ends (sb : Superblock) (found : Dirent → Bool) (short : Panic)
    (hdir : (s.body dp).type = .dir)
    (hfilled : ∀ p < (s.body dp).size, byteAt s.data (s.body dp) p ≠ none)
    (hfuel : (s.body dp).size ≤ direntSize * (k + fuel)) :
    Ends (dirSearch sb dp found short fuel (direntSize * k)) s (fun r t => t = s ∧
      Searched (entries s.data (s.body dp)) found k (s.body dp).size r) (fun e => e = short) := by
  have hlen := length_entries s.data hdir
  have hdone : ∀ k, (s.body dp).size ≤ direntSize * k →
      Searched (entries s.data (s.body dp)) found k (s.body dp).size (direntSize * k, none) := by
    intro k hk
    have hle : (entries s.data (s.body dp)).length ≤ k := by
      rw [hlen]
      exact Nat.div_le_of_le_mul hk
    rw [Searched, List.drop_of_length_le hle]
    exact ⟨rfl, Nat.dvd_mul_right _ _, fun h => le_antisymm h hk⟩
  induction fuel generalizing k with
  | zero => exact ⟨rfl, hdone k hfuel⟩
  | succ fuel ih =>
    simp only [dirSearch, ends_bind, ends_get]
    refine ends_ite ?_ (fun h => ⟨rfl, hdone k (not_lt.1 h)⟩)
    intro hoff
    refine (readi_entry_ends hdir (hfilled _ hoff) hoff).bind ?_
    rintro r t ⟨rfl, hr⟩
    split at hr
    · rename_i hend
      obtain ⟨hr1, hr2⟩ := hr
      obtain ⟨hlt, hget⟩ := List.getElem?_eq_some_iff.1 hr2
      have hdrop := List.drop_eq_getElem_cons hlt
      rw [if_neg (not_not.2 hr1)]
      refine ends_ite ?_ ?_
      · intro hfound
        refine ⟨rfl, ?_⟩
        rw [Searched, hdrop, List.findIdx?_cons, hget, if_pos hfound]
        exact ⟨rfl, hr2.symm, hlt⟩
      · intro hfound
        rw [← Nat.mul_succ]
        refine (ih (k := k + 1) (by rw [Nat.add_assoc, Nat.add_comm 1]; exact hfuel)).imp ?_
        rintro r u ⟨rfl, hs⟩
        refine ⟨rfl, ?_⟩
        rw [Searched, hdrop, List.findIdx?_cons, hget, if_neg hfound]
        rw [Searched] at hs
        cases hidx : ((entries u.data (u.body dp)).drop (k + 1)).findIdx? found with
        | none =>
          rw [hidx] at hs
          exact ⟨hs.1, hs.2.1, fun _ => hs.2.2 hend⟩
        | some n =>
          have hadd : k + 1 + n = k + (n + 1) := by omega
          rw [hidx] at hs
          simp only [hadd] at hs
          exact hs
    · rw [if_pos hr]
      rfl

theorem dirSearch_turn {e : Dirent} {Q : ℕ × Option Dirent → FS → Prop} (hdir : (s.body dp).type = .dir)
    (he : (entries s.data (s.body dp))[k]? = some e)
    (hpres : byteAt s.data (s.body dp) (direntSize * k) ≠ none)
    (hstop : found e = true → Q (direntSize * k, some e) s)
    (hnext : found e = false →
      Ends (dirSearch sb dp found short fuel (direntSize * (k + 1))) s Q E) :
    Ends (dirSearch sb dp found short (fuel + 1) (direntSize * k)) s Q E := by
  obtain ⟨hlt, -⟩ := List.getElem?_eq_some_iff.1 he
  rw [length_entries _ hdir, Nat.lt_div_iff_mul_lt (by decide)] at hlt
  have hend : direntSize * (k + 1) ≤ (s.body dp).size := by
    have hd : direntSize = 16 := rfl
    rw [hd] at hlt ⊢
    omega
  have hoff : direntSize * k < (s.body dp).size := by
    have hd : direntSize = 16 := rfl
    rw [hd] at hend ⊢
    omega
  simp only [dirSearch, ends_bind, ends_get]
  rw [if_pos hoff]
  refine (readi_entry_ends hdir hpres hoff).bind ?_
  rintro r t ⟨rfl, hr⟩
  rw [if_pos hend] at hr
  obtain ⟨hr1, hr2⟩ := hr
  rw [he] at hr2
  rw [if_neg (not_not.2 hr1), ← Option.some.inj hr2]
  refine ends_ite hstop (fun hnot => ?_)
  rw [← Nat.mul_succ]
  exact hnext (Bool.eq_false_iff.2 hnot)

def hasName (name : Name) (de : Dirent) : Bool := de.inum ≠ 0 ∧ namecmp name de.name

/-- The slot in which `dirlookup` finds a name. -/
def lookup (name : Name) (slots : List Dirent) : Option ℕ := slots.findIdx? (hasName name)

theorem lookup_eq_some {name : Name} {slots : List Dirent} (h : lookup name slots = some k) :
    ∃ de, slots[k]? = some de ∧ de.inum ≠ 0 ∧ namecmp name de.name = true := by
  obtain ⟨hlt, hname, -⟩ := List.findIdx?_eq_some_iff_getElem.1 h
  have hname : slots[k].inum ≠ 0 ∧ namecmp name slots[k].name = true := by
    simpa [hasName] using hname
  exact ⟨slots[k], List.getElem?_eq_getElem hlt, hname⟩

theorem slots_view (hl : s.live i) (hi : i < sb.ninodes) :
    (s.view sb i).slots = entries s.data (s.body i) := by
  rw [FS.view_eq hi, FS.current_of_live hl, nodeOf]
  split
  · rename_i hnone
    rw [entries_of_ne (by simp [hnone])]
    rfl
  · rfl

theorem Sound.type_live (h : Sound sb T s) (hl : s.live i) :
    (s.view sb i).type = (s.body i).type := by
  rw [FS.type_view (FS.mem_of_live h hl), FS.current_of_live hl]

theorem Sound.filled_live (h : Sound sb T s) (hl : s.live i) (hdir : (s.body i).type = .dir) :
    ∀ p < (s.body i).size, byteAt s.data (s.body i) p ≠ none := by
  have hfilled := h.filled i (FS.mem_of_live h hl)
  rw [FS.current_of_live hl] at hfilled
  exact hfilled hdir

theorem dirlookup_ends {name : Name} (h : Sound sb T s) (hl : s.live dp) :
    Ends (dirlookup sb dp name) s (fun r t => (s.view sb dp).type = .dir ∧
      match r with
      | none => t = s ∧ lookup name (s.view sb dp).slots = none
      | some (i, off) => Keeps sb T (i ::ₘ T) s t ∧ ∃ k de,
        lookup name (s.view sb dp).slots = some k ∧ (s.view sb dp).slots[k]? = some de ∧
          i = de.inum ∧ off = direntSize * k) (Allowed P) := by
  rw [h.type_live hl]
  simp only [dirlookup, ends_bind, ends_get]
  refine ends_ite (fun _ => ⟨by decide, fun _ => by decide⟩) ?_
  intro hdir
  have hdir := not_not.1 hdir
  have hi := FS.mem_of_live h hl
  rw [ends_bind]
  have hsearch := dirSearch_ends (k := 0) sb (hasName name) .dirlookupRead
    hdir (h.filled_live hl hdir) (by rw [Nat.zero_add]; exact Nat.le_mul_of_pos_left _ (by decide))
  refine hsearch.mono ?_ ?_
  · rintro ⟨off, r⟩ t ⟨rfl, hs⟩
    rw [Searched, List.drop_zero] at hs
    have hslots := slots_view hl hi
    cases hidx : (entries t.data (t.body dp)).findIdx? (hasName name) with
    | none =>
      rw [hidx] at hs
      obtain ⟨rfl, -⟩ := hs
      exact ⟨hdir, rfl, by rw [lookup, hslots, hidx]⟩
    | some n =>
      rw [hidx] at hs
      simp only [Nat.zero_add] at hs
      obtain ⟨rfl, rfl, hlt⟩ := hs
      obtain ⟨de, hget⟩ : ∃ de, (entries t.data (t.body dp))[n]? = some de :=
        ⟨_, List.getElem?_eq_getElem hlt⟩
      rw [hget]
      rw [← hslots] at hidx hget
      have hinum := h.named dp _ (List.mem_of_getElem? hget)
      refine (iget_ends h hinum).bind ?_
      rintro _ u ⟨rfl, hkeep⟩
      exact ⟨hdir, hkeep, n, _, hidx, hget, rfl, rfl⟩
  · rintro _ rfl
    exact ⟨by decide, fun _ => by decide⟩

end Xv6.FileSystem
