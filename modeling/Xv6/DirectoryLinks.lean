import Xv6.DirectoryEntries

/-!
# Writing directory entries

An entry is written within one block, so it is written as a whole or not at all.
-/

namespace Xv6.FileSystem

open ByteBlocks Function PanicPrograms SlotOwnership

variable {sb : Superblock} {T : Multiset ℕ} {s t u : FS} {i k m dp inum : ℕ} {d d' : Dinode}
  {data data' : ℕ → Block} {bs : List Byte} {name : Name} {P : Prop} {E : Panic → Prop}

/-- Slot `k` of a directory set to `e`; `k` may be the first slot behind its end. -/
def putSlot (slots : List Dirent) (k : ℕ) (e : Dirent) : List Dirent :=
  slots.take k ++ e :: slots.drop (k + 1)

theorem getElem?_putSlot {slots : List Dirent} {e : Dirent} (hk : k ≤ slots.length) (j : ℕ) :
    (putSlot slots k e)[j]? = if j = k then some e else slots[j]? := by
  have hlen : (slots.take k).length = k := by simp [hk]
  rw [putSlot]
  rcases lt_trichotomy j k with hlt | rfl | hgt
  · rw [List.getElem?_append_left (by omega), if_neg hlt.ne, List.getElem?_take_of_lt hlt]
  · rw [List.getElem?_append_right (by omega), hlen, if_pos rfl, Nat.sub_self]
    rfl
  · rw [List.getElem?_append_right (by omega), hlen, if_neg hgt.ne']
    obtain ⟨n, rfl⟩ := Nat.exists_eq_add_of_lt hgt
    have hsub : k + n + 1 - k = n + 1 := by omega
    rw [hsub, List.getElem?_cons_succ, List.getElem?_drop]
    congr 1
    omega

theorem entryAt_congr (h : ∀ j < direntSize, byteAt data' d' (direntSize * k + j) =
    byteAt data d (direntSize * k + j)) : entryAt data' d' k = entryAt data d k := by
  rw [entryAt, entryAt]
  refine congrArg decodeDirent (List.map_congr_left ?_)
  intro j hj
  rw [h j (List.mem_range.1 hj)]

theorem entryAt_of_bytes (hlen : bs.length = direntSize)
    (h : ∀ j < direntSize, byteAt data d (direntSize * k + j) = bs[j]?) :
    entryAt data d k = decodeDirent bs := by
  rw [entryAt]
  refine congrArg decodeDirent (List.ext_getElem (by simp [hlen]) ?_)
  intro j hj hj'
  have hbyte := h j (by omega)
  rw [List.getElem?_eq_getElem hj'] at hbyte
  simp [hbyte]

theorem entries_putSlot (hdir : d.type = .dir) (hdir' : d'.type = .dir)
    (hk : direntSize * (k + 1) ≤ d.size ∨ direntSize * k = d.size)
    (hsize : d'.size = max d.size (direntSize * k + direntSize)) (hlen : bs.length = direntSize)
    (hself : ∀ j < direntSize, byteAt data' d' (direntSize * k + j) = bs[j]?)
    (hother : ∀ p < d.size, ¬ (direntSize * k ≤ p ∧ p < direntSize * k + direntSize) →
      byteAt data' d' p = byteAt data d p) :
    entries data' d' = putSlot (entries data d) k (decodeDirent bs) := by
  have hd : direntSize = 16 := rfl
  have hl := length_entries data hdir
  have hl' := length_entries data' hdir'
  have hkle : k ≤ (entries data d).length := by
    rw [hl, hd]
    rw [hd] at hk
    omega
  refine List.ext_getElem? ?_
  intro j
  rw [getElem?_putSlot hkle]
  split
  · rename_i heq
    subst heq
    rw [getElem?_entries hdir' (by rw [hsize, Nat.mul_succ]; exact le_max_right _ _),
      entryAt_of_bytes hlen hself]
  · rename_i hne
    by_cases hj : direntSize * (j + 1) ≤ d.size
    · rw [getElem?_entries hdir' (hj.trans (by rw [hsize]; exact le_max_left _ _)),
        getElem?_entries hdir hj, entryAt_congr]
      intro l hlt
      rw [hd] at hlt hj ⊢
      refine hother _ (by omega) ?_
      rw [hd]
      omega
    · have hout : (entries data d).length ≤ j := by
        rw [hl, hd]
        rw [hd] at hj
        omega
      have hout' : (entries data' d').length ≤ j := by
        rw [hl', hsize, hd]
        rw [hd] at hj hk
        omega
      rw [List.getElem?_eq_none hout, List.getElem?_eq_none hout']

theorem fromKernel_ne_none (hlen : bs.length = direntSize) {q : ℕ} (hq : q < direntSize) :
    fromKernel bs q ≠ none := by
  rw [fromKernel, List.getElem?_eq_getElem (by omega)]
  exact Option.some_ne_none _

theorem Written.byte_self {W : ℕ → Prop} (h : Written sb i W s u) (hl : s.live i)
    (hi : i < sb.ninodes) (htype : (s.body i).type ≠ .none) {p : ℕ} (hp : ¬ W p)
    (hpres : byteAt s.data (s.body i) p ≠ none) :
    byteAt u.data (u.body i) p = byteAt s.data (s.body i) p := by
  obtain ⟨x, hx⟩ := Option.ne_none_iff_exists'.1 hpres
  have hself := FS.current_of_live hl
  have hux := h.bytes i hi (by rwa [hself]) p x (fun hc => hp hc.2) (by rwa [hself])
  rw [FS.current_of_live (h.live.2 hl)] at hux
  rw [hux, hx]

theorem byteAt_grown {a : ℕ → ℕ} {z p : ℕ} :
    byteAt data (d.grown a z) p = byteAt data { d with addrs := a } p := rfl

theorem writei_entry_ends (h : Sound sb T s) (hl : s.live dp) (hdir : (s.body dp).type = .dir)
    (hk : direntSize * (k + 1) ≤ (s.body dp).size ∨ direntSize * k = (s.body dp).size)
    (hlen : bs.length = direntSize) (hinum : (decodeDirent bs).inum < sb.ninodes) :
    Ends (writei sb dp (fromKernel bs) (direntSize * k) direntSize) s (fun r t =>
      (r ≠ direntSize ∧ Keeps sb T T s t) ∨
      (r = direntSize ∧ Turn sb T T T s t (t.view sb = update (s.view sb) dp
        { s.view sb dp with slots := putSlot (s.view sb dp).slots k (decodeDirent bs) }))) E := by
  have hd : direntSize = 16 := rfl
  have hi := FS.mem_of_live h hl
  have htype := h.typed dp hl
  have hfilled := h.filled_live hl hdir
  refine (writei_ends h hl).imp ?_
  rintro r t (⟨rfl, rfl⟩ | ⟨m, u, a, rfl, hw⟩)
  · exact .inl ⟨by rw [hd]; decide, .refl h⟩
  · obtain ⟨hwritten, hstop⟩ := hw.stored.stop (fun q hq => by
      rw [Nat.zero_add]
      exact fromKernel_ne_none hlen hq)
    -- A write that stops early has stopped before the entry, which is in one block.
    have hm : m = 0 ∨ m = direntSize := by
      have hle := hw.stored.le
      have hb : bSize = 1024 := rfl
      rw [hd, hb] at hstop
      rw [hd] at hle ⊢
      omega
    have hbody : u.body dp = { s.body dp with addrs := a } := hw.body
    have hbyte : ∀ p < (s.body dp).size, ¬ (direntSize * k ≤ p ∧ p < direntSize * k + m) →
        byteAt t.data ((s.body dp).grown a (direntSize * k + m)) p = byteAt s.data (s.body dp) p := by
      intro p hp hout
      rw [byteAt_grown, ← hbody, hw.data]
      exact hwritten.byte_self hl hi htype hout (hfilled p hp)
    have hnode : nodeOf t.data ((s.body dp).grown a (direntSize * k + m)) =
        { s.view sb dp with slots := entries t.data ((s.body dp).grown a (direntSize * k + m)) } := by
      rw [FS.view_eq hi, FS.current_of_live hl, nodeOf, nodeOf, if_neg htype]
      exact if_neg htype
    rcases hm with rfl | rfl
    · refine .inl ⟨by rw [hd]; decide, ?_⟩
      have hsize : ((s.body dp).grown a (direntSize * k + 0)).size = (s.body dp).size :=
        max_eq_left (by rw [hd] at hk ⊢; omega)
      have hent : entries t.data ((s.body dp).grown a (direntSize * k + 0)) =
          entries s.data (s.body dp) :=
        entries_congr rfl hsize (fun p hp => hbyte p hp (by omega))
      rw [hent, ← slots_view hl hi] at hnode
      obtain ⟨hsound, hstays, hview⟩ := h.rewriteInode hl hw.blocks hw.inode hw.dinode rfl
        (fun _ p hp => by
          rw [hsize] at hp
          rw [hbyte p hp (by omega)]
          exact hfilled p hp)
        (by rw [hnode]; exact h.named dp)
        (fun j hne hj hjtype p x hx => hw.other hl hne hj hjtype hx)
      refine ⟨hsound, hstays, fun _ h => h, ?_⟩
      rw [hview, hnode, update_eq_self]
    · refine .inr ⟨rfl, ?_⟩
      have hself : ∀ j < direntSize, byteAt t.data
          ((s.body dp).grown a (direntSize * k + direntSize)) (direntSize * k + j) = bs[j]? := by
        intro j hj
        obtain ⟨-, hj⟩ := hw.stored.bytes j hj
        rw [byteAt_grown, ← hbody, hw.data, hj, Nat.zero_add]
        rfl
      have hdir' : ((s.body dp).grown a (direntSize * k + direntSize)).type = .dir := hdir
      have hent := entries_putSlot hdir hdir' hk rfl hlen hself hbyte
      rw [← slots_view hl hi] at hent
      rw [hent] at hnode
      obtain ⟨hsound, hstays, hview⟩ := h.rewriteInode hl hw.blocks hw.inode hw.dinode rfl
        (fun _ p hp => by
          by_cases hin : direntSize * k ≤ p ∧ p < direntSize * k + direntSize
          · obtain ⟨j, rfl⟩ := Nat.exists_eq_add_of_le hin.1
            rw [hself j (by omega), List.getElem?_eq_getElem (by omega)]
            exact Option.some_ne_none _
          · have hp' : p < max (s.body dp).size (direntSize * k + direntSize) := hp
            have hlt : p < (s.body dp).size := by
              rw [hd] at hk hp' hin
              omega
            rw [hbyte p hlt hin]
            exact hfilled p hlt)
        (by
          rw [hnode]
          intro e he
          rcases List.mem_append.1 he with he | he
          · exact h.named dp e (List.mem_of_mem_take he)
          · rcases List.mem_cons.1 he with rfl | he
            · exact hinum
            · exact h.named dp e (List.mem_of_mem_drop he))
        (fun j hne hj hjtype p x hx => hw.other hl hne hj hjtype hx)
      rw [hnode] at hview
      exact .of_update h hl hsound hstays hview

def padName (name : Name) : List Byte := name.take dirSiz ++ List.replicate (dirSiz - name.length) 0

theorem length_padName : (padName name).length = dirSiz := by
  simp only [padName, List.length_append, List.length_take, List.length_replicate]
  omega

theorem cutName_padName : cutName (padName name) = cutName name := by
  have hcut : (padName name).take dirSiz = padName name :=
    List.take_of_length_le (by rw [length_padName])
  rw [cutName, hcut, cutName, padName]
  have hpad : ∀ l : List Byte, (l ++ List.replicate (dirSiz - name.length) 0).takeWhile
      (fun c => decide (c ≠ 0)) = l.takeWhile (fun c => decide (c ≠ 0)) := by
    intro l
    induction l with
    | nil => simp
    | cons c l ih =>
      rw [List.cons_append, List.takeWhile_cons, List.takeWhile_cons, ih]
  exact hpad _

theorem encodeDirent_eq : encodeDirent inum name =
    BitVec.ofNat 8 inum :: BitVec.ofNat 8 (inum / 2 ^ 8) :: padName name := by
  simp [encodeDirent, padName]

theorem length_encodeDirent : (encodeDirent inum name).length = direntSize := by
  rw [encodeDirent_eq, List.length_cons, List.length_cons, length_padName]
  rfl

theorem decode_encodeDirent (inum : ℕ) (name : Name) :
    decodeDirent (encodeDirent inum name) = ⟨inum % 2 ^ 16, padName name⟩ := by
  rw [encodeDirent_eq, decodeDirent]
  have hname : ((BitVec.ofNat 8 inum :: BitVec.ofNat 8 (inum / 2 ^ 8) :: padName name).drop 2).take
      dirSiz = padName name := by
    rw [List.drop_succ_cons, List.drop_succ_cons, List.drop_zero]
    exact List.take_of_length_le (by rw [length_padName])
  rw [hname]
  simp only [List.getD_cons_zero, List.getD_cons_succ, BitVec.toNat_ofNat, Dirent.mk.injEq, and_true]
  omega

theorem decode_erased : decodeDirent (List.replicate direntSize 0) = ⟨0, List.replicate dirSiz 0⟩ := by
  decide

/-- Looking a name up and dropping the reference shows no difference in an anchored state. -/
theorem Anchored.settled_eq (h : Anchored sb T s) : settled T (s.view sb) i = s.view sb := by
  rw [settled]
  split
  · rename_i hc
    by_cases htype : (s.view sb i).type = .none
    · rw [← FS.view_of_none htype, update_eq_self]
    · exact absurd (h i htype hc.2).1 hc.1
  · rfl

/-- The directory `dp` of the namespace `v` has been given the entry `name` for inode
`inum`. -/
structure Linked (v w : ℕ → Node) (dp : ℕ) (name : Name) (inum k : ℕ) : Prop where
  dir : (v dp).type = .dir
  absent : lookup name (v dp).slots = none
  le : k ≤ (v dp).slots.length
  empty : ∀ e, (v dp).slots[k]? = some e → e.inum = 0
  eq : w = update v dp
    { v dp with slots := putSlot (v dp).slots k ⟨inum % 2 ^ 16, padName name⟩ }

theorem Searched.slot {off : ℕ} {r : Option Dirent} (hdir : d.type = .dir)
    (h : Searched (entries data d) (fun de => de.inum = 0) 0 d.size (off, r)) :
    ∃ k, off = direntSize * k ∧ (direntSize * (k + 1) ≤ d.size ∨ direntSize * k = d.size) ∧
      (∀ e, (entries data d)[k]? = some e → e.inum = 0) ∧
      (direntSize * k = d.size → ∀ e ∈ entries data d, e.inum ≠ 0) := by
  have hlen := length_entries data hdir
  rw [Searched, List.drop_zero] at h
  cases hidx : (entries data d).findIdx? (fun de => de.inum = 0) with
  | none =>
    rw [hidx] at h
    obtain ⟨-, ⟨k, hk⟩, hoff⟩ := h
    have hoff : off = d.size := hoff (Nat.zero_le _)
    refine ⟨k, hk, .inr (hk.symm.trans hoff), ?_, fun _ e he => ?_⟩
    · intro e he
      have hout : (entries data d).length ≤ k := by
        rw [hlen, ← hoff]
        exact Nat.div_le_of_le_mul hk.le
      rw [List.getElem?_eq_none hout] at he
      cases he
    · simpa using List.findIdx?_eq_none_iff.1 hidx e he
  | some n =>
    rw [hidx] at h
    simp only [Nat.zero_add] at h
    obtain ⟨rfl, -, hlt⟩ := h
    obtain ⟨_, hzero, -⟩ := List.findIdx?_eq_some_iff_getElem.1 hidx
    have hle : direntSize * (n + 1) ≤ d.size := by
      rw [hlen] at hlt
      rw [Nat.mul_comm]
      exact (Nat.le_div_iff_mul_le (by decide)).1 hlt
    refine ⟨n, rfl, .inl hle, ?_, fun hend => ?_⟩
    · intro e he
      rw [List.getElem?_eq_getElem hlt] at he
      cases he
      exact of_decide_eq_true hzero
    · rw [Nat.mul_succ, hend] at hle
      have hpos : 0 < direntSize := by decide
      omega

end Xv6.FileSystem
