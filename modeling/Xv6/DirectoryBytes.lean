import Xv6.FileActions

/-!
# The bytes of directories

No action writes to a directory but the entries that `dirlink` and `unlink` make. The content of
a directory is therefore what it was, with such entries written over it.
-/

namespace Xv6.FileSystem

open ByteBlocks Function

/-- The content `c` with the entries `ws` written over it, each to its slot. -/
def putEntries (c : List Byte) (ws : List (ℕ × List Byte)) : List Byte :=
  ws.foldl (fun c w => overwrite c (direntSize * w.1) w.2) c

variable {sb : Superblock} {A W : ℕ → Prop} {D : Prop} {s t u : FS} {i l p : ℕ} {bs c : List Byte}

theorem content_congr (hsize : (t.current i).size = (s.current i).size)
    (hbyte : ∀ p < (s.current i).size,
      byteAt t.data (t.current i) p = byteAt s.data (s.current i) p) : t.content i = s.content i := by
  rw [FS.content, FS.content, hsize]
  refine List.map_congr_left (fun p hp => ?_)
  rw [hbyte p (List.mem_range.1 hp)]

theorem sourceBytes_kernel : sourceBytes (fromKernel bs) bs.length = bs := by
  refine List.ext_getElem (by simp [sourceBytes]) (fun j hj hj' => ?_)
  simp [sourceBytes, fromKernel, List.getElem?_eq_getElem hj']

theorem Wrote.content_entry {m : ℕ} {a : ℕ → ℕ} (hbs : bs.length = direntSize)
    (h : Wrote sb i (fromKernel bs) (direntSize * l) direntSize s t m u a) (hl : s.live i)
    (hi : i < sb.ninodes) (htype : (s.body i).type ≠ .none) (hdense : s.dense i) :
    t.content i = s.content i ∨ t.content i = overwrite (s.content i) (direntSize * l) bs := by
  obtain ⟨hwritten, hm⟩ := h.entry hbs
  have hcontent := h.content hl hwritten hi htype hdense
  rcases hm with rfl | rfl
  · refine .inl (hcontent.trans ?_)
    simp [overwrite, sourceBytes]
  · rw [← hbs, sourceBytes_kernel] at hcontent
    rw [hbs] at hcontent
    exact .inr hcontent

/-- The bytes of the directory `i` in `t` are those it had in `s`, or none if it is new, with
entries written over them; only if `D`, anything is new. -/
def Composed (D : Prop) (i : ℕ) (s t : FS) : Prop :=
  ∃ base ws, ((s.current i).type = .dir ∧ base = s.content i ∨ D ∧ base = []) ∧ (ws ≠ [] → D) ∧
    (∀ w ∈ ws, EntryBytes w.2) ∧ t.content i = putEntries base ws

theorem Composed.refl (h : (s.current i).type = .dir) : Composed D i s s :=
  ⟨s.content i, [], .inl ⟨h, rfl⟩, fun hne => absurd rfl hne, by simp, rfl⟩

theorem Composed.congr (h : Composed D i s t) (hcontent : u.content i = t.content i) :
    Composed D i s u := by
  obtain ⟨base, ws, hbase, hD, hws, heq⟩ := h
  exact ⟨base, ws, hbase, hD, hws, hcontent.trans heq⟩

theorem Composed.entry (h : Composed D i s t) (hD : D) (hbs : EntryBytes bs)
    (hcontent : u.content i = overwrite (t.content i) (direntSize * l) bs) : Composed D i s u := by
  obtain ⟨base, ws, hbase, -, hws, heq⟩ := h
  refine ⟨base, ws ++ [(l, bs)], hbase, fun _ => hD, ?_, ?_⟩
  · intro w hw
    rcases List.mem_append.1 hw with hw | hw
    · exact hws w hw
    · rw [List.mem_singleton.1 hw]
      exact hbs
  · rw [hcontent, heq, putEntries, putEntries, List.foldl_append]
    rfl

theorem Composed.step (hi : i < sb.ninodes) (hA : A i → D) (ht : t.Filled sb)
    (h : (t.current i).type = .dir → Composed D i s t) (ha : Action sb A W D t u)
    (hdir : (u.current i).type = .dir) : Composed D i s u := by
  cases ha.at hi with
  | kept type size bytes =>
    rw [type] at hdir
    refine (h hdir).congr (content_congr size (fun p hp => ?_))
    obtain ⟨x, hx⟩ := Option.ne_none_iff_exists'.1 (ht i hi hdir p hp)
    rw [hx]
    exact bytes (by rw [hdir]; decide) p x hx
  | alloc allowed _ size =>
    refine ⟨[], [], .inr ⟨hA allowed, rfl⟩, fun hne => absurd rfl hne, by simp, ?_⟩
    rw [FS.content, size]
    rfl
  | erase free => cases free.symm.trans hdir
  | trunc _ file type _ => exact absurd (type.symm.trans hdir) file
  | write live typed target wrote =>
    rw [wrote.current_self live] at hdir
    have hdirt : (t.current i).type = .dir := by rwa [FS.current_of_live live]
    rcases target with ⟨hD, -, l, bs, rfl, rfl, rfl, hbs⟩ | ⟨hfile, -⟩
    · rcases wrote.content_entry hbs.length live hi typed (ht i hi hdirt) with hsame | hput
      · exact (h hdirt).congr hsame
      · exact (h hdirt).entry hD hbs hput
    · exact absurd hdir hfile

/-- On a path of actions a directory is composed of what it was and of entries. -/
theorem Composed.path (hi : i < sb.ninodes) (hA : A i → D) (hs : s.Filled sb)
    (h : Relation.ReflTransGen (Action sb A W D) s t) (hdir : (t.current i).type = .dir) :
    Composed D i s t := by
  have hall : t.Filled sb ∧ ((t.current i).type = .dir → Composed D i s t) := by
    refine ActionPaths.path_keeps (I := fun t => t.Filled sb ∧
      ((t.current i).type = .dir → Composed D i s t)) ?_ h ⟨hs, .refl⟩
    rintro t u ha ⟨ht, hc⟩
    exact ⟨ha.filled ht, Composed.step hi hA ht hc ha⟩
  exact hall.2 hdir

end Xv6.FileSystem
