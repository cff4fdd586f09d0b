import Xv6.FileReferences

/-!
# The calls keep the counts

One lemma for each function, with what the caller has in hand before and after it. No
function faults.
-/

namespace Xv6.FileTable

open PanicPrograms ReferenceCounts
open FileSystem (FileType)

variable {n : ℕ} {ι π : Type} [DecidableEq ι] [DecidableEq π] {s t : State n ι π} {f : Index} {x : Fd n}
  {pi : π} {ip : ι} {p np : Fin n} {L : Obj ι π → ℤ} {E : Fault → Prop}

theorem iput_ends (h : Inv L s) (hip : 0 < s.iref ip) :
    Ends (iput (some ip)) s (fun _ t => Inv (L - Pi.single (.inode ip) 1) t ∧ Frame s t) E := by
  simp only [iput, ends_bind, ends_get]
  refine ends_ite (fun hlt => absurd hlt (by omega)) (fun _ => ?_)
  rw [ends_modify]
  refine ⟨(h.setRef ip _).of_eq ?_, rfl, rfl, rfl⟩
  rw [sub_sub_cancel_left, Pi.single_neg, ← sub_eq_add_neg]

theorem Pipe.close_flags (x : Pipe) (writable : Bool) (h : x.readopen ≤ 1 ∧ x.writeopen ≤ 1) :
    (x.close writable).readopen ≤ 1 ∧ (x.close writable).writeopen ≤ 1 := by
  cases writable <;> simp [Pipe.close, h]

theorem pipeclose_ends {writable : Bool} (h : Inv L s) (hpi : 0 < s.count (endOf writable pi)) :
    Ends (pipeclose (some pi) writable) s
      (fun _ t => Inv (L - Pi.single (endOf writable pi) 1) t ∧ Frame s t) E := by
  have hsome : ∃ z, s.pipe pi = some z := by
    rcases hz : s.pipe pi with _ | z
    · cases writable <;> simp [endOf, State.count, hz] at hpi
    · exact ⟨z, rfl⟩
  obtain ⟨z, hz⟩ := hsome
  obtain ⟨hr, hw, _⟩ := h.pages pi z hz
  -- only the flag of this end changes, from 1 to 0
  have hset : ∀ o : Option Pipe, (o.map Pipe.readopen).getD 0 = (z.close writable).readopen →
      (o.map Pipe.writeopen).getD 0 = (z.close writable).writeopen →
      (∀ z', o = some z' → 0 < z'.readopen + z'.writeopen) →
      Inv (L - Pi.single (endOf writable pi) 1) (s.setPipe pi o) := by
    intro o hro hwo ho
    have hflags := z.close_flags writable ⟨hr, hw⟩
    refine (h.setPipe ?_).of_eq ?_
    · rintro z' rfl
      change z'.readopen = _ at hro
      change z'.writeopen = _ at hwo
      rw [hro, hwo]
      exact ⟨hflags.1, hflags.2, by rw [← hro, ← hwo]; exact ho z' rfl⟩
    · rw [hro, hwo]
      cases writable <;> simp [endOf, State.count, hz] at hpi
      · have h1 : z.readopen = 1 := by omega
        simp [State.count, hz, Pipe.close, endOf, h1, Pi.single_neg, sub_eq_add_neg]
      · have h1 : z.writeopen = 1 := by omega
        simp [State.count, hz, Pipe.close, endOf, h1, Pi.single_neg, sub_eq_add_neg]
  simp only [pipeclose, ends_bind, ends_get, hz]
  refine ends_ite (fun hboth => ?_) (fun hboth => ?_)
  · rw [ends_modify]
    exact ⟨hset none hboth.1.symm hboth.2.symm (by rintro _ ⟨⟩), rfl, rfl, rfl⟩
  · rw [ends_modify]
    refine ⟨hset (some _) rfl rfl ?_, rfl, rfl, rfl⟩
    rintro z' ⟨⟩
    omega

theorem close_last (h : Inv L s) (hL : Owed L) (hf : (s.file f).ref = 1) :
    Ends (match (s.file f).type with
      | .none => pure ()
      | .pipe => pipeclose (s.file f).pipe (s.file f).writable
      | .inode => iput (s.file f).ip
      | .device => iput (s.file f).ip) (s.setFile f { s.file f with ref := 0, type := .none })
      (fun _ t => Inv (L - Pi.single (.file f) 1) t ∧ Frame s t) E := by
  have hclear := h.clear (f := f)
  rw [hf] at hclear
  have hiput : ∀ ip, (s.file f).target = some (.inode ip) →
      Ends (iput (some ip)) (s.setFile f { s.file f with ref := 0, type := .none })
        (fun _ t => Inv (L - Pi.single (.file f) 1) t ∧ Frame s t) E := by
    intro ip htarget
    have hpos := h.count_pos (r := .inr (.inl f)) htarget (hL.inode ip)
    refine (iput_ends hclear hpos).imp ?_
    rintro _ t ⟨ht, hframe⟩
    refine ⟨ht.of_eq ?_, hframe.ofile, hframe.proc, hframe.cwd⟩
    rw [htarget, one_some, add_sub_cancel_right]
  cases htype : (s.file f).type with
  | none =>
    refine ⟨hclear.of_eq ?_, rfl, rfl, rfl⟩
    simp [File.target, htype]
  | pipe =>
    obtain ⟨pi, hpi⟩ := Option.ne_none_iff_exists'.1 ((h.filled f).pipe htype)
    have htarget : (s.file f).target = some (endOf (s.file f).writable pi) := by
      simp [File.target, htype, hpi]
    have hpos := h.count_pos (r := .inr (.inl f)) htarget (hL.ends _ pi).ge
    have hpos' : 0 < (s.setFile f { s.file f with ref := 0, type := .none }).count
        (endOf (s.file f).writable pi) := by
      cases hw : (s.file f).writable <;> rw [hw] at hpos <;> exact hpos
    rw [hpi]
    refine (pipeclose_ends hclear hpos').imp ?_
    rintro _ t ⟨ht, hframe⟩
    refine ⟨ht.of_eq ?_, hframe.ofile, hframe.proc, hframe.cwd⟩
    rw [htarget, one_some, add_sub_cancel_right]
  | inode =>
    obtain ⟨ip, hip⟩ := Option.ne_none_iff_exists'.1 ((h.filled f).ip (Or.inl htype))
    rw [hip]
    exact hiput ip (by simp [File.target, htype, hip])
  | device =>
    obtain ⟨ip, hip⟩ := Option.ne_none_iff_exists'.1 ((h.filled f).ip (Or.inr htype))
    rw [hip]
    exact hiput ip (by simp [File.target, htype, hip])

theorem fileclose_ends (h : Inv L s) (hL : Owed L) (hf : 0 < (s.file f).ref) :
    Ends (fileclose f) s (fun _ t => Inv (L - Pi.single (.file f) 1) t ∧ Frame s t) E := by
  simp only [fileclose, ends_bind, ends_get]
  refine ends_ite (fun hlt => absurd hlt (by omega)) (fun _ => ends_ite (fun hmore => ?_) (fun hlast => ?_))
  · rw [ends_modify]
    refine ⟨(h.setCount (by omega)).of_eq ?_, rfl, rfl, rfl⟩
    rw [sub_sub_cancel_left, Pi.single_neg, ← sub_eq_add_neg]
  · simp only [ends_bind, ends_modify]
    exact close_last h hL (by omega)

theorem filedup_ends (h : Inv L s) (hf : 0 < (s.file f).ref) :
    Ends (filedup f) s (fun _ t => Inv (L + Pi.single (.file f) 1) t ∧ Frame s t) E := by
  simp only [filedup, ends_bind, ends_get]
  refine ends_ite (fun hlt => absurd hlt (by omega)) (fun _ => ?_)
  rw [ends_modify]
  refine ⟨(h.setCount (by omega)).of_eq ?_, rfl, rfl, rfl⟩
  rw [add_sub_cancel_left]

theorem filealloc_ends (h : Inv L s) :
    Ends filealloc s (fun r t => match r with
      | none => t = s
      | some f => Inv (L + Pi.single (.file f) 1) t ∧ Frame s t ∧ t.pipe = s.pipe ∧ (s.file f).ref = 0 ∧
        (t.file f).ref = 1 ∧ (t.file f).type = .none ∧ ∀ f', f' ≠ f → t.file f' = s.file f') E := by
  simp only [filealloc, ends_bind, ends_get]
  split
  · rfl
  · rename_i f hfind
    have hfree : (s.file f).ref = 0 := by
      have hfound := List.find?_some hfind
      exact of_decide_eq_true hfound
    simp only [ends_bind, ends_modify, ends_pure]
    refine ⟨(h.setCount one_ne_zero).of_eq ?_, ⟨rfl, rfl, rfl⟩, rfl, hfree, ?_, ?_, ?_⟩
    · rw [hfree, sub_zero]
    · simp [State.setFile]
    · simp [State.setFile, h.unused f hfree]
    · intro f' hne
      simp [State.setFile, hne]

theorem fdalloc_ends (h : Inv L s) (hp : s.proc p = .used) (f : Index) :
    Ends (fdalloc p f) s (fun r t => match r with
      | none => t = s
      | some fd => Inv (L - Pi.single (.file f) 1) t ∧ s.ofile (p, fd) = none ∧
        t = s.setOfile (p, fd) (some f)) E := by
  simp only [fdalloc, ends_bind, ends_get]
  split
  · rfl
  · rename_i fd hfind
    have hfree : s.ofile (p, fd) = none := by
      have hfound := List.find?_some hfind
      exact of_decide_eq_true hfound
    simp only [ends_bind, ends_modify, ends_pure]
    exact ⟨h.give hfree hp f, hfree, trivial⟩

omit [DecidableEq ι] [DecidableEq π] in
theorem argfd_ends (fd : ℤ) :
    Ends (argfd p fd) s (fun r t => t = s ∧ ∀ k f, r = some (k, f) → s.ofile (p, k) = some f) E := by
  simp only [argfd, ends_bind, ends_get]
  split
  · refine ⟨rfl, fun k f hr => ?_⟩
    obtain ⟨f', hf', heq⟩ := Option.map_eq_some_iff.1 hr
    cases heq
    exact hf'
  · exact ⟨rfl, by rintro _ _ ⟨⟩⟩

theorem fileclose_loose (h : Inv L s) (hL : Owed L) (hf : 0 < L (.file f)) :
    Ends (fileclose f) s (fun _ t => Inv (L - Pi.single (.file f) 1) t ∧ Frame s t) E :=
  fileclose_ends h hL (h.count_pos_of_loose (o := .file f) hf)

theorem fileclose_both {f0 f1 : Index} (h : Inv (Pi.single (.file f0) 1 + Pi.single (.file f1) 1) s) :
    Ends (fileclose f0) s (fun _ t => Ends (fileclose f1) t (fun _ u => Inv 0 u ∧ Frame s u) E) E := by
  have hL : Owed (Pi.single (.file f0) 1 + Pi.single (.file f1) 1 : Obj ι π → ℤ) := by
    have h0 := (owed_zero (ι := ι) (π := π)).addFile f0 1
    rw [zero_add] at h0
    exact h0.addFile f1 1
  refine (fileclose_loose h hL ?_).imp ?_
  · rw [Pi.add_apply, Pi.single_eq_same, Pi.single_apply]
    split <;> omega
  · rintro _ t ⟨ht, hframe⟩
    rw [add_sub_cancel_left] at ht
    have hL1 : Owed (Pi.single (.file f1) 1 : Obj ι π → ℤ) := by
      have h1 := (owed_zero (ι := ι) (π := π)).addFile f1 1
      rwa [zero_add] at h1
    refine (fileclose_loose ht hL1 (by rw [Pi.single_eq_same]; exact one_pos)).imp ?_
    rintro _ u ⟨hu, hframe'⟩
    exact ⟨hu.of_eq (sub_self _), hframe.trans hframe'⟩

theorem pipe_filled {f0 f1 : Index} (h : Inv L s) (hpi : s.pipe pi = none) (hne : f0 ≠ f1)
    (h0 : (s.file f0).type = .none) (h1 : (s.file f1).type = .none) (href : (s.file f0).ref ≠ 0)
    (href' : (s.file f1).ref ≠ 0) :
    Inv L (((s.setPipe pi (some ⟨1, 1⟩)).setFile f0
      { s.file f0 with type := .pipe, readable := true, writable := false, pipe := some pi }).setFile f1
      { s.file f1 with type := .pipe, readable := false, writable := true, pipe := some pi }) := by
  have hpage : Inv (L + Pi.single (.readEnd pi) 1 + Pi.single (.writeEnd pi) 1)
      (s.setPipe pi (some ⟨1, 1⟩)) := by
    refine (h.setPipe ?_).of_eq ?_
    · rintro z ⟨⟩
      exact ⟨le_rfl, le_rfl, by decide⟩
    · simp [State.count, hpi]
  have hread := hpage.fill (f := f0)
    (y := { s.file f0 with type := .pipe, readable := true, writable := false, pipe := some pi })
    h0 rfl href ⟨fun _ => by rintro ⟨⟩, by simp⟩
  have hsame : ∀ y, ((s.setPipe pi (some ⟨1, 1⟩)).setFile f0 y).file f1 = s.file f1 := by
    intro y
    simp [State.setFile, State.setPipe, hne.symm]
  have hwrite := hread.fill (f := f1)
    (y := { s.file f1 with type := .pipe, readable := false, writable := true, pipe := some pi })
    (by rw [hsame, h1]) (by rw [hsame]) (by rw [hsame]; exact href') ⟨fun _ => by rintro ⟨⟩, by simp⟩
  refine hwrite.of_eq ?_
  change L + Pi.single (.readEnd pi) 1 + Pi.single (.writeEnd pi) 1 - Pi.single (.readEnd pi) 1 -
    Pi.single (.writeEnd pi) 1 = L
  abel

theorem pipealloc_ends {page : Option π} (h : Inv 0 s) (hpage : ∀ pi, page = some pi → s.pipe pi = none) :
    Ends (pipealloc page) s (fun r t => Frame s t ∧ match r with
      | none => Inv 0 t
      | some (f0, f1) => Inv (Pi.single (.file f0) 1 + Pi.single (.file f1) 1) t) E := by
  rw [pipealloc]
  refine (filealloc_ends h).bind ?_
  rintro (_ | f0) t ht
  · cases ht
    exact ⟨.refl s, h⟩
  · obtain ⟨ht, hframe, hpipe, -, href0, htype0, -⟩ := ht
    rw [zero_add] at ht
    refine (filealloc_ends ht).bind ?_
    rintro (_ | f1) u hu
    · cases hu
      dsimp only
      have hL := (owed_zero (ι := ι) (π := π)).addFile f0 1
      rw [zero_add] at hL
      refine (fileclose_loose ht hL (by rw [Pi.single_eq_same]; exact one_pos)).bind ?_
      rintro _ v ⟨hv, hframe'⟩
      exact ⟨hframe.trans hframe', hv.of_eq (sub_self _)⟩
    · obtain ⟨hu, hframe', hpipe', hfree, href1, htype1, hrest⟩ := hu
      have hne : f0 ≠ f1 := by
        rintro rfl
        omega
      cases page with
      | none =>
        simp only [ends_bind]
        refine (fileclose_both hu).imp ?_
        intro _ v hv
        refine hv.imp ?_
        rintro _ w ⟨hw, hframe''⟩
        exact ⟨(hframe.trans hframe').trans hframe'', hw⟩
      | some pi =>
        have h0 : u.file f0 = t.file f0 := hrest f0 hne
        have hpi : u.pipe pi = none := by rw [hpipe', hpipe, hpage pi rfl]
        simp only [ends_bind, ends_modify, ends_pure]
        refine ⟨⟨hframe'.ofile.trans hframe.ofile, hframe'.proc.trans hframe.proc,
          hframe'.cwd.trans hframe.cwd⟩, ?_⟩
        have hfill := pipe_filled hu hpi hne (by rw [h0, htype0]) htype1 (by rw [h0, href0]; exact one_ne_zero)
          (by rw [href1]; exact one_ne_zero)
        have hsame : ∀ y, ((u.setPipe pi (some ⟨1, 1⟩)).setFile f0 y).file f1 = u.file f1 := by
          intro y
          simp [State.setFile, State.setPipe, hne.symm]
        rw [hsame]
        exact hfill

/-- What a call that keeps the processes leaves behind. -/
structure After (s t : State n ι π) : Prop where
  inv : Inv 0 t
  proc : t.proc = s.proc
  cwd : t.cwd = s.cwd

theorem sysDup_ends (h : Inv 0 s) (hp : s.proc p = .used) (fd : ℤ) :
    Ends (sysDup p fd) s (fun _ t => After s t) E := by
  rw [sysDup]
  refine (argfd_ends fd).bind ?_
  rintro (_ | ⟨k, f⟩) _ ⟨rfl, hf⟩
  · exact ⟨h, rfl, rfl⟩
  · have href := h.ref_pos (hf k f rfl) le_rfl
    refine (fdalloc_ends h hp f).bind ?_
    rintro (_ | fd') t ht
    · cases ht
      exact ⟨h, rfl, rfl⟩
    · obtain ⟨ht, -, rfl⟩ := ht
      dsimp only
      rw [ends_bind]
      -- the descriptor is written before the count
      refine (filedup_ends ht href).imp ?_
      rintro _ u ⟨hu, hframe⟩
      exact ⟨hu.of_eq (sub_add_cancel _ _), hframe.proc, hframe.cwd⟩

theorem sysClose_ends (h : Inv 0 s) (fd : ℤ) : Ends (sysClose p fd) s (fun _ t => After s t) E := by
  rw [sysClose]
  refine (argfd_ends fd).bind ?_
  rintro (_ | ⟨k, f⟩) _ ⟨rfl, hf⟩
  · exact ⟨h, rfl, rfl⟩
  · have hclose := h.takeBack (hf k f rfl)
    simp only [ends_bind, ends_modify, ends_pure]
    refine (fileclose_loose hclose (owed_zero.addFile f 1) ?_).imp ?_
    · simp
    · rintro _ t ⟨ht, hframe⟩
      exact ⟨ht.of_eq (add_sub_cancel_right _ _), hframe.proc, hframe.cwd⟩

/-- The end of a `sys_pipe` that has not found two descriptors, or has not told them. -/
theorem pipeFails {u : State n ι π} {f0 f1 : Index} (h : Inv (Pi.single (.file f0) 1 + Pi.single (.file f1) 1) u)
    (hproc : u.proc = s.proc) (hcwd : u.cwd = s.cwd) :
    Ends (fileclose f0) u (fun _ v => Ends (fileclose f1) v (fun _ w => After s w) E) E := by
  refine (fileclose_both h).imp ?_
  intro _ v hv
  refine hv.imp ?_
  rintro _ w ⟨hw, hframe⟩
  exact ⟨hw, hframe.proc.trans hproc, hframe.cwd.trans hcwd⟩

theorem sysPipe_ends {page : Option π} (h : Inv 0 s) (hp : s.proc p = .used)
    (hpage : ∀ pi, page = some pi → s.pipe pi = none) (copyout : Bool × Bool) :
    Ends (sysPipe p page copyout) s (fun _ t => After s t) E := by
  rw [sysPipe]
  refine (pipealloc_ends h hpage).bind ?_
  rintro (_ | ⟨rf, wf⟩) t ⟨hframe, ht⟩
  · exact ⟨ht, hframe.proc, hframe.cwd⟩
  · have hpt : t.proc p = .used := by rw [hframe.proc, hp]
    refine (fdalloc_ends ht hpt rf).bind ?_
    rintro (_ | fd0) u hu
    · cases hu
      simp only [ends_bind]
      exact pipeFails ht hframe.proc hframe.cwd
    · obtain ⟨hu, hfree0, rfl⟩ := hu
      refine (fdalloc_ends hu hpt wf).bind ?_
      rintro (_ | fd1) v hv
      · cases hv
        simp only [ends_bind, ends_modify]
        have hback := hu.takeBack (x := (p, fd0)) (f := rf) (by simp [State.setOfile])
        exact pipeFails (hback.of_eq (sub_add_cancel _ _)) hframe.proc hframe.cwd
      · obtain ⟨hv, hfree1, rfl⟩ := hv
        have hne : (p, fd0) ≠ (p, fd1) := by
          intro heq
          rw [← heq] at hfree1
          simp [State.setOfile] at hfree1
        refine ends_ite (fun _ => ?_) (fun _ => ?_)
        · simp only [ends_bind, ends_modify]
          have hback0 := hv.takeBack (x := (p, fd0)) (f := rf) (by simp [State.setOfile, hne])
          have hback1 := hback0.takeBack (x := (p, fd1)) (f := wf) (by simp [State.setOfile, hne.symm])
          refine pipeFails (hback1.of_eq ?_) hframe.proc hframe.cwd
          abel
        · exact ⟨hv.of_eq (by abel), hframe.proc, hframe.cwd⟩

end Xv6.FileTable
