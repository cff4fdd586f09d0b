import Xv6.FileWrites
import Xv6.TransitionRuns

/-!
# Writers that share a file

Calls of `filewrite` by any number of processes on one `struct file`. What a call does between
`begin_op` and `end_op` is one step: the lock of the inode is held while the offset is read,
the chunk is written and the offset moves on. Between its chunks, the other processes write
theirs, and files other than this one change.
-/

namespace Xv6.SharedWriters

open ByteBlocks FileSystem FileWrites Function PanicPrograms TransitionRuns

/-- A call `filewrite(f, addr, n)` that has written `i` bytes. -/
structure Call where
  src : ℕ → Option Byte
  n : ℕ
  i : ℕ

def Call.n1 (c : Call) : ℕ := min (c.n - c.i) maxChunk

def Call.chunk (c : Call) : List Byte := sourceBytes (fun q => c.src (c.i + q)) c.n1

/-- The shared file and the calls of the processes. `sections` and `past` are ghosts: the
chunks in the order of their critical sections, and for each process the sources of the calls
that have returned their full length. -/
structure State (ι : Type) where
  shared : FileWrites.State
  call : ι → Option Call
  sections : List (ι × List Byte)
  past : ι → List (List Byte)

inductive Action (ι : Type)
  /-- a process calls `filewrite` -/
  | call (p : ι) (src : ℕ → Option Byte) (n : ℕ)
  /-- the next turn of its loop, or its return -/
  | turn (p : ι)
  /-- a change of the file system that leaves the file alone -/
  | other (fs : FS)

variable {ι : Type} [DecidableEq ι]

def State.setCall (s : State ι) (p : ι) (c : Option Call) : State ι :=
  { s with call := update s.call p c }

/-- The turn of the loop of `filewrite` at the end of which the call has written a chunk or
has given up. -/
def turn (sb : Superblock) (s : State ι) (p : ι) (c : Call) : Option (State ι) :=
  match writeChunk sb c.src c.i c.n1 s.shared with
  | .error _ => none
  | .ok (r, shared) =>
    let s := { s with shared := shared, sections := s.sections ++ [(p, c.chunk)] }
    some (s.setCall p (if r = c.n1 then some { c with i := c.i + c.n1 } else none))

def step (sb : Superblock) (s : State ι) : Action ι → Option (State ι)
  | .call p src n => if s.call p = none then some (s.setCall p (some ⟨src, n, 0⟩)) else none
  | .turn p =>
    match s.call p with
    | none => none
    | some c =>
      if c.i < c.n then turn sb s p c
      else some { s.setCall p none with
        past := update s.past p (s.past p ++ [sourceBytes c.src c.n]) }
  | .other fs => some { s with shared := { s.shared with fs := fs } }

/-- Sources can be read, a chunk finds free blocks for all it has to allocate, and nobody else
writes to the file or cuts it. -/
def supplied (sb : Superblock) (s : State ι) : Action ι → Prop
  | .call _ src n => ∀ q < n, src q ≠ none
  | .turn p => ∀ c, s.call p = some c → c.i < c.n →
    (s.shared.fs.missing s.shared.file.ip (rangePlaces s.shared.file.off c.n1)).card ≤
      (s.shared.fs.free sb).card
  | .other fs => Ready sb { s.shared with fs := fs } ∧
    fs.content s.shared.file.ip = s.shared.content

/-- The chunk does not take the file past the largest size. -/
def fits (s : State ι) : Action ι → Prop
  | .turn p => ∀ c, s.call p = some c → c.i < c.n → s.shared.file.off + c.n1 ≤ maxFile * bSize
  | _ => True

structure Start (sb : Superblock) (s : State ι) : Prop where
  ready : Ready sb s.shared
  off : s.shared.file.off = s.shared.content.length
  call : ∀ p, s.call p = none
  sections : s.sections = []
  past : ∀ p, s.past p = []

def State.current (s : State ι) (p : ι) : List Byte :=
  match s.call p with
  | none => []
  | some c => sourceBytes c.src c.i

/-- The chunks of one process, in the order of their critical sections. -/
def State.chunks (s : State ι) (p : ι) : List (List Byte) :=
  (s.sections.filter (fun x => x.1 = p)).map Prod.snd

/-- The file is what it was, and then the chunks in the order of their critical sections; the
offset is at its end. Every process has written the sources of its past calls and then a part
of its current one. -/
structure Appended (sb : Superblock) (s t : State ι) : Prop where
  ready : Ready sb t.shared
  calls : ∀ p c, t.call p = some c → (∀ q < c.n, c.src q ≠ none) ∧ c.i ≤ c.n
  ip : t.shared.file.ip = s.shared.file.ip
  content : t.shared.content = s.shared.content ++ (t.sections.map Prod.snd).flatten
  off : t.shared.file.off = t.shared.content.length
  chunks : ∀ p, (t.chunks p).flatten = (t.past p).flatten ++ t.current p

variable {sb : Superblock} {s t u : State ι} {p q : ι} {c : Call}

omit [DecidableEq ι] in
theorem State.current_some (h : s.call p = some c) : s.current p = sourceBytes c.src c.i := by
  rw [State.current, h]

omit [DecidableEq ι] in
theorem State.current_none (h : s.call p = none) : s.current p = [] := by rw [State.current, h]

omit [DecidableEq ι] in
theorem State.current_congr (h : t.call p = s.call p) : t.current p = s.current p := by
  rw [State.current, State.current, h]

theorem Start.appended (h : Start sb s) : Appended sb s s where
  ready := h.ready
  calls := by
    intro p c hc
    rw [h.call p] at hc
    cases hc
  ip := rfl
  content := by rw [h.sections]; simp
  off := h.off
  chunks := by
    intro p
    rw [State.chunks, h.sections, h.past, State.current_none (h.call p)]
    rfl

omit [DecidableEq ι] in
theorem overwrite_length (l bs : List Byte) : overwrite l l.length bs = l ++ bs := by
  simp [overwrite]

theorem Appended.move (h : Appended sb s t) (hother : ∀ q ≠ p, u.call q = t.call q ∧
      u.chunks q = t.chunks q ∧ u.past q = t.past q)
    (hcall : ∀ c, u.call p = some c → (∀ q < c.n, c.src q ≠ none) ∧ c.i ≤ c.n)
    (hchunks : (u.chunks p).flatten = (u.past p).flatten ++ u.current p)
    (hready : Ready sb u.shared) (hip : u.shared.file.ip = t.shared.file.ip)
    (hcontent : u.shared.content = s.shared.content ++ (u.sections.map Prod.snd).flatten)
    (hoff : u.shared.file.off = u.shared.content.length) : Appended sb s u := by
  refine ⟨hready, fun q c hc => ?_, hip.trans h.ip, hcontent, hoff, fun q => ?_⟩
  · rcases eq_or_ne q p with rfl | hne
    · exact hcall c hc
    · rw [(hother q hne).1] at hc
      exact h.calls q c hc
  · rcases eq_or_ne q p with rfl | hne
    · exact hchunks
    · obtain ⟨hc, hch, hpast⟩ := hother q hne
      rw [hch, hpast, State.current_congr hc]
      exact h.chunks q

/-- The critical section of a chunk appends it. -/
theorem turn_appends (h : Appended sb s t) (hc : t.call p = some c) (hlt : c.i < c.n)
    (hok : supplied sb t (.turn p)) (hfits : fits t (.turn p)) :
    ∃ shared, turn sb t p c = some ({ t with
        shared := shared, sections := t.sections ++ [(p, c.chunk)] }.setCall p
          (some { c with i := c.i + c.n1 })) ∧
      Ready sb shared ∧ shared.file.ip = t.shared.file.ip ∧
      shared.file.off = shared.content.length ∧ shared.content = t.shared.content ++ c.chunk := by
  have hle : c.n1 ≤ c.n - c.i := min_le_left _ _
  have hsize : t.shared.file.off ≤ (t.shared.fs.current t.shared.file.ip).size := by
    rw [← FileWrites.State.length_content]
    exact h.off.le
  have hsrc : ∀ q < c.n1, c.src (c.i + q) ≠ none := fun q hq => (h.calls p c hc).1 _ (by omega)
  obtain ⟨r, shared, hrun, m, hm, hadv, hr, hiff, -⟩ :=
    (writeChunk_ends (E := fun _ => False) h.ready hsrc).exists_ok
  have hfull : r = c.n1 := hiff.2 ⟨hsize, hfits c hc hlt, hok c hc hlt⟩
  obtain rfl : m = c.n1 := by omega
  have hcontent : shared.content = t.shared.content ++ c.chunk := by
    rw [hadv.content, h.off, overwrite_length]
    rfl
  refine ⟨shared, ?_, hadv.ready, by rw [hadv.file], ?_, hcontent⟩
  · rw [turn, hrun]
    dsimp only
    rw [if_pos hfull]
  · rw [hcontent, hadv.file, List.length_append, ← h.off, Call.chunk, length_sourceBytes]

theorem Appended.call {src : ℕ → Option Byte} {n : ℕ} (h : Appended sb s t) (hnone : t.call p = none)
    (hsrc : ∀ q < n, src q ≠ none) : Appended sb s (t.setCall p (some ⟨src, n, 0⟩)) := by
  refine h.move (p := p) (fun q hne => ?_) (fun c hc => ?_) ?_ h.ready rfl h.content h.off
  · simp [State.setCall, State.chunks, hne]
  · simp only [State.setCall, update_self] at hc
    cases hc
    exact ⟨hsrc, Nat.zero_le n⟩
  · have hchunks := h.chunks p
    rw [State.current_none hnone] at hchunks
    rw [State.current_some (c := ⟨src, n, 0⟩) (by simp [State.setCall])]
    exact hchunks

theorem Appended.turn (h : Appended sb s t) (hc : t.call p = some c) (hlt : c.i < c.n)
    (hok : supplied sb t (.turn p)) (hfits : fits t (.turn p)) (hstep : turn sb t p c = some u) :
    Appended sb s u := by
  obtain ⟨shared, hturn, hready, hip, hoff, hcontent⟩ := turn_appends h hc hlt hok hfits
  obtain rfl := Option.some.inj (hturn.symm.trans hstep)
  have hle : c.n1 ≤ c.n - c.i := min_le_left _ _
  refine h.move (p := p) (fun q hne => ?_) (fun c' hc' => ?_) ?_ hready hip ?_ hoff
  · simp [State.setCall, State.chunks, hne, Ne.symm hne]
  · simp only [State.setCall, update_self] at hc'
    cases hc'
    exact ⟨(h.calls p c hc).1, by dsimp only; omega⟩
  · have hchunks := h.chunks p
    rw [State.current_some hc] at hchunks
    rw [State.current_some (c := { c with i := c.i + c.n1 }) (by simp [State.setCall])]
    simp only [State.chunks, State.setCall, List.filter_append, List.map_append,
      List.flatten_append] at hchunks ⊢
    rw [hchunks, List.append_assoc, sourceBytes_add]
    simp [Call.chunk]
  · simp only [State.setCall]
    rw [hcontent, h.content]
    simp

theorem Appended.returns (h : Appended sb s t) (hc : t.call p = some c) (hge : ¬ c.i < c.n) :
    Appended sb s { t.setCall p none with
      past := update t.past p (t.past p ++ [sourceBytes c.src c.n]) } := by
  have hin : c.i = c.n := by
    have := (h.calls p c hc).2
    omega
  refine h.move (p := p) (fun q hne => ?_) (fun c' hc' => ?_) ?_ h.ready rfl h.content h.off
  · simp [State.setCall, State.chunks, hne]
  · simp [State.setCall] at hc'
  · have hchunks := h.chunks p
    rw [State.current_some hc, hin] at hchunks
    rw [State.current_none (by simp [State.setCall])]
    simp only [State.chunks, State.setCall] at hchunks ⊢
    rw [hchunks, update_self]
    simp

theorem Appended.step {a : Action ι} (h : Appended sb s t) (hok : supplied sb t a) (hfits : fits t a)
    (hstep : step sb t a = some u) : Appended sb s u := by
  cases a with
  | call p src n =>
    simp only [SharedWriters.step] at hstep
    split at hstep
    · rename_i hnone
      cases hstep
      exact h.call hnone hok
    · cases hstep
  | turn p =>
    simp only [SharedWriters.step] at hstep
    split at hstep
    · cases hstep
    · rename_i c hc
      split at hstep
      · rename_i hlt
        exact h.turn hc hlt hok hfits hstep
      · rename_i hge
        cases hstep
        exact h.returns hc hge
  | other fs =>
    cases hstep
    obtain ⟨hready, hcontent⟩ := hok
    exact ⟨hready, h.calls, h.ip, hcontent.trans h.content,
      h.off.trans (congrArg List.length hcontent.symm), h.chunks⟩

/-- No update is lost. After every run in which no chunk takes the file past the largest size,
the content is what it was and then all chunks, in the order of their critical sections; each
process has written its calls in their order; and the offset is the size. A process with a call
in progress can go on. -/
theorem shared_writers_lose_nothing {as : List (Action ι)} (hstart : Start sb s)
    (h : Run (step sb) (fun v a => supplied sb v a ∧ fits v a) s as t) :
    t.shared.file.ip = s.shared.file.ip ∧
    t.shared.content = s.shared.content ++ (t.sections.map Prod.snd).flatten ∧
    (∀ p, (t.chunks p).flatten = (t.past p).flatten ++ t.current p) ∧
    t.shared.file.off = (t.shared.fs.current t.shared.file.ip).size ∧
    ∀ p, t.call p ≠ none → supplied sb t (.turn p) → fits t (.turn p) →
      step sb t (.turn p) ≠ none := by
  have hall : Appended sb s t :=
    h.invariant hstart.appended (fun v a w hv ok next => hv.step ok.1 ok.2 next)
  refine ⟨hall.ip, hall.content, hall.chunks, ?_, fun p hcall hok hfits => ?_⟩
  · rw [hall.off, FileWrites.State.length_content]
  · obtain ⟨c, hc⟩ := Option.ne_none_iff_exists'.1 hcall
    simp only [step, hc]
    split
    · rename_i hlt
      obtain ⟨shared, hturn, -⟩ := turn_appends hall hc hlt hok hfits
      rw [hturn]
      exact Option.some_ne_none _
    · exact Option.some_ne_none _

def atEnd (ι : Type) (shared : FileWrites.State) : State ι :=
  { shared := shared, call := fun _ => none, sections := [], past := fun _ => [] }

omit [DecidableEq ι] in
theorem atEnd_start {shared : FileWrites.State} (h : Ready sb shared)
    (hoff : shared.file.off = shared.content.length) : Start sb (atEnd ι shared) :=
  ⟨h, hoff, fun _ => rfl, rfl, fun _ => rfl⟩

/-- Two processes call, and one of them writes. -/
theorem shared_writers_lose_nothing_two :
    ∃ t, Run (step fileSb) (fun v a => supplied fileSb v a ∧ fits v a) (atEnd Bool (oneBlock 1024))
      [.call true (fun _ => some 7) 5, .call false (fun _ => some 8) 3, .turn true] t ∧
      t.shared.content = (oneBlock 1024).content ++ (t.sections.map Prod.snd).flatten := by
  have hstart : Start fileSb (atEnd Bool (oneBlock 1024)) :=
    atEnd_start (oneBlock_ready (by decide)) (by simp [FileWrites.State.length_content]; rfl)
  have hsrc : ∀ (x : Byte) (n : ℕ), ∀ q < n, (fun _ : ℕ => some x) q ≠ none :=
    fun x _ _ _ => Option.some_ne_none x
  have hcalls := (hstart.appended.call (p := true) (hstart.call true) (hsrc 7 5)).call (p := false)
    (by simp [State.setCall, atEnd]) (hsrc 8 3)
  have hcall : (((atEnd Bool (oneBlock 1024)).setCall true (some ⟨fun _ => some 7, 5, 0⟩)).setCall false
      (some ⟨fun _ => some 8, 3, 0⟩)).call true = some ⟨fun _ => some 7, 5, 0⟩ := by
    simp [State.setCall]
  have hok : supplied fileSb (((atEnd Bool (oneBlock 1024)).setCall true
      (some ⟨fun _ => some 7, 5, 0⟩)).setCall false (some ⟨fun _ => some 8, 3, 0⟩)) (.turn true) := by
    intro c hc _
    cases hcall.symm.trans hc
    show ((fileFs 1024).missing 2 (rangePlaces 1024 5)).card ≤ ((fileFs 1024).free fileSb).card
    decide +kernel
  have hfits : fits (((atEnd Bool (oneBlock 1024)).setCall true
      (some ⟨fun _ => some 7, 5, 0⟩)).setCall false (some ⟨fun _ => some 8, 3, 0⟩)) (.turn true) := by
    intro c hc _
    cases hcall.symm.trans hc
    show 1024 + 5 ≤ maxFile * bSize
    decide
  obtain ⟨shared, hturn, -⟩ := turn_appends hcalls hcall (by decide) hok hfits
  have hlast : Run (step fileSb) (fun v a => supplied fileSb v a ∧ fits v a)
      (((atEnd Bool (oneBlock 1024)).setCall true (some ⟨fun _ => some 7, 5, 0⟩)).setCall false
        (some ⟨fun _ => some 8, 3, 0⟩)) [.turn true] _ := .cons ⟨hok, hfits⟩ hturn .nil
  have hsecond : Run (step fileSb) (fun v a => supplied fileSb v a ∧ fits v a)
      ((atEnd Bool (oneBlock 1024)).setCall true (some ⟨fun _ => some 7, 5, 0⟩))
      [.call false (fun _ => some 8) 3, .turn true] _ := .cons ⟨hsrc 8 3, trivial⟩ rfl hlast
  have hrun : Run (step fileSb) (fun v a => supplied fileSb v a ∧ fits v a)
      (atEnd Bool (oneBlock 1024)) [.call true (fun _ => some 7) 5, .call false (fun _ => some 8) 3,
        .turn true] _ := .cons ⟨hsrc 7 5, trivial⟩ rfl hsecond
  exact ⟨_, hrun, (shared_writers_lose_nothing hstart hrun).2.1⟩

def wideSb : Superblock := { fileSb with size := 400, nblocks := 370 }

theorem wide_blocks : Blocks wideSb (fileFs 1024) := by
  have h := fileFs_blocks 1024
  have hslot : ∀ x, (fileFs 1024).slot wideSb x = (fileFs 1024).slot fileSb x := fun _ => rfl
  refine ⟨⟨by decide, by decide, by decide⟩, ⟨fun x hx => ?_, fun x y => h.owned.inj x y, ?_⟩, h.reserved⟩
  · have := h.owned.range x hx
    exact ⟨this.1, this.2.trans (by decide)⟩
  · intro b hlo hhi
    rcases Nat.lt_or_ge b 40 with hlt | hge
    · exact h.owned.marked b hlo hlt
    · constructor
      · intro hbit
        have : b < 31 := by simpa [fileFs] using hbit
        omega
      · rintro ⟨x, rfl⟩
        have : (fileFs 1024).slot fileSb x < 40 := (h.owned.range x (by rw [hslot] at hge; omega)).2
        rw [hslot] at hge
        omega

theorem exists_full : ∃ shared, Ready wideSb shared ∧ shared.file.off = shared.content.length ∧
    shared.file.off = maxFile * bSize ∧ 2 ≤ (shared.fs.free wideSb).card := by
  have hready : Ready wideSb (oneBlock 1024) :=
    ⟨wide_blocks, show (fileFs 1024).live 2 by decide, show 2 < 8 by decide,
      show ((fileFs 1024).body 2).type ≠ .none by decide, fileFs_dense le_rfl, by decide⟩
  have hlen : (oneBlock 1024).content.length = 1024 := FileWrites.State.length_content
  have hfree : ((fileFs 1024).free wideSb).card = 369 := by decide +kernel
  obtain ⟨n, hn⟩ : ∃ n, n = maxFile * bSize - 1024 := ⟨_, rfl⟩
  have hmax : maxFile * bSize = 274432 := rfl
  have hmissing : ((fileFs 1024).missing 2 (rangePlaces 1024 n)).card ≤ 269 := by
    refine (Finset.card_le_card (Finset.filter_subset _ _)).trans ?_
    refine (Finset.card_le_card (rangePlaces_subset (by omega))).trans ?_
    rw [Finset.card_range]
    decide
  have hwrite : Ends (writeChunk wideSb (fun _ => some 0) 0 n) (oneBlock 1024) _ (fun _ => False) :=
    writeChunk_ends hready (fun _ _ => Option.some_ne_none _)
  obtain ⟨r, t, -, m, hm, hadv, hr, hiff, hfill⟩ := hwrite.exists_ok
  have hroom : (oneBlock 1024).room wideSb n := by
    refine ⟨le_rfl, ?_, ?_⟩
    · show 1024 + n ≤ maxFile * bSize
      omega
    · show ((fileFs 1024).missing 2 (rangePlaces 1024 n)).card ≤ ((fileFs 1024).free wideSb).card
      omega
  have hrn := hiff.2 hroom
  obtain rfl : m = n := by omega
  have hcount : (t.fs.free wideSb).card + ((fileFs 1024).missing 2 (rangePlaces 1024 m)).card =
      ((fileFs 1024).free wideSb).card := (hfill hrn).count
  have hoff : t.file.off = 1024 + m := by rw [hadv.file]; rfl
  refine ⟨t, hadv.ready, ?_, by omega, by omega⟩
  have hlen' : t.content.length = max 1024 (1024 + m) := by
    rw [hadv.content, length_overwrite (by rw [hlen]; exact le_rfl), hlen, length_sourceBytes]
    rfl
  omega

/-- At the largest size a chunk is refused, although there are free blocks. -/
theorem full_file_loses_chunk : ∃ s t : State Unit, ∃ as, Start wideSb s ∧
    Run (step wideSb) (supplied wideSb) s as t ∧
    t.shared.content ≠ s.shared.content ++ (t.sections.map Prod.snd).flatten := by
  obtain ⟨shared, hready, hend, hoff, hfree⟩ := exists_full
  have hwrite : Ends (writeChunk wideSb (fun _ => some 7) 0 1) shared _ (fun _ => False) :=
    writeChunk_ends hready (fun _ _ => Option.some_ne_none _)
  obtain ⟨r, after, hrun, m, hm, hadv, hr, hiff, -⟩ := hwrite.exists_ok
  have hrefused : r ≠ 1 := by
    intro hc
    have := (hiff.1 hc).2.1
    omega
  obtain rfl : m = 0 := by omega
  have hsame : after.content = shared.content := by
    rw [hadv.content]
    simp [sourceBytes]
  have hok : supplied wideSb ((atEnd Unit shared).setCall () (some ⟨fun _ => some 7, 1, 0⟩)) (.turn ()) := by
    intro c hc _
    simp only [State.setCall, update_self, Option.some.injEq] at hc
    subst hc
    refine (Finset.card_le_card (Finset.filter_subset _ _)).trans (le_trans ?_ hfree)
    show (rangePlaces shared.file.off 1).card ≤ 2
    rw [hoff]
    decide +kernel
  refine ⟨atEnd Unit shared, _, [.call () (fun _ => some 7) 1, .turn ()], atEnd_start hready hend,
    .cons (fun _ _ => Option.some_ne_none _) rfl (.cons hok (t := { (atEnd Unit shared).setCall () none with
      shared := after, sections := [((), [7])] }) ?_ .nil), ?_⟩
  · have hturn : turn wideSb ((atEnd Unit shared).setCall () (some ⟨fun _ => some 7, 1, 0⟩)) ()
        ⟨fun _ => some 7, 1, 0⟩ = some { (atEnd Unit shared).setCall () none with
          shared := after, sections := [((), [7])] } := by
      have hn1 : (Call.mk (fun _ => some 7) 1 0).n1 = 1 := rfl
      have hchunk : (Call.mk (fun _ => some 7) 1 0).chunk = [7] := rfl
      rw [turn, hn1, hchunk]
      simp only [State.setCall, atEnd, hrun]
      rw [if_neg (by simpa using hrefused)]
      simp
    exact hturn
  · simp [atEnd, hsame]

end Xv6.SharedWriters
