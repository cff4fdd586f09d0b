import Xv6.RedoDisk

/-!
# Crashes and recovery

What the log code knows at each of its places, and the theorem about all runs: after
any number of crashes a recovery that completes leaves the file system of a prefix of
the transactions.
-/

namespace Xv6.RedoLog

open Function TransitionRuns

variable {g : Geometry} {d v w : Disk} {lh : List BlockNo} {b : BlockNo} {i tail : ℕ}
  {s t : State} {todo : List BlockNo}

def fileSystem (d : Disk) (txns : List Txn) : Disk := txns.foldl applyTxn d

/-- The transactions that `k` keeps contain those whose `commit` has returned. -/
def State.Keeps (s : State) (k : ℕ) : Prop := s.returned ≤ k ∧ k ≤ s.issued.length

/-- Before the commit point: the disk is at `v` and the cache at `w`. -/
structure Preparing (g : Geometry) (s : State) (v w : Disk) : Prop where
  redo : Redo g s.disk v []
  loggable : Loggable g s.lh
  buffers : Buffers s w s.lh
  same : ∀ b, b ∉ s.lh → w b = v b

/-- In either call of `install_trans`, with `tail` blocks copied home. -/
structure Installing (g : Geometry) (s : State) (v : Disk) (tail : ℕ) : Prop where
  redo : Redo g s.disk v s.lh
  done : ∀ b ∈ s.lh.take tail, s.disk b = v b

/-- Before the header is erased: the entries on the disk are not needed any more. -/
structure Installed (g : Geometry) (s : State) (v : Disk) : Prop where
  redo : Redo g s.disk v (readHead g s.disk)
  done : ∀ b ∈ readHead g s.disk, s.disk b = v b
  buffers : Buffers s v []
  empty : s.lh = []

/-- The word `n` of the header on the disk. -/
def headCount (g : Geometry) (d : Disk) : BitVec 32 := d (g.block 0) 0

theorem readHead_of_headCount (h : headCount g d = 0) : readHead g d = [] := by
  rw [headCount] at h
  simp [readHead, readHeader, h]

/-- What holds at each place, for a kernel that was booted on `d`. -/
def At (g : Geometry) (d : Disk) (s : State) : Place → Prop
  | .running => s.returned = s.issued.length ∧
      Preparing g s (fileSystem d s.issued) (fileSystem d (s.issued ++ [s.pending]))
  | .writeLog tail => s.issued.length = s.returned + 1 ∧
      Preparing g s (fileSystem d (s.issued.take s.returned)) (fileSystem d s.issued) ∧
      ∀ i b, i < tail → s.lh[i]? = some b → s.disk (g.block (i + 1)) = fileSystem d s.issued b
  | .writeHead => s.issued.length = s.returned + 1 ∧
      Preparing g s (fileSystem d (s.issued.take s.returned)) (fileSystem d s.issued) ∧
      ∀ i b, s.lh[i]? = some b → s.disk (g.block (i + 1)) = fileSystem d s.issued b
  | .installTrans tail => s.issued.length = s.returned + 1 ∧
      Installing g s (fileSystem d s.issued) tail ∧ s.lh.Nodup ∧
      Buffers s (fileSystem d s.issued) (s.lh.drop tail)
  | .eraseHead => s.issued.length = s.returned + 1 ∧ Installed g s (fileSystem d s.issued)
  | .down => ∃ k, s.Keeps k ∧
      Redo g s.disk (fileSystem d (s.issued.take k)) (readHead g s.disk) ∧ Buffers s d []
  | .recoverTrans tail => ∃ k, s.Keeps k ∧
      Installing g s (fileSystem d (s.issued.take k)) tail ∧ Buffers s d []
  | .recoverHead => ∃ k, s.Keeps k ∧ Installed g s (fileSystem d (s.issued.take k))
  | .recovered => ∃ k, s.Keeps k ∧ Redo g s.disk (fileSystem d (s.issued.take k)) [] ∧
      headCount g s.disk = 0

theorem Redo.of_head (h : Redo g d v lh) : Redo g d v (readHead g d) := by
  rw [h.head]
  exact h

/-- Wherever the machine stops, the disk redoes to a prefix of the transactions that
contains all the returned ones. -/
theorem At.redo {x : Place} (h : At g d s x) : ∃ k, s.Keeps k ∧
    Redo g s.disk (fileSystem d (s.issued.take k)) (readHead g s.disk) := by
  have hall (hr : Redo g s.disk (fileSystem d s.issued) (readHead g s.disk))
      (hk : s.returned ≤ s.issued.length) : ∃ k, s.Keeps k ∧
        Redo g s.disk (fileSystem d (s.issued.take k)) (readHead g s.disk) :=
    ⟨s.issued.length, ⟨hk, le_rfl⟩, by rwa [List.take_length]⟩
  have hle (hn : s.issued.length = s.returned + 1) : s.returned ≤ s.issued.length :=
    hn ▸ Nat.le_succ _
  cases x with
  | running => exact hall h.2.redo.of_head h.1.le
  | writeLog tail | writeHead => exact ⟨s.returned, ⟨le_rfl, hle h.1⟩, h.2.1.redo.of_head⟩
  | installTrans tail => exact hall h.2.1.redo.of_head (hle h.1)
  | eraseHead => exact hall h.2.redo (hle h.1)
  | down =>
    obtain ⟨k, hk, hr, _⟩ := h
    exact ⟨k, hk, hr⟩
  | recoverTrans tail =>
    obtain ⟨k, hk, hr, _⟩ := h
    exact ⟨k, hk, hr.redo.of_head⟩
  | recoverHead =>
    obtain ⟨k, hk, hr⟩ := h
    exact ⟨k, hk, hr.redo⟩
  | recovered =>
    obtain ⟨k, hk, hr, _⟩ := h
    exact ⟨k, hk, hr.of_head⟩

theorem At.crash {x : Place} (h : At g d s x) : At g d s.crash .down := by
  obtain ⟨k, hk, hr⟩ := h.redo
  exact ⟨k, hk, hr, by simp, fun b _ => rfl⟩

theorem At.setCache {x : Place} {c : BlockNo → Option Block} (h : At g d s x)
    (hc : ∀ v todo, Buffers s v todo → Buffers { s with cache := c } v todo) :
    At g d { s with cache := c } x := by
  cases x with
  | running => exact ⟨h.1, h.2.redo, h.2.loggable, hc _ _ h.2.buffers, h.2.same⟩
  | writeLog tail | writeHead =>
    exact ⟨h.1, ⟨h.2.1.redo, h.2.1.loggable, hc _ _ h.2.1.buffers, h.2.1.same⟩, h.2.2⟩
  | installTrans tail => exact ⟨h.1, ⟨h.2.1.redo, h.2.1.done⟩, h.2.2.1, hc _ _ h.2.2.2⟩
  | eraseHead => exact ⟨h.1, h.2.redo, h.2.done, hc _ _ h.2.buffers, h.2.empty⟩
  | down =>
    obtain ⟨k, hk, hr, hb⟩ := h
    exact ⟨k, hk, hr, hc _ _ hb⟩
  | recoverTrans tail =>
    obtain ⟨k, hk, hr, hb⟩ := h
    exact ⟨k, hk, ⟨hr.redo, hr.done⟩, hc _ _ hb⟩
  | recoverHead =>
    obtain ⟨k, hk, hr⟩ := h
    exact ⟨k, hk, hr.redo, hr.done, hc _ _ hr.buffers, hr.empty⟩
  | recovered => exact h

theorem fileSystem_concat (d : Disk) (txns : List Txn) (txn : Txn) :
    fileSystem d (txns ++ [txn]) = applyTxn (fileSystem d txns) txn := by
  simp [fileSystem]

theorem fileSystem_logWrite (d : Disk) (txns : List Txn) (txn : Txn) (b : BlockNo) (x : Block) :
    fileSystem d (txns ++ [txn ++ [(b, x)]]) =
      update (fileSystem d (txns ++ [txn])) b x := by
  simp [fileSystem, applyTxn]

theorem Loggable.append (h : Loggable g lh) (hnew : b ∉ lh) (hb : ¬ g.Inside b)
    (hcap : lh.length < logSize) (hroom : lh.length < g.size - 1) : Loggable g (lh ++ [b]) where
  nodup := by
    rw [List.nodup_append]
    refine ⟨h.nodup, List.nodup_singleton b, ?_⟩
    intro c hc e he
    rw [List.mem_singleton] at he
    exact fun heq => hnew (he ▸ heq ▸ hc)
  outside c hc := by
    rcases List.mem_append.mp hc with hc | hc
    · exact h.outside c hc
    · exact List.mem_singleton.mp hc ▸ hb
  room := by
    rw [List.length_append, List.length_singleton]
    omega
  cap := by
    rw [List.length_append, List.length_singleton]
    omega

theorem Buffers.setBuffer (h : Buffers s v todo) {x : Block} {todo' : List BlockNo}
    {f : BlockNo → ℕ} (hmem : ∀ c, c ∈ todo' ↔ c ∈ todo ∨ c = b)
    (hold : ∀ c ∈ todo, s.pins c ≤ f c) (hpin : 0 < f b) :
    Buffers { s.setBuffer b x with pins := f } (update v b x) todo' where
  dirty c hc := by
    rcases eq_or_ne c b with rfl | hne
    · simpa [State.setBuffer] using hpin
    · have hin : c ∈ todo := ((hmem c).mp hc).resolve_right hne
      obtain ⟨hcache, hpos⟩ := h.dirty c hin
      simpa [State.setBuffer, hne, hcache] using lt_of_lt_of_le hpos (hold c hin)
  clean c hc := by
    have hnot := not_or.mp (fun h => hc ((hmem c).mpr h))
    simpa [State.setBuffer, State.buffer, hnot.2] using h.clean c hnot.1

theorem at_logWrite (h : At g d s .running) (hp : s.place = .running) (hb : ¬ g.Inside b)
    (x : Block) : At g d (logWrite g s b x) (logWrite g s b x).place := by
  rw [logWrite]
  split
  · exact h.crash
  rename_i hfull
  rw [not_or, not_le, not_le] at hfull
  obtain ⟨hret, hprep⟩ := h
  have hsame {l : List BlockNo} (hl : ∀ c, c ∈ l ↔ c ∈ s.lh ∨ c = b) (c : BlockNo) (hc : c ∉ l) :
      fileSystem d (s.issued ++ [s.pending ++ [(b, x)]]) c = fileSystem d s.issued c := by
    have hnot := not_or.mp (fun h => hc ((hl c).mpr h))
    rw [fileSystem_logWrite, update_of_ne hnot.2, hprep.same c hnot.1]
  simp only
  split
  · -- absorbed: the block is in the list and pinned
    rename_i hin
    change b ∈ s.lh at hin
    have hl : ∀ c, c ∈ s.lh ↔ c ∈ s.lh ∨ c = b := fun c => by
      constructor
      · exact Or.inl
      · rintro (hc | rfl) <;> assumption
    have hbuf := hprep.buffers.setBuffer (x := x) hl (fun _ _ => le_rfl)
      (hprep.buffers.dirty b hin).2
    rw [← fileSystem_logWrite] at hbuf
    simp only [State.setBuffer, hp]
    exact ⟨hret, hprep.redo, hprep.loggable, ⟨hbuf.dirty, hbuf.clean⟩, hsame hl⟩
  · rename_i hnew
    change b ∉ s.lh at hnew
    have hl : ∀ c, c ∈ s.lh ++ [b] ↔ c ∈ s.lh ∨ c = b := fun c => by simp
    have hbuf := hprep.buffers.setBuffer (x := x) hl
      (f := update s.pins b (s.pins b + 1))
      (fun c _ => by rcases eq_or_ne c b with rfl | hne <;> simp [*]) (by simp)
    rw [← fileSystem_logWrite] at hbuf
    simp only [State.setBuffer, State.bpin, hp]
    exact ⟨hret, hprep.redo, hprep.loggable.append hnew hb hfull.1 hfull.2,
      ⟨hbuf.dirty, hbuf.clean⟩, hsame hl⟩

theorem at_commit (h : At g d s .running) (hp : s.place = .running) :
    At g d (commit s) (commit s).place := by
  obtain ⟨hret, hprep⟩ := h
  rw [commit]
  split
  · simp only
    refine ⟨by simp [hret], ?_, by simp⟩
    rw [hret, List.take_left' rfl]
    exact ⟨hprep.redo, hprep.loggable, ⟨hprep.buffers.dirty, hprep.buffers.clean⟩, hprep.same⟩
  · rename_i hempty
    have hlh : s.lh = [] := List.eq_nil_of_length_eq_zero (by omega)
    -- nothing was logged, so the cache is the disk
    have heq : fileSystem d (s.issued ++ [s.pending]) = fileSystem d s.issued := by
      funext b
      exact hprep.same b (by simp [hlh])
    simp only [hp]
    refine ⟨by simp [hret], ?_⟩
    have hnil : fileSystem d (s.issued ++ [s.pending] ++ [[]]) = fileSystem d (s.issued ++ [s.pending]) := by
      rw [fileSystem_concat]
      rfl
    have hbuf := hprep.buffers
    rw [heq] at hbuf
    rw [hnil, heq]
    exact ⟨hprep.redo, hprep.loggable, ⟨hbuf.dirty, hbuf.clean⟩, fun _ _ => rfl⟩

theorem at_writeLogTurn (h : At g d s (.writeLog tail)) (hb : s.lh[tail]? = some b) :
    At g d (writeLogTurn g s tail b) (.writeLog (tail + 1)) := by
  obtain ⟨hret, hprep, hlog⟩ := h
  have hmem : b ∈ s.lh := List.mem_of_getElem? hb
  have hsize : ∀ {i c}, s.lh[i]? = some c → i + 1 < g.size := fun hc =>
    Nat.lt_of_le_of_lt (List.getElem?_eq_some_iff.mp hc).1 hprep.loggable.room
  have hnot : g.block (tail + 1) ∉ s.lh := fun hin =>
    hprep.loggable.outside _ hin (Geometry.inside_block (hsize hb))
  have hbuf := (hprep.buffers.bread b).bwrite hnot (s.buffer b)
  refine ⟨hret, ⟨hprep.redo.writeLog (hsize hb) _, hprep.loggable,
    ⟨hbuf.dirty, hbuf.clean⟩, hprep.same⟩, ?_⟩
  intro i c hi hc
  change update s.disk (g.block (tail + 1)) (s.buffer b) (g.block (i + 1)) = _
  rcases eq_or_ne i tail with rfl | hne
  · cases Option.some.inj (hb.symm.trans hc)
    rw [update_self]
    exact hprep.buffers.buffer_eq hmem
  · rw [update_of_ne (Geometry.block_ne (hsize hc) (hsize hb) (by omega))]
    exact hlog i c (by omega) hc

theorem at_writeHead (h : At g d s .writeHead) :
    At g d { writeHead g s with place := .installTrans 0 } (.installTrans 0) := by
  obtain ⟨hret, hprep, hlog⟩ := h
  have hnot : g.block 0 ∉ s.lh := fun hin =>
    hprep.loggable.outside _ hin (Geometry.inside_block g.pos)
  have hbuf := hprep.buffers.bwrite hnot (writeHeader (s.buffer (g.block 0)) s.lh)
  refine ⟨hret, ⟨?_, by simp⟩, hprep.loggable.nodup, ⟨hbuf.dirty, hbuf.clean⟩⟩
  exact hprep.redo.writeHead hprep.loggable hlog hprep.same _

theorem Installing.turn (h : Installing g s v tail) (hb : s.lh[tail]? = some b)
    (hbuf : s.buffer (g.block (tail + 1)) = s.disk (g.block (tail + 1))) :
    Installing g (installTurn g s tail b) v (tail + 1) := by
  have hmem : b ∈ s.lh := List.mem_of_getElem? hb
  have hdisk : (installTurn g s tail b).disk = update s.disk b (v b) := by
    change update s.disk b (s.buffer (g.block (tail + 1))) = _
    rw [hbuf, h.redo.logged tail b hb]
  constructor
  · rw [hdisk]
    exact h.redo.install hmem
  · intro c hc
    rw [hdisk]
    rcases eq_or_ne c b with rfl | hne
    · rw [update_self]
    · rw [update_of_ne hne]
      apply h.done c
      change c ∈ s.lh.take (tail + 1) at hc
      rw [List.take_add_one, hb] at hc
      simpa [hne] using hc

theorem Installing.finish (h : Installing g s v tail) (hend : s.lh[tail]? = none) {x : Place}
    (hbuf : Buffers s v []) : Installed g { s with lh := [], place := x } v where
  redo := h.redo.of_head
  done b hb := by
    apply h.done b
    rwa [List.take_of_length_le (List.getElem?_eq_none_iff.mp hend), ← h.redo.head]
  buffers := ⟨hbuf.dirty, hbuf.clean⟩
  empty := rfl

theorem at_installTurn (h : At g d s (.installTrans tail)) (hb : s.lh[tail]? = some b) :
    At g d { (installTurn g s tail b).bunpin b with place := .installTrans (tail + 1) }
      (.installTrans (tail + 1)) := by
  obtain ⟨hret, hinst, hnodup, hbuf⟩ := h
  have hlt : tail < s.lh.length := (List.getElem?_eq_some_iff.mp hb).1
  have hdrop : s.lh.drop tail = b :: s.lh.drop (tail + 1) := by
    rw [List.drop_eq_getElem_cons hlt, (List.getElem?_eq_some_iff.mp hb).2]
  have hfresh : b ∉ s.lh.drop (tail + 1) := by
    have hnd := hnodup.sublist (List.drop_sublist tail s.lh)
    rw [hdrop] at hnd
    exact (List.nodup_cons.mp hnd).1
  have hlogged : s.buffer (g.block (tail + 1)) = s.disk (g.block (tail + 1)) := by
    apply hbuf.clean
    intro hin
    exact hinst.redo.outside _ (List.mem_of_mem_drop hin)
      (Geometry.inside_block (Nat.lt_of_le_of_lt hlt hinst.redo.room))
  have hturn := hinst.turn hb hlogged
  rw [hdrop] at hbuf
  have hnext := (hbuf.bread (g.block (tail + 1))).unpin hfresh (s.buffer (g.block (tail + 1)))
  exact ⟨hret, ⟨hturn.redo, hturn.done⟩, hnodup, ⟨hnext.dirty, hnext.clean⟩⟩

theorem Installed.erase (h : Installed g s v) : Redo g (writeHead g s).disk v [] ∧
    Buffers (writeHead g s) v [] := by
  have hhead : writeHead g s =
      s.bwrite (g.block 0) (writeHeader (s.buffer (g.block 0)) []) := by rw [writeHead, h.empty]
  rw [hhead]
  exact ⟨h.redo.erase h.done _, h.buffers.bwrite List.not_mem_nil _⟩

theorem at_eraseHead (h : At g d s .eraseHead) :
    At g d { writeHead g s with place := .running, pending := [], returned := s.returned + 1 }
      .running := by
  obtain ⟨hret, hinst⟩ := h
  obtain ⟨hredo, hbuf⟩ := hinst.erase
  have hnil : fileSystem d (s.issued ++ [[]]) = fileSystem d s.issued := by
    rw [fileSystem_concat]
    rfl
  have hlh : (writeHead g s).lh = [] := hinst.empty
  refine ⟨hret.symm, hredo, ?_, ?_, ?_⟩
  · change Loggable g (writeHead g s).lh
    rw [hlh]
    exact ⟨List.nodup_nil, by simp, g.pos, Nat.zero_le _⟩
  · change Buffers _ (fileSystem d (s.issued ++ [[]])) (writeHead g s).lh
    rw [hlh, hnil]
    exact ⟨hbuf.dirty, hbuf.clean⟩
  · intro b _
    exact congrFun hnil b

theorem at_recoverStart (h : At g d s .down) :
    At g d { s.bread (g.block 0) with
      lh := readHeader (s.buffer (g.block 0)), place := .recoverTrans 0 } (.recoverTrans 0) := by
  obtain ⟨k, hk, hredo, hbuf⟩ := h
  have hhead : readHeader (s.buffer (g.block 0)) = readHead g s.disk := by
    rw [hbuf.clean _ List.not_mem_nil, readHead]
  have hload := hbuf.bread (g.block 0)
  refine ⟨k, hk, ⟨?_, by simp⟩, ⟨hload.dirty, hload.clean⟩⟩
  rw [hhead]
  exact hredo

theorem at_run (h : At g d s s.place) (hs : run g s = some t) : At g d t t.place := by
  rw [run] at hs
  split at hs <;> rename_i hp <;> rw [hp] at h
  · split at hs <;> cases Option.some.inj hs
    · exact at_writeLogTurn h ‹_›
    · rename_i hend
      refine ⟨h.1, ⟨h.2.1.redo, h.2.1.loggable,
        ⟨h.2.1.buffers.dirty, h.2.1.buffers.clean⟩, h.2.1.same⟩, ?_⟩
      intro i b hb
      have hi : i < s.lh.length := (List.getElem?_eq_some_iff.mp hb).1
      exact h.2.2 i b (Nat.lt_of_lt_of_le hi (List.getElem?_eq_none_iff.mp hend)) hb
  · cases Option.some.inj hs
    exact at_writeHead h
  · split at hs <;> cases Option.some.inj hs
    · exact at_installTurn h ‹_›
    · rename_i hend
      obtain ⟨hret, hinst, _, hbuf⟩ := h
      rw [List.drop_of_length_le (List.getElem?_eq_none_iff.mp hend)] at hbuf
      exact ⟨hret, hinst.finish hend hbuf⟩
  · cases Option.some.inj hs
    exact at_eraseHead h
  · cases Option.some.inj hs
    exact at_recoverStart h
  · obtain ⟨k, hk, hinst, hbuf⟩ := h
    split at hs <;> cases Option.some.inj hs
    · have hturn := hinst.turn ‹_› (hbuf.clean _ List.not_mem_nil)
      rename_i tail _ b _
      have hnext := (hbuf.bread (g.block (tail + 1))).bwrite List.not_mem_nil (b := b)
        (s.buffer (g.block (tail + 1)))
      exact ⟨k, hk, ⟨hturn.redo, hturn.done⟩, ⟨hnext.dirty, hnext.clean⟩⟩
    · exact ⟨k, hk, hinst.finish ‹_› ⟨by simp, hbuf.clean⟩⟩
  · cases Option.some.inj hs
    obtain ⟨k, hk, hinst⟩ := h
    refine ⟨k, hk, hinst.erase.1, ?_⟩
    change update s.disk (g.block 0) _ (g.block 0) 0 = 0
    rw [update_self, hinst.empty]
    rfl
  · cases hs
  · cases hs

/-- Operations log blocks outside the log area only. -/
def WritesOutside (g : Geometry) (_ : State) : Action → Prop
  | .logWrite b _ => ¬ g.Inside b
  | _ => True

instance (s : State) (a : Action) : Decidable (WritesOutside g s a) :=
  match a with
  | .logWrite b _ => inferInstanceAs (Decidable (¬ g.Inside b))
  | .commit | .run | .load _ | .evict _ | .crash => inferInstanceAs (Decidable True)

theorem at_step {a : Action} (h : At g d s s.place) (ha : WritesOutside g s a)
    (hs : step g s a = some t) : At g d t t.place := by
  cases a with
  | logWrite b x =>
    obtain ⟨hp, rfl⟩ := of_ite_some hs
    rw [hp] at h
    exact at_logWrite h hp ha x
  | commit =>
    obtain ⟨hp, rfl⟩ := of_ite_some hs
    rw [hp] at h
    exact at_commit h hp
  | run => exact at_run h hs
  | load b =>
    cases Option.some.inj hs
    exact h.setCache (fun _ _ hb => hb.bread b)
  | evict b =>
    obtain ⟨hp, rfl⟩ := of_ite_some hs
    exact h.setCache (fun _ _ hb => hb.evict hp)
  | crash =>
    cases Option.some.inj hs
    exact h.crash

theorem at_booted (hd : readHead g d = []) : At g d (booted d) .running where
  left := rfl
  right := {
    redo := ⟨hd, by simp, g.pos, by simp, fun _ _ _ => rfl⟩
    loggable := ⟨List.nodup_nil, by simp [booted], g.pos, Nat.zero_le _⟩
    buffers := ⟨by simp [booted], fun _ _ => rfl⟩
    same := fun _ _ => rfl }

/-- Crash atomicity and durability: boot on a disk with an empty log, run any
transactions, and crash at any block write of `commit` or of a recovery, any number of
times. When a recovery has completed, the blocks outside the log are those of a prefix
of the transactions that contains every one whose `commit` had returned, and the log
is empty again. -/
theorem recovered_prefix {as : List Action} (hd : headCount g d = 0)
    (h : Run (step g) (WritesOutside g) (booted d) as s) (hp : s.place = .recovered) :
    headCount g s.disk = 0 ∧ ∃ k, s.returned ≤ k ∧ k ≤ s.issued.length ∧
      ∀ b, ¬ g.Inside b → s.disk b = fileSystem d (s.issued.take k) b := by
  have hat : At g d s s.place :=
    h.invariant (at_booted (readHead_of_headCount hd)) (fun _ _ _ hi ha hs => at_step hi ha hs)
  rw [hp] at hat
  obtain ⟨k, hk, hredo, hcount⟩ := hat
  exact ⟨hcount, k, hk.1, hk.2, fun b hb => hredo.home_of_nil hb⟩

def mkfsGeometry : Geometry := ⟨Mkfs.superblock.logstart, Mkfs.superblock.nlog, by decide, by decide⟩

/-- One transaction returns, the machine stops right behind the commit point of a second
one, and the first recovery is cut off after it has copied the block home. -/
def cutTwice : List Action :=
  [Action.logWrite 46 (fun _ => 1), .commit] ++ List.replicate 6 Action.run ++
    [Action.logWrite 46 (fun _ => 2), .commit] ++ List.replicate 3 Action.run ++
    [Action.crash, .run, .run, .crash] ++ List.replicate 4 Action.run

theorem recovered_prefix_cutTwice : ∃ s : State,
    Run (step mkfsGeometry) (WritesOutside mkfsGeometry) (booted (fun _ _ => 0)) cutTwice s ∧
      s.place = .recovered ∧ s.issued.length = 2 ∧ s.returned = 1 ∧
      ∃ k, 1 ≤ k ∧ k ≤ 2 ∧ ∀ b, ¬ mkfsGeometry.Inside b →
        s.disk b = fileSystem (fun _ _ => 0) (s.issued.take k) b := by
  have hrun : ∃ s : State,
      Run (step mkfsGeometry) (WritesOutside mkfsGeometry) (booted (fun _ _ => 0)) cutTwice s ∧
        s.place = .recovered ∧ s.issued.length = 2 ∧ s.returned = 1 :=
    exists_run (by decide +kernel)
  obtain ⟨s, h, hp, hi, hr⟩ := hrun
  obtain ⟨_, k, hlow, hhigh, heq⟩ := recovered_prefix rfl h hp
  exact ⟨s, h, hp, hi, hr, k, hr ▸ hlow, hi ▸ hhigh, heq⟩

end Xv6.RedoLog
