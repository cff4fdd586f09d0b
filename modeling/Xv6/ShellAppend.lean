import Xv6.FailedOpens
import Xv6.FileWrites
import Xv6.ShellGrammar

/-!
# `cmd >> file`

What becomes of the file when the shell runs a redirected command: `parseredirs` chooses the mode,
`runcmd` opens the file with it, `sys_open` sets the offset to 0, and the writes of the command go
through `filewrite` of that file. A mode without `O_TRUNC` leaves the content where it is, so the
command writes over it.
-/

namespace Xv6.FileWrites

open ByteBlocks FileSystem Function PanicPrograms

variable {sb : Superblock} {s : State} {E : Panic → Prop}

/-- The writes of a command to one file, with their results. -/
def writeAll (sb : Superblock) : List (List Byte) → W (List ℤ)
  | [] => pure []
  | bs :: ws => do
    let r ← filewrite sb (fun q => bs[q]?) bs.length
    let rs ← writeAll sb ws
    pure (r :: rs)

theorem sourceBytes_getElem (bs : List Byte) : sourceBytes (fun q => bs[q]?) bs.length = bs := by
  apply List.ext_getElem?
  intro q
  rw [sourceBytes, List.getElem?_map]
  rcases Nat.lt_or_ge q bs.length with hlt | hge
  · rw [List.getElem?_range hlt, Option.map_some, List.getElem?_eq_getElem hlt, Option.getD_some]
  · rw [List.getElem?_eq_none (by simpa using hge), List.getElem?_eq_none hge, Option.map_none]

/-- If there is room for all of them, the writes put their bytes one behind the other from the
offset on. -/
theorem writeAll_ends {ws : List (List Byte)} (h : Ready sb s) (hw : s.file.writable = true)
    (hroom : s.room sb ws.flatten.length) :
    Ends (writeAll sb ws) s (fun rs t => rs = ws.map (fun bs => (bs.length : ℤ)) ∧ t.file.ip = s.file.ip ∧
      t.content = overwrite s.content s.file.off ws.flatten) E := by
  induction ws generalizing s with
  | nil => exact ⟨rfl, rfl, overwrite_nil.symm⟩
  | cons bs ws ih =>
    rw [List.flatten_cons, List.length_append] at hroom
    have hsrc : ∀ q < bs.length, bs[q]? ≠ none := by
      intro q hq
      rw [List.getElem?_eq_getElem hq]
      exact Option.some_ne_none _
    have hoff : s.file.off ≤ s.content.length := by
      rw [State.length_content]
      exact hroom.1
    rw [writeAll, ends_bind]
    simp only [filewrite, ends_bind, ends_get]
    rw [if_neg (by simp [hw]), ends_bind]
    refine (filewriteLoop_ends h hsrc (Nat.zero_le _) le_rfl).imp ?_
    rintro j t ⟨k, -, hadv, hjk, hjroom, hmore⟩
    simp only [Nat.zero_add, Nat.sub_zero] at hadv hjk hjroom hmore
    have hj := hjroom.2 (.inr hroom.mono)
    obtain rfl := hjk.1 hj
    have hrest := hmore hj _ hroom
    rw [ends_pure, if_pos hj]
    have hwt : t.file.writable = true := by rw [hadv.file]; exact hw
    refine (ih hadv.ready hwt hrest).imp ?_
    rintro rs u ⟨rfl, hip, hcontent⟩
    have hover := overwrite_overwrite (a := bs) (b := ws.flatten) hoff
    refine ⟨rfl, by rw [hip, hadv.file], ?_⟩
    rw [hcontent, hadv.content, hadv.file, sourceBytes_getElem, hover, List.flatten_cons]

end Xv6.FileWrites

namespace Xv6.FileSystem

open Function PanicPrograms Relation

variable {sb : Superblock} {A : ℕ → Prop} {D : Prop} {s t : FS} {j : ℕ}

/-- Inode `j` is free, a directory, or empty. -/
def FS.Blank (s : FS) (j : ℕ) : Prop :=
  (s.current j).type = .none ∨ (s.current j).type = .dir ∨ (s.current j).size = 0

theorem Action.blank (ha : Action sb A noInode D s t) (hj : j < sb.ninodes) (h : s.Blank j) :
    t.Blank j := by
  cases ha.at hj with
  | kept type size _ =>
    rw [FS.Blank, type, size]
    exact h
  | alloc _ _ size => exact .inr (.inr size)
  | erase free => exact .inl free
  | trunc allowed => exact allowed.elim
  | write live _ target wrote =>
    obtain ⟨-, hdir, -⟩ | ⟨-, hw⟩ := target
    · refine .inr (.inl ?_)
      rw [wrote.current_self live]
      exact hdir
    · exact hw.elim

end Xv6.FileSystem

namespace Xv6.Shell

open Function ActionPaths ByteBlocks FileSystem FileWrites PanicPrograms Relation

variable {α ι : Type} {sb : Superblock} {mode : OpenMode} {path : Name} {fs : FS} {ip : ℕ}

/-- A program that uses one open file. -/
def withFile (file : FileWrites.File) (m : W α) : M α := fun fs => (m ⟨fs, file⟩).map (fun r => (r.1, r.2.fs))

theorem ends_withFile {file : FileWrites.File} {m : W α} {Q : α → FS → Prop} {E : Panic → Prop} :
    Ends (withFile file m) fs Q E ↔ Ends m ⟨fs, file⟩ (fun a t => Q a t.fs) E := by
  simp only [Ends, withFile]
  cases m ⟨fs, file⟩ <;> rfl

/-- The shell runs a redirected command that makes the writes `ws` to the file: the inode and the
results of the writes. If `open` fails, the command is not run. -/
def runRedir (sb : Superblock) (cwd : ℕ) (ws : List (List Byte)) : Cmd Name → M (Option (ℕ × List ℤ))
  | .redir _ file mode _ => do
    match ← openInode sb cwd file mode with
    | none => pure none
    | some ip => do
      let s ← get
      if mode.trunc ∧ (s.body ip).type = .file then itrunc sb ip else pure ()
      let rs ← withFile ⟨mode.wronly || mode.rdwr, ip, 0⟩ (writeAll sb ws)
      pure (some (ip, rs))
  | _ => pure none

/-- The content of the file before the command: nothing if there was no file. -/
def contentBefore (fs : FS) (ip : ℕ) : List Byte := if (fs.current ip).type = .none then [] else fs.content ip

variable [Fintype ι] {s : Sys ι} {p : ι}

/-- `open` leaves the content as it is, and makes an empty file if there is none. -/
theorem openInode_content (h : Idle sb s) (hdense : s.fs.Dense sb)
    (hopen : openInode sb (s.cwd p) path mode s.fs = .ok (some ip, fs)) (hfile : (fs.current ip).type = .file) :
    fs.content ip = contentBefore s.fs ip ∧
      ∀ w, Ready sb ⟨fs, ⟨w, ip, 0⟩⟩ := by
  have hsound := h.consistent.sound
  have hruns : Runs sb (s.fs.isFree sb) noInode True s.refs 2 (openInode sb (s.cwd p) path mode) s.fs
      (Opened sb s.refs (s.cwd p) path mode s.fs) :=
    openInode_runs (fun _ => ⟨trivial, h.anchored.offered⟩) hsound Sys.cwd_mem .self
  obtain ⟨hpath, hlive, -, hopened⟩ := Ends.of_ok hruns hopen
  have hlt : ip < sb.ninodes := hopened.sound.lt ip (Multiset.mem_cons_self _ _)
  have heff := (hopened.moves h.anchored).2 h.orderly
  have hready : fs.dense ip → ∀ w, Ready sb ⟨fs, ⟨w, ip, 0⟩⟩ := fun hd w =>
    ⟨hopened.sound.blocks, hlive, hlt, hopened.sound.typed ip hlive, hd, Nat.two_pow_pos 32⟩
  rw [contentBefore]
  split
  · rename_i hnone
    -- The inode was free.
    have hblank : fs.Blank ip :=
      path_keeps (I := fun t => t.Blank ip) (fun _ _ ha => ha.blank hlt) hpath (.inl hnone)
    have hsize : (fs.current ip).size = 0 := by
      rcases hblank with hc | hc | hc
      · rw [hfile] at hc
        cases hc
      · rw [hfile] at hc
        cases hc
      · exact hc
    refine ⟨?_, hready ?_⟩
    · rw [FS.content, hsize]
      rfl
    · intro q hq
      rw [hsize] at hq
      cases hq
  · rename_i hsome
    have htype : (s.fs.current ip).type = .file := by
      rcases heff with ⟨hsame, -⟩ | ⟨-, dp, name, k, hc, -⟩
      · rw [← FS.type_view hlt, ← hsame, FS.type_view hlt, hfile]
      · refine absurd ?_ hsome
        rw [← FS.type_view hlt, hc.free]
        rfl
    have hold : Unchanged ip s.fs fs := Unchanged.path hlt (by rw [htype]; rintro ⟨⟩) hsome hpath
    have hd := hdense ip hlt hsome
    have hnone : (fs.current ip).type ≠ .none := by rw [hfile]; rintro ⟨⟩
    refine ⟨hold.content hnone hd, hready ?_⟩
    obtain ⟨-, hsize, hbytes⟩ := hold.resolve_left hnone
    intro q hq
    rw [hsize] at hq
    obtain ⟨x, hx⟩ := Option.ne_none_iff_exists'.1 (hd q hq)
    rw [hbytes q x hx]
    exact Option.some_ne_none x

theorem over_eq_append_iff {c o : List Byte} : o ++ c.drop o.length = c ++ o ↔ c = [] ∨ o = [] := by
  constructor
  · intro heq
    have hlen := congrArg List.length heq
    rw [List.length_append, List.length_append, List.length_drop] at hlen
    rcases Nat.eq_zero_or_pos c.length with hc | hc
    · exact .inl (List.eq_nil_of_length_eq_zero hc)
    · exact .inr (List.eq_nil_of_length_eq_zero (by omega))
  · rintro (rfl | rfl)
    · simp
    · simp

/-- The content that `cmd >> file` leaves: the output of the command over the old content. It is
the old content with the output behind it only if one of the two is empty. -/
theorem append_iff (h : Idle sb s) (hdense : s.fs.Dense sb) (cmd : Cmd Name) (file : Name) (ws : List (List Byte))
    (hopen : openInode sb (s.cwd p) file oAppend s.fs = .ok (some ip, fs)) (hfile : (fs.current ip).type = .file)
    (hroom : FileWrites.State.room sb ⟨fs, ⟨true, ip, 0⟩⟩ ws.flatten.length) :
    Ends (runRedir sb (s.cwd p) ws (Redir.node cmd ⟨.append, file⟩)) s.fs (fun r t =>
      r = some (ip, ws.map (fun bs => (bs.length : ℤ))) ∧
      t.content ip = ws.flatten ++ (contentBefore s.fs ip).drop ws.flatten.length ∧
      (t.content ip = contentBefore s.fs ip ++ ws.flatten ↔ contentBefore s.fs ip = [] ∨ ws.flatten = []))
      (fun _ => False) := by
  obtain ⟨hcontent, hready⟩ := openInode_content h hdense hopen hfile
  simp only [Redir.node, runRedir, ends_bind]
  refine ends_of_ok hopen ?_
  simp only [ends_bind, ends_get]
  refine ends_ite (fun htrunc => by cases htrunc.1) (fun _ => ?_)
  rw [ends_bind, ends_withFile]
  refine (writeAll_ends (hready true) rfl hroom).imp ?_
  rintro rs t ⟨rfl, hip, ht⟩
  have ht : t.fs.content ip = ws.flatten ++ (contentBefore s.fs ip).drop ws.flatten.length := by
    have hip : t.file.ip = ip := hip
    have hover : t.fs.content t.file.ip = overwrite (fs.content ip) 0 ws.flatten := ht
    rw [hip, hcontent, overwrite, List.take_zero, List.nil_append, Nat.zero_add] at hover
    exact hover
  refine ⟨rfl, ht, ?_⟩
  rw [ht]
  exact over_eq_append_iff

section SmallDisk

instance (s : FileWrites.State) (n : ℕ) : Decidable (s.room sb n) := inferInstanceAs (Decidable (_ ∧ _ ∧ _))

set_option maxRecDepth 100000 in
/-- A command that makes the file. -/
theorem append_iff_missing : ∃ fs,
    openInode smallSb rootIno [120] oAppend (smallSys (· < 32) 32).fs = .ok (some 3, fs) ∧
    Ends (runRedir smallSb rootIno [[97], [98]] (Redir.node (.exec []) ⟨.append, [120]⟩)) (smallSys (· < 32) 32).fs
      (fun r t => r = some (3, [1, 1]) ∧ t.content 3 = [97, 98]) (fun _ => False) := by
  have hret : returns (openInode smallSb rootIno [120] oAppend) (smallSys (· < 32) 32).fs (fun r fs =>
      r == some 3 && (fs.current 3).type == .file &&
        decide (FileWrites.State.room smallSb ⟨fs, ⟨true, 3, 0⟩⟩ [[97], [98]].flatten.length)) = true := by
    decide +kernel
  have hnone : contentBefore (smallSys (· < 32) 32).fs 3 = [] := by decide +kernel
  obtain ⟨r, fs, hopen, htest⟩ := exists_of_returns hret
  simp only [Bool.and_eq_true, beq_iff_eq, decide_eq_true_iff] at htest
  obtain ⟨⟨rfl, hfile⟩, hroom⟩ := htest
  refine ⟨fs, hopen, ?_⟩
  -- From here on only what is known of the system matters, not what it is.
  have hcwd : (smallSys (· < 32) 32).cwd 0 = rootIno := rfl
  have hidle := smallSys_idle
  have hdense := smallSys_dense
  generalize smallSys (· < 32) 32 = s at *
  rw [← hcwd] at hopen ⊢
  have hends := append_iff hidle hdense (.exec []) [120] [[97], [98]] hopen hfile hroom
  refine hends.imp ?_
  rintro r t ⟨rfl, hcontent, -⟩
  rw [hnone] at hcontent
  exact ⟨rfl, hcontent⟩

/-- `echo -n ab > x; echo -n c >> x`, with the contents of the file behind each of the commands. -/
def twoCommands : M (Option (List Byte × List Byte)) := do
  match ← runRedir smallSb rootIno [[97, 98]] (Redir.node (.exec []) ⟨.output, [120]⟩) with
  | none => pure none
  | some (ip, _) => do
    iput smallSb ip
    let s ← get
    match ← runRedir smallSb rootIno [[99]] (Redir.node (.exec []) ⟨.append, [120]⟩) with
    | none => pure none
    | some (ip, _) => do
      let t ← get
      pure (some (s.content ip, t.content ip))

set_option maxRecDepth 100000 in
theorem append_overwrites : ∃ t, twoCommands (smallSys (· < 32) 32).fs = .ok (some ([97, 98], [99, 98]), t) ∧
    ([99, 98] : List Byte) ≠ [97, 98] ++ [99] := by
  have hret : returns twoCommands (smallSys (· < 32) 32).fs (fun r _ => r == some ([97, 98], [99, 98])) = true := by
    decide +kernel
  obtain ⟨r, t, hok, hr⟩ := exists_of_returns hret
  exact ⟨t, by rw [hok, eq_of_beq hr], by decide⟩

end SmallDisk

end Xv6.Shell
