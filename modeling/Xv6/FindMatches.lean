import Xv6.FindRuns

/-!
# What `find` finds

The entries below a directory, as its tree has them, against the lines that are printed. A
descriptor stays open for every directory on the way, and `stat` needs another one. Every directory
on the way takes a frame of the stack, and so does the entry itself.
-/

namespace Xv6.Find

open FileSystem ByteBlocks

variable {d : Disk} {name path nm : Name} {names names' : List Name} {v : ℕ → Node} {i j k frames root : ℕ}
  {de : Dirent} {slots : List Dirent}

/-- The entries of a directory have names of their own, without slashes. -/
structure Proper (slots : List Dirent) : Prop where
  nodup : ((slots.filter (fun de => de.inum ≠ 0)).map (fun de => cutName de.name)).Nodup
  valid : ∀ de ∈ slots, de.inum ≠ 0 → cutName de.name ≠ [] ∧ slash ∉ cutName de.name

/-- The entry with the path `names` from `i` on is the inode `j`. -/
def Branch (v : ℕ → Node) : ℕ → List Name → ℕ → Prop
  | i, [], j => i = j
  | i, nm :: names, j =>
    (v i).type = .dir ∧ ∃ de ∈ (v i).slots, Live de ∧ cutName de.name = nm ∧ Branch v de.inum names j

def Tree (v : ℕ → Node) (root : ℕ) : Prop :=
  ∀ names i, Branch v root names i → (v i).type = .dir → Proper (v i).slots

def pathOf (path : Name) (names : List Name) : Name := path ++ names.flatMap (slash :: ·)

/-- An entry that is no directory and has the name that is searched for. -/
structure Wanted (d : Disk) (root : ℕ) (name : Name) (names : List Name) (j : ℕ) : Prop where
  branch : Branch d.node root names j
  type : (d.node j).type = .file ∨ (d.node j).type = .device
  last : names.getLast? = some name

/-- The lines are the paths of all entries that are wanted, each once. -/
def Reports (d : Disk) (root : ℕ) (path name : Name) (lines : List Text) : Prop :=
  lines.Nodup ∧ ∀ line, line ∈ lines ↔ ∃ names j, Wanted d root name names j ∧ line = pathOf path names ++ [newline]

theorem cutName_cutName (name : List Byte) : cutName (cutName name) = cutName name := by
  have hlen : (cutName name).length ≤ dirSiz :=
    (List.takeWhile_prefix _).length_le.trans (by simp)
  rw [cutName, List.take_of_length_le hlen, cutName, List.takeWhile_takeWhile]
  simp

theorem length_cutName (name : List Byte) : (cutName name).length ≤ dirSiz :=
  (List.takeWhile_prefix _).length_le.trans (by simp)

theorem Proper.eq (h : Proper slots) {de' : Dirent} (hde : de ∈ slots) (hinum : de.inum ≠ 0) (hde' : de' ∈ slots)
    (hinum' : de'.inum ≠ 0) (heq : cutName de.name = cutName de'.name) : de = de' :=
  List.inj_on_of_nodup_map h.nodup (List.mem_filter.2 ⟨hde, by simpa using hinum⟩)
    (List.mem_filter.2 ⟨hde', by simpa using hinum'⟩) heq

theorem Proper.childOf (h : Proper (v i).slots) (hde : de ∈ (v i).slots) (hinum : de.inum ≠ 0) :
    childOf v i (cutName de.name) = some de.inum := by
  have hself : hasName (cutName de.name) de = true := by
    simp [hasName, namecmp, hinum, cutName_cutName]
  rw [FileSystem.childOf, lookup]
  cases hk : (v i).slots.findIdx? (hasName (cutName de.name)) with
  | none =>
    rw [List.findIdx?_eq_none_iff] at hk
    have := hk de hde
    rw [hself] at this
    cases this
  | some k =>
    obtain ⟨de', hget, hinum', hname⟩ := lookup_eq_some hk
    have hname : cutName (cutName de.name) = cutName de'.name := by simpa [namecmp] using hname
    rw [cutName_cutName] at hname
    obtain rfl := h.eq hde hinum (List.mem_of_getElem? hget) hinum' hname
    rw [Option.bind_some, hget, Option.map_some]

theorem components_slash_append (path rest : Name) :
    components (path ++ slash :: rest) = components path ++ components rest := by
  rw [components, List.splitOn_append_cons_self, List.filter_append, List.map_append]
  rfl

theorem resolve_child (hpath : path ≠ []) (hi : d.resolve path = some i) (hdir : (d.node i).type = .dir)
    (h : Proper (d.node i).slots) (hde : de ∈ (d.node i).slots) (hinum : de.inum ≠ 0) :
    d.resolve (path ++ slash :: cutName de.name) = some de.inum := by
  obtain ⟨hne, hslash⟩ := h.valid de hde hinum
  have hcomp : components (cutName de.name) = [cutName de.name] := by
    have happ : components (cutName de.name ++ []) = _ := components_append hne hslash (fun c hc => nomatch hc)
    rwa [List.append_nil, components_nil, List.take_of_length_le (length_cutName _)] at happ
  have hstart : startOf d.cwd (path ++ slash :: cutName de.name) = startOf d.cwd path := by
    rw [startOf, startOf, List.head?_append_of_ne_nil _ hpath]
  rw [Disk.resolve] at hi
  rw [Disk.resolve, hstart, components_slash_append, hcomp, follow_append, hi, Option.bind_some, follow_cons,
    lookupIn, if_pos hdir, h.childOf hde hinum]
  rfl

theorem basename_slash (path : Name) (h : slash ∉ nm) : basename (path ++ slash :: nm) = nm := by
  have hrev : (path ++ slash :: nm).reverse = nm.reverse ++ slash :: path.reverse := by simp
  have hpos : ∀ c ∈ nm.reverse, decide (c ≠ slash) = true :=
    fun c hc => decide_eq_true (ne_of_mem_of_not_mem (List.mem_reverse.1 hc) h)
  rw [basename, hrev, List.takeWhile_append_of_pos hpos, List.takeWhile_cons_of_neg (by simp), List.append_nil,
    List.reverse_reverse]

theorem pathOf_cons : pathOf path (nm :: names) = pathOf (path ++ slash :: nm) names := by
  simp [pathOf]

theorem pathOf_concat : pathOf path (names ++ [nm]) = pathOf path names ++ slash :: nm := by
  simp [pathOf]

/-- A path says which names it is made of. -/
theorem pathOf_injective (hn : ∀ nm ∈ names, slash ∉ nm) (hn' : ∀ nm ∈ names', slash ∉ nm)
    (heq : pathOf path names = pathOf path names') : names = names' := by
  rw [pathOf, pathOf, List.append_cancel_left_eq] at heq
  induction names generalizing names' with
  | nil =>
    cases names' with
    | nil => rfl
    | cons nm' names' => simp at heq
  | cons nm names ih =>
    cases names' with
    | nil => simp at heq
    | cons nm' names' =>
      -- Up to the next slash the two are one name.
      have htake : ∀ {nm : Name} {names : List Name}, slash ∉ nm →
          (nm ++ names.flatMap (slash :: ·)).takeWhile (· ≠ slash) = nm := by
        intro nm names hnm
        have hpos : ∀ c ∈ nm, decide (c ≠ slash) = true := fun c hc => decide_eq_true (ne_of_mem_of_not_mem hc hnm)
        rw [List.takeWhile_append_of_pos hpos]
        cases names with
        | nil => simp
        | cons nm' names => simp
      simp only [List.flatMap_cons, List.cons_append, List.cons.injEq, true_and] at heq
      have hnm : nm = nm' := by
        rw [← htake (hn nm List.mem_cons_self), heq, htake (hn' nm' List.mem_cons_self)]
      subst hnm
      rw [List.append_cancel_left_eq] at heq
      rw [ih (fun x hx => hn x (List.mem_cons_of_mem _ hx)) (fun x hx => hn' x (List.mem_cons_of_mem _ hx)) heq]

theorem Tree.proper (h : Tree v root) (hdir : (v root).type = .dir) : Proper (v root).slots := h [] root rfl hdir

theorem Tree.child (h : Tree v root) (hdir : (v root).type = .dir) (hde : de ∈ (v root).slots) (hlive : Live de) :
    Tree v de.inum :=
  fun names i hi => h (cutName de.name :: names) i ⟨hdir, de, hde, hlive, rfl, hi⟩

theorem Tree.no_slash (h : Tree v root) (hb : Branch v root names j) : ∀ nm ∈ names, slash ∉ nm := by
  induction names generalizing root with
  | nil =>
    intro nm hnm
    cases hnm
  | cons nm names ih =>
    obtain ⟨hdir, de, hde, hlive, rfl, hb⟩ := hb
    rw [List.forall_mem_cons]
    exact ⟨((h.proper hdir).valid de hde hlive.1).2, ih (h.child hdir hde hlive) hb⟩

theorem Tree.functional (h : Tree v root) {j' : ℕ} (hb : Branch v root names j) (hb' : Branch v root names j') :
    j = j' := by
  induction names generalizing root with
  | nil => exact hb.symm.trans hb'
  | cons nm names ih =>
    obtain ⟨hdir, de, hde, hlive, hname, hb⟩ := hb
    obtain ⟨-, de', hde', hlive', hname', hb'⟩ := hb'
    obtain rfl := (h.proper hdir).eq hde hlive.1 hde' hlive'.1 (hname.trans hname'.symm)
    exact ih (h.child hdir hde hlive) hb hb'

/-- `find` reaches the entry: the directories above it leave a descriptor, and `open` takes its path. -/
structure Seen (d : Disk) (k : ℕ) (path : Name) (names : List Name) (j : ℕ) : Prop where
  depth : names.length < k
  length : (pathOf path names).length < maxPath
  openable : d.Openable j

theorem Seen.openInode (h : Seen d k path names j) (hi : d.resolve path = some i) (hb : Branch d.node i names j) :
    d.openInode path = some i := by
  have hlen : path.length ≤ (pathOf path names).length := (List.prefix_append _ _).length_le
  refine openInode_eq_some.2 ⟨hlen.trans_lt h.length, hi, ?_⟩
  cases names with
  | nil =>
    obtain rfl := hb
    exact h.openable
  | cons nm names =>
    intro hdevice
    rw [hb.1] at hdevice
    cases hdevice

theorem seen_cons : Seen d (k + 1) path (nm :: names) j ↔ Seen d k (path ++ slash :: nm) names j := by
  constructor
  · intro hseen
    exact ⟨Nat.lt_of_succ_lt_succ hseen.depth, pathOf_cons ▸ hseen.length, hseen.openable⟩
  · intro hseen
    exact ⟨Nat.succ_lt_succ hseen.depth, pathOf_cons ▸ hseen.length, hseen.openable⟩

theorem seen_thirteen :
    Seen d 13 path names j ↔ names.length ≤ 12 ∧ (pathOf path names).length < maxPath ∧ d.Openable j :=
  ⟨fun h => ⟨Nat.le_of_lt_succ h.depth, h.length, h.openable⟩,
    fun h => ⟨Nat.lt_succ_of_le h.1, h.2.1, h.2.2⟩⟩

theorem mem_found {line : Text} (hpath : path ≠ []) (hi : d.resolve path = some i) (h : Tree d.node i) :
    line ∈ found d name k path ↔ ∃ names j, Branch d.node i names j ∧
      ((d.node j).type = .file ∨ (d.node j).type = .device) ∧ name = basename (pathOf path names) ∧
      Seen d k path names j ∧ line = pathOf path names ++ [newline] := by
  induction k generalizing path i with
  | zero =>
    constructor
    · intro hmem
      cases hmem
    · rintro ⟨names, j, -, -, -, hseen, -⟩
      exact absurd hseen.depth (Nat.not_lt_zero _)
  | succ k ih =>
    have hchild : ∀ de ∈ (d.node i).slots, Live de → (d.node i).type = .dir →
        (line ∈ found d name k (path ++ slash :: cutName de.name) ↔ ∃ names j, Branch d.node de.inum names j ∧
          ((d.node j).type = .file ∨ (d.node j).type = .device) ∧
          name = basename (pathOf path (cutName de.name :: names)) ∧
          Seen d (k + 1) path (cutName de.name :: names) j ∧
          line = pathOf path (cutName de.name :: names) ++ [newline]) := by
      intro de hde hlive hdir
      rw [ih (by simp) (resolve_child hpath hi hdir (h.proper hdir) hde hlive.1) (h.child hdir hde hlive)]
      refine exists_congr fun names => exists_congr fun j => ?_
      rw [pathOf_cons, seen_cons]
    constructor
    · intro hmem
      rw [found] at hmem
      cases hopen : d.openInode path with
      | none =>
        rw [hopen] at hmem
        cases hmem
      | some i' =>
        obtain ⟨hlen, hi', hopenable⟩ := openInode_eq_some.1 hopen
        obtain rfl : i = i' := Option.some.inj (hi.symm.trans hi')
        rw [hopen] at hmem
        have hself : (d.node i).type = .file ∨ (d.node i).type = .device →
            line ∈ (if name = basename path then [path ++ [newline]] else []) →
            ∃ names j, Branch d.node i names j ∧ ((d.node j).type = .file ∨ (d.node j).type = .device) ∧
              name = basename (pathOf path names) ∧ Seen d (k + 1) path names j ∧
              line = pathOf path names ++ [newline] := by
          intro htype hmem
          have hnil : pathOf path [] = path := by simp [pathOf]
          split at hmem
          · rename_i hname
            refine ⟨[], i, rfl, htype, by rwa [hnil], ⟨Nat.succ_pos k, by rwa [hnil], hopenable⟩, ?_⟩
            rw [hnil]
            exact List.mem_singleton.1 hmem
          · cases hmem
        cases htype : (d.node i).type with
        | file =>
          simp only [htype] at hmem
          exact hself (.inl htype) hmem
        | device =>
          simp only [htype] at hmem
          exact hself (.inr htype) hmem
        | none | other =>
          simp only [htype] at hmem
          cases hmem
        | dir =>
          simp only [htype, List.mem_flatMap, List.mem_filter, decide_eq_true_eq] at hmem
          obtain ⟨de, ⟨hde, hlive⟩, hmem⟩ := hmem
          obtain ⟨names, j, hb, hrest⟩ := (hchild de hde hlive htype).1 hmem
          exact ⟨cutName de.name :: names, j, ⟨htype, de, hde, hlive, rfl, hb⟩, hrest⟩
    · rintro ⟨names, j, hb, htype, hname, hseen, hline⟩
      rw [found, hseen.openInode hi hb]
      cases names with
      | nil =>
        obtain rfl := hb
        have hnil : pathOf path [] = path := by simp [pathOf]
        rw [hnil] at hname hline
        rcases htype with htype | htype
        · simp [htype, hname, hline]
        · simp [htype, hname, hline]
      | cons nm names =>
        obtain ⟨hdir, de, hde, hlive, rfl, hb⟩ := hb
        simp only [hdir, List.mem_flatMap, List.mem_filter, decide_eq_true_eq]
        exact ⟨de, ⟨hde, hlive⟩, (hchild de hde hlive hdir).2 ⟨names, j, hb, htype, hname, hseen, hline⟩⟩

theorem found_disjoint {de' : Dirent} {line : Text} (hpath : path ≠ []) (hi : d.resolve path = some i)
    (h : Tree d.node i) (hdir : (d.node i).type = .dir) (hde : de ∈ (d.node i).slots ∧ decide (Live de) = true)
    (hde' : de' ∈ (d.node i).slots ∧ decide (Live de') = true)
    (hline : line ∈ found d name k (path ++ slash :: cutName de.name))
    (hline' : line ∈ found d name k (path ++ slash :: cutName de'.name)) : cutName de.name = cutName de'.name := by
  have hnames : ∀ {de : Dirent}, de ∈ (d.node i).slots ∧ decide (Live de) = true →
      line ∈ found d name k (path ++ slash :: cutName de.name) →
      ∃ names, (∀ nm ∈ cutName de.name :: names, slash ∉ nm) ∧
        line = pathOf path (cutName de.name :: names) ++ [newline] := by
    rintro de ⟨hde, hlive⟩ hline
    have hlive := of_decide_eq_true hlive
    have hres := resolve_child hpath hi hdir (h.proper hdir) hde hlive.1
    obtain ⟨names, j, hb, -, -, -, hline⟩ := (mem_found (by simp) hres (h.child hdir hde hlive)).1 hline
    rw [← pathOf_cons] at hline
    exact ⟨names, h.no_slash ⟨hdir, de, hde, hlive, rfl, hb⟩, hline⟩
  obtain ⟨names, hslash, heq⟩ := hnames hde hline
  obtain ⟨names', hslash', heq'⟩ := hnames hde' hline'
  have hpaths := List.append_left_injective _ (heq.symm.trans heq')
  exact (List.cons.inj (pathOf_injective hslash hslash' hpaths)).1

theorem nodup_found (hpath : path ≠ []) (hi : d.resolve path = some i) (h : Tree d.node i) :
    (found d name k path).Nodup := by
  induction k generalizing path i with
  | zero => exact List.nodup_nil
  | succ k ih =>
    rw [found]
    cases hopen : d.openInode path with
    | none => exact List.nodup_nil
    | some i' =>
      obtain rfl : i = i' := Option.some.inj (hi.symm.trans (openInode_eq_some.1 hopen).2.1)
      cases htype : (d.node i).type with
      | file | device =>
        simp only [htype]
        split
        · exact List.nodup_singleton _
        · exact List.nodup_nil
      | none | other =>
        simp only [htype]
        exact List.nodup_nil
      | dir =>
        simp only [htype]
        have hproper := h.proper htype
        rw [List.nodup_flatMap]
        constructor
        · intro de hde
          obtain ⟨hde, hlive⟩ := List.mem_filter.1 hde
          have hlive := of_decide_eq_true hlive
          exact ih (by simp) (resolve_child hpath hi htype hproper hde hlive.1) (h.child htype hde hlive)
        · have hlive : ((d.node i).slots.filter (fun de => Live de)).Sublist
              ((d.node i).slots.filter (fun de => de.inum ≠ 0)) := by
            apply List.monotone_filter_right
            intro de hde
            exact decide_eq_true (of_decide_eq_true hde).1
          have hnames := (List.pairwise_map.1 hproper.nodup).sublist hlive
          refine hnames.imp_of_mem ?_
          intro de de' hde hde' hne line hline hline'
          exact hne (found_disjoint hpath hi h htype (List.mem_filter.1 hde) (List.mem_filter.1 hde') hline hline')

/-- The stack is large enough if it has a frame for every entry that is reached and the directories
above it. -/
theorem fits_iff (hpath : path ≠ []) (hi : d.resolve path = some i) (h : Tree d.node i) :
    Fits d k frames path ↔
      0 < frames ∧ ∀ names j, Branch d.node i names j → Seen d k path names j → names.length < frames := by
  induction k generalizing frames path i with
  | zero =>
    cases frames with
    | zero => simp [Fits]
    | succ frames =>
      refine iff_of_true trivial ⟨Nat.succ_pos _, ?_⟩
      intro names j _ hseen
      exact absurd hseen.depth (Nat.not_lt_zero _)
  | succ k ih =>
    cases frames with
    | zero => simp [Fits]
    | succ frames =>
      have hchild : ∀ de ∈ (d.node i).slots, Live de → (d.node i).type = .dir →
          (Fits d k frames (path ++ slash :: cutName de.name) ↔ 0 < frames ∧ ∀ names j,
            Branch d.node de.inum names j → Seen d (k + 1) path (cutName de.name :: names) j →
            names.length < frames) := by
        intro de hde hlive hdir
        simp only [seen_cons]
        exact ih (by simp) (resolve_child hpath hi hdir (h.proper hdir) hde hlive.1) (h.child hdir hde hlive)
      rw [Fits]
      constructor
      · intro hfits
        refine ⟨Nat.succ_pos _, ?_⟩
        intro names j hb hseen
        have hopen := hseen.openInode hi hb
        cases names with
        | nil => exact Nat.succ_pos _
        | cons nm names =>
          obtain ⟨hdir, de, hde, hlive, rfl, hb⟩ := hb
          have hseen' := seen_cons.1 hseen
          have hres := resolve_child hpath hi hdir (h.proper hdir) hde hlive.1
          have hopen' := hseen'.openInode hres hb
          have hcall := hfits i hopen hdir de hde hlive (Nat.ne_zero_of_lt hseen'.depth) (by simp [hopen'])
          exact Nat.succ_lt_succ (((hchild de hde hlive hdir).1 hcall).2 names j hb hseen)
      · rintro ⟨-, hall⟩ i' hopen hdir de hde hlive hk hopen'
        obtain rfl : i = i' := Option.some.inj (hi.symm.trans (openInode_eq_some.1 hopen).2.1)
        have hdown : ∀ names j, Branch d.node de.inum names j →
            Seen d (k + 1) path (cutName de.name :: names) j → names.length < frames := by
          intro names j hb hseen
          exact Nat.lt_of_succ_lt_succ (hall (cutName de.name :: names) j ⟨hdir, de, hde, hlive, rfl, hb⟩ hseen)
        refine (hchild de hde hlive hdir).2 ⟨?_, hdown⟩
        -- `find` is called on the entry itself.
        obtain ⟨j, hj⟩ := Option.ne_none_iff_exists'.1 hopen'
        obtain ⟨hlen, hres, hopenable⟩ := openInode_eq_some.1 hj
        rw [resolve_child hpath hi hdir (h.proper hdir) hde hlive.1] at hres
        obtain rfl := Option.some.inj hres
        have hnil : pathOf (path ++ slash :: cutName de.name) [] = path ++ slash :: cutName de.name := by
          simp [pathOf]
        have hseen : Seen d k (path ++ slash :: cutName de.name) [] de.inum :=
          ⟨Nat.pos_of_ne_zero hk, by rwa [hnil], hopenable⟩
        exact hdown [] de.inum rfl (seen_cons.2 hseen)

/-- With `k` free descriptors the lines are the paths of what is wanted and can be reached. -/
theorem mem_found_iff (hpath : path ≠ []) (hroot : d.resolve path = some root) (hdir : (d.node root).type = .dir)
    (h : Tree d.node root) {line : Text} : line ∈ found d name k path ↔ ∃ names j, Wanted d root name names j ∧
      Seen d k path names j ∧ line = pathOf path names ++ [newline] := by
  have hbase : ∀ {names j}, Branch d.node root names j → (d.node j).type = .file ∨ (d.node j).type = .device →
      (name = basename (pathOf path names) ↔ names.getLast? = some name) := by
    intro names j hb htype
    rcases List.eq_nil_or_concat names with rfl | ⟨before, nm, rfl⟩
    · obtain rfl := hb
      rw [hdir] at htype
      simp at htype
    · rw [List.concat_eq_append] at hb ⊢
      rw [pathOf_concat, basename_slash _ (h.no_slash hb nm (by simp)), List.getLast?_concat, Option.some.injEq,
        eq_comm]
  rw [mem_found hpath hroot h]
  constructor
  · rintro ⟨names, j, hb, htype, hname, hseen, hline⟩
    exact ⟨names, j, ⟨hb, htype, (hbase hb htype).1 hname⟩, hseen, hline⟩
  · rintro ⟨names, j, hw, hseen, hline⟩
    exact ⟨names, j, hw.branch, hw.type, (hbase hw.branch hw.type).2 hw.last, hseen, hline⟩

theorem reports_iff (hpath : path ≠ []) (hroot : d.resolve path = some root) (hdir : (d.node root).type = .dir)
    (h : Tree d.node root) : Reports d root path name (found d name k path) ↔
      ∀ names j, Wanted d root name names j → Seen d k path names j := by
  have hmem : ∀ line, line ∈ found d name k path ↔ _ := fun _ => mem_found_iff hpath hroot hdir h
  constructor
  · rintro ⟨-, hreports⟩ names j hw
    obtain ⟨names', j', hw', hseen, hline⟩ := (hmem _).1 ((hreports _).2 ⟨names, j, hw, rfl⟩)
    obtain rfl := pathOf_injective (h.no_slash hw.branch) (h.no_slash hw'.branch)
      (List.append_left_injective _ hline)
    obtain rfl := h.functional hw.branch hw'.branch
    exact hseen
  · intro hall
    refine ⟨nodup_found hpath hroot h, ?_⟩
    intro line
    rw [hmem]
    constructor
    · rintro ⟨names, j, hw, -, hline⟩
      exact ⟨names, j, hw, hline⟩
    · rintro ⟨names, j, hw, hline⟩
      exact ⟨names, j, hw, hall names j hw, hline⟩

section Chain

def nameField (name : Name) : List Byte := name ++ List.replicate (dirSiz - name.length) 0

def chainSlots (i : ℕ) : List Dirent :=
  [⟨i, nameField dot⟩, ⟨max 1 (i - 1), nameField dotdot⟩, ⟨i + 1, nameField [97]⟩]

/-- `n` directories in one another, the root first, and in the last one a file; the name is always `a`. -/
def chain (n : ℕ) : Disk where
  node i := if i ≤ n then ⟨.dir, 1, chainSlots i⟩ else ⟨.file, 1, []⟩
  major _ := 0
  cwd := 1

def fresh : State where
  fds fd := if fd < 3 then some ⟨0, 0⟩ else none
  out := []
  err := []

theorem chain_names (i : ℕ) : (chainSlots i).map (fun de => cutName de.name) = [dot, dotdot, [97]] := rfl

theorem chain_tree (n root : ℕ) : Tree (chain n).node root := by
  intro names i _ hdir
  by_cases hle : i ≤ n
  · have hnode : (chain n).node i = ⟨.dir, 1, chainSlots i⟩ := if_pos hle
    rw [hnode]
    constructor
    · apply List.Nodup.sublist (List.filter_sublist.map _)
      rw [chain_names]
      decide
    · intro de hde _
      have hmem : cutName de.name ∈ [dot, dotdot, [97]] := by
        rw [← chain_names i]
        exact List.mem_map_of_mem hde
      have hall : ∀ nm ∈ [dot, dotdot, [97]], nm ≠ [] ∧ slash ∉ nm := by decide
      exact hall _ hmem
  · have hnode : (chain n).node i = ⟨.file, 1, []⟩ := if_neg hle
    rw [hnode] at hdir
    cases hdir

theorem chain_branch {n i j : ℕ} {names : List Name} (h : Branch (chain n).node i names j) :
    names = List.replicate names.length [97] ∧ j = i + names.length ∧ (names ≠ [] → j ≤ n + 1) := by
  induction names generalizing i with
  | nil => exact ⟨rfl, h.symm, fun hne => absurd rfl hne⟩
  | cons nm names ih =>
    obtain ⟨hdir, de, hde, hlive, rfl, hb⟩ := h
    have hle : i ≤ n := by
      by_contra hlt
      have hnode : (chain n).node i = ⟨.file, 1, []⟩ := if_neg hlt
      rw [hnode] at hdir
      cases hdir
    have hnode : (chain n).node i = ⟨.dir, 1, chainSlots i⟩ := if_pos hle
    rw [hnode] at hde
    obtain ⟨hinum, hname⟩ : de.inum = i + 1 ∧ cutName de.name = [97] := by
      simp only [chainSlots, List.mem_cons, List.not_mem_nil, or_false] at hde
      rcases hde with rfl | rfl | rfl
      · exact absurd rfl hlive.2.1
      · exact absurd rfl hlive.2.2
      · exact ⟨rfl, rfl⟩
    obtain ⟨hnames, hj, hbound⟩ := ih hb
    rw [hinum] at hj
    refine ⟨?_, by simp only [List.length_cons]; omega, fun _ => ?_⟩
    · rw [hname, List.length_cons, List.replicate_succ, ← hnames]
    · cases names with
      | nil => simp only [List.length_nil] at hj; omega
      | cons nm' names => exact hbound (List.cons_ne_nil _ _)

theorem chain_down {n i m : ℕ} (h : i + m ≤ n + 1) : Branch (chain n).node i (List.replicate m [97]) (i + m) := by
  induction m generalizing i with
  | zero => rfl
  | succ m ih =>
    have hnode : (chain n).node i = ⟨.dir, 1, chainSlots i⟩ := if_pos (by omega)
    have hrest := ih (i := i + 1) (by omega)
    rw [List.replicate_succ, Branch, hnode, ← Nat.add_assoc, Nat.add_right_comm]
    have hdot : cutName (nameField [97]) ≠ dot := by decide
    have hdotdot : cutName (nameField [97]) ≠ dotdot := by decide
    exact ⟨rfl, ⟨i + 1, nameField [97]⟩, by simp [chainSlots], ⟨Nat.succ_ne_zero i, hdot, hdotdot⟩, rfl, hrest⟩

theorem length_pathOf_replicate (m : ℕ) : (pathOf [slash] (List.replicate m [97])).length = 2 * m + 1 := by
  induction m with
  | zero => rfl
  | succ m ih =>
    rw [List.replicate_succ', pathOf_concat, List.length_append, ih]
    rfl

theorem fresh_fds : ∀ fd < nOfile, (fresh.fds fd).isSome ↔ fd < 3 := by
  intro fd _
  simp only [fresh]
  split
  · simpa
  · rename_i hge
    simpa using hge

end Chain

/-- `find` in a process with the descriptors 0 to 2, on a stack for `frames` calls of it. It prints
nothing that is not wanted. It comes to its end, with the descriptors as they were, and prints the
paths of all entries that are wanted, each once, if and only if two things hold: the stack is large
enough for all entries that are reached, and all that is wanted is reached, which is to lie below at
most twelve directories, have a path that `open` takes, and be no device without a driver. -/
theorem find_reports_iff (hpath : path ≠ []) (hroot : d.resolve path = some root) (hdir : (d.node root).type = .dir)
    (h : Tree d.node root) (s : State) (hfds : ∀ fd < nOfile, (s.fds fd).isSome ↔ fd < 3)
    (name : Name) (frames : ℕ) :
    ∃ r t lines, Gives (fun fuel => find d name fuel frames path s) (r, t) ∧ t.out = s.out ++ lines ∧
      (∀ line ∈ lines, ∃ names j, Wanted d root name names j ∧ line = pathOf path names ++ [newline]) ∧
      (r ≠ none → t.fds = s.fds) ∧
      (r ≠ none ∧ Reports d root path name lines ↔
        (0 < frames ∧ ∀ names j, Branch d.node root names j →
          names.length ≤ 12 → (pathOf path names).length < maxPath → d.Openable j → names.length < frames) ∧
        ∀ names j, Wanted d root name names j →
          names.length ≤ 12 ∧ (pathOf path names).length < maxPath ∧ d.Openable j) := by
  have hfree : free s.fds = 13 := by
    have hfilter : (Finset.range nOfile).filter (fun fd => s.fds fd = none) =
        (Finset.range nOfile).filter (fun fd => ¬ fd < 3) := by
      apply Finset.filter_congr
      intro fd hfd
      rw [← hfds fd (Finset.mem_range.1 hfd), Option.not_isSome_iff_eq_none]
    rw [free, hfilter]
    rfl
  obtain ⟨r, t, hgives, htfds, halive, lines, hout, hpre, hlines⟩ := find_gives d name 13 frames path s hfree
  simp only [Option.isSome_iff_ne_none] at htfds halive hlines
  refine ⟨r, t, lines, hgives, hout, ?_, htfds, ?_⟩
  · intro line hline
    obtain ⟨names, j, hw, -, hline⟩ := (mem_found_iff hpath hroot hdir h).1 (hpre.subset hline)
    exact ⟨names, j, hw, hline⟩
  · have hfits := halive.trans (fits_iff hpath hroot h)
    have hreports : Reports d root path name (found d name 13 path) ↔ _ := reports_iff hpath hroot hdir h
    simp only [seen_thirteen, and_imp] at hfits hreports
    rw [← hreports, ← hfits]
    refine and_congr_right fun hok => ?_
    rw [hlines hok]

/-- A file below four directories is found on a stack for five calls. -/
theorem find_reports_four : ∃ r t, Gives (fun fuel => find (chain 4) [97] fuel 5 [slash] fresh) (r, t) ∧
    r ≠ none ∧ t.fds = fresh.fds ∧ Reports (chain 4) 1 [slash] [97] t.out := by
  have hroot : (chain 4).resolve [slash] = some 1 := rfl
  obtain ⟨r, t, lines, hgives, hout, -, hfds, hreports⟩ :=
    find_reports_iff (List.cons_ne_nil slash []) hroot rfl (chain_tree 4 1) fresh fresh_fds [97] 5
  have hdepth : ∀ {names j}, Branch (chain 4).node 1 names j → names.length ≤ 4 := by
    intro names j hb
    obtain ⟨-, hj, hle⟩ := chain_branch hb
    cases names with
    | nil => exact Nat.zero_le _
    | cons nm names =>
      have := hle (List.cons_ne_nil _ _)
      omega
  have hseen : ∀ names j, Wanted (chain 4) 1 [97] names j →
      names.length ≤ 12 ∧ (pathOf [slash] names).length < maxPath ∧ (chain 4).Openable j := by
    intro names j hw
    have hlen := hdepth hw.branch
    refine ⟨by omega, ?_, fun _ => ⟨le_rfl, Int.natCast_pos.2 (by decide)⟩⟩
    rw [(chain_branch hw.branch).1, length_pathOf_replicate, maxPath]
    omega
  obtain ⟨halive, hall⟩ := hreports.2
    ⟨⟨by decide, fun names j hb _ _ _ => Nat.lt_succ_of_le (hdepth hb)⟩, hseen⟩
  refine ⟨r, t, hgives, halive, hfds halive, ?_⟩
  rwa [hout]

/-- A file below thirteen directories is not, whatever the size of the stack. -/
theorem find_misses_thirteenth : Wanted (chain 13) 1 [97] (List.replicate 13 [97]) 14 ∧
    ∀ frames, ∃ r t, Gives (fun fuel => find (chain 13) [97] fuel frames [slash] fresh) (r, t) ∧ t.out = [] := by
  constructor
  · exact ⟨chain_down le_rfl, .inl rfl, rfl⟩
  · intro frames
    obtain ⟨r, t, hgives, -, -, lines, hout, hpre, -⟩ :=
      find_gives (chain 13) [97] 13 frames [slash] fresh (by decide)
    have hnil : found (chain 13) [97] 13 [slash] = [] := by decide +kernel
    rw [hnil, List.prefix_nil] at hpre
    exact ⟨r, t, hgives, by rw [hout, hpre]; rfl⟩

end Xv6.Find
