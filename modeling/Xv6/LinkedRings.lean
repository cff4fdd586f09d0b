import Mathlib.Data.List.Nodup
import Mathlib.Logic.Function.Iterate

/-!
# Circular doubly linked lists

The nodes are a head, `none`, and the elements of a type. A ring lists its members in the
order in which the forward pointers visit them. Taking a member out and putting one in
behind the head are the assignments that programs make, in their order.
-/

namespace Xv6.LinkedRings

open Function

variable {κ : Type*}

structure Links (κ : Type*) where
  next : Option κ → Option κ
  prev : Option κ → Option κ

/-- From `a` through the members `l` to `z`, linked both ways. -/
def Path (p : Links κ) : Option κ → List κ → Option κ → Prop
  | a, [], z => p.next a = z ∧ p.prev z = a
  | a, b :: l, z => p.next a = some b ∧ p.prev (some b) = a ∧ Path p (some b) l z

structure Ring (p : Links κ) (l : List κ) : Prop where
  path : Path p none l none
  nodup : l.Nodup

variable {p q : Links κ} {a z : Option κ} {b : κ} {l m : List κ}

theorem Path.congr (h : Path p a l z) (ha : q.next a = p.next a)
    (hnext : ∀ b ∈ l, q.next (some b) = p.next (some b))
    (hprev : ∀ b ∈ l, q.prev (some b) = p.prev (some b)) (hz : q.prev z = p.prev z) :
    Path q a l z := by
  induction l generalizing a with
  | nil => exact ⟨ha.trans h.1, hz.trans h.2⟩
  | cons b l ih =>
    obtain ⟨hn, hp, hrest⟩ := h
    exact ⟨ha.trans hn, (hprev b List.mem_cons_self).trans hp, ih hrest (hnext b List.mem_cons_self)
      (fun c hc => hnext c (List.mem_cons_of_mem b hc))
      (fun c hc => hprev c (List.mem_cons_of_mem b hc))⟩

theorem path_append : Path p a (l ++ b :: m) z ↔ Path p a l (some b) ∧ Path p (some b) m z := by
  induction l generalizing a with
  | nil => exact and_assoc.symm
  | cons c l ih =>
    rw [List.cons_append, Path, ih, Path]
    tauto

theorem Path.reverse (h : Path p a l z) : Path ⟨p.prev, p.next⟩ z l.reverse a := by
  induction l generalizing a with
  | nil => exact ⟨h.2, h.1⟩
  | cons b l ih =>
    obtain ⟨hn, hp, hrest⟩ := h
    rw [List.reverse_cons, path_append]
    exact ⟨ih hrest, hp, hn⟩

theorem Path.prev_mem (h : Path p a l z) : p.prev z = a ∨ ∃ c ∈ l, p.prev z = some c := by
  induction l generalizing a with
  | nil => exact .inl h.2
  | cons b l ih =>
    rcases ih h.2.2 with hb | ⟨c, hc, hcz⟩
    · exact .inr ⟨b, List.mem_cons_self, hb⟩
    · exact .inr ⟨c, List.mem_cons_of_mem b hc, hcz⟩

theorem Path.next_mem (h : Path p a l z) : p.next a = z ∨ ∃ c ∈ l, p.next a = some c := by
  cases l with
  | nil => exact .inl h.1
  | cons b l => exact .inr ⟨b, List.mem_cons_self, h.1⟩

theorem Path.prev_next (h : Path p a l z) :
    p.prev (p.next a) = a ∧ ∀ b ∈ l, p.prev (p.next (some b)) = some b := by
  induction l generalizing a with
  | nil =>
    rw [h.1, h.2]
    exact ⟨rfl, fun b hb => by cases hb⟩
  | cons c l ih =>
    obtain ⟨hn, hp, hrest⟩ := h
    obtain ⟨hc, hl⟩ := ih hrest
    refine ⟨by rw [hn, hp], fun b hb => ?_⟩
    rcases List.mem_cons.1 hb with rfl | hb
    · exact hc
    · exact hl b hb

theorem Path.iterate (h : Path p a l none) {k : ℕ} (hk : k ≤ l.length) : p.next^[k + 1] a = l[k]? := by
  induction l generalizing a k with
  | nil =>
    obtain rfl : k = 0 := Nat.le_zero.1 hk
    exact h.1
  | cons b l ih =>
    obtain ⟨hn, -, hrest⟩ := h
    cases k with
    | zero => exact hn
    | succ k =>
      rw [Function.iterate_succ_apply, hn, List.getElem?_cons_succ]
      exact ih hrest (Nat.le_of_succ_le_succ hk)

/-- Walks along `link` to the first member that passes the test. -/
def scan (link : Option κ → Option κ) (test : κ → Bool) : ℕ → Option κ → Option κ
  | 0, _ => none
  | _ + 1, none => none
  | n + 1, some b => if test b then some b else scan link test n (link (some b))

theorem Path.scan_eq {test : κ → Bool} (h : Path p a l none) {n : ℕ} (hn : l.length ≤ n) :
    scan p.next test n (p.next a) = l.find? test := by
  induction l generalizing a n with
  | nil =>
    rw [h.1]
    cases n <;> rfl
  | cons b l ih =>
    obtain ⟨hb, -, hrest⟩ := h
    cases n with
    | zero => cases hn
    | succ n =>
      rw [hb, scan, List.find?_cons, ih hrest (Nat.le_of_succ_le_succ hn)]
      cases test b <;> rfl

theorem Ring.scan_next {test : κ → Bool} (h : Ring p l) {n : ℕ} (hn : l.length ≤ n) :
    scan p.next test n (p.next none) = l.find? test := h.path.scan_eq hn

theorem Ring.scan_prev {test : κ → Bool} (h : Ring p l) {n : ℕ} (hn : l.length ≤ n) :
    scan p.prev test n (p.prev none) = l.reverse.find? test :=
  h.path.reverse.scan_eq (by rwa [List.length_reverse])

variable [DecidableEq κ]

def Links.setNext (p : Links κ) (a z : Option κ) : Links κ :=
  { p with next := update p.next a z }

def Links.setPrev (p : Links κ) (a z : Option κ) : Links κ :=
  { p with prev := update p.prev a z }

def Links.unlink (p : Links κ) (b : κ) : Links κ :=
  let p := p.setPrev (p.next (some b)) (p.prev (some b))
  p.setNext (p.prev (some b)) (p.next (some b))

def Links.pushFront (p : Links κ) (b : κ) : Links κ :=
  let p := p.setNext (some b) (p.next none)
  let p := p.setPrev (some b) none
  let p := p.setPrev (p.next none) (some b)
  p.setNext none (some b)

theorem Links.unlink_eq (h : p.next (some b) ≠ some b) : p.unlink b =
    ⟨update p.next (p.prev (some b)) (p.next (some b)),
      update p.prev (p.next (some b)) (p.prev (some b))⟩ := by
  simp only [Links.unlink, Links.setPrev, Links.setNext, update_of_ne h.symm]

theorem Path.unlink (h : Path p a (l ++ b :: m) z) (hnodup : (l ++ b :: m).Nodup)
    (ha : ∀ c ∈ l ++ b :: m, a ≠ some c) (hz : ∀ c ∈ l ++ b :: m, z ≠ some c) :
    Path (p.unlink b) a (l ++ m) z := by
  have hb : b ∈ l ++ b :: m := List.mem_append_right l List.mem_cons_self
  have hm : ∀ c ∈ m, c ∈ l ++ b :: m := fun c hc =>
    List.mem_append_right l (List.mem_cons_of_mem b hc)
  obtain ⟨-, hbm, hdisj⟩ := List.nodup_append.1 hnodup
  obtain ⟨hbm, hmnodup⟩ := List.nodup_cons.1 hbm
  obtain ⟨hl, hr⟩ := path_append.1 h
  have hself : p.next (some b) ≠ some b := by
    rcases hr.next_mem with hnz | ⟨c, hc, hnc⟩
    · rw [hnz]
      exact hz b hb
    · rw [hnc]
      intro heq
      exact hbm (Option.some.inj heq ▸ hc)
  rw [Links.unlink_eq hself]
  induction l generalizing a with
  | nil =>
    obtain ⟨-, hpb⟩ := hl
    rw [hpb, List.nil_append]
    cases m with
    | nil =>
      obtain ⟨hnb, -⟩ := hr
      rw [hnb]
      exact ⟨update_self .., update_self ..⟩
    | cons c m =>
      obtain ⟨hnb, -, hrest⟩ := hr
      rw [hnb]
      refine ⟨update_self .., update_self .., ?_⟩
      obtain ⟨hcm, -⟩ := List.nodup_cons.1 hmnodup
      refine hrest.congr (update_of_ne (ha c (hm c List.mem_cons_self)).symm _ _)
        (fun d hd => update_of_ne (ha d (hm d (List.mem_cons_of_mem c hd))).symm _ _)
        (fun d hd => update_of_ne ?_ _ _)
        (update_of_ne (hz c (hm c List.mem_cons_self)) _ _)
      intro heq
      exact hcm (Option.some.inj heq ▸ hd)
  | cons c l ih =>
    obtain ⟨hn, hp, hrest⟩ := hl
    -- Neither neighbour of `b` is the link between `a` and `c`.
    have hprev : a ≠ p.prev (some b) := by
      rcases hrest.prev_mem with hpc | ⟨d, hd, hpd⟩
      · rw [hpc]
        exact ha c List.mem_cons_self
      · rw [hpd]
        exact ha d (List.mem_cons_of_mem c (List.mem_append_left _ hd))
    have hnext : some c ≠ p.next (some b) := by
      rcases hr.next_mem with hnz | ⟨d, hd, hnd⟩
      · rw [hnz]
        exact (hz c List.mem_cons_self).symm
      · rw [hnd]
        intro heq
        exact hdisj c List.mem_cons_self d (List.mem_cons_of_mem b hd) (Option.some.inj heq)
    have hnodup' := (List.nodup_cons.1 hnodup)
    refine ⟨(update_of_ne hprev _ _).trans hn, (update_of_ne hnext _ _).trans hp, ?_⟩
    refine ih (path_append.2 ⟨hrest, hr⟩) hnodup'.2 ?_ (fun d hd => hz d (List.mem_cons_of_mem c hd))
      (List.mem_append_right l List.mem_cons_self)
      (fun d hd => List.mem_append_right l (List.mem_cons_of_mem b hd))
      (fun x hx y hy => hdisj x (List.mem_cons_of_mem c hx) y hy) hrest
    intro d hd heq
    exact hnodup'.1 (Option.some.inj heq ▸ hd)

theorem Path.pushFront (h : Path p none l none) (hnodup : l.Nodup) (hb : b ∉ l) :
    Path (p.pushFront b) none (b :: l) none := by
  have hnext : (p.pushFront b).next = update (update p.next (some b) (p.next none))
      none (some b) := by
    simp [Links.pushFront, Links.setNext, Links.setPrev]
  have hprev : (p.pushFront b).prev = update (update p.prev (some b) none)
      (p.next none) (some b) := by
    simp [Links.pushFront, Links.setNext, Links.setPrev]
  have hself : p.next none ≠ some b := by
    rcases h.next_mem with hnz | ⟨c, hc, hnc⟩
    · simp [hnz]
    · rw [hnc]
      intro heq
      exact hb (Option.some.inj heq ▸ hc)
  refine ⟨?_, ?_, ?_⟩
  · rw [hnext, update_self]
  · rw [hprev, update_of_ne hself.symm, update_self]
  · cases l with
    | nil =>
      obtain ⟨hn, -⟩ := h
      rw [Path, hnext, hprev, hn]
      simp
    | cons c l =>
      obtain ⟨hn, -, hrest⟩ := h
      obtain ⟨hcl, -⟩ := List.nodup_cons.1 hnodup
      have hbc : ∀ d ∈ c :: l, (some d : Option κ) ≠ some b := by
        intro d hd heq
        exact hb (Option.some.inj heq ▸ hd)
      have hkeep : ∀ d ∈ c :: l, (p.pushFront b).next (some d) = p.next (some d) := by
        intro d hd
        rw [hnext, update_of_ne (by simp), update_of_ne (hbc d hd)]
      refine ⟨?_, ?_, hrest.congr (hkeep c List.mem_cons_self)
        (fun d hd => hkeep d (List.mem_cons_of_mem c hd)) (fun d hd => ?_) ?_⟩
      · rw [hnext, update_of_ne (by simp), update_self, hn]
      · rw [hprev, hn, update_self]
      · rw [hprev, hn, update_of_ne, update_of_ne (hbc d (List.mem_cons_of_mem c hd))]
        intro heq
        exact hcl (Option.some.inj heq ▸ hd)
      · rw [hprev, hn, update_of_ne (by simp), update_of_ne (by simp)]

theorem Ring.unlink (h : Ring p (l ++ b :: m)) : Ring (p.unlink b) (l ++ m) := by
  refine ⟨h.path.unlink h.nodup (by simp) (by simp), ?_⟩
  exact h.nodup.sublist (List.Sublist.append_left (List.sublist_cons_self b m) l)

theorem Ring.pushFront (h : Ring p l) (hb : b ∉ l) : Ring (p.pushFront b) (b :: l) :=
  ⟨h.path.pushFront h.nodup hb, List.nodup_cons.2 ⟨hb, h.nodup⟩⟩

theorem Ring.moveToFront (h : Ring p (l ++ b :: m)) :
    Ring ((p.unlink b).pushFront b) (b :: (l ++ m)) := by
  refine h.unlink.pushFront ?_
  have hnodup := h.nodup
  rw [List.nodup_middle, List.nodup_cons] at hnodup
  exact hnodup.1

end Xv6.LinkedRings
