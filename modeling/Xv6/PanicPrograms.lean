import Mathlib.Data.List.Basic

/-!
# Programs that change a state and may panic

A program runs on a state and ends with a value and a new state, or stops with a panic.
`Ends m s Q E` says what is true at its end: `Q` of the value and the state if it
returns, `E` of the panic if it does not. The rules follow the shape of the program.
-/

namespace Xv6.PanicPrograms

variable {σ ε α β : Type}

abbrev Program (σ ε α : Type) := StateT σ (Except ε) α

/-- Started in `s`, the program returns with `Q` or panics with `E`. -/
def Ends (m : Program σ ε α) (s : σ) (Q : α → σ → Prop) (E : ε → Prop) : Prop :=
  match m s with
  | .ok (a, t) => Q a t
  | .error e => E e

variable {m : Program σ ε α} {s : σ} {Q R : α → σ → Prop} {E F : ε → Prop}

theorem Ends.mono (h : Ends m s Q E) (hQ : ∀ a t, Q a t → R a t) (hE : ∀ e, E e → F e) :
    Ends m s R F := by
  rw [Ends] at h ⊢
  cases hm : m s with
  | ok r =>
    rw [hm] at h
    exact hQ r.1 r.2 h
  | error e =>
    rw [hm] at h
    exact hE e h

theorem Ends.imp (h : Ends m s Q E) (hQ : ∀ a t, Q a t → R a t) : Ends m s R E := h.mono hQ (fun _ he => he)

/-- What holds if there is no panic. -/
theorem Ends.ok (h : Ends m s Q E) (hQ : ∀ a t, Q a t → R a t) : Ends m s R (fun _ => True) :=
  h.mono hQ (fun _ _ => trivial)

theorem Ends.both (h : Ends m s Q E) (h' : Ends m s R F) :
    Ends m s (fun a t => Q a t ∧ R a t) (fun e => E e ∧ F e) := by
  rw [Ends] at h h' ⊢
  cases hm : m s with
  | ok r =>
    rw [hm] at h h'
    exact ⟨h, h'⟩
  | error e =>
    rw [hm] at h h'
    exact ⟨h, h'⟩

theorem Ends.and (h : Ends m s Q E) (h' : Ends m s R E) :
    Ends m s (fun a t => Q a t ∧ R a t) E :=
  (h.both h').mono (fun _ _ h => h) (fun _ h => h.1)

theorem Ends.also (h : Ends m s Q E) (h' : Ends m s R (fun _ => True)) :
    Ends m s (fun a t => Q a t ∧ R a t) E :=
  (h.both h').mono (fun _ _ h => h) (fun _ h => h.1)

theorem Ends.alsoAll {ι : Type} {R : ι → α → σ → Prop} (h : Ends m s Q E)
    (h' : ∀ i, Ends m s (R i) (fun _ => True)) : Ends m s (fun a t => Q a t ∧ ∀ i, R i a t) E := by
  rw [Ends] at h ⊢
  cases hm : m s with
  | ok r =>
    rw [hm] at h
    refine ⟨h, fun i => ?_⟩
    have hi := h' i
    rwa [Ends, hm] at hi
  | error e => rwa [hm] at h

theorem Ends.of_ok {a : α} {t : σ} (h : Ends m s Q E) (hm : m s = .ok (a, t)) : Q a t := by
  rwa [Ends, hm] at h

theorem Ends.of_error {e : ε} (h : Ends m s Q E) (hm : m s = .error e) : E e := by
  rwa [Ends, hm] at h

theorem ends_of_ok {a : α} {t : σ} (hm : m s = .ok (a, t)) (h : Q a t) : Ends m s Q E := by
  rw [Ends, hm]
  exact h

theorem ends_self : Ends m s (fun a t => m s = .ok (a, t)) (fun e => m s = .error e) := by
  rw [Ends]
  split
  · assumption
  · assumption

theorem Ends.exists_ok (h : Ends m s Q (fun _ => False)) : ∃ a t, m s = .ok (a, t) ∧ Q a t := by
  rw [Ends] at h
  cases hm : m s with
  | ok r =>
    rw [hm] at h
    exact ⟨r.1, r.2, rfl, h⟩
  | error e =>
    rw [hm] at h
    exact h.elim

theorem exists_of_map_ok {x : Except ε α} {f : α → β} {b : β} (h : x.map f = .ok b) :
    ∃ a, x = .ok a ∧ f a = b := by
  cases x with
  | ok a => exact ⟨a, rfl, Except.ok.inj h⟩
  | error e => cases h

theorem of_map_error {x : Except ε α} {f : α → β} {e : ε} (h : x.map f = .error e) : x = .error e := by
  cases x with
  | ok a => cases h
  | error e' =>
    cases h
    rfl

def returns (m : Program σ ε α) (s : σ) (test : α → σ → Bool) : Bool :=
  match m s with
  | .ok (a, t) => test a t
  | .error _ => false

theorem exists_of_returns {test : α → σ → Bool} (h : returns m s test = true) :
    ∃ a t, m s = .ok (a, t) ∧ test a t = true := by
  rw [returns] at h
  split at h
  · rename_i a t hm
    exact ⟨a, t, hm, h⟩
  · cases h

@[simp] theorem ends_pure (a : α) : Ends (pure a : Program σ ε α) s Q E ↔ Q a s := Iff.rfl

@[simp] theorem ends_bind (f : α → Program σ ε β) {Q : β → σ → Prop} :
    Ends (m >>= f) s Q E ↔ Ends m s (fun a t => Ends (f a) t Q E) E := by
  have hbind : (m >>= f) s = (m s).bind (fun r => f r.1 r.2) := rfl
  simp only [Ends, hbind]
  cases m s <;> rfl

theorem Ends.bind {f : α → Program σ ε β} {R : β → σ → Prop} (h : Ends m s Q E)
    (hf : ∀ a t, Q a t → Ends (f a) t R E) : Ends (m >>= f) s R E :=
  (ends_bind f).2 (h.imp hf)

theorem Ends.bindOk {f : α → Program σ ε β} {R : β → σ → Prop} (h : Ends m s Q E)
    (hf : ∀ a t, Q a t → Ends (f a) t R (fun _ => True)) : Ends (m >>= f) s R (fun _ => True) :=
  (ends_bind f).2 (h.ok hf)

@[simp] theorem ends_map (f : α → β) {Q : β → σ → Prop} :
    Ends (f <$> m) s Q E ↔ Ends m s (fun a t => Q (f a) t) E := by
  have hmap : f <$> m = m >>= fun a => pure (f a) := (bind_pure_comp f m).symm
  rw [hmap, ends_bind]
  rfl

@[simp] theorem ends_get {Q : σ → σ → Prop} : Ends (get : Program σ ε σ) s Q E ↔ Q s s := Iff.rfl

@[simp] theorem ends_modify (f : σ → σ) {Q : PUnit → σ → Prop} :
    Ends (modify f : Program σ ε PUnit) s Q E ↔ Q ⟨⟩ (f s) := Iff.rfl

@[simp] theorem ends_throw (e : ε) : Ends (throw e : Program σ ε α) s Q E ↔ E e := Iff.rfl

def zoom {τ : Type} (part : τ → σ) (set : τ → σ → τ) (m : Program σ ε α) : Program τ ε α :=
  fun t => (m (part t)).map (fun r => (r.1, set t r.2))

@[simp] theorem ends_zoom {τ : Type} {part : τ → σ} {set : τ → σ → τ} {t : τ}
    {Q : α → τ → Prop} :
    Ends (zoom part set m) t Q E ↔ Ends m (part t) (fun a s => Q a (set t s)) E := by
  simp only [Ends, zoom]
  cases m (part t) <;> rfl

theorem ends_ite {c : Prop} [Decidable c] {m' : Program σ ε α}
    (h : c → Ends m s Q E) (h' : ¬ c → Ends m' s Q E) : Ends (if c then m else m') s Q E := by
  split
  · exact h ‹_›
  · exact h' ‹_›

/-- A loop over a list, with an invariant that says how much of it is done. -/
theorem ends_forM {γ : Type} {f : γ → Program σ ε PUnit} (I : List γ → σ → Prop) (l : List γ)
    (init : I l s) (turn : ∀ c rest t, I (c :: rest) t → Ends (f c) t (fun _ => I rest) E) :
    Ends (l.forM f) s (fun _ => I []) E := by
  induction l generalizing s with
  | nil => exact init
  | cons c rest ih =>
    change Ends (f c >>= fun _ => rest.forM f) s _ E
    rw [ends_bind]
    refine (turn c rest s init).mono ?_ (fun _ he => he)
    intro _ t ht
    exact ih ht

section Tracks

variable {τ δ : Type}

/-- Where `m` returns from `s`, `n` returns from `t`, with `R` between the two results. -/
def Tracks (m : Program σ ε α) (s : σ) (n : Program τ δ β) (t : τ) (R : α → σ → β → τ → Prop)
    (E : ε → Prop) : Prop :=
  Ends m s (fun a s' => Ends n t (R a s') (fun _ => False)) E

end Tracks

section Preserves

variable {τ γ : Type} {part : σ → τ}

/-- The program does not change `part` of the state, and panics with `E` if at all. -/
def Preserves (part : σ → τ) (E : ε → Prop) (m : Program σ ε α) : Prop :=
  ∀ s, Ends m s (fun _ t => part t = part s) E

theorem preserves_pure (a : α) : Preserves part E (pure a : Program σ ε α) := fun _ => rfl

theorem preserves_get : Preserves part E (get : Program σ ε σ) := fun _ => rfl

theorem preserves_throw {e : ε} (he : E e) : Preserves part E (throw e : Program σ ε α) := fun _ => he

theorem preserves_modify {f : σ → σ} (hf : ∀ s, part (f s) = part s) :
    Preserves part E (modify f : Program σ ε PUnit) := hf

theorem Preserves.bind {f : α → Program σ ε β} (hm : Preserves part E m)
    (hf : ∀ a, Preserves part E (f a)) : Preserves part E (m >>= f) := by
  intro s
  rw [ends_bind]
  refine (hm s).mono ?_ (fun _ h => h)
  intro a t ht
  refine (hf a t).mono ?_ (fun _ h => h)
  intro _ u hu
  rw [hu, ht]

theorem Preserves.ite {c : Prop} [Decidable c] {m' : Program σ ε α} (h : Preserves part E m)
    (h' : Preserves part E m') : Preserves part E (if c then m else m') := by
  split
  · exact h
  · exact h'

theorem Preserves.forM {f : γ → Program σ ε PUnit} (hf : ∀ c, Preserves part E (f c)) (l : List γ) :
    Preserves part E (l.forM f) := by
  induction l with
  | nil => exact preserves_pure _
  | cons c l ih => exact (hf c).bind (fun _ => ih)

end Preserves

end Xv6.PanicPrograms
