import Mathlib.Logic.Relation
import Xv6.PanicPrograms

/-!
# Programs as paths of actions

A program changes its state in small actions. `Treads step cause m s Q` says that `m`, started
in `s`, gets from `s` to its end by actions of `step`, with `Q` there; if it panics, it does so
in a state that it has reached by such actions, and for a cause. What every action keeps, the
program keeps, and has at the panic.
-/

namespace Xv6.ActionPaths

open PanicPrograms Relation

variable {σ ε α β : Type} {step step' : σ → σ → Prop} {cause cause' : σ → ε → Prop}

/-- From `s`, the program returns with `Q` or panics for a cause, by actions of `step`. -/
def Treads (step : σ → σ → Prop) (cause : σ → ε → Prop) (m : Program σ ε α) (s : σ)
    (Q : α → σ → Prop) : Prop :=
  Ends m s (fun a t => ReflTransGen step s t ∧ Q a t) (fun e => ∃ t, ReflTransGen step s t ∧ cause t e)

variable {m m' : Program σ ε α} {s t : σ} {Q R : α → σ → Prop}

theorem Treads.mono (h : Treads step cause m s Q) (hQ : ∀ a t, Q a t → R a t) :
    Treads step cause m s R :=
  Ends.mono h (fun a t ht => ⟨ht.1, hQ a t ht.2⟩) (fun _ he => he)

theorem Treads.weaken (h : Treads step cause m s Q) (hstep : ∀ s t, step s t → step' s t)
    (hcause : ∀ s e, cause s e → cause' s e) : Treads step' cause' m s Q := by
  refine Ends.mono h ?_ ?_
  · rintro a t ⟨hst, ha⟩
    exact ⟨ReflTransGen.mono hstep _ _ hst, ha⟩
  · rintro e ⟨t, hst, he⟩
    exact ⟨t, ReflTransGen.mono hstep _ _ hst, hcause t e he⟩

theorem Treads.also {E : ε → Prop} (h : Treads step cause m s Q) (h' : Ends m s R E) :
    Treads step cause m s (fun a t => Q a t ∧ R a t) := by
  have hend : Ends m s R (fun _ => True) := h'.mono (fun _ _ h => h) (fun _ _ => trivial)
  exact (Ends.also h hend).mono (fun a t ht => ⟨ht.1.1, ht.1.2, ht.2⟩) (fun _ he => he)

theorem Treads.ending {E : ε → Prop} (h : Treads step cause m s Q) (h' : Ends m s R E) :
    Treads step cause m s R := (h.also h').mono (fun _ _ ht => ht.2)

theorem Treads.within {E : ε → Prop} (h : Treads step cause m s Q) (h' : Ends m s R E) :
    Treads step (fun t e => cause t e ∧ E e) m s R := by
  refine (Ends.both h h').mono (fun _ _ ht => ⟨ht.1.1, ht.2⟩) ?_
  rintro e ⟨⟨t, hst, he⟩, hE⟩
  exact ⟨t, hst, he, hE⟩

theorem treads_pure {a : α} (h : Q a s) : Treads step cause (pure a) s Q := ⟨.refl, h⟩

theorem treads_throw {e : ε} (h : cause s e) : Treads step cause (throw e : Program σ ε α) s Q :=
  ⟨s, .refl, h⟩

theorem treads_modify {f : σ → σ} {Q : PUnit → σ → Prop} (h : step s (f s)) (hQ : Q ⟨⟩ (f s)) :
    Treads step cause (modify f : Program σ ε PUnit) s Q := ⟨.single h, hQ⟩

theorem Treads.bind {f : α → Program σ ε β} {R : β → σ → Prop} (h : Treads step cause m s Q)
    (hf : ∀ a t, Q a t → Treads step cause (f a) t R) : Treads step cause (m >>= f) s R := by
  rw [Treads, ends_bind]
  refine Ends.mono h ?_ (fun _ he => he)
  rintro a t ⟨hst, ha⟩
  refine Ends.mono (hf a t ha) ?_ ?_
  · rintro b u ⟨htu, hb⟩
    exact ⟨hst.trans htu, hb⟩
  · rintro e ⟨u, htu, he⟩
    exact ⟨u, hst.trans htu, he⟩

theorem treads_assoc {f : α → Program σ ε β} {γ : Type} {g : β → Program σ ε γ} {R : γ → σ → Prop} :
    Treads step cause ((m >>= f) >>= g) s R ↔ Treads step cause (m >>= fun a => f a >>= g) s R := by
  simp only [Treads, ends_bind]

theorem treads_get {f : σ → Program σ ε β} {R : β → σ → Prop} :
    Treads step cause (get >>= f) s R ↔ Treads step cause (f s) s R := by
  rw [Treads, ends_bind, ends_get]
  rfl

theorem treads_pure_bind {a : α} {f : α → Program σ ε β} {R : β → σ → Prop} :
    Treads step cause (pure a >>= f) s R ↔ Treads step cause (f a) s R := by
  rw [Treads, ends_bind, ends_pure]
  rfl

theorem Treads.map {f : α → β} {R : β → σ → Prop}
    (h : Treads step cause m s (fun a t => R (f a) t)) : Treads step cause (f <$> m) s R := by
  rw [Treads, ends_map]
  exact h

theorem Treads.ite {c : Prop} [Decidable c] (h : c → Treads step cause m s Q)
    (h' : ¬ c → Treads step cause m' s Q) : Treads step cause (if c then m else m') s Q :=
  ends_ite h h'

/-- What every action keeps holds at the end of a path. -/
theorem path_keeps {I : σ → Prop} (hI : ∀ s t, step s t → I s → I t) (h : ReflTransGen step s t)
    (hs : I s) : I t := by
  induction h with
  | refl => exact hs
  | tail _ hstep ih => exact hI _ _ hstep ih

/-- What every action keeps holds at the end of a program, and where it panics. -/
theorem Treads.keeps {I : σ → Prop} (hI : ∀ s t, step s t → I s → I t)
    (h : Treads step cause m s Q) (hs : I s) :
    Ends m s (fun a t => I t ∧ Q a t) (fun e => ∃ t, I t ∧ cause t e) := by
  refine Ends.mono h ?_ ?_
  · rintro a t ⟨hst, ha⟩
    exact ⟨path_keeps hI hst hs, ha⟩
  · rintro e ⟨t, hst, he⟩
    exact ⟨t, path_keeps hI hst hs, he⟩

end Xv6.ActionPaths
