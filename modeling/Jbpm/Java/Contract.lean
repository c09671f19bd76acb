/-
  Contracts of statements that may throw: what each of them does to the state, however many
  follow one another.

  * `Contract`: a relation for the statements that end well, and one for those that throw;
  * `Meets`: a statement meets a contract, from a precondition to a postcondition;
  * `mapAll`: a statement for each element of a list, in order.
-/
import Mathlib.Data.List.Forall2
import Jbpm.Java.Throws

namespace Java

/-- What statements do to a state, if they end well and if they throw. -/
structure Contract (ε σ : Type) where
  keeps : σ → σ → Prop
  fails : σ → ε → σ → Prop
  refl : ∀ s, keeps s s
  trans : ∀ {s s' s''}, keeps s s' → keeps s' s'' → keeps s s''
  trans_fails : ∀ {s s' s'' e}, keeps s s' → fails s' e s'' → fails s e s''

namespace Contract

variable {ε σ α β γ : Type} (C : Contract ε σ)

/-- An assertion that statements under the contract leave true. -/
def Stable (P : σ → Prop) : Prop := ∀ ⦃s s'⦄, C.keeps s s' → P s → P s'

def Meets (P : σ → Prop) (m : Throws ε σ α) (Q : α → σ → Prop) : Prop :=
  ∀ s, P s →
    match m s with
    | (.ok a, s') => C.keeps s s' ∧ Q a s'
    | (.error e, s') => C.fails s e s'

variable {C} {P P' : σ → Prop} {m : Throws ε σ α} {Q Q' : α → σ → Prop}

theorem Meets.ok (h : C.Meets P m Q) {s s' : σ} {a : α} (hs : P s) (hm : m s = (.ok a, s')) :
    C.keeps s s' ∧ Q a s' := by
  have hrun := h s hs
  rwa [hm] at hrun

theorem Meets.error (h : C.Meets P m Q) {s s' : σ} {e : ε} (hs : P s) (hm : m s = (.error e, s')) :
    C.fails s e s' := by
  have hrun := h s hs
  rwa [hm] at hrun

theorem meets_pure {a : α} (h : ∀ s, P s → Q a s) : C.Meets P (pure a) Q :=
  fun s hs => ⟨C.refl s, h s hs⟩

theorem Meets.bind {f : α → Throws ε σ β} {R : β → σ → Prop} (hm : C.Meets P m Q)
    (hf : ∀ a, C.Meets (Q a) (f a) R) : C.Meets P (m >>= f) R := by
  intro s hs
  rcases hrun : m s with ⟨e | a, s'⟩
  · rw [Throws.bind_of_error hrun]
    exact hm.error hs hrun
  · rw [Throws.bind_of_ok hrun]
    obtain ⟨hkeeps, ha⟩ := hm.ok hs hrun
    rcases hrest : f a s' with ⟨e | b, s''⟩
    · exact C.trans_fails hkeeps ((hf a).error ha hrest)
    · obtain ⟨hkeeps', hb⟩ := (hf a).ok ha hrest
      exact ⟨C.trans hkeeps hkeeps', hb⟩

theorem Meets.mono (h : C.Meets P m Q) (hP : ∀ s, P' s → P s) (hQ : ∀ a s, Q a s → Q' a s) :
    C.Meets P' m Q' := by
  intro s hs
  rcases hrun : m s with ⟨e | a, s'⟩
  · exact h.error (hP s hs) hrun
  · obtain ⟨hkeeps, ha⟩ := h.ok (hP s hs) hrun
    exact ⟨hkeeps, hQ a s' ha⟩

/-- **Frame.**  A stable assertion survives. -/
theorem Meets.frame (h : C.Meets P m Q) {A : σ → Prop} (hA : C.Stable A) :
    C.Meets (fun s => P s ∧ A s) m fun a s => Q a s ∧ A s := by
  intro s hs
  rcases hrun : m s with ⟨e | a, s'⟩
  · exact h.error hs.1 hrun
  · obtain ⟨hkeeps, ha⟩ := h.ok hs.1 hrun
    exact ⟨hkeeps, ha, hA hkeeps hs.2⟩

end Contract

/-- A statement for each element of a list, in order. -/
def Throws.mapAll {ε σ α β : Type} (f : α → Throws ε σ β) : List α → Throws ε σ (List β)
  | [] => pure []
  | a :: as => do
    let b ← f a
    let bs ← Throws.mapAll f as
    pure (b :: bs)

namespace Contract

variable {ε σ α β : Type} {C : Contract ε σ} {P : σ → Prop} {f : α → Throws ε σ β}

/-- What is asserted of each result, stably, is asserted of all of them in the end. -/
theorem meets_mapAll {Q : α → β → σ → Prop} (hP : C.Stable P) (hQ : ∀ a b, C.Stable (Q a b))
    {as : List α} (h : ∀ a ∈ as, C.Meets P (f a) (Q a)) :
    C.Meets P (Throws.mapAll f as) fun bs s => P s ∧ List.Forall₂ (fun a b => Q a b s) as bs := by
  induction as with
  | nil => exact meets_pure fun s hs => ⟨hs, .nil⟩
  | cons a as ih =>
    obtain ⟨ha, has⟩ := List.forall_mem_cons.1 h
    refine Meets.bind (ha.frame hP |>.mono (fun s hs => ⟨hs, hs⟩) fun _ _ hq => hq) fun b => ?_
    refine Meets.bind (((ih has).frame (hQ a b)).mono (fun s hs => ⟨hs.2, hs.1⟩)
      fun _ _ hq => hq) fun bs => ?_
    exact meets_pure fun s hs => ⟨hs.1.1, .cons hs.2 hs.1.2⟩

end Contract

end Java
