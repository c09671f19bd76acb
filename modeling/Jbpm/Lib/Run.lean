/-
  Runs of a labelled transition system, and the induction over the runs whose
  steps all meet a condition.
-/
import Mathlib.Logic.Basic

namespace Lib

variable {σ ι : Type*}

/-- The steps `ls` lead from `s₀` to `s`, one after the other. -/
inductive Run (step : σ → ι → σ → Prop) (s₀ : σ) : List ι → σ → Prop
  | nil : Run step s₀ [] s₀
  | snoc {ls s l s'} : Run step s₀ ls s → step s l s' → Run step s₀ (ls ++ [l]) s'

/-- The steps that `C` allows in the state they start from. -/
def guard (C : σ → ι → Prop) (step : σ → ι → σ → Prop) : σ → ι → σ → Prop :=
  fun s l s' => C s l ∧ step s l s'

namespace Run

variable {step : σ → ι → σ → Prop} {s₀ s : σ} {ls : List ι}

/-- **Invariants.**  What holds at the start and is kept by every step holds
    in every state reached. -/
theorem inv {I : σ → Prop} (h₀ : I s₀) (hs : ∀ s l s', I s → step s l s' → I s')
    (h : Run step s₀ ls s) : I s := by
  induction h with
  | nil => exact h₀
  | snoc _ hl ih => exact hs _ _ _ ih hl

theorem cons {l : ι} {s₁ : σ} (hl : step s₀ l s₁) (h : Run step s₁ ls s) :
    Run step s₀ (l :: ls) s := by
  induction h with
  | nil => exact .snoc .nil hl
  | snoc _ hl' ih => exact .snoc ih hl'

theorem append {ms : List ι} {s' : σ} (h : Run step s₀ ls s) (h' : Run step s ms s') :
    Run step s₀ (ls ++ ms) s' := by
  induction h' with
  | nil => rwa [List.append_nil]
  | snoc _ hl ih =>
    rw [← List.append_assoc]
    exact .snoc ih hl

theorem mono {q : σ → ι → σ → Prop} (hs : ∀ s l s', step s l s' → q s l s')
    (h : Run step s₀ ls s) : Run q s₀ ls s := by
  induction h with
  | nil => exact .nil
  | snoc _ hl ih => exact .snoc ih (hs _ _ _ hl)

end Run

/-! ## Steps given by a function -/

/-- Every step of the fold of `f` over the labels meets `C`. -/
def Allowed (C : σ → ι → Prop) (f : σ → ι → σ) : σ → List ι → Prop
  | _, [] => True
  | s, l :: ls => C s l ∧ Allowed C f (f s l) ls

instance decidableAllowed {C : σ → ι → Prop} [∀ s l, Decidable (C s l)] (f : σ → ι → σ) :
    ∀ (s : σ) (ls : List ι), Decidable (Allowed C f s ls)
  | _, [] => .isTrue trivial
  | s, l :: ls => @instDecidableAnd (C s l) _ _ (decidableAllowed f (f s l) ls)

theorem Allowed.congr {C D : σ → ι → Prop} {f : σ → ι → σ} (h : ∀ s l, C s l ↔ D s l) :
    ∀ (s : σ) (ls : List ι), Allowed C f s ls ↔ Allowed D f s ls
  | _, [] => Iff.rfl
  | s, l :: ls => and_congr (h s l) (Allowed.congr h (f s l) ls)

/-- Two conditions that agree on the states that `I` describes, if the first of them
    keeps `I`. -/
theorem Allowed.congr_inv {I : σ → Prop} {V C D : σ → ι → Prop} {f : σ → ι → σ}
    (h : ∀ s l, I s → V s l → (C s l ↔ D s l)) (hI : ∀ s l, I s → V s l → C s l → I (f s l)) :
    ∀ {s : σ} {ls : List ι}, I s → Allowed V f s ls → (Allowed C f s ls ↔ Allowed D f s ls)
  | _, [], _, _ => Iff.rfl
  | s, l :: _, hs, hV => by
    have hhead := h s l hs hV.1
    constructor
    · rintro ⟨hC, hrest⟩
      exact ⟨hhead.1 hC, (Allowed.congr_inv h hI (hI s l hs hV.1 hC) hV.2).1 hrest⟩
    · rintro ⟨hD, hrest⟩
      have hC := hhead.2 hD
      exact ⟨hC, (Allowed.congr_inv h hI (hI s l hs hV.1 hC) hV.2).2 hrest⟩

theorem Run.of_allowed {C : σ → ι → Prop} {f : σ → ι → σ} : ∀ {ls : List ι} {s : σ},
    Allowed C f s ls → Run (guard C fun s l s' => s' = f s l) s ls (ls.foldl f s)
  | [], _, _ => .nil
  | _ :: _, _, h => .cons ⟨h.1, rfl⟩ (Run.of_allowed h.2)

/-- Steps that are not always defined. -/
theorem Run.of_allowed_getD {C : σ → ι → Prop} {f : σ → ι → Option σ} {s : σ} {ls : List ι}
    (h : Allowed (fun s l => C s l ∧ (f s l).isSome = true) (fun s l => (f s l).getD s) s ls) :
    Run (guard C fun s l s' => f s l = some s') s ls (ls.foldl (fun s l => (f s l).getD s) s) :=
  (Run.of_allowed h).mono fun s l s' ⟨⟨hC, hl⟩, he⟩ => by
    obtain ⟨s₁, hs₁⟩ := Option.isSome_iff_exists.1 hl
    have he : s' = s₁ := he.trans (by rw [hs₁, Option.getD_some])
    exact ⟨hC, he ▸ hs₁⟩

theorem Run.guard_of_allowed {C D : σ → ι → Prop} {f : σ → ι → σ} : ∀ {ls : List ι} {s : σ},
    Allowed (fun s l => C s l ∧ D s l) f s ls →
      Run (guard C (guard D fun s l s' => s' = f s l)) s ls (ls.foldl f s)
  | [], _, _ => .nil
  | _ :: _, _, h => .cons ⟨h.1.1, h.1.2, rfl⟩ (Run.guard_of_allowed h.2)

end Lib
