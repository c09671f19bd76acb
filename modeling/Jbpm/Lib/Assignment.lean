/-
  Assignments to a store, one after the other until one of them fails.

  * `perform`: the assignments of a list, up to the first failure;
  * `perform_eq_ok_iff`, `perform_of_mem`, `perform_of_ne`: when none fails, and what the
    store is then;
  * `Block`, `performBlocks_eq`: lists that are planned one after the other.
-/
import Mathlib.Data.List.Basic
import Mathlib.Logic.Function.Basic

namespace Lib

namespace Assignment

variable {κ ε : Type} [DecidableEq κ] {β : κ → Type}

def perform : List (Except ε (Σ k, β k)) → (∀ k, β k) → Except ε Unit × (∀ k, β k)
  | [], s => (.ok (), s)
  | .error e :: _, s => (.error e, s)
  | .ok a :: es, s => perform es (Function.update s a.1 a.2)

variable {es : List (Except ε (Σ k, β k))} {s : ∀ k, β k} {k : κ}

theorem perform_append (es fs : List (Except ε (Σ k, β k))) (s : ∀ k, β k) :
    perform (es ++ fs) s = match perform es s with
      | (.ok (), s') => perform fs s'
      | (.error e, s') => (.error e, s') := by
  induction es generalizing s with
  | nil => rfl
  | cons x es ih =>
    cases x with
    | error e => rfl
    | ok a => exact ih (Function.update s a.1 a.2)

theorem perform_eq_ok_iff : (perform es s).1 = .ok () ↔ ∀ x ∈ es, ∃ a, x = .ok a := by
  induction es generalizing s with
  | nil => exact iff_of_true rfl fun x hx => absurd hx List.not_mem_nil
  | cons x es ih =>
    rw [List.forall_mem_cons]
    cases x with
    | error e =>
      refine iff_of_false (fun h => ?_) fun h => ?_
      · cases h
      · obtain ⟨a, ha⟩ := h.1
        cases ha
    | ok a =>
      rw [perform, ih]
      exact (and_iff_right ⟨a, rfl⟩).symm

/-- **Frame.**  What is not assigned stays. -/
theorem perform_of_ne (h : ∀ a, .ok a ∈ es → a.1 ≠ k) : (perform es s).2 k = s k := by
  induction es generalizing s with
  | nil => rfl
  | cons x es ih =>
    cases x with
    | error e => rfl
    | ok a =>
      rw [perform, ih fun b hb => h b (List.mem_cons_of_mem _ hb)]
      exact Function.update_of_ne (h a List.mem_cons_self).symm _ _

/-- No key is assigned twice. -/
def Separate (es : List (Except ε (Σ k, β k))) : Prop :=
  es.Pairwise fun x y => ∀ a b, x = .ok a → y = .ok b → a.1 ≠ b.1

theorem perform_of_mem (hes : Separate es) (h : ∀ x ∈ es, ∃ a, x = .ok a) {v : β k}
    (hmem : .ok ⟨k, v⟩ ∈ es) : (perform es s).2 k = v := by
  induction es generalizing s with
  | nil => exact absurd hmem List.not_mem_nil
  | cons x es ih =>
    obtain ⟨hx, hrest⟩ := List.pairwise_cons.1 hes
    obtain ⟨⟨a, rfl⟩, hoks⟩ := List.forall_mem_cons.1 h
    rw [perform]
    rcases List.mem_cons.1 hmem with heq | hmem
    · obtain rfl := Except.ok.inj heq
      rw [perform_of_ne fun b hb => (hx _ hb _ b rfl rfl).symm]
      exact Function.update_self _ _ _
    · exact ih hrest hoks hmem

/-! ## Blocks -/

/-- Assignments to some keys, planned from what is there. -/
structure Block (ε : Type) {κ : Type} (β : κ → Type) where
  plan : (∀ k, β k) → List (Except ε (Σ k, β k))
  keys : κ → Prop
  congr : ∀ {f g}, (∀ k, keys k → f k = g k) → plan f = plan g
  within : ∀ {f a}, .ok a ∈ plan f → keys a.1

/-- Each block is planned when the ones before it are done. -/
def performBlocks : List (Block ε β) → (∀ k, β k) → Except ε Unit × (∀ k, β k)
  | [], s => (.ok (), s)
  | b :: bs, s =>
    match perform (b.plan s) s with
    | (.ok (), s') => performBlocks bs s'
    | (.error e, s') => (.error e, s')

/-- Blocks for different keys can be planned in advance. -/
theorem performBlocks_eq {bs : List (Block ε β)}
    (h : bs.Pairwise fun b b' => ∀ k, b.keys k → ¬ b'.keys k) {f : ∀ k, β k}
    (hf : ∀ b ∈ bs, ∀ k, b.keys k → s k = f k) :
    performBlocks bs s = perform (bs.flatMap fun b => b.plan f) s := by
  induction bs generalizing s with
  | nil => rfl
  | cons b bs ih =>
    obtain ⟨hb, hbs⟩ := List.pairwise_cons.1 h
    obtain ⟨hfb, hfbs⟩ := List.forall_mem_cons.1 hf
    rw [performBlocks, List.flatMap_cons, perform_append, b.congr hfb]
    rcases hperform : perform (b.plan f) s with ⟨e | u, s'⟩
    · rfl
    · refine ih hbs fun b' hb' k hk => ?_
      have hget : (perform (b.plan f) s).2 k = s k :=
        perform_of_ne fun a ha hak => hb b' hb' k (hak ▸ b.within ha) hk
      rw [hperform] at hget
      exact hget.trans (hfbs b' hb' k hk)

omit [DecidableEq κ] in
/-- Blocks for different keys assign no key twice, if none of them does. -/
theorem separate_flatMap {bs : List (Block ε β)}
    (h : bs.Pairwise fun b b' => ∀ k, b.keys k → ¬ b'.keys k) {f : ∀ k, β k}
    (hf : ∀ b ∈ bs, Separate (b.plan f)) : Separate (bs.flatMap fun b => b.plan f) := by
  induction bs with
  | nil => exact List.Pairwise.nil
  | cons b bs ih =>
    obtain ⟨hb, hbs⟩ := List.pairwise_cons.1 h
    obtain ⟨hfb, hfbs⟩ := List.forall_mem_cons.1 hf
    refine List.pairwise_append.2 ⟨hfb, ih hbs hfbs, ?_⟩
    rintro x hx y hy a a' rfl rfl heq
    obtain ⟨b', hb', hy⟩ := List.mem_flatMap.1 hy
    exact hb b' hb' a.1 (b.within hx) (heq ▸ b'.within hy)

end Assignment

end Lib
