/-
  The transitions that leave a node, looked up by their names: a node's own ones,
  in the order of its list, then those of the super-states around it.

  * `hasLeavingTransition` looks at the node's own ones only;
  * `getLeavingTransition_isSome`: what a lookup by name can find;
  * `hasNoLeavingTransitions_iff`: when no transition can leave a node.
-/
import Mathlib.Logic.Function.Basic
import Jbpm.Lib.Forest

namespace Jbpm

namespace Graph

open Lib

variable {τ : Type}

/-- The map of a list of transitions by their names.  It is filled from the end,
    so that the first of a name stays. -/
def leavingTransitionsMap (name : τ → Option String) (leavingTransitions : List τ) :
    Option String → Option τ :=
  leavingTransitions.foldr (fun t m => Function.update m (name t) (some t)) fun _ => none

/-- The map has the first transition of a name. -/
theorem leavingTransitionsMap_apply (name : τ → Option String) (k : Option String) :
    ∀ ts : List τ, leavingTransitionsMap name ts k = ts.find? fun t => decide (name t = k)
  | [] => rfl
  | t :: ts => by
    have ih := leavingTransitionsMap_apply name k ts
    by_cases ht : name t = k
    · subst ht
      rw [List.find?_cons_of_pos (by simp)]
      exact Function.update_self ..
    · rw [List.find?_cons_of_neg (by simpa using ht), ← ih]
      exact Function.update_of_ne (Ne.symm ht) ..

/-- Nodes and the transitions that leave them, of a type `τ`.  A node that never
    had one has no list. -/
structure Nodes (τ : Type) where
  superStates : Forest ℕ
  leavingTransitions : ℕ → Option (List τ)
  name : τ → Option String

namespace Nodes

variable (d : Nodes τ)

/-- What the map of a node has under a name. -/
def ownTransition (n : ℕ) (transitionName : Option String) : Option τ :=
  match d.leavingTransitions n with
  | none => none
  | some ts => leavingTransitionsMap d.name ts transitionName

def hasLeavingTransition (n : ℕ) (transitionName : Option String) : Bool :=
  (d.ownTransition n transitionName).isSome

/-- The lookup goes on in the super-states. -/
def getLeavingTransition (n : ℕ) (transitionName : Option String) : Option τ :=
  (d.superStates.path n).findSome? fun m => d.ownTransition m transitionName

def hasNoLeavingTransitions (n : ℕ) : Bool :=
  (d.superStates.path n).all fun m => ((d.leavingTransitions m).getD []).isEmpty

variable {d} {n : ℕ} {k : Option String}

theorem ownTransition_eq (n : ℕ) (k : Option String) :
    d.ownTransition n k =
      ((d.leavingTransitions n).getD []).find? fun t => decide (d.name t = k) := by
  rw [ownTransition]
  rcases d.leavingTransitions n with _ | ts
  · rfl
  · exact leavingTransitionsMap_apply d.name k ts

theorem hasLeavingTransition_iff :
    d.hasLeavingTransition n k = true ↔
      ∃ t ∈ (d.leavingTransitions n).getD [], d.name t = k := by
  rw [hasLeavingTransition, ownTransition_eq, List.find?_isSome]
  simp

/-- A transition can be found by its name in the node that it leaves, and in all
    nodes within. -/
theorem getLeavingTransition_isSome :
    (d.getLeavingTransition n k).isSome = true ↔
      ∃ m, d.superStates.Within m n ∧ d.hasLeavingTransition m k = true := by
  simp only [getLeavingTransition, List.findSome?_isSome_iff, Forest.path, List.mem_cons,
    Forest.Within, hasLeavingTransition]

/-- The node's own transition of a name comes before those of its super-states. -/
theorem getLeavingTransition_of_own {t : τ} (h : d.ownTransition n k = some t) :
    d.getLeavingTransition n k = some t := by
  rw [getLeavingTransition, Forest.path, List.findSome?_cons, h]

theorem hasNoLeavingTransitions_iff :
    d.hasNoLeavingTransitions n = true ↔
      ∀ m, d.superStates.Within m n → (d.leavingTransitions m).getD [] = [] := by
  simp only [hasNoLeavingTransitions, List.all_eq_true, Forest.path, List.mem_cons, Forest.Within,
    List.isEmpty_iff]

/-- A node offers no transition of any name just if none can leave it. -/
theorem hasNoLeavingTransitions_iff_get :
    d.hasNoLeavingTransitions n = true ↔ ∀ k, d.getLeavingTransition n k = none := by
  rw [hasNoLeavingTransitions_iff]
  constructor
  · intro h k
    rw [← Option.not_isSome_iff_eq_none, getLeavingTransition_isSome]
    rintro ⟨m, hm, hk⟩
    obtain ⟨t, ht, -⟩ := hasLeavingTransition_iff.1 hk
    rw [h m hm] at ht
    exact List.not_mem_nil ht
  · intro h m hm
    refine List.eq_nil_iff_forall_not_mem.2 fun t ht => ?_
    have hhas : d.hasLeavingTransition m (d.name t) = true :=
      hasLeavingTransition_iff.2 ⟨t, ht, rfl⟩
    have hget := getLeavingTransition_isSome.2 ⟨m, hm, hhas⟩
    rw [h] at hget
    exact Bool.noConfusion hget

end Nodes

/-- The node 1 in the super-state 0. -/
def oneNested : Forest ℕ where
  parent n := if n = 1 then some 0 else none
  depth := id
  depth_parent := by
    intro a p h
    split at h
    · next ha => exact ha ▸ Option.some.inj h ▸ Nat.zero_lt_one
    · cases h

end Graph

end Jbpm
