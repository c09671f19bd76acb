/-
  Owners with members that refer back to them.  Each member knows its owners, and
  each owner its members; who changes the one side has to change the other.
-/
import Mathlib.Data.Set.Function

namespace Lib

variable {O A : Type*}

/-- The members of an owner are the ones that refer to it. -/
def BackReferenced (members : O → Set A) (refers : A → O → Prop) : Prop :=
  ∀ o a, a ∈ members o ↔ refers a o

namespace BackReferenced

variable {members : O → Set A} {refers refers' : A → O → Prop} {o : O} {S N : Set A}

/-- An owner is given the members `S`, and `N` learn of it while nobody forgets it:
    both sides agree just if `S` are the members it had and `N`. -/
theorem update_iff [DecidableEq O] (h : BackReferenced members refers)
    (hr : ∀ a o', refers' a o' ↔ refers a o' ∨ o' = o ∧ a ∈ N) :
    BackReferenced (Function.update members o S) refers' ↔ members o ∪ N = S := by
  constructor
  · intro h'
    ext a
    have ha := h' o a
    rw [Function.update_self, hr, ← h o a] at ha
    rw [ha, Set.mem_union]
    simp
  · intro hS o' a
    rw [hr, ← h o' a]
    by_cases ho : o' = o
    · subst ho
      rw [Function.update_self, ← hS, Set.mem_union]
      simp
    · rw [Function.update_of_ne ho]
      simp [ho]

/-- Nothing that `members` and `refers` read has changed. -/
theorem congr {members' : O → Set A} (hm : ∀ o, members' o = members o)
    (hr : ∀ a o, refers' a o ↔ refers a o) :
    BackReferenced members' refers' ↔ BackReferenced members refers := by
  refine forall_congr' fun o => forall_congr' fun a => ?_
  rw [hm, hr]

end BackReferenced

end Lib
