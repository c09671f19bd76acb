/-
  Trees with labels on their branches, addressed by the indices of the children that lead from
  the root to a branch.

  * `at?`: the branch at an address, and `labels` from there outwards;
  * `modify`: a branch changed at its address;
  * `at?_modify_inside`, `at?_modify_apart`, `at?_modify_around`: what is then found inside the
    changed branch, apart from it, and around it.
-/
import Mathlib.Data.List.Basic
import Mathlib.Order.Nat

namespace Lib

variable {α β : Type*}

inductive Tree (α β : Type*)
  | branch (label : α) (children : List (Tree α β))
  | leaf (b : β)

/-- A tree that is not a leaf. -/
structure Branch (α β : Type*) where
  label : α
  children : List (Tree α β)

namespace Tree

mutual

/-- The leaves from left to right. -/
def leaves : Tree α β → List β
  | branch _ children => leavesAll children
  | leaf b => [b]

def leavesAll : List (Tree α β) → List β
  | [] => []
  | t :: ts => leaves t ++ leavesAll ts

end

def toBranch? : Tree α β → Option (Branch α β)
  | branch label children => some ⟨label, children⟩
  | leaf _ => none

def mapBranch (f : Branch α β → Branch α β) : Tree α β → Tree α β
  | branch label children => branch (f ⟨label, children⟩).label (f ⟨label, children⟩).children
  | leaf b => leaf b

@[simp] theorem toBranch?_mapBranch (f : Branch α β → Branch α β) (t : Tree α β) :
    (t.mapBranch f).toBranch? = t.toBranch?.map f := by
  cases t <;> rfl

end Tree

namespace Branch

def toTree (b : Branch α β) : Tree α β := .branch b.label b.children

def leaves (b : Branch α β) : List β := Tree.leavesAll b.children

@[simp] theorem toBranch?_toTree (b : Branch α β) : b.toTree.toBranch? = some b := rfl

/-- The child at an index, if it is a branch. -/
def child? (b : Branch α β) (i : ℕ) : Option (Branch α β) := b.children[i]?.bind Tree.toBranch?

/-- The branch at an address. -/
def at? : List ℕ → Branch α β → Option (Branch α β)
  | [], b => some b
  | i :: p, b => (b.child? i).bind (at? p)

/-- The labels from an address outwards. -/
def labels : List ℕ → Branch α β → List α
  | [], b => [b.label]
  | i :: p, b => ((b.child? i).map (labels p)).getD [] ++ [b.label]

/-- The branch at an address changed by `f`. -/
def modify (f : Branch α β → Branch α β) : List ℕ → Branch α β → Branch α β
  | [], b => f b
  | i :: p, b => { b with children := b.children.modify i (Tree.mapBranch (modify f p)) }

variable {f : Branch α β → Branch α β} {p q : List ℕ} {b c : Branch α β}

@[simp] theorem at?_nil (b : Branch α β) : at? [] b = some b := rfl

@[simp] theorem modify_nil (f : Branch α β → Branch α β) (b : Branch α β) :
    modify f [] b = f b := rfl

theorem at?_append (p q : List ℕ) (b : Branch α β) :
    at? (p ++ q) b = (at? p b).bind (at? q) := by
  induction p generalizing b with
  | nil => rfl
  | cons i p ih =>
    rw [List.cons_append, at?, at?]
    cases b.child? i with
    | none => rfl
    | some c => exact ih c

theorem modify_append (f : Branch α β → Branch α β) (p q : List ℕ) (b : Branch α β) :
    modify f (p ++ q) b = modify (modify f q) p b := by
  induction p generalizing b with
  | nil => rfl
  | cons i p ih =>
    rw [List.cons_append, modify, modify, funext ih]

@[simp] theorem label_modify_cons (f : Branch α β → Branch α β) (i : ℕ) (p : List ℕ)
    (b : Branch α β) : (modify f (i :: p) b).label = b.label := rfl

@[simp] theorem length_children_modify_cons (f : Branch α β → Branch α β) (i : ℕ) (p : List ℕ)
    (b : Branch α β) : (modify f (i :: p) b).children.length = b.children.length :=
  List.length_modify ..

theorem child?_modify_cons (f : Branch α β → Branch α β) (i j : ℕ) (p : List ℕ)
    (b : Branch α β) :
    (modify f (i :: p) b).child? j =
      if j = i then (b.child? j).map (modify f p) else b.child? j := by
  rw [child?, child?, modify]
  split
  case isTrue h =>
    subst h
    rw [List.getElem?_modify_eq]
    cases b.children[j]? with
    | none => rfl
    | some t => exact Tree.toBranch?_mapBranch _ t
  case isFalse h => rw [List.getElem?_modify_ne _ _ (Ne.symm h)]

theorem modify_id (p : List ℕ) (b : Branch α β) : modify (fun c => c) p b = b := by
  induction p generalizing b with
  | nil => rfl
  | cons i p ih =>
    have hmap : Tree.mapBranch (modify (fun c : Branch α β => c) p) = id := by
      funext t
      cases t with
      | branch label children =>
        rw [Tree.mapBranch, ih]
        rfl
      | leaf => rfl
    rw [modify, hmap, List.modify_id]

theorem modify_modify (f g : Branch α β → Branch α β) (p : List ℕ) (b : Branch α β) :
    modify f p (modify g p b) = modify (f ∘ g) p b := by
  induction p generalizing b with
  | nil => rfl
  | cons i p ih =>
    have hmap : Tree.mapBranch (modify f p) ∘ Tree.mapBranch (modify g p) =
        Tree.mapBranch (modify (f ∘ g) p) := by
      funext t
      cases t with
      | branch label children =>
        change Tree.mapBranch (modify f p) (modify g p ⟨label, children⟩).toTree = _
        rw [Tree.mapBranch, ← ih]
        rfl
      | leaf => rfl
    rw [modify, modify, modify, List.modify_modify_eq, hmap]

/-- Only what becomes of the branch at the address counts. -/
theorem modify_congr {f g : Branch α β → Branch α β} (hc : at? p b = some c) (h : f c = g c) :
    modify f p b = modify g p b := by
  induction p generalizing b with
  | nil =>
    obtain rfl := Option.some.inj hc
    exact h
  | cons i p ih =>
    rw [modify, modify]
    congr 1
    refine List.ext_getElem? fun j => ?_
    by_cases hj : i = j
    · subst hj
      rw [List.getElem?_modify_eq, List.getElem?_modify_eq]
      rw [at?, child?] at hc
      obtain ⟨d, hd, hdc⟩ := Option.bind_eq_some_iff.1 hc
      obtain ⟨t, ht, htd⟩ := Option.bind_eq_some_iff.1 hd
      rw [ht]
      cases t with
      | leaf => cases htd
      | branch label children =>
        cases htd
        exact congrArg some (congrArg toTree (ih hdc))
    · rw [List.getElem?_modify_ne _ _ hj, List.getElem?_modify_ne _ _ hj]

/-- Trees that differ at an address at most. -/
theorem eq_modify_of_modify_eq {a : Branch α β} (d : Branch α β)
    (h : modify (fun _ => d) p a = modify (fun _ => d) p b) (hc : at? p a = some c) :
    a = modify (fun _ => c) p b := by
  have ha := congrArg (modify (fun _ => c) p) h
  rw [modify_modify, modify_modify] at ha
  refine ((modify_id p a).symm.trans (modify_congr hc ?_)).trans ha
  rfl

/-- There is nothing to change at an address without branch. -/
theorem modify_of_none (f : Branch α β → Branch α β) (h : at? p b = none) : modify f p b = b := by
  induction p generalizing b with
  | nil => cases h
  | cons i p ih =>
    have hchildren : b.children.modify i (Tree.mapBranch (modify f p)) = b.children := by
      refine List.ext_getElem? fun j => ?_
      by_cases hj : i = j
      · subst hj
        rw [List.getElem?_modify_eq]
        rw [at?, child?] at h
        cases ht : b.children[i]? with
        | none => rfl
        | some t =>
          cases t with
          | leaf => rfl
          | branch label children =>
            rw [ht] at h
            exact congrArg some (congrArg toTree (ih h))
      · rw [List.getElem?_modify_ne _ _ hj]
    rw [modify, hchildren]

/-- The last child changed. -/
theorem modify_last (f : Branch α β → Branch α β) (label : α) (children : List (Tree α β))
    (c : Branch α β) :
    modify f [children.length] ⟨label, children ++ [c.toTree]⟩ =
      ⟨label, children ++ [(f c).toTree]⟩ := by
  have h : ∀ l : List (Tree α β), (l ++ [c.toTree]).modify l.length (Tree.mapBranch (modify f [])) =
      l ++ [(f c).toTree] := by
    intro l
    induction l with
    | nil => rfl
    | cons t l ih => exact congrArg (t :: ·) ih
  exact congrArg (Branch.mk label) (h children)

/-- At an address inside the changed branch. -/
theorem at?_modify_inside (f : Branch α β → Branch α β) (p q : List ℕ) (b : Branch α β) :
    at? (p ++ q) (modify f p b) = (at? p b).bind fun c => at? q (f c) := by
  induction p generalizing b with
  | nil => rfl
  | cons i p ih =>
    rw [List.cons_append, at?, at?, child?_modify_cons, if_pos rfl]
    cases b.child? i with
    | none => rfl
    | some c => exact ih c

@[simp] theorem at?_modify_self (f : Branch α β → Branch α β) (p : List ℕ) (b : Branch α β) :
    at? p (modify f p b) = (at? p b).map f := by
  have h := at?_modify_inside f p [] b
  rw [List.append_nil] at h
  rw [h]
  cases at? p b <;> rfl

/-- At an address around the changed branch. -/
theorem at?_modify_around (f : Branch α β → Branch α β) (p q : List ℕ) (b : Branch α β) :
    at? p (modify f (p ++ q) b) = (at? p b).map (modify f q) := by
  rw [modify_append, at?_modify_self]

/-- Neither of two addresses leads through the other. -/
def Apart (p q : List ℕ) : Prop := ¬ p <+: q ∧ ¬ q <+: p

theorem Apart.cons {i : ℕ} (h : Apart (i :: p) (i :: q)) : Apart p q :=
  ⟨fun hp => h.1 (List.cons_prefix_cons.2 ⟨rfl, hp⟩),
    fun hq => h.2 (List.cons_prefix_cons.2 ⟨rfl, hq⟩)⟩

theorem Apart.symm (h : Apart p q) : Apart q p := ⟨h.2, h.1⟩

theorem Apart.append (h : Apart p q) (r : List ℕ) : Apart (p ++ r) q := by
  refine ⟨fun hp => h.1 ((List.prefix_append p r).trans hp), fun hq => ?_⟩
  exact (List.prefix_or_prefix_of_prefix hq (List.prefix_append p r)).elim h.2 h.1

theorem at?_modify_apart (f : Branch α β → Branch α β) (h : Apart p q) (b : Branch α β) :
    at? q (modify f p b) = at? q b := by
  induction p generalizing q b with
  | nil => exact absurd List.nil_prefix h.1
  | cons i p ih =>
    cases q with
    | nil => exact absurd List.nil_prefix h.2
    | cons j q =>
      rw [at?, at?, child?_modify_cons]
      split
      case isTrue hj =>
        subst hj
        cases b.child? j with
        | none => rfl
        | some c => exact ih h.cons c
      case isFalse => rfl

/-- Outwards from a branch: its own label first. -/
theorem labels_eq_cons (h : at? p b = some c) : labels p b = c.label :: (labels p b).tail := by
  induction p generalizing b with
  | nil =>
    obtain rfl := Option.some.inj h
    rfl
  | cons i p ih =>
    rw [at?] at h
    obtain ⟨d, hd, hc⟩ := Option.bind_eq_some_iff.1 h
    rw [labels, hd, Option.map_some, Option.getD_some, ih hc]
    rfl

theorem labels_append_singleton {i : ℕ} {d : Branch α β} (hc : at? p b = some c)
    (hd : c.child? i = some d) : labels (p ++ [i]) b = d.label :: labels p b := by
  induction p generalizing b with
  | nil =>
    obtain rfl := Option.some.inj hc
    change ((b.child? i).map (labels [])).getD [] ++ [b.label] = _
    rw [hd]
    rfl
  | cons j p ih =>
    rw [at?] at hc
    obtain ⟨e, he, hec⟩ := Option.bind_eq_some_iff.1 hc
    rw [List.cons_append, labels, labels, he]
    simp only [Option.map_some, Option.getD_some]
    rw [ih hec]
    rfl

/-- A change at an address leaves the labels further out. -/
theorem labels_modify_self (f : Branch α β → Branch α β) (h : at? p b = some c) :
    labels p (modify f p b) = (f c).label :: (labels p b).tail := by
  induction p generalizing b with
  | nil =>
    obtain rfl := Option.some.inj h
    rfl
  | cons i p ih =>
    rw [at?] at h
    obtain ⟨d, hd, hc⟩ := Option.bind_eq_some_iff.1 h
    rw [labels, labels, child?_modify_cons, if_pos rfl, hd, label_modify_cons]
    simp only [Option.map_some, Option.getD_some]
    rw [ih hc, labels_eq_cons hc]
    rfl

theorem tail_labels_modify (f : Branch α β → Branch α β) (p : List ℕ) (b : Branch α β) :
    (labels p (modify f p b)).tail = (labels p b).tail := by
  cases h : at? p b with
  | none => rw [modify_of_none f h]
  | some c => rw [labels_modify_self f h, List.tail_cons]

theorem labels_modify_apart (f : Branch α β → Branch α β) (h : Apart p q) (b : Branch α β) :
    labels q (modify f p b) = labels q b := by
  induction p generalizing q b with
  | nil => exact absurd List.nil_prefix h.1
  | cons i p ih =>
    cases q with
    | nil => exact absurd List.nil_prefix h.2
    | cons j q =>
      rw [labels, labels, child?_modify_cons, label_modify_cons]
      split
      case isTrue hj =>
        subst hj
        cases b.child? j with
        | none => rfl
        | some c =>
          simp only [Option.map_some, Option.getD_some]
          rw [ih h.cons c]
      case isFalse => rfl

end Branch

end Lib
