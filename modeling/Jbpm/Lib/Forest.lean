/-
  Forests given by a parent function: the chain of ancestors of a node, from the
  inside out.

  * `ancestors_of_parent`, `induction`: the two ways to go up;
  * `Within s a`: `s` is `a` or one of its ancestors; `within_total`: what is
    within reach of one node is comparable;
  * `path_split`: two paths, up to where they meet;
  * `takeWhile_ancestors`: walking up until a test fails is filtering, if the
    test fails for good.
-/
import Mathlib.Data.List.Nodup
import Mathlib.Order.Nat

namespace Lib

/-- Parents are less deep than their children. -/
structure Forest (α : Type*) where
  parent : α → Option α
  depth : α → ℕ
  depth_parent : ∀ {a p}, parent a = some p → depth p < depth a

namespace Forest

variable {α : Type*} (F : Forest α)

def ancestorsFrom : ℕ → α → List α
  | 0, _ => []
  | n + 1, a =>
    match F.parent a with
    | none => []
    | some p => p :: ancestorsFrom n p

/-- The ancestors of a node, the nearest first. -/
def ancestors (a : α) : List α := F.ancestorsFrom (F.depth a) a

/-- A node and its ancestors, up to the root. -/
def path (a : α) : List α := a :: F.ancestors a

def root (a : α) : α := (F.path a).getLast (List.cons_ne_nil _ _)

/-- `s` is `a`, or contains it. -/
def Within (s a : α) : Prop := s = a ∨ s ∈ F.ancestors a

instance [DecidableEq α] (s a : α) : Decidable (F.Within s a) :=
  inferInstanceAs (Decidable (_ ∨ _))

variable {F} {a b p s t : α}

theorem ancestorsFrom_eq {n : ℕ} (h : F.depth a ≤ n) : F.ancestorsFrom n a = F.ancestors a := by
  suffices ∀ (n m : ℕ) (a : α), F.depth a ≤ n → F.depth a ≤ m →
      F.ancestorsFrom n a = F.ancestorsFrom m a from this _ _ _ h le_rfl
  intro n
  induction n with
  | zero =>
    intro m a hn _
    have hroot : F.parent a = none := by
      rcases hp : F.parent a with _ | p
      · rfl
      · have := F.depth_parent hp
        omega
    cases m with
    | zero => rfl
    | succ m => simp [ancestorsFrom, hroot]
  | succ n ih =>
    intro m a hn hm
    rcases hp : F.parent a with _ | p
    · cases m <;> simp [ancestorsFrom, hp]
    · have hlt := F.depth_parent hp
      obtain ⟨m, rfl⟩ : ∃ k, m = k + 1 := ⟨m - 1, by omega⟩
      simp only [ancestorsFrom, hp]
      rw [ih m p (by omega) (by omega)]

theorem ancestors_of_parent (h : F.parent a = some p) : F.ancestors a = p :: F.ancestors p := by
  have hlt := F.depth_parent h
  rw [← ancestorsFrom_eq (F := F) (a := a) (n := F.depth a + 1) (by omega), ancestorsFrom, h]
  exact congrArg (p :: ·) (ancestorsFrom_eq (by omega))

theorem ancestors_of_root (h : F.parent a = none) : F.ancestors a = [] := by
  rw [← ancestorsFrom_eq (F := F) (a := a) (n := F.depth a + 1) (by omega), ancestorsFrom, h]

/-- From the roots down. -/
theorem induction {P : α → Prop} (root : ∀ a, F.parent a = none → P a)
    (child : ∀ a p, F.parent a = some p → P p → P a) (a : α) : P a := by
  induction hd : F.depth a using Nat.strongRecOn generalizing a with
  | _ n ih =>
    rcases hp : F.parent a with _ | p
    · exact root a hp
    · exact child a p hp (ih _ (hd ▸ F.depth_parent hp) p rfl)

theorem mem_ancestors_of_parent (h : F.parent a = some p) :
    s ∈ F.ancestors a ↔ F.Within s p := by
  rw [ancestors_of_parent h, List.mem_cons, Within]

theorem depth_lt_of_mem : s ∈ F.ancestors a → F.depth s < F.depth a := by
  induction a using F.induction with
  | root a h =>
    rw [ancestors_of_root h]
    exact fun h => (List.not_mem_nil h).elim
  | child a p h ih =>
    intro hs
    have hlt := F.depth_parent h
    rcases (mem_ancestors_of_parent h).1 hs with rfl | hs
    · exact hlt
    · exact (ih hs).trans hlt

theorem notMem_ancestors_self : a ∉ F.ancestors a := fun h => (depth_lt_of_mem h).false

theorem mem_ancestors_trans (hs : s ∈ F.ancestors t) : t ∈ F.ancestors a → s ∈ F.ancestors a := by
  induction a using F.induction with
  | root a h =>
    rw [ancestors_of_root h]
    exact fun h => (List.not_mem_nil h).elim
  | child a p h ih =>
    intro ht
    refine (mem_ancestors_of_parent h).2 (.inr ?_)
    rcases (mem_ancestors_of_parent h).1 ht with rfl | ht
    · exact hs
    · exact ih ht

theorem Within.trans (hs : F.Within s t) (ht : F.Within t a) : F.Within s a := by
  rcases hs with rfl | hs
  · exact ht
  · rcases ht with rfl | ht
    · exact .inr hs
    · exact .inr (mem_ancestors_trans hs ht)

/-- Two nodes that contain a third one contain each other, one way or the other. -/
theorem within_total : F.Within s a → F.Within t a → F.Within s t ∨ F.Within t s := by
  induction a using F.induction with
  | root a h =>
    rintro (rfl | hs) (rfl | ht)
    · exact .inl (.inl rfl)
    · rw [ancestors_of_root h] at ht
      cases ht
    · rw [ancestors_of_root h] at hs
      cases hs
    · rw [ancestors_of_root h] at hs
      cases hs
  | child a p h ih =>
    rintro (rfl | hs) (rfl | ht)
    · exact .inl (.inl rfl)
    · exact .inr (.inr ht)
    · exact .inl (.inr hs)
    · exact ih ((mem_ancestors_of_parent h).1 hs) ((mem_ancestors_of_parent h).1 ht)

/-- The path of a node on the path of another is the rest of it. -/
theorem path_of_suffix {l r : List α} (h : F.path a = l ++ s :: r) : F.path s = s :: r := by
  induction l generalizing a with
  | nil =>
    obtain ⟨rfl, hr⟩ := List.cons.inj h
    rw [path, hr]
  | cons x l ih =>
    have hl := (List.cons.inj h).2
    rcases hp : F.parent a with _ | p
    · rw [ancestors_of_root hp] at hl
      simp at hl
    · rw [ancestors_of_parent hp] at hl
      exact ih hl

theorem nodup_ancestors : (F.ancestors a).Nodup := by
  induction a using F.induction with
  | root a h =>
    rw [ancestors_of_root h]
    exact List.nodup_nil
  | child a p h ih =>
    rw [ancestors_of_parent h]
    exact List.nodup_cons.2 ⟨notMem_ancestors_self, ih⟩

theorem nodup_path : (F.path a).Nodup :=
  List.nodup_cons.2 ⟨notMem_ancestors_self, nodup_ancestors⟩

theorem notMem_path_of_append {l : List α} (h : F.path b = l ++ F.path a) :
    ∀ x ∈ l, x ∉ F.path a := by
  have hnodup := nodup_path (F := F) (a := b)
  rw [h, List.nodup_append] at hnodup
  exact fun x hx hxa => hnodup.2.2 x hx x hxa rfl

/-- Two paths part where they do for good. -/
theorem path_split (a b : α) : ∃ l r s, F.path a = l ++ s ∧ F.path b = r ++ s ∧
    (∀ x ∈ l, x ∉ F.path b) ∧ ∀ x ∈ r, x ∉ F.path a := by
  induction a using F.induction with
  | root a h =>
    by_cases ha : a ∈ F.path b
    · obtain ⟨r, s, hb⟩ := List.append_of_mem ha
      exact ⟨[], r, F.path a, rfl, by rw [hb, path_of_suffix hb],
        fun _ hx => (List.not_mem_nil hx).elim,
        notMem_path_of_append (by rw [hb, path_of_suffix hb])⟩
    · have hroot : F.path a = [a] := by rw [path, ancestors_of_root h]
      rw [hroot]
      refine ⟨[a], F.path b, [], rfl, (List.append_nil _).symm, ?_, fun x hx hxa => ha ?_⟩
      · rintro x hx
        rwa [List.mem_singleton.1 hx]
      · rwa [← List.mem_singleton.1 hxa]
  | child a p h ih =>
    by_cases ha : a ∈ F.path b
    · obtain ⟨r, s, hb⟩ := List.append_of_mem ha
      exact ⟨[], r, F.path a, rfl, by rw [hb, path_of_suffix hb],
        fun _ hx => (List.not_mem_nil hx).elim,
        notMem_path_of_append (by rw [hb, path_of_suffix hb])⟩
    · obtain ⟨l, r, s, hp, hb, hl, hr⟩ := ih
      have hpath : F.path a = a :: F.path p := by rw [path, ancestors_of_parent h, path]
      rw [hpath, hp]
      refine ⟨a :: l, r, s, rfl, hb, ?_, fun x hx hxa => ?_⟩
      · rintro x (_ | ⟨_, hx⟩)
        · exact ha
        · exact hl x hx
      · rcases List.mem_cons.1 hxa with rfl | hxa
        · exact ha (hb ▸ List.mem_append_left s hx)
        · exact hr x hx (hp ▸ hxa)

theorem path_eq_dropLast_root : F.path a = (F.path a).dropLast ++ [F.root a] :=
  (List.dropLast_append_getLast _).symm

theorem root_notMem_dropLast : F.root a ∉ (F.path a).dropLast := by
  have h := nodup_path (F := F) (a := a)
  rw [path_eq_dropLast_root, List.nodup_append] at h
  exact fun hm => h.2.2 _ hm _ (List.mem_singleton_self _) rfl

/-- A test that fails at a node fails at all ancestors of the node. -/
theorem takeWhile_ancestors {q : α → Bool}
    (hq : ∀ s t, s ∈ F.ancestors t → q s = true → q t = true) :
    (F.ancestors a).takeWhile q = (F.ancestors a).filter q := by
  induction a using F.induction with
  | root a h => simp [ancestors_of_root h]
  | child a p h ih =>
    rw [ancestors_of_parent h]
    by_cases hp : q p = true
    · rw [List.takeWhile_cons_of_pos hp, List.filter_cons_of_pos hp, ih]
    · rw [List.takeWhile_cons_of_neg hp, List.filter_cons_of_neg hp, eq_comm,
        List.filter_eq_nil_iff]
      exact fun s hs hqs => hp (hq s p hs hqs)

end Forest

end Lib
