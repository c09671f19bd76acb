/-
  Traversals of a graph, depth first, with the marks that were set.

  * `traverse`: the nodes that are marked after those that were, the last one first;
  * `exists_traverse`: a traversal of a finite graph ends;
  * `Traversed.mem_iff`: the nodes that a traversal marks are those that can be reached.
-/
import Jbpm.Lib.Elapsed
import Jbpm.Lib.Search

namespace Lib

open Relation

variable {D : Type*} (next : D → List D)

/-- A traversal from some nodes, with the marks at its beginning. -/
def traverse [DecidableEq D] : ℕ → List D → List D → Option (List D)
  | 0, _, _ => none
  | _ + 1, [], marked => some marked
  | n + 1, d :: ds, marked =>
    if d ∈ marked then traverse n ds marked
    else (traverse n (next d) (d :: marked)).bind (traverse n ds)

/-- What the nodes `found` are that are marked by a traversal from `ds`. -/
structure Traversed (ds marked found : List D) : Prop where
  nodup : found.Nodup
  fresh : ∀ d ∈ found, d ∉ marked
  covers : ∀ d ∈ ds, d ∈ found ++ marked
  closed : ∀ d ∈ found, ∀ e ∈ next d, e ∈ found ++ marked
  reached : ∀ d ∈ found, ∃ e ∈ ds, Reaches next e d

variable {next} {ds marked found found' : List D} {d : D}

theorem Traversed.nil : Traversed next [] marked [] where
  nodup := List.nodup_nil
  fresh := nofun
  covers := nofun
  closed := nofun
  reached := nofun

theorem Traversed.skip (hd : d ∈ marked) (h : Traversed next ds marked found) :
    Traversed next (d :: ds) marked found where
  nodup := h.nodup
  fresh := h.fresh
  covers := List.forall_mem_cons.mpr ⟨List.mem_append_right _ hd, h.covers⟩
  closed := h.closed
  reached := fun e he => by
    obtain ⟨d', hd', hreach⟩ := h.reached e he
    exact ⟨d', List.mem_cons_of_mem _ hd', hreach⟩

/-- A node is marked, then what is reached from it, then from the others. -/
theorem Traversed.cons (hd : d ∉ marked) (h : Traversed next (next d) (d :: marked) found)
    (h' : Traversed next ds (found ++ d :: marked) found') :
    Traversed next (d :: ds) marked (found' ++ (found ++ [d])) where
  nodup := by
    refine List.nodup_append.mpr ⟨h'.nodup, List.nodup_append.mpr
      ⟨h.nodup, List.nodup_singleton d, ?_⟩, ?_⟩
    · rintro a ha b hb rfl
      obtain rfl := List.mem_singleton.mp hb
      exact h.fresh a ha List.mem_cons_self
    · rintro a ha b hb rfl
      refine h'.fresh a ha ?_
      simp only [List.mem_append, List.mem_cons, List.not_mem_nil, or_false] at hb ⊢
      exact hb.imp_right .inl
  fresh := fun e he hmem => by
    simp only [List.mem_append, List.mem_singleton] at he
    rcases he with he | he | rfl
    · exact h'.fresh e he (List.mem_append_right _ (List.mem_cons_of_mem _ hmem))
    · exact h.fresh e he (List.mem_cons_of_mem _ hmem)
    · exact hd hmem
  covers := by
    rw [List.append_assoc, List.append_assoc, List.singleton_append]
    refine List.forall_mem_cons.mpr ⟨?_, h'.covers⟩
    exact List.mem_append_right _ (List.mem_append_right _ List.mem_cons_self)
  closed := fun e he r hr => by
    rw [List.append_assoc, List.append_assoc, List.singleton_append]
    rcases List.mem_append.mp he with he | he
    · exact h'.closed e he r hr
    rcases List.mem_append.mp he with he | he
    · exact List.mem_append_right _ (h.closed e he r hr)
    · obtain rfl := List.mem_singleton.mp he
      exact List.mem_append_right _ (h.covers r hr)
  reached := fun e he => by
    simp only [List.mem_append, List.mem_singleton] at he
    rcases he with he | he | rfl
    · obtain ⟨d', hd', hreach⟩ := h'.reached e he
      exact ⟨d', List.mem_cons_of_mem _ hd', hreach⟩
    · obtain ⟨d', hd', hreach⟩ := h.reached e he
      exact ⟨d, List.mem_cons_self, Reaches.head hd' hreach⟩
    · exact ⟨e, List.mem_cons_self, ReflTransGen.refl⟩

theorem traverse_spec [DecidableEq D] {n : ℕ} {marked' : List D}
    (h : traverse next n ds marked = some marked') :
    ∃ found, marked' = found ++ marked ∧ Traversed next ds marked found := by
  induction n generalizing ds marked marked' with
  | zero => cases h
  | succ n ih =>
    cases ds with
    | nil =>
      obtain rfl := Option.some.inj h
      exact ⟨[], rfl, .nil⟩
    | cons d ds =>
      rw [traverse] at h
      split at h
      · next hd =>
        obtain ⟨found, rfl, hfound⟩ := ih h
        exact ⟨found, rfl, hfound.skip hd⟩
      · next hd =>
        obtain ⟨marked₁, h₁, h₂⟩ := Option.bind_eq_some_iff.mp h
        obtain ⟨found, rfl, hfound⟩ := ih h₁
        obtain ⟨found', rfl, hfound'⟩ := ih h₂
        refine ⟨found' ++ (found ++ [d]), ?_, .cons hd hfound hfound'⟩
        rw [List.append_assoc, List.append_assoc, List.singleton_append]

/-- In a finite graph, each node is marked at most once. -/
theorem exists_traverse [DecidableEq D] [Fintype D] (ds marked : List D) :
    ∃ marked', Computes (fun n => traverse next n ds marked) marked' := by
  induction hk : (Finset.univ.filter (· ∉ marked)).card using Nat.strong_induction_on
    generalizing ds marked with
  | h k ih =>
    induction ds with
    | nil => exact ⟨marked, (Computes.const marked).succ fun n => rfl⟩
    | cons d ds ihds =>
      by_cases hd : d ∈ marked
      · obtain ⟨marked', h⟩ := ihds
        exact ⟨marked', h.succ fun n => by rw [traverse, if_pos hd]⟩
      · have hless : ∀ marked' : List D, d ∈ marked' → (∀ e ∈ marked, e ∈ marked') →
            (Finset.univ.filter (· ∉ marked')).card < k := fun marked' hmem hsub => by
          rw [← hk]
          refine Finset.card_lt_card ((Finset.ssubset_iff_of_subset ?_).mpr ⟨d, ?_, ?_⟩)
          · intro e he
            rw [Finset.mem_filter] at he ⊢
            exact ⟨he.1, fun hmarked => he.2 (hsub e hmarked)⟩
          · exact Finset.mem_filter.mpr ⟨Finset.mem_univ d, hd⟩
          · exact fun he => (Finset.mem_filter.mp he).2 hmem
        obtain ⟨marked₁, h₁⟩ := ih _ (hless (d :: marked) List.mem_cons_self
          fun e he => List.mem_cons_of_mem _ he) (next d) (d :: marked) rfl
        obtain ⟨n₀, hn₀⟩ := h₁
        obtain ⟨found, rfl, -⟩ := traverse_spec (hn₀ n₀ le_rfl)
        obtain ⟨marked₂, h₂⟩ := ih _ (hless (found ++ d :: marked)
          (List.mem_append_right _ List.mem_cons_self)
          fun e he => List.mem_append_right _ (List.mem_cons_of_mem _ he)) ds _ rfl
        have hbind := Computes.bind (g := fun marked n => traverse next n ds marked) ⟨n₀, hn₀⟩ h₂
        exact ⟨marked₂, hbind.succ fun n => by rw [traverse, if_neg hd]⟩

/-- From a node that is marked at the beginning, all nodes that can be reached are found. -/
theorem Traversed.mem_iff (h : Traversed next (next d) [d] found) {e : D} :
    e ∈ found ++ [d] ↔ Reaches next d e := by
  constructor
  · intro he
    rcases List.mem_append.mp he with he | he
    · obtain ⟨d', hd', hreach⟩ := h.reached e he
      exact Reaches.head hd' hreach
    · obtain rfl := List.mem_singleton.mp he
      exact ReflTransGen.refl
  · intro hreach
    induction hreach with
    | refl => exact List.mem_append_right _ (List.mem_singleton.mpr rfl)
    | tail _ hstep ih =>
      rcases List.mem_append.mp ih with hfound | hd
      · exact h.closed _ hfound _ hstep
      · obtain rfl := List.mem_singleton.mp hd
        exact h.covers _ hstep

end Lib
