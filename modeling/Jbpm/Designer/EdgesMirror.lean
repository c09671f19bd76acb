/-
  What the edges of a diagram have in common with the transitions that they stand for.

  * `Edges`: the edges mirror the transitions of the nodes that are shown;
  * `Edges.add`, `Edges.remove`: an edge comes and goes with its transition;
  * `Edges.attach`, `Edges.detach`, `Edges.dangle`: the end of an edge;
  * `Edges.addAll`, `Edges.attachAll`: several edges, one after the other;
  * `Edges.reveal`, `Edges.hide`: the nodes.
-/
import Mathlib.Data.List.Nodup
import Mathlib.Logic.Function.Basic
import Mathlib.Tactic.ByContra
import Jbpm.Designer.Diagram

namespace Jbpm

open Java

namespace Designer

variable {N T : Type}

/-! ## The ends of an edge -/

section Ends

variable [DecidableEq N] [DecidableEq T] (s : Diagram N T) (d : Option N) (t : T)

theorem arriveAt_eq : s.arriveAt d t = { s with
    arrivingEdges := fun m => if d = some m then s.arrivingEdges m ++ [t] else s.arrivingEdges m
    target := if d = none then s.target else Function.update s.target t d } := by
  rcases d with _ | n
  · simp [Diagram.arriveAt]
  · rw [Diagram.arriveAt, Diagram.addArrivingEdge]
    congr 1
    funext m
    by_cases hm : m = n
    · subst hm
      simp
    · simp [hm, Ne.symm hm]

theorem departFrom_eq : s.departFrom d t = { s with
    arrivingEdges := fun m =>
      if d = some m then (s.arrivingEdges m).erase t else s.arrivingEdges m
    target := if d = none then s.target else Function.update s.target t none } := by
  rcases d with _ | n
  · simp [Diagram.departFrom]
  · rw [Diagram.departFrom, Diagram.removeArrivingEdge]
    congr 1
    funext m
    by_cases hm : m = n
    · subst hm
      simp
    · simp [hm, Ne.symm hm]

end Ends

/-- The edges are those of the transitions of the nodes that are `shown`.  They end in the
    destinations `dst`; an edge that dangles has none. -/
structure Edges (shown : N → Prop) (transitions : N → List T) (dst : N → T → Option N)
    (s : Diagram N T) : Prop where
  leaving : ∀ n, shown n → s.leavingEdges n = transitions n
  source : ∀ n, shown n → ∀ t ∈ transitions n, s.source t = some n ∧ s.edgeListeners t = 1
  target : ∀ n, shown n → ∀ t ∈ transitions n, s.target t = dst n t
  arriving_nodup : ∀ m, shown m → (s.arrivingEdges m).Nodup
  mem_arriving : ∀ m, shown m → ∀ t, t ∈ s.arrivingEdges m ↔
    ∃ n, shown n ∧ t ∈ transitions n ∧ dst n t = some m
  dangling_nodup : ∀ c, (s.danglingEdges c).Nodup
  dangling_unique : ∀ c c' t, t ∈ s.danglingEdges c → t ∈ s.danglingEdges c' → c = c'
  mem_dangling : ∀ c, ∀ t ∈ s.danglingEdges c, ∃ n, shown n ∧ t ∈ transitions n ∧ dst n t = none

namespace Edges

variable {shown shown' : N → Prop} {transitions transitions' : N → List T}
  {dst dst' : N → T → Option N} {s : Diagram N T} {n m : N} {t : T}

theorem congr (h : Edges shown transitions dst s)
    (ht : ∀ n, shown n → transitions' n = transitions n)
    (hd : ∀ n, shown n → ∀ t ∈ transitions n, dst' n t = dst n t) :
    Edges shown transitions' dst' s where
  leaving n hn := (h.leaving n hn).trans (ht n hn).symm
  source n hn t hmem := h.source n hn t (ht n hn ▸ hmem)
  target n hn t hmem := by
    rw [ht n hn] at hmem
    rw [h.target n hn t hmem, hd n hn t hmem]
  arriving_nodup := h.arriving_nodup
  mem_arriving m hm t := by
    rw [h.mem_arriving m hm t]
    refine exists_congr fun n => and_congr_right fun hn => ?_
    rw [ht n hn]
    exact and_congr_right fun hmem => by rw [hd n hn t hmem]
  dangling_nodup := h.dangling_nodup
  dangling_unique := h.dangling_unique
  mem_dangling c t hmem := by
    obtain ⟨n, hn, ht', hnone⟩ := h.mem_dangling c t hmem
    exact ⟨n, hn, ht n hn ▸ ht', hd n hn t ht' ▸ hnone⟩

/-- An edge has one source. -/
theorem source_unique (h : Edges shown transitions dst s) {k : N} (hn : shown n)
    (ht : t ∈ transitions n) (hk : shown k) (ht' : t ∈ transitions k) : k = n := by
  have hsource := (h.source n hn t ht).1
  rw [(h.source k hk t ht').1] at hsource
  exact Option.some.inj hsource

/-! ## Edges that come and go -/

section Edge

variable [DecidableEq N] [DecidableEq T]

/-- The edge of a new transition, which has been nowhere before. -/
theorem add (h : Edges shown transitions dst s) (hn : shown n)
    (hnew : ∀ m, shown m → t ∉ transitions m) (hlisteners : s.edgeListeners t = 0)
    (htarget : s.target t = none) :
    Edges shown (Function.update transitions n (transitions n ++ [t])) dst
      (((s.addLeavingEdge n t).addEdgeListener t).arriveAt (dst n t) t) := by
  have hmem : ∀ k, shown k → ∀ u, u ∈ Function.update transitions n (transitions n ++ [t]) k ↔
      u ∈ transitions k ∨ k = n ∧ u = t := by
    intro k _ u
    by_cases hk : k = n
    · subst hk
      simp
    · simp [hk]
  have hne : ∀ k, shown k → ∀ u ∈ transitions k, u ≠ t :=
    fun k hk u hu hut => hnew k hk (hut ▸ hu)
  rw [arriveAt_eq, Diagram.addLeavingEdge, Diagram.addEdgeListener]
  constructor
  · intro k hk
    by_cases hkn : k = n
    · subst hkn
      simp [h.leaving k hk]
    · simp [hkn, h.leaving k hk]
  · intro k hk u hu
    obtain hu | ⟨rfl, rfl⟩ := (hmem k hk u).1 hu
    · simpa [hne k hk u hu] using h.source k hk u hu
    · simp [hlisteners]
  · intro k hk u hu
    obtain hu | ⟨rfl, rfl⟩ := (hmem k hk u).1 hu
    · have hkept := h.target k hk u hu
      by_cases hd : dst n t = none
      · simpa [hd] using hkept
      · simpa [hd, hne k hk u hu] using hkept
    · by_cases hd : dst k u = none
      · simpa [hd] using htarget
      · simp [hd]
  · intro m hm
    dsimp only
    split
    · rw [List.nodup_append]
      refine ⟨h.arriving_nodup m hm, List.nodup_singleton t, fun a ha b hb => ?_⟩
      obtain ⟨k, hk, hak, -⟩ := (h.mem_arriving m hm a).1 ha
      rw [List.mem_singleton.1 hb]
      exact hne k hk a hak
    · exact h.arriving_nodup m hm
  · intro m hm u
    have hone := h.mem_arriving m hm u
    have hnew' : (∃ k, shown k ∧ u ∈ Function.update transitions n (transitions n ++ [t]) k ∧
        dst k u = some m) ↔ u ∈ s.arrivingEdges m ∨ u = t ∧ dst n t = some m := by
      rw [hone]
      constructor
      · rintro ⟨k, hk, hu, hd⟩
        obtain hu | ⟨rfl, rfl⟩ := (hmem k hk u).1 hu
        · exact .inl ⟨k, hk, hu, hd⟩
        · exact .inr ⟨rfl, hd⟩
      · rintro (⟨k, hk, hu, hd⟩ | ⟨rfl, hd⟩)
        · exact ⟨k, hk, (hmem k hk u).2 (.inl hu), hd⟩
        · exact ⟨n, hn, (hmem n hn u).2 (.inr ⟨rfl, rfl⟩), hd⟩
    rw [hnew']
    by_cases hd : dst n t = some m
    · simp [hd]
    · simp [hd]
  · exact h.dangling_nodup
  · exact h.dangling_unique
  · intro c u hu
    obtain ⟨k, hk, huk, hd⟩ := h.mem_dangling c u hu
    exact ⟨k, hk, (hmem k hk u).2 (.inl huk), hd⟩

/-- The edge of a transition that is removed; nothing is known of its listeners. -/
theorem remove (h : Edges shown transitions dst s) (hn : shown n) (ht : t ∈ transitions n)
    (hnodup : (transitions n).Nodup) (hdangling : ∀ c, t ∉ s.danglingEdges c) {f : T → ℕ}
    (hf : ∀ u, u ≠ t → f u = s.edgeListeners u) :
    Edges shown (Function.update transitions n ((transitions n).erase t)) dst
      { (s.departFrom (s.target t) t).removeLeavingEdge n t with edgeListeners := f } := by
  have hmem : ∀ k, shown k → ∀ u,
      u ∈ Function.update transitions n ((transitions n).erase t) k ↔
        u ∈ transitions k ∧ u ≠ t := by
    intro k hk u
    by_cases hkn : k = n
    · subst hkn
      rw [Function.update_self, hnodup.mem_erase_iff, and_comm]
    · rw [Function.update_of_ne hkn]
      refine ⟨fun hu => ⟨hu, fun hut => hkn ?_⟩, fun hu => hu.1⟩
      exact h.source_unique hn ht hk (hut ▸ hu)
  rw [departFrom_eq, Diagram.removeLeavingEdge]
  constructor
  · intro k hk
    by_cases hkn : k = n
    · subst hkn
      simp [h.leaving k hk]
    · simp [hkn, h.leaving k hk]
  · intro k hk u hu
    obtain ⟨hu, hne⟩ := (hmem k hk u).1 hu
    simpa [hne, hf u hne] using h.source k hk u hu
  · intro k hk u hu
    obtain ⟨hu, hne⟩ := (hmem k hk u).1 hu
    have hkept := h.target k hk u hu
    by_cases hd : s.target t = none
    · simpa [hd] using hkept
    · simpa [hd, hne] using hkept
  · intro m hm
    dsimp only
    split
    · exact (h.arriving_nodup m hm).erase t
    · exact h.arriving_nodup m hm
  · intro m hm u
    have hrest : (∃ k, shown k ∧ u ∈ Function.update transitions n ((transitions n).erase t) k ∧
        dst k u = some m) ↔ u ∈ s.arrivingEdges m ∧ u ≠ t := by
      rw [h.mem_arriving m hm u]
      constructor
      · rintro ⟨k, hk, hu, hd⟩
        obtain ⟨hu, hne⟩ := (hmem k hk u).1 hu
        exact ⟨⟨k, hk, hu, hd⟩, hne⟩
      · rintro ⟨⟨k, hk, hu, hd⟩, hne⟩
        exact ⟨k, hk, (hmem k hk u).2 ⟨hu, hne⟩, hd⟩
    rw [hrest]
    by_cases hd : s.target t = some m
    · simp only [hd, if_true]
      rw [(h.arriving_nodup m hm).mem_erase_iff, and_comm]
    · simp only [hd, if_false]
      refine ⟨fun hu => ⟨hu, fun hut => hd ?_⟩, fun hu => hu.1⟩
      obtain ⟨k, hk, huk, hdk⟩ := (h.mem_arriving m hm u).1 hu
      rw [← hut, h.target k hk u huk, hdk]
  · exact h.dangling_nodup
  · exact h.dangling_unique
  · intro c u hu
    obtain ⟨k, hk, huk, hd⟩ := h.mem_dangling c u hu
    exact ⟨k, hk, (hmem k hk u).2 ⟨huk, fun hut => hdangling c (hut ▸ hu)⟩, hd⟩

/-! ## Edges that get another end -/

/-- The edge leaves its destination. -/
theorem detach (h : Edges shown transitions dst s) (hn : shown n) (ht : t ∈ transitions n) :
    Edges shown transitions (fun k => Function.update (dst k) t none)
      (s.departFrom (dst n t) t) := by
  have hd : ∀ k, shown k → t ∈ transitions k → dst k t = dst n t :=
    fun k hk htk => by rw [h.source_unique hn ht hk htk]
  rw [departFrom_eq]
  refine ⟨h.leaving, h.source, fun k hk u hu => ?_, fun m hm => ?_, fun m hm u => ?_,
    h.dangling_nodup, h.dangling_unique, fun c u hu => ?_⟩
  · have hkept := h.target k hk u hu
    by_cases hut : u = t
    · subst hut
      rw [Function.update_self]
      by_cases hnone : dst n u = none
      · simp only [hnone, if_true]
        rw [hkept, hd k hk hu, hnone]
      · simp [hnone]
    · rw [Function.update_of_ne hut]
      by_cases hnone : dst n t = none
      · simpa [hnone] using hkept
      · simpa [hnone, hut] using hkept
  · dsimp only
    split
    · exact (h.arriving_nodup m hm).erase t
    · exact h.arriving_nodup m hm
  · have hrest : (∃ k, shown k ∧ u ∈ transitions k ∧
        Function.update (dst k) t none u = some m) ↔ u ∈ s.arrivingEdges m ∧ u ≠ t := by
      rw [h.mem_arriving m hm u]
      constructor
      · rintro ⟨k, hk, hu, hdu⟩
        by_cases hut : u = t
        · subst hut
          simp at hdu
        · rw [Function.update_of_ne hut] at hdu
          exact ⟨⟨k, hk, hu, hdu⟩, hut⟩
      · rintro ⟨⟨k, hk, hu, hdu⟩, hut⟩
        exact ⟨k, hk, hu, by rwa [Function.update_of_ne hut]⟩
    rw [hrest]
    by_cases hdm : dst n t = some m
    · simp only [hdm, if_true]
      rw [(h.arriving_nodup m hm).mem_erase_iff, and_comm]
    · simp only [hdm, if_false]
      refine ⟨fun hu => ⟨hu, fun hut => hdm ?_⟩, fun hu => hu.1⟩
      obtain ⟨k, hk, huk, hdk⟩ := (h.mem_arriving m hm u).1 hu
      rw [hut] at huk hdk
      rw [← hd k hk huk, hdk]
  · obtain ⟨k, hk, huk, hdu⟩ := h.mem_dangling c u hu
    refine ⟨k, hk, huk, ?_⟩
    by_cases hut : u = t
    · rw [hut, Function.update_self]
    · rwa [Function.update_of_ne hut]

/-- An edge without a destination gets one; then it must not dangle. -/
theorem attach (h : Edges shown transitions dst s) (hn : shown n) (ht : t ∈ transitions n)
    (hnone : dst n t = none) {d : Option N} (hdangling : d ≠ none → ∀ c, t ∉ s.danglingEdges c) :
    Edges shown transitions (fun k => Function.update (dst k) t d) (s.arriveAt d t) := by
  have htarget : s.target t = none := (h.target n hn t ht).trans hnone
  have hnew : ∀ m, shown m → t ∉ s.arrivingEdges m := by
    intro m hm htm
    obtain ⟨k, hk, htk, hdk⟩ := (h.mem_arriving m hm t).1 htm
    rw [h.source_unique hn ht hk htk, hnone] at hdk
    cases hdk
  rw [arriveAt_eq]
  refine ⟨h.leaving, h.source, fun k hk u hu => ?_, fun m hm => ?_, fun m hm u => ?_,
    h.dangling_nodup, h.dangling_unique, fun c u hu => ?_⟩
  · have hkept := h.target k hk u hu
    by_cases hut : u = t
    · subst hut
      rw [Function.update_self]
      by_cases hd : d = none
      · simp [hd, htarget]
      · simp [hd]
    · rw [Function.update_of_ne hut]
      by_cases hd : d = none
      · simpa [hd] using hkept
      · simpa [hd, hut] using hkept
  · dsimp only
    split
    · rw [List.nodup_append]
      refine ⟨h.arriving_nodup m hm, List.nodup_singleton t, fun a ha b hb hab => ?_⟩
      rw [List.mem_singleton.1 hb] at hab
      exact hnew m hm (hab ▸ ha)
    · exact h.arriving_nodup m hm
  · have hrest : (∃ k, shown k ∧ u ∈ transitions k ∧
        Function.update (dst k) t d u = some m) ↔
          u ∈ s.arrivingEdges m ∨ u = t ∧ d = some m := by
      rw [h.mem_arriving m hm u]
      constructor
      · rintro ⟨k, hk, hu, hdu⟩
        by_cases hut : u = t
        · subst hut
          rw [Function.update_self] at hdu
          exact .inr ⟨rfl, hdu⟩
        · rw [Function.update_of_ne hut] at hdu
          exact .inl ⟨k, hk, hu, hdu⟩
      · rintro (⟨k, hk, hu, hdu⟩ | ⟨rfl, hdu⟩)
        · have hut : u ≠ t := by
            rintro rfl
            exact hnew m hm ((h.mem_arriving m hm u).2 ⟨k, hk, hu, hdu⟩)
          exact ⟨k, hk, hu, by rwa [Function.update_of_ne hut]⟩
        · exact ⟨n, hn, ht, by rwa [Function.update_self]⟩
    rw [hrest]
    by_cases hd : d = some m
    · simp [hd]
    · simp [hd]
  · obtain ⟨k, hk, huk, hdu⟩ := h.mem_dangling c u hu
    refine ⟨k, hk, huk, ?_⟩
    by_cases hut : u = t
    · subst hut
      rw [Function.update_self]
      by_contra hd
      exact hdangling hd c hu
    · rwa [Function.update_of_ne hut]

/-- Several edges without a destination get the same one. -/
theorem attachAll (list : List T) (hnodup : list.Nodup) {dst : N → T → Option N}
    {s : Diagram N T} (h : Edges shown transitions dst s)
    (hlist : ∀ t ∈ list, ∃ k, shown k ∧ t ∈ transitions k ∧ dst k t = none)
    (hdangling : ∀ t ∈ list, ∀ c, t ∉ s.danglingEdges c) :
    Edges shown transitions (fun k t => if t ∈ list then some m else dst k t)
      (list.foldl (fun s t => s.addArrivingEdge m t) s) := by
  induction list generalizing s dst with
  | nil => exact h.congr (fun _ _ => rfl) fun _ _ _ _ => if_neg List.not_mem_nil
  | cons t list ih =>
    obtain ⟨hnew, hnodup⟩ := List.nodup_cons.1 hnodup
    obtain ⟨n, hn, ht, hnone⟩ := hlist t List.mem_cons_self
    have hone := h.attach (d := some m) hn ht hnone fun _ => hdangling t List.mem_cons_self
    have hrest := ih hnodup hone
      (fun u hu => by
        obtain ⟨k, hk, huk, hdk⟩ := hlist u (List.mem_cons_of_mem t hu)
        have hut : u ≠ t := fun hut => hnew (hut ▸ hu)
        exact ⟨k, hk, huk, (Function.update_of_ne hut _ _).trans hdk⟩)
      fun u hu => hdangling u (List.mem_cons_of_mem t hu)
    refine hrest.congr (fun _ _ => rfl) fun k _ u _ => ?_
    by_cases hut : u = t
    · subst hut
      rw [if_pos List.mem_cons_self, if_neg hnew, Function.update_self]
    · rw [Function.update_of_ne hut]
      simp only [List.mem_cons, hut, false_or]

/-- The edges of several new transitions. -/
theorem addAll (hn : shown n) (ts : List T) (hnodup : ts.Nodup) {transitions : N → List T}
    {s : Diagram N T} (h : Edges shown transitions dst s)
    (hnew : ∀ t ∈ ts, ∀ m, shown m → t ∉ transitions m)
    (hlisteners : ∀ t ∈ ts, s.edgeListeners t = 0) (htarget : ∀ t ∈ ts, s.target t = none) :
    Edges shown (Function.update transitions n (transitions n ++ ts)) dst
      (ts.foldl (fun s t => ((s.addLeavingEdge n t).addEdgeListener t).arriveAt (dst n t) t) s) := by
  induction ts generalizing s transitions with
  | nil =>
    rw [List.append_nil, Function.update_eq_self]
    exact h
  | cons t ts ih =>
    obtain ⟨hnot, hnodup⟩ := List.nodup_cons.1 hnodup
    have hone := h.add hn (hnew t List.mem_cons_self) (hlisteners t List.mem_cons_self)
      (htarget t List.mem_cons_self)
    have hne : ∀ u ∈ ts, u ≠ t := fun u hu hut => hnot (hut ▸ hu)
    have hrest := ih hnodup hone
      (fun u hu m hm hmem => by
        by_cases hmn : m = n
        · subst hmn
          rw [Function.update_self, List.mem_append, List.mem_singleton] at hmem
          exact hmem.elim (hnew u (List.mem_cons_of_mem t hu) m hm) (hne u hu)
        · rw [Function.update_of_ne hmn] at hmem
          exact hnew u (List.mem_cons_of_mem t hu) m hm hmem)
      (fun u hu => by
        rw [arriveAt_eq]
        exact (Function.update_of_ne (hne u hu) _ _).trans
          (hlisteners u (List.mem_cons_of_mem t hu)))
      fun u hu => by
        rw [arriveAt_eq]
        dsimp only
        split
        · exact htarget u (List.mem_cons_of_mem t hu)
        · exact (Function.update_of_ne (hne u hu) _ _).trans
            (htarget u (List.mem_cons_of_mem t hu))
    rwa [Function.update_self, Function.update_idem, List.append_assoc,
      List.singleton_append] at hrest

omit [DecidableEq T] in
/-- An edge without a destination dangles. -/
theorem dangle (h : Edges shown transitions dst s) (hn : shown n) (ht : t ∈ transitions n)
    (hnone : dst n t = none) (hdangling : ∀ c, t ∉ s.danglingEdges c) (c : Option N) :
    Edges shown transitions dst (s.addDanglingEdge c t) := by
  have hmem : ∀ c' u, u ∈ (s.addDanglingEdge c t).danglingEdges c' ↔
      u ∈ s.danglingEdges c' ∨ c' = c ∧ u = t := by
    intro c' u
    by_cases hc : c' = c
    · subst hc
      simp [Diagram.addDanglingEdge]
    · simp [Diagram.addDanglingEdge, hc]
  refine ⟨h.leaving, h.source, h.target, h.arriving_nodup, h.mem_arriving, fun c' => ?_,
    fun c₁ c₂ u h₁ h₂ => ?_, fun c' u hu => ?_⟩
  · change (Function.update s.danglingEdges c (s.danglingEdges c ++ [t]) c').Nodup
    by_cases hc : c' = c
    · subst hc
      rw [Function.update_self, List.nodup_append]
      refine ⟨h.dangling_nodup c', List.nodup_singleton t, fun a ha b hb hab => ?_⟩
      rw [List.mem_singleton.1 hb] at hab
      exact hdangling c' (hab ▸ ha)
    · rw [Function.update_of_ne hc]
      exact h.dangling_nodup c'
  · obtain hu₁ | ⟨hc₁, hut⟩ := (hmem c₁ u).1 h₁
    · obtain hu₂ | ⟨-, hut⟩ := (hmem c₂ u).1 h₂
      · exact h.dangling_unique c₁ c₂ u hu₁ hu₂
      · exact absurd (hut ▸ hu₁) (hdangling c₁)
    · obtain hu₂ | ⟨hc₂, -⟩ := (hmem c₂ u).1 h₂
      · exact absurd (hut ▸ hu₂) (hdangling c₂)
      · rw [hc₁, hc₂]
  · obtain hu | ⟨rfl, rfl⟩ := (hmem c' u).1 hu
    · exact h.mem_dangling c' u hu
    · exact ⟨n, hn, ht, hnone⟩

end Edge

theorem undangle (h : Edges shown transitions dst s) {f : Option N → List T}
    (hf : ∀ c, (f c).Sublist (s.danglingEdges c)) :
    Edges shown transitions dst { s with danglingEdges := f } where
  leaving := h.leaving
  source := h.source
  target := h.target
  arriving_nodup := h.arriving_nodup
  mem_arriving := h.mem_arriving
  dangling_nodup c := (hf c).nodup (h.dangling_nodup c)
  dangling_unique c c' t ht ht' :=
    h.dangling_unique c c' t ((hf c).mem ht) ((hf c').mem ht')
  mem_dangling c t ht := h.mem_dangling c t ((hf c).mem ht)

/-! ## Nodes -/

/-- A node without edges comes. -/
theorem reveal (h : Edges shown transitions dst s) (hleaving : s.leavingEdges n = [])
    (harriving : s.arrivingEdges n = []) (ht : transitions n = [])
    (hd : ∀ k, shown k → ∀ t ∈ transitions k, dst k t ≠ some n) :
    Edges (fun k => shown k ∨ k = n) transitions dst s where
  leaving k hk := hk.elim (h.leaving k) fun hk => by rw [hk, hleaving, ht]
  source k hk t htk := hk.elim (fun hk => h.source k hk t htk) fun hk => by
    rw [hk, ht] at htk
    cases htk
  target k hk t htk := hk.elim (fun hk => h.target k hk t htk) fun hk => by
    rw [hk, ht] at htk
    cases htk
  arriving_nodup m hm := hm.elim (h.arriving_nodup m) fun hm => by
    rw [hm, harriving]
    exact List.nodup_nil
  mem_arriving m hm t := by
    have hsame : (∃ k, (shown k ∨ k = n) ∧ t ∈ transitions k ∧ dst k t = some m) ↔
        ∃ k, shown k ∧ t ∈ transitions k ∧ dst k t = some m := by
      refine exists_congr fun k => ⟨?_, fun hk => ⟨.inl hk.1, hk.2⟩⟩
      rintro ⟨hk | rfl, htk, hdk⟩
      · exact ⟨hk, htk, hdk⟩
      · rw [ht] at htk
        cases htk
    rw [hsame]
    obtain hm | rfl := hm
    · exact h.mem_arriving m hm t
    · rw [harriving]
      exact ⟨nofun, fun ⟨k, hk, htk, hdk⟩ => absurd hdk (hd k hk t htk)⟩
  dangling_nodup := h.dangling_nodup
  dangling_unique := h.dangling_unique
  mem_dangling c t htc := by
    obtain ⟨k, hk, htk, hdk⟩ := h.mem_dangling c t htc
    exact ⟨k, .inl hk, htk, hdk⟩

/-- A node without edges goes. -/
theorem hide (h : Edges shown transitions dst s) (ht : transitions n = []) :
    Edges (fun k => shown k ∧ k ≠ n) transitions dst s where
  leaving k hk := h.leaving k hk.1
  source k hk := h.source k hk.1
  target k hk := h.target k hk.1
  arriving_nodup m hm := h.arriving_nodup m hm.1
  mem_arriving m hm t := by
    rw [h.mem_arriving m hm.1 t]
    refine exists_congr fun k => ⟨fun ⟨hk, htk, hdk⟩ => ⟨⟨hk, ?_⟩, htk, hdk⟩,
      fun ⟨hk, htk⟩ => ⟨hk.1, htk⟩⟩
    rintro rfl
    rw [ht] at htk
    cases htk
  dangling_nodup := h.dangling_nodup
  dangling_unique := h.dangling_unique
  mem_dangling c t htc := by
    obtain ⟨k, hk, htk, hdk⟩ := h.mem_dangling c t htc
    refine ⟨k, ⟨hk, ?_⟩, htk, hdk⟩
    rintro rfl
    rw [ht] at htk
    cases htk

end Edges

end Designer

end Jbpm
