/-
  The transitions between activities, with the lists of them that nodes keep.

  * `Mark`: the nodes that carry transitions, where a structure has its begin and end marks;
  * `Graph`, `addLeavingTransition`, `removeArrivingTransition`, `connect`, `disconnect`: the
    operations of nodes and activities;
  * `Consistent`: the lists of a node are those of the transitions that point back to it;
  * `Keeps`: the transitions with ends outside of two sets of nodes are those from before;
  * `Consistent.connect`, `Consistent.disconnect`, `Consistent.disconnectAll`: what the
    operations do to the ends of transitions.
-/
import Mathlib.Data.List.MinMax
import Mathlib.Data.List.Nodup
import Mathlib.Data.Set.Insert
import Mathlib.Data.Nat.Notation
import Mathlib.Logic.Function.Basic

namespace Jbpm

namespace Bpel

/-- The nodes that carry transitions: activities, and the marks of structures. -/
inductive Mark (A : Type)
  | node (activity : A)
  | begin_ (structure_ : A)
  | end_ (structure_ : A)
  | loop (structure_ : A)
  deriving DecidableEq

/-- Transitions have numbers, in the order in which they are created. -/
structure Graph (A : Type) where
  leaving : Mark A → List ℕ
  arriving : Mark A → List ℕ
  source : ℕ → Option (Mark A)
  target : ℕ → Option (Mark A)
  next : ℕ

namespace Graph

variable {A : Type} [DecidableEq A] (g : Graph A)

/-! ## Nodes -/

def addLeavingTransition (t : ℕ) (m : Mark A) : Graph A :=
  { g with
    leaving := Function.update g.leaving m (g.leaving m ++ [t])
    source := Function.update g.source t (some m) }

def removeLeavingTransition (t : ℕ) (m : Mark A) : Graph A :=
  if t ∈ g.leaving m then
    { g with
      leaving := Function.update g.leaving m ((g.leaving m).erase t)
      source := Function.update g.source t none }
  else g

/-- The arriving transitions are a set. -/
def addArrivingTransition (t : ℕ) (m : Mark A) : Graph A :=
  { g with
    arriving := Function.update g.arriving m
      (if t ∈ g.arriving m then g.arriving m else g.arriving m ++ [t])
    target := Function.update g.target t (some m) }

def removeArrivingTransition (t : ℕ) (m : Mark A) : Graph A :=
  if t ∈ g.arriving m then
    { g with
      arriving := Function.update g.arriving m ((g.arriving m).erase t)
      target := Function.update g.target t none }
  else g

/-- The first leaving transition, which is `null` if there is none. -/
def defaultLeavingTransition (m : Mark A) : Option ℕ := (g.leaving m).head?

/-- `iterator().next()`: the places of transitions in a hash set are those of their identity hash
    codes. -/
def defaultArrivingTransition (place : ℕ → ℕ) (m : Mark A) : Option ℕ :=
  (g.arriving m).argmin place

/-! ## Activities -/

def connect (m m' : Mark A) : Graph A :=
  (({ g with next := g.next + 1 }).addLeavingTransition g.next m).addArrivingTransition g.next m'

def disconnect (m m' : Mark A) : Graph A :=
  match (g.leaving m).find? fun t => t ∈ g.arriving m' with
  | none => g
  | some t => (g.removeLeavingTransition t m).removeArrivingTransition t m'

/-! ## Consistent ends -/

/-- The lists of a node have the transitions that point back to it. -/
structure Listed : Prop where
  leaving : ∀ m t, t ∈ g.leaving m ↔ g.source t = some m
  arriving : ∀ m t, t ∈ g.arriving m ↔ g.target t = some m
  nodup_leaving : ∀ m, (g.leaving m).Nodup
  nodup_arriving : ∀ m, (g.arriving m).Nodup

/-- A transition has both ends, or none. -/
structure Consistent : Prop extends Listed g where
  ends : ∀ t, g.source t = none ↔ g.target t = none
  fresh : ∀ t, g.next ≤ t → g.source t = none

variable {g} {t : ℕ} {m m' : Mark A}

omit [DecidableEq A] in
theorem Consistent.fresh_target (h : g.Consistent) (ht : g.next ≤ t) : g.target t = none :=
  (h.ends t).1 (h.fresh t ht)

/-! ## Operations of nodes -/

/-- The list of one end of the transitions, and the field that points back. -/
theorem mem_update_append {l : Mark A → List ℕ} {f : ℕ → Option (Mark A)}
    (h : ∀ m t, t ∈ l m ↔ f t = some m) (ht : f t = none) (m n : Mark A) (t' : ℕ) :
    t' ∈ Function.update l m (l m ++ [t]) n ↔ Function.update f t (some m) t' = some n := by
  rw [Function.update_apply, Function.update_apply]
  by_cases htt : t' = t
  · subst htt
    have hnot : ∀ n, t' ∉ l n := fun n hn => by
      rw [h, ht] at hn
      cases hn
    rw [if_pos rfl]
    split
    · rename_i hn
      simp [hn]
    · rename_i hn
      simp [hnot, Ne.symm hn]
  · rw [if_neg htt, ← h]
    split
    · rename_i hn
      rw [hn, List.mem_append, List.mem_singleton]
      exact or_iff_left htt
    · rfl

theorem mem_update_erase {l : Mark A → List ℕ} {f : ℕ → Option (Mark A)}
    (h : ∀ m t, t ∈ l m ↔ f t = some m) (hnodup : ∀ m, (l m).Nodup) (ht : t ∈ l m) (n : Mark A)
    (t' : ℕ) :
    t' ∈ Function.update l m ((l m).erase t) n ↔ Function.update f t none t' = some n := by
  rw [Function.update_apply, Function.update_apply]
  by_cases htt : t' = t
  · subst htt
    rw [if_pos rfl]
    split
    · simp [(hnodup m).not_mem_erase]
    · rename_i hn
      rw [h, (h m t').1 ht]
      simp [Ne.symm hn]
  · rw [if_neg htt, ← h]
    split
    · rename_i hn
      rw [hn, List.mem_erase_of_ne htt]
    · rfl

theorem nodup_update {l : Mark A → List ℕ} (h : ∀ m, (l m).Nodup) {l' : List ℕ} (h' : l'.Nodup)
    (n : Mark A) : (Function.update l m l' n).Nodup := by
  rw [Function.update_apply]
  split
  · exact h'
  · exact h n

theorem Listed.addLeaving (h : g.Listed) (ht : g.source t = none) :
    (g.addLeavingTransition t m).Listed := by
  have hnot : t ∉ g.leaving m := fun hmem => by
    rw [h.leaving, ht] at hmem
    cases hmem
  exact ⟨mem_update_append h.leaving ht m, h.arriving,
    nodup_update h.nodup_leaving ((List.perm_append_singleton t _).nodup_iff.2
      (List.nodup_cons.2 ⟨hnot, h.nodup_leaving m⟩)),
    h.nodup_arriving⟩

theorem Listed.addArriving (h : g.Listed) (ht : g.target t = none) :
    (g.addArrivingTransition t m).Listed ∧
      (g.addArrivingTransition t m).arriving = Function.update g.arriving m (g.arriving m ++ [t]) := by
  have hnot : t ∉ g.arriving m := fun hmem => by
    rw [h.arriving, ht] at hmem
    cases hmem
  have harriving : (g.addArrivingTransition t m).arriving =
      Function.update g.arriving m (g.arriving m ++ [t]) := by
    unfold addArrivingTransition
    rw [if_neg hnot]
  refine ⟨⟨h.leaving, ?_, h.nodup_leaving, ?_⟩, harriving⟩
  · rw [harriving]
    exact mem_update_append h.arriving ht m
  · rw [harriving]
    exact nodup_update h.nodup_arriving ((List.perm_append_singleton t _).nodup_iff.2
      (List.nodup_cons.2 ⟨hnot, h.nodup_arriving m⟩))

theorem removeLeavingTransition_of_mem (ht : t ∈ g.leaving m) :
    g.removeLeavingTransition t m =
      { g with
        leaving := Function.update g.leaving m ((g.leaving m).erase t)
        source := Function.update g.source t none } :=
  if_pos ht

theorem removeArrivingTransition_of_mem (ht : t ∈ g.arriving m) :
    g.removeArrivingTransition t m =
      { g with
        arriving := Function.update g.arriving m ((g.arriving m).erase t)
        target := Function.update g.target t none } :=
  if_pos ht

theorem Listed.removeLeaving (h : g.Listed) (ht : t ∈ g.leaving m) :
    (g.removeLeavingTransition t m).Listed := by
  rw [removeLeavingTransition_of_mem ht]
  exact ⟨mem_update_erase h.leaving h.nodup_leaving ht, h.arriving,
    nodup_update h.nodup_leaving ((h.nodup_leaving m).erase t), h.nodup_arriving⟩

theorem Listed.removeArriving (h : g.Listed) (ht : t ∈ g.arriving m) :
    (g.removeArrivingTransition t m).Listed := by
  rw [removeArrivingTransition_of_mem ht]
  exact ⟨h.leaving, mem_update_erase h.arriving h.nodup_arriving ht, h.nodup_leaving,
    nodup_update h.nodup_arriving ((h.nodup_arriving m).erase t)⟩

/-! ## Operations of activities -/

/-- The graph has the ends that are given. -/
structure Ends (g : Graph A) (source target : ℕ → Option (Mark A)) (next : ℕ) : Prop where
  consistent : g.Consistent
  source : g.source = source
  target : g.target = target
  next : g.next = next

/-- A transition is created. -/
theorem Consistent.connect (h : g.Consistent) (m m' : Mark A) :
    (g.connect m m').Ends (Function.update g.source g.next (some m))
      (Function.update g.target g.next (some m')) (g.next + 1) ∧
    (g.connect m m').leaving = Function.update g.leaving m (g.leaving m ++ [g.next]) ∧
    (g.connect m m').arriving = Function.update g.arriving m' (g.arriving m' ++ [g.next]) := by
  have hsource : g.source g.next = none := h.fresh g.next (Nat.le_refl _)
  have htarget : g.target g.next = none := h.fresh_target (Nat.le_refl _)
  have hlisted : ({ g with next := g.next + 1 } : Graph A).Listed :=
    ⟨h.leaving, h.arriving, h.nodup_leaving, h.nodup_arriving⟩
  obtain ⟨hconnected, harriving⟩ := (hlisted.addLeaving (m := m) hsource).addArriving (m := m')
    htarget
  refine ⟨⟨⟨hconnected, fun t => ?_, fun t ht => ?_⟩, rfl, rfl, rfl⟩, rfl, harriving⟩
  · change Function.update g.source g.next (some m) t = none ↔
      Function.update g.target g.next (some m') t = none
    rw [Function.update_apply, Function.update_apply]
    split
    · simp
    · exact h.ends t
  · change g.next + 1 ≤ t at ht
    change Function.update g.source g.next (some m) t = none
    rw [Function.update_of_ne (by omega)]
    exact h.fresh t (by omega)

/-- A transition loses both ends. -/
theorem Consistent.delete (h : g.Consistent) (hs : g.source t = some m) (ht : g.target t = some m') :
    ((g.removeLeavingTransition t m).removeArrivingTransition t m').Ends
      (Function.update g.source t none) (Function.update g.target t none) g.next := by
  have hleaving : t ∈ g.leaving m := (h.leaving m t).2 hs
  have harriving : t ∈ (g.removeLeavingTransition t m).arriving m' := by
    rw [removeLeavingTransition_of_mem hleaving]
    exact (h.arriving m' t).2 ht
  have hlisted := (h.toListed.removeLeaving hleaving).removeArriving harriving
  rw [removeArrivingTransition_of_mem harriving] at hlisted ⊢
  rw [removeLeavingTransition_of_mem hleaving] at hlisted ⊢
  refine ⟨⟨hlisted, fun t' => ?_, fun t' ht' => ?_⟩, rfl, rfl, rfl⟩
  · dsimp only
    rw [Function.update_apply, Function.update_apply]
    split
    · simp
    · exact h.ends t'
  · dsimp only at ht' ⊢
    rw [Function.update_apply]
    split
    · rfl
    · exact h.fresh t' ht'

/-- The only transition between two nodes is removed. -/
theorem Consistent.disconnect (h : g.Consistent) (hs : g.source t = some m)
    (ht : g.target t = some m') (honly : ∀ t', g.source t' = some m → g.target t' = some m' → t' = t) :
    (g.disconnect m m').Ends (Function.update g.source t none) (Function.update g.target t none)
      g.next ∧
    (g.disconnect m m').leaving = Function.update g.leaving m ((g.leaving m).erase t) ∧
    (g.disconnect m m').arriving = Function.update g.arriving m' ((g.arriving m').erase t) := by
  have hfind : (g.leaving m).find? (fun t => t ∈ g.arriving m') = some t := by
    cases hfind : (g.leaving m).find? fun t => t ∈ g.arriving m' with
    | none =>
      have hnot := List.find?_eq_none.1 hfind t ((h.leaving m t).2 hs)
      exact absurd (decide_eq_true ((h.arriving m' t).2 ht)) hnot
    | some t' =>
      have hmem := List.find?_some (p := fun t => decide (t ∈ g.arriving m')) hfind
      have htarget := (h.arriving m' t').1 (of_decide_eq_true hmem)
      have hsource := (h.leaving m t').1 (List.mem_of_find?_eq_some hfind)
      rw [honly t' hsource htarget]
  unfold Graph.disconnect
  rw [hfind]
  have hleaving : t ∈ g.leaving m := (h.leaving m t).2 hs
  have harriving : t ∈ (g.removeLeavingTransition t m).arriving m' := by
    rw [removeLeavingTransition_of_mem hleaving]
    exact (h.arriving m' t).2 ht
  have hends := h.delete hs ht
  dsimp only
  rw [removeArrivingTransition_of_mem harriving, removeLeavingTransition_of_mem hleaving] at hends ⊢
  exact ⟨hends, rfl, rfl⟩

/-- There is no transition to remove. -/
theorem Consistent.disconnect_of_none (h : g.Consistent)
    (hnone : ∀ t, g.source t = some m → g.target t ≠ some m') : g.disconnect m m' = g := by
  have hfind : (g.leaving m).find? (fun t => t ∈ g.arriving m') = none := by
    refine List.find?_eq_none.2 fun t ht hmem => ?_
    exact hnone t ((h.leaving m t).1 ht) ((h.arriving m' t).1 (of_decide_eq_true hmem))
  unfold Graph.disconnect
  rw [hfind]

/-! ## Transitions that stay -/

section
variable {g' g'' : Graph A} {S S' T T' : Set (Mark A)}

/-- A transition keeps its ends, unless all ends that it had or has are in the sets. -/
def Keeps (S T : Set (Mark A)) (g g' : Graph A) : Prop :=
  ∀ t, (g'.source t = g.source t ∧ g'.target t = g.target t) ∨
    ((∀ m, g.source t = some m ∨ g'.source t = some m → m ∈ S) ∧
      ∀ m, g.target t = some m ∨ g'.target t = some m → m ∈ T)

omit [DecidableEq A] in
theorem Keeps.refl (g : Graph A) : Keeps S T g g := fun _ => .inl ⟨rfl, rfl⟩

omit [DecidableEq A] in
theorem Keeps.trans (h : Keeps S T g g') (h' : Keeps S' T' g' g'') :
    Keeps (S ∪ S') (T ∪ T') g g'' := by
  intro t
  rcases h t with ⟨hs, ht⟩ | ⟨hs, ht⟩ <;> rcases h' t with ⟨hs', ht'⟩ | ⟨hs', ht'⟩
  · exact .inl ⟨hs'.trans hs, ht'.trans ht⟩
  · refine .inr ⟨fun m hm => .inr (hs' m ?_), fun m hm => .inr (ht' m ?_)⟩
    · rwa [hs]
    · rwa [ht]
  · refine .inr ⟨fun m hm => .inl (hs m ?_), fun m hm => .inl (ht m ?_)⟩
    · rwa [hs'] at hm
    · rwa [ht'] at hm
  · exact .inr ⟨fun m hm => hm.elim (fun hm => .inl (hs m (.inl hm))) fun hm => .inr (hs' m (.inr hm)),
      fun m hm => hm.elim (fun hm => .inl (ht m (.inl hm))) fun hm => .inr (ht' m (.inr hm))⟩

omit [DecidableEq A] in
theorem Keeps.mono (h : Keeps S T g g') (hS : S ⊆ S') (hT : T ⊆ T') : Keeps S' T' g g' :=
  fun t => (h t).imp_right fun ⟨hs, ht⟩ => ⟨fun m hm => hS (hs m hm), fun m hm => hT (ht m hm)⟩

omit [DecidableEq A] in
/-- A transition with an end outside of the sets, before or after, is the same. -/
theorem Keeps.of_source (h : Keeps S T g g') (hm : m ∉ S)
    (ht : g.source t = some m ∨ g'.source t = some m) :
    g'.source t = g.source t ∧ g'.target t = g.target t :=
  (h t).resolve_right fun hin => hm (hin.1 m ht)

omit [DecidableEq A] in
theorem Keeps.of_target (h : Keeps S T g g') (hm : m ∉ T)
    (ht : g.target t = some m ∨ g'.target t = some m) :
    g'.source t = g.source t ∧ g'.target t = g.target t :=
  (h t).resolve_right fun hin => hm (hin.2 m ht)

/-- Some transition between the two nodes is removed, if there is any. -/
theorem Consistent.disconnect_cases (h : g.Consistent) (m m' : Mark A) :
    (g.disconnect m m' = g ∧ ∀ t, g.source t = some m → g.target t ≠ some m') ∨
      ∃ t, g.source t = some m ∧ g.target t = some m' ∧
        (g.disconnect m m').Ends (Function.update g.source t none)
          (Function.update g.target t none) g.next := by
  cases hfind : (g.leaving m).find? fun t => t ∈ g.arriving m' with
  | none =>
    have hnone : ∀ t, g.source t = some m → g.target t ≠ some m' := fun t ht htt =>
      List.find?_eq_none.1 hfind t ((h.leaving m t).2 ht)
        (decide_eq_true ((h.arriving m' t).2 htt))
    exact .inl ⟨h.disconnect_of_none hnone, hnone⟩
  | some t =>
    have hmem := List.find?_some (p := fun t => decide (t ∈ g.arriving m')) hfind
    have hsource := (h.leaving m t).1 (List.mem_of_find?_eq_some hfind)
    have htarget := (h.arriving m' t).1 (of_decide_eq_true hmem)
    refine .inr ⟨t, hsource, htarget, ?_⟩
    unfold Graph.disconnect
    rw [hfind]
    exact h.delete hsource htarget

/-- Several pairs of nodes are disconnected. -/
def disconnectAll (pairs : List (Mark A × Mark A)) (g : Graph A) : Graph A :=
  pairs.foldl (fun g q => g.disconnect q.1 q.2) g

/-- Transitions between the pairs are removed, and no transition is left of a pair that had
    only one. -/
theorem Consistent.disconnectAll (h : g.Consistent) (pairs : List (Mark A × Mark A)) :
    (g.disconnectAll pairs).Consistent ∧ (g.disconnectAll pairs).next = g.next ∧
      (∀ t, ((g.disconnectAll pairs).source t = g.source t ∧
          (g.disconnectAll pairs).target t = g.target t) ∨
        ((g.disconnectAll pairs).source t = none ∧ (g.disconnectAll pairs).target t = none ∧
          ∃ q ∈ pairs, g.source t = some q.1 ∧ g.target t = some q.2)) ∧
      ∀ q ∈ pairs, (∀ t t', g.source t = some q.1 → g.target t = some q.2 →
          g.source t' = some q.1 → g.target t' = some q.2 → t = t') →
        ∀ t, (g.disconnectAll pairs).source t = some q.1 →
          (g.disconnectAll pairs).target t ≠ some q.2 := by
  induction pairs generalizing g with
  | nil => exact ⟨h, rfl, fun _ => .inl ⟨rfl, rfl⟩, fun q hq => nomatch hq⟩
  | cons q pairs ih =>
    rcases h.disconnect_cases q.1 q.2 with ⟨hsame, hnone⟩ | ⟨t, hs, ht, hends⟩
    · have hall : g.disconnectAll (q :: pairs) = g.disconnectAll pairs :=
        congrArg (Graph.disconnectAll pairs) hsame
      obtain ⟨hconsistent, hnext, hkept, hgone⟩ := ih h
      rw [hall]
      refine ⟨hconsistent, hnext, fun t => (hkept t).imp_right fun ⟨hs, ht, q', hq', hq⟩ =>
        ⟨hs, ht, q', List.mem_cons_of_mem q hq', hq⟩, fun q' hq' honly t hs ht => ?_⟩
      rcases List.mem_cons.1 hq' with rfl | hq'
      · rcases hkept t with ⟨hs', ht'⟩ | ⟨hs', -⟩
        · exact hnone t (hs'.symm.trans hs) (ht'.symm.trans ht)
        · rw [hs'] at hs
          cases hs
      · exact hgone q' hq' honly t hs ht
    · obtain ⟨hconsistent, hnext, hkept, hgone⟩ := ih hends.consistent
      have hold (t') : ((g.disconnect q.1 q.2).source t' = g.source t' ∧
          (g.disconnect q.1 q.2).target t' = g.target t') ∨
          t' = t ∧ (g.disconnect q.1 q.2).source t' = none ∧
            (g.disconnect q.1 q.2).target t' = none := by
        rw [hends.source, hends.target]
        by_cases htt : t' = t
        · subst htt
          exact .inr ⟨rfl, by rw [Function.update_self], by rw [Function.update_self]⟩
        · exact .inl ⟨Function.update_of_ne htt _ _, Function.update_of_ne htt _ _⟩
      refine ⟨hconsistent, hnext.trans hends.next, fun t' => ?_, fun q' hq' honly t' hs' ht' => ?_⟩
      · rcases hkept t' with ⟨hs', ht'⟩ | ⟨hs', ht', q', hq', hsq, htq⟩
        · rcases hold t' with ⟨hs'', ht''⟩ | ⟨rfl, hs'', ht''⟩
          · exact .inl ⟨hs'.trans hs'', ht'.trans ht''⟩
          · exact .inr ⟨hs'.trans hs'', ht'.trans ht'', q, List.mem_cons_self, hs, ht⟩
        · rcases hold t' with ⟨hs'', ht''⟩ | ⟨rfl, hs'', ht''⟩
          · exact .inr ⟨hs', ht', q', List.mem_cons_of_mem q hq', hs''.symm.trans hsq,
              ht''.symm.trans htq⟩
          · exact .inr ⟨hs', ht', q, List.mem_cons_self, hs, ht⟩
      · have hsub (t'') (m) (hm : (g.disconnect q.1 q.2).source t'' = some m) :
            t'' ≠ t ∧ g.source t'' = some m ∧
              (g.disconnect q.1 q.2).target t'' = g.target t'' := by
          rcases hold t'' with ⟨hs'', ht''⟩ | ⟨-, hs'', -⟩
          · refine ⟨?_, hs''.symm.trans hm, ht''⟩
            rintro rfl
            rw [hends.source, Function.update_self] at hm
            cases hm
          · rw [hs''] at hm
            cases hm
        have hbefore : (g.disconnect q.1 q.2).source t' = some q'.1 ∧
            (g.disconnect q.1 q.2).target t' = some q'.2 := by
          rcases hkept t' with ⟨h1, h2⟩ | ⟨h1, -⟩
          · exact ⟨h1.symm.trans hs', h2.symm.trans ht'⟩
          · exact nomatch h1.symm.trans hs'
        obtain ⟨hne, hs'', hteq⟩ := hsub t' _ hbefore.1
        rcases List.mem_cons.1 hq' with rfl | hq'
        · exact hne (honly t' t hs'' (hteq.symm.trans hbefore.2) hs ht)
        · refine hgone q' hq' (fun t₁ t₂ h₁ h₁' h₂ h₂' => ?_) t' hs' ht'
          obtain ⟨-, hs₁, ht₁⟩ := hsub t₁ _ h₁
          obtain ⟨-, hs₂, ht₂⟩ := hsub t₂ _ h₂
          exact honly t₁ t₂ hs₁ (ht₁.symm.trans h₁') hs₂ (ht₂.symm.trans h₂')

end

end Graph

end Bpel

end Jbpm
