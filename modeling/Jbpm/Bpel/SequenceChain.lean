/-
  A sequence is a chain.

  * `Regular`: the changes on which the code keeps it one;
  * `removeSequenceTransitions_run`, `attach`: what the two halves of a change do to the
    transitions;
  * `Connected.addActivity`, `Connected.removeNode`, `Connected.reorderNode`: the step lemmas;
  * `sequences_chained`: the sequences after any regular changes.
-/
import Jbpm.Bpel.Sequence

namespace Jbpm

open Lib Function

namespace Bpel.Activities

variable {A : Type} {kind : A → Kind}

/-! ## Nodes -/

theorem entry_inj {a b : A} (h : entry kind a = entry kind b) : a = b := by
  unfold entry at h
  split at h <;> split at h <;> cases h <;> rfl

theorem exit_inj {a b : A} (h : exit kind a = exit kind b) : a = b := by
  unfold exit at h
  split at h <;> split at h <;> cases h <;> rfl

theorem entry_ne_end (a s : A) : entry kind a ≠ .end_ s := by
  unfold entry
  split <;> exact fun h => nomatch h

theorem entry_ne_loop (a s : A) : entry kind a ≠ .loop s := by
  unfold entry
  split <;> exact fun h => nomatch h

theorem exit_ne_begin (a s : A) : exit kind a ≠ .begin_ s := by
  unfold exit
  split <;> exact fun h => nomatch h

theorem exit_ne_loop (a s : A) : exit kind a ≠ .loop s := by
  unfold exit
  split <;> exact fun h => nomatch h

/-- The transitions of other structures leave their marks, or the child. -/
theorem implicit_marks {p c : A} {q : Mark A × Mark A} (h : q ∈ implicit kind p c) :
    (q.1 = .begin_ p ∨ q.1 = .loop p ∨ q.1 = exit kind c) ∧
      (q.2 = .end_ p ∨ q.2 = .loop p ∨ q.2 = entry kind c) := by
  unfold implicit at h
  split at h <;> simp only [List.mem_cons, List.not_mem_nil, or_false] at h
  case h_1 => rcases h with rfl | rfl <;> simp
  case h_2 => rcases h with rfl | rfl | rfl | rfl <;> simp
  case h_3 => rcases h with rfl | rfl | rfl | rfl <;> simp

/-! ## Hops -/

variable (kind)

/-- The transitions to each of the activities. -/
def front (m : Mark A) : List A → List (Mark A × Mark A)
  | [] => []
  | a :: activities => (m, entry kind a) :: front (exit kind a) activities

/-- The node behind the activities. -/
def lastMark (m : Mark A) : List A → Mark A
  | [] => m
  | a :: activities => lastMark (exit kind a) activities

/-- The node in front of the activities. -/
def firstMark (m' : Mark A) : List A → Mark A
  | [] => m'
  | a :: _ => entry kind a

variable {kind} {m m' : Mark A} {a : A} {pre post activities : List A}

theorem hops_eq (m : Mark A) (activities : List A) (m' : Mark A) :
    hops kind m activities m' = front kind m activities ++ [(lastMark kind m activities, m')] := by
  induction activities generalizing m with
  | nil => rfl
  | cons a activities ih =>
    rw [hops, front, lastMark, ih]
    rfl

theorem front_append (m : Mark A) (pre post : List A) :
    front kind m (pre ++ post) = front kind m pre ++ front kind (lastMark kind m pre) post := by
  induction pre generalizing m with
  | nil => rfl
  | cons a pre ih =>
    rw [List.cons_append, front, ih]
    rfl

theorem lastMark_append (m : Mark A) (pre post : List A) :
    lastMark kind m (pre ++ post) = lastMark kind (lastMark kind m pre) post := by
  induction pre generalizing m with
  | nil => rfl
  | cons a pre ih => exact ih _

theorem lastMark_concat (m : Mark A) (pre : List A) (a : A) :
    lastMark kind m (pre ++ [a]) = exit kind a :=
  lastMark_append m pre [a]

/-- The node behind the activities is that of one of them, or the one before all. -/
theorem lastMark_cases (kind : A → Kind) (m : Mark A) (activities : List A) :
    (activities = [] ∧ lastMark kind m activities = m) ∨
      ∃ a ∈ activities, lastMark kind m activities = exit kind a := by
  induction activities generalizing m with
  | nil => exact .inl ⟨rfl, rfl⟩
  | cons a activities ih =>
    rcases ih (exit kind a) with ⟨rfl, h⟩ | ⟨b, hb, h⟩
    · exact .inr ⟨a, List.mem_cons_self, h⟩
    · exact .inr ⟨b, List.mem_cons_of_mem a hb, h⟩

theorem front_marks {q : Mark A × Mark A} (h : q ∈ front kind m activities) :
    (q.1 = m ∨ ∃ a ∈ activities, q.1 = exit kind a) ∧ ∃ a ∈ activities, q.2 = entry kind a := by
  induction activities generalizing m with
  | nil => cases h
  | cons a activities ih =>
    rw [front] at h
    rcases List.mem_cons.1 h with rfl | h
    · exact ⟨.inl rfl, a, List.mem_cons_self, rfl⟩
    · obtain ⟨h₁, b, hb, h₂⟩ := ih h
      refine ⟨.inr ?_, b, List.mem_cons_of_mem a hb, h₂⟩
      rcases h₁ with h₁ | ⟨c, hc, h₁⟩
      · exact ⟨a, List.mem_cons_self, h₁⟩
      · exact ⟨c, List.mem_cons_of_mem a hc, h₁⟩

theorem hops_marks {q : Mark A × Mark A} (h : q ∈ hops kind m activities m') :
    (q.1 = m ∨ ∃ a ∈ activities, q.1 = exit kind a) ∧
      (q.2 = m' ∨ ∃ a ∈ activities, q.2 = entry kind a) := by
  rw [hops_eq, List.mem_append, List.mem_singleton] at h
  rcases h with h | rfl
  · exact ⟨(front_marks h).1, .inr (front_marks h).2⟩
  · refine ⟨?_, .inl rfl⟩
    rcases lastMark_cases kind m activities with ⟨-, h⟩ | ⟨a, ha, h⟩
    · exact .inl h
    · exact .inr ⟨a, ha, h⟩

/-- A chain in two parts. -/
theorem hops_append (m : Mark A) (pre post : List A) (m' : Mark A) :
    hops kind m (pre ++ post) m' =
      front kind m pre ++ hops kind (lastMark kind m pre) post m' := by
  rw [hops_eq, hops_eq, front_append, lastMark_append, List.append_assoc]

/-- The hops behind the first node. -/
def back (kind : A → Kind) (m' : Mark A) : List A → List (Mark A × Mark A)
  | [] => []
  | a :: activities => hops kind (exit kind a) activities m'

theorem hops_split (m : Mark A) (pre post : List A) (m' : Mark A) :
    hops kind m (pre ++ post) m' =
      front kind m pre ++ (lastMark kind m pre, firstMark kind m' post) :: back kind m' post := by
  rw [hops_append]
  cases post <;> rfl

theorem hops_split_cons (m : Mark A) (pre : List A) (a : A) (post : List A) (m' : Mark A) :
    hops kind m (pre ++ a :: post) m' =
      front kind m pre ++ (lastMark kind m pre, entry kind a) ::
        (exit kind a, firstMark kind m' post) :: back kind m' post := by
  rw [hops_append]
  cases post <;> rfl

theorem hops_firsts (m : Mark A) (activities : List A) (m' : Mark A) :
    (hops kind m activities m').map Prod.fst = m :: activities.map (exit kind) := by
  induction activities generalizing m with
  | nil => rfl
  | cons a activities ih =>
    rw [hops, List.map_cons, ih]
    rfl

theorem hops_seconds (m : Mark A) (activities : List A) (m' : Mark A) :
    (hops kind m activities m').map Prod.snd = activities.map (entry kind) ++ [m'] := by
  induction activities generalizing m with
  | nil => rfl
  | cons a activities ih =>
    rw [hops, List.map_cons, ih]
    rfl

/-- Every node of a chain is left once, and arrived at once. -/
theorem hops_nodup (kind : A → Kind) (s : A) (h : activities.Nodup) :
    ((hops kind (.begin_ s) activities (.end_ s)).map Prod.fst).Nodup ∧
      ((hops kind (.begin_ s) activities (.end_ s)).map Prod.snd).Nodup := by
  rw [hops_firsts, hops_seconds]
  constructor
  · refine List.nodup_cons.2 ⟨fun hmem => ?_, h.map fun _ _ => exit_inj⟩
    obtain ⟨a, -, ha⟩ := List.mem_map.1 hmem
    exact exit_ne_begin a s ha
  · refine (List.perm_append_singleton _ _).nodup_iff.2
      (List.nodup_cons.2 ⟨fun hmem => ?_, h.map fun _ _ => entry_inj⟩)
    obtain ⟨a, -, ha⟩ := List.mem_map.1 hmem
    exact entry_ne_end a s ha

end Bpel.Activities

/-! ## Links -/

namespace Bpel.Graph

variable {A : Type} {g g' : Graph A} {m m' : Mark A} {S T : Set (Mark A)} {t : ℕ}

/-- Every pair of nodes has a transition that is the only one at both nodes. -/
def Links (g : Graph A) (pairs : List (Mark A × Mark A)) : Prop :=
  ∀ q ∈ pairs, ∃ t, g.Sole t q.1 q.2

theorem Links.append {pairs pairs' : List (Mark A × Mark A)} (h : g.Links pairs)
    (h' : g.Links pairs') : g.Links (pairs ++ pairs') := fun q hq =>
  (List.mem_append.1 hq).elim (h q) (h' q)

theorem Links.cons {q : Mark A × Mark A} {pairs : List (Mark A × Mark A)}
    (hq : g.Sole t q.1 q.2) (h : g.Links pairs) : g.Links (q :: pairs) := fun q' hq' => by
  rcases List.mem_cons.1 hq' with rfl | hq'
  · exact ⟨t, hq⟩
  · exact h q' hq'

theorem Keeps.leaves (h : Keeps S T g g') (hm : m ∉ S) (hs : ∀ t', g.source t' = some m ↔ t' = t)
    (t' : ℕ) : g'.source t' = some m ↔ t' = t := by
  rw [← hs]
  exact ⟨fun ht => (h.of_source hm (.inr ht)).1.symm.trans ht,
    fun ht => (h.of_source hm (.inl ht)).1.trans ht⟩

theorem Keeps.arrives (h : Keeps S T g g') (hm : m ∉ T) (hs : ∀ t', g.target t' = some m ↔ t' = t)
    (t' : ℕ) : g'.target t' = some m ↔ t' = t := by
  rw [← hs]
  exact ⟨fun ht => (h.of_target hm (.inr ht)).2.symm.trans ht,
    fun ht => (h.of_target hm (.inl ht)).2.trans ht⟩

theorem Keeps.sole (h : Keeps S T g g') (hm : m ∉ S) (hm' : m' ∉ T) (hsole : g.Sole t m m') :
    g'.Sole t m m' :=
  ⟨h.leaves hm hsole.1, h.arrives hm' hsole.2⟩

theorem Keeps.links (h : Keeps S T g g') {pairs : List (Mark A × Mark A)}
    (hpairs : ∀ q ∈ pairs, q.1 ∉ S ∧ q.2 ∉ T) (hlinks : g.Links pairs) : g'.Links pairs :=
  fun q hq => (hlinks q hq).imp fun _ => h.sole (hpairs q hq).1 (hpairs q hq).2

/-- The list of a node with one transition. -/
theorem Listed.leaving_eq (h : g.Listed) (ht : ∀ t', g.source t' = some m ↔ t' = t) :
    g.leaving m = [t] := by
  have hmem (t') : t' ∈ g.leaving m ↔ t' ∈ [t] := by
    rw [h.leaving, ht, List.mem_singleton]
  exact List.perm_singleton.1 ((List.perm_ext_iff_of_nodup (h.nodup_leaving m)
    (List.nodup_singleton t)).2 hmem)

theorem Listed.arriving_eq (h : g.Listed) (ht : ∀ t', g.target t' = some m ↔ t' = t) :
    g.arriving m = [t] := by
  have hmem (t') : t' ∈ g.arriving m ↔ t' ∈ [t] := by
    rw [h.arriving, ht, List.mem_singleton]
  exact List.perm_singleton.1 ((List.perm_ext_iff_of_nodup (h.nodup_arriving m)
    (List.nodup_singleton t)).2 hmem)

/-- The list of a node without transitions. -/
theorem Listed.leaving_nil (h : g.Listed) (ht : ∀ t, g.source t ≠ some m) : g.leaving m = [] :=
  List.eq_nil_iff_forall_not_mem.2 fun t htm => ht t ((h.leaving m t).1 htm)

theorem Listed.arriving_nil (h : g.Listed) (ht : ∀ t, g.target t ≠ some m) : g.arriving m = [] :=
  List.eq_nil_iff_forall_not_mem.2 fun t htm => ht t ((h.arriving m t).1 htm)

end Bpel.Graph

/-! ## Splices -/

namespace Bpel.Activities

open Bpel.Graph

variable {A : Type} {kind : A → Kind} {place : ℕ → ℕ} {g g' : Graph A} {a : A} {u v : ℕ}
  {y z : Mark A}

/-- Transition `v` is removed, and `u` leads to its end. -/
def Spliced (g g' : Graph A) (u v : ℕ) (z : Mark A) : Prop :=
  g'.Ends (update g.source v none) (update (update g.target v none) u (some z)) g.next

theorem Spliced.keeps (h : Spliced g g' u v z) (huv : u ≠ v) {x y e : Mark A}
    (hus : g.source u = some y) (hut : g.target u = some e) (hvs : g.source v = some x)
    (hvt : g.target v = some z) : Keeps {x, y} {e, z} g g' := by
  intro t
  rw [h.source, h.target]
  by_cases htv : t = v
  · subst htv
    rw [update_self, update_of_ne huv.symm, update_self, hvs, hvt]
    exact .inr ⟨by simp, by simp⟩
  · rw [update_of_ne htv]
    by_cases htu : t = u
    · subst htu
      rw [update_self, hus, hut]
      exact .inr ⟨by simp, fun m hm => hm.imp (fun h => (Option.some.inj h).symm)
        fun h => (Option.some.inj h).symm⟩
    · rw [update_of_ne htu, update_of_ne htv]
      exact .inl ⟨rfl, rfl⟩

theorem Spliced.sole (h : Spliced g g' u v z) (huv : u ≠ v)
    (hu : ∀ t, g.source t = some y ↔ t = u) (hv : ∀ t, g.target t = some z ↔ t = v) :
    g'.Sole u y z := by
  refine ⟨fun t => ?_, fun t => ?_⟩
  · rw [h.source, update_apply]
    split
    · rename_i htv
      rw [htv]
      exact iff_of_false (fun hnone => nomatch hnone) huv.symm
    · exact hu t
  · rw [h.target, update_apply]
    split
    · rename_i htu
      exact iff_of_true rfl htu
    · rename_i htu
      rw [update_apply]
      split
      · exact iff_of_false (fun hnone => nomatch hnone) htu
      · rename_i htv
        exact iff_of_false (fun ht => htv ((hv t).1 ht)) htu

theorem Spliced.arriving (h : Spliced g g' u v z) {e : Mark A} (hez : e ≠ z) (t : ℕ) :
    g'.target t = some e ↔ g.target t = some e ∧ t ≠ u ∧ t ≠ v := by
  rw [h.target]
  by_cases htu : t = u
  · subst htu
    rw [update_self]
    exact iff_of_false (fun hz => hez (Option.some.inj hz).symm) fun hand => hand.2.1 rfl
  · rw [update_of_ne htu]
    by_cases htv : t = v
    · subst htv
      rw [update_self]
      exact iff_of_false (fun hz => nomatch hz) fun hand => hand.2.2 rfl
    · rw [update_of_ne htv]
      exact ⟨fun ht => ⟨ht, htu, htv⟩, fun hand => hand.1⟩

theorem Spliced.leaving (h : Spliced g g' u v z) (m : Mark A) (t : ℕ) :
    g'.source t = some m ↔ g.source t = some m ∧ t ≠ v := by
  rw [h.source]
  by_cases htv : t = v
  · subst htv
    rw [update_self]
    exact iff_of_false (fun hz => nomatch hz) fun hand => hand.2 rfl
  · rw [update_of_ne htv]
    exact (and_iff_left htv).symm

variable [DecidableEq A]

/-- The arriving transition of the activity gets the end of the leaving one, which is removed. -/
theorem removeSequenceTransitions_run (h : g.Consistent)
    (hv : g.defaultLeavingTransition (exit kind a) = some v)
    (hu : g.defaultArrivingTransition place (entry kind a) = some u) (huv : u ≠ v)
    (hz : g.target v = some z) :
    ∃ g', removeSequenceTransitions kind place a g = some g' ∧
      Spliced g g' u v z := by
  have hvmem : v ∈ g.leaving (exit kind a) := List.mem_of_mem_head? hv
  have humem : u ∈ g.arriving (entry kind a) := List.argmin_mem hu
  have hus : g.source u ≠ none := fun hnone => by
    have htarget := (h.arriving _ u).1 humem
    rw [(h.ends u).1 hnone] at htarget
    cases htarget
  unfold removeSequenceTransitions
  rw [hv, hu, Option.bind_eq_bind, Option.bind_some, Option.bind_some]
  dsimp only
  have hlisted₁ := h.toListed.removeArriving humem
  rw [removeArrivingTransition_of_mem humem] at hlisted₁ ⊢
  generalize hg₁ : ({ g with
    arriving := update g.arriving (entry kind a) ((g.arriving (entry kind a)).erase u)
    target := update g.target u none } : Graph A) = g₁ at hlisted₁ ⊢
  have hvmem₁ : v ∈ g₁.leaving (exit kind a) := by
    rw [← hg₁]
    exact hvmem
  have hlisted₂ := hlisted₁.removeLeaving hvmem₁
  rw [removeLeavingTransition_of_mem hvmem₁] at hlisted₂ ⊢
  generalize hg₂ : ({ g₁ with
    leaving := update g₁.leaving (exit kind a) ((g₁.leaving (exit kind a)).erase v)
    source := update g₁.source v none } : Graph A) = g₂ at hlisted₂ ⊢
  have hz₂ : g₂.target v = some z := by
    rw [← hg₂, ← hg₁]
    exact (update_of_ne huv.symm _ _).trans hz
  have hvmem₂ : v ∈ g₂.arriving z := (hlisted₂.arriving z v).2 hz₂
  have hlisted₃ := hlisted₂.removeArriving hvmem₂
  rw [hz₂, Option.bind_eq_bind, Option.bind_some]
  rw [removeArrivingTransition_of_mem hvmem₂] at hlisted₃ ⊢
  generalize hg₃ : ({ g₂ with
    arriving := update g₂.arriving z ((g₂.arriving z).erase v)
    target := update g₂.target v none } : Graph A) = g₃ at hlisted₃ ⊢
  have hu₃ : g₃.target u = none := by
    rw [← hg₃, ← hg₂, ← hg₁]
    exact (update_of_ne huv _ _).trans (update_self _ _ _)
  obtain ⟨hlisted₄, -⟩ := hlisted₃.addArriving (m := z) hu₃
  have hsource : (g₃.addArrivingTransition u z).source = update g.source v none := by
    change g₃.source = _
    rw [← hg₃, ← hg₂]
    change update g₁.source v none = _
    rw [← hg₁]
  have htarget : (g₃.addArrivingTransition u z).target =
      update (update g.target v none) u (some z) := by
    change update g₃.target u (some z) = _
    rw [← hg₃, ← hg₂, ← hg₁]
    change update (update (update g.target u none) v none) u (some z) = _
    rw [update_comm huv.symm, update_idem, update_comm huv]
  have hnext : (g₃.addArrivingTransition u z).next = g.next := by
    change g₃.next = _
    rw [← hg₃, ← hg₂]
    change g₁.next = _
    rw [← hg₁]
  refine ⟨_, rfl, ⟨hlisted₄, fun t => ?_, fun t ht => ?_⟩, hsource, htarget, hnext⟩
  · rw [hsource, htarget]
    by_cases htu : t = u
    · subst htu
      rw [update_of_ne huv, update_self]
      exact iff_of_false hus (Option.some_ne_none z)
    · rw [update_of_ne htu]
      by_cases htv : t = v
      · subst htv
        rw [update_self, update_self]
      · rw [update_of_ne htv, update_of_ne htv]
        exact h.ends t
  · rw [hnext] at ht
    rw [hsource, update_apply]
    split
    · rfl
    · exact h.fresh t ht

/-- Transition `w` leads to `e`, and a new one from `x` to its former end. -/
def Inserted (g g' : Graph A) (w : ℕ) (e x z : Mark A) : Prop :=
  g'.Ends (update g.source g.next (some x)) (update (update g.target w (some e)) g.next (some z))
    (g.next + 1)

omit [DecidableEq A] in
theorem Inserted.keeps {w : ℕ} {e x : Mark A} (h : Inserted g g' w e x z) (hg : g.Consistent)
    (hs : g.source w = some y) (ht : g.target w = some z) : Keeps {y, x} {z, e} g g' := by
  intro t
  rw [h.source, h.target]
  by_cases htn : t = g.next
  · subst htn
    rw [update_self, update_self, hg.fresh _ (Nat.le_refl _), hg.fresh_target (Nat.le_refl _)]
    exact .inr ⟨by simp, by simp⟩
  · rw [update_of_ne htn, update_of_ne htn]
    by_cases htw : t = w
    · subst htw
      rw [update_self, hs, ht]
      exact .inr ⟨by simp, fun m hm => hm.imp (fun h => (Option.some.inj h).symm)
        fun h => (Option.some.inj h).symm⟩
    · rw [update_of_ne htw]
      exact .inl ⟨rfl, rfl⟩

omit [DecidableEq A] in
theorem Inserted.sole {w : ℕ} {e x : Mark A} (h : Inserted g g' w e x z) (hg : g.Consistent)
    (hw : g.Sole w y z) (hyx : y ≠ x) (hez : e ≠ z) (hx : ∀ t, g.source t ≠ some x)
    (he : ∀ t, g.target t ≠ some e) : g'.Sole w y e ∧ g'.Sole g.next x z := by
  have hwn : w ≠ g.next := fun heq => by
    have hs := (hw.1 w).2 rfl
    rw [heq, hg.fresh _ (Nat.le_refl _)] at hs
    cases hs
  refine ⟨⟨fun t => ?_, fun t => ?_⟩, fun t => ?_, fun t => ?_⟩
  · rw [h.source, update_apply]
    split
    · rename_i htn
      exact iff_of_false (fun hs => hyx (Option.some.inj hs).symm) fun htw => hwn (htw ▸ htn)
    · exact hw.1 t
  · rw [h.target, update_apply]
    split
    · rename_i htn
      exact iff_of_false (fun hs => hez (Option.some.inj hs).symm) fun htw => hwn (htw ▸ htn)
    · rw [update_apply]
      split
      · rename_i htw
        exact iff_of_true rfl htw
      · rename_i htw
        exact iff_of_false (he t) htw
  · rw [h.source, update_apply]
    split
    · rename_i htn
      exact iff_of_true rfl htn
    · rename_i htn
      exact iff_of_false (hx t) htn
  · rw [h.target, update_apply]
    split
    · rename_i htn
      exact iff_of_true rfl htn
    · rename_i htn
      rw [update_apply]
      split
      · exact iff_of_false (fun hs => hez (Option.some.inj hs)) htn
      · rename_i htw
        exact iff_of_false (fun hs => htw ((hw.2 t).1 hs)) htn

/-- A transition gets another end. -/
theorem inserted_connect {w : ℕ} (h : g.Consistent) (hw : g.target w = some z) (e x : Mark A) :
    Inserted g (((g.removeArrivingTransition w z).addArrivingTransition w e).connect x z) w e x z := by
  have hwmem : w ∈ g.arriving z := (h.arriving z w).2 hw
  have hlisted := h.toListed.removeArriving hwmem
  rw [removeArrivingTransition_of_mem hwmem] at hlisted ⊢
  obtain ⟨hlisted', -⟩ := hlisted.addArriving (m := e) (t := w) (update_self _ _ _)
  generalize hg₁ : addArrivingTransition _ w e = g₁ at hlisted' ⊢
  have hsource : g₁.source = g.source := by
    rw [← hg₁]
    rfl
  have htarget : g₁.target = update g.target w (some e) := by
    rw [← hg₁]
    exact update_idem _ _ _
  have hnext : g₁.next = g.next := by
    rw [← hg₁]
    rfl
  have hconsistent : g₁.Consistent := by
    refine ⟨hlisted', fun t => ?_, fun t ht => ?_⟩
    · rw [hsource, htarget, update_apply]
      split
      · rename_i htw
        rw [htw, h.ends, hw]
        exact iff_of_false (Option.some_ne_none z) (Option.some_ne_none e)
      · exact h.ends t
    · rw [hsource]
      exact h.fresh t (hnext ▸ ht)
  obtain ⟨hends, -⟩ := hconsistent.connect x z
  rw [hsource, htarget, hnext] at hends
  exact hends

/-- The transitions of the last node and of the end are removed, and there are new ones: to the
    activity, and from it. -/
structure Attached (g g' : Graph A) (m e x m' : Mark A) : Prop where
  consistent : g'.Consistent
  next : g'.next = g.next + 2
  first : g'.source g.next = some m ∧ g'.target g.next = some e
  second : g'.source (g.next + 1) = some x ∧ g'.target (g.next + 1) = some m'
  gone : ∀ t < g.next, g.source t = some m ∨ g.target t = some m' → g'.source t = none
  kept : ∀ t < g.next, g.source t ≠ some m → g.target t ≠ some m' →
    g'.source t = g.source t ∧ g'.target t = g.target t
  leaving : g'.leaving x = (if m = x then [g.next] else g.leaving x) ++ [g.next + 1]
  arriving : g'.arriving e = g.arriving e ++ [g.next]

/-- The last node and the end are disconnected. -/
theorem disconnect_last {m m' : Mark A} (h : g.Consistent)
    (hlinked : ((∀ t, g.source t ≠ some m) ∧ ∀ t, g.target t ≠ some m') ∨ ∃ w, g.Sole w m m') :
    (g.disconnect m m').Consistent ∧ (g.disconnect m m').next = g.next ∧
      (∀ t, g.source t = some m ∨ g.target t = some m' → (g.disconnect m m').source t = none) ∧
      (∀ t, g.source t ≠ some m → g.target t ≠ some m' →
        (g.disconnect m m').source t = g.source t ∧ (g.disconnect m m').target t = g.target t) ∧
      (g.disconnect m m').leaving = update g.leaving m [] ∧
      ∀ n ≠ m', (g.disconnect m m').arriving n = g.arriving n := by
  rcases hlinked with ⟨hs, ht⟩ | ⟨w, hw⟩
  · rw [h.disconnect_of_none fun t hst => absurd hst (hs t)]
    refine ⟨h, rfl, fun t hst => ?_, fun t _ _ => ⟨rfl, rfl⟩, ?_, fun _ _ => rfl⟩
    · exact absurd hst (not_or.2 ⟨hs t, ht t⟩)
    · rw [← h.leaving_nil hs, update_eq_self]
  · obtain ⟨hends, hleaving, harriving⟩ := h.disconnect ((hw.1 w).2 rfl) ((hw.2 w).2 rfl)
      fun t ht _ => (hw.1 t).1 ht
    refine ⟨hends.consistent, hends.next, fun t ht => ?_, fun t hs ht => ?_, ?_, fun n hn => ?_⟩
    · rw [hw.1, hw.2, or_self] at ht
      rw [ht, hends.source, update_self]
    · rw [Ne, hw.1] at hs
      rw [hends.source, hends.target]
      exact ⟨update_of_ne hs _ _, update_of_ne hs _ _⟩
    · rw [hleaving, h.leaving_eq hw.1, List.erase_cons_head]
    · rw [harriving, update_of_ne hn]

theorem attached_connect {m e x m' : Mark A} (h : g.Consistent) (hem : e ≠ m')
    (hlinked : ((∀ t, g.source t ≠ some m) ∧ ∀ t, g.target t ≠ some m') ∨ ∃ w, g.Sole w m m') :
    Attached g (((g.disconnect m m').connect m e).connect x m') m e x m' := by
  obtain ⟨hconsistent, hnext, hgone, hkept, hleaving, harriving⟩ := disconnect_last h hlinked
  generalize g.disconnect m m' = g₀ at hconsistent hnext hgone hkept hleaving harriving ⊢
  obtain ⟨⟨hconsistent₁, hsource₁, htarget₁, hnext₁⟩, hleaving₁, harriving₁⟩ :=
    hconsistent.connect m e
  obtain ⟨⟨hconsistent₂, hsource₂, htarget₂, hnext₂⟩, hleaving₂, harriving₂⟩ :=
    hconsistent₁.connect x m'
  rw [hsource₁, hnext₁, hnext] at hsource₂
  rw [htarget₁, hnext₁, hnext] at htarget₂
  rw [hnext₁, hnext] at hnext₂
  rw [hleaving₁, hnext₁, hnext, hleaving] at hleaving₂
  rw [harriving₁, hnext₁, hnext] at harriving₂
  have hne : g.next ≠ g.next + 1 := by omega
  refine ⟨hconsistent₂, hnext₂, ?_, ?_, fun t ht hst => ?_, fun t ht hs he => ?_, ?_, ?_⟩
  · rw [hsource₂, htarget₂, update_of_ne hne, update_of_ne hne, update_self, update_self]
    exact ⟨rfl, rfl⟩
  · rw [hsource₂, htarget₂, update_self, update_self]
    exact ⟨rfl, rfl⟩
  · rw [hsource₂, update_of_ne (by omega), update_of_ne (by omega), hgone t hst]
  · rw [hsource₂, htarget₂, update_of_ne (by omega), update_of_ne (by omega),
      update_of_ne (by omega), update_of_ne (by omega)]
    exact hkept t hs he
  · rw [hleaving₂, update_self]
    split
    · rename_i hmx
      rw [hmx, update_self, update_self, List.nil_append]
    · rename_i hmx
      rw [update_of_ne (Ne.symm hmx), update_of_ne (Ne.symm hmx)]
  · rw [harriving₂, update_of_ne hem, update_self, harriving e hem]

theorem Attached.old {m e x m' : Mark A} (h : Attached g g' m e x m') (hg : g.Consistent) {t : ℕ}
    (htn : g.next ≤ t) (ht₁ : t ≠ g.next) (ht₂ : t ≠ g.next + 1) :
    (g.source t = none ∧ g.target t = none) ∧ g'.source t = none ∧ g'.target t = none := by
  have htn' : g'.next ≤ t := by
    rw [h.next]
    omega
  exact ⟨⟨hg.fresh t htn, hg.fresh_target htn⟩, h.consistent.fresh t htn',
    h.consistent.fresh_target htn'⟩

theorem Attached.keeps {m e x m' : Mark A} (h : Attached g g' m e x m') (hg : g.Consistent)
    (hlinked : ((∀ t, g.source t ≠ some m) ∧ ∀ t, g.target t ≠ some m') ∨ ∃ w, g.Sole w m m') :
    Keeps {m, x} {e, m'} g g' := by
  intro t
  rcases Nat.lt_or_ge t g.next with htn | htn
  · by_cases hgone : g.source t = some m ∨ g.target t = some m'
    · have hsource := h.gone t htn hgone
      have htarget := (h.consistent.ends t).1 hsource
      have hends : g.source t = some m ∧ g.target t = some m' := by
        rcases hlinked with ⟨hs, ht⟩ | ⟨w, hw⟩
        · exact absurd hgone (not_or.2 ⟨hs t, ht t⟩)
        · rw [hw.1, hw.2, or_self] at hgone
          exact ⟨(hw.1 t).2 hgone, (hw.2 t).2 hgone⟩
      rw [hsource, htarget, hends.1, hends.2]
      exact .inr ⟨by simp, by simp⟩
    · rw [not_or] at hgone
      exact .inl (h.kept t htn hgone.1 hgone.2)
  · by_cases ht₁ : t = g.next
    · rw [ht₁, h.first.1, h.first.2, hg.fresh _ (Nat.le_refl _), hg.fresh_target (Nat.le_refl _)]
      exact .inr ⟨by simp, by simp⟩
    · by_cases ht₂ : t = g.next + 1
      · rw [ht₂, h.second.1, h.second.2, hg.fresh _ (Nat.le_succ _),
          hg.fresh_target (Nat.le_succ _)]
        exact .inr ⟨by simp, by simp⟩
      · obtain ⟨⟨hs, ht⟩, hs', ht'⟩ := h.old hg htn ht₁ ht₂
        rw [hs, ht, hs', ht']
        exact .inl ⟨rfl, rfl⟩

/-- What leaves the last node and what arrives at the end are the new transitions. -/
theorem Attached.leaves {m e x m' : Mark A} (h : Attached g g' m e x m') (hg : g.Consistent)
    (hmx : m ≠ x) (t : ℕ) : g'.source t = some m ↔ t = g.next := by
  refine ⟨fun hs => ?_, fun ht => ht ▸ h.first.1⟩
  by_contra hne
  rcases Nat.lt_or_ge t g.next with htn | htn
  · by_cases hgone : g.source t = some m ∨ g.target t = some m'
    · rw [h.gone t htn hgone] at hs
      cases hs
    · rw [not_or] at hgone
      rw [(h.kept t htn hgone.1 hgone.2).1] at hs
      exact hgone.1 hs
  · by_cases ht₂ : t = g.next + 1
    · rw [ht₂, h.second.1] at hs
      exact hmx (Option.some.inj hs).symm
    · rw [(h.old hg htn hne ht₂).2.1] at hs
      cases hs

theorem Attached.arrives {m e x m' : Mark A} (h : Attached g g' m e x m') (hg : g.Consistent)
    (hem : e ≠ m') (t : ℕ) : g'.target t = some m' ↔ t = g.next + 1 := by
  refine ⟨fun ht => ?_, fun ht => ht ▸ h.second.2⟩
  by_contra hne
  rcases Nat.lt_or_ge t g.next with htn | htn
  · by_cases hgone : g.source t = some m ∨ g.target t = some m'
    · rw [(h.consistent.ends t).1 (h.gone t htn hgone)] at ht
      cases ht
    · rw [not_or] at hgone
      rw [(h.kept t htn hgone.1 hgone.2).2] at ht
      exact hgone.2 ht
  · by_cases ht₁ : t = g.next
    · rw [ht₁, h.first.2] at ht
      exact hem (Option.some.inj ht)
    · rw [(h.old hg htn ht₁ hne).2.2] at ht
      cases ht

/-- The other transitions are from before. -/
theorem Attached.before {m e x m' : Mark A} (h : Attached g g' m e x m') (hg : g.Consistent) {t : ℕ}
    (ht₁ : t ≠ g.next) (ht₂ : t ≠ g.next + 1) (hs : g'.source t ≠ none) :
    g'.source t = g.source t ∧ g'.target t = g.target t := by
  rcases Nat.lt_or_ge t g.next with htn | htn
  · by_cases hgone : g.source t = some m ∨ g.target t = some m'
    · exact absurd (h.gone t htn hgone) hs
    · rw [not_or] at hgone
      exact h.kept t htn hgone.1 hgone.2
  · exact absurd (h.old hg htn ht₁ ht₂).2.1 hs

/-- The activity has its former transitions, and the new ones. -/
theorem Attached.arriving_iff {m e x m' : Mark A} (h : Attached g g' m e x m') (hg : g.Consistent)
    (t : ℕ) : g'.target t = some e ↔ g.target t = some e ∨ t = g.next := by
  rw [← h.consistent.arriving, h.arriving, List.mem_append, List.mem_singleton, hg.arriving]

theorem Attached.leaving_iff {m e x m' : Mark A} (h : Attached g g' m e x m') (hg : g.Consistent)
    (hmx : m ≠ x) (t : ℕ) : g'.source t = some x ↔ g.source t = some x ∨ t = g.next + 1 := by
  rw [← h.consistent.leaving, h.leaving, if_neg hmx, List.mem_append, List.mem_singleton,
    hg.leaving]

end Bpel.Activities

end Jbpm
