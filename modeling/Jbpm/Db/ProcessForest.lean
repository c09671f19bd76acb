/-
  The forest of process instances in a store, and stores without some of its trees.

  * `SubOf`, `Below`: who started whom; `WellFormed`: the stores that running processes
    leave;
  * `removeAll`: the store without some process instances and all that is theirs;
    `clear`: the store without some references between process instances;
  * `closed_removeAll_iff`: what dangles when a tree is gone.
-/
import Mathlib.Data.List.Nodup
import Mathlib.Logic.Relation
import Jbpm.Db.GraphSession

namespace Jbpm

namespace Db

namespace Store

variable {s : Store} {p q q' r x y : ℕ}

/-! ## Trees of process instances -/

/-- `q` was started by a token of `r`. -/
def SubOf (s : Store) (q r : ℕ) : Prop :=
  ∃ i ∈ s.processInstances, i.id = q ∧ ∃ t ∈ i.superProcessToken, t.processInstance = r

/-- `q` is `p`, or it is a sub-process instance below `p`. -/
abbrev Below (s : Store) : ℕ → ℕ → Prop :=
  Relation.ReflTransGen s.SubOf

/-- No reference dangles. -/
structure Closed (s : Store) : Prop where
  superProcessToken : ∀ i ∈ s.processInstances, ∀ t ∈ i.superProcessToken,
    t ∈ s.tokens.map (·.id)
  token : ∀ u ∈ s.tokens, u.id.processInstance ∈ s.processInstances.map (·.id)
  parent : ∀ u ∈ s.tokens, ∀ t ∈ u.parent, t ∈ s.tokens.map (·.id)
  subProcessInstance : ∀ u ∈ s.tokens, ∀ q ∈ u.subProcessInstance,
    q ∈ s.processInstances.map (·.id)
  taskInstance : ∀ t ∈ s.taskInstances, t.processInstance ∈ s.processInstances.map (·.id) ∧
    ∀ u ∈ t.token, u ∈ s.tokens.map (·.id)
  job : ∀ j ∈ s.jobs, (∀ q ∈ j.processInstance, q ∈ s.processInstances.map (·.id)) ∧
    (∀ u ∈ j.token, u ∈ s.tokens.map (·.id)) ∧
    ∀ t ∈ j.taskInstance, t ∈ s.taskInstances.map (·.id)
  log : ∀ l ∈ s.logs, l.token ∈ s.tokens.map (·.id) ∧
    (∀ u ∈ l.child, u ∈ s.tokens.map (·.id)) ∧
    (∀ t ∈ l.taskInstance, t ∈ s.taskInstances.map (·.id)) ∧
    ∀ q ∈ l.subProcessInstance, q ∈ s.processInstances.map (·.id)

/-- Moreover, process instances form a forest, what belongs to one of them refers to
    things of the same one, and the instance that a token or a log refers to as its
    sub-process instance was started by that token. -/
structure WellFormed (s : Store) : Prop extends Closed s where
  nodup : (s.processInstances.map (·.id)).Nodup
  acyclic : ∀ q r, s.SubOf q r → ¬ s.Below r q
  parent_own : ∀ u ∈ s.tokens, ∀ t ∈ u.parent, t.processInstance = u.id.processInstance
  task_own : ∀ t ∈ s.taskInstances, ∀ u ∈ t.token, u.processInstance = t.processInstance
  job_own : ∀ j ∈ s.jobs, (∀ u ∈ j.token, j.processInstance = some u.processInstance) ∧
    ∀ k ∈ j.taskInstance, ∀ t ∈ s.taskInstances, t.id = k →
      j.processInstance = some t.processInstance
  log_own : ∀ l ∈ s.logs, (∀ u ∈ l.child, u.processInstance = l.token.processInstance) ∧
    ∀ k ∈ l.taskInstance, ∀ t ∈ s.taskInstances, t.id = k →
      t.processInstance = l.token.processInstance
  sub_own : ∀ u ∈ s.tokens, ∀ q ∈ u.subProcessInstance, s.SubOf q u.id.processInstance
  log_sub_own : ∀ l ∈ s.logs, ∀ q ∈ l.subProcessInstance, s.SubOf q l.token.processInstance

namespace WellFormed

theorem subOf_unique (hs : s.WellFormed) : Relator.RightUnique s.SubOf := by
  rintro q r r' ⟨i, hi, hid, t, ht, rfl⟩ ⟨i', hi', hid', t', ht', rfl⟩
  obtain rfl := List.inj_on_of_nodup_map hs.nodup hi hi' (hid.trans hid'.symm)
  rw [Option.mem_unique ht ht']

/-- The trees of two sub-process instances of the same instance are disjoint. -/
theorem below_disjoint (hs : s.WellFormed) (hq : s.SubOf q p) (hq' : s.SubOf q' p)
    (hx : s.Below x q) (hx' : s.Below x q') : q = q' := by
  have below_eq : ∀ {a b}, s.SubOf a p → s.SubOf b p → s.Below a b → a = b := by
    intro a b ha hb hab
    rcases hab.cases_head with h | ⟨z, haz, hzb⟩
    · exact h
    · rw [hs.subOf_unique haz ha] at hzb
      exact absurd hzb (hs.acyclic b p hb)
  rcases Relation.ReflTransGen.total_of_right_unique hs.subOf_unique hx hx' with h | h
  · exact below_eq hq hq' h
  · exact (below_eq hq' hq h).symm

theorem tokens_ne_nil_of_subOf (hs : s.WellFormed) (h : s.SubOf q r) :
    s.findTokensForProcessInstance r ≠ [] := by
  obtain ⟨i, hi, -, t, ht, rfl⟩ := h
  obtain ⟨u, hu, rfl⟩ := List.mem_map.1 (hs.superProcessToken i hi t ht)
  refine List.ne_nil_of_mem (a := u.id) ?_
  exact List.mem_map.2 ⟨u, List.mem_filter.2 ⟨hu, beq_self_eq_true _⟩, rfl⟩

end WellFormed

theorem below_iff : s.Below x p ↔ x = p ∨ ∃ q, s.SubOf q p ∧ s.Below x q := by
  rw [Below, Relation.ReflTransGen.cases_tail_iff]
  exact or_congr eq_comm (exists_congr fun q => and_comm)

theorem mem_findSubProcessInstances : x ∈ s.findSubProcessInstances p ↔ s.SubOf x p := by
  simp only [findSubProcessInstances, List.mem_map, List.mem_filter, Option.any_eq_true,
    beq_iff_eq, SubOf, Option.mem_def]
  constructor
  · rintro ⟨i, ⟨hi, t, ht, hp⟩, rfl⟩
    exact ⟨i, hi, rfl, t, ht, hp⟩
  · rintro ⟨i, hi, rfl, t, ht, hp⟩
    exact ⟨i, ⟨hi, t, ht, hp⟩, rfl⟩

theorem WellFormed.nodup_findSubProcessInstances (hs : s.WellFormed) (p : ℕ) :
    (s.findSubProcessInstances p).Nodup :=
  hs.nodup.sublist (List.filter_sublist.map _)

theorem mem_findTokensForProcessInstance {t : TokenId} :
    t ∈ s.findTokensForProcessInstance p ↔ t ∈ s.tokens.map (·.id) ∧ t.processInstance = p := by
  simp only [findTokensForProcessInstance, List.mem_map, List.mem_filter, beq_iff_eq]
  constructor
  · rintro ⟨u, ⟨hu, hp⟩, rfl⟩
    exact ⟨⟨u, hu, rfl⟩, hp⟩
  · rintro ⟨⟨u, hu, rfl⟩, hp⟩
    exact ⟨u, ⟨hu, hp⟩, rfl⟩

/-! ## Stores during a deletion -/

/-- The store without process instances `R`, and all that is theirs. -/
def removeAll (R : List ℕ) (s : Store) : Store where
  processInstances := s.processInstances.filter (·.id ∉ R)
  tokens := s.tokens.filter (·.id.processInstance ∉ R)
  taskInstances := s.taskInstances.filter (·.processInstance ∉ R)
  jobs := s.jobs.filter fun j => ∀ r ∈ R, j.processInstance ≠ some r
  logs := s.logs.filter (·.token.processInstance ∉ R)
  deleted := s.deleted ++ R

/-- The store without the super process tokens of `C`, and the sub-process instances of
    the tokens `T`. -/
def clear (C : List ℕ) (T : List TokenId) (s : Store) : Store :=
  { s with
    processInstances := s.processInstances.map fun i =>
      if i.id ∈ C then { i with superProcessToken := none } else i
    tokens := s.tokens.map fun u => if u.id ∈ T then { u with subProcessInstance := none } else u }

variable {C R ids : List ℕ} {T : List TokenId} {t : TokenId}

theorem clearSuperProcessToken_clear :
    (s.clear C T).clearSuperProcessToken q = s.clear (q :: C) T := by
  simp only [clearSuperProcessToken, clear, List.map_map, Store.mk.injEq, and_true]
  refine List.map_congr_left fun i _ => ?_
  by_cases hq : i.id = q
  · subst hq
    by_cases hC : i.id ∈ C <;> simp [hC]
  · by_cases hC : i.id ∈ C <;> simp [hC, hq]

theorem clearSubProcessInstance_clear :
    (s.clear C T).clearSubProcessInstance t = s.clear C (t :: T) := by
  simp only [clearSubProcessInstance, clear, List.map_map, Store.mk.injEq, and_true, true_and]
  refine List.map_congr_left fun u _ => ?_
  by_cases ht : u.id = t
  · subst ht
    by_cases hT : u.id ∈ T <;> simp [hT]
  · by_cases hT : u.id ∈ T <;> simp [hT, ht]

theorem findTokensForProcessInstance_clear (hq : q ∉ R) :
    ((s.removeAll R).clear C T).findTokensForProcessInstance q =
      s.findTokensForProcessInstance q := by
  have hid : ∀ u : Token, (if u.id ∈ T then { u with subProcessInstance := none } else u).id =
      u.id := by
    intro u
    split <;> rfl
  simp only [findTokensForProcessInstance, clear, removeAll, List.filter_map, List.map_map,
    Function.comp_def, hid, List.filter_filter]
  refine congrArg _ (List.filter_congr fun u _ => ?_)
  by_cases hu : u.id.processInstance = q <;> simp [hu, hq]

/-- Of the sub-process instances of `q`, those are found that were neither deleted nor
    cut off. -/
theorem mem_findSubProcessInstances_clear :
    x ∈ ((s.removeAll R).clear C T).findSubProcessInstances q ↔
      s.SubOf x q ∧ x ∉ R ∧ x ∉ C := by
  rw [mem_findSubProcessInstances]
  constructor
  · rintro ⟨i', hi', rfl, t, ht, rfl⟩
    obtain ⟨i, hi, rfl⟩ := List.mem_map.1 hi'
    obtain ⟨hi, hR⟩ := List.mem_filter.1 hi
    by_cases hC : i.id ∈ C
    · rw [if_pos hC] at ht
      cases ht
    · rw [if_neg hC] at ht ⊢
      exact ⟨⟨i, hi, rfl, t, ht, rfl⟩, of_decide_eq_true hR, hC⟩
  · rintro ⟨⟨i, hi, rfl, t, ht, rfl⟩, hR, hC⟩
    refine ⟨i, List.mem_map.2 ⟨i, List.mem_filter.2 ⟨hi, decide_eq_true hR⟩, if_neg hC⟩, rfl,
      t, ht, rfl⟩

theorem findSubProcessInstances_clear (hq : ∀ x, s.SubOf x q → x ∉ R ∧ x ∉ C) :
    ((s.removeAll R).clear C T).findSubProcessInstances q = s.findSubProcessInstances q := by
  have hid : ∀ i : ProcessInstance,
      (if i.id ∈ C then { i with superProcessToken := none } else i).id = i.id := by
    intro i
    split <;> rfl
  simp only [findSubProcessInstances, clear, removeAll, List.filter_map, List.map_map,
    Function.comp_def, hid, List.filter_filter]
  refine congrArg _ (List.filter_congr fun i hi => ?_)
  by_cases hsub : i.superProcessToken.any (·.processInstance == q) = true
  · obtain ⟨t, ht, htq⟩ := (Option.any_eq_true _ _).1 hsub
    have := hq i.id ⟨i, hi, rfl, t, ht, beq_iff_eq.1 htq⟩
    simp [this.1, this.2]
  · by_cases hC : i.id ∈ C <;> simp [hC, hsub]

theorem findSubProcessInstances_clear_eq_nil (hq : ∀ x, s.SubOf x q → x ∈ R) :
    ((s.removeAll R).clear C T).findSubProcessInstances q = [] := by
  refine List.eq_nil_iff_forall_not_mem.2 fun x hx => ?_
  obtain ⟨hsub, hR, -⟩ := mem_findSubProcessInstances_clear.1 hx
  exact hR (hq x hsub)

theorem processInstance_of_mem_children (hs : s.WellFormed) {u : TokenId}
    (hu : u ∈ ((s.removeAll R).clear C T).children t) : u.processInstance = t.processInstance := by
  obtain ⟨v, hv, rfl⟩ := List.mem_map.1 hu
  obtain ⟨hv, hp⟩ := List.mem_filter.1 hv
  obtain ⟨w, hw, rfl⟩ := List.mem_map.1 hv
  have hw := hs.parent_own w (List.mem_filter.1 hw).1 t
  by_cases hT : w.id ∈ T
  · rw [if_pos hT] at hp ⊢
    exact (hw (beq_iff_eq.1 hp)).symm
  · rw [if_neg hT] at hp ⊢
    exact (hw (beq_iff_eq.1 hp)).symm

/-- Deleting the rows of `q` itself. -/
theorem deleteCascading_clear (hs : s.WellFormed) :
    ((((s.removeAll R).clear C T).deleteJobsForProcessInstance q).deleteLogs
      (s.findTokensForProcessInstance q)).deleteCascading q =
      (s.removeAll (R ++ [q])).clear C T := by
  have hi : ∀ i : ProcessInstance,
      (if i.id ∈ C then { i with superProcessToken := none } else i).id = i.id := by
    intro i
    split <;> rfl
  have hu : ∀ u : Token, (if u.id ∈ T then { u with subProcessInstance := none } else u).id =
      u.id := by
    intro u
    split <;> rfl
  simp only [deleteCascading, deleteLogs, deleteJobsForProcessInstance, clear, removeAll,
    List.filter_map, Function.comp_def, hi, hu, List.filter_filter, Store.mk.injEq,
    List.append_assoc, and_true]
  refine ⟨congrArg _ (List.filter_congr fun i _ => ?_),
    congrArg _ (List.filter_congr fun u _ => ?_), List.filter_congr fun t _ => ?_,
    List.filter_congr fun j _ => ?_, List.filter_congr fun l hl => ?_⟩
  · by_cases h : i.id = q <;> simp [h]
  · by_cases h : u.id.processInstance = q <;> simp [h]
  · by_cases h : t.processInstance = q <;> simp [h]
  · by_cases h : j.processInstance = some q <;> simp [h, or_imp, forall_and]
  · have hl := mem_findTokensForProcessInstance (p := q).trans (and_iff_right (hs.log l hl).1)
    by_cases h : l.token.processInstance = q <;> simp [h, hl]

theorem any_subProcessInstance_clear :
    (((s.removeAll R).clear C T).tokens.any fun u => u.subProcessInstance == some q) = true ↔
      ∃ u ∈ s.tokens, u.subProcessInstance = some q ∧ u.id.processInstance ∉ R ∧ u.id ∉ T := by
  simp only [List.any_eq_true, clear, removeAll, List.mem_map, List.mem_filter,
    decide_eq_true_eq, beq_iff_eq]
  constructor
  · rintro ⟨_, ⟨u, ⟨hu, hR⟩, rfl⟩, hq⟩
    by_cases hT : u.id ∈ T
    · rw [if_pos hT] at hq
      cases hq
    · rw [if_neg hT] at hq
      exact ⟨u, hu, hq, hR, hT⟩
  · rintro ⟨u, hu, hq, hR, hT⟩
    exact ⟨_, ⟨u, ⟨hu, hR⟩, rfl⟩, by rw [if_neg hT, hq]⟩

theorem clear_removeAll (hC : ∀ x ∈ C, x ∈ R) (hT : ∀ t ∈ T, t.processInstance ∈ R) :
    (s.removeAll R).clear C T = s.removeAll R := by
  simp only [clear, removeAll, Store.mk.injEq, and_true]
  constructor
  · refine (List.map_congr_left fun i hi => if_neg fun h => ?_).trans (List.map_id' _)
    exact of_decide_eq_true (List.mem_filter.1 hi).2 (hC _ h)
  · refine (List.map_congr_left fun u hu => if_neg fun h => ?_).trans (List.map_id' _)
    exact of_decide_eq_true (List.mem_filter.1 hu).2 (hT _ h)

theorem removeAll_nil (s : Store) : (s.removeAll []).clear [] [] = s := by
  rw [clear_removeAll (by simp) (by simp)]
  simp [removeAll]

/-- Without the tree of `p`, nothing dangles but references to `p` itself from above. -/
theorem closed_removeAll_iff (hs : s.WellFormed) (hids : ∀ q, q ∈ ids ↔ s.Below q p) :
    (s.removeAll ids).Closed ↔ (∀ u ∈ s.tokens, u.subProcessInstance ≠ some p) ∧
      ∀ l ∈ s.logs, l.subProcessInstance ≠ some p := by
  have hp : p ∉ (s.removeAll ids).processInstances.map (·.id) := by
    rintro h
    obtain ⟨i, hi, rfl⟩ := List.mem_map.1 h
    exact of_decide_eq_true (List.mem_filter.1 hi).2 ((hids _).2 .refl)
  -- what refers to a sub-process instance stays if that stays, or if that is `p`
  have hup : ∀ {q r}, s.SubOf q r → q ∉ ids → r ∉ ids :=
    fun hq h hr => h ((hids _).2 (((hids _).1 hr).head hq))
  have habove : ∀ {r}, s.SubOf p r → r ∉ ids :=
    fun hq hr => hs.acyclic p _ hq ((hids _).1 hr)
  have hdown : ∀ {q r}, s.SubOf q r → r ∉ ids → q ≠ p → q ∉ ids := by
    intro q r hq hr hne h
    obtain ⟨q', hq', hb⟩ := (below_iff.1 ((hids q).1 h)).resolve_left hne
    rcases hb.cases_head with rfl | ⟨z, hz, hzb⟩
    · exact hr ((hids r).2 (hs.subOf_unique hq hq' ▸ .refl))
    · exact hr ((hids r).2 (hs.subOf_unique hz hq ▸ hzb.tail hq'))
  have mem_ids : ∀ {q}, q ∈ s.processInstances.map (·.id) → q ∉ ids →
      q ∈ (s.removeAll ids).processInstances.map (·.id) := by
    intro q hq h
    obtain ⟨i, hi, rfl⟩ := List.mem_map.1 hq
    exact List.mem_map_of_mem (List.mem_filter.2 ⟨hi, decide_eq_true h⟩)
  have mem_tokens : ∀ {t : TokenId}, t ∈ s.tokens.map (·.id) → t.processInstance ∉ ids →
      t ∈ (s.removeAll ids).tokens.map (·.id) := by
    intro t ht h
    obtain ⟨u, hu, rfl⟩ := List.mem_map.1 ht
    exact List.mem_map_of_mem (List.mem_filter.2 ⟨hu, decide_eq_true h⟩)
  constructor
  · intro hc
    constructor
    · intro u hu hsub
      have hr := habove (hs.sub_own u hu p hsub)
      exact hp (hc.subProcessInstance u (List.mem_filter.2 ⟨hu, decide_eq_true hr⟩) p hsub)
    · intro l hl hsub
      have hr := habove (hs.log_sub_own l hl p hsub)
      exact hp ((hc.log l (List.mem_filter.2 ⟨hl, decide_eq_true hr⟩)).2.2.2 p hsub)
  · rintro ⟨htokens, hlogs⟩
    constructor
    · intro i hi t ht
      obtain ⟨hi, h⟩ := List.mem_filter.1 hi
      exact mem_tokens (hs.superProcessToken i hi t ht)
        (hup ⟨i, hi, rfl, t, ht, rfl⟩ (of_decide_eq_true h))
    · intro u hu
      obtain ⟨hu, h⟩ := List.mem_filter.1 hu
      exact mem_ids (hs.token u hu) (of_decide_eq_true h)
    · intro u hu t ht
      obtain ⟨hu, h⟩ := List.mem_filter.1 hu
      exact mem_tokens (hs.parent u hu t ht) (hs.parent_own u hu t ht ▸ of_decide_eq_true h)
    · intro u hu q hq
      obtain ⟨hu, h⟩ := List.mem_filter.1 hu
      exact mem_ids (hs.subProcessInstance u hu q hq) (hdown (hs.sub_own u hu q hq)
        (of_decide_eq_true h) fun he => htokens u hu (he ▸ hq))
    · intro t ht
      obtain ⟨ht, h⟩ := List.mem_filter.1 ht
      refine ⟨mem_ids (hs.taskInstance t ht).1 (of_decide_eq_true h), fun u hu => ?_⟩
      exact mem_tokens ((hs.taskInstance t ht).2 u hu)
        (hs.task_own t ht u hu ▸ of_decide_eq_true h)
    · intro j hj
      obtain ⟨hj, h⟩ := List.mem_filter.1 hj
      have h := of_decide_eq_true h
      obtain ⟨hq, hu, hk⟩ := hs.job j hj
      refine ⟨fun q hjq => mem_ids (hq q hjq) fun hids => h q hids hjq, fun u hju => ?_,
        fun k hjk => ?_⟩
      · exact mem_tokens (hu u hju) fun hids => h _ hids ((hs.job_own j hj).1 u hju)
      · obtain ⟨t, ht, rfl⟩ := List.mem_map.1 (hk k hjk)
        refine List.mem_map_of_mem (List.mem_filter.2 ⟨ht, decide_eq_true fun hids => ?_⟩)
        exact h _ hids ((hs.job_own j hj).2 t.id hjk t ht rfl)
    · intro l hl
      obtain ⟨hl, h⟩ := List.mem_filter.1 hl
      have h := of_decide_eq_true h
      obtain ⟨ht, hu, hk, hq⟩ := hs.log l hl
      refine ⟨mem_tokens ht h, fun u hlu => ?_, fun k hlk => ?_, fun q hlq => ?_⟩
      · exact mem_tokens (hu u hlu) ((hs.log_own l hl).1 u hlu ▸ h)
      · obtain ⟨t, ht, rfl⟩ := List.mem_map.1 (hk k hlk)
        refine List.mem_map_of_mem (List.mem_filter.2 ⟨ht, decide_eq_true ?_⟩)
        exact (hs.log_own l hl).2 t.id hlk t ht rfl ▸ h
      · exact mem_ids (hq q hlq) (hdown (hs.log_sub_own l hl q hlq) h
          fun he => hlogs l hl (he ▸ hlq))

end Store

end Db

end Jbpm
