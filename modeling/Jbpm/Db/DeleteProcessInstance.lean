/-
  What `GraphSession.deleteProcessInstance` deletes.

  * `deleteProcessInstance_run`: the recursion, from a store in which other trees have
    been deleted already;
  * `deletesTree_iff`: what is deleted is the tree, and nothing refers to it any more,
    unless a token or a log of the process that started the instance does; and a
    database that checks references rejects the deletion if a token other than the
    first one of its process instance waits for a sub-process;
  * `not_deletesTree`: a sub-process instance that is deleted by itself.
-/
import Mathlib.Data.Finset.Card
import Jbpm.Db.ProcessForest

namespace Jbpm

namespace Db

/-- The token that waits for the sub-process instance `q` is not the first token of its
    process instance. -/
def Store.Misplaced (s : Store) (q : ℕ) : Prop :=
  ∃ u ∈ s.tokens, u.subProcessInstance = some q ∧
    (s.findTokensForProcessInstance u.id.processInstance).head? ≠ some u.id

/-! ## The recursion -/

namespace GraphSession

open Store

variable {s : Store} {e : Bool} {p q x : ℕ} {C R ids : List ℕ} {T : List TokenId}
  {t : TokenId}

/-- The tree of `q` is still as in the original store: what was deleted, cut off or
    cleared belongs elsewhere. -/
structure Untouched (s : Store) (C R : List ℕ) (T : List TokenId) (q : ℕ) : Prop where
  removed : ∀ x ∈ R, ¬ s.Below x q ∧ ¬ s.Below q x
  cut : ∀ x ∈ C, s.Below x q → x = q
  cleared : ∀ t ∈ T, ¬ s.Below t.processInstance q

/-- The process instances `P` are deleted, and tokens in `Q` are cleared, unless references
    are checked and the deletion is `blocked`. -/
def Deletes (enforced : Bool) (s : Store) (C R : List ℕ) (T : List TokenId) (blocked : Prop)
    (P : ℕ → Prop) (Q : TokenId → Prop) (out : Except DeleteError Store) : Prop :=
  ((enforced = true ∧ blocked) ∧ out = .error .constraintViolation) ∨
  (¬ (enforced = true ∧ blocked) ∧ ∃ C' ids T',
    out = .ok ((s.removeAll (R ++ ids)).clear C' T') ∧ ids.Nodup ∧ (∀ x, x ∈ ids ↔ P x) ∧
    (∀ x ∈ C', x ∈ C ∨ P x) ∧ T ⊆ T' ∧ ∀ t ∈ T', t ∈ T ∨ Q t)

/-- Why the deletion of `q` is rejected: some token still refers to it, or to one of its
    sub-process instances when that is deleted. -/
def Blocked (s : Store) (T : List TokenId) (q : ℕ) : Prop :=
  (∃ u ∈ s.tokens, u.subProcessInstance = some q ∧ u.id ∉ T) ∨
  ∃ x, s.Below x q ∧ x ≠ q ∧ s.Misplaced x

/-- If the first token of `p` is cleared, then a sub-process instance of `p` is blocked as
    soon as it is misplaced. -/
theorem blocked_cons_iff (hs : s.WellFormed) (hq : s.SubOf q p)
    (ht : (s.findTokensForProcessInstance p).head? = some t)
    (hT : ∀ u ∈ T, u.processInstance = p → u = t) :
    Blocked s (t :: T) q ↔ ∃ x, s.Below x q ∧ s.Misplaced x := by
  have hself : (∃ u ∈ s.tokens, u.subProcessInstance = some q ∧ u.id ∉ t :: T) ↔
      s.Misplaced q := by
    refine exists_congr fun u => and_congr_right fun hu => and_congr_right fun hsub => ?_
    have hup := hs.subOf_unique (hs.sub_own u hu q hsub) hq
    rw [hup, ht, List.mem_cons, not_or]
    constructor
    · rintro ⟨hne, -⟩ he
      exact hne (Option.some.inj he).symm
    · intro hne
      exact ⟨fun h => hne (h ▸ rfl), fun h => hne (hT _ h hup ▸ rfl)⟩
  rw [Blocked, hself]
  constructor
  · rintro (h | ⟨x, hx, -, h⟩)
    · exact ⟨q, .refl, h⟩
    · exact ⟨x, hx, h⟩
  · rintro ⟨x, hx, h⟩
    by_cases hxq : x = q
    · exact .inl (hxq ▸ h)
    · exact .inr ⟨x, hx, hxq, h⟩

/-- One deletion after another one. -/
theorem Deletes.bind {b c : Prop} {P A : ℕ → Prop} {Q B : TokenId → Prop}
    {out : Except DeleteError Store} {f : Store → Except DeleteError Store}
    (h : Deletes e s C R T b P Q out) (hdisjoint : ∀ x, P x → ¬ A x)
    (hf : ∀ C' ids T', (∀ x, x ∈ ids ↔ P x) → (∀ x ∈ C', x ∈ C ∨ P x) →
      T ⊆ T' → (∀ t ∈ T', t ∈ T ∨ Q t) →
      Deletes e s C' (R ++ ids) T' c A B (f ((s.removeAll (R ++ ids)).clear C' T'))) :
    Deletes e s C R T (b ∨ c) (fun x => P x ∨ A x) (fun t => Q t ∨ B t)
      (out >>= f) := by
  rcases h with ⟨⟨he, hb⟩, rfl⟩ | ⟨hb, C', ids, T', rfl, hids, hmem, hC, hsub, hT⟩
  · exact .inl ⟨⟨he, .inl hb⟩, rfl⟩
  rcases hf C' ids T' hmem hC hsub hT with
    ⟨⟨he, hb'⟩, hout⟩ | ⟨hb', C'', ids', T'', hout, hids', hmem', hC', hsub', hT'⟩
  · exact .inl ⟨⟨he, .inr hb'⟩, hout⟩
  refine .inr ⟨?_, C'', ids ++ ids', T'', ?_, ?_, fun x => ?_, fun x hx => ?_,
    List.Subset.trans hsub hsub', fun t ht => ?_⟩
  · rintro ⟨he, h | h⟩
    · exact hb ⟨he, h⟩
    · exact hb' ⟨he, h⟩
  · rw [← List.append_assoc]
    exact hout
  · exact List.nodup_append'.2 ⟨hids, hids', fun x hx hx' =>
      hdisjoint x ((hmem x).1 hx) ((hmem' x).1 hx')⟩
  · rw [List.mem_append, hmem, hmem']
  · rcases hC' x hx with h | h
    · exact (hC x h).imp_right .inl
    · exact .inr (.inr h)
  · rcases hT' t ht with h | h
    · exact (hT t h).imp_right .inl
    · exact .inr (.inr h)

theorem Deletes.congr {b c : Prop} {P A : ℕ → Prop} {Q B : TokenId → Prop}
    {C₁ : List ℕ} {T₁ : List TokenId} {out : Except DeleteError Store}
    (h : Deletes e s C₁ R T₁ b P Q out) (hb : b ↔ c) (hP : ∀ x, P x ↔ A x)
    (hC : ∀ x ∈ C₁, x ∈ C ∨ P x) (hQ : ∀ t, Q t → B t) (hsub : T ⊆ T₁)
    (hT : ∀ t ∈ T₁, t ∈ T ∨ B t) :
    Deletes e s C R T c A B out := by
  rcases h with ⟨⟨he, h⟩, hout⟩ | ⟨h, C', ids, T', hout, hids, hmem, hC', hsub', hT'⟩
  · exact .inl ⟨⟨he, hb.1 h⟩, hout⟩
  refine .inr ⟨fun ⟨he, h'⟩ => h ⟨he, hb.2 h'⟩, C', ids, T', hout, hids, fun x => (hmem x).trans (hP x),
    fun x hx => ?_, List.Subset.trans hsub hsub', fun t ht => ?_⟩
  · rcases hC' x hx with h | h
    · exact (hC x h).imp_right (hP x).1
    · exact .inr ((hP x).1 h)
  · rcases hT' t ht with h | h
    · exact hT t h
    · exact .inr (hQ t h)

/-- The loop over the sub-process instances of `p`, of which `qs` are left. -/
structure Pending (s : Store) (p : ℕ) (t : TokenId) (qs C R : List ℕ) (T : List TokenId) :
    Prop where
  subOf : ∀ q ∈ qs, s.SubOf q p
  nodup : qs.Nodup
  removed : ∀ q ∈ qs, ∀ x ∈ R, ¬ s.Below x q ∧ ¬ s.Below q x
  cut : ∀ q ∈ qs, ∀ x ∈ C, ¬ s.Below x q
  cleared : ∀ q ∈ qs, ∀ u ∈ T, ¬ s.Below u.processInstance q
  first : ∀ u ∈ T, u.processInstance = p → u = t

namespace Pending

variable {qs : List ℕ}

theorem untouched (hs : s.WellFormed) (ht : t.processInstance = p)
    (h : Pending s p t (q :: qs) C R T) : Untouched s (q :: C) R (t :: T) q where
  removed := h.removed q List.mem_cons_self
  cut := by
    rintro x (_ | ⟨_, hx⟩) hb
    · rfl
    · exact absurd hb (h.cut q List.mem_cons_self x hx)
  cleared := by
    rintro u (_ | ⟨_, hu⟩)
    · exact ht ▸ hs.acyclic q p (h.subOf q List.mem_cons_self)
    · exact h.cleared q List.mem_cons_self u hu

theorem disjoint (hs : s.WellFormed) (h : Pending s p t (q :: qs) C R T) :
    ∀ q' ∈ qs, ∀ x, s.Below x q → ¬ s.Below x q' := by
  intro q' hq' x hx hx'
  have heq := hs.below_disjoint (h.subOf q List.mem_cons_self)
    (h.subOf q' (List.mem_cons_of_mem q hq')) hx hx'
  exact (List.nodup_cons.1 h.nodup).1 (heq ▸ hq')

theorem rest (hs : s.WellFormed) (ht : t.processInstance = p) {C' ids : List ℕ}
    {T' : List TokenId} (h : Pending s p t (q :: qs) C R T) (hids : ∀ x ∈ ids, s.Below x q)
    (hC : ∀ x ∈ C', x ∈ q :: C ∨ s.Below x q)
    (hT : ∀ u ∈ T', u ∈ t :: T ∨ s.Below u.processInstance q) :
    Pending s p t qs C' (R ++ ids) T' where
  subOf q' hq' := h.subOf q' (List.mem_cons_of_mem q hq')
  nodup := (List.nodup_cons.1 h.nodup).2
  removed q' hq' x hx := by
    rcases List.mem_append.1 hx with hx | hx
    · exact h.removed q' (List.mem_cons_of_mem q hq') x hx
    · have hxq := hids x hx
      exact ⟨h.disjoint hs q' hq' x hxq, fun hq => h.disjoint hs q' hq' q' (hq.trans hxq) .refl⟩
  cut q' hq' x hx := by
    rcases hC x hx with hx | hx
    · rcases List.mem_cons.1 hx with rfl | hx
      · exact h.disjoint hs q' hq' x .refl
      · exact h.cut q' (List.mem_cons_of_mem q hq') x hx
    · exact h.disjoint hs q' hq' x hx
  cleared q' hq' u hu := by
    rcases hT u hu with hu | hu
    · rcases List.mem_cons.1 hu with rfl | hu
      · exact ht ▸ hs.acyclic q' p (h.subOf q' (List.mem_cons_of_mem q hq'))
      · exact h.cleared q' (List.mem_cons_of_mem q hq') u hu
    · exact h.disjoint hs q' hq' _ hu
  first u hu hp := by
    rcases hT u hu with hu | hu
    · rcases List.mem_cons.1 hu with rfl | hu
      · rfl
      · exact h.first u hu hp
    · exact absurd (hp ▸ hu) (hs.acyclic q p (h.subOf q List.mem_cons_self))

end Pending

theorem deleteAll_run (hs : s.WellFormed) (ht : (s.findTokensForProcessInstance p).head? = some t)
    {delete : ℕ → Store → Except DeleteError Store} {qs : List ℕ}
    (hdelete : ∀ q ∈ qs, ∀ C R T, Untouched s C R T q →
      Deletes e s C R T (Blocked s T q) (s.Below · q) (s.Below ·.processInstance q)
        (delete q ((s.removeAll R).clear C T)))
    (h : Pending s p t qs C R T) :
    Deletes e s C R T (∃ q ∈ qs, ∃ x, s.Below x q ∧ s.Misplaced x)
      (fun x => ∃ q ∈ qs, s.Below x q)
      (fun u => u = t ∨ ∃ q ∈ qs, s.Below u.processInstance q)
      (deleteAll delete t qs ((s.removeAll R).clear C T)) := by
  have htp : t.processInstance = p :=
    (mem_findTokensForProcessInstance.1 (List.mem_of_mem_head? ht)).2
  induction qs generalizing C R T with
  | nil =>
    refine .inr ⟨by simp, C, [], T, ?_, List.nodup_nil, by simp, fun x hx => .inl hx,
      List.Subset.refl T, fun u hu => .inl hu⟩
    rw [List.append_nil]
    rfl
  | cons q qs ih =>
    rw [deleteAll, clearSuperProcessToken_clear, clearSubProcessInstance_clear]
    have hone := hdelete q List.mem_cons_self _ _ _ (h.untouched hs htp)
    rw [blocked_cons_iff hs (h.subOf q List.mem_cons_self) ht h.first] at hone
    have hrest := hone.bind (A := fun x => ∃ q' ∈ qs, s.Below x q')
      (fun x hx ⟨q', hq', hx'⟩ => h.disjoint hs q' hq' x hx hx')
      fun C' ids T' hids hC _ hT =>
        ih (fun q' hq' => hdelete q' (List.mem_cons_of_mem q hq'))
          (h.rest hs htp (fun x hx => (hids x).1 hx) hC hT)
    refine hrest.congr (by simp) (fun x => by simp) ?_ (fun u hu => ?_)
      (List.subset_cons_self t T) ?_
    · rintro x (_ | ⟨_, hx⟩)
      · exact .inr (.inl .refl)
      · exact .inl hx
    · rcases hu with hu | rfl | ⟨q', hq', hu⟩
      · exact .inr ⟨q, List.mem_cons_self, hu⟩
      · exact .inl rfl
      · exact .inr ⟨q', List.mem_cons_of_mem q hq', hu⟩
    · rintro u (_ | ⟨_, hu⟩)
      · exact .inr (.inl rfl)
      · exact .inl hu

/-- Nothing is left to do for a token once the sub-process instances of its process
    instance are gone. -/
theorem deleteSubProcesses_of_nil {delete : ℕ → Store → Except DeleteError Store} {s : Store}
    (h : s.findSubProcessInstances t.processInstance = []) (n : ℕ) :
    deleteSubProcesses delete (n + 1) t s = .ok s := by
  rw [deleteSubProcesses, h]
  rfl

theorem foldlM_deleteSubProcesses {delete : ℕ → Store → Except DeleteError Store} {s : Store}
    {ts : List TokenId} (h : ∀ t ∈ ts, s.findSubProcessInstances t.processInstance = []) (n : ℕ) :
    ts.foldlM (fun s t => deleteSubProcesses delete (n + 1) t s) s = .ok s := by
  induction ts with
  | nil => rfl
  | cons t ts ih =>
    rw [List.foldlM_cons, deleteSubProcesses_of_nil (h t List.mem_cons_self)]
    exact ih fun t ht => h t (List.mem_cons_of_mem _ ht)

/-- The loop over the tokens of `q`: all the work is done for the first one. -/
theorem deleteTokens_run (hs : s.WellFormed) {delete : ℕ → Store → Except DeleteError Store}
    (hdelete : ∀ q', s.SubOf q' q → ∀ C R T, Untouched s C R T q' →
      Deletes e s C R T (Blocked s T q') (s.Below · q') (s.Below ·.processInstance q')
        (delete q' ((s.removeAll R).clear C T)))
    (hu : Untouched s C R T q) (n : ℕ) :
    Deletes e s C R T (∃ q', s.SubOf q' q ∧ ∃ x, s.Below x q' ∧ s.Misplaced x)
      (fun x => ∃ q', s.SubOf q' q ∧ s.Below x q') (fun u => s.Below u.processInstance q)
      ((s.findTokensForProcessInstance q).foldlM
        (fun s t => deleteSubProcesses delete (n + 2) t s) ((s.removeAll R).clear C T)) := by
  have hfound : ((s.removeAll R).clear C T).findSubProcessInstances q =
      s.findSubProcessInstances q := by
    refine findSubProcessInstances_clear fun x hx => ⟨fun hR => ?_, fun hC => ?_⟩
    · exact (hu.removed x hR).1 (.single hx)
    · exact hs.acyclic x q hx (hu.cut x hC (.single hx) ▸ .refl)
  have htoken : ∀ t ∈ s.findTokensForProcessInstance q, t.processInstance = q :=
    fun t ht => (mem_findTokensForProcessInstance.1 ht).2
  rcases hqs : s.findSubProcessInstances q with _ | ⟨q₁, qs⟩
  · have hnone : ∀ q', ¬ s.SubOf q' q := by
      intro q' hq'
      have hmem := mem_findSubProcessInstances.2 hq'
      rw [hqs] at hmem
      cases hmem
    rw [foldlM_deleteSubProcesses fun t ht => by rw [htoken t ht, hfound, hqs]]
    refine .inr ⟨by simp [hnone], C, [], T, ?_, List.nodup_nil, by simp [hnone],
      fun x hx => .inl hx, List.Subset.refl T, fun u hu => .inl hu⟩
    rw [List.append_nil]
  · have hsub : s.SubOf q₁ q := mem_findSubProcessInstances.1 (hqs ▸ List.mem_cons_self)
    rcases hts : s.findTokensForProcessInstance q with _ | ⟨t, ts⟩
    · exact absurd hts (hs.tokens_ne_nil_of_subOf hsub)
    rw [hts] at htoken
    have htq := htoken t List.mem_cons_self
    have hpending : Pending s q t (q₁ :: qs) C R T := {
      subOf := fun q' hq' => mem_findSubProcessInstances.1 (hqs ▸ hq')
      nodup := hqs ▸ hs.nodup_findSubProcessInstances q
      removed := fun q' hq' x hx => by
        have hq := mem_findSubProcessInstances.1 (hqs ▸ hq')
        refine ⟨fun h => (hu.removed x hx).1 (h.tail hq), fun h => ?_⟩
        rcases h.cases_head with rfl | ⟨z, hz, hzx⟩
        · exact (hu.removed q' hx).1 (.single hq)
        · exact (hu.removed x hx).2 (hs.subOf_unique hz hq ▸ hzx)
      cut := fun q' hq' x hx h => by
        have hq := mem_findSubProcessInstances.1 (hqs ▸ hq')
        exact hs.acyclic q' q hq (hu.cut x hx (h.tail hq) ▸ h)
      cleared := fun q' hq' u hut h =>
        hu.cleared u hut (h.tail (mem_findSubProcessInstances.1 (hqs ▸ hq')))
      first := fun u hut huq => absurd (huq ▸ .refl) (hu.cleared u hut) }
    have hall := deleteAll_run hs (t := t) (by rw [hts]; rfl)
      (fun q' hq' => hdelete q' (mem_findSubProcessInstances.1 (hqs ▸ hq'))) hpending
    -- afterwards, no sub-process instances of `q` are left
    have hnil : ∀ {C' ids T'}, (∀ x, x ∈ ids ↔ ∃ q' ∈ q₁ :: qs, s.Below x q') →
        ((s.removeAll (R ++ ids)).clear C' T').findSubProcessInstances q = [] := by
      intro C' ids T' hids
      refine findSubProcessInstances_clear_eq_nil fun x hx => List.mem_append_right R ?_
      exact (hids x).2 ⟨x, hqs ▸ mem_findSubProcessInstances.2 hx, .refl⟩
    have hrest := (hall.bind (c := False) (A := fun _ => False) (B := fun _ => False)
      (f := fun s => (s.children t).foldlM (fun s child =>
        deleteSubProcesses delete (n + 1) child s) s >>= fun s =>
          ts.foldlM (fun s t => deleteSubProcesses delete (n + 2) t s) s)
      (fun _ _ => id) fun C' ids T' hids _ _ _ => by
        rw [foldlM_deleteSubProcesses fun u hu => by
          rw [processInstance_of_mem_children hs hu, htq, hnil hids]]
        refine .inr ⟨by simp, C', [], T', ?_, List.nodup_nil, by simp, fun x hx => .inl hx,
          List.Subset.refl T', fun u hu => .inl hu⟩
        rw [List.append_nil]
        exact foldlM_deleteSubProcesses (fun u hu => by
          rw [htoken u (List.mem_cons_of_mem t hu), hnil hids]) (n + 1))
    rw [List.foldlM_cons, deleteSubProcesses, htq, hfound, hqs]
    have hmem : ∀ q', q' ∈ q₁ :: qs ↔ s.SubOf q' q := fun q' => by
      rw [← hqs, mem_findSubProcessInstances]
    have hgoal := hrest.congr (C := C) (T := T)
      (c := ∃ q', s.SubOf q' q ∧ ∃ x, s.Below x q' ∧ s.Misplaced x)
      (A := fun x => ∃ q', s.SubOf q' q ∧ s.Below x q')
      (B := fun u => s.Below u.processInstance q)
      (by simp only [hmem, or_false]) (fun x => by simp only [hmem, or_false])
      (fun x hx => .inl hx) (fun u hu => by
        rcases hu with (rfl | ⟨q', hq', hb⟩) | h
        · exact htq ▸ .refl
        · exact hb.tail ((hmem q').1 hq')
        · exact h.elim) (List.Subset.refl T) fun u hu => .inl hu
    simpa only [List.isEmpty_cons, Bool.false_eq_true, if_false, bind_assoc] using hgoal

/-- Deleting the rows of `q`, once its sub-process instances are gone. -/
theorem delete_run (hs : s.WellFormed) {b : Prop}
    (hb : (∃ u ∈ s.tokens, u.subProcessInstance = some q ∧
      u.id.processInstance ∉ R ++ [q] ∧ u.id ∉ T) ↔ b) :
    Deletes e s C R T b (· = q) (fun _ => False)
      (((((s.removeAll R).clear C T).deleteJobsForProcessInstance q).deleteLogs
        (s.findTokensForProcessInstance q)).delete e q) := by
  rw [Store.delete, deleteCascading_clear hs]
  have hany := (any_subProcessInstance_clear (s := s) (C := C) (R := R ++ [q]) (T := T)
    (q := q)).trans hb
  by_cases h : e = true ∧ b
  · refine .inl ⟨h, ?_⟩
    rw [h.1, hany.2 h.2]
    rfl
  · refine .inr ⟨h, C, [q], T, ?_, List.nodup_singleton q, by simp, fun x hx => .inl hx,
      List.Subset.refl T, fun u hu => .inl hu⟩
    rw [if_neg]
    rw [Bool.and_eq_true, hany]
    exact h

open Classical in
/-- The number of process instances below `p`. -/
noncomputable def size (s : Store) (p : ℕ) : ℕ :=
  ((s.processInstances.map (·.id)).toFinset.filter fun x => ∃ q, s.SubOf q p ∧ s.Below x q).card

theorem size_le (s : Store) (p : ℕ) : size s p ≤ s.processInstances.length := by
  classical
  refine (Finset.card_filter_le _ _).trans ((List.toFinset_card_le _).trans ?_)
  rw [List.length_map]

theorem size_lt (hs : s.WellFormed) (hq : s.SubOf q p) : size s q < size s p := by
  classical
  refine Finset.card_lt_card (Finset.ssubset_iff_subset_ne.2 ⟨?_, fun heq => ?_⟩)
  · intro x hx
    simp only [Finset.mem_filter, List.mem_toFinset] at hx ⊢
    obtain ⟨hx, q', hq', hb⟩ := hx
    exact ⟨hx, q, hq, hb.tail hq'⟩
  · obtain ⟨i, hi, hid, -⟩ := id hq
    have hmem := Finset.ext_iff.1 heq q
    simp only [Finset.mem_filter, List.mem_toFinset] at hmem
    obtain ⟨-, q', hq', hb⟩ := hmem.2 ⟨hid ▸ List.mem_map_of_mem hi, q, hq, .refl⟩
    exact hs.acyclic q' q hq' hb

/-- The recursion deletes the tree of `q`, whatever was deleted elsewhere. -/
theorem deleteProcessInstance_run (hs : s.WellFormed) {n : ℕ} (hn : size s q < n)
    (hu : Untouched s C R T q) :
    Deletes e s C R T (Blocked s T q) (s.Below · q) (s.Below ·.processInstance q)
      (deleteProcessInstance e n q true true ((s.removeAll R).clear C T)) := by
  induction n generalizing q C R T with
  | zero => exact absurd hn (Nat.not_lt_zero _)
  | succ n ih =>
    have hqR : q ∉ R := fun h => (hu.removed q h).1 .refl
    have htokens := deleteTokens_run (e := e) hs
      (fun q' hq' C R T h => ih (Nat.lt_of_lt_of_le (size_lt hs hq') (Nat.le_of_lt_succ hn)) h)
      hu n
    rw [deleteProcessInstance, findTokensForProcessInstance_clear hqR]
    refine (htokens.bind (c := ∃ u ∈ s.tokens, u.subProcessInstance = some q ∧ u.id ∉ T)
      (A := (· = q)) (B := fun _ => False) ?_ ?_).congr ?_ (fun x => ?_)
      (fun x hx => .inl hx) (fun u hu => ?_) (List.Subset.refl T) fun u hu => .inl hu
    · rintro x ⟨q', hq', hb⟩ rfl
      exact hs.acyclic q' x hq' hb
    · intro C' ids T' hids _ hsubset hT'
      refine delete_run hs (exists_congr fun u => and_congr_right fun hut =>
        and_congr_right fun hsub => ⟨fun h hT => h.2 (hsubset hT), fun hT => ⟨fun h => ?_, fun h => ?_⟩⟩)
      -- the token that waits for `q` belongs to the instance above
      · have hown := hs.sub_own u hut q hsub
        rcases List.mem_append.1 h with h | h
        · rcases List.mem_append.1 h with h | h
          · exact (hu.removed _ h).2 (.single hown)
          · obtain ⟨q', hq', hb⟩ := (hids _).1 h
            exact hs.acyclic q _ hown (hb.tail hq')
        · exact hs.acyclic q _ hown (List.mem_singleton.1 h ▸ .refl)
      · have hown := hs.sub_own u hut q hsub
        rcases hT' _ h with h | h
        · exact hT h
        · exact hs.acyclic q _ hown h
    · rw [Blocked, or_comm]
      refine or_congr_right ⟨?_, ?_⟩
      · rintro ⟨q', hq', x, hx, hm⟩
        exact ⟨x, hx.tail hq', fun h => hs.acyclic q' q hq' (h ▸ hx), hm⟩
      · rintro ⟨x, hx, hne, hm⟩
        obtain ⟨q', hq', hb⟩ := (below_iff.1 hx).resolve_left hne
        exact ⟨q', hq', x, hb, hm⟩
    · rw [below_iff, or_comm]
    · exact hu.elim id False.elim

/-! ## The deletion of a process instance -/

/-- `deleteProcessInstance(p)` deletes `p` and what is below it, each once, with the
    tokens, tasks, jobs and logs of these process instances and nothing else, and no
    reference dangles. -/
def DeletesTree (enforced : Bool) (n p : ℕ) (s : Store) : Prop :=
  ∃ ids s', deleteProcessInstance enforced n p true true s = .ok s' ∧
    ids.Nodup ∧ (∀ q, q ∈ ids ↔ s.Below q p) ∧ s' = s.removeAll ids ∧ s'.Closed

/-- **Deletion of process instances.**  It removes exactly the tree of `p` and leaves no
    dangling reference, if and only if no token and no log refers to `p` as the
    sub-process instance that it started, and, where the database checks references, the
    token that waits for a sub-process instance below `p` is always the first one that
    the query for the tokens of its process instance finds. -/
theorem deletesTree_iff {enforced : Bool} {n : ℕ} (hs : s.WellFormed)
    (hn : s.processInstances.length < n) :
    DeletesTree enforced n p s ↔ (∀ u ∈ s.tokens, u.subProcessInstance ≠ some p) ∧
      (∀ l ∈ s.logs, l.subProcessInstance ≠ some p) ∧
      (enforced = true → ∀ q, s.Below q p → q ≠ p → ¬ s.Misplaced q) := by
  have hrun := deleteProcessInstance_run (e := enforced) (C := []) (R := []) (T := []) hs
    (Nat.lt_of_le_of_lt (size_le s p) hn) ⟨by simp, by simp, by simp⟩
  rw [removeAll_nil] at hrun
  constructor
  · rintro ⟨ids, s', hout, -, hids, rfl, hclosed⟩
    obtain ⟨htokens, hlogs⟩ := (closed_removeAll_iff hs hids).1 hclosed
    refine ⟨htokens, hlogs, fun he q hq hne hm => ?_⟩
    rcases hrun with ⟨-, herr⟩ | ⟨hb, -⟩
    · rw [hout] at herr
      cases herr
    · exact hb ⟨he, .inr ⟨q, hq, hne, hm⟩⟩
  · rintro ⟨htokens, hlogs, hfirst⟩
    rcases hrun with ⟨⟨he, ⟨u, hu, hsub, -⟩ | ⟨q, hq, hne, hm⟩⟩, -⟩ |
      ⟨-, C, ids, T, hout, hnodup, hids, hC, -, hT⟩
    · exact absurd hsub (htokens u hu)
    · exact absurd hm (hfirst he q hq hne)
    · rw [List.nil_append, clear_removeAll (fun x hx => (hids x).2 ((hC x hx).resolve_left (by simp)))
        fun t ht => (hids _).2 ((hT t ht).resolve_left (by simp))] at hout
      exact ⟨ids, _, hout, hnodup, hids, rfl, (closed_removeAll_iff hs hids).2 ⟨htokens, hlogs⟩⟩

/-- A process instance whose root token waits for a sub-process instance. -/
def waiting : Store where
  processInstances := [⟨0, none⟩, ⟨1, some ⟨0, 0⟩⟩]
  tokens := [⟨⟨0, 0⟩, none, some 1⟩, ⟨⟨1, 0⟩, none, none⟩]
  taskInstances := []
  jobs := []
  logs := []
  deleted := []

theorem subOf_waiting {q r : ℕ} (h : waiting.SubOf q r) : q = 1 ∧ r = 0 := by
  obtain ⟨i, hi, rfl, t, ht, rfl⟩ := h
  simp only [waiting, List.mem_cons, List.not_mem_nil, or_false] at hi
  rcases hi with rfl | rfl
  · cases ht
  · cases ht
    exact ⟨rfl, rfl⟩

theorem wellFormed_waiting : waiting.WellFormed where
  superProcessToken := by decide
  token := by decide
  parent := by decide
  subProcessInstance := by decide
  taskInstance := by decide
  job := by decide
  log := by decide
  nodup := by decide
  acyclic q r h hr := by
    obtain ⟨rfl, rfl⟩ := subOf_waiting h
    rcases hr.cases_head with h | ⟨z, hz, -⟩
    · cases h
    · cases (subOf_waiting hz).1
  parent_own := by decide
  task_own := by decide
  job_own := by decide
  log_own := by decide
  sub_own u hu q hq := by
    simp only [waiting, List.mem_cons, List.not_mem_nil, or_false] at hu
    rcases hu with rfl | rfl
    · cases hq
      exact ⟨⟨1, some ⟨0, 0⟩⟩, by decide, rfl, ⟨0, 0⟩, rfl, rfl⟩
    · cases hq
  log_sub_own := by
    intro l hl
    cases hl

theorem deletesTree_waiting : DeletesTree true 3 0 waiting :=
  (deletesTree_iff wellFormed_waiting (by decide)).2 ⟨by decide, by decide, by
    rintro - q hq hne ⟨u, hu, hsub, hm⟩
    simp only [waiting, List.mem_cons, List.not_mem_nil, or_false] at hu
    rcases hu with rfl | rfl
    · exact hm rfl
    · cases hsub⟩

/-- A sub-process instance that is deleted by itself: the token that waits for it goes on
    referring to it. -/
theorem not_deletesTree : ¬ ∀ (enforced : Bool) (n p : ℕ) (s : Store), s.WellFormed →
    s.processInstances.length < n → DeletesTree enforced n p s := by
  intro h
  obtain ⟨ids, s', hout, -, -, -, hclosed⟩ := h false 3 1 waiting wellFormed_waiting (by decide)
  have hrun : deleteProcessInstance false 3 1 true true waiting = .ok {
      processInstances := [⟨0, none⟩], tokens := [⟨⟨0, 0⟩, none, some 1⟩], taskInstances := [],
      jobs := [], logs := [], deleted := [1] } := rfl
  obtain rfl := Except.ok.inj (hout.symm.trans hrun)
  have h := hclosed.subProcessInstance ⟨⟨0, 0⟩, none, some 1⟩ (by decide) 1 rfl
  revert h
  decide

end GraphSession

end Db

end Jbpm
