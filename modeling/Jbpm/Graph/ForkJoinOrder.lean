/-
  The order in which the children of a fork finish.  A child that arrives at a default
  join lets the parent go on if it is the last one; a child that comes to an end state
  lets the parent end if it is the last one.

  * `Waiting`: some children are on their way, the others have finished;
  * `finishAll_of_last`: the last child to finish decides, whatever the others did;
  * `not_joinsIfReached`: a child at the join does not make the parent leave it.
-/
import Jbpm.Graph.ForkJoinSteps

namespace Jbpm

namespace ForkJoin

/-- How a path ends. -/
inductive Outcome
  | arrives
  | ends
  deriving DecidableEq

variable {N : Type}

/-- The children `ids` of `p` are on their way, and all others have finished. -/
structure Waiting (p : ℕ) (ids : List ℕ) (s : Tokens N) : Prop where
  active : (s.status p).hasEnded = false
  running : ∀ x ∈ ids, s.tree.parent x = some p ∧ (s.status x).hasEnded = false ∧
    (s.status x).isAbleToReactivateParent = true
  mem : ∀ x ∈ ids, x ∈ (s.tree.children p).map (·.2)
  finished : ∀ c ∈ s.tree.children p, c.2 ∈ ids ∨
    (s.status c.2).hasEnded = true ∧ (s.status c.2).isAbleToReactivateParent = false

variable {s s₁ : Tokens N} {n p t : ℕ} {ids : List ℕ}

/-- One child less. -/
theorem Waiting.arrived {m : N} (h : Waiting p (t :: ids) s) (ht : t ∉ ids)
    (h₁ : s.Arrived m t s₁) : Waiting p ids s₁ := by
  have hp := (h.running t List.mem_cons_self).1
  have hsame : ∀ x, s.tree.parent x = some p → x ≠ t → s₁.status x = s.status x :=
    fun x hx hne => h₁.sibling hp hx hne
  constructor
  · rw [h₁.parent hp]
    exact h.active
  · intro x hx
    obtain ⟨hxp, hxe⟩ := h.running x (List.mem_cons_of_mem t hx)
    rw [h₁.tree, hsame x hxp fun he => ht (he ▸ hx)]
    exact ⟨hxp, hxe⟩
  · intro x hx
    rw [h₁.tree]
    exact h.mem x (List.mem_cons_of_mem t hx)
  · intro c hc
    rw [h₁.tree] at hc
    by_cases hct : c.2 = t
    · rw [hct, h₁.self]
      exact .inr ⟨rfl, rfl⟩
    · rw [hsame c.2 (s.tree.parent_of_mem hc) hct]
      exact (h.finished c hc).imp_left fun hm => (List.mem_cons.1 hm).resolve_left hct

/-- After a fork, all its children are on their way. -/
theorem waiting_execute {names : List (Option String)} (hp : p < s.tree.size)
    (hactive : (s.status p).hasEnded = false)
    (hold : ∀ c ∈ s.tree.children p, (s.status c.2).hasEnded = true ∧
      (s.status c.2).isAbleToReactivateParent = false)
    (hkeep : Fork.KeepsChildren p names s) :
    Waiting p (Fork.execute p names s).1 (Fork.execute p names s).2 := by
  have h := Fork.created_execute hp names
  constructor
  · rw [(h.old p hp).2]
    exact hactive
  · intro x hx
    obtain ⟨-, hparent, hstatus⟩ := h.new x hx
    rw [hstatus]
    exact ⟨hparent, rfl, rfl⟩
  · exact hkeep
  · intro c hc
    rcases h.children c hc with hc | hc
    · rw [(h.old c.2 (s.tree.lt_size (s.tree.parent_of_mem hc))).2]
      exact .inr (hold c hc)
    · exact .inl hc

variable [DecidableEq N]

def finish (J : Join N) (E : EndState N) (n : ℕ) (s : Tokens N) : ℕ × Outcome → Option (Tokens N)
  | (t, .arrives) => J.enter n t s
  | (t, .ends) => E.enter n t s

/-- The children finish one after the other. -/
def finishAll (J : Join N) (E : EndState N) (n : ℕ) (s : Tokens N) (order : List (ℕ × Outcome)) :
    Option (Tokens N) :=
  order.foldlM (finish J E n) s

variable {E : EndState N} {node successor : N}

/-- Nothing but the child changes as long as others are on their way. -/
theorem Waiting.finish (h : Waiting p (t :: ids) s) (ht : t ∉ ids) (hids : ids ≠ [])
    (hE : E.endCompleteProcess = false) (hn : s.tree.size ≤ n) (o : Outcome) :
    ∃ s', ForkJoin.finish (Join.default node successor) E n s (t, o) = some s' ∧
      s'.tree = s.tree ∧ s'.left = s.left ∧ s'.status p = s.status p ∧ Waiting p ids s' := by
  obtain ⟨htp, hte, hta⟩ := h.running t List.mem_cons_self
  obtain ⟨x, hx⟩ := List.exists_mem_of_ne_nil ids hids
  cases o with
  | arrives =>
    obtain ⟨s₁, h₁, henter⟩ := Join.enter_eq (J := Join.default node successor) hn htp hte
    have hw := h.arrived ht h₁
    obtain ⟨c, hc, hcx⟩ := List.mem_map.1 (hw.mem x hx)
    have hwait : (Join.default node successor).reactivateParent p t s₁ = some false := by
      rw [Join.reactivateParent_default, Option.some.injEq, List.all_eq_false]
      exact ⟨c, hc, by rw [hcx, (hw.running x hx).2.2]; decide⟩
    rw [if_pos hta, hwait] at henter
    exact ⟨s₁, henter, h₁.tree, h₁.left, h₁.parent htp, hw⟩
  | ends =>
    obtain ⟨s₁, h₁, hactive, -⟩ := EndState.enter_eq hE hn htp hte
    have hw := h.arrived ht h₁
    obtain ⟨c, hc, hcx⟩ := List.mem_map.1 (hw.mem x hx)
    refine ⟨s₁, hactive ?_, h₁.tree, h₁.left, h₁.parent htp, hw⟩
    refine List.any_eq_true.2 ⟨c, h₁.tree ▸ hc, ?_⟩
    rw [hcx, (hw.running x hx).2.1]
    rfl

/-- The last child to finish. -/
theorem Waiting.finish_last (h : Waiting p [t] s) (hE : E.endCompleteProcess = false)
    (hn : s.tree.size ≤ n) (o : Outcome) :
    ∃ s', ForkJoin.finish (Join.default node successor) E n s (t, o) = some s' ∧
      match o with
      | .arrives => s'.left = s.left ++ [p] ∧
          s'.status p = { s.status p with node := some successor }
      | .ends => s'.left = s.left ∧ (s'.status p).hasEnded = true := by
  obtain ⟨htp, hte, hta⟩ := h.running t List.mem_cons_self
  cases o with
  | arrives =>
    obtain ⟨s₁, h₁, henter⟩ := Join.enter_eq (J := Join.default node successor) hn htp hte
    have hw := h.arrived (List.not_mem_nil) h₁
    have hgo : (Join.default node successor).reactivateParent p t s₁ = some true := by
      rw [Join.reactivateParent_default, Option.some.injEq, List.all_eq_true]
      intro c hc
      rw [((hw.finished c hc).resolve_left List.not_mem_nil).2]
      rfl
    rw [if_pos hta, hgo] at henter
    refine ⟨_, henter, ?_, ?_⟩
    · exact Join.reactivate_left.trans (congrArg (· ++ [p]) h₁.left)
    · exact Join.reactivate_parent.trans (by rw [h₁.parent htp]; rfl)
  | ends =>
    obtain ⟨s₁, h₁, -, hlast⟩ := EndState.enter_eq hE hn htp hte
    have hw := h.arrived (List.not_mem_nil) h₁
    obtain ⟨st, henter, -, hended⟩ := hlast <| by
      rw [Token.hasActiveChildren, List.any_eq_false]
      intro c hc
      rw [((hw.finished c (h₁.tree ▸ hc)).resolve_left List.not_mem_nil).1]
      decide
    exact ⟨_, henter, h₁.left, hended⟩

/-- The parent waits as long as some children are on their way. -/
theorem Waiting.finishAll {order : List (ℕ × Outcome)} (h : Waiting p (order.map (·.1) ++ ids) s)
    (hnodup : (order.map (·.1) ++ ids).Nodup) (hids : ids ≠ [])
    (hE : E.endCompleteProcess = false) (hn : s.tree.size ≤ n) :
    ∃ s', ForkJoin.finishAll (Join.default node successor) E n s order = some s' ∧
      s'.tree = s.tree ∧ s'.left = s.left ∧ s'.status p = s.status p ∧ Waiting p ids s' := by
  induction order generalizing s with
  | nil => exact ⟨s, rfl, rfl, rfl, rfl, h⟩
  | cons c order ih =>
    obtain ⟨hc, hnodup⟩ := List.nodup_cons.1 hnodup
    obtain ⟨s₁, h₁, htree, hleft, hp, hw⟩ : ∃ s₁,
        ForkJoin.finish (Join.default node successor) E n s c = some s₁ ∧ _ :=
      h.finish hc (List.append_ne_nil_of_right_ne_nil _ hids) hE hn c.2
    obtain ⟨s', h', htree', hleft', hp', hw'⟩ := ih hw hnodup (htree ▸ hn)
    refine ⟨s', ?_, htree'.trans htree, hleft'.trans hleft, hp'.trans hp, hw'⟩
    rw [ForkJoin.finishAll, List.foldlM_cons, h₁]
    exact h'

/-- **Default joins.**  As long as children of the fork are on their way, the parent waits.
    If the last one to finish arrives at the join, then the parent leaves the join, once, to
    its successor; if it comes to an end state, then the parent ends, and does not leave the
    join, even if other children have reached it. -/
theorem finishAll_of_last (names : List (Option String)) (order : List (ℕ × Outcome))
    (last : ℕ × Outcome) (hE : E.endCompleteProcess = false) (hp : p < s.tree.size)
    (hactive : (s.status p).hasEnded = false)
    (hold : ∀ c ∈ s.tree.children p, (s.status c.2).hasEnded = true ∧
      (s.status c.2).isAbleToReactivateParent = false)
    (hkeep : Fork.KeepsChildren p names s)
    (hn : (Fork.execute p names s).2.tree.size ≤ n)
    (horder : ((order ++ [last]).map (·.1)).Perm (Fork.execute p names s).1) :
    (∀ begun, begun <+: order → ∃ s',
      finishAll (Join.default node successor) E n (Fork.execute p names s).2 begun = some s' ∧
      s'.left = s.left ∧ s'.status p = s.status p) ∧
    ∃ s', finishAll (Join.default node successor) E n (Fork.execute p names s).2
        (order ++ [last]) = some s' ∧
      match last.2 with
      | .arrives => s'.left = s.left ++ [p] ∧
          s'.status p = { s.status p with node := some successor }
      | .ends => s'.left = s.left ∧ (s'.status p).hasEnded = true := by
  have h := Fork.created_execute hp names
  have hw := waiting_execute hp hactive hold hkeep
  have hnodup : ((order ++ [last]).map (·.1)).Nodup := horder.nodup_iff.2 h.nodup
  have hwait : Waiting p (order.map (·.1) ++ [last.1]) (Fork.execute p names s).2 := by
    have hmem : ∀ x, x ∈ order.map (·.1) ++ [last.1] ↔ x ∈ (Fork.execute p names s).1 := by
      intro x
      rw [← horder.mem_iff, List.map_append]
      rfl
    exact ⟨hw.active, fun x hx => hw.running x ((hmem x).1 hx),
      fun x hx => hw.mem x ((hmem x).1 hx),
      fun c hc => (hw.finished c hc).imp_left (hmem c.2).2⟩
  rw [List.map_append] at hnodup
  constructor
  · rintro begun ⟨rest, rfl⟩
    rw [List.map_append, List.append_assoc] at hwait hnodup
    obtain ⟨s', h', -, hleft, hp', -⟩ := hwait.finishAll hnodup
      (List.append_ne_nil_of_right_ne_nil _ (List.cons_ne_nil _ _)) hE hn
    exact ⟨s', h', hleft.trans h.left, hp'.trans (h.old p hp).2⟩
  · obtain ⟨s₁, h₁, htree, hleft, hp₁, hw₁⟩ : ∃ s₁, finishAll (Join.default node successor) E n
        (Fork.execute p names s).2 order = some s₁ ∧ _ :=
      hwait.finishAll hnodup (List.cons_ne_nil _ _) hE hn
    obtain ⟨s', h', hs'⟩ := hw₁.finish_last hE (htree ▸ hn) last.2
    refine ⟨s', ?_, ?_⟩
    · rw [finishAll] at h₁
      rw [finishAll, List.foldlM_append, h₁]
      exact (congrArg (· >>= pure) h').trans rfl
    · rw [← (h.old p hp).2, ← hp₁, ← h.left, ← hleft]
      exact hs'

/-- The parent leaves the join once if some child has reached it, and ends otherwise. -/
def JoinsIfReached (J : Join N) (E : EndState N) (n p : ℕ) (s : Tokens N)
    (order : List (ℕ × Outcome)) : Prop :=
  ∃ s', finishAll J E n s order = some s' ∧
    if ∃ c ∈ order, c.2 = .arrives then
      s'.left = s.left ++ [p] ∧ s'.status p = { s.status p with node := some J.successor }
    else s'.left = s.left ∧ (s'.status p).hasEnded = true

/-- A root token that stands in a node. -/
def start (node : N) : Tokens N := ⟨.root, fun _ => ⟨some node, false, true⟩, []⟩

/-- Two paths: one comes to an end state, then the other one arrives at the join. -/
theorem finishAll_of_last_two : ∃ s', finishAll (Join.default 1 2) ⟨3, false⟩ 3
    (Fork.execute 0 [some "cheese", some "bread"] (start 0)).2 [(1, .ends), (2, .arrives)] =
      some s' ∧ s'.left = [0] ∧ s'.status 0 = ⟨some 2, false, true⟩ :=
  (finishAll_of_last [some "cheese", some "bread"] [(1, .ends)] (2, .arrives) rfl (by decide)
    rfl (by decide) (by decide) (by decide) (by decide)).2

/-- The first path arrives at the join, and the second one comes to an end state. -/
theorem not_joinsIfReached : ¬ ∀ (E : EndState ℕ) (n p : ℕ) (s : Tokens ℕ)
    (names : List (Option String)) (order : List (ℕ × Outcome)), E.endCompleteProcess = false →
    p < s.tree.size → (s.status p).hasEnded = false → s.tree.children p = [] →
    (Fork.execute p names s).2.tree.size ≤ n → names ≠ [] →
    (order.map (·.1)).Perm (Fork.execute p names s).1 →
    JoinsIfReached (Join.default 1 2) E n p (Fork.execute p names s).2 order := by
  intro h
  obtain ⟨s', hs', hif⟩ := h ⟨3, false⟩ 3 0 (start 0) [some "cheese", some "bread"]
    [(1, .arrives), (2, .ends)] rfl (by decide) rfl rfl (by decide) (by decide) (by decide)
  rw [if_pos (by decide)] at hif
  have hleft : (finishAll (Join.default 1 2) ⟨3, false⟩ 3
      (Fork.execute 0 [some "cheese", some "bread"] (start 0)).2
      [(1, .arrives), (2, .ends)]).map (·.left) = some [] := rfl
  rw [hs', Option.map_some, hif.1] at hleft
  cases hleft

end ForkJoin

end Jbpm
