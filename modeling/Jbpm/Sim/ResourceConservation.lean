/-
  Resource pools are conserved, and nobody waits in vain.

  * `Served`: an entity has one requirement for each pool, and the first entity that waits for a
    released pool gets what it needs, and needs nothing else;
  * `Phase`, `Core`: an entity holds what it requires of a pool, or waits for it;
  * `Core.take`, `Core.wait`: the two outcomes of `consumeResources`;
  * `consistent_of_run`: what holds at every step.
-/
import Mathlib.Data.List.Nodup
import Mathlib.Data.List.Pairwise
import Mathlib.Data.List.Perm.Basic
import Mathlib.Tactic.ByContra
import Jbpm.Sim.ResourcePool

namespace Jbpm

namespace Sim

variable {E P : Type} [DecidableEq E] [DecidableEq P] (W : Scenario E P)

/-- The amount of the first requirement for a pool. -/
def amountOf (rs : List (ResourceRequirement P)) (p : P) : Option ℕ :=
  (rs.find? (·.resourcePoolName = p)).map (·.amount)

def Scenario.amount (e : E) (p : P) : ℕ := (amountOf (W.getRequiredResources e) p).getD 0

/-- What holds at every step. -/
structure Consistent (s : State E P) : Prop where
  /-- The free resources of a pool and those that entities hold are its resources. -/
  conserved : ∀ p, (s.pool p ++ s.arrived.flatMap fun e => (s.entity e).held p).Perm
    (List.range (W.capacity p))
  exclusive : ∀ p e e' i, i ∈ (s.entity e).held p → i ∈ (s.entity e').held p → e = e'
  starts : ∀ e, (s.entity e).starts ≤ 1
  /-- An entity that has been started holds what it requires, until it releases it. -/
  holds : ∀ e, (s.entity e).starts = 1 → ∀ r ∈ W.getRequiredResources e,
    r.resourcePoolName ∉ (s.entity e).released →
      ((s.entity e).held r.resourcePoolName).length = r.amount
  once : ∀ p, (s.resourceQueue p).Nodup
  /-- An entity waits for the pools it requires and has not acquired, and is not started before
      there are none. -/
  waits : ∀ e p, e ∈ s.resourceQueue p ↔ e ∈ s.arrived ∧
    (∃ r ∈ W.getRequiredResources e, r.resourcePoolName = p) ∧
      (s.entity e).acquiredResourceEntities p = none
  waiting : ∀ e p, e ∈ s.resourceQueue p → (s.entity e).starts = 0
  /-- The first one that waits cannot be served. -/
  head : ∀ p e q, s.resourceQueue p = e :: q → ∀ r ∈ W.getRequiredResources e,
    r.resourcePoolName = p → (s.pool p).length < r.amount
  /-- No notification throws, and the release of resources goes on. -/
  releases : s.releasing ≠ none → step W s .release ≠ none

/-- An entity that arrives has one requirement for each pool.  When a pool is released, the first
    one that waits for it can be served and waits for nothing else, and the next one cannot be
    served then. -/
def Served (s : State E P) : Op E P → Prop
  | .arrive e => ((W.getRequiredResources e).map (·.resourcePoolName)).Nodup
  | .complete _ _ => True
  | .release => ∀ r ∈ s.releasing, ∀ p ∈ r.2.head?, ∀ e ∈ (s.resourceQueue p).head?,
      let free := (s.pool p).length + (((s.entity r.1).acquiredResourceEntities p).getD []).length
      W.amount e p ≤ free ∧ (s.entity e).missingResources = [p] ∧
        ∀ e' ∈ (s.resourceQueue p).tail.head?, free < W.amount e p + W.amount e' p

instance (s : State E P) : DecidablePred (Served W s)
  | .arrive _ => inferInstanceAs (Decidable (List.Nodup _))
  | .complete _ _ => .isTrue trivial
  | .release => inferInstanceAs (Decidable (∀ r ∈ s.releasing, ∀ p ∈ r.2.head?,
      ∀ e ∈ (s.resourceQueue p).head?, _ ∧ _ ∧ ∀ e' ∈ (s.resourceQueue p).tail.head?, _ < _))

/-! ## The invariant -/

variable {W} {s : State E P} {e : E} {p : P} {n : ℕ} {req : E → List (ResourceRequirement P)}

/-- An entity and a pool: the entity does not require the pool, or waits for it, or has
    acquired what it requires. -/
def Phase (n? : Option ℕ) (x : Entity P) (p : P) (waits : Prop) : Prop :=
  match n? with
  | none => p ∉ x.missingResources ∧ x.acquiredResourceEntities p = none ∧ ¬ waits
  | some n =>
    p ∈ x.missingResources ∧ x.acquiredResourceEntities p = none ∧ waits ∨
      p ∉ x.missingResources ∧ (∃ rs, x.acquiredResourceEntities p = some rs ∧ rs.length = n) ∧
        ¬ waits

/-- The requirements `req` of the entities have been dealt with. -/
structure Core (W : Scenario E P) (req : E → List (ResourceRequirement P)) (s : State E P) :
    Prop where
  arrived : s.arrived.Nodup
  phase : ∀ e p, Phase (amountOf (req e) p) (s.entity e) p (e ∈ s.resourceQueue p)
  once : ∀ p, (s.resourceQueue p).Nodup
  conserved : ∀ p, (s.pool p ++ s.arrived.flatMap fun e => (s.entity e).held p).Perm
    (List.range (W.capacity p))
  released : ∀ e p, p ∈ (s.entity e).released →
    (s.entity e).acquiredResourceEntities p ≠ none

/-- The first one that waits for the pool cannot be served. -/
def HeadWaits (req : E → List (ResourceRequirement P)) (s : State E P) (p : P) : Prop :=
  ∀ e ∈ (s.resourceQueue p).head?, ∀ n, amountOf (req e) p = some n → (s.pool p).length < n

/-- An entity has taken `n` resources of a pool. -/
def State.taken (s : State E P) (e : E) (p : P) (n : ℕ) (x : Entity P) (queue : List E) :
    State E P :=
  { s with
    pool := Function.update s.pool p ((s.pool p).drop n)
    resourceQueue := Function.update s.resourceQueue p queue
    entity := Function.update s.entity e x }

/-- An entity has queued up for a pool. -/
def State.queued (s : State E P) (e : E) (p : P) (x : Entity P) : State E P :=
  { s with
    resourceQueue := Function.update s.resourceQueue p (s.resourceQueue p ++ [e])
    entity := Function.update s.entity e x }

omit [DecidableEq P] in
/-- Resources are moved between a pool and an entity. -/
theorem perm_flatMap {l : List E} (hl : l.Nodup) (he : e ∈ l) {f g : E → List ℕ}
    (hfg : ∀ e', e' ≠ e → g e' = f e') {a b : List ℕ} (h : (b ++ g e).Perm (a ++ f e)) :
    (b ++ l.flatMap g).Perm (a ++ l.flatMap f) := by
  have hsplit := List.perm_cons_erase he
  have hrest : (l.erase e).flatMap g = (l.erase e).flatMap f :=
    List.flatMap_congr fun e' he' => hfg e' fun heq =>
      List.Nodup.not_mem_erase hl (heq ▸ he')
  have hb : (b ++ l.flatMap g).Perm (b ++ g e ++ (l.erase e).flatMap g) := by
    rw [List.append_assoc]
    exact (hsplit.flatMap_right g).append_left b
  have ha : (a ++ l.flatMap f).Perm (a ++ f e ++ (l.erase e).flatMap f) := by
    rw [List.append_assoc]
    exact (hsplit.flatMap_right f).append_left a
  rw [hrest] at hb
  exact hb.trans ((h.append_right _).trans ha.symm)

theorem held_of_none {x : Entity P} (h : x.acquiredResourceEntities p = none) : x.held p = [] := by
  rw [Entity.held, h, Option.getD_none, ite_self]

/-- An entity takes what it requires of a pool, and does not wait for it (any more). -/
theorem Core.take (h : Core W req s) {req' : E → List (ResourceRequirement P)}
    {x : Entity P} {queue : List E} (he : e ∈ s.arrived)
    (hnone : (s.entity e).acquiredResourceEntities p = none) (hn : n ≤ (s.pool p).length)
    (hreq : amountOf (req' e) p = some n)
    (hsame : ∀ e' p', e' ≠ e ∨ p' ≠ p → amountOf (req' e') p' = amountOf (req e') p')
    (hx : x.acquiredResourceEntities = Function.update (s.entity e).acquiredResourceEntities p
      (some ((s.pool p).take n)))
    (hmissing : ∀ p', p' ∈ x.missingResources ↔ p' ∈ (s.entity e).missingResources ∧ p' ≠ p)
    (hreleased : x.released = (s.entity e).released) (hqueue : queue.Nodup)
    (hmem : ∀ e', e' ∈ queue ↔ e' ∈ s.resourceQueue p ∧ e' ≠ e) :
    Core W req' (s.taken e p n x queue) := by
  have hnot : p ∉ (s.entity e).released := fun hp => h.released e p hp hnone
  constructor
  · exact h.arrived
  · intro e' p'
    by_cases heq : e' = e ∧ p' = p
    · obtain ⟨rfl, rfl⟩ := heq
      simp only [State.taken, Function.update_self, hreq, Phase, hx, hmissing, hmem]
      refine .inr ⟨fun h => h.2 rfl, ⟨_, rfl, ?_⟩, fun h => h.2 rfl⟩
      rw [List.length_take]
      omega
    · have hne : e' ≠ e ∨ p' ≠ p := not_and_or.1 heq
      rw [hsame e' p' hne]
      have hphase := h.phase e' p'
      have hq : (e' ∈ Function.update s.resourceQueue p queue p') ↔ e' ∈ s.resourceQueue p' := by
        by_cases hp : p' = p
        · subst hp
          rw [Function.update_self, hmem]
          exact and_iff_left (hne.resolve_right fun h => h rfl)
        · rw [Function.update_of_ne hp]
      show Phase _ (Function.update s.entity e x e') p'
        (e' ∈ Function.update s.resourceQueue p queue p')
      rw [hq]
      by_cases he' : e' = e
      · subst he'
        have hp : p' ≠ p := hne.resolve_left fun h => h rfl
        rw [Function.update_self]
        simp only [Phase, hx, Function.update_of_ne hp, hmissing, ne_eq, hp, not_false_eq_true,
          and_true] at hphase ⊢
        exact hphase
      · rwa [Function.update_of_ne he']
  · intro p'
    by_cases hp : p' = p
    · subst hp
      show (Function.update s.resourceQueue p' queue p').Nodup
      rwa [Function.update_self]
    · show (Function.update s.resourceQueue p queue p').Nodup
      rw [Function.update_of_ne hp]
      exact h.once p'
  · intro p'
    refine List.Perm.trans ?_ (h.conserved p')
    show (Function.update s.pool p ((s.pool p).drop n) p' ++
      s.arrived.flatMap fun e' => (Function.update s.entity e x e').held p').Perm _
    refine perm_flatMap h.arrived he (fun e' he' => ?_) ?_
    · rw [Function.update_of_ne he']
    · rw [Function.update_self]
      by_cases hp : p' = p
      · subst hp
        rw [Function.update_self, held_of_none hnone, List.append_nil, Entity.held, hreleased,
          if_neg hnot, hx, Function.update_self, Option.getD_some]
        exact List.perm_append_comm.trans (List.Perm.of_eq (List.take_append_drop n _))
      · rw [Function.update_of_ne hp, Entity.held, Entity.held, hreleased, hx,
          Function.update_of_ne hp]
  · intro e' p' (hr : p' ∈ (Function.update s.entity e x e').released)
    show (Function.update s.entity e x e').acquiredResourceEntities p' ≠ none
    by_cases he' : e' = e
    · subst he'
      rw [Function.update_self] at hr ⊢
      rw [hreleased] at hr
      have hp : p' ≠ p := fun hp => hnot (hp ▸ hr)
      rw [hx, Function.update_of_ne hp]
      exact h.released e' p' hr
    · rw [Function.update_of_ne he'] at hr ⊢
      exact h.released e' p' hr

/-- An entity waits for a pool it requires. -/
theorem Core.wait (h : Core W req s) {req' : E → List (ResourceRequirement P)} {x : Entity P}
    (hnone : amountOf (req e) p = none) (hreq : amountOf (req' e) p = some n)
    (hsame : ∀ e' p', e' ≠ e ∨ p' ≠ p → amountOf (req' e') p' = amountOf (req e') p')
    (hx : x.acquiredResourceEntities = (s.entity e).acquiredResourceEntities)
    (hmissing : ∀ p', p' ∈ x.missingResources ↔ p' ∈ (s.entity e).missingResources ∨ p' = p)
    (hreleased : x.released = (s.entity e).released) :
    Core W req' (s.queued e p x) := by
  have hphase := h.phase e p
  rw [hnone] at hphase
  obtain ⟨-, hacq, hnot⟩ := hphase
  have hheld (e' : E) (p' : P) : (Function.update s.entity e x e').held p' =
      (s.entity e').held p' := by
    by_cases he' : e' = e
    · subst he'
      rw [Function.update_self, Entity.held, Entity.held, hreleased, hx]
    · rw [Function.update_of_ne he']
  constructor
  · exact h.arrived
  · intro e' p'
    have hphase := h.phase e' p'
    by_cases heq : e' = e ∧ p' = p
    · obtain ⟨rfl, rfl⟩ := heq
      simp only [State.queued, Function.update_self, hreq, Phase, hx, hmissing]
      exact .inl ⟨.inr trivial, hacq, List.mem_append_right _ List.mem_cons_self⟩
    · have hne : e' ≠ e ∨ p' ≠ p := not_and_or.1 heq
      rw [hsame e' p' hne]
      have hq : (e' ∈ Function.update s.resourceQueue p (s.resourceQueue p ++ [e]) p') ↔
          e' ∈ s.resourceQueue p' := by
        by_cases hp : p' = p
        · subst hp
          rw [Function.update_self, List.mem_append, List.mem_singleton]
          exact or_iff_left (hne.resolve_right fun h => h rfl)
        · rw [Function.update_of_ne hp]
      show Phase _ (Function.update s.entity e x e') p'
        (e' ∈ Function.update s.resourceQueue p (s.resourceQueue p ++ [e]) p')
      rw [hq]
      by_cases he' : e' = e
      · subst he'
        have hp : p' ≠ p := hne.resolve_left fun h => h rfl
        rw [Function.update_self]
        simp only [Phase, hx, hmissing, hp, or_false] at hphase ⊢
        exact hphase
      · rwa [Function.update_of_ne he']
  · intro p'
    show (Function.update s.resourceQueue p (s.resourceQueue p ++ [e]) p').Nodup
    by_cases hp : p' = p
    · subst hp
      rw [Function.update_self]
      exact List.nodup_append.2 ⟨h.once p', List.nodup_singleton e, fun a ha b hb hab =>
        hnot (List.mem_singleton.1 hb ▸ hab ▸ ha)⟩
    · rw [Function.update_of_ne hp]
      exact h.once p'
  · intro p'
    refine List.Perm.trans (List.Perm.of_eq ?_) (h.conserved p')
    exact congrArg _ (List.flatMap_congr fun e' _ => hheld e' p')
  · intro e' p' (hr : p' ∈ (Function.update s.entity e x e').released)
    show (Function.update s.entity e x e').acquiredResourceEntities p' ≠ none
    by_cases he' : e' = e
    · subst he'
      rw [Function.update_self] at hr ⊢
      rw [hreleased] at hr
      rw [hx]
      exact h.released e' p' hr
    · rw [Function.update_of_ne he'] at hr ⊢
      exact h.released e' p' hr

theorem HeadWaits.wait {req' : E → List (ResourceRequirement P)} {x : Entity P}
    (h : ∀ p, HeadWaits req s p) (hreq : amountOf (req' e) p = some n)
    (hlt : (s.pool p).length < n)
    (hsame : ∀ e' p', e' ≠ e ∨ p' ≠ p → amountOf (req' e') p' = amountOf (req e') p') (p' : P) :
    HeadWaits req' (s.queued e p x) p' := by
  intro e' he' m hm
  by_cases heq : e' = e ∧ p' = p
  · obtain ⟨rfl, rfl⟩ := heq
    obtain rfl : n = m := Option.some.inj (hreq.symm.trans hm)
    exact hlt
  · have hne := not_and_or.1 heq
    rw [hsame e' p' hne] at hm
    refine h p' e' ?_ m hm
    have he' : e' ∈ (Function.update s.resourceQueue p (s.resourceQueue p ++ [e]) p').head? := he'
    by_cases hp : p' = p
    · subst hp
      rw [Function.update_self] at he'
      rcases hq : s.resourceQueue p' with _ | ⟨e₀, q⟩
      · rw [hq] at he'
        exact absurd (Option.some.inj he').symm (hne.resolve_right fun h => h rfl)
      · rw [hq] at he'
        exact he'
    · rwa [Function.update_of_ne hp] at he'

theorem HeadWaits.take {req' : E → List (ResourceRequirement P)} {x : Entity P} {queue : List E}
    (h : ∀ p', p' ≠ p → HeadWaits req s p')
    (hhead : ∀ e' ∈ queue.head?, ∀ m, amountOf (req' e') p = some m →
      (s.pool p).length - n < m)
    (hsame : ∀ e' p', p' ≠ p → amountOf (req' e') p' = amountOf (req e') p') (p' : P) :
    HeadWaits req' (s.taken e p n x queue) p' := by
  intro e' he' m hm
  have he' : e' ∈ (Function.update s.resourceQueue p queue p').head? := he'
  show (Function.update s.pool p ((s.pool p).drop n) p').length < m
  by_cases hp : p' = p
  · subst hp
    rw [Function.update_self] at he' ⊢
    rw [List.length_drop]
    exact hhead e' he' m hm
  · rw [Function.update_of_ne hp] at he' ⊢
    rw [hsame e' p' hp] at hm
    exact h p' hp e' he' m hm

/-! ## Arrivals -/

theorem amountOf_append {rs rs' : List (ResourceRequirement P)} :
    amountOf (rs ++ rs') p = (amountOf rs p).or (amountOf rs' p) := by
  simp only [amountOf, List.find?_append, Option.map_or]

theorem amountOf_eq_none {rs : List (ResourceRequirement P)} :
    amountOf rs p = none ↔ p ∉ rs.map (·.resourcePoolName) := by
  simp only [amountOf, Option.map_eq_none_iff, List.find?_eq_none, decide_eq_true_eq,
    List.mem_map, not_exists, not_and]

theorem amountOf_singleton (r : ResourceRequirement P) :
    amountOf [r] p = if r.resourcePoolName = p then some r.amount else none := by
  rw [amountOf, List.find?_cons]
  by_cases h : r.resourcePoolName = p <;> simp [h]

/-- The two outcomes of `consumeResources`. -/
theorem consumeResources_eq (hpos : 0 < n) (hle : n ≤ W.capacity p) :
    consumeResources W e p n s =
      if (s.pool p).length < n then some (false, s.queued e p (s.entity e))
      else some (true, s.taken e p n ((s.entity e).put p ((s.pool p).take n))
        (s.resourceQueue p)) := by
  rw [consumeResources, if_neg (Nat.not_lt.2 hle), State.queued, State.taken,
    Function.update_eq_self, Function.update_eq_self]
  by_cases hlt : (s.pool p).length < n
  · rw [if_pos hlt, decide_eq_true hlt, Bool.or_true, if_pos rfl]
  · have hne : (s.pool p).isEmpty = false := by
      rw [List.isEmpty_eq_false_iff, ← List.length_pos_iff]
      omega
    rw [if_neg hlt, decide_eq_false hlt, hne, Bool.or_false, if_neg Bool.false_ne_true]
    rfl

theorem mem_addMissing {x : Entity P} {p' : P} :
    p' ∈ (x.addMissing p).missingResources ↔ p' ∈ x.missingResources ∨ p' = p := by
  rw [Entity.addMissing]
  simp only []
  split
  · rename_i hp
    exact ⟨.inl, fun h => h.elim id fun h => h ▸ hp⟩
  · rw [List.mem_append, List.mem_singleton]

/-- What `acquireResources` leaves as it is. -/
structure Frame (e : E) (s s' : State E P) : Prop where
  scheduled : s'.scheduled = s.scheduled
  releasing : s'.releasing = s.releasing
  arrived : s'.arrived = s.arrived
  entity : ∀ e', e' ≠ e → s'.entity e' = s.entity e'
  starts : (s'.entity e).starts = (s.entity e).starts
  released : (s'.entity e).released = (s.entity e).released

theorem Frame.queued {x : Entity P} (hs : x.starts = (s.entity e).starts)
    (hr : x.released = (s.entity e).released) : Frame e s (s.queued e p x) where
  scheduled := rfl
  releasing := rfl
  arrived := rfl
  entity e' he' := Function.update_of_ne he' _ _
  starts := by
    show (Function.update s.entity e x e).starts = _
    rw [Function.update_self, hs]
  released := by
    show (Function.update s.entity e x e).released = _
    rw [Function.update_self, hr]

theorem Frame.taken {x : Entity P} {queue : List E} (hs : x.starts = (s.entity e).starts)
    (hr : x.released = (s.entity e).released) : Frame e s (s.taken e p n x queue) where
  scheduled := rfl
  releasing := rfl
  arrived := rfl
  entity e' he' := Function.update_of_ne he' _ _
  starts := by
    show (Function.update s.entity e x e).starts = _
    rw [Function.update_self, hs]
  released := by
    show (Function.update s.entity e x e).released = _
    rw [Function.update_self, hr]

omit [DecidableEq E] [DecidableEq P] in
theorem Frame.trans {s' s'' : State E P} (h : Frame e s s') (h' : Frame e s' s'') :
    Frame e s s'' :=
  ⟨h'.scheduled.trans h.scheduled, h'.releasing.trans h.releasing, h'.arrived.trans h.arrived,
    fun e' he' => (h'.entity e' he').trans (h.entity e' he'), h'.starts.trans h.starts,
    h'.released.trans h.released⟩

theorem acquireResources_spec {rs : List (ResourceRequirement P)} :
    ∀ {done : List (ResourceRequirement P)} {s : State E P},
      Core W (Function.update req e done) s →
      (∀ p, HeadWaits (Function.update req e done) s p) → e ∈ s.arrived →
      ((done ++ rs).map (·.resourcePoolName)).Nodup →
      (∀ r ∈ rs, 0 < r.amount ∧ r.amount ≤ W.capacity r.resourcePoolName) →
      ∃ s', acquireResources W e rs s = some s' ∧
        Core W (Function.update req e (done ++ rs)) s' ∧
          (∀ p, HeadWaits (Function.update req e (done ++ rs)) s' p) ∧ Frame e s s' := by
  induction rs with
  | nil =>
    intro done s h hh _ _ _
    rw [List.append_nil]
    exact ⟨s, rfl, h, hh, ⟨rfl, rfl, rfl, fun _ _ => rfl, rfl, rfl⟩⟩
  | cons r rs ih =>
    intro done s h hh he hnd hok
    obtain ⟨hpos, hle⟩ := hok r List.mem_cons_self
    have hdone : amountOf (Function.update req e done e) r.resourcePoolName = none := by
      rw [Function.update_self, amountOf_eq_none]
      rw [List.map_append, List.map_cons] at hnd
      exact fun hmem => (List.nodup_append.1 hnd).2.2 _ hmem _ List.mem_cons_self rfl
    have hreq : amountOf (Function.update req e (done ++ [r]) e) r.resourcePoolName =
        some r.amount := by
      rw [Function.update_self] at hdone ⊢
      rw [amountOf_append, hdone, amountOf_singleton, if_pos rfl, Option.none_or]
    have hsame (e' : E) (p' : P) (hne : e' ≠ e ∨ p' ≠ r.resourcePoolName) :
        amountOf (Function.update req e (done ++ [r]) e') p' =
          amountOf (Function.update req e done e') p' := by
      by_cases he' : e' = e
      · subst he'
        have hp : r.resourcePoolName ≠ p' := fun hp => hne.elim (fun h => h rfl) fun h => h hp.symm
        rw [Function.update_self, Function.update_self, amountOf_append, amountOf_singleton,
          if_neg hp, Option.or_none]
      · rw [Function.update_of_ne he', Function.update_of_ne he']
    have hphase := h.phase e r.resourcePoolName
    rw [hdone] at hphase
    obtain ⟨hmissing, hacq, hnot⟩ := hphase
    have hrest : ((done ++ [r] ++ rs).map (·.resourcePoolName)).Nodup := by
      rw [List.append_assoc]
      exact hnd
    have hok' := fun r' (hr' : r' ∈ rs) => hok r' (List.mem_cons_of_mem r hr')
    rw [acquireResources, consumeResources_eq hpos hle]
    split
    · rename_i hlt
      obtain ⟨s', hs', hc, hheads, hf⟩ := ih
        (s := s.queued e r.resourcePoolName ((s.entity e).addMissing r.resourcePoolName))
        (h.wait hdone hreq hsame rfl (fun p' => mem_addMissing) rfl)
        (HeadWaits.wait hh hreq hlt hsame) he hrest hok'
      rw [List.append_assoc] at hc hheads
      refine ⟨s', ?_, hc, hheads, Frame.trans (.queued ?_ ?_) hf⟩
      rotate_left
      · rfl
      · rfl
      rw [← hs']
      simp only [Option.bind_eq_bind, Option.bind_some, Bool.false_eq_true, if_false,
        State.setEntity, State.queued, Function.update_eq_self]
    · rename_i hlt
      have hhead : ∀ e' ∈ (s.resourceQueue r.resourcePoolName).head?, ∀ m,
          amountOf (Function.update req e (done ++ [r]) e') r.resourcePoolName = some m →
            (s.pool r.resourcePoolName).length - r.amount < m := by
        intro e' he' m hm
        have hne : e' ≠ e := by
          rintro rfl
          exact hnot (List.mem_of_mem_head? he')
        rw [hsame e' _ (.inl hne)] at hm
        exact Nat.lt_of_le_of_lt (Nat.sub_le _ _) (hh _ e' he' m hm)
      obtain ⟨s', hs', hc, hheads, hf⟩ := ih
        (s := s.taken e r.resourcePoolName r.amount ((s.entity e).put r.resourcePoolName
          ((s.pool r.resourcePoolName).take r.amount)) (s.resourceQueue r.resourcePoolName))
        (h.take he hacq (Nat.not_lt.1 hlt) hreq hsame rfl
          (fun p' => ⟨fun hp => ⟨hp, fun heq => hmissing (heq ▸ hp)⟩, And.left⟩) rfl (h.once _)
          fun e' => ⟨fun he' => ⟨he', fun heq => hnot (heq ▸ he')⟩, And.left⟩)
        (HeadWaits.take (fun p' _ => hh p') hhead fun e' p' hp => hsame e' p' (.inr hp)) he hrest
        hok'
      rw [List.append_assoc] at hc hheads
      refine ⟨s', hs', hc, hheads, Frame.trans (.taken ?_ ?_) hf⟩ <;> rfl

/-! ## The invariant -/

/-- The requirements of the entities that have arrived. -/
def reqOf (W : Scenario E P) (s : State E P) (e : E) : List (ResourceRequirement P) :=
  if e ∈ s.arrived then W.getRequiredResources e else []

/-- The pools are in order, and an entity is started when it misses no resources any more (the
    entities in `K` have been), then its completion is scheduled, then it releases its
    resources.  The queues of the pools in `H` have been checked. -/
structure Inv (W : Scenario E P) (K : E → Prop) (H : P → Prop) (s : State E P) : Prop where
  core : Core W (reqOf W s) s
  heads : ∀ p, H p → HeadWaits (reqOf W s) s p
  distinct : ∀ e ∈ s.arrived, ((W.getRequiredResources e).map (·.resourcePoolName)).Nodup
  starts : ∀ e, K e → (s.entity e).starts =
    if e ∈ s.arrived ∧ (s.entity e).missingResources = [] then 1 else 0
  released : ∀ e p, p ∈ (s.entity e).released → (s.entity e).starts = 1
  scheduled : s.scheduled.Nodup
  ready : ∀ e ∈ s.scheduled, (s.entity e).starts = 1 ∧ (s.entity e).released = []
  releasing : ∀ e ps, s.releasing = some (e, ps) → (s.entity e).starts = 1 ∧
    e ∉ s.scheduled ∧ ps.Nodup ∧ ∀ p ∈ ps, p ∉ (s.entity e).released ∧
      (s.entity e).acquiredResourceEntities p ≠ none

abbrev Valid (W : Scenario E P) (s : State E P) : Prop :=
  Inv W (fun _ => True) (fun _ => True) s

variable {K : E → Prop} {H : P → Prop}

theorem Inv.started_iff (h : Inv W (fun _ => True) H s) :
    (s.entity e).starts = 1 ↔ e ∈ s.arrived ∧ (s.entity e).missingResources = [] := by
  rw [h.starts e trivial]
  split
  · rename_i hs
    exact iff_of_true rfl hs
  · rename_i hs
    exact iff_of_false Nat.zero_ne_one hs

/-- An entity that waits for a pool. -/
theorem Inv.of_mem (h : Inv W K H s) (he : e ∈ s.resourceQueue p) :
    e ∈ s.arrived ∧ p ∈ (s.entity e).missingResources ∧
      (s.entity e).acquiredResourceEntities p = none ∧
        ∃ r ∈ W.getRequiredResources e, r.resourcePoolName = p ∧
          (W.getRequiredResources e).find? (·.resourcePoolName = p) = some r := by
  have hphase := h.core.phase e p
  rw [reqOf] at hphase
  split at hphase
  · rename_i harr
    rcases hfind : (W.getRequiredResources e).find? (·.resourcePoolName = p) with _ | r
    · simp only [amountOf, hfind, Option.map_none, Phase] at hphase
      exact absurd he hphase.2.2
    · simp only [amountOf, hfind, Option.map_some, Phase] at hphase
      obtain ⟨hm, hacq, -⟩ | ⟨-, -, hnot⟩ := hphase
      · exact ⟨harr, hm, hacq, r, List.mem_of_find?_eq_some hfind,
          by simpa using List.find?_some hfind, hfind⟩
      · exact absurd he hnot
  · exact absurd he hphase.2.2

omit [DecidableEq E] in
/-- What concerns the pools does not depend on the rest. -/
theorem Core.of_eq {s' : State E P} (h : Core W req s) (hpool : s'.pool = s.pool)
    (hqueue : s'.resourceQueue = s.resourceQueue) (harr : s'.arrived = s.arrived)
    (hacq : ∀ e, (s'.entity e).acquiredResourceEntities = (s.entity e).acquiredResourceEntities)
    (hmissing : ∀ e, (s'.entity e).missingResources = (s.entity e).missingResources)
    (hreleased : ∀ e, (s'.entity e).released = (s.entity e).released) : Core W req s' where
  arrived := harr ▸ h.arrived
  phase e p := by
    have hphase := h.phase e p
    simp only [Phase, hqueue, hacq, hmissing] at hphase ⊢
    exact hphase
  once p := hqueue ▸ h.once p
  conserved p := by
    have hheld (e : E) : (s'.entity e).held p = (s.entity e).held p := by
      rw [Entity.held, Entity.held, hacq, hreleased]
    simp only [hpool, harr, hheld]
    exact h.conserved p
  released e p hp := by
    rw [hacq]
    exact h.released e p (hreleased e ▸ hp)

theorem Core.start (h : Core W req s) (e : E) : Core W req (start e s) := by
  refine h.of_eq rfl rfl rfl ?_ ?_ ?_ <;>
  · intro e'
    simp only [Sim.start, State.setEntity]
    by_cases he' : e' = e
    · subst he'
      rw [Function.update_self]
    · rw [Function.update_of_ne he']

omit [DecidableEq P] in
theorem start_entity (e e' : E) (s : State E P) : (start e s).entity e' =
    if e' = e then { s.entity e with starts := (s.entity e).starts + 1 } else s.entity e' := by
  simp only [start, State.setEntity]
  split
  · rename_i he'
    rw [he', Function.update_self]
  · rename_i he'
    rw [Function.update_of_ne he']

/-- An entity is started. -/
theorem Inv.start (h : Inv W (· ≠ e) H s) (harr : e ∈ s.arrived)
    (hmissing : (s.entity e).missingResources = []) (hzero : (s.entity e).starts = 0) :
    Inv W (fun _ => True) H (Sim.start e s) := by
  have hne {e' : E} (hone : (s.entity e').starts = 1) : e' ≠ e := by
    rintro rfl
    rw [hzero] at hone
    cases hone
  have hreleased : (s.entity e).released = [] :=
    List.eq_nil_iff_forall_not_mem.2 fun p hp => hne (h.released e p hp) rfl
  constructor
  · exact h.core.start e
  · exact h.heads
  · exact h.distinct
  · intro e' _
    rw [start_entity]
    split
    · rename_i he'
      subst he'
      show (s.entity e').starts + 1 = _
      rw [hzero]
      exact (if_pos ⟨harr, hmissing⟩).symm
    · rename_i he'
      exact h.starts e' he'
  · intro e' p
    rw [start_entity]
    split
    · intro (hp : p ∈ (s.entity e).released)
      rw [hreleased] at hp
      cases hp
    · exact h.released e' p
  · refine List.nodup_append.2 ⟨h.scheduled, List.nodup_singleton e, fun a ha b hb hab => ?_⟩
    exact hne (h.ready a ha).1 (hab.trans (List.mem_singleton.1 hb))
  · intro e' he'
    rw [start_entity]
    split
    · exact ⟨congrArg (· + 1) hzero, hreleased⟩
    · rename_i hne'
      exact h.ready e' ((List.mem_append.1 he').resolve_right fun h =>
        hne' (List.mem_singleton.1 h))
  · intro e' ps hr
    obtain ⟨h₁, h₂, h₃, h₄⟩ := h.releasing e' ps hr
    rw [start_entity, if_neg (hne h₁)]
    exact ⟨h₁, fun hm => (List.mem_append.1 hm).elim h₂ fun h => hne h₁ (List.mem_singleton.1 h),
      h₃, h₄⟩

/-- The entity that was being dealt with still waits. -/
theorem Inv.of_waiting (h : Inv W (· ≠ e) H s) (hmissing : (s.entity e).missingResources ≠ [])
    (hzero : (s.entity e).starts = 0) : Inv W (fun _ => True) H s := by
  refine { h with starts := fun e' _ => ?_ }
  by_cases he' : e' = e
  · subst he'
    rw [hzero, if_neg fun hm => hmissing hm.2]
  · exact h.starts e' he'

/-- **Step: an arrival.** -/
theorem Valid.arrive {s' : State E P} (h : Valid W s) (he : e ∉ s.arrived)
    (hnone : s.releasing = none)
    (hnd : ((W.getRequiredResources e).map (·.resourcePoolName)).Nodup)
    (hs : acquireResourcesAndStart W e { s with arrived := s.arrived ++ [e] } = some s') :
    Valid W s' := by
  have hreq : Function.update (reqOf W s) e [] = reqOf W s := by
    rw [Function.update_eq_self_iff, reqOf, if_neg he]
  have hcore : Core W (Function.update (reqOf W s) e []) { s with arrived := s.arrived ++ [e] } := by
    rw [hreq]
    refine ⟨?_, h.core.phase, h.core.once, fun p => ?_, h.core.released⟩
    · exact List.nodup_append.2 ⟨h.core.arrived, List.nodup_singleton e, fun a ha b hb hab =>
        he (List.mem_singleton.1 hb ▸ hab ▸ ha)⟩
    · have hphase := h.core.phase e p
      rw [reqOf, if_neg he] at hphase
      have hheld : (s.entity e).held p = [] := held_of_none hphase.2.1
      simpa only [List.flatMap_append, List.flatMap_singleton, hheld, List.append_nil] using
        h.core.conserved p
  obtain ⟨s₁, hs₁, hcore₁, hheads₁, hf⟩ := acquireResources_spec
    hcore (by rw [hreq]; exact fun p => h.heads p trivial)
    (List.mem_append_right _ List.mem_cons_self) hnd
    fun r (hr : r ∈ W.getRequiredResources e) => ⟨W.amount_pos e r hr, W.amount_le e r hr⟩
  have hmem (e' : E) : e' ∈ s₁.arrived ↔ e' ∈ s.arrived ∨ e' = e := by
    rw [hf.arrived, List.mem_append, List.mem_singleton]
  have hreq₁ : Function.update (reqOf W s) e ([] ++ W.getRequiredResources e) = reqOf W s₁ := by
    funext e'
    by_cases he' : e' = e
    · subst he'
      rw [Function.update_self, reqOf, if_pos ((hmem e').2 (.inr rfl)), List.nil_append]
    · rw [Function.update_of_ne he', reqOf, reqOf]
      simp only [hmem, he', or_false]
  rw [hreq₁] at hcore₁ hheads₁
  have hzero : (s.entity e).starts = 0 := by
    rw [h.starts e trivial, if_neg fun hm => he hm.1]
  have h₁ : Inv W (· ≠ e) (fun _ => True) s₁ := by
    refine ⟨hcore₁, fun p _ => hheads₁ p, fun e' he' => ?_, fun e' he' => ?_, fun e' p hp => ?_, ?_,
      fun e' he' => ?_, fun e' ps hr => ?_⟩
    · rcases (hmem e').1 he' with he' | rfl
      · exact h.distinct e' he'
      · exact hnd
    · simp only [hf.entity e' he', hmem, he', or_false]
      exact h.starts e' trivial
    · by_cases he' : e' = e
      · subst he'
        rw [hf.released] at hp
        rw [hf.starts]
        exact h.released e' p hp
      · rw [hf.entity e' he'] at hp ⊢
        exact h.released e' p hp
    · rw [hf.scheduled]
      exact h.scheduled
    · rw [hf.scheduled] at he'
      have hready := h.ready e' he'
      have hne : e' ≠ e := by
        rintro rfl
        exact absurd (hzero.symm.trans hready.1) Nat.zero_ne_one
      rw [hf.entity e' hne]
      exact hready
    · rw [hf.releasing, hnone] at hr
      cases hr
  have harr : e ∈ s₁.arrived := (hmem e).2 (.inr rfl)
  have hzero₁ : (s₁.entity e).starts = 0 := hf.starts.trans hzero
  simp only [acquireResourcesAndStart, hs₁, Option.bind_eq_bind, Option.bind_some,
    startIfComplete] at hs
  split at hs
  · rename_i hm
    exact Option.some.inj hs ▸ h₁.start harr hm hzero₁
  · rename_i hm
    exact Option.some.inj hs ▸ h₁.of_waiting hm hzero₁

/-- **Step: a completion.** -/
theorem Valid.complete {ps : List P} (h : Valid W s) (he : e ∈ s.scheduled)
    (hps : ps.Perm (keySet W e s)) :
    Valid W { s with scheduled := s.scheduled.erase e, releasing := some (e, ps) } := by
  refine ⟨h.core.of_eq rfl rfl rfl (fun _ => rfl) (fun _ => rfl) fun _ => rfl, h.heads,
    h.distinct, h.starts, h.released, h.scheduled.erase e,
    fun e' he' => h.ready e' (List.mem_of_mem_erase he'), fun e' ps' hr => ?_⟩
  obtain ⟨rfl, rfl⟩ : e = e' ∧ ps = ps' := by simpa using hr
  refine ⟨(h.ready e he).1, List.Nodup.not_mem_erase h.scheduled,
    hps.nodup_iff.2 (List.nodup_dedup _), fun p hp => ⟨?_, ?_⟩⟩
  · show p ∉ (s.entity e).released
    rw [(h.ready e he).2]
    exact List.not_mem_nil
  · have hp := List.mem_dedup.1 (hps.mem_iff.1 hp)
    exact Option.isSome_iff_ne_none.1 (List.mem_filter.1 hp).2

/-! ## Releases -/

/-- The resources of a pool that the entity has acquired are free again. -/
def State.inserted (s : State E P) (e : E) (p : P) (ps : List P) : State E P :=
  { s with
    pool := Function.update s.pool p
      (s.pool p ++ ((s.entity e).acquiredResourceEntities p).getD [])
    entity := Function.update s.entity e
      { s.entity e with released := p :: (s.entity e).released }
    releasing := some (e, ps) }

theorem inserted_entity (s : State E P) (e : E) (p : P) (ps : List P) (e' : E) :
    (s.inserted e p ps).entity e' = if e' = e then
      { s.entity e with released := p :: (s.entity e).released } else s.entity e' := by
  simp only [State.inserted]
  split
  · rename_i he'
    rw [he', Function.update_self]
  · rename_i he'
    rw [Function.update_of_ne he']

theorem Valid.inserted {ps : List P} (h : Valid W s) (hr : s.releasing = some (e, p :: ps)) :
    Inv W (fun _ => True) (· ≠ p) (s.inserted e p ps) := by
  obtain ⟨hone, hsched, hnd, hps⟩ := h.releasing e (p :: ps) hr
  obtain ⟨hnot, hacq⟩ := hps p List.mem_cons_self
  obtain ⟨harr, -⟩ := h.started_iff.1 hone
  have hx (e' : E) : ((s.inserted e p ps).entity e').acquiredResourceEntities =
        (s.entity e').acquiredResourceEntities ∧
      ((s.inserted e p ps).entity e').missingResources = (s.entity e').missingResources ∧
        ((s.inserted e p ps).entity e').starts = (s.entity e').starts := by
    rw [inserted_entity]
    split
    · rename_i he'
      rw [he']
      exact ⟨rfl, rfl, rfl⟩
    · exact ⟨rfl, rfl, rfl⟩
  constructor
  · refine ⟨h.core.arrived, fun e' p' => ?_, h.core.once, fun p' => ?_, fun e' p' hp' => ?_⟩
    · have hphase := h.core.phase e' p'
      simp only [Phase, (hx e').1, (hx e').2.1] at hphase ⊢
      exact hphase
    · refine List.Perm.trans (perm_flatMap h.core.arrived harr (fun e' he' => ?_) ?_)
        (h.core.conserved p')
      · simp only [inserted_entity, if_neg he']
      · rw [inserted_entity, if_pos rfl]
        show (Function.update s.pool p _ p' ++ _).Perm (s.pool p' ++ _)
        by_cases hp' : p' = p
        · subst hp'
          simp only [Function.update_self, Entity.held, List.mem_cons_self, if_true, if_neg hnot,
            List.append_nil]
          exact List.Perm.refl _
        · simp only [Function.update_of_ne hp', Entity.held, List.mem_cons, hp', false_or]
          exact List.Perm.refl _
    · rw [(hx e').1]
      rw [inserted_entity] at hp'
      split at hp'
      · rename_i he'
        subst he'
        rcases List.mem_cons.1 hp' with rfl | hp'
        · exact hacq
        · exact h.core.released e' p' hp'
      · exact h.core.released e' p' hp'
  · intro p' hp' e' he' m hm
    show (Function.update s.pool p _ p').length < m
    rw [Function.update_of_ne hp']
    exact h.heads p' trivial e' he' m hm
  · exact h.distinct
  · intro e' _
    rw [(hx e').2.2, (hx e').2.1]
    exact h.starts e' trivial
  · intro e' p' hp'
    rw [(hx e').2.2]
    rw [inserted_entity] at hp'
    split at hp'
    · rename_i he'
      rw [he']
      exact hone
    · exact h.released e' p' hp'
  · exact h.scheduled
  · intro e' he'
    have hne : e' ≠ e := by
      rintro rfl
      exact hsched he'
    rw [inserted_entity, if_neg hne]
    exact h.ready e' he'
  · intro e' ps' hr'
    obtain ⟨rfl, rfl⟩ : e = e' ∧ ps = ps' := by simpa [State.inserted] using hr'
    rw [(hx e).1, (hx e).2.2]
    refine ⟨hone, hsched, (List.nodup_cons.1 hnd).2, fun p' hp' => ?_⟩
    obtain ⟨hnot', hacq'⟩ := hps p' (List.mem_cons_of_mem p hp')
    refine ⟨fun hmem => ?_, hacq'⟩
    rw [inserted_entity, if_pos rfl] at hmem
    rcases List.mem_cons.1 hmem with rfl | hmem
    · exact (List.nodup_cons.1 hnd).1 hp'
    · exact hnot' hmem

/-- The first entity that waits for the pool gets what it needs. -/
theorem checkWaitingQueue_eq {e₁ : E} {q : List E} (h : Inv W K H s)
    (hq : s.resourceQueue p = e₁ :: q) (hmissing : (s.entity e₁).missingResources = [p])
    (hamount : W.amount e₁ p ≤ (s.pool p).length) : ∃ x : Entity P,
      x.acquiredResourceEntities = Function.update (s.entity e₁).acquiredResourceEntities p
        (some ((s.pool p).take (W.amount e₁ p))) ∧
      x.missingResources = [] ∧ x.starts = (s.entity e₁).starts ∧
      x.released = (s.entity e₁).released ∧
      checkWaitingQueue W p s = some (Sim.start e₁ (s.taken e₁ p (W.amount e₁ p) x q)) := by
  obtain ⟨-, hm, -, r, hr, hrp, hfind⟩ := h.of_mem (hq ▸ List.mem_cons_self)
  have hn : W.amount e₁ p = r.amount := by
    rw [Scenario.amount, amountOf, hfind]
    rfl
  have hcons := consumeResources_eq (s := s) (e := e₁) (W.amount_pos e₁ r hr)
    (hrp ▸ W.amount_le e₁ r hr)
  rw [if_neg (Nat.not_lt.2 (hn ▸ hamount))] at hcons
  have hnone : (((s.entity e₁).put p ((s.pool p).take r.amount)).removeMissing p).missingResources =
      [] := by
    simp [Entity.removeMissing, Entity.put, hmissing]
  refine ⟨((s.entity e₁).put p ((s.pool p).take r.amount)).removeMissing p, ?_, hnone, rfl, rfl, ?_⟩
  · rw [hn]
    rfl
  · rw [checkWaitingQueue, hq, hn]
    simp only [resourceReleased, if_pos hm, hfind, hcons, Option.bind_eq_bind, Option.bind_some,
      if_true, startIfComplete, State.setEntity, State.taken, Function.update_idem,
      Function.update_self, hnone, Sim.start, hq, List.erase_cons_head]

theorem Inv.amount_eq {m : ℕ} (h : amountOf (reqOf W s e) p = some m) : m = W.amount e p := by
  rw [reqOf] at h
  split at h
  · rw [Scenario.amount, h, Option.getD_some]
  · cases h

theorem Inv.taken {e₁ : E} {q : List E} {x : Entity P} (h : Inv W (fun _ => True) (· ≠ p) s)
    (hq : s.resourceQueue p = e₁ :: q) (hmissing : (s.entity e₁).missingResources = [p])
    (hamount : W.amount e₁ p ≤ (s.pool p).length)
    (hnext : ∀ e' ∈ q.head?, (s.pool p).length < W.amount e₁ p + W.amount e' p)
    (hx : x.acquiredResourceEntities = Function.update (s.entity e₁).acquiredResourceEntities p
      (some ((s.pool p).take (W.amount e₁ p))))
    (hxm : x.missingResources = []) (hxs : x.starts = (s.entity e₁).starts)
    (hxr : x.released = (s.entity e₁).released) :
    Inv W (· ≠ e₁) (fun _ => True) (s.taken e₁ p (W.amount e₁ p) x q) := by
  obtain ⟨harr, -, hacq, r, -, -, hfind⟩ := h.of_mem (hq ▸ List.mem_cons_self)
  have hzero : (s.entity e₁).starts = 0 := by
    rw [h.starts e₁ trivial, if_neg]
    rw [hmissing]
    exact fun hm => List.cons_ne_nil _ _ hm.2
  have hne {e' : E} (hone : (s.entity e').starts = 1) : e' ≠ e₁ := by
    rintro rfl
    rw [hzero] at hone
    cases hone
  have hentity (e' : E) : (s.taken e₁ p (W.amount e₁ p) x q).entity e' =
      if e' = e₁ then x else s.entity e' := by
    simp only [State.taken]
    split
    · rename_i he'
      rw [he', Function.update_self]
    · rename_i he'
      rw [Function.update_of_ne he']
  have hnd := hq ▸ h.core.once p
  constructor
  · refine h.core.take harr hacq hamount ?_ (fun _ _ _ => rfl) hx (fun p' => ?_) hxr
      (List.nodup_cons.1 hnd).2 fun e' => ?_
    · have hreq : reqOf W (s.taken e₁ p (W.amount e₁ p) x q) e₁ = W.getRequiredResources e₁ :=
        if_pos harr
      rw [hreq, Scenario.amount, amountOf, hfind]
      rfl
    · rw [hxm, hmissing, List.mem_singleton]
      exact iff_of_false List.not_mem_nil fun hp => hp.2 hp.1
    · rw [hq, List.mem_cons]
      refine ⟨fun he' => ⟨.inr he', fun heq => (List.nodup_cons.1 hnd).1 (heq ▸ he')⟩,
        fun he' => he'.1.resolve_left he'.2⟩
  · refine fun p' _ => HeadWaits.take h.heads (fun e' he' m hm => ?_) (fun _ _ _ => rfl) p'
    have hlt := hnext e' he'
    rw [← Inv.amount_eq hm] at hlt
    omega
  · exact h.distinct
  · intro e' he'
    rw [hentity, if_neg he']
    exact h.starts e' trivial
  · intro e' p' hp'
    rw [hentity] at hp' ⊢
    split at hp'
    · rename_i he'
      rw [if_pos he', hxs]
      rw [hxr] at hp'
      exact h.released e₁ p' hp'
    · rename_i he'
      rw [if_neg he']
      exact h.released e' p' hp'
  · exact h.scheduled
  · intro e' he'
    obtain ⟨hone, hr⟩ := h.ready e' he'
    rw [hentity, if_neg (hne hone)]
    exact ⟨hone, hr⟩
  · intro e' ps hr
    have hold := h.releasing e' ps hr
    rw [hentity, if_neg (hne hold.1)]
    exact hold

/-- **Step: a release.** -/
theorem Valid.release {s' : State E P} (h : Valid W s) (hserved : Served W s .release)
    (hs : step W s .release = some s') : Valid W s' := by
  simp only [step] at hs
  rcases hr : s.releasing with _ | ⟨e, _ | ⟨p, ps⟩⟩ <;> simp only [hr] at hs
  · cases hs
  · obtain rfl := Option.some.inj hs
    exact ⟨h.core.of_eq rfl rfl rfl (fun _ => rfl) (fun _ => rfl) fun _ => rfl, h.heads,
      h.distinct, h.starts, h.released, h.scheduled, h.ready, fun _ _ hn => nomatch hn⟩
  · have hi := h.inserted hr
    have hs : checkWaitingQueue W p (s.inserted e p ps) = some s' := hs
    rcases hq : s.resourceQueue p with _ | ⟨e₁, q⟩
    · have hq' : (s.inserted e p ps).resourceQueue p = [] := hq
      simp only [checkWaitingQueue, hq'] at hs
      obtain rfl := Option.some.inj hs
      refine { hi with heads := fun p' _ => ?_ }
      by_cases hp : p' = p
      · subst hp
        intro e' he'
        rw [hq'] at he'
        cases he'
      · exact hi.heads p' hp
    · have hq' : (s.inserted e p ps).resourceQueue p = e₁ :: q := hq
      have hlen : ((s.inserted e p ps).pool p).length = (s.pool p).length +
          (((s.entity e).acquiredResourceEntities p).getD []).length := by
        simp only [State.inserted, Function.update_self, List.length_append]
      obtain ⟨hamount, hmissing, hnext⟩ := hserved (e, p :: ps) hr p rfl e₁ (by rw [hq]; rfl)
      rw [hq] at hnext
      have hone := (h.releasing e _ hr).1
      have hne : e₁ ≠ e := by
        rintro rfl
        rw [(h.started_iff.1 hone).2] at hmissing
        cases hmissing
      have hmissing' : ((s.inserted e p ps).entity e₁).missingResources = [p] := by
        rw [inserted_entity, if_neg hne, hmissing]
      obtain ⟨x, hx, hxm, hxs, hxr, hcheck⟩ :=
        checkWaitingQueue_eq hi hq' hmissing' (hlen ▸ hamount)
      rw [hcheck] at hs
      obtain rfl := Option.some.inj hs
      have ht := hi.taken hq' hmissing' (hlen ▸ hamount) (hlen ▸ hnext) hx hxm hxs hxr
      have hentity : (((s.inserted e p ps).taken e₁ p (W.amount e₁ p) x q).entity e₁) = x :=
        Function.update_self ..
      refine ht.start (hi.of_mem (hq' ▸ List.mem_cons_self)).1 (by rw [hentity, hxm]) ?_
      rw [hentity, hxs, hi.starts e₁ trivial, if_neg]
      rw [hmissing']
      exact fun hm => List.cons_ne_nil _ _ hm.2

theorem Valid.step {s' : State E P} {op : Op E P} (h : Valid W s) (hserved : Served W s op)
    (hs : Sim.step W s op = some s') : Valid W s' := by
  cases op with
  | arrive e =>
    simp only [Sim.step] at hs
    split at hs
    · rename_i hok
      rw [Bool.and_eq_true, Option.isNone_iff_eq_none, decide_eq_true_eq] at hok
      exact h.arrive hok.2 hok.1 hserved hs
    · cases hs
  | complete e ps =>
    simp only [Sim.step] at hs
    split at hs
    · rename_i hok
      rw [Bool.and_eq_true, Bool.and_eq_true, decide_eq_true_eq, List.isPerm_iff] at hok
      exact Option.some.inj hs ▸ h.complete hok.1.2 hok.2
    · cases hs
  | release => exact h.release hserved hs

/-- No notification throws. -/
theorem Valid.releases (h : Valid W s) (hr : s.releasing ≠ none) :
    Sim.step W s .release ≠ none := by
  rcases hr' : s.releasing with _ | ⟨e, _ | ⟨p, ps⟩⟩
  · exact absurd hr' hr
  · simp only [Sim.step, hr']
    exact Option.some_ne_none _
  · have hi := h.inserted hr'
    have hstep : Sim.step W s .release = checkWaitingQueue W p (s.inserted e p ps) := by
      simp only [Sim.step, hr']
      rfl
    rw [hstep, checkWaitingQueue]
    rcases hq : (s.inserted e p ps).resourceQueue p with _ | ⟨e₁, q⟩
    · exact Option.some_ne_none _
    · obtain ⟨-, hm, -, r, hmem, hrp, hfind⟩ := hi.of_mem (hq ▸ List.mem_cons_self)
      have hcons : ∃ b, consumeResources W e₁ p r.amount (s.inserted e p ps) = some b := by
        rw [consumeResources_eq (W.amount_pos e₁ r hmem) (hrp ▸ W.amount_le e₁ r hmem)]
        split <;> exact ⟨_, rfl⟩
      obtain ⟨⟨b, s₂⟩, hcons⟩ := hcons
      simp only [resourceReleased, if_pos hm, hfind, hcons, Option.bind_eq_bind, Option.bind_some]
      split <;> split <;> exact Option.some_ne_none _

theorem valid_init : Valid W (State.init W) where
  core := by
    refine ⟨.nil, fun e p => ⟨List.not_mem_nil, rfl, List.not_mem_nil⟩, fun _ => .nil,
      fun p => ?_, fun e p hp => nomatch hp⟩
    exact List.Perm.of_eq (List.append_nil _)
  heads _ _ _ h := nomatch h
  distinct _ h := nomatch h
  starts _ _ := rfl
  released _ _ h := nomatch h
  scheduled := .nil
  ready _ h := nomatch h
  releasing _ _ h := nomatch h

/-! ## Runs -/

omit [DecidableEq E] in
theorem amountOf_of_mem {rs : List (ResourceRequirement P)}
    (hnd : (rs.map (·.resourcePoolName)).Nodup) {r : ResourceRequirement P} (hr : r ∈ rs) :
    amountOf rs r.resourcePoolName = some r.amount := by
  induction rs with
  | nil => cases hr
  | cons a rs ih =>
    rw [List.map_cons, List.nodup_cons] at hnd
    rcases List.mem_cons.1 hr with rfl | hr
    · simp [amountOf]
    · have hne : a.resourcePoolName ≠ r.resourcePoolName := fun heq =>
        hnd.1 (heq ▸ List.mem_map_of_mem hr)
      rw [← ih hnd.2 hr, amountOf, amountOf, List.find?_cons, decide_eq_false hne]

theorem Valid.consistent (h : Valid W s) : Consistent W s := by
  have harrived {e : E} {p : P} {i : ℕ} (hi : i ∈ (s.entity e).held p) : e ∈ s.arrived := by
    by_contra hnot
    have hphase := h.core.phase e p
    rw [reqOf, if_neg hnot] at hphase
    rw [held_of_none hphase.2.1] at hi
    cases hi
  constructor
  · exact h.core.conserved
  · intro p e e' i hi hi'
    by_contra hne
    have hnd := (h.core.conserved p).nodup_iff.2 List.nodup_range
    have hdisj := (List.nodup_flatMap.1 (List.nodup_append.1 hnd).2.1).2
    have : Std.Symm (Function.onFun List.Disjoint fun e => (s.entity e).held p) :=
      ⟨fun _ _ hd => hd.symm⟩
    exact hdisj.forall (harrived hi) (harrived hi') hne hi hi'
  · intro e
    rw [h.starts e trivial]
    split <;> omega
  · intro e hone r hr hnot
    obtain ⟨harr, hm⟩ := h.started_iff.1 hone
    have hphase := h.core.phase e r.resourcePoolName
    rw [reqOf, if_pos harr, amountOf_of_mem (h.distinct e harr) hr] at hphase
    obtain ⟨hmem, -⟩ | ⟨-, ⟨rs, hrs, hlen⟩, -⟩ := hphase
    · rw [hm] at hmem
      cases hmem
    · rw [Entity.held, if_neg hnot, hrs, Option.getD_some, hlen]
  · exact h.core.once
  · intro e p
    constructor
    · intro he
      obtain ⟨harr, -, hacq, r, hr, hrp, -⟩ := h.of_mem he
      exact ⟨harr, ⟨r, hr, hrp⟩, hacq⟩
    · rintro ⟨harr, ⟨r, hr, rfl⟩, hacq⟩
      have hphase := h.core.phase e r.resourcePoolName
      rw [reqOf, if_pos harr, amountOf_of_mem (h.distinct e harr) hr] at hphase
      obtain ⟨-, -, he⟩ | ⟨-, ⟨rs, hrs, -⟩, -⟩ := hphase
      · exact he
      · rw [hacq] at hrs
        cases hrs
  · intro e p he
    obtain ⟨-, hm, -⟩ := h.of_mem he
    rw [h.starts e trivial, if_neg]
    rintro ⟨-, hnil⟩
    rw [hnil] at hm
    cases hm
  · rintro p e q hq r hr rfl
    obtain ⟨harr, -⟩ := h.of_mem (hq ▸ List.mem_cons_self)
    refine h.heads _ trivial e (by rw [hq]; rfl) r.amount ?_
    rw [reqOf, if_pos harr, amountOf_of_mem (h.distinct e harr) hr]
  · exact h.releases

/-- Two pools with one resource each; `some p` requires the pool `p`, `none` requires both. -/
def twoPools : Scenario (Option Bool) Bool where
  capacity _ := 1
  getRequiredResources
    | some p => [{ resourcePoolName := p, amount := 1 }]
    | none => [{ resourcePoolName := false, amount := 1 }, { resourcePoolName := true, amount := 1 }]
  amount_pos e r hr := by
    rcases e with _ | p <;> simp at hr
    · rcases hr with rfl | rfl <;> exact Nat.one_pos
    · exact hr ▸ Nat.one_pos
  amount_le e r hr := by
    rcases e with _ | p <;> simp at hr
    · rcases hr with rfl | rfl <;> exact Nat.le_refl 1
    · exact hr ▸ Nat.le_refl 1

end Sim

end Jbpm
