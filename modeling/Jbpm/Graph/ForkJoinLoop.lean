/-
  A process that passes through the same fork and join again and again.

  * `Loop.Once`: the parent has left the join once in every earlier iteration, and once in
    this one if the tokens of this one that it requires have arrived;
  * `Loop.once_of_run`: so it is in all runs in which no forked token replaces a sibling
    and, for an n-out-of-m join, left-over tokens at the join do not make up for tokens
    of the iteration;
  * `Loop.not_once_twoOfThree`: two out of three, twice.
-/
import Jbpm.Lib.Run
import Jbpm.Graph.ForkJoinSteps

namespace Jbpm

open Lib

namespace ForkJoin

inductive JoinKind
  | default
  | discriminator
  | nOutOfM (n : ℕ)
  deriving DecidableEq

/-- The arrivals of an iteration of `m` tokens that a join waits for. -/
def JoinKind.required (m : ℕ) : JoinKind → ℕ
  | default => m
  | discriminator => 1
  | nOutOfM n => n

/-- The number of arrivals that an n-out-of-m join is configured with. -/
def JoinKind.n : JoinKind → Option ℕ
  | nOutOfM n => some n
  | _ => none

def JoinKind.join {N : Type} (node successor : N) : JoinKind → Join N
  | default => .default node successor
  | discriminator => .discriminator node successor
  | nOutOfM n => .nOutOfMJoin node successor n

/-- A fork and a join. -/
structure Loop (N : Type) where
  fork : N
  transitionNames : List (Option String)
  node : N
  successor : N
  kind : JoinKind

namespace Loop

variable {N : Type}

def join (L : Loop N) : Join N := L.kind.join L.node L.successor

theorem join_node {L : Loop N} : L.join.node = L.node := by
  rw [join]
  cases L.kind <;> rfl

structure WellFormed (L : Loop N) : Prop where
  fork_ne_node : L.fork ≠ L.node
  pos : 0 < L.kind.required L.transitionNames.length

/-- The tokens that were forked in each iteration, the last one first. -/
structure State (N : Type) where
  tokens : Tokens N
  iterations : List (List ℕ)

inductive Step (N : Type)
  /-- the parent enters the fork -/
  | pass
  /-- a child goes on to a node on its way -/
  | move (t : ℕ) (node : N)
  /-- a child arrives at the join, in the iteration it was forked in or later -/
  | arrive (t : ℕ)

variable [DecidableEq N] (L : Loop N) (p : ℕ)

def step (s : State N) : Step N → Option (State N)
  | .pass =>
    let (ids, tokens) := Fork.execute p L.transitionNames (s.tokens.setNode p L.fork)
    some ⟨tokens, ids :: s.iterations⟩
  | .move t node => some { s with tokens := s.tokens.setNode t node }
  | .arrive t => (L.join.enter s.tokens.tree.size t s.tokens).map fun tokens =>
      { s with tokens := tokens }

/-- The parent stays in the fork until it has left the join; children are on their way until
    they have ended. -/
def Legal (s : State N) : Step N → Prop
  | .pass => (s.tokens.status p).node ≠ some L.fork
  | .move t node => s.tokens.tree.parent t = some p ∧ (s.tokens.status t).hasEnded = false ∧
      node ≠ L.node
  | .arrive t => s.tokens.tree.parent t = some p ∧ (s.tokens.status t).hasEnded = false

/-- How many of some tokens stand at the join. -/
def standing (ids : List ℕ) (s : Tokens N) : ℕ :=
  ids.countP fun t => (s.status t).node = some L.node

/-- The iteration has what the join requires. -/
def Complete (ids : List ℕ) (s : Tokens N) : Prop :=
  L.kind.required L.transitionNames.length ≤ L.standing ids s

instance (ids : List ℕ) (s : Tokens N) : Decidable (L.Complete ids s) :=
  inferInstanceAs (Decidable (_ ≤ _))

/-- The parent has left the join once per iteration, at the arrival that completed the
    requirement of the iteration. -/
def Once (s : State N) : Prop :=
  s.tokens.left.count p = match s.iterations with
    | [] => 0
    | ids :: earlier => earlier.length + if L.Complete ids s.tokens then 1 else 0

instance (s : State N) : Decidable (L.Once p s) := inferInstanceAs (Decidable (_ = _))

/-- A fork does not replace a token it has just created.  If a token of the iteration
    arrives at an n-out-of-m join, then with it there are `n` tokens of the iteration at the
    join, or there are less than `n` tokens there, left-over ones included. -/
def Undisturbed (s : State N) : Step N → Prop
  | .pass => Fork.KeepsChildren p L.transitionNames (s.tokens.setNode p L.fork)
  | .move _ _ => True
  | .arrive t => ∀ ids ∈ s.iterations.head?, t ∈ ids → ∀ n ∈ L.kind.n,
      L.Complete ids (s.tokens.setNode t L.node) ∨
      L.join.countAtJoin p (s.tokens.setNode t L.node) < n

instance (s : State N) : ∀ l, Decidable (L.Legal p s l)
  | .pass => inferInstanceAs (Decidable (_ ≠ _))
  | .move _ _ => inferInstanceAs (Decidable (_ ∧ _ ∧ _))
  | .arrive _ => inferInstanceAs (Decidable (_ ∧ _))

instance (s : State N) : ∀ l, Decidable (L.Undisturbed p s l)
  | .pass => inferInstanceAs (Decidable (Fork.KeepsChildren _ _ _))
  | .move _ _ => .isTrue trivial
  | .arrive _ => inferInstanceAs (Decidable (∀ ids ∈ _, _ → ∀ n ∈ _, _))

/-! ## The invariant -/

/-- The iteration `ids`, during which the parent stands in the fork until it leaves the
    join. -/
structure Iteration (ids : List ℕ) (s : Tokens N) : Prop where
  nodup : ids.Nodup
  length : ids.length = L.transitionNames.length
  child : ∀ x ∈ ids, s.tree.parent x = some p ∧ x ∈ (s.tree.children p).map (·.2)
  arrived : ∀ x ∈ ids, (s.status x).node = some L.node ↔ (s.status x).hasEnded = true
  able : ∀ x ∈ ids, (s.status x).hasEnded = false → ¬ L.Complete ids s →
    (s.status x).isAbleToReactivateParent = true
  waits : ¬ L.Complete ids s → (s.status p).node = some L.fork

structure Inv (s : State N) : Prop where
  size : p < s.tokens.tree.size
  once : L.Once p s
  iteration : ∀ ids ∈ s.iterations.head?, L.Iteration p ids s.tokens
  /-- left-over tokens cannot reactivate the parent -/
  able : ∀ x, s.tokens.tree.parent x = some p →
    (s.tokens.status x).isAbleToReactivateParent = true →
    ∃ ids ∈ s.iterations.head?, x ∈ ids ∧ (s.tokens.status x).hasEnded = false ∧
      ¬ L.Complete ids s.tokens

variable {L p} {s s' : State N} {ids : List ℕ} {t : ℕ}

theorem standing_congr {s s' : Tokens N} (h : ∀ x ∈ ids,
    (s'.status x).node = some L.node ↔ (s.status x).node = some L.node) :
    L.standing ids s' = L.standing ids s :=
  List.countP_congr fun x hx => by rw [decide_eq_true_iff, decide_eq_true_iff, h x hx]

/-- The parent is not complete before it has begun. -/
theorem not_complete_of_new (hL : L.WellFormed) {s : Tokens N}
    (h : ∀ x ∈ ids, (s.status x).node = some L.fork) : ¬ L.Complete ids s := by
  have hzero : L.standing ids s = 0 := by
    refine List.countP_eq_zero.2 fun x hx => ?_
    simpa [h x hx] using hL.fork_ne_node
  have hpos := hL.pos
  rw [Complete, hzero]
  omega

theorem Inv.pass (hL : L.WellFormed) (h : L.Inv p s) (hlegal : L.Legal p s .pass)
    (hu : L.Undisturbed p s .pass) (hs : L.step p s .pass = some s') : L.Inv p s' := by
  obtain rfl := Option.some.inj hs
  have hf := Fork.created_execute (s := s.tokens.setNode p L.fork) (p := p) h.size
    L.transitionNames
  have hp : (s.tokens.setNode p L.fork).status p =
      { s.tokens.status p with node := some L.fork } := Function.update_self p _ _
  have hnew : ∀ x ∈ (Fork.execute p L.transitionNames (s.tokens.setNode p L.fork)).1,
      ((Fork.execute p L.transitionNames (s.tokens.setNode p L.fork)).2.status x) =
        ⟨some L.fork, false, true⟩ := by
    intro x hx
    rw [(hf.new x hx).2.2, hp]
  have hnot := not_complete_of_new hL fun x hx => congrArg TokenStatus.node (hnew x hx)
  -- the parent has left the join in the iteration before
  have hunable : ∀ x, s.tokens.tree.parent x = some p →
      (s.tokens.status x).isAbleToReactivateParent = false := by
    intro x hx
    refine Bool.eq_false_iff.2 fun hable => ?_
    obtain ⟨ids, hids, -, -, hn⟩ := h.able x hx hable
    exact hlegal ((h.iteration ids hids).waits hn)
  constructor
  · exact Nat.lt_of_lt_of_le h.size hf.size
  · have honce := h.once
    rw [Once] at honce ⊢
    simp only [hf.left, if_neg hnot]
    refine honce.trans ?_
    rcases hit : s.iterations with _ | ⟨ids, earlier⟩
    · rfl
    · have hc : L.Complete ids s.tokens := by
        by_contra hn
        exact hlegal ((h.iteration ids (by rw [hit]; rfl)).waits hn)
      simp only [if_pos hc, List.length_cons, Nat.add_zero]
  · rintro ids ⟨rfl⟩
    constructor
    · exact hf.nodup
    · exact Fork.length_execute p L.transitionNames _
    · exact fun x hx => ⟨(hf.new x hx).2.1, hu x hx⟩
    · intro x hx
      rw [hnew x hx]
      simpa using hL.fork_ne_node
    · intro x hx _ _
      rw [hnew x hx]
    · intro _
      rw [(hf.old p h.size).2, hp]
  · intro x hx hable
    rcases hf.siblings x hx with hx | hx
    · have hne : x ≠ p := by
        rintro rfl
        exact Nat.lt_irrefl _ (s.tokens.tree.parent_lt hx)
      rw [(hf.old x (s.tokens.tree.lt_size hx)).2] at hable
      rw [show (s.tokens.setNode p L.fork).status x = s.tokens.status x from
        Function.update_of_ne hne _ _, hunable x hx] at hable
      cases hable
    · exact ⟨_, rfl, hx, by rw [hnew x hx], hnot⟩

theorem Inv.move {m : N} (h : L.Inv p s) (hlegal : L.Legal p s (.move t m))
    (hs : L.step p s (.move t m) = some s') : L.Inv p s' := by
  obtain rfl := Option.some.inj hs
  obtain ⟨htp, hte, hm⟩ := hlegal
  have hne : ∀ x, x ≠ t → (s.tokens.setNode t m).status x = s.tokens.status x :=
    fun x hx => Function.update_of_ne hx _ _
  have hself : (s.tokens.setNode t m).status t = { s.tokens.status t with node := some m } :=
    Function.update_self t _ s.tokens.status
  have hp : (s.tokens.setNode t m).status p = s.tokens.status p := by
    refine hne p ?_
    rintro rfl
    exact Nat.lt_irrefl _ (s.tokens.tree.parent_lt htp)
  have hstanding : ∀ ids, L.Iteration p ids s.tokens →
      L.standing ids (s.tokens.setNode t m) = L.standing ids s.tokens := by
    intro ids hi
    refine standing_congr fun x hx => ?_
    by_cases hxt : x = t
    · subst hxt
      rw [hself, hi.arrived x hx, hte]
      simpa using hm
    · rw [hne x hxt]
  have hcomplete : ∀ ids, L.Iteration p ids s.tokens →
      (L.Complete ids (s.tokens.setNode t m) ↔ L.Complete ids s.tokens) :=
    fun ids hi => by rw [Complete, Complete, hstanding ids hi]
  constructor
  · exact h.size
  · have honce := h.once
    rw [Once] at honce ⊢
    refine honce.trans ?_
    rcases hit : s.iterations with _ | ⟨ids, earlier⟩
    · rfl
    · simp only [hcomplete ids (h.iteration ids (by rw [hit]; rfl))]
  · intro ids hids
    have hi := h.iteration ids hids
    constructor
    · exact hi.nodup
    · exact hi.length
    · exact hi.child
    · intro x hx
      by_cases hxt : x = t
      · subst hxt
        rw [hself]
        simpa [hte] using hm
      · rw [hne x hxt]
        exact hi.arrived x hx
    · intro x hx hxe hn
      rw [hcomplete ids hi] at hn
      by_cases hxt : x = t
      · subst hxt
        rw [hself]
        exact hi.able x hx hte hn
      · rw [hne x hxt] at hxe ⊢
        exact hi.able x hx hxe hn
    · rw [hcomplete ids hi, hp]
      exact hi.waits
  · intro x hx hable
    have hsame : ((s.tokens.setNode t m).status x).isAbleToReactivateParent =
        (s.tokens.status x).isAbleToReactivateParent ∧
        ((s.tokens.setNode t m).status x).hasEnded = (s.tokens.status x).hasEnded := by
      by_cases hxt : x = t
      · subst hxt
        rw [hself]
        exact ⟨rfl, rfl⟩
      · rw [hne x hxt]
        exact ⟨rfl, rfl⟩
    rw [hsame.1] at hable
    obtain ⟨ids, hids, hmem, hxe, hn⟩ := h.able x hx hable
    exact ⟨ids, hids, hmem, hsame.2.trans hxe, by rwa [hcomplete ids (h.iteration ids hids)]⟩

/-! ## Arrivals -/

variable {s₁ : Tokens N}

theorem standing_arrived {s : Tokens N} (h₁ : s.Arrived L.node t s₁)
    (hp : s.tree.parent t = some p) (hids : ∀ x ∈ ids, s.tree.parent x = some p) :
    L.standing ids s₁ = L.standing ids (s.setNode t L.node) := by
  refine standing_congr fun x hx => ?_
  by_cases hxt : x = t
  · subst hxt
    rw [h₁.self, show (s.setNode x L.node).status x = { s.status x with node := some L.node } from
      Function.update_self x _ s.status]
  · rw [h₁.sibling hp (hids x hx) hxt, show (s.setNode t L.node).status x = s.status x from
      Function.update_of_ne hxt _ _]

theorem Iteration.complete_mono {s : Tokens N} (hi : L.Iteration p ids s)
    (hp : s.tree.parent t = some p) (h₁ : s.Arrived L.node t s₁) (h : L.Complete ids s) :
    L.Complete ids s₁ := by
  refine Nat.le_trans h (List.countP_mono_left fun x hx hn => ?_)
  by_cases hxt : x = t
  · subst hxt
    rw [h₁.self]
    exact decide_eq_true rfl
  · rw [h₁.sibling hp (hi.child x hx).1 hxt]
    exact hn

/-- The arrival of a token of another iteration makes no difference. -/
theorem Iteration.complete_iff {s : Tokens N} (hi : L.Iteration p ids s)
    (hp : s.tree.parent t = some p) (h₁ : s.Arrived L.node t s₁) (ht : t ∉ ids) :
    L.Complete ids s₁ ↔ L.Complete ids s := by
  have hstanding : L.standing ids s₁ = L.standing ids s := by
    refine standing_congr fun x hx => ?_
    rw [h₁.sibling hp (hi.child x hx).1 fun he => ht (he ▸ hx)]
  rw [Complete, Complete, hstanding]

theorem Iteration.of_arrived {s : Tokens N} (hi : L.Iteration p ids s)
    (hp : s.tree.parent t = some p) (h₁ : s.Arrived L.node t s₁) : L.Iteration p ids s₁ where
  nodup := hi.nodup
  length := hi.length
  child x hx := h₁.tree ▸ hi.child x hx
  arrived x hx := by
    by_cases hxt : x = t
    · subst hxt
      rw [h₁.self]
      exact ⟨fun _ => rfl, fun _ => rfl⟩
    · rw [h₁.sibling hp (hi.child x hx).1 hxt]
      exact hi.arrived x hx
  able x hx hxe hn := by
    by_cases hxt : x = t
    · subst hxt
      rw [h₁.self] at hxe
      cases hxe
    · rw [h₁.sibling hp (hi.child x hx).1 hxt] at hxe ⊢
      exact hi.able x hx hxe fun h => hn (hi.complete_mono hp h₁ h)
  waits hn := by
    rw [h₁.parent hp]
    exact hi.waits fun h => hn (hi.complete_mono hp h₁ h)

/-- A left-over token, or one that is late in its own iteration, completes nothing. -/
theorem Inv.complete_iff_of_unable (h : L.Inv p s) (hp : s.tokens.tree.parent t = some p)
    (hte : (s.tokens.status t).hasEnded = false)
    (hta : (s.tokens.status t).isAbleToReactivateParent = false)
    (h₁ : s.tokens.Arrived L.node t s₁) :
    ∀ ids ∈ s.iterations.head?, L.Complete ids s₁ ↔ L.Complete ids s.tokens := by
  intro ids hids
  have hi := h.iteration ids hids
  by_cases ht : t ∈ ids
  · have hc : L.Complete ids s.tokens := by
      by_contra hn
      rw [hi.able t ht hte hn] at hta
      cases hta
    exact iff_of_true (hi.complete_mono hp h₁ hc) hc
  · exact hi.complete_iff hp h₁ ht

/-- The parent waits if the arrival has not completed the iteration. -/
theorem Inv.arrived (h : L.Inv p s) (hp : s.tokens.tree.parent t = some p)
    (h₁ : s.tokens.Arrived L.node t s₁)
    (hcomplete : ∀ ids ∈ s.iterations.head?, L.Complete ids s₁ ↔ L.Complete ids s.tokens) :
    L.Inv p { s with tokens := s₁ } := by
  constructor
  · exact h₁.tree ▸ h.size
  · have honce := h.once
    rw [Once] at honce ⊢
    rw [h₁.left]
    refine honce.trans ?_
    rcases hit : s.iterations with _ | ⟨ids, earlier⟩
    · rfl
    · simp only [hcomplete ids (by rw [hit]; rfl)]
  · exact fun ids hids => (h.iteration ids hids).of_arrived hp h₁
  · intro x hx hable
    rw [h₁.tree] at hx
    by_cases hxt : x = t
    · subst hxt
      rw [h₁.self] at hable
      cases hable
    · rw [h₁.sibling hp hx hxt] at hable ⊢
      obtain ⟨ids, hids, hmem, hxe, hn⟩ := h.able x hx hable
      exact ⟨ids, hids, hmem, hxe, by rwa [hcomplete ids hids]⟩

/-- The requirement is met if all tokens of the iteration have come to the join. -/
theorem Iteration.length_le_standing_iff {s : Tokens N} (hi : L.Iteration p ids s) :
    L.transitionNames.length ≤ L.standing ids s ↔ ∀ x ∈ ids, (s.status x).hasEnded = true := by
  rw [← hi.length]
  constructor
  · intro h x hx
    have hall := List.countP_eq_length.1 (Nat.le_antisymm List.countP_le_length h)
    exact (hi.arrived x hx).1 (of_decide_eq_true (hall x hx))
  · intro h
    refine (List.countP_eq_length.2 fun x hx => ?_).ge
    exact decide_eq_true ((hi.arrived x hx).2 (h x hx))

theorem Iteration.standing_le_countAtJoin {s : Tokens N} (hi : L.Iteration p ids s) :
    L.standing ids s ≤ L.join.countAtJoin p s := by
  have hsub : ids.filter (fun x => (s.status x).node = some L.node) ⊆
      ((s.tree.children p).filter fun c => (s.status c.2).node = some L.join.node).map (·.2) := by
    intro x hx
    obtain ⟨hx, hnode⟩ := List.mem_filter.1 hx
    obtain ⟨c, hc, rfl⟩ := List.mem_map.1 (hi.child x hx).2
    exact List.mem_map_of_mem (List.mem_filter.2 ⟨hc, by rw [join_node]; exact hnode⟩)
  have hle := (List.subperm_of_subset (hi.nodup.filter _) hsub).length_le
  rwa [List.length_map, ← List.countP_eq_length_filter] at hle

theorem countAtJoin_arrived {s : Tokens N} (h₁ : s.Arrived L.node t s₁)
    (hp : s.tree.parent t = some p) :
    L.join.countAtJoin p s₁ = L.join.countAtJoin p (s.setNode t L.node) := by
  rw [Join.countAtJoin, Join.countAtJoin, h₁.tree, join_node]
  refine congrArg _ (List.filter_congr fun c hc => ?_)
  by_cases hct : c.2 = t
  · rw [hct, h₁.self, show (s.setNode t L.node).status t = { s.status t with node := some L.node }
      from Function.update_self t _ s.status]
  · rw [h₁.sibling hp (s.tree.parent_of_mem hc) hct,
      show (s.setNode t L.node).status c.2 = s.status c.2 from Function.update_of_ne hct _ _]

/-- A default join finds all children unable when the last token of the iteration has come. -/
theorem Inv.all_unable_iff (h : L.Inv p s) (hp : s.tokens.tree.parent t = some p)
    (hids : ids ∈ s.iterations.head?) (hn : ¬ L.Complete ids s.tokens)
    (h₁ : s.tokens.Arrived L.node t s₁) :
    ((s₁.tree.children p).all fun c => !(s₁.status c.2).isAbleToReactivateParent) = true ↔
      ∀ x ∈ ids, (s₁.status x).hasEnded = true := by
  have hi := h.iteration ids hids
  rw [List.all_eq_true, h₁.tree]
  constructor
  · intro hall x hx
    by_cases hxt : x = t
    · rw [hxt, h₁.self]
    · obtain ⟨c, hc, rfl⟩ := List.mem_map.1 (hi.child x hx).2
      have hc := hall c hc
      rw [h₁.sibling hp (hi.child c.2 hx).1 hxt] at hc ⊢
      by_contra hxe
      rw [hi.able c.2 hx (Bool.eq_false_iff.2 hxe) hn] at hc
      cases hc
  · intro hended c hc
    have hcp := s.tokens.tree.parent_of_mem hc
    by_cases hct : c.2 = t
    · rw [hct, h₁.self]
      rfl
    · rw [Bool.not_eq_true', Bool.eq_false_iff]
      intro hable
      rw [h₁.sibling hp hcp hct] at hable
      obtain ⟨ids', hids', hmem, hxe, -⟩ := h.able c.2 hcp hable
      obtain rfl := Option.mem_unique hids hids'
      have hce := hended c.2 hmem
      rw [h₁.sibling hp hcp hct, hxe] at hce
      cases hce

/-- **The decision.**  The parent is reactivated when the iteration has become complete. -/
theorem Inv.reactivateParent_eq (h : L.Inv p s) (hp : s.tokens.tree.parent t = some p)
    (hids : ids ∈ s.iterations.head?) (ht : t ∈ ids) (hn : ¬ L.Complete ids s.tokens)
    (hu : L.Undisturbed p s (.arrive t)) (h₁ : s.tokens.Arrived L.node t s₁) :
    L.join.reactivateParent p t s₁ = some (decide (L.Complete ids s₁)) := by
  have hi := (h.iteration ids hids).of_arrived hp h₁
  rcases hk : L.kind with _ | _ | n
  · have hjoin : L.join = .default L.node L.successor := by rw [join, hk]; rfl
    rw [hjoin, Join.reactivateParent_default, Option.some.injEq, Bool.eq_iff_iff,
      h.all_unable_iff hp hids hn h₁, decide_eq_true_iff, Complete, hk]
    exact hi.length_le_standing_iff.symm
  · have hjoin : L.join = .discriminator L.node L.successor := by rw [join, hk]; rfl
    have hc : L.Complete ids s₁ := by
      rw [Complete, hk]
      exact List.countP_pos_iff.2 ⟨t, ht, by rw [h₁.self]; exact decide_eq_true rfl⟩
    rw [hjoin, decide_eq_true hc]
    rfl
  · have hjoin : L.join = .nOutOfMJoin L.node L.successor n := by rw [join, hk]; rfl
    have hcount : L.join.reactivateParent p t s₁ =
        some (!decide ((L.join.countAtJoin p s₁ : ℤ) < n)) := by
      have hne : (n : ℤ) ≠ -1 := by omega
      simp [hjoin, Join.reactivateParent, Join.nOutOfMJoin, hne]
    rw [hcount, Option.some.injEq, Bool.eq_iff_iff, Bool.not_eq_true', decide_eq_false_iff_not,
      decide_eq_true_iff]
    have hle := hi.standing_le_countAtJoin
    have hstanding := standing_arrived h₁ hp fun x hx => ((h.iteration ids hids).child x hx).1
    have hdef : ∀ s : Tokens N, L.Complete ids s ↔ n ≤ L.standing ids s := by
      intro s
      rw [Complete, hk]
      rfl
    rcases hu ids hids ht n (by rw [hk]; rfl) with hc | hlt
    · rw [hdef, ← hstanding] at hc
      rw [hdef]
      omega
    · rw [← countAtJoin_arrived h₁ hp] at hlt
      rw [hdef]
      omega

/-- The parent leaves the join. -/
theorem Inv.reactivated (h : L.Inv p s) (hp : s.tokens.tree.parent t = some p)
    (hids : ids ∈ s.iterations.head?) (hn : ¬ L.Complete ids s.tokens) (h₁ : s.tokens.Arrived L.node t s₁)
    (hc : L.Complete ids s₁) : L.Inv p { s with tokens := L.join.reactivate p s₁ } := by
  have hi := (h.iteration ids hids).of_arrived hp h₁
  have hchild : ∀ x ∈ ids, (L.join.reactivate p s₁).status x =
      { s₁.status x with isAbleToReactivateParent := false } :=
    fun x hx => Join.reactivate_child (hi.child x hx).2
  have hc' : L.Complete ids (L.join.reactivate p s₁) := by
    have hstanding : L.standing ids (L.join.reactivate p s₁) = L.standing ids s₁ :=
      standing_congr fun x hx => by rw [hchild x hx]
    rw [Complete, hstanding]
    exact hc
  constructor
  · rw [Join.reactivate_tree, h₁.tree]
    exact h.size
  · have honce := h.once
    rw [Once] at honce ⊢
    rcases hit : s.iterations with _ | ⟨ids', earlier⟩
    · rw [hit] at hids
      cases hids
    · obtain rfl : ids' = ids := by
        rw [hit] at hids
        exact Option.some.inj hids
      rw [hit] at honce
      simp only [if_neg hn] at honce
      simp only [if_pos hc', Join.reactivate_left, h₁.left, List.count_append, honce,
        List.count_singleton_self, Nat.add_zero]
  · intro ids' hids'
    obtain rfl := Option.mem_unique hids hids'
    constructor
    · exact hi.nodup
    · exact hi.length
    · rw [Join.reactivate_tree]
      exact hi.child
    · intro x hx
      rw [hchild x hx]
      exact hi.arrived x hx
    · exact fun x hx _ hn' => absurd hc' hn'
    · exact fun hn' => absurd hc' hn'
  · intro x hx hable
    rw [Join.reactivate_tree, h₁.tree] at hx
    have hne : x ≠ p := by
      rintro rfl
      exact Nat.lt_irrefl _ (s.tokens.tree.parent_lt hx)
    by_cases hmem : x ∈ (s₁.tree.children p).map (·.2)
    · rw [Join.reactivate_child hmem] at hable
      cases hable
    · rw [Join.reactivate_other hmem hne] at hable
      by_cases hxt : x = t
      · rw [hxt, h₁.self] at hable
        cases hable
      · rw [h₁.sibling hp hx hxt] at hable
        obtain ⟨ids', hids', hx', -⟩ := h.able x hx hable
        obtain rfl := Option.mem_unique hids hids'
        exact absurd (hi.child x hx').2 hmem

theorem Inv.arrive (h : L.Inv p s) (hlegal : L.Legal p s (.arrive t))
    (hu : L.Undisturbed p s (.arrive t)) :
    ∃ s', L.step p s (.arrive t) = some s' ∧ L.Inv p s' := by
  obtain ⟨hp, hte⟩ := hlegal
  obtain ⟨s₁, h₁, henter⟩ := Join.enter_eq (J := L.join) (Nat.le_refl _) hp hte
  rw [join_node] at h₁
  rw [step, henter]
  by_cases hta : (s.tokens.status t).isAbleToReactivateParent = true
  · obtain ⟨ids, hids, ht, -, hn⟩ := h.able t hp hta
    rw [if_pos hta, h.reactivateParent_eq hp hids ht hn hu h₁, Option.map_some, Option.map_some]
    refine ⟨_, rfl, ?_⟩
    by_cases hc : L.Complete ids s₁
    · rw [decide_eq_true hc, if_pos rfl]
      exact h.reactivated hp hids hn h₁ hc
    · rw [decide_eq_false hc, if_neg Bool.false_ne_true]
      refine h.arrived hp h₁ fun ids' hids' => ?_
      obtain rfl := Option.mem_unique hids hids'
      exact iff_of_false hc hn
  · rw [if_neg hta]
    exact ⟨_, rfl, h.arrived hp h₁
      (h.complete_iff_of_unable hp hte (Bool.eq_false_iff.2 hta) h₁)⟩

/-! ## Runs -/

/-- A parent that has not come to the fork, and has no children yet. -/
structure Start (L : Loop N) (p : ℕ) (s : State N) : Prop where
  size : p < s.tokens.tree.size
  left : s.tokens.left = []
  iterations : s.iterations = []
  children : ∀ x, s.tokens.tree.parent x ≠ some p

theorem inv_of_start (h : Start L p s) : L.Inv p s where
  size := h.size
  once := by
    rw [Once, h.iterations, h.left]
    rfl
  iteration ids hids := by
    rw [h.iterations] at hids
    cases hids
  able x hx := absurd hx (h.children x)

/-- Runs of undisturbed steps. -/
def Runs (L : Loop N) (p : ℕ) (s₀ : State N) : List (Step N) → State N → Prop :=
  Run (guard (fun s l => L.Undisturbed p s l ∧ L.Legal p s l) fun s l s' =>
    L.step p s l = some s') s₀

theorem inv_of_run (hL : L.WellFormed) {s₀ : State N} (h₀ : Start L p s₀)
    {ls : List (Step N)} (h : Runs L p s₀ ls s) : L.Inv p s := by
  refine h.inv (inv_of_start h₀) fun s l s' hi hl => ?_
  obtain ⟨⟨hu, hlegal⟩, hstep⟩ := hl
  cases l with
  | pass => exact hi.pass hL hlegal hu hstep
  | move t node => exact hi.move hlegal hstep
  | arrive t =>
    obtain ⟨s'', hs'', hi'⟩ := hi.arrive hlegal hu
    obtain rfl := Option.some.inj (hstep.symm.trans hs'')
    exact hi'

/-- A root token, before it has come to the fork. -/
def begin : State ℕ := ⟨⟨.root, fun _ => ⟨some 3, false, true⟩, []⟩, []⟩

theorem start_begin (L : Loop ℕ) : Start L 0 begin :=
  ⟨by decide, rfl, rfl, fun _ => nofun⟩

def two : Loop ℕ := ⟨0, [some "b", some "c"], 1, 2, .default⟩

def twoOfThree : Loop ℕ := ⟨0, [some "b", some "c", some "d"], 1, 2, .nOutOfM 2⟩

end Loop

end ForkJoin

end Jbpm
