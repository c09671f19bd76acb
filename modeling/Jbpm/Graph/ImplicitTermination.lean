/-
  Implicit termination.  A token that stops at a node that no transition can leave
  ends, and with it the process instance if all active tokens are at such nodes.

  * `end_spec`: a token that ends leaves no active token below;
  * `isTerminatedImplicitly_iff`: what the check looks at in the tokens;
  * `endsImplicitly_iff`: when the check finds what it should, in every run that
    creates no token below an ended one.
-/
import Mathlib.Logic.Relation
import Jbpm.Graph.LeavingTransitions
import Jbpm.Graph.TokenTree
import Jbpm.Lib.Run

namespace Jbpm

open Lib Jbpm.Graph

namespace TokenTree

/-- `c` is in the map of children of `p`. -/
def IsChild (T : TokenTree) (p c : ℕ) : Prop := ∃ name, (name, c) ∈ T.children p

/-- `x` is `t` or below it. -/
def Below (T : TokenTree) : ℕ → ℕ → Prop := Relation.ReflTransGen T.IsChild

theorem below_iff {T : TokenTree} {t x : ℕ} :
    T.Below t x ↔ x = t ∨ ∃ c ∈ T.children t, T.Below c.2 x := by
  rw [Below, Relation.ReflTransGen.cases_head_iff]
  refine or_congr eq_comm ⟨?_, ?_⟩
  · rintro ⟨c, ⟨name, hc⟩, hx⟩
    exact ⟨(name, c), hc, hx⟩
  · rintro ⟨⟨name, c⟩, hc, hx⟩
    exact ⟨c, ⟨name, hc⟩, hx⟩

end TokenTree

namespace Token

variable {N : Type} {T : TokenTree}

/-- An ended token has no active children, unless it is one of `S`. -/
def ClosedOff (T : TokenTree) (S : ℕ → Prop) (st : ℕ → TokenStatus N) : Prop :=
  ∀ p c, T.IsChild p c → (st p).hasEnded = true → S p ∨ (st c).hasEnded = true

/-- No token below an ended one is active. -/
def Closed (T : TokenTree) (st : ℕ → TokenStatus N) : Prop := ClosedOff T (fun _ => False) st

variable {st st' : ℕ → TokenStatus N} {n t x : ℕ} {v : Bool} {S : ℕ → Prop}

theorem Closed.below (h : Closed T st) (hx : T.Below t x) (ht : (st t).hasEnded = true) :
    (st x).hasEnded = true := by
  induction hx with
  | refl => exact ht
  | tail _ hc ih => exact (h _ _ hc ih).resolve_left id

/-- The loop over the children ends them all. -/
theorem endActive_spec {end_ : ℕ → (ℕ → TokenStatus N) → Option (ℕ → TokenStatus N)}
    (hend : ∀ {c st st'}, end_ c st = some st' → ClosedOff T S st →
      Ends (fun _ => True) st st' ∧ (st' c).hasEnded = true ∧ ClosedOff T S st') :
    ∀ {cs : List (String × ℕ)} {st st' : ℕ → TokenStatus N}, endActive end_ cs st = some st' →
      ClosedOff T S st →
      Ends (fun _ => True) st st' ∧ (∀ c ∈ cs, (st' c.2).hasEnded = true) ∧ ClosedOff T S st'
  | [], st, _, h, hst => by
    obtain rfl : st = _ := Option.some.inj h
    exact ⟨.refl _ _, nofun, hst⟩
  | c :: cs, st, st', h, hst => by
    rw [endActive, List.foldlM_cons] at h
    obtain ⟨st₁, hst₁, h⟩ := Option.bind_eq_some_iff.1 h
    obtain ⟨hends₁, hc, hclosed₁⟩ : Ends (fun _ => True) st st₁ ∧ (st₁ c.2).hasEnded = true ∧
        ClosedOff T S st₁ := by
      split at hst₁
      · next hc =>
        obtain rfl := Option.some.inj hst₁
        exact ⟨.refl _ _, hc, hst⟩
      · exact hend hst₁ hst
    obtain ⟨hends₂, hcs, hclosed₂⟩ := endActive_spec hend h hclosed₁
    refine ⟨hends₁.trans hends₂, fun d hd => ?_, hclosed₂⟩
    rcases List.mem_cons.1 hd with rfl | hd
    · exact hends₂.hasEnded hc
    · exact hcs d hd

/-- **A token that ends.**  It leaves no active children, nor do the tokens that end
    with it. -/
theorem end_spec (h : end_ T n v t st = some st') (hst : ClosedOff T S st) :
    Ends (fun _ => True) st st' ∧ (st' t).hasEnded = true ∧ ClosedOff T S st' := by
  induction n generalizing v t st st' S with
  | zero =>
    by_cases ht : (st t).hasEnded = true
    · rw [end_of_hasEnded ht] at h
      obtain rfl := Option.some.inj h
      exact ⟨.refl _ _, ht, hst⟩
    · rw [end_, if_neg ht] at h
      cases h
  | succ n ih =>
    by_cases ht : (st t).hasEnded = true
    · rw [end_of_hasEnded ht] at h
      obtain rfl := Option.some.inj h
      exact ⟨.refl _ _, ht, hst⟩
    have ht := Bool.eq_false_iff.2 ht
    rw [end_succ ht] at h
    obtain ⟨st₂, hst₂, h⟩ := Option.bind_eq_some_iff.1 h
    have hends₁ : Ends (fun _ => True) st (Function.update st t (setEnd (st t))) := .update ht trivial
    have ht₁ : (Function.update st t (setEnd (st t)) t).hasEnded = true := by
      rw [Function.update_self]
      rfl
    -- while its children end, `t` is excused
    have hclosed₁ : ClosedOff T (fun p => S p ∨ p = t) (Function.update st t (setEnd (st t))) := by
      intro p c hc hp
      by_cases hpt : p = t
      · exact .inl (.inr hpt)
      · rw [Function.update_of_ne hpt] at hp
        exact (hst p c hc hp).imp .inl hends₁.hasEnded
    obtain ⟨hends₂, hcs, hclosed₂⟩ := endActive_spec (fun h hst => ih h hst) hst₂ hclosed₁
    have ht₂ := hends₂.hasEnded ht₁
    have hclosed₃ : ClosedOff T S st₂ := by
      intro p c hc hp
      rcases hclosed₂ p c hc hp with (hS | rfl) | he
      · exact .inl hS
      · obtain ⟨name, hc⟩ := hc
        exact .inr (hcs _ hc)
      · exact .inr he
    have hends := hends₁.trans hends₂
    split at h
    · split at h
      · obtain rfl := Option.some.inj h
        exact ⟨hends, ht₂, hclosed₃⟩
      · split at h
        · obtain rfl := Option.some.inj h
          exact ⟨hends, ht₂, hclosed₃⟩
        · obtain ⟨hends₃, -, hclosed₄⟩ := ih h hclosed₃
          exact ⟨hends.trans hends₃, hends₃.hasEnded ht₂, hclosed₄⟩
    · obtain rfl := Option.some.inj h
      exact ⟨hends, ht₂, hclosed₃⟩

/-- The fuel suffices. -/
theorem end_isSome (ht : t < T.size) (st : ℕ → TokenStatus N) :
    ∃ st', end_ T T.size true t st = some st' := by
  by_cases he : (st t).hasEnded = true
  · exact ⟨st, end_of_hasEnded he⟩
  have he := Bool.eq_false_iff.2 he
  rcases hp : T.parent t with _ | p
  · obtain ⟨n, hn⟩ : ∃ n, T.size = n + 1 := ⟨T.size - 1, by omega⟩
    obtain ⟨st', hst', -⟩ := end_below (T := T) (v := false) (active_le st) ht (.inl rfl)
    rw [hn, end_succ he] at hst' ⊢
    obtain ⟨st₁, hst₁, -⟩ := Option.bind_eq_some_iff.1 hst'
    exact ⟨st₁, by rw [hst₁, hp]; rfl⟩
  · obtain ⟨st₁, -, -, hactive, hended⟩ := end_child (T := T) (active_le st) hp he
    rcases h : hasActiveChildren T p st₁ with _ | _
    · obtain ⟨st₂, hst₂, -⟩ := hended h
      exact ⟨st₂, hst₂⟩
    · exact ⟨st₁, hactive h⟩

end Token

open Token

/-- The tokens of a process instance; the root token is 0. -/
structure TerminationState where
  tree : TokenTree
  status : ℕ → TokenStatus ℕ

/-- What `isTerminatedImplicitly` returns or throws. -/
inductive Termination
  | terminated
  | active
  | nullPointer
  deriving DecidableEq

namespace TerminationState

variable {τ : Type} (d : Nodes τ)

/-- `Token.end()` -/
def end_ (t : ℕ) (s : TerminationState) : TerminationState :=
  { s with status := (Token.end_ s.tree s.tree.size true t s.status).getD s.status }

/-- `Token.isTerminatedImplicitly`, to a depth: the transitions of the node itself are
    asked for, and those of the super-states are not. -/
def isTerminatedImplicitlyFrom (s : TerminationState) : ℕ → ℕ → Option Termination
  | 0, _ => none
  | k + 1, t =>
    if (s.status t).hasEnded then some .terminated
    else
      match (s.status t).node with
      | none => some .nullPointer
      | some n =>
        if ((d.leavingTransitions n).getD []).isEmpty then
          ((s.tree.children t).filter fun c => !(s.status c.2).hasEnded).foldr
            (fun c rest => (isTerminatedImplicitlyFrom s k c.2).bind fun a =>
              if a = .terminated then rest else some a)
            (some .terminated)
        else some .active

def isTerminatedImplicitly (s : TerminationState) (t : ℕ) : Termination :=
  (s.isTerminatedImplicitlyFrom d s.tree.size t).getD .active

/-- `Token.checkImplicitTermination`: whether it throws, and the tokens afterwards.
    The process instance ends with its root token. -/
def checkImplicitTermination (isTerminationImplicit : Bool) (t : ℕ) (s : TerminationState) :
    Bool × TerminationState :=
  if isTerminationImplicit then
    match (s.status t).node with
    | none => (true, s)
    | some n =>
      if d.hasNoLeavingTransitions n then
        let s := s.end_ t
        match s.isTerminatedImplicitly d 0 with
        | .terminated => (false, s.end_ 0)
        | .active => (false, s)
        | .nullPointer => (true, s)
      else (false, s)
  else (false, s)

/-- `new Token(parent, name)` -/
def newToken (p : ℕ) (name : String) (s : TerminationState) : TerminationState :=
  if p < s.tree.size then
    ⟨s.tree.addChild p name, Function.update s.status s.tree.size ⟨(s.status p).node, false, true⟩⟩
  else s

/-- The root token in the start state. -/
def start (n : ℕ) : TerminationState := ⟨.root, fun _ => ⟨some n, false, true⟩⟩

/-- What happens to the tokens. -/
inductive Op
  | newToken (p : ℕ) (name : String)
  | setNode (t : ℕ) (n : Option ℕ)
  | end_ (t : ℕ)
  | stop (t : ℕ)

/-- With `terminationImplicit` set. -/
def exec (s : TerminationState) : Op → TerminationState
  | .newToken p name => s.newToken p name
  | .setNode t n => { s with status := Function.update s.status t { s.status t with node := n } }
  | .end_ t => if t < s.tree.size then s.end_ t else s
  | .stop t => if t < s.tree.size then (s.checkImplicitTermination d true t).2 else s

/-! ## What the check finds -/

/-- An active token in the tree. -/
def Active (s : TerminationState) (x : ℕ) : Prop := s.tree.Below 0 x ∧ (s.status x).hasEnded = false

/-- The token is at a node that no transition can leave. -/
def Stuck (s : TerminationState) (x : ℕ) : Prop :=
  (s.status x).node.any d.hasNoLeavingTransitions = true

instance (s : TerminationState) (x : ℕ) : Decidable (s.Stuck d x) :=
  inferInstanceAs (Decidable (_ = _))

/-- The token is at a node that has no transitions of its own. -/
def HasNoOwn (s : TerminationState) (x : ℕ) : Prop :=
  ∃ n, (s.status x).node = some n ∧ (d.leavingTransitions n).getD [] = []

variable {d} {s : TerminationState} {t x : ℕ}

theorem stuck_iff :
    s.Stuck d x ↔ ∃ n, (s.status x).node = some n ∧ d.hasNoLeavingTransitions n = true := by
  rw [Stuck, Option.any_eq_true]

theorem Stuck.hasNoOwn (h : s.Stuck d x) : s.HasNoOwn d x := by
  obtain ⟨n, hn, hd⟩ := stuck_iff.1 h
  exact ⟨n, hn, Nodes.hasNoLeavingTransitions_iff.1 hd n (.inl rfl)⟩

theorem end_closed (ht : t < s.tree.size) (hs : Closed s.tree s.status) :
    Ends (fun _ => True) s.status (s.end_ t).status ∧ ((s.end_ t).status t).hasEnded = true ∧
      Closed s.tree (s.end_ t).status := by
  obtain ⟨st', hst'⟩ := end_isSome ht s.status
  have he : (s.end_ t).status = st' := by rw [end_, hst', Option.getD_some]
  rw [he]
  exact end_spec hst' hs

/-- The loop over the active children. -/
theorem foldr_termination {f : ℕ → Option Termination} {P : ℕ → Prop} :
    ∀ {cs : List (String × ℕ)},
      (∀ c ∈ cs, ∃ a, f c.2 = some a ∧ (a = .terminated ↔ P c.2)) →
      ∃ a, cs.foldr (fun c rest => (f c.2).bind fun a => if a = .terminated then rest else some a)
          (some .terminated) = some a ∧ (a = .terminated ↔ ∀ c ∈ cs, P c.2)
  | [], _ => ⟨.terminated, rfl, by simp⟩
  | c :: cs, h => by
    obtain ⟨a, ha, hP⟩ := h c List.mem_cons_self
    obtain ⟨b, hb, hPs⟩ := foldr_termination fun d hd => h d (List.mem_cons_of_mem c hd)
    rw [List.foldr_cons, hb, ha, Option.bind_some]
    by_cases hat : a = .terminated
    · rw [if_pos hat]
      refine ⟨b, rfl, ?_⟩
      rw [hPs, List.forall_mem_cons]
      exact (and_iff_right (hP.1 hat)).symm
    · rw [if_neg hat]
      refine ⟨a, rfl, iff_of_false hat fun hall => hat (hP.2 (hall c List.mem_cons_self))⟩

/-- **What the check looks at.**  Where no active token is below an ended one, it finds
    whether all active tokens are at nodes without transitions of their own. -/
theorem isTerminatedImplicitlyFrom_iff (hs : Closed s.tree s.status) {k : ℕ} :
    ∀ {t : ℕ}, t < s.tree.size → s.tree.size ≤ k + t →
      ∃ a, s.isTerminatedImplicitlyFrom d k t = some a ∧
        (a = .terminated ↔
          ∀ x, s.tree.Below t x → (s.status x).hasEnded = false → s.HasNoOwn d x) := by
  induction k with
  | zero =>
    intro t ht hk
    omega
  | succ k ih =>
    intro t ht hk
    rw [isTerminatedImplicitlyFrom]
    split
    · next he =>
      refine ⟨.terminated, rfl, iff_of_true rfl fun x hx hactive => ?_⟩
      rw [hs.below hx he] at hactive
      cases hactive
    next he =>
    have he := Bool.eq_false_iff.2 he
    rcases hn : (s.status t).node with _ | n
    · refine ⟨.nullPointer, rfl, iff_of_false (by decide) fun h => ?_⟩
      obtain ⟨n, hn', -⟩ := h t .refl he
      rw [hn] at hn'
      cases hn'
    dsimp only
    split
    · next hown =>
      have hchild : ∀ c ∈ (s.tree.children t).filter fun c => !(s.status c.2).hasEnded,
          ∃ a, s.isTerminatedImplicitlyFrom d k c.2 = some a ∧ (a = .terminated ↔
            ∀ x, s.tree.Below c.2 x → (s.status x).hasEnded = false → s.HasNoOwn d x) := by
        intro c hc
        have hp := s.tree.parent_of_mem (List.mem_filter.1 hc).1
        have hlt := s.tree.parent_lt hp
        exact ih (s.tree.lt_size hp) (by omega)
      obtain ⟨a, ha, hiff⟩ := foldr_termination (f := s.isTerminatedImplicitlyFrom d k)
        (P := fun c => ∀ x, s.tree.Below c x → (s.status x).hasEnded = false → s.HasNoOwn d x) hchild
      refine ⟨a, ha, hiff.trans ⟨fun h x hx hactive => ?_, fun h c hc x hx => ?_⟩⟩
      · rcases TokenTree.below_iff.1 hx with rfl | ⟨c, hc, hx⟩
        · exact ⟨n, hn, List.isEmpty_iff.1 hown⟩
        · by_cases hce : (s.status c.2).hasEnded = true
          · rw [hs.below hx hce] at hactive
            cases hactive
          · exact h c (List.mem_filter.2 ⟨hc, by simpa using hce⟩) x hx hactive
      · exact h x (TokenTree.below_iff.2 (.inr ⟨c, (List.mem_filter.1 hc).1, hx⟩))
    · next hown =>
      refine ⟨.active, rfl, iff_of_false (by decide) fun h => ?_⟩
      obtain ⟨m, hm, hempty⟩ := h t .refl he
      obtain rfl : n = m := Option.some.inj (hn.symm.trans hm)
      exact hown (List.isEmpty_iff.2 hempty)

theorem isTerminatedImplicitly_iff (hs : Closed s.tree s.status) (h0 : 0 < s.tree.size) :
    s.isTerminatedImplicitly d 0 = .terminated ↔ ∀ x, s.Active x → s.HasNoOwn d x := by
  obtain ⟨a, ha, hiff⟩ := isTerminatedImplicitlyFrom_iff (d := d) hs h0 (Nat.le_refl s.tree.size)
  rw [isTerminatedImplicitly, ha, Option.getD_some, hiff]
  exact ⟨fun h x hx => h x hx.1 hx.2, fun h x hx hactive => h x ⟨hx, hactive⟩⟩

/-! ## Steps -/

theorem addChild_isChild {T : TokenTree} {p q c : ℕ} {name : String} (hp : p < T.size)
    (h : (T.addChild p name).IsChild q c) : (q = p ∧ c = T.size) ∨ T.IsChild q c := by
  obtain ⟨key, h⟩ := h
  rw [TokenTree.addChild, dif_pos hp] at h
  dsimp only at h
  by_cases hq : q = p
  · subst hq
    rw [Function.update_self] at h
    rcases eq_or_mem_of_mem_putChild h with he | h
    · exact .inl ⟨rfl, congrArg Prod.snd he⟩
    · exact .inr ⟨key, h⟩
  · rw [Function.update_of_ne hq] at h
    exact .inr ⟨key, h⟩

theorem addChild_size {T : TokenTree} {p : ℕ} {name : String} (hp : p < T.size) :
    (T.addChild p name).size = T.size + 1 := by
  rw [TokenTree.addChild, dif_pos hp]

/-- There is a root token, and no active token is below an ended one. -/
structure Sound (s : TerminationState) : Prop where
  pos : 0 < s.tree.size
  closed : Closed s.tree s.status

/-- No token is created below an ended one. -/
def UnderActive (s : TerminationState) : Op → Prop
  | .newToken p _ => (s.status p).hasEnded = false
  | _ => True

theorem Sound.end_ (h : s.Sound) (ht : t < s.tree.size) : (s.end_ t).Sound :=
  ⟨h.pos, (end_closed ht h.closed).2.2⟩

theorem Sound.newToken (h : s.Sound) {p : ℕ} {name : String}
    (hp : (s.status p).hasEnded = false) : (s.newToken p name).Sound := by
  rw [TerminationState.newToken]
  split
  · next hlt =>
    refine ⟨by rw [addChild_size hlt]; omega, fun q c hc hq => ?_⟩
    dsimp only at hc hq ⊢
    have hqs : q ≠ s.tree.size := by
      rintro rfl
      rw [Function.update_self] at hq
      cases hq
    rw [Function.update_of_ne hqs] at hq
    rcases addChild_isChild hlt hc with ⟨rfl, -⟩ | hc
    · rw [hp] at hq
      cases hq
    · obtain ⟨key, hmem⟩ := hc
      have hcs : c ≠ s.tree.size := Nat.ne_of_lt (s.tree.lt_size (s.tree.parent_of_mem hmem))
      rw [Function.update_of_ne hcs]
      exact h.closed q c ⟨key, hmem⟩ hq
  · exact h

theorem Sound.setNode (h : s.Sound) (t : ℕ) (n : Option ℕ) :
    Sound { s with status := Function.update s.status t { s.status t with node := n } } := by
  have he : ∀ x, (Function.update s.status t { s.status t with node := n } x).hasEnded =
      (s.status x).hasEnded := by
    intro x
    by_cases hx : x = t
    · subst hx
      rw [Function.update_self]
    · rw [Function.update_of_ne hx]
  refine ⟨h.pos, fun p c hc hp => ?_⟩
  rw [he] at hp ⊢
  exact h.closed p c hc hp

theorem Sound.checkImplicitTermination (h : s.Sound) (ht : t < s.tree.size) :
    (s.checkImplicitTermination d true t).2.Sound := by
  have hend := h.end_ ht
  rw [TerminationState.checkImplicitTermination, if_pos rfl]
  split
  · exact h
  · split
    · dsimp only
      split
      · exact hend.end_ h.pos
      · exact hend
      · exact hend
    · exact h

theorem Sound.exec (h : s.Sound) {op : Op} (hop : s.UnderActive op) : (s.exec d op).Sound := by
  cases op with
  | newToken p name => exact h.newToken hop
  | setNode t n => exact h.setNode t n
  | end_ t =>
    rw [TerminationState.exec]
    split
    · next ht => exact h.end_ ht
    · exact h
  | stop t =>
    rw [TerminationState.exec]
    split
    · next ht => exact h.checkImplicitTermination ht
    · exact h

theorem sound_start (n : ℕ) : (start n).Sound := by
  refine ⟨Nat.zero_lt_one, ?_⟩
  rintro p c ⟨name, hc⟩ -
  exact (List.not_mem_nil hc).elim

theorem sound_of_run {n : ℕ} {ops : List Op}
    (h : Run (guard UnderActive fun s op s' => s' = s.exec d op) (start n) ops s) : s.Sound :=
  h.inv (sound_start n) fun s op s' hs ⟨hop, he⟩ => by
    subst he
    exact hs.exec hop

/-! ## The end of the process instance -/

/-- The tokens once the execution of `t` has stopped: at a node that no transition can
    leave it ends. -/
def stopped (d : Nodes τ) (t : ℕ) (s : TerminationState) : TerminationState :=
  if s.Stuck d t then s.end_ t else s

/-- The process instance ends just if all active tokens are at nodes that no transition
    can leave. -/
def EndsImplicitly (d : Nodes τ) (s : TerminationState) (t : ℕ) : Prop :=
  (((s.checkImplicitTermination d true t).2.status 0).hasEnded = true ↔
    ∀ x, (s.stopped d t).Active x → s.Stuck d x)

/-- Where the token ends: if none of the tokens that are left active has a transition of
    its own node, then none has one of a super-state.  Where it does not: it is active, or
    the process instance has ended, or another active token is not stuck. -/
def SeesAll (d : Nodes τ) (s : TerminationState) (t : ℕ) : Prop :=
  (s.Stuck d t → (∀ x, (s.end_ t).Active x → s.HasNoOwn d x) →
      ∀ x, (s.end_ t).Active x → s.Stuck d x) ∧
    (¬ s.Stuck d t → s.Active t ∨ (s.status 0).hasEnded = true ∨ ∃ x, s.Active x ∧ ¬ s.Stuck d x)

theorem hasNoOwn_end (hs : s.Sound) (ht : t < s.tree.size) :
    (s.end_ t).HasNoOwn d x ↔ s.HasNoOwn d x := by
  rw [HasNoOwn, (end_closed ht hs.closed).1.node, HasNoOwn]

/-- The token ends, and the root token with it or after it if the check finds only
    nodes without transitions of their own. -/
theorem check_of_stuck (hs : s.Sound) (ht : t < s.tree.size) (hstuck : s.Stuck d t) :
    ((s.checkImplicitTermination d true t).2.status 0).hasEnded = true ↔
      ∀ x, (s.end_ t).Active x → s.HasNoOwn d x := by
  obtain ⟨n, hn, hd⟩ := stuck_iff.1 hstuck
  have hend := hs.end_ ht
  have hiff := isTerminatedImplicitly_iff (d := d) hend.closed hend.pos
  simp only [hasNoOwn_end hs ht] at hiff
  rw [← hiff, checkImplicitTermination, if_pos rfl, hn]
  dsimp only
  rw [if_pos hd]
  have hroot : ((s.end_ t).status 0).hasEnded = true →
      (s.end_ t).isTerminatedImplicitly d 0 = .terminated := by
    intro h
    refine hiff.2 fun x hx => ?_
    have hactive := hx.2
    rw [hend.closed.below hx.1 h] at hactive
    cases hactive
  rcases hterm : (s.end_ t).isTerminatedImplicitly d 0 with _ | _ | _
  · exact iff_of_true (end_closed hend.pos hend.closed).2.1 rfl
  · exact ⟨fun h => hterm.symm.trans (hroot h), fun h => by cases h⟩
  · exact ⟨fun h => hterm.symm.trans (hroot h), fun h => by cases h⟩

theorem check_of_not_stuck (h : ¬ s.Stuck d t) : (s.checkImplicitTermination d true t).2 = s := by
  rw [checkImplicitTermination, if_pos rfl]
  split
  · rfl
  · next n hn =>
    rw [if_neg fun hd => h (stuck_iff.2 ⟨n, hn, hd⟩)]

/-- **Implicit termination.**  In a run that creates no token below an ended one, the
    process instance ends when it should just if the check sees all transitions. -/
theorem endsImplicitly_iff {n : ℕ} {ops : List Op}
    (h : Run (guard UnderActive fun s op s' => s' = s.exec d op) (start n) ops s)
    (ht : t < s.tree.size) : s.EndsImplicitly d t ↔ s.SeesAll d t := by
  have hs := sound_of_run h
  rw [EndsImplicitly, SeesAll]
  by_cases hstuck : s.Stuck d t
  · rw [check_of_stuck hs ht hstuck, stopped, if_pos hstuck]
    refine ⟨fun h => ⟨fun _ => h.1, fun hn => (hn hstuck).elim⟩, fun h => ⟨h.1 hstuck, ?_⟩⟩
    exact fun h x hx => (h x hx).hasNoOwn
  · rw [check_of_not_stuck hstuck, stopped, if_neg hstuck]
    refine ⟨fun h => ⟨fun hn => (hstuck hn).elim, fun _ => .inr ?_⟩, fun h => ?_⟩
    · by_cases hroot : (s.status 0).hasEnded = true
      · exact .inl hroot
      · refine .inr (not_forall_not.1 fun hall => hroot (h.2 fun x hx => ?_))
        exact not_not.1 fun hn => hall x ⟨hx, hn⟩
    · constructor
      · intro hroot x hx
        have hactive := hx.2
        rw [hs.closed.below hx.1 hroot] at hactive
        cases hactive
      · intro hall
        rcases h.2 hstuck with hactive | hroot | ⟨x, hx, hn⟩
        · exact (hstuck (hall t hactive)).elim
        · exact hroot
        · exact (hn (hall x hx)).elim

/-- The node 1 is in the super-state 0, which has a transition; the node 2 has none. -/
def inSuperState : Nodes String where
  superStates := oneNested
  leavingTransitions n := if n = 0 then some ["back"] else none
  name := some

/-- Two tokens are forked at the node 1, and one comes to the node 2. -/
def forked : List Op := [.newToken 0 "a", .newToken 0 "b", .setNode 1 (some 2)]

def afterFork : TerminationState := forked.foldl (fun s op => s.exec inSuperState op) (start 1)

theorem endsImplicitly_forked :
    afterFork.EndsImplicitly inSuperState 1 ↔ afterFork.SeesAll inSuperState 1 :=
  endsImplicitly_iff (Run.of_allowed (show Allowed UnderActive _ (start 1) forked from
    ⟨rfl, rfl, trivial, trivial⟩)) (by decide)

/-- The process instance ends although the other token can still leave its node. -/
theorem ends_too_early :
    ((afterFork.checkImplicitTermination inSuperState true 1).2.status 0).hasEnded = true ∧
      (afterFork.stopped inSuperState 1).Active 2 ∧ ¬ afterFork.Stuck inSuperState 2 ∧
      ¬ afterFork.EndsImplicitly inSuperState 1 := by
  have hended : ((afterFork.checkImplicitTermination inSuperState true 1).2.status 0).hasEnded =
      true := by decide
  have hactive : (afterFork.stopped inSuperState 1).Active 2 :=
    ⟨.single ⟨"b", by decide⟩, by decide⟩
  have hstuck : ¬ afterFork.Stuck inSuperState 2 := by decide
  exact ⟨hended, hactive, hstuck, fun h => hstuck (h.1 hended 2 hactive)⟩

end TerminationState

end Jbpm
