/-
  Tokens that wait for a milestone leave their node when it is reached.

  * `due`: how many times a token has to leave a node;
  * `Common`, `Direct`: the milestone-nodes and the milestone events of a milestone refer to the
    same token, and only this token waits there;
  * `Inv`: where a token is that waits, is about to leave, or has left;
  * `released_of_run`: whenever nothing is left to be done, every token has left its nodes as
    often as it had to.
-/
import Mathlib.Algebra.GroupWithZero.Nat
import Mathlib.Data.List.Nodup
import Mathlib.Tactic.ByContra
import Jbpm.Graph.Milestone

namespace Jbpm

namespace Milestone

variable {T N : Type} [DecidableEq T] (S : Tokens T) (G : N → Node N)

/-! ## What has to happen -/

/-- The milestone of a milestone-node, for a token in it. -/
def milestoneToken (t : T) (n : N) : Option T :=
  match (G n).kind with
  | .milestoneNode tokenPath => (S.findToken t tokenPath).join
  | _ => none

def Reached (marked : List (String × T)) (t : T) (n : N) : Prop :=
  ∃ M, milestoneToken S G t n = some M ∧ ((G n).name, M) ∈ marked

instance (marked : List (String × T)) (t : T) (n : N) : Decidable (Reached S G marked t n) :=
  decidable_of_iff (∃ M ∈ milestoneToken S G t n, ((G n).name, M) ∈ marked) Iff.rfl

/-- How many times a token has to leave a node: a wait state with every signal, a node that does
    not wait once, and a milestone-node once if the milestone has been marked. -/
def due (marked : List (String × T)) (t : T) (y : Stay N) : ℕ :=
  match (G y.node).kind with
  | .state => y.signals
  | .node => 1
  | .milestoneNode _ => if Reached S G marked t y.node then 1 else 0

/-- Nothing is left to be done: every token has left its nodes as often as it had to, and is in
    the node it entered last, which it has not left. -/
structure Released (s : State T N) : Prop where
  leaves : ∀ t, ∀ y ∈ (s.token t).stays, y.leaves = due S G s.marked t y
  node : ∀ t, (s.token t).node = (s.token t).stays.head?.map (·.node)
  waits : ∀ t, ∀ y ∈ (s.token t).stays.head?, y.leaves = 0
  past : ∀ t, ∀ y ∈ (s.token t).stays.tail, y.leaves = 1

/-- `P` holds of the token path, if this is a milestone-node. -/
def Kind.All (P : Option (List Char) → Prop) (k : Kind) : Prop := ∀ p, k = .milestoneNode p → P p

instance {P : Option (List Char) → Prop} [DecidablePred P] : DecidablePred (Kind.All P)
  | .state | .node => .isTrue fun _ h => nomatch h
  | .milestoneNode p =>
    decidable_of_iff (P p) ⟨fun h _ he => Kind.milestoneNode.inj he ▸ h, fun h => h p rfl⟩

/-- The milestone-nodes and the milestone events of one name refer to one token. -/
def Work.Common (M : String → T) : Work T N → Prop
  | .enter t n => (G n).kind.All fun p => S.findToken t p = some (some (M (G n).name))
  | .event t e => S.findToken t e.relativeTokenPath = some (some (M e.milestoneName))
  | _ => True

/-- A token that has to wait is the milestone token, and a milestone that had tokens waiting for
    it is not reached a second time. -/
def Work.Direct (milestone : String → MilestoneInstance T) : Work T N → Prop
  | .execute t n => (G n).kind.All fun p =>
      (milestone (G n).name).reached = true ∨ S.findToken t p = some (some t)
  | .event _ e => (milestone e.milestoneName).reached = true →
      (milestone e.milestoneName).listeners = []
  | _ => True

def Common (M : String → T) (s : State T N) : Op T N → Prop
  | .work _ => ∀ w ∈ s.work.head?, w.Common S G M
  | _ => True

def Direct (s : State T N) : Op T N → Prop
  | .work _ => ∀ w ∈ s.work.head?, w.Direct S G s.milestone
  | _ => True

instance (M : String → T) : DecidablePred (Work.Common S G M)
  | .enter _ n => inferInstanceAs (Decidable ((G n).kind.All _))
  | .event _ _ => inferInstanceAs (Decidable (_ = _))
  | .leave _ _ | .take _ _ | .execute _ _ | .notify _ => .isTrue trivial

instance (milestone : String → MilestoneInstance T) : DecidablePred (Work.Direct S G milestone)
  | .execute _ n => inferInstanceAs (Decidable ((G n).kind.All _))
  | .event _ _ => inferInstanceAs (Decidable (_ → _))
  | .leave _ _ | .take _ _ | .enter _ _ | .notify _ => .isTrue trivial

instance (M : String → T) (s : State T N) : DecidablePred (Common S G M s)
  | .work _ => inferInstanceAs (Decidable (∀ w ∈ s.work.head?, w.Common S G M))
  | .arrive _ _ | .signal _ _ | .event _ _ => .isTrue trivial

instance (s : State T N) : DecidablePred (Direct S G s)
  | .work _ => inferInstanceAs (Decidable (∀ w ∈ s.work.head?, w.Direct S G s.milestone))
  | .arrive _ _ | .signal _ _ | .event _ _ => .isTrue trivial

/-! ## The tokens that are being moved -/

/-- How many times a call is going to move the token. -/
def Work.about (u : T) : Work T N → ℕ
  | .leave t _ | .take t _ | .enter t _ | .execute t _ => if t = u then 1 else 0
  | .event _ _ => 0
  | .notify ts => ts.count u

def busy (u : T) (ws : List (Work T N)) : ℕ := (ws.map (·.about u)).sum

@[simp] theorem busy_nil (u : T) : busy u ([] : List (Work T N)) = 0 := rfl

@[simp] theorem busy_cons (u : T) (w : Work T N) (ws : List (Work T N)) :
    busy u (w :: ws) = w.about u + busy u ws := List.sum_cons

@[simp] theorem busy_append (u : T) (ws ws' : List (Work T N)) :
    busy u (ws ++ ws') = busy u ws + busy u ws' := by
  simp only [busy, List.map_append, List.sum_append]

@[simp] theorem busy_events (u t : T) (es : List MilestoneEvent) :
    busy u (es.map (Work.event t) : List (Work T N)) = 0 := by
  induction es with
  | nil => rfl
  | cons e es ih => rw [List.map_cons, busy_cons, ih]; rfl

theorem about_le_busy {u : T} {w : Work T N} {ws : List (Work T N)} (h : w ∈ ws) :
    w.about u ≤ busy u ws := by
  induction ws with
  | nil => cases h
  | cons v ws ih =>
    rw [busy_cons]
    rcases List.mem_cons.1 h with rfl | h
    · exact Nat.le_add_right _ _
    · exact Nat.le_add_left_of_le (ih h)

/-! ## The invariant -/

variable {S G} {marked : List (String × T)} {t u : T} {x : Token N}

/-- A token that waits. -/
def Waiting (S : Tokens T) (G : N → Node N) (marked : List (String × T)) (t : T)
    (x : Token N) : Prop :=
  x.node = x.stays.head?.map (·.node) ∧
    ∀ y ∈ x.stays.head?, y.leaves = 0 ∧ due S G marked t y = 0

/-- A token that has to leave its node. -/
def Leaving (S : Tokens T) (G : N → Node N) (marked : List (String × T)) (t : T)
    (x : Token N) : Prop :=
  ∃ y ys, x.stays = y :: ys ∧ x.node = some y.node ∧ y.leaves = 0 ∧ due S G marked t y = 1

/-- A stay that is over. -/
def Over (S : Tokens T) (G : N → Node N) (marked : List (String × T)) (t : T) (y : Stay N) :
    Prop :=
  y.leaves = 1 ∧ due S G marked t y = 1

/-- What holds of a token that a call is going to move. -/
def Work.Ok (S : Tokens T) (G : N → Node N) (marked : List (String × T))
    (token : T → Token N) : Work T N → Prop
  | .leave t _ => Leaving S G marked t (token t)
  | .take t _ | .enter t _ => ∀ y ∈ (token t).stays.head?, Over S G marked t y
  | .execute t n => ∃ ys, (token t).stays = { node := n, leaves := 0, signals := 0 } :: ys ∧
      (token t).node = some n
  | .event _ _ => True
  | .notify ts => ∀ t ∈ ts, Leaving S G marked t (token t)

def IsMilestone (G : N → Node N) (n : N) (name : String) : Prop :=
  (∃ p, (G n).kind = .milestoneNode p) ∧ (G n).name = name

/-- Every token is moved by one call at most; a token that no call is going to move waits, at a
    milestone-node as a listener. -/
structure Inv (S : Tokens T) (G : N → Node N) (M : String → T) (s : State T N) : Prop where
  one : ∀ u, busy u s.work ≤ 1
  idle : ∀ u, busy u s.work = 0 → Waiting S G s.marked u (s.token u) ∧
    ∀ n name, (s.token u).node = some n → IsMilestone G n name →
      u ∈ (s.milestone name).listeners
  ok : ∀ w ∈ s.work, w.Ok S G s.marked s.token
  past : ∀ u, ∀ y ∈ (s.token u).stays.tail, Over S G s.marked u y
  common : ∀ u, ∀ y ∈ (s.token u).stays, ∀ p, (G y.node).kind = .milestoneNode p →
    S.findToken u p = some (some (M (G y.node).name))
  marked : ∀ name M', (name, M') ∈ s.marked ↔ M' = M name ∧ (s.milestone name).reached = true
  listeners : ∀ name, (s.milestone name).reached = false →
    (s.milestone name).listeners.Nodup ∧ ∀ u ∈ (s.milestone name).listeners,
      busy u s.work = 0 ∧ ∃ n, (s.token u).node = some n ∧ IsMilestone G n name

theorem Work.Ok.congr {token token' : T → Token N} {w : Work T N}
    (h : w.Ok S G marked token) (he : ∀ u, w.about u ≠ 0 → token' u = token u) :
    w.Ok S G marked token' := by
  cases w with
  | event t e => trivial
  | notify ts =>
    intro t ht
    rw [he t (Nat.ne_of_gt (List.count_pos_iff.2 ht))]
    exact h t ht
  | leave t _ | take t _ | enter t _ | execute t _ =>
    have ht : token' t = token t := he t (by simp [Work.about])
    simp only [Work.Ok] at h ⊢
    rwa [ht]

/-- **Frame.**  The call that is executed next is replaced by others that move the same tokens
    at most. -/
theorem Inv.replace {M : String → T} {s : State T N} {w : Work T N} {ws vs : List (Work T N)}
    (h : Inv S G M s) (hw : s.work = w :: ws) (token : T → Token N)
    (milestone : String → MilestoneInstance T)
    (hbusy : ∀ u, busy u vs ≤ w.about u)
    (hsame : ∀ u, w.about u = 0 → token u = s.token u)
    (hreached : ∀ name, (milestone name).reached = (s.milestone name).reached)
    (hsub : ∀ name, ∀ u ∈ (s.milestone name).listeners, u ∈ (milestone name).listeners)
    (hok : ∀ v ∈ vs, v.Ok S G s.marked token)
    (hover : ∀ u, w.about u ≠ 0 → ∀ y ∈ (token u).stays.tail, Over S G s.marked u y)
    (hcommon : ∀ u, w.about u ≠ 0 → ∀ y ∈ (token u).stays, ∀ p,
      (G y.node).kind = .milestoneNode p → S.findToken u p = some (some (M (G y.node).name)))
    (hidle : ∀ u, w.about u ≠ 0 → busy u vs = 0 → Waiting S G s.marked u (token u) ∧
      ∀ n name, (token u).node = some n → IsMilestone G n name →
        u ∈ (milestone name).listeners)
    (hlisten : ∀ name, (s.milestone name).reached = false → (milestone name).listeners.Nodup ∧
      ∀ u ∈ (milestone name).listeners, u ∉ (s.milestone name).listeners →
        busy u vs = 0 ∧ w.about u ≠ 0 ∧ ∃ n, (token u).node = some n ∧ IsMilestone G n name) :
    Inv S G M { s with token := token, milestone := milestone, work := vs ++ ws } := by
  have hone (u : T) : w.about u + busy u ws ≤ 1 := by
    have := h.one u
    rwa [hw, busy_cons] at this
  constructor
  · intro u
    show busy u (vs ++ ws) ≤ 1
    rw [busy_append]
    have := hone u
    have := hbusy u
    omega
  · intro u hu
    have hu : busy u (vs ++ ws) = 0 := hu
    rw [busy_append] at hu
    by_cases hwu : w.about u = 0
    · have hidle := h.idle u (by rw [hw, busy_cons]; omega)
      show Waiting S G s.marked u (token u) ∧ ∀ n name, (token u).node = some n → _
      rw [hsame u hwu]
      exact ⟨hidle.1, fun n name hn hm => hsub name u (hidle.2 n name hn hm)⟩
    · exact hidle u hwu (by omega)
  · intro v hv
    rcases List.mem_append.1 hv with hv | hv
    · exact hok v hv
    · refine (h.ok v (hw ▸ List.mem_cons_of_mem w hv)).congr fun u hu => hsame u ?_
      have := about_le_busy (u := u) hv
      have := hone u
      omega
  · intro u
    by_cases hwu : w.about u = 0
    · show ∀ y ∈ (token u).stays.tail, _
      rw [hsame u hwu]
      exact h.past u
    · exact hover u hwu
  · intro u
    by_cases hwu : w.about u = 0
    · show ∀ y ∈ (token u).stays, _
      rw [hsame u hwu]
      exact h.common u
    · exact hcommon u hwu
  · intro name M'
    show _ ↔ M' = M name ∧ (milestone name).reached = true
    rw [hreached]
    exact h.marked name M'
  · intro name hr
    have hr : (s.milestone name).reached = false := (hreached name) ▸ hr
    obtain ⟨hnodup, hnew⟩ := hlisten name hr
    refine ⟨hnodup, fun u hu => ?_⟩
    show busy u (vs ++ ws) = 0 ∧ ∃ n, (token u).node = some n ∧ _
    rw [busy_append]
    by_cases hold : u ∈ (s.milestone name).listeners
    · obtain ⟨hb, hn⟩ := (h.listeners name hr).2 u hold
      rw [hw, busy_cons] at hb
      have hwu : w.about u = 0 := by omega
      have := hbusy u
      rw [hsame u hwu]
      exact ⟨by omega, hn⟩
    · obtain ⟨hb, hwu, hn⟩ := hnew u hu hold
      have := hone u
      exact ⟨by omega, hn⟩

section

variable {M : String → T} {s : State T N} {w v : Work T N} {ws : List (Work T N)}

/-- One call that moves a token is replaced by another one, after milestone events. -/
theorem Inv.move (h : Inv S G M s) (hw : s.work = w :: ws)
    (hwt : ∀ u, w.about u = if t = u then 1 else 0)
    (hvt : ∀ u, v.about u = if t = u then 1 else 0) (es : List MilestoneEvent)
    (hv : v.Ok S G s.marked (Function.update s.token t x))
    (hover : ∀ y ∈ x.stays.tail, Over S G s.marked t y)
    (hcommon : ∀ y ∈ x.stays, ∀ p, (G y.node).kind = .milestoneNode p →
      S.findToken t p = some (some (M (G y.node).name))) :
    Inv S G M (({ s with work := ws }.setToken t x).push (es.map (Work.event t) ++ [v])) := by
  have hbusy (u : T) : busy u (es.map (Work.event t) ++ [v]) = w.about u := by
    rw [busy_append, busy_events, busy_cons, busy_nil, hvt, hwt]
    omega
  have heq (u : T) (hu : w.about u ≠ 0) : u = t := by
    by_contra hne
    rw [hwt, if_neg fun h => hne h.symm] at hu
    exact hu rfl
  refine h.replace hw (Function.update s.token t x) s.milestone (fun u => Nat.le_of_eq (hbusy u))
    (fun u hu => Function.update_of_ne ?_ _ _) (fun _ => rfl) (fun _ _ hu => hu) ?_ ?_ ?_ ?_
    fun name hr => ⟨(h.listeners name hr).1, fun u hu hn => absurd hu hn⟩
  · rintro rfl
    rw [hwt, if_pos rfl] at hu
    cases hu
  · intro v' hv'
    rcases List.mem_append.1 hv' with hv' | hv'
    · obtain ⟨e, -, rfl⟩ := List.mem_map.1 hv'
      trivial
    · exact List.mem_singleton.1 hv' ▸ hv
  · intro u hu
    obtain rfl := heq u hu
    rw [Function.update_self]
    exact hover
  · intro u hu
    obtain rfl := heq u hu
    rw [Function.update_self]
    exact hcommon
  · intro u hu hb
    exact absurd ((hbusy u).symm.trans hb) hu

/-- What is due depends on the node and on the signals. -/
theorem due_congr {y y' : Stay N} (hn : y'.node = y.node) (hs : y'.signals = y.signals) :
    due S G marked t y' = due S G marked t y := by
  rw [due, due, hn, hs]

theorem Inv.doLeave {transition : Option (Transition N)} {s' : State T N} (h : Inv S G M s)
    (hw : s.work = .leave t transition :: ws)
    (hs : Milestone.doLeave G t transition { s with work := ws } = some s') : Inv S G M s' := by
  obtain ⟨y, ys, hy, hn, hleaves, hdue⟩ := h.ok _ (hw ▸ List.mem_cons_self)
  simp only [Milestone.doLeave, hn, Option.bind_eq_bind, Option.bind_some,
    Option.bind_eq_some_iff] at hs
  obtain ⟨tr, -, hs⟩ := hs
  obtain rfl := Option.some.inj hs
  have hleft : (s.token t).left.stays = { y with leaves := y.leaves + 1 } :: ys := by
    rw [Token.left, hy]
  refine h.move hw (fun _ => rfl) (fun _ => rfl) _ ?_ ?_ ?_
  · intro z hz
    rw [Function.update_self, hleft] at hz
    obtain rfl := Option.some.inj hz
    exact ⟨congrArg (· + 1) hleaves, (due_congr rfl rfl).trans hdue⟩
  · rw [hleft]
    exact fun z hz => h.past t z (by rw [hy]; exact hz)
  · rw [hleft]
    intro z hz
    rcases List.mem_cons.1 hz with rfl | hz
    · exact h.common t y (by rw [hy]; exact List.mem_cons_self)
    · exact h.common t z (by rw [hy]; exact List.mem_cons_of_mem y hz)

theorem Inv.doTake {transition : Transition N} (h : Inv S G M s)
    (hw : s.work = .take t transition :: ws) :
    Inv S G M (Milestone.doTake t transition { s with work := ws }) := by
  have hover := h.ok _ (hw ▸ List.mem_cons_self)
  refine h.move hw (fun _ => rfl) (fun _ => rfl) _ ?_ (h.past t) (h.common t)
  intro y hy
  rw [Function.update_self] at hy
  exact hover y hy

theorem Inv.doEnter {n : N} (h : Inv S G M s) (hw : s.work = .enter t n :: ws)
    (hc : ∀ p, (G n).kind = .milestoneNode p → S.findToken t p = some (some (M (G n).name))) :
    Inv S G M (Milestone.doEnter G t n { s with work := ws }) := by
  have hover := h.ok _ (hw ▸ List.mem_cons_self)
  refine h.move hw (fun _ => rfl) (fun _ => rfl) _ ?_ ?_ ?_
  · refine ⟨(s.token t).stays, ?_, ?_⟩ <;> rw [Function.update_self] <;> rfl
  · intro y hy
    have hy : y ∈ (s.token t).stays := hy
    rcases hstays : (s.token t).stays with _ | ⟨z, zs⟩
    · rw [hstays] at hy
      cases hy
    · rw [hstays] at hy
      rcases List.mem_cons.1 hy with rfl | hy
      · exact hover y (by rw [hstays]; rfl)
      · exact h.past t y (by rw [hstays]; exact hy)
  · intro y hy
    rcases List.mem_cons.1 hy with rfl | hy
    · exact hc
    · exact h.common t y hy

/-- The token has to leave the node at once. -/
theorem Inv.passes {n : N} (h : Inv S G M s) (hw : s.work = .execute t n :: ws)
    (hdue : due S G s.marked t { node := n, leaves := 0, signals := 0 } = 1) :
    Inv S G M (({ s with work := ws } : State T N).push [.leave t none]) := by
  obtain ⟨ys, hys, hn⟩ := h.ok _ (hw ▸ List.mem_cons_self)
  have hsame : ({ s with work := ws } : State T N).setToken t (s.token t) = { s with work := ws } := by
    rw [State.setToken]
    simp only [Function.update_eq_self]
  have h' := h.move (v := .leave t none) (x := s.token t) hw (fun _ => rfl) (fun _ => rfl) [] ?_
    (h.past t) (h.common t)
  · rwa [hsame] at h'
  · rw [Function.update_eq_self]
    exact ⟨_, ys, hys, hn, rfl, hdue⟩

/-- The token waits in the node. -/
theorem Inv.waits {n : N} (h : Inv S G M s) (hw : s.work = .execute t n :: ws)
    (hdue : due S G s.marked t { node := n, leaves := 0, signals := 0 } = 0)
    (milestone : String → MilestoneInstance T)
    (hreached : ∀ name, (milestone name).reached = (s.milestone name).reached)
    (hsub : ∀ name, ∀ u ∈ (s.milestone name).listeners, u ∈ (milestone name).listeners)
    (hmem : ∀ name, IsMilestone G n name → t ∈ (milestone name).listeners)
    (hnew : ∀ name, (s.milestone name).reached = false → (milestone name).listeners.Nodup ∧
      ∀ u ∈ (milestone name).listeners, u ∉ (s.milestone name).listeners →
        u = t ∧ IsMilestone G n name) :
    Inv S G M { s with milestone := milestone, work := ws } := by
  obtain ⟨ys, hys, hn⟩ := h.ok _ (hw ▸ List.mem_cons_self)
  have heq (u : T) (hu : (Work.execute t n).about u ≠ 0) : u = t := by
    by_contra hne
    rw [Work.about, if_neg fun h => hne h.symm] at hu
    exact hu rfl
  have hnone (u : T) : busy u ([] : List (Work T N)) ≤ (Work.execute t n).about u := Nat.zero_le _
  refine h.replace hw s.token milestone hnone (fun _ _ => rfl) hreached hsub
    (fun v hv => (List.not_mem_nil hv).elim) (fun u _ => h.past u) (fun u _ => h.common u) ?_ ?_
  · intro u hu _
    obtain rfl := heq u hu
    refine ⟨⟨by rw [hn, hys]; rfl, ?_⟩, fun m name hm hmile => ?_⟩
    · rw [hys]
      rintro y hy
      obtain rfl := Option.some.inj hy
      exact ⟨rfl, hdue⟩
    · obtain rfl : n = m := Option.some.inj (hn.symm.trans hm)
      exact hmem name hmile
  · intro name hr
    refine ⟨(hnew name hr).1, fun u hu hold => ?_⟩
    obtain ⟨rfl, hmile⟩ := (hnew name hr).2 u hu hold
    exact ⟨rfl, by rw [Work.about, if_pos rfl]; exact Nat.one_ne_zero, n, hn, hmile⟩

/-- The milestone of a token that has entered its milestone-node. -/
theorem Inv.reached_iff {y : Stay N} {p : Option (List Char)} (h : Inv S G M s)
    (hy : y ∈ (s.token t).stays) (hp : (G y.node).kind = .milestoneNode p) :
    Reached S G s.marked t y.node ↔ (s.milestone (G y.node).name).reached = true := by
  have htoken : milestoneToken S G t y.node = some (M (G y.node).name) := by
    simp only [milestoneToken, hp, h.common t y hy p hp, Option.join_some]
  constructor
  · rintro ⟨M', hM', hm⟩
    exact ((h.marked _ _).1 hm).2
  · exact fun hr => ⟨_, htoken, (h.marked _ _).2 ⟨rfl, hr⟩⟩

theorem mem_addListener {ls : List T} :
    u ∈ (if t ∈ ls then ls else t :: ls) ↔ u = t ∨ u ∈ ls := by
  split
  · rename_i ht
    exact ⟨.inr, fun h => h.elim (fun h => h ▸ ht) id⟩
  · exact List.mem_cons

theorem nodup_addListener {ls : List T} (h : ls.Nodup) :
    (if t ∈ ls then ls else t :: ls).Nodup := by
  split
  · exact h
  · rename_i ht
    exact List.nodup_cons.2 ⟨ht, h⟩

theorem Inv.doExecute {n : N} {s' : State T N} (h : Inv S G M s)
    (hw : s.work = .execute t n :: ws)
    (hd : ∀ p, (G n).kind = .milestoneNode p → (s.milestone (G n).name).reached = true ∨
      S.findToken t p = some (some t))
    (hs : Milestone.doExecute S G t n { s with work := ws } = some s') : Inv S G M s' := by
  obtain ⟨ys, hys, -⟩ := h.ok _ (hw ▸ List.mem_cons_self)
  have hmem : ({ node := n, leaves := 0, signals := 0 } : Stay N) ∈ (s.token t).stays := by
    rw [hys]
    exact List.mem_cons_self
  rw [Milestone.doExecute] at hs
  rcases hk : (G n).kind with _ | _ | p <;> simp only [hk] at hs
  · obtain rfl := Option.some.inj hs
    refine h.waits hw (by simp only [due, hk]) s.milestone (fun _ => rfl) (fun _ _ hu => hu)
      (fun name hm => ?_) fun name hr => ⟨(h.listeners name hr).1, fun u hu hold => absurd hu hold⟩
    obtain ⟨⟨p, hp⟩, -⟩ := hm
    rw [hk] at hp
    cases hp
  · obtain rfl := Option.some.inj hs
    exact h.passes hw (by simp only [due, hk])
  · have hreached := h.reached_iff hmem hk
    simp only [h.common t _ hmem p hk, Option.bind_eq_bind, Option.bind_some] at hs
    split at hs
    · rename_i hr
      obtain rfl := Option.some.inj hs
      exact h.passes hw (by simp only [due, hk, if_pos (hreached.2 hr)])
    · rename_i hr
      obtain rfl := Option.some.inj hs
      -- the listener is the milestone token, which is the token that waits
      have hM : M (G n).name = t := by
        have ht := (hd p hk).resolve_left hr
        rw [h.common t _ hmem p hk] at ht
        exact Option.some.inj (Option.some.inj ht)
      rw [hM]
      refine h.waits hw (by simp only [due, hk, if_neg (mt hreached.1 hr)]) _ (fun name => ?_)
        (fun name u hu => ?_) (fun name hm => ?_) fun name hrn => ?_
      · by_cases hname : name = (G n).name
        · subst hname
          rw [Function.update_self]
        · rw [Function.update_of_ne hname]
      · by_cases hname : name = (G n).name
        · subst hname
          rw [Function.update_self]
          exact mem_addListener.2 (.inr hu)
        · rwa [Function.update_of_ne hname]
      · obtain ⟨-, rfl⟩ := hm
        rw [Function.update_self]
        exact mem_addListener.2 (.inl rfl)
      · by_cases hname : name = (G n).name
        · subst hname
          rw [Function.update_self]
          refine ⟨nodup_addListener (h.listeners _ hrn).1, fun u hu hold => ?_⟩
          exact ⟨(mem_addListener.1 hu).resolve_right hold, ⟨p, hk⟩, rfl⟩
        · rw [Function.update_of_ne hname]
          exact ⟨(h.listeners name hrn).1, fun u hu hold => absurd hu hold⟩

/-- Other calls are going to move the same tokens. -/
theorem Inv.rework {vs : List (Work T N)} (h : Inv S G M s)
    (hbusy : ∀ u, busy u vs = busy u s.work) (hok : ∀ v ∈ vs, v.Ok S G s.marked s.token) :
    Inv S G M { s with work := vs } where
  one u := Nat.le_trans (Nat.le_of_eq (hbusy u)) (h.one u)
  idle u hu := h.idle u ((hbusy u).symm.trans hu)
  ok := hok
  past := h.past
  common := h.common
  marked := h.marked
  listeners name hr := ⟨(h.listeners name hr).1, fun u hu =>
    ⟨(hbusy u).trans ((h.listeners name hr).2 u hu).1, ((h.listeners name hr).2 u hu).2⟩⟩

theorem Inv.notify {us : List T} (h : Inv S G M s) (hw : s.work = .notify (u :: us) :: ws) :
    Inv S G M (({ s with work := ws } : State T N).push [.leave u none, .notify us]) := by
  have hleaving := h.ok _ (hw ▸ List.mem_cons_self)
  refine h.rework (fun u' => ?_) fun v hv => ?_
  · rw [hw]
    simp only [List.cons_append, List.nil_append, busy_cons, Work.about, List.count_cons,
      beq_iff_eq]
    omega
  · rcases List.mem_cons.1 hv with rfl | hv
    · exact hleaving u List.mem_cons_self
    · rcases List.mem_cons.1 hv with rfl | hv
      · exact fun t ht => hleaving t (List.mem_cons_of_mem u ht)
      · exact h.ok v (hw ▸ List.mem_cons_of_mem _ hv)

/-! ## A milestone is marked -/

omit [DecidableEq T] in
theorem Reached.mono {marked' : List (String × T)} {n : N}
    (hsub : ∀ a ∈ marked, a ∈ marked') : Reached S G marked t n → Reached S G marked' t n :=
  fun ⟨M, hM, hm⟩ => ⟨M, hM, hsub _ hm⟩

theorem due_mono {marked' : List (String × T)} {y : Stay N} (hsub : ∀ a ∈ marked, a ∈ marked')
    (h : due S G marked t y = 1) : due S G marked' t y = 1 := by
  rw [due] at h ⊢
  rcases hk : (G y.node).kind with _ | _ | p <;> simp only [hk] at h ⊢
  · exact h
  · by_cases hr : Reached S G marked t y.node
    · rw [if_pos (hr.mono hsub)]
    · rw [if_neg hr] at h
      cases h

theorem Leaving.mono {marked' : List (String × T)} (hsub : ∀ a ∈ marked, a ∈ marked')
    (h : Leaving S G marked t x) : Leaving S G marked' t x := by
  obtain ⟨y, ys, hy, hn, hl, hdue⟩ := h
  exact ⟨y, ys, hy, hn, hl, due_mono hsub hdue⟩

theorem Work.Ok.mono {marked' : List (String × T)} {token : T → Token N}
    (hsub : ∀ a ∈ marked, a ∈ marked') (h : w.Ok S G marked token) :
    w.Ok S G marked' token := by
  cases w with
  | leave t _ => exact Leaving.mono hsub h
  | take t _ | enter t _ => exact fun y hy => ⟨(h y hy).1, due_mono hsub (h y hy).2⟩
  | execute t n => exact h
  | event t e => trivial
  | notify ts => exact fun t ht => (h t ht).mono hsub

/-- Marking a milestone concerns its milestone-nodes only. -/
theorem due_cons_of_ne {name : String} {M' : T} {y : Stay N} (h : ¬ IsMilestone G y.node name) :
    due S G ((name, M') :: marked) t y = due S G marked t y := by
  rw [due, due]
  rcases hk : (G y.node).kind with _ | _ | p
  · rfl
  · rfl
  · have hr : Reached S G ((name, M') :: marked) t y.node ↔ Reached S G marked t y.node := by
      refine ⟨fun ⟨M, hM, hm⟩ => ⟨M, hM, (List.mem_cons.1 hm).resolve_left fun he => ?_⟩,
        .mono fun a ha => List.mem_cons_of_mem _ ha⟩
      exact h ⟨⟨p, hk⟩, congrArg Prod.fst he⟩
    simp only [hr]

theorem due_cons_self {name : String} {M' : T} {y : Stay N} (h : IsMilestone G y.node name)
    (hM : ∀ p, (G y.node).kind = .milestoneNode p → S.findToken t p = some (some M')) :
    due S G ((name, M') :: marked) t y = 1 := by
  obtain ⟨⟨p, hk⟩, rfl⟩ := h
  have hr : Reached S G (((G y.node).name, M') :: marked) t y.node :=
    ⟨M', by simp only [milestoneToken, hk, hM p hk, Option.join_some], List.mem_cons_self⟩
  simp only [due, hk, if_pos hr]

theorem Inv.doEvent {e : MilestoneEvent} {ts : List T} {s' : State T N} (h : Inv S G M s)
    (hw : s.work = .event t e :: ws)
    (hc : S.findToken t e.relativeTokenPath = some (some (M e.milestoneName)))
    (hd : (s.milestone e.milestoneName).reached = true →
      (s.milestone e.milestoneName).listeners = [])
    (hs : Milestone.doEvent S t e ts { s with work := ws } = some s') : Inv S G M s' := by
  rw [Milestone.doEvent, hc] at hs
  split at hs
  · rename_i hperm
    obtain rfl := Option.some.inj hs
    have hperm := List.isPerm_iff.1 hperm
    have hbusy (u : T) : busy u s.work = busy u ws := by
      rw [hw, busy_cons]
      exact Nat.zero_add _
    have hsub : ∀ a ∈ s.marked, a ∈ (e.milestoneName, M e.milestoneName) :: s.marked :=
      fun a ha => List.mem_cons_of_mem _ ha
    -- the listeners that are called wait for the milestone
    have hts : ∀ u ∈ ts, busy u s.work = 0 ∧
        ∃ n, (s.token u).node = some n ∧ IsMilestone G n e.milestoneName := by
      intro u hu
      have hu := hperm.mem_iff.1 hu
      have hr : (s.milestone e.milestoneName).reached = false := by
        refine Bool.eq_false_iff.2 fun hr => ?_
        rw [hd hr] at hu
        cases hu
      exact (h.listeners _ hr).2 u hu
    have hcount (u : T) : ts.count u ≤ 1 := by
      rw [hperm.count_eq]
      rcases hr : (s.milestone e.milestoneName).reached with _ | _
      · exact List.nodup_iff_count_le_one.1 (h.listeners _ hr).1 u
      · rw [hd hr]
        exact Nat.zero_le _
    have hlisteners (name : String) : (Function.update s.milestone e.milestoneName
        { s.milestone e.milestoneName with reached := true } name).listeners =
          (s.milestone name).listeners := by
      by_cases hname : name = e.milestoneName
      · subst hname
        rw [Function.update_self]
      · rw [Function.update_of_ne hname]
    constructor
    · intro u
      show ts.count u + busy u ws ≤ 1
      by_cases hu : u ∈ ts
      · rw [← hbusy, (hts u hu).1]
        exact hcount u
      · rw [List.count_eq_zero.2 hu, ← hbusy, Nat.zero_add]
        exact h.one u
    · intro u hu
      have hu : ts.count u + busy u ws = 0 := hu
      obtain ⟨hwait, hlisten⟩ := h.idle u (by rw [hbusy]; omega)
      refine ⟨⟨hwait.1, fun y hy => ⟨(hwait.2 y hy).1, ?_⟩⟩, fun n name hn hm => ?_⟩
      · show due S G ((e.milestoneName, M e.milestoneName) :: s.marked) u y = 0
        rw [due_cons_of_ne]
        · exact (hwait.2 y hy).2
        · intro hm
          have hnode : (s.token u).node = some y.node := by
            rw [hwait.1]
            exact congrArg (Option.map _) hy
          have hin := hlisten y.node _ hnode hm
          have := List.count_pos_iff.2 (hperm.mem_iff.2 hin)
          omega
      · show u ∈ (Function.update s.milestone _ _ name).listeners
        rw [hlisteners]
        exact hlisten n name hn hm
    · intro v hv
      rcases List.mem_cons.1 hv with rfl | hv
      · intro u hu
        obtain ⟨hb, n, hn, hm⟩ := hts u hu
        obtain ⟨hnode, hwait⟩ := (h.idle u hb).1
        rcases hys : (s.token u).stays with _ | ⟨y, ys⟩
        · rw [hnode, hys] at hn
          cases hn
        · rw [hys] at hnode hwait
          obtain rfl : y.node = n := Option.some.inj (hnode.symm.trans hn)
          refine ⟨y, ys, hys, hnode, (hwait y rfl).1, due_cons_self hm fun p hp => ?_⟩
          rw [h.common u y (hys ▸ List.mem_cons_self) p hp, hm.2]
      · exact (h.ok v (hw ▸ List.mem_cons_of_mem _ hv)).mono hsub
    · exact fun u y hy => ⟨(h.past u y hy).1, due_mono hsub (h.past u y hy).2⟩
    · exact h.common
    · intro name M'
      show (name, M') ∈ (e.milestoneName, M e.milestoneName) :: s.marked ↔ _ ∧
        (Function.update s.milestone _ _ name).reached = true
      rw [List.mem_cons, Prod.mk.injEq, h.marked]
      by_cases hname : name = e.milestoneName
      · subst hname
        rw [Function.update_self]
        exact ⟨fun h => ⟨h.elim (·.2) (·.1), rfl⟩, fun h => .inl ⟨rfl, h.1⟩⟩
      · rw [Function.update_of_ne hname]
        exact ⟨fun h => h.resolve_left fun h => hname h.1, .inr⟩
    · intro name hr
      have hname : name ≠ e.milestoneName := by
        rintro rfl
        simp only [State.push, Function.update_self] at hr
        cases hr
      have hr : (Function.update s.milestone _ _ name).reached = false := hr
      rw [Function.update_of_ne hname] at hr
      show (Function.update s.milestone _ _ name).listeners.Nodup ∧
        ∀ u ∈ (Function.update s.milestone _ _ name).listeners, ts.count u + busy u ws = 0 ∧ _
      rw [hlisteners]
      refine ⟨(h.listeners name hr).1, fun u hu => ?_⟩
      obtain ⟨hb, n, hn, hm⟩ := (h.listeners name hr).2 u hu
      refine ⟨?_, n, hn, hm⟩
      rw [← hbusy, hb, List.count_eq_zero.2 fun hu => ?_]
      obtain ⟨-, n', hn', hm'⟩ := hts u hu
      obtain rfl : n = n' := Option.some.inj (hn.symm.trans hn')
      exact hname (hm.2.symm.trans hm'.2)
  · cases hs

/-! ## Steps and runs -/

/-- A token begins to move. -/
theorem Inv.start (h : Inv S G M s) (hw : s.work = [])
    (hvt : ∀ u, v.about u = if t = u then 1 else 0)
    (hv : v.Ok S G s.marked (Function.update s.token t x))
    (hover : ∀ y ∈ x.stays.tail, Over S G s.marked t y)
    (hcommon : ∀ y ∈ x.stays, ∀ p, (G y.node).kind = .milestoneNode p →
      S.findToken t p = some (some (M (G y.node).name)))
    (hnot : ∀ n name, (s.token t).node = some n → ¬ IsMilestone G n name) :
    Inv S G M ((s.setToken t x).push [v]) := by
  have hbusy (u : T) : busy u (v :: s.work) = if t = u then 1 else 0 := by
    rw [hw, busy_cons, busy_nil, hvt]
    rfl
  have hsame {u : T} (hu : u ≠ t) : Function.update s.token t x u = s.token u :=
    Function.update_of_ne hu _ _
  constructor
  · intro u
    show busy u (v :: s.work) ≤ 1
    rw [hbusy]
    split <;> omega
  · intro u hu
    have hu : busy u (v :: s.work) = 0 := hu
    have hne : u ≠ t := by
      intro he
      rw [hbusy, if_pos he.symm] at hu
      cases hu
    show Waiting S G s.marked u (Function.update s.token t x u) ∧
      ∀ n name, (Function.update s.token t x u).node = some n → _
    rw [hsame hne]
    exact h.idle u (by rw [hw]; rfl)
  · intro v' hv'
    have hv' : v' ∈ v :: s.work := hv'
    rw [hw] at hv'
    exact List.mem_singleton.1 hv' ▸ hv
  · intro u
    show ∀ y ∈ (Function.update s.token t x u).stays.tail, _
    by_cases hu : u = t
    · subst hu
      rw [Function.update_self]
      exact hover
    · rw [hsame hu]
      exact h.past u
  · intro u
    show ∀ y ∈ (Function.update s.token t x u).stays, _
    by_cases hu : u = t
    · subst hu
      rw [Function.update_self]
      exact hcommon
    · rw [hsame hu]
      exact h.common u
  · exact h.marked
  · intro name hr
    refine ⟨(h.listeners name hr).1, fun u hu => ?_⟩
    obtain ⟨-, n, hn, hm⟩ := (h.listeners name hr).2 u hu
    have hne : u ≠ t := by
      rintro rfl
      exact hnot n name hn hm
    show busy u (v :: s.work) = 0 ∧ ∃ n, (Function.update s.token t x u).node = some n ∧ _
    rw [hbusy, if_neg fun h => hne h.symm, hsame hne]
    exact ⟨rfl, n, hn, hm⟩

theorem Inv.arrive {n : N} (h : Inv S G M s) (hw : s.work = []) (hn : (s.token t).node = none) :
    Inv S G M (s.push [.enter t n]) := by
  have hwait := (h.idle t (by rw [hw]; rfl)).1
  have hnil : (s.token t).stays = [] := by
    have hnode := hwait.1
    rw [hn] at hnode
    rcases hys : (s.token t).stays with _ | ⟨y, ys⟩
    · rfl
    · rw [hys] at hnode
      cases hnode
  have h' := h.start (v := .enter t n) (x := s.token t) hw (fun _ => rfl) ?_ (h.past t)
    (h.common t) fun m _ hm => ?_
  · rwa [State.setToken, Function.update_eq_self] at h'
  · intro y hy
    rw [Function.update_self, hnil] at hy
    cases hy
  · rw [hn] at hm
    cases hm

theorem Inv.signal {n : N} {transition : Transition N} (h : Inv S G M s) (hw : s.work = [])
    (hn : (s.token t).node = some n) (hk : (G n).kind.isState = true) :
    Inv S G M ((s.setToken t (s.token t).signalled).push [.leave t (some transition)]) := by
  obtain ⟨hnode, hwait⟩ := (h.idle t (by rw [hw]; rfl)).1
  have hstate : (G n).kind = .state := by
    rcases hkind : (G n).kind with _ | _ | p
    · rfl
    all_goals
      rw [hkind] at hk
      cases hk
  rcases hys : (s.token t).stays with _ | ⟨y, ys⟩
  · rw [hnode, hys] at hn
    cases hn
  · rw [hys] at hnode hwait
    obtain rfl : y.node = n := Option.some.inj (hnode.symm.trans hn)
    obtain ⟨hleaves, hdue⟩ := hwait y rfl
    have hsignalled : (s.token t).signalled.stays = { y with signals := y.signals + 1 } :: ys := by
      rw [Token.signalled, hys]
    refine h.start hw (fun _ => rfl) ?_ ?_ ?_ fun m name hm ⟨⟨p, hp⟩, _⟩ => ?_
    · rw [Work.Ok, Function.update_self]
      refine ⟨_, ys, hsignalled, hnode, hleaves, ?_⟩
      simp only [due, hstate] at hdue ⊢
      rw [hdue]
    · rw [hsignalled]
      exact fun z hz => h.past t z (by rw [hys]; exact hz)
    · rw [hsignalled]
      intro z hz
      rcases List.mem_cons.1 hz with rfl | hz
      · exact h.common t y (by rw [hys]; exact List.mem_cons_self)
      · exact h.common t z (by rw [hys]; exact List.mem_cons_of_mem y hz)
    · obtain rfl : y.node = m := Option.some.inj (hn.symm.trans hm)
      rw [hstate] at hp
      cases hp

/-- **Step.** -/
theorem Inv.step {op : Op T N} {s' : State T N} (h : Inv S G M s) (hc : Common S G M s op)
    (hd : Direct S G s op) (hs : Milestone.step S G s op = some s') : Inv S G M s' := by
  cases op with
  | arrive t n =>
    simp only [Milestone.step] at hs
    split at hs
    · rename_i hidle
      rw [Bool.and_eq_true, List.isEmpty_iff, Option.isNone_iff_eq_none] at hidle
      exact Option.some.inj hs ▸ h.arrive hidle.1 hidle.2
    · cases hs
  | signal t transition =>
    simp only [Milestone.step, Option.bind_eq_bind, Option.bind_eq_some_iff] at hs
    obtain ⟨n, hn, hs⟩ := hs
    split at hs
    · rename_i hidle
      rw [Bool.and_eq_true, List.isEmpty_iff] at hidle
      exact Option.some.inj hs ▸ h.signal hidle.1 hn hidle.2
    · cases hs
  | event t e =>
    simp only [Milestone.step] at hs
    split at hs
    · obtain rfl := Option.some.inj hs
      refine h.rework (fun u => ?_) fun v hv => ?_
      · rw [List.singleton_append, busy_cons]
        exact Nat.zero_add _
      · rcases List.mem_cons.1 hv with rfl | hv
        · trivial
        · exact h.ok v hv
    · cases hs
  | work ts =>
    simp only [Milestone.step] at hs
    rcases hw : s.work with _ | ⟨w, ws⟩
    · simp only [hw] at hs
      cases hs
    · simp only [hw] at hs
      have hc : w.Common S G M := hc w (by rw [hw]; rfl)
      have hd : w.Direct S G s.milestone := hd w (by rw [hw]; rfl)
      rcases w with ⟨t, transition⟩ | ⟨t, transition⟩ | ⟨t, n⟩ | ⟨t, n⟩ | ⟨t, e⟩ | _ | ⟨u, us⟩
      · exact h.doLeave hw hs
      · exact Option.some.inj hs ▸ h.doTake hw
      · exact Option.some.inj hs ▸ h.doEnter hw hc
      · exact h.doExecute hw hd hs
      · exact h.doEvent hw hc hd hs
      · obtain rfl := Option.some.inj hs
        refine h.rework (fun u => ?_) fun v hv => h.ok v (hw ▸ List.mem_cons_of_mem _ hv)
        rw [hw, busy_cons]
        exact (Nat.zero_add _).symm
      · exact Option.some.inj hs ▸ h.notify hw

theorem inv_init (M : String → T) : Inv S G M (State.init : State T N) where
  one _ := Nat.zero_le _
  idle _ _ := ⟨⟨rfl, fun _ h => nomatch h⟩, fun _ _ h => nomatch h⟩
  ok _ h := nomatch h
  past _ _ h := nomatch h
  common _ _ h := nomatch h
  marked _ _ := ⟨(nomatch ·), fun h => Bool.noConfusion h.2⟩
  listeners _ _ := ⟨.nil, fun _ h => nomatch h⟩

/-- Nothing is being moved. -/
theorem Inv.released (h : Inv S G M s) (hw : s.work = []) : Released S G s := by
  have hidle (u : T) := (h.idle u (by rw [hw]; rfl)).1
  constructor
  · intro u y hy
    rcases hys : (s.token u).stays with _ | ⟨z, zs⟩
    · rw [hys] at hy
      cases hy
    · rw [hys] at hy
      rcases List.mem_cons.1 hy with rfl | hy
      · obtain ⟨hl, hdue⟩ := (hidle u).2 y (by rw [hys]; rfl)
        rw [hl, hdue]
      · obtain ⟨hl, hdue⟩ := h.past u y (by rw [hys]; exact hy)
        rw [hl, hdue]
  · exact fun u => (hidle u).1
  · exact fun u y hy => ((hidle u).2 y hy).1
  · exact fun u y hy => (h.past u y hy).1

/-- If every node can be left, no call throws. -/
theorem Inv.progress (h : Inv S G M s) (hG : ∀ n, (G n).leavingTransitions ≠ [])
    (hw : s.work ≠ []) :
    ∃ ts, Milestone.step S G s (.work ts) ≠ none := by
  rcases hws : s.work with _ | ⟨w, ws⟩
  · exact absurd hws hw
  have hok := h.ok w (hws ▸ List.mem_cons_self)
  have hsome {a : State T N} : some a ≠ none := Option.some_ne_none a
  rcases w with ⟨t, transition⟩ | ⟨t, transition⟩ | ⟨t, n⟩ | ⟨t, n⟩ | ⟨t, e⟩ | _ | ⟨u, us⟩
  · obtain ⟨y, -, -, hn, -⟩ := hok
    obtain ⟨tr, trs, htr⟩ := List.exists_cons_of_ne_nil (hG y.node)
    refine ⟨[], ?_⟩
    rcases transition with _ | tr' <;>
      simp [Milestone.step, hws, Milestone.doLeave, hn, htr]
  · exact ⟨[], by simp only [Milestone.step, hws]; exact hsome⟩
  · exact ⟨[], by simp only [Milestone.step, hws]; exact hsome⟩
  · obtain ⟨ys, hys, -⟩ := hok
    refine ⟨[], ?_⟩
    simp only [Milestone.step, hws, Milestone.doExecute]
    rcases hk : (G n).kind with _ | _ | p
    · exact hsome
    · exact hsome
    · have hM := h.common t _ (hys ▸ List.mem_cons_self) p hk
      simp only [hM, Option.bind_eq_bind, Option.bind_some]
      split <;> exact hsome
  · refine ⟨(s.milestone e.milestoneName).listeners, ?_⟩
    simp only [Milestone.step, hws, Milestone.doEvent]
    rw [if_pos (List.isPerm_iff.2 (List.Perm.refl _))]
    exact hsome
  · exact ⟨[], by simp only [Milestone.step, hws]; exact hsome⟩
  · exact ⟨[], by simp only [Milestone.step, hws]; exact hsome⟩

end

/-- A root token with a child. -/
def parentAndChild : Tokens Bool where
  rootToken := true
  parent b := if b then none else some true
  children b := if b then some fun _ => some false else none

/-- A milestone-node that leads to a wait state. -/
def milestoneThenState (tokenPath : List Char) (n : Bool) : Node Bool where
  name := if n then "end" else "m"
  kind := if n then .state else .milestoneNode (some tokenPath)
  nodeEnter := []
  nodeLeave := []
  leavingTransitions := [{ to_ := true, events := [] }]

def go : Op Bool Bool := .work []

end Milestone

end Jbpm
