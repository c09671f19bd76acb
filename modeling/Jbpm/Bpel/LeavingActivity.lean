/-
  Leaving an activity: `Activity.leave`, which determines the outgoing links one after the other,
  where each of them notifies an activity that waits for it.

  * `Caller`: who has called, and gets the fault of a transition condition;
  * `step`: `leave` and what the notified activities do in between;
  * `Undisturbed`: the notified activities neither end the token nor fault its scope, and the
    caller raises a fault in this scope;
  * `respects_of_run`: so a fault in a transition condition leaves the links, the scope and the
    token as it should.
-/
import Mathlib.Order.Nat
import Jbpm.Lib.Run

namespace Jbpm

open Lib

namespace Bpel.Leave

/-! ## Definitions -/

structure Composite where
  id : ℕ
  isScope : Bool

/-- A link definition, with the composite activities around its target. -/
structure Source where
  target : List ℕ

/-- An activity in the composite activities around it, the innermost first: the outermost is the
    process. -/
structure Leaver where
  composites : List Composite
  enclosed : ∃ c ∈ composites, c.isScope = true
  sources : List Source
  /-- `getDefaultLeavingTransition() != null` -/
  hasTransition : Bool

/-- `getScope()` -/
def getScope : (cs : List Composite) → (∃ c ∈ cs, c.isScope = true) → ℕ
  | [], h => absurd h (by simp)
  | c :: cs, h =>
    if hc : c.isScope then c.id
    else getScope cs (by simpa [hc] using h)

/-- `hasActivity(activity)` -/
def hasActivity (scope : ℕ) (target : List ℕ) : Bool := target.contains scope

/-- The target of a link is outside the scope around the activity. -/
def Leaver.outside (a : Leaver) (i : ℕ) : Bool :=
  match a.sources[i]? with
  | none => false
  | some source => !hasActivity (getScope a.composites a.enclosed) source.target

/-! ## The code -/

/-- Whose call it is. -/
inductive Caller where
  /-- `enter` of the activity, or of the end of its structure, or `targetDetermined` -/
  | activity
  /-- a listener that delivers a request, to a receive -/
  | listener
  /-- `Timer.execute`, for a wait -/
  | timer
  /-- an activity of a nested scope instance that is over now: it has completed, so the nested
      scope is left, or it has been compensated -/
  | nestedScope
  deriving DecidableEq

/-- The caller raises a fault in the instance of the scope.  The timers of alarms have no graph
    element, so the fault goes on to the job executor; and an activity of a nested instance raises
    it there, where the end state refuses it. -/
def Caller.raises : Caller → Bool
  | .activity | .listener => true
  | .timer | .nestedScope => false

/-- Where `leave` is: before it, at a link, at a link after a fault; and how it ended. -/
inductive Pc where
  | entered
  | determining (i : ℕ)
  | clearing (i : ℕ)
  | returned
  | thrown
  | taken
  | completed
  deriving DecidableEq

/-- The links of the activity, whether their targets wait for them; whether the token has ended,
    and the number of faults that reached the scope.  The values are those of the conditions. -/
structure Call where
  caller : Caller
  pc : Pc
  status : ℕ → Option Bool
  waiting : ℕ → Bool
  hasEnded : Bool
  faults : ℕ
  values : List Bool

/-- What an activity that is notified does, and all that comes of it: it may end the token, raise
    faults in the scope, and enter other activities, which wait for links then.  The links have
    one source each, so it does not determine those of the activity that is left. -/
structure Reaction where
  ends : Bool
  faults : ℕ
  waiting : ℕ → Bool

/-- `statusDetermined(status)` -/
def Call.statusDetermined (s : Call) (i : ℕ) (status : Bool) (r : Reaction) : Call :=
  let s := { s with status := Function.update s.status i (some status) }
  if s.waiting i then
    { s with hasEnded := s.hasEnded || r.ends, faults := s.faults + r.faults,
             waiting := r.waiting }
  else s

inductive Act where
  | leave
  | determined (value : Bool) (r : Reaction)
  | faulted
  | cleared (r : Reaction)
  | raised
  | proceeds

/-- The steps of `leave(exeContext)`. -/
def step (a : Leaver) (s : Call) : Act → Option Call
  | .leave =>
    if s.pc = .entered then
      some { s with pc := if s.hasEnded then .returned else .determining 0 }
    else none
  | .determined value r =>
    match s.pc with
    | .determining i =>
      if i < a.sources.length then
        some { s.statusDetermined i value r with
                 pc := .determining (i + 1), values := s.values ++ [value] }
      else none
    | _ => none
  | .faulted =>
    match s.pc with
    | .determining i => if i < a.sources.length then some { s with pc := .clearing i } else none
    | _ => none
  | .cleared r =>
    match s.pc with
    | .clearing i =>
      if i < a.sources.length then
        if a.outside i then some { s.statusDetermined i false r with pc := .clearing (i + 1) }
        else some { s with pc := .clearing (i + 1) }
      else none
    | _ => none
  | .raised =>
    -- a scope ends the tokens in it when it is terminated, and then no fault is for it
    if s.pc = .clearing a.sources.length then
      some { s with pc := .thrown,
                    faults := s.faults + (s.caller.raises && !s.hasEnded).toNat }
    else none
  | .proceeds =>
    if s.pc = .determining a.sources.length then
      some { s with pc := if a.hasTransition then .taken else .completed }
    else none

/-! ## Runs -/

/-- The call at the start, in any state of the links. -/
def start (caller : Caller) (status : ℕ → Option Bool) (waiting : ℕ → Bool) (hasEnded : Bool)
    (faults : ℕ) : Call where
  caller := caller
  pc := .entered
  status := status
  waiting := waiting
  hasEnded := hasEnded
  faults := faults
  values := []

/-- An activity that is notified neither ends the token nor raises a fault in the scope; and the
    caller does raise the fault of a transition condition there. -/
def Undisturbed (a : Leaver) (s : Call) : Act → Prop
  | .determined _ r => ∀ i, s.pc = .determining i → s.waiting i = true →
      r.ends = false ∧ r.faults = 0
  | .cleared r => ∀ i, s.pc = .clearing i → a.outside i = true → s.waiting i = true →
      r.ends = false ∧ r.faults = 0
  | .raised => s.caller.raises = true
  | _ => True

/-- After a fault in the condition of link `i` the links before it keep their status, those from
    it on are set to false if their target is outside the scope, and are left as they were
    otherwise; and one more fault has reached the scope.  If execution proceeds, all links have
    been determined, and the token has not ended. -/
def Respects (a : Leaver) (s₀ s : Call) : Prop :=
  match s.pc with
  | .thrown => ∃ i < a.sources.length, s.values.length = i ∧
      (∀ j < i, s.status j = s.values[j]?) ∧
      (∀ j, i ≤ j → j < a.sources.length →
        s.status j = if a.outside j then some false else s₀.status j) ∧
      s.faults = s₀.faults + 1
  | .taken | .completed => s.hasEnded = false ∧ s.faults = s₀.faults ∧
      s.values.length = a.sources.length ∧ ∀ j < a.sources.length, s.status j = s.values[j]?
  | _ => True

/-! ## Invariant -/

/-- The links before `m` have been determined by their conditions, those from `m` to `i` after a
    fault, and those from `i` on are as they were. -/
structure Progress (a : Leaver) (s₀ s : Call) (m i : ℕ) : Prop where
  values : s.values.length = m
  determined : ∀ j < m, s.status j = s.values[j]?
  cleared : ∀ j, m ≤ j → j < i →
    s.status j = if a.outside j then some false else s₀.status j
  unset : ∀ j, i ≤ j → s.status j = s₀.status j
  faults : s.faults = s₀.faults

/-- What holds where `leave` is. -/
def Inv (a : Leaver) (s₀ s : Call) : Prop :=
  match s.pc with
  | .entered => Progress a s₀ s 0 0
  | .determining i => i ≤ a.sources.length ∧ s.hasEnded = false ∧ Progress a s₀ s i i
  | .clearing i => ∃ m < a.sources.length, m ≤ i ∧ s.hasEnded = false ∧ Progress a s₀ s m i
  | _ => Respects a s₀ s

section
variable {a : Leaver} {s₀ s s' : Call} {m i : ℕ}

theorem status_statusDetermined (s : Call) (i : ℕ) (value : Bool) (r : Reaction) :
    (s.statusDetermined i value r).status = Function.update s.status i (some value) := by
  unfold Call.statusDetermined
  dsimp only
  split <;> rfl

theorem values_statusDetermined (s : Call) (i : ℕ) (value : Bool) (r : Reaction) :
    (s.statusDetermined i value r).values = s.values := by
  unfold Call.statusDetermined
  dsimp only
  split <;> rfl

theorem faults_statusDetermined (value : Bool) {r : Reaction}
    (hr : s.waiting i = true → r.faults = 0) :
    (s.statusDetermined i value r).faults = s.faults := by
  unfold Call.statusDetermined
  dsimp only
  split
  case isTrue hw => simp [hr hw]
  case isFalse => rfl

theorem hasEnded_statusDetermined (value : Bool) {r : Reaction}
    (hr : s.waiting i = true → r.ends = false) :
    (s.statusDetermined i value r).hasEnded = s.hasEnded := by
  unfold Call.statusDetermined
  dsimp only
  split
  case isTrue hw => simp [hr hw]
  case isFalse => rfl

/-- The next link is determined by its condition. -/
theorem Progress.determine (h : Progress a s₀ s i i) (value : Bool) {r : Reaction}
    (hr : s.waiting i = true → r.faults = 0) (pc : Pc) : Progress a s₀
      { s.statusDetermined i value r with pc := pc, values := s.values ++ [value] }
      (i + 1) (i + 1) where
  values := by simp [h.values]
  determined j hj := by
    rw [status_statusDetermined]
    rcases Nat.lt_succ_iff_lt_or_eq.1 hj with hlt | rfl
    · rw [Function.update_of_ne hlt.ne, h.determined j hlt,
        List.getElem?_append_left (by rw [h.values]; exact hlt)]
    · rw [Function.update_self]
      simp [← h.values]
  cleared j hm hj := absurd hj (Nat.not_lt.2 hm)
  unset j hj := by
    rw [status_statusDetermined, Function.update_of_ne (Nat.ne_of_gt hj)]
    exact h.unset j (Nat.le_of_succ_le hj)
  faults := (faults_statusDetermined value hr).trans h.faults

/-- The next link is set to false if its target is outside the scope. -/
theorem Progress.clear_outside (h : Progress a s₀ s m i) (hm : m ≤ i) (hout : a.outside i = true)
    {r : Reaction} (hr : s.waiting i = true → r.faults = 0) (pc : Pc) :
    Progress a s₀ { s.statusDetermined i false r with pc := pc } m (i + 1) where
  values := by
    rw [values_statusDetermined]
    exact h.values
  determined j hj := by
    rw [status_statusDetermined, values_statusDetermined, Function.update_of_ne (by omega)]
    exact h.determined j hj
  cleared j hmj hj := by
    rw [status_statusDetermined]
    rcases Nat.lt_succ_iff_lt_or_eq.1 hj with hlt | rfl
    · rw [Function.update_of_ne hlt.ne]
      exact h.cleared j hmj hlt
    · rw [Function.update_self, if_pos hout]
  unset j hj := by
    rw [status_statusDetermined, Function.update_of_ne (Nat.ne_of_gt hj)]
    exact h.unset j (Nat.le_of_succ_le hj)
  faults := (faults_statusDetermined false hr).trans h.faults

/-- The next link stays unset otherwise. -/
theorem Progress.clear_inside (h : Progress a s₀ s m i) (hin : a.outside i = false) (pc : Pc) :
    Progress a s₀ { s with pc := pc } m (i + 1) where
  values := h.values
  determined := h.determined
  cleared j hmj hj := by
    rcases Nat.lt_succ_iff_lt_or_eq.1 hj with hlt | rfl
    · exact h.cleared j hmj hlt
    · rw [hin, if_neg Bool.false_ne_true]
      exact h.unset j le_rfl
  unset j hj := h.unset j (Nat.le_of_succ_le hj)
  faults := h.faults

theorem Inv.step (h : Inv a s₀ s) {act : Act} (hok : Undisturbed a s act)
    (hstep : step a s act = some s') : Inv a s₀ s' := by
  unfold Leave.step at hstep
  split at hstep
  case h_1 =>
    obtain ⟨hpc, ⟨⟩⟩ := Option.ite_none_right_eq_some.1 hstep
    unfold Inv at h
    rw [hpc] at h
    by_cases hended : s.hasEnded = true
    · simp [Inv, Respects, hended]
    · have hprogress : Progress a s₀ { s with pc := .determining 0 } 0 0 := { h with }
      simpa [Inv, hended] using hprogress
  case h_2 value r =>
    split at hstep
    case h_2 => cases hstep
    case h_1 i hpc =>
      obtain ⟨hi, ⟨⟩⟩ := Option.ite_none_right_eq_some.1 hstep
      unfold Inv at h
      rw [hpc] at h
      obtain ⟨-, hended, hprogress⟩ := h
      have hr : s.waiting i = true → r.ends = false ∧ r.faults = 0 := hok i hpc
      refine ⟨hi, ?_, hprogress.determine value (fun hw => (hr hw).2) _⟩
      exact (hasEnded_statusDetermined value fun hw => (hr hw).1).trans hended
  case h_3 =>
    split at hstep
    case h_2 => cases hstep
    case h_1 i hpc =>
      obtain ⟨hi, ⟨⟩⟩ := Option.ite_none_right_eq_some.1 hstep
      unfold Inv at h
      rw [hpc] at h
      obtain ⟨-, hended, hprogress⟩ := h
      exact ⟨i, hi, le_rfl, hended, { hprogress with }⟩
  case h_4 r =>
    split at hstep
    case h_2 => cases hstep
    case h_1 i hpc =>
      obtain ⟨hi, hclear⟩ := Option.ite_none_right_eq_some.1 hstep
      unfold Inv at h
      rw [hpc] at h
      obtain ⟨m, hm, hmi, hended, hprogress⟩ := h
      split at hclear
      case isTrue hout =>
        cases hclear
        have hr : s.waiting i = true → r.ends = false ∧ r.faults = 0 := hok i hpc hout
        refine ⟨m, hm, by omega, ?_,
          hprogress.clear_outside hmi hout (fun hw => (hr hw).2) _⟩
        exact (hasEnded_statusDetermined false fun hw => (hr hw).1).trans hended
      case isFalse hin =>
        cases hclear
        exact ⟨m, hm, by omega, hended, hprogress.clear_inside (Bool.eq_false_iff.2 hin) _⟩
  case h_5 =>
    obtain ⟨hpc, ⟨⟩⟩ := Option.ite_none_right_eq_some.1 hstep
    unfold Inv at h
    rw [hpc] at h
    obtain ⟨m, hm, -, hended, hprogress⟩ := h
    have hraises : s.caller.raises = true := hok
    refine ⟨m, hm, hprogress.values, hprogress.determined, hprogress.cleared, ?_⟩
    dsimp only
    rw [hraises, hended, hprogress.faults]
    rfl
  case h_6 =>
    obtain ⟨hpc, ⟨⟩⟩ := Option.ite_none_right_eq_some.1 hstep
    unfold Inv at h
    rw [hpc] at h
    obtain ⟨-, hended, hprogress⟩ := h
    have hproceeds : s.hasEnded = false ∧ s.faults = s₀.faults ∧
        s.values.length = a.sources.length ∧
        ∀ j < a.sources.length, s.status j = s.values[j]? :=
      ⟨hended, hprogress.faults, hprogress.values, hprogress.determined⟩
    cases htransition : a.hasTransition <;> simpa [Inv, Respects, htransition] using hproceeds

theorem Inv.respects (h : Inv a s₀ s) : Respects a s₀ s := by
  unfold Inv at h
  split at h
  case h_1 hpc => simp [Respects, hpc]
  case h_2 hpc => simp [Respects, hpc]
  case h_3 hpc => simp [Respects, hpc]
  case h_4 => exact h

end

/-- An activity in a scope, with a link in the scope and one out of it. -/
def inScope : Leaver where
  composites := [⟨1, true⟩, ⟨0, true⟩]
  enclosed := ⟨⟨1, true⟩, List.mem_cons_self, rfl⟩
  sources := [⟨[1, 0]⟩, ⟨[0]⟩]
  hasTransition := false

/-- The target of the first link waits for it: it ends the token. -/
def ended : List Act :=
  [.leave, .determined true ⟨true, 0, fun _ => false⟩,
    .determined true ⟨false, 0, fun _ => false⟩, .proceeds]

/-- The condition of the first link faults. -/
def faulted : List Act :=
  [.leave, .faulted, .cleared ⟨false, 0, fun _ => false⟩, .cleared ⟨false, 0, fun _ => false⟩,
    .raised]

/-- The call after the steps, where those that are not possible are left out. -/
def after (caller : Caller) (acts : List Act) : Call :=
  acts.foldl (fun s act => (step inScope s act).getD s)
    (start caller (fun _ => none) (fun i => i == 0) false 0)

end Bpel.Leave

end Jbpm
