/-
  Timers that take a transition.  A timer signals its token over the transition
  of its name, if the token's node has one and no exception is recorded in the
  timer.

  * `Calls.ofTimer`: what the execution of a timer calls, with the signals that
    reach a transition noted;
  * `Recorded`: attempts that fail, each recorded in the job;
  * `takesOffered_iff`: when an attempt whose action succeeds takes the transition
    that is offered.
-/
import Jbpm.Graph.LeavingTransitions
import Jbpm.Job.JobAttempt

namespace Jbpm

open Java Svc Jbpm.Graph

namespace Job

variable {ε W τ : Type}

/-- A state with the transitions that a timer has signalled. -/
structure Signalled (W τ : Type) where
  world : W
  signals : List τ

/-- The event, the action and all else that a timer runs leave the note of the
    signals alone. -/
def lift {α : Type} (m : Throws ε (Session W) α) : Throws ε (Session (Signalled W τ)) α := fun s =>
  let (r, s') := m ⟨s.objects.world, s.autoSaveProcessInstances, s.isRollbackOnly⟩
  (r, ⟨⟨s'.objects, s.objects.signals⟩, s'.autoSaveProcessInstances, s'.isRollbackOnly⟩)

/-- A timer at work: its graph element and its action, and the graph in which its
    token rests at a node, if it does. -/
structure Timer (ε W τ : Type) where
  graphElement : Option (GraphElement ε W)
  action : Option (Throws ε (Session W) Unit)
  nodes : Nodes τ
  node : W → Option ℕ
  /-- `Token.signal(Transition, ExecutionContext)` -/
  signalOver : τ → Throws ε (Session W) Unit
  unlockToken : Throws ε (Session W) Unit
  executeNode : Throws ε (Session W) Unit
  save : Throws ε (Session W) Unit
  newDuration : String → Except ε Duration
  nullPointer : ε
  jbpmException : String → ε

namespace Timer

variable (x : Timer ε W τ)

/-- The transition that the node of the token, or a super-state around it, has
    under a name. -/
def offered (transitionName : String) (w : W) : Option τ :=
  (x.node w).bind fun n => x.nodes.getLeavingTransition n (some transitionName)

/-- `token.getNode().hasLeavingTransition(transitionName)` -/
def hasLeavingTransition (transitionName : String) :
    Throws ε (Session (Signalled W τ)) Bool := fun s =>
  match x.node s.objects.world with
  | none => (.error x.nullPointer, s)
  | some n => (.ok (x.nodes.hasLeavingTransition n (some transitionName)), s)

/-- `Token.signal(String)` -/
def signal (transitionName : String) : Throws ε (Session (Signalled W τ)) Unit := fun s =>
  match x.node s.objects.world with
  | none =>
    (.error (x.jbpmException "token can't be signalled cause it is currently not positioned in a node"), s)
  | some n =>
    match x.nodes.getLeavingTransition n (some transitionName) with
    | none => (.error (x.jbpmException ("transition '" ++ transitionName ++ "' does not exist")), s)
    | some t =>
      lift (x.signalOver t) { s with objects := { s.objects with signals := s.objects.signals ++ [t] } }

def calls : Calls ε (Signalled W τ) where
  graphElement := x.graphElement.map fun g => ⟨lift g.fireAndPropagateEvent, fun e => lift (g.raiseException e)⟩
  action := x.action.map lift
  hasLeavingTransition := x.hasLeavingTransition
  signal := x.signal
  unlockToken := lift x.unlockToken
  executeNode := lift x.executeNode
  executeAction := pure ()
  save := lift x.save
  newDuration := x.newDuration

/-- The event of the timer, then its action; nothing is thrown. -/
def Succeeds (s s' : Session (Signalled W τ)) : Prop :=
  ∃ s₁, x.calls.fireTimerEvent s = (.ok (), s₁) ∧ (x.calls.action.getD (pure ())) s₁ = (.ok (), s')

end Timer

/-- The attempts all fail, and each is recorded in the job. -/
def Recorded {G : Type} : List (Attempt ε G) → Stored G → Prop
  | [], _ => True
  | a :: as, before =>
    (∃ e s, a.calls.execute a.now (a.acquired before).job (.opened before.graph) = (.error e, s) ∧
        (a.attempt before).job = (a.acquired before).job.fail (a.stackTrace e)) ∧
      Recorded as (a.attempt before)

section
variable {G : Type}

theorem Recorded.kind {as : List (Attempt ε G)} {before : Stored G} (h : Recorded as before) :
    (Attempt.attempts as before).job.kind = before.job.kind := by
  induction as generalizing before with
  | nil => rfl
  | cons a as ih =>
    obtain ⟨⟨e, s, -, hj⟩, h⟩ := h
    have hkind : (a.attempt before).job.kind = before.job.kind := by
      rw [hj]
      rfl
    exact (ih h).trans hkind

theorem Recorded.exception_ne {as : List (Attempt ε G)} {before : Stored G}
    (h : Recorded as before) (hbefore : before.job.exception ≠ none) :
    (Attempt.attempts as before).job.exception ≠ none := by
  induction as generalizing before with
  | nil => exact hbefore
  | cons a as ih =>
    obtain ⟨⟨e, s, -, hj⟩, h⟩ := h
    refine ih h ?_
    rw [hj]
    exact Option.some_ne_none _

/-- A recorded exception stays. -/
theorem Recorded.exception_iff {as : List (Attempt ε G)} {before : Stored G}
    (h : Recorded as before) (hbefore : before.job.exception = none) :
    (Attempt.attempts as before).job.exception = none ↔ as = [] := by
  cases as with
  | nil => exact iff_of_true hbefore rfl
  | cons a as =>
    obtain ⟨⟨e, s, -, hj⟩, h⟩ := h
    have hfail : (a.attempt before).job.exception ≠ none := by
      rw [hj]
      exact Option.some_ne_none _
    exact iff_of_false (h.exception_ne hfail) (List.cons_ne_nil a as)

end

/-! ## The transition -/

theorem lift_signals {α : Type} (m : Throws ε (Session W) α) (s : Session (Signalled W τ)) :
    (lift m s).2.objects.signals = s.objects.signals := rfl

namespace Timer

variable {x : Timer ε W τ} {s : Session (Signalled W τ)} {transitionName : String}

theorem signal_of_offered {t : τ} (h : x.offered transitionName s.objects.world = some t) :
    (x.signal transitionName s).2.objects.signals = s.objects.signals ++ [t] := by
  obtain ⟨n, hn, ht⟩ := Option.bind_eq_some_iff.1 h
  rw [signal, hn]
  dsimp only
  rw [ht]
  rfl

/-- The node of the token itself has a transition of a name. -/
def NodeHas (x : Timer ε W τ) (transitionName : String) (w : W) : Prop :=
  ∃ n, x.node w = some n ∧ x.nodes.hasLeavingTransition n (some transitionName) = true

/-- What the node has is offered, though not only that. -/
theorem offered_of_nodeHas {w : W} (h : x.NodeHas transitionName w) :
    (x.offered transitionName w).isSome = true := by
  obtain ⟨n, hn, hhas⟩ := h
  rw [offered, hn, Option.bind_some, Nodes.getLeavingTransition_isSome]
  exact ⟨n, .inl rfl, hhas⟩

theorem takeTransition_of_exception {e : String} :
    (x.calls.takeTransition (some transitionName) (some e) s).2 = s := rfl

theorem takeTransition_of_not_nodeHas (h : ¬ x.NodeHas transitionName s.objects.world) :
    (x.calls.takeTransition (some transitionName) none s).2 = s := by
  rw [Calls.takeTransition, Throws.bind_run]
  rcases hn : x.node s.objects.world with _ | n
  · simp only [calls, hasLeavingTransition, hn]
  · have hhas : x.nodes.hasLeavingTransition n (some transitionName) = false := by
      rw [← Bool.not_eq_true]
      exact fun hhas => h ⟨n, hn, hhas⟩
    simp only [calls, hasLeavingTransition, hn, hhas]
    rfl

theorem takeTransition_of_nodeHas (h : x.NodeHas transitionName s.objects.world) :
    x.calls.takeTransition (some transitionName) none s = x.signal transitionName s := by
  obtain ⟨n, hn, hhas⟩ := h
  rw [Calls.takeTransition, Throws.bind_run]
  simp only [calls, hasLeavingTransition, hn, hhas, if_true]

/-- The action of the timer is given no exception to handle. -/
theorem executeTimerAction_of_ok {s' : Session (Signalled W τ)}
    (h : (x.calls.action.getD (pure ())) s = (.ok (), s')) :
    x.calls.executeTimerAction s = (.ok (), s') := by
  rw [Calls.executeTimerAction]
  rcases ha : x.calls.action with _ | action
  · rw [ha] at h
    exact h
  · rw [ha, Option.getD_some] at h
    dsimp only
    rw [Throws.tryCatch_, h]

theorem nextDueDate_state {G : Type} (c : Calls ε G) (now : Nat) (repeat_ : String) (dueDate : Nat)
    (s : Session G) : (c.nextDueDate now repeat_ dueDate s).2 = s := by
  rw [Calls.nextDueDate]
  split
  · rw [Throws.bind_run, Throws.ofExcept_run]
    cases c.newDuration repeat_ <;> rfl
  · rfl

/-- What follows the transition signals nothing. -/
theorem executeTimer_signals {s' : Session (Signalled W τ)} (now : Nat) (repeat_ : Option String)
    (j : Job) (h : x.Succeeds s s') :
    (x.calls.executeTimer now repeat_ (some transitionName) j s).2.objects.signals =
      (x.calls.takeTransition (some transitionName) j.exception s').2.objects.signals := by
  obtain ⟨s₁, hevent, haction⟩ := h
  unfold Calls.executeTimer
  rw [Throws.bind_of_ok hevent, Throws.bind_of_ok (executeTimerAction_of_ok haction),
    Throws.bind_run]
  rcases x.calls.takeTransition (some transitionName) j.exception s' with ⟨_ | _, s₂⟩
  · rfl
  dsimp only
  rw [Throws.bind_run]
  have hsave : (x.calls.save s₂).2.objects.signals = s₂.objects.signals := lift_signals x.save s₂
  rcases hs : x.calls.save s₂ with ⟨_ | _, s₃⟩
  · rw [hs] at hsave
    exact hsave
  rw [hs] at hsave
  dsimp only
  rw [← hsave]
  cases repeat_ with
  | none => rfl
  | some r =>
    have hdate := nextDueDate_state x.calls now r j.dueDate s₃
    dsimp only
    rw [Throws.bind_run]
    rcases hd : x.calls.nextDueDate now r j.dueDate s₃ with ⟨_ | _, s₄⟩
    · rw [hd] at hdate
      exact congrArg (fun s => s.objects.signals) hdate
    · rw [hd] at hdate
      exact congrArg (fun s => s.objects.signals) hdate

/-- Exactly the transition that is offered in the session `s`, as the action left
    it, has been signalled. -/
def TakesOffered (x : Timer ε W τ) (transitionName : String) (s after : Session (Signalled W τ)) :
    Prop :=
  after.objects.signals = s.objects.signals ++ (x.offered transitionName s.objects.world).toList

theorem takesOffered_takeTransition (exception : Option String) :
    x.TakesOffered transitionName s
        (x.calls.takeTransition (some transitionName) exception s).2 ↔
      x.offered transitionName s.objects.world = none ∨
        exception = none ∧ x.NodeHas transitionName s.objects.world := by
  rw [TakesOffered]
  rcases ht : x.offered transitionName s.objects.world with _ | t
  · have hhas : ¬ x.NodeHas transitionName s.objects.world := fun h => by
      have hsome := offered_of_nodeHas h
      rw [ht] at hsome
      cases hsome
    refine iff_of_true ?_ (.inl rfl)
    rcases exception with _ | e
    · rw [takeTransition_of_not_nodeHas hhas, Option.toList_none, List.append_nil]
    · rw [takeTransition_of_exception, Option.toList_none, List.append_nil]
  · have hne : s.objects.signals ≠ s.objects.signals ++ [t] := by simp
    rcases exception with _ | e
    · by_cases hhas : x.NodeHas transitionName s.objects.world
      · refine iff_of_true ?_ (.inr ⟨rfl, hhas⟩)
        rw [takeTransition_of_nodeHas hhas, signal_of_offered ht, Option.toList_some]
      · rw [takeTransition_of_not_nodeHas hhas, Option.toList_some]
        exact iff_of_false hne (by simp [hhas])
    · rw [takeTransition_of_exception, Option.toList_some]
      exact iff_of_false hne (by simp)

/-- **Retried timers.**  After recorded failures an attempt whose action succeeds
    takes the transition offered exactly if none is offered, or it is the first
    attempt and the node itself has the transition. -/
theorem takesOffered_iff {as : List (Attempt ε (Signalled W τ))} {a : Attempt ε (Signalled W τ)}
    {before : Stored (Signalled W τ)} {name repeat_ : Option String}
    (hkind : before.job.kind = .timer name repeat_ (some transitionName))
    (hfresh : before.job.exception = none) (has : Recorded as before) (ha : a.calls = x.calls)
    (hs : x.Succeeds (.opened (Attempt.attempts as before).graph) s) :
    x.TakesOffered transitionName s
        (a.calls.execute a.now (a.acquired (Attempt.attempts as before)).job
          (.opened (Attempt.attempts as before).graph)).2 ↔
      x.offered transitionName s.objects.world = none ∨
        as = [] ∧ x.NodeHas transitionName s.objects.world := by
  have hkind' : (a.acquired (Attempt.attempts as before)).job.kind =
      .timer name repeat_ (some transitionName) := has.kind.trans hkind
  rw [← has.exception_iff hfresh, ← takesOffered_takeTransition, TakesOffered, TakesOffered,
    Calls.execute, hkind', ha]
  dsimp only
  rw [executeTimer_signals a.now repeat_ _ hs]
  rfl

/-- A timer for a token at the node of a state, in a graph in which the nodes of
    `having` have a transition `timeout`. -/
def sample (having : List ℕ) (action : Throws String (Session ℕ) Unit) : Timer String ℕ String where
  graphElement := none
  action := some action
  nodes := ⟨oneNested, fun n => if n ∈ having then some ["timeout"] else none, some⟩
  node := some
  signalOver _ := pure ()
  unlockToken := pure ()
  executeNode := pure ()
  save := pure ()
  newDuration := .error
  nullPointer := "null"
  jbpmException e := e

def sampleAttempt (x : Timer String ℕ String) : Attempt String (Signalled ℕ String) where
  services := ⟨[], fun _ _ => .ok (), .ok (), .ok ()⟩
  calls := x.calls
  deleteJob g := g
  stackTrace e := e
  nullPointer := "null"
  lockOwner := "executor"
  lockTime := 0
  now := 0
  finished := 0
  maxLockTime := 0

/-- The timer of a token at the node 1. -/
def sampleStored : Stored (Signalled ℕ String) :=
  ⟨⟨1, []⟩, created 1 (.timer none none (some "timeout")) 0 none none false⟩

theorem takesOffered_sample :
    let x := sample [1] (pure ())
    let failing := sampleAttempt (sample [1] (Throws.throw_ "action"))
    let after := Attempt.attempts [failing] sampleStored
    x.TakesOffered "timeout" (.opened after.graph)
        (x.calls.execute 0 ((sampleAttempt x).acquired after).job (.opened after.graph)).2 ↔
      x.offered "timeout" 1 = none ∨
        [failing] = [] ∧ x.NodeHas "timeout" 1 :=
  takesOffered_iff (a := sampleAttempt (sample [1] (pure ())))
    rfl rfl ⟨⟨"action", _, rfl, rfl⟩, trivial⟩ rfl ⟨_, rfl, rfl⟩

/-- The transition is lost after a failure, and at once if it is a super-state's. -/
theorem transition_lost :
    (let x := sample [1] (pure ())
      let failing := sampleAttempt (sample [1] (Throws.throw_ "action"))
      let after := Attempt.attempts [failing] sampleStored
      let executed := x.calls.execute 0 ((sampleAttempt x).acquired after).job (.opened after.graph)
      executed.1.isOk = true ∧ x.offered "timeout" after.graph.world = some "timeout" ∧
        executed.2.objects.signals = []) ∧
      (let x := sample [0] (pure ())
        let executed := x.calls.execute 0 ((sampleAttempt x).acquired sampleStored).job
          (.opened sampleStored.graph)
        executed.1.isOk = true ∧ x.offered "timeout" sampleStored.graph.world = some "timeout" ∧
          executed.2.objects.signals = []) := by
  decide

end Timer

end Job

end Jbpm
