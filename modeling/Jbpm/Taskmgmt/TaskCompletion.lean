/-
  The completion of a task instance, step by step, as far as it gets before one of the
  steps throws.

  * `endTask`: `TaskInstance.end`, up to and with the signal that it gives the token;
  * `endTask_spec`: what it comes to;
  * `untouched_iff`: when a failed completion leaves the task instance as it was.

  What throws in listeners, handlers and the transition that is taken is given by an
  `Environment`; they do not touch the task instances themselves.
-/
import Mathlib.Data.List.Basic
import Mathlib.Tactic.ByContra
import Jbpm.Java.Throws
import Jbpm.Taskmgmt.TaskNode

namespace Jbpm

open Java

namespace TaskCompletion

structure VariableAccess where
  variableName : String
  mappedName : String
  isRequired : Bool
  isWritable : Bool

/-- A task controller has a handler, which throws for some task instances, or variable
    accesses. -/
inductive TaskController where
  | handler (throws : ℕ → Bool)
  | accesses (variableAccesses : List VariableAccess)

/-- A task instance on a token, with its variables. -/
structure Instance (A K V : Type) extends TaskInstance where
  id : ℕ
  task : Option A
  token : Option K
  isBlocking : Bool
  variableInstances : List (String × V)

structure Token (N : Type) where
  node : Option N
  isSuspended : Bool
  isLocked : Bool

/-- Ghost state: how many times a signal has made the token leave its node. -/
structure State (A K N V : Type) where
  instances : List (Instance A K V)
  token : K → Token N
  signals : K → ℕ

/-- The process definition, and what the code outside of it does: `getVariable` is what a task
    instance finds under a name, in its own variables or in those of the process; `destination`
    is where the transition brings the token. -/
structure Environment (A N T V : Type) where
  isStart : A → Bool
  taskNode : A → Option N
  taskController : A → Option TaskController
  node : N → Option (TaskNode A)
  defaultLeavingTransition : N → Option T
  leavingTransition : A → String → Option T
  taskEndThrows : ℕ → Bool
  getVariable : ℕ → String → Option V
  setVariableThrows : String → V → Bool
  beforeSignalThrows : N → Bool
  nodeLeaveThrows : N → Bool
  destination : T → Option N
  takeThrows : T → Bool
  afterSignalThrows : N → Bool

inductive Exn where
  /-- `task instance .. is already ended` -/
  | alreadyEnded
  /-- `task instance .. is suspended` -/
  | suspended
  /-- `task node does not have leaving transition ..` -/
  | noLeavingTransition
  /-- `missing task variables: ..` -/
  | missing (names : List String)
  /-- `token .. can't be signalled cause it is currently not positioned in a node` -/
  | noNode
  /-- `couldn't signal token .. : node .. doesn't have a default transition` -/
  | noDefaultTransition
  /-- `can't signal token ..: it is suspended` -/
  | tokenSuspended
  /-- `this token is locked by ..` -/
  | tokenLocked
  /-- `task-node .. still has blocking tasks` -/
  | blockingTasks
  /-- `NullPointerException` -/
  | nullPointer
  /-- what was called has thrown -/
  | callback
  deriving DecidableEq

/-- The argument of `end`. -/
inductive Leaving (T : Type) where
  | default
  | transition (transition : T)
  | name (transitionName : String)

variable {A K N T V : Type} (E : Environment A N T V)

def throwIf (b : Bool) (e : Exn) : Except Exn Unit := if b then .error e else .ok ()

/-! ## The task instance -/

namespace Instance

def hasVariableLocally (i : Instance A K V) (name : String) : Bool :=
  i.variableInstances.any (·.1 == name)

/-- `VariableContainer.setVariable` of the process, for one variable after the other. -/
def setVariables : List (String × V) → Except Exn Unit
  | [] => .ok ()
  | (name, value) :: rest => do
    throwIf (E.setVariableThrows name value) .callback
    setVariables rest

/-- The required variables that are missing. -/
def missing (i : Instance A K V) (variableAccesses : List VariableAccess) : List String :=
  (variableAccesses.filter fun a => a.isRequired && !i.hasVariableLocally a.mappedName).map
    (·.mappedName)

/-- The variables that are written. -/
def written (i : Instance A K V) (variableAccesses : List VariableAccess) : List (String × V) :=
  (variableAccesses.filter (·.isWritable)).filterMap fun a =>
    (E.getVariable i.id a.mappedName).map (a.variableName, ·)

/-- `TaskController.submitParameters` -/
def submitParameters (i : Instance A K V) : TaskController → Except Exn Unit
  | .handler throws => throwIf (throws i.id) .callback
  | .accesses variableAccesses => do
    throwIf i.token.isNone .nullPointer
    throwIf (!(i.missing variableAccesses).isEmpty) (.missing (i.missing variableAccesses))
    setVariables E (i.written E variableAccesses)

def submitVariables (i : Instance A K V) : Except Exn Unit :=
  match i.task.bind E.taskController with
  | some taskController => i.submitParameters E taskController
  | none => if i.token.isSome then setVariables E i.variableInstances else .ok ()

/-- The first part of `end(transition)`, which is all of it for a task instance that does not
    signal. -/
def complete (i : Instance A K V) : Except Exn Unit × Instance A K V :=
  if i.end_ then (.error .alreadyEnded, i)
  else if i.isSuspended then (.error .suspended, i)
  else
    let i := { i with toTaskInstance := i.toTaskInstance.markAsEnded }
    (do
      throwIf (i.task.isSome && i.token.isSome && E.taskEndThrows i.id) .callback
      i.submitVariables E, i)

end Instance

/-! ## The token -/

section Leave

variable [DecidableEq K] [DecidableEq A]

def hasBlockingTaskInstances (t : K) (is : List (Instance A K V)) : Bool :=
  is.any fun i => !i.end_ && i.isBlocking && decide (i.token = some t)

/-- The body of the loop of `removeTaskInstanceSynchronization`; a task instance that is ended here
    does not signal any more. -/
def removeSynchronization (M : TaskNode A) (t : K) (i : Instance A K V) :
    Except Exn Unit × Instance A K V :=
  if i.token = some t then
    let i := { i with toTaskInstance := i.toTaskInstance.stopSignalling, isBlocking := false }
    if !i.end_ && M.endTasks then
      match M.tasks with
      | none => (.error .nullPointer, i)
      | some tasks => if TaskNode.contains tasks i.task then i.complete E else (.ok (), i)
    else (.ok (), i)
  else (.ok (), i)

def removeTaskInstanceSynchronization (M : TaskNode A) (t : K) :
    List (Instance A K V) → Except Exn Unit × List (Instance A K V)
  | [] => (.ok (), [])
  | i :: is =>
    match removeSynchronization E M t i with
    | (.error e, i) => (.error e, i :: is)
    | (.ok (), i) =>
      let r := removeTaskInstanceSynchronization M t is
      (r.1, i :: r.2)

/-- `Node.leave`, with the transition that is taken. -/
def leaveNode (t : K) (node : N) (transition : T) : Throws Exn (State A K N V) Unit := do
  Throws.ofExcept (throwIf (E.nodeLeaveThrows node) .callback)
  Throws.modify_ fun s => { s with
    token := Function.update s.token t { s.token t with node := E.destination transition }
    signals := Function.update s.signals t (s.signals t + 1) }
  Throws.ofExcept (throwIf (E.takeThrows transition) .callback)

/-- `TaskNode.leave`, or that of another node. -/
def leave (t : K) (node : N) (transition : T) : Throws Exn (State A K N V) Unit := fun s =>
  match E.node node with
  | none => leaveNode E t node transition s
  | some M =>
    if hasBlockingTaskInstances t s.instances then (.error .blockingTasks, s)
    else
      match removeTaskInstanceSynchronization E M t s.instances with
      | (.error e, is) => (.error e, { s with instances := is })
      | (.ok (), is) => leaveNode E t node transition { s with instances := is }

/-- `signal(transition)` -/
def signalTransition (t : K) (transition : T) : Throws Exn (State A K N V) Unit := fun s =>
  if (s.token t).isSuspended then (.error .tokenSuspended, s)
  else if (s.token t).isLocked then (.error .tokenLocked, s)
  else
    match (s.token t).node with
    | none => (.error .nullPointer, s)
    | some node => (do
        Throws.ofExcept (throwIf (E.beforeSignalThrows node) .callback)
        leave E t node transition
        Throws.ofExcept (throwIf (E.afterSignalThrows node) .callback)) s

/-- `signal()` -/
def signal (t : K) : Throws Exn (State A K N V) Unit := fun s =>
  match (s.token t).node with
  | none => (.error .noNode, s)
  | some node =>
    match E.defaultLeavingTransition node with
    | none => (.error .noDefaultTransition, s)
    | some transition => signalTransition E t transition s

/-- The choice between the two at the end of a task. -/
def signalOver (t : K) : Option T → Throws Exn (State A K N V) Unit
  | none => signal E t
  | some transition => signalTransition E t transition

/-- `isLastToComplete`, of the other task instances. -/
def isLastToComplete (t : K) (others : List (Instance A K V)) : Bool :=
  others.all fun other => !(decide (other.token = some t) && other.isSignalling && !other.end_)

def completionTriggersSignal (M : TaskNode A) (t : K) (others : List (Instance A K V)) : Bool :=
  match M.signal with
  | .first | .firstWait => true
  | .last | .lastWait => isLastToComplete t others
  | .unsynchronized | .never => false

/-- The condition of `end` for a signal. -/
def triggersSignal (i : Instance A K V) (others : List (Instance A K V)) : Bool :=
  match i.task with
  | none => false
  | some a =>
    E.isStart a ||
      match i.token, (E.taskNode a).bind E.node with
      | some t, some M => completionTriggersSignal M t others
      | _, _ => false

/-- `end(transition)` of the task instance number `n`. -/
def endTransition (n : ℕ) (i : Instance A K V) (transition : Option T) :
    Throws Exn (State A K N V) Unit := fun s =>
  match i.complete E with
  | (.error e, ended) => (.error e, { s with instances := s.instances.set n ended })
  | (.ok (), ended) =>
    if ended.isSignalling then
      let ended := { ended with toTaskInstance := ended.toTaskInstance.stopSignalling }
      let s := { s with instances := s.instances.set n ended }
      if triggersSignal E i (s.instances.eraseIdx n) then
        match ended.token with
        | none => (.error .nullPointer, s)
        | some t => signalOver E t transition s
      else (.ok (), s)
    else (.ok (), { s with instances := s.instances.set n ended })

/-- `end()`, `end(transition)` and `end(transitionName)` -/
def endTask (n : ℕ) (i : Instance A K V) : Leaving T → Throws Exn (State A K N V) Unit
  | .default => endTransition E n i none
  | .transition transition => endTransition E n i (some transition)
  | .name transitionName =>
    match i.task.bind fun a => E.leavingTransition a transitionName with
    | none => Throws.throw_ .noLeavingTransition
    | some transition => endTransition E n i (some transition)

/-! ## What throws -/

/-- The call is refused before anything is changed. -/
def Refused (i : Instance A K V) (leaving : Leaving T) : Prop :=
  i.end_ = true ∨ i.isSuspended = true ∨ ∃ name, leaving = .name name ∧
    (i.task.bind fun a => E.leavingTransition a name) = none

def submitFails (i : Instance A K V) : Bool :=
  match i.task.bind E.taskController with
  | some (.handler throws) => throws i.id
  | some (.accesses variableAccesses) =>
    i.token.isNone || !(i.missing variableAccesses).isEmpty ||
      (i.written E variableAccesses).any fun v => E.setVariableThrows v.1 v.2
  | none => i.token.isSome && i.variableInstances.any fun v => E.setVariableThrows v.1 v.2

/-- The listeners of the end of the task, or the submission of the variables. -/
def completionFails (i : Instance A K V) : Bool :=
  i.task.isSome && i.token.isSome && E.taskEndThrows i.id || submitFails E i

/-- Another task instance of the token cannot be ended when it leaves. -/
def endingFails (M : TaskNode A) (t : K) (i : Instance A K V) : Bool :=
  decide (i.token = some t) && !i.end_ && M.endTasks &&
    match M.tasks with
    | none => true
    | some tasks => TaskNode.contains tasks i.task && (i.isSuspended || completionFails E i)

def leaveFails (t : K) (node : N) (others : List (Instance A K V)) : Bool :=
  (match E.node node with
    | none => false
    | some M => hasBlockingTaskInstances t others || others.any (endingFails E M t)) ||
    E.nodeLeaveThrows node

/-- The signal for the token does not come to an end. -/
def signalFails (t : K) (transition : Option T) (token : Token N) (others : List (Instance A K V)) :
    Bool :=
  match token.node with
  | none => true
  | some node =>
    match transition.or (E.defaultLeavingTransition node) with
    | none => true
    | some transition =>
      token.isSuspended || token.isLocked || E.beforeSignalThrows node ||
        leaveFails E t node others || E.takeThrows transition || E.afterSignalThrows node

/-- The completion leads to a signal. -/
def due (n : ℕ) (i : Instance A K V) (s : State A K N V) : Bool :=
  i.isSignalling && triggersSignal E i (s.instances.eraseIdx n)

/-- One of the steps after the refusals throws. -/
def fails (n : ℕ) (i : Instance A K V) (transition : Option T) (s : State A K N V) : Bool :=
  completionFails E i || due E n i s &&
    match i.token with
    | none => true
    | some t => signalFails E t transition (s.token t) (s.instances.eraseIdx n)

end Leave

/-! ## Completing -/

section Completing

variable {E} {i : Instance A K V}

theorem throwIf_eq_ok {b : Bool} {e : Exn} : throwIf b e = .ok () ↔ b = false := by
  cases b <;> simp [throwIf]

theorem bind_eq_ok {x : Except Exn Unit} {y : Except Exn Unit} :
    (x >>= fun _ => y) = .ok () ↔ x = .ok () ∧ y = .ok () := by
  cases x with
  | error e => simp [Except.bind, bind]
  | ok u => simp [Except.bind, bind]

theorem setVariables_eq_ok (vs : List (String × V)) : Instance.setVariables E vs = .ok () ↔
    vs.any (fun v => E.setVariableThrows v.1 v.2) = false := by
  induction vs with
  | nil => simp [Instance.setVariables]
  | cons v vs ih =>
    rw [Instance.setVariables, bind_eq_ok, throwIf_eq_ok, ih, List.any_cons, Bool.or_eq_false_iff]

theorem submitVariables_eq_ok : i.submitVariables E = .ok () ↔ submitFails E i = false := by
  rw [Instance.submitVariables, submitFails]
  rcases i.task.bind E.taskController with _ | throws | accesses
  · cases i.token.isSome with
    | false => simp
    | true => simpa using setVariables_eq_ok i.variableInstances
  · exact throwIf_eq_ok
  · dsimp only [Instance.submitParameters]
    rw [bind_eq_ok, bind_eq_ok, throwIf_eq_ok, throwIf_eq_ok, setVariables_eq_ok,
      Bool.or_eq_false_iff, Bool.or_eq_false_iff, and_assoc]

theorem complete_of_refused (h : i.end_ = true ∨ i.isSuspended = true) :
    ∃ e, i.complete E = (.error e, i) := by
  rw [Instance.complete]
  by_cases he : i.end_ = true
  · exact ⟨_, if_pos he⟩
  · exact ⟨_, (if_neg he).trans (if_pos (h.resolve_left he))⟩

/-- A task instance that is neither ended nor suspended is marked first. -/
theorem complete_spec (he : i.end_ = false) (hs : i.isSuspended = false) :
    (i.complete E).2 = { i with toTaskInstance := i.toTaskInstance.markAsEnded } ∧
      ((i.complete E).1 = .ok () ↔ completionFails E i = false) := by
  rw [Instance.complete, he, hs]
  refine ⟨rfl, ?_⟩
  change (do
    throwIf (i.task.isSome && i.token.isSome && E.taskEndThrows i.id) .callback
    i.submitVariables E : Except Exn Unit) = .ok () ↔ _
  rw [bind_eq_ok, throwIf_eq_ok, submitVariables_eq_ok, completionFails, Bool.or_eq_false_iff]

theorem complete_eq_ok (he : i.end_ = false) :
    (i.complete E).1 = .ok () ↔ (i.isSuspended || completionFails E i) = false := by
  cases hs : i.isSuspended with
  | true =>
    obtain ⟨e, hrun⟩ := complete_of_refused (E := E) (.inr hs)
    simp [hrun]
  | false => rw [(complete_spec he hs).2, Bool.false_or]

end Completing

/-! ## Leaving -/

def Instance.Ended (i : Instance A K V) : Prop := i.end_ = true ∧ i.isOpen = false

section Leaving

variable [DecidableEq K] [DecidableEq A] {E} {i : Instance A K V} {is : List (Instance A K V)}
  {M : TaskNode A} {s : State A K N V} {t : K} {n : ℕ}

theorem endingFails_of_ended (h : i.end_ = true) : endingFails E M t i = false := by
  simp [endingFails, h]

theorem removeSynchronization_eq_ok :
    (removeSynchronization E M t i).1 = .ok () ↔ endingFails E M t i = false := by
  rw [removeSynchronization, endingFails]
  by_cases ht : i.token = some t
  · rw [if_pos ht]
    cases hend : i.end_ with
    | true => simp [TaskInstance.stopSignalling, hend]
    | false =>
      cases M.endTasks with
      | false => simp [TaskInstance.stopSignalling, hend]
      | true =>
        rcases M.tasks with _ | tasks
        · simp [TaskInstance.stopSignalling, hend, ht]
        · cases hc : TaskNode.contains tasks i.task with
          | false => simp [TaskInstance.stopSignalling, hend, hc]
          | true =>
            have hcomplete : (Instance.complete E { i with
                toTaskInstance := i.toTaskInstance.stopSignalling, isBlocking := false }).1 =
                .ok () ↔ (i.isSuspended || completionFails E i) = false := complete_eq_ok hend
            simpa [TaskInstance.stopSignalling, hend, ht, hc] using hcomplete
  · rw [if_neg ht]
    simp [ht]

/-- A task instance that has ended stays so. -/
theorem removeSynchronization_ended (h : i.Ended) : (removeSynchronization E M t i).2.Ended := by
  rw [removeSynchronization]
  split
  · obtain ⟨hend, hopen⟩ := h
    simp [Instance.Ended, TaskInstance.stopSignalling, hend, hopen]
  · exact h

theorem removeTaskInstanceSynchronization_cons (i : Instance A K V) (is : List (Instance A K V)) :
    removeTaskInstanceSynchronization E M t (i :: is) =
      match removeSynchronization E M t i with
      | (.error e, i) => (.error e, i :: is)
      | (.ok (), i) =>
        ((removeTaskInstanceSynchronization E M t is).1,
          i :: (removeTaskInstanceSynchronization E M t is).2) := by
  rw [removeTaskInstanceSynchronization]

theorem removeTaskInstanceSynchronization_eq_ok :
    (removeTaskInstanceSynchronization E M t is).1 = .ok () ↔
      is.any (endingFails E M t) = false := by
  induction is with
  | nil => simp [removeTaskInstanceSynchronization]
  | cons i is ih =>
    have hone := removeSynchronization_eq_ok (E := E) (M := M) (t := t) (i := i)
    rw [removeTaskInstanceSynchronization_cons, List.any_cons, Bool.or_eq_false_iff, ← hone, ← ih]
    rcases removeSynchronization E M t i with ⟨e | u, j⟩ <;> simp

theorem removeTaskInstanceSynchronization_ended (h : ∃ j, is[n]? = some j ∧ j.Ended) :
    ∃ j, (removeTaskInstanceSynchronization E M t is).2[n]? = some j ∧ j.Ended := by
  induction is generalizing n with
  | nil => simp at h
  | cons i is ih =>
    rw [removeTaskInstanceSynchronization_cons]
    have hone := removeSynchronization_ended (E := E) (M := M) (t := t) (i := i)
    cases n with
    | zero =>
      obtain ⟨j, hj, hended⟩ := h
      obtain rfl : i = j := Option.some.inj hj
      rcases hrun : removeSynchronization E M t i with ⟨e | u, j⟩
      · exact ⟨j, rfl, by simpa [hrun] using hone hended⟩
      · exact ⟨j, rfl, by simpa [hrun] using hone hended⟩
    | succ n =>
      rcases removeSynchronization E M t i with ⟨e | u, j⟩
      · exact h
      · exact ih h

/-- One element that does not count. -/
theorem any_eraseIdx {α : Type} {l : List α} {n : ℕ} {a : α} {p : α → Bool} (hn : l[n]? = some a)
    (ha : p a = false) : (l.eraseIdx n).any p = l.any p := by
  induction l generalizing n with
  | nil => simp at hn
  | cons b l ih =>
    cases n with
    | zero =>
      obtain rfl : b = a := Option.some.inj hn
      simp [ha]
    | succ n =>
      have hrest : (l.eraseIdx n).any p = l.any p := ih hn
      simp [hrest]

/-- The task instance number `n` has ended. -/
def State.Ended (s : State A K N V) (n : ℕ) : Prop := ∃ i, s.instances[n]? = some i ∧ i.Ended

omit [DecidableEq A] in
theorem leaveNode_spec (t : K) (node : N) (transition : T) (s : State A K N V) :
    ((leaveNode E t node transition s).1 = .ok () ↔
      (E.nodeLeaveThrows node || E.takeThrows transition) = false) ∧
    (leaveNode E t node transition s).2.instances = s.instances ∧
    ((leaveNode E t node transition s).1 = .ok () →
      (leaveNode E t node transition s).2.signals =
        Function.update s.signals t (s.signals t + 1)) := by
  cases h : E.nodeLeaveThrows node with
  | true =>
    have hrun : leaveNode E t node transition s = (.error .callback, s) := by
      rw [leaveNode, h]
      rfl
    simp [hrun]
  | false =>
    have hrun : leaveNode E t node transition s =
        (throwIf (E.takeThrows transition) .callback, { s with
          token := Function.update s.token t { s.token t with node := E.destination transition }
          signals := Function.update s.signals t (s.signals t + 1) }) := by
      rw [leaveNode, h]
      rfl
    simp [hrun, throwIf_eq_ok]

theorem leave_spec (node : N) (transition : T) (h : s.Ended n) :
    ((leave E t node transition s).1 = .ok () ↔
      (leaveFails E t node (s.instances.eraseIdx n) || E.takeThrows transition) = false) ∧
    (leave E t node transition s).2.Ended n ∧
    ((leave E t node transition s).1 = .ok () →
      (leave E t node transition s).2.signals =
        Function.update s.signals t (s.signals t + 1)) := by
  obtain ⟨i, hi, hended⟩ := h
  rw [leave, leaveFails]
  rcases E.node node with _ | M
  · obtain ⟨hok, hinstances, hsignals⟩ := leaveNode_spec (E := E) t node transition s
    exact ⟨hok, ⟨i, hinstances ▸ hi, hended⟩, hsignals⟩
  · have hblocking : hasBlockingTaskInstances t (s.instances.eraseIdx n) =
        hasBlockingTaskInstances t s.instances := any_eraseIdx hi (by simp [hended.1])
    have hending : (s.instances.eraseIdx n).any (endingFails E M t) =
        s.instances.any (endingFails E M t) := any_eraseIdx hi (endingFails_of_ended hended.1)
    dsimp only
    rw [hblocking, hending]
    cases hb : hasBlockingTaskInstances t s.instances with
    | true => simpa using ⟨i, hi, hended⟩
    | false =>
      have hok : (removeTaskInstanceSynchronization E M t s.instances).1 = .ok () ↔
          s.instances.any (endingFails E M t) = false := removeTaskInstanceSynchronization_eq_ok
      have hrest := removeTaskInstanceSynchronization_ended (E := E) (M := M) (t := t)
        ⟨i, hi, hended⟩
      rcases hrun : removeTaskInstanceSynchronization E M t s.instances with ⟨e | u, is⟩
      · rw [hrun] at hok hrest
        have hfails : s.instances.any (endingFails E M t) = true := by
          rw [← Bool.not_eq_false, ← hok]
          nofun
        simp [hfails, State.Ended, hrest]
      · rw [hrun] at hok hrest
        obtain ⟨hok', hinstances, hsignals⟩ :=
          leaveNode_spec (E := E) t node transition { s with instances := is }
        rw [hok.1 rfl]
        refine ⟨hok', ?_, hsignals⟩
        rw [State.Ended, if_neg Bool.false_ne_true]
        obtain ⟨j, hj, hj'⟩ := hrest
        exact ⟨j, hinstances ▸ hj, hj'⟩

omit [DecidableEq K] [DecidableEq A] in
theorem throwIf_bind {m : Unit → Throws Exn (State A K N V) Unit} (b : Bool) (e : Exn)
    (s : State A K N V) : (Throws.ofExcept (throwIf b e) >>= m) s =
      if b then (.error e, s) else m () s := by
  cases b <;> rfl

/-- The events around leaving. -/
theorem signalNode_spec (node : N) (transition : T) (h : s.Ended n)
    {r : Except Exn Unit × State A K N V}
    (hr : (do
      Throws.ofExcept (throwIf (E.beforeSignalThrows node) .callback)
      leave E t node transition
      Throws.ofExcept (throwIf (E.afterSignalThrows node) .callback)) s = r) :
    (r.1 = .ok () ↔ (E.beforeSignalThrows node || leaveFails E t node (s.instances.eraseIdx n) ||
      E.takeThrows transition || E.afterSignalThrows node) = false) ∧
    r.2.Ended n ∧
    (r.1 = .ok () → r.2.signals = Function.update s.signals t (s.signals t + 1)) := by
  subst hr
  obtain ⟨hok, hended, hsignals⟩ := leave_spec (E := E) (t := t) node transition h
  rw [throwIf_bind]
  cases E.beforeSignalThrows node with
  | true => simp [h]
  | false =>
    rw [if_neg Bool.false_ne_true, Bool.false_or]
    rcases hrun : leave E t node transition s with ⟨e | u, s'⟩
    · rw [Throws.bind_of_error hrun]
      rw [hrun] at hok hended
      have hfails : (leaveFails E t node (s.instances.eraseIdx n) || E.takeThrows transition) =
          true := by
        rw [← Bool.not_eq_false, ← hok]
        nofun
      simp [hfails, hended]
    · rw [Throws.bind_of_ok hrun, Throws.ofExcept_run]
      rw [hrun] at hok hended hsignals
      rw [hok.1 rfl, Bool.false_or]
      exact ⟨throwIf_eq_ok, hended, fun _ => hsignals rfl⟩

/-- What a signal does to a token that is neither suspended nor locked, and is in a node. -/
theorem signalTransition_spec (transition : T) (h : s.Ended n) :
    ((signalTransition E t transition s).1 = .ok () ↔
      (match (s.token t).node with
        | none => true
        | some node => (s.token t).isSuspended || (s.token t).isLocked ||
          E.beforeSignalThrows node || leaveFails E t node (s.instances.eraseIdx n) ||
          E.takeThrows transition || E.afterSignalThrows node) = false) ∧
    (signalTransition E t transition s).2.Ended n ∧
    ((signalTransition E t transition s).1 = .ok () →
      (signalTransition E t transition s).2.signals =
        Function.update s.signals t (s.signals t + 1)) := by
  rw [signalTransition]
  cases (s.token t).isSuspended with
  | true => cases (s.token t).node <;> simp [h]
  | false =>
    cases (s.token t).isLocked with
    | true => cases (s.token t).node <;> simp [h]
    | false =>
      rcases (s.token t).node with _ | node
      · simp [h]
      · simp only [Bool.false_eq_true, if_false, Bool.false_or]
        exact signalNode_spec node transition h rfl

theorem signalOver_spec (transition : Option T) (h : s.Ended n) :
    ((signalOver E t transition s).1 = .ok () ↔
      signalFails E t transition (s.token t) (s.instances.eraseIdx n) = false) ∧
    (signalOver E t transition s).2.Ended n ∧
    ((signalOver E t transition s).1 = .ok () →
      (signalOver E t transition s).2.signals = Function.update s.signals t (s.signals t + 1)) := by
  rw [signalFails]
  rcases transition with _ | transition
  · rw [signalOver, signal]
    rcases hnode : (s.token t).node with _ | node
    · simp [h]
    · rcases hdefault : E.defaultLeavingTransition node with _ | transition
      · simp [hdefault, h]
      · simpa [hnode, hdefault] using signalTransition_spec (E := E) (t := t) transition h
  · rw [signalOver]
    rcases hnode : (s.token t).node with _ | node
    · simpa [hnode] using signalTransition_spec (E := E) (t := t) transition h
    · simpa [hnode] using signalTransition_spec (E := E) (t := t) transition h

/-! ## The end -/

theorem endTransition_of_refused (transition : Option T) (hi : s.instances[n]? = some i)
    (h : i.end_ = true ∨ i.isSuspended = true) :
    ∃ e, endTransition E n i transition s = (.error e, s) := by
  obtain ⟨e, hrun⟩ := complete_of_refused (E := E) h
  refine ⟨e, ?_⟩
  have hset : s.instances.set n i = s.instances := by
    obtain ⟨hn, rfl⟩ := List.getElem?_eq_some_iff.1 hi
    exact List.set_getElem_self hn
  rw [endTransition, hrun]
  simp [hset]

/-- Once the task instance is completed. -/
def State.completed (s : State A K N V) (n : ℕ) (i : Instance A K V) : State A K N V :=
  let ended := { i with toTaskInstance := i.toTaskInstance.markAsEnded.stopSignalling }
  { s with instances := s.instances.set n ended }

omit [DecidableEq K] [DecidableEq A] in
theorem completed_ended (hi : s.instances[n]? = some i) : (s.completed n i).Ended n := by
  obtain ⟨hn, -⟩ := List.getElem?_eq_some_iff.1 hi
  exact ⟨_, List.getElem?_set_self hn, rfl, rfl⟩

theorem endTransition_of_ok (transition : Option T) (he : i.end_ = false)
    (hs : i.isSuspended = false) (hok : completionFails E i = false) :
    endTransition E n i transition s =
      if due E n i s then
        match i.token with
        | none => (.error .nullPointer, s.completed n i)
        | some t => signalOver E t transition (s.completed n i)
      else (.ok (), s.completed n i) := by
  obtain ⟨hmarked, hrun⟩ := complete_spec (E := E) he hs
  have hcomplete : i.complete E =
      (.ok (), { i with toTaskInstance := i.toTaskInstance.markAsEnded }) :=
    Prod.ext (hrun.2 hok) hmarked
  rw [endTransition, hcomplete, due]
  cases hsignalling : i.isSignalling with
  | false =>
    have hsame : i.toTaskInstance.markAsEnded.stopSignalling = i.toTaskInstance.markAsEnded := by
      simp [TaskInstance.markAsEnded, TaskInstance.stopSignalling, hsignalling]
    rw [State.completed, hsame]
    simp [TaskInstance.markAsEnded, hsignalling]
  | true =>
    simp only [TaskInstance.markAsEnded, hsignalling, if_true, Bool.true_and,
      List.eraseIdx_set_eq]
    rfl

/-- Past the refusals, the task instance has ended, whatever fails. -/
theorem endTransition_spec (transition : Option T) (hi : s.instances[n]? = some i)
    (he : i.end_ = false) (hs : i.isSuspended = false) :
    ((endTransition E n i transition s).1 = .ok () ↔ fails E n i transition s = false) ∧
    (endTransition E n i transition s).2.Ended n ∧
    ((endTransition E n i transition s).1 = .ok () → ∀ t,
      (endTransition E n i transition s).2.signals t =
        s.signals t + if due E n i s = true ∧ i.token = some t then 1 else 0) := by
  obtain ⟨hn, -⟩ := List.getElem?_eq_some_iff.1 hi
  obtain ⟨hmarked, hok⟩ := complete_spec (E := E) he hs
  rw [fails]
  cases hcompletion : completionFails E i with
  | true =>
    rw [hcompletion] at hok
    rw [endTransition]
    rcases hrun : i.complete E with ⟨e | u, ended⟩
    · rw [hrun] at hmarked
      refine ⟨by simp, ⟨ended, List.getElem?_set_self hn, ?_⟩, fun h => by cases h⟩
      rw [show ended = _ from hmarked]
      exact ⟨rfl, rfl⟩
    · rw [hrun] at hok
      simp at hok
  | false =>
    have hended := completed_ended hi
    rw [endTransition_of_ok transition he hs hcompletion, Bool.false_or]
    cases due E n i s with
    | false => exact ⟨by simp, hended, fun _ t => by simp [State.completed]⟩
    | true =>
      rcases i.token with _ | t
      · exact ⟨by simp, hended, fun h => by cases h⟩
      · obtain ⟨hrun, hended', hsignals⟩ := signalOver_spec (E := E) (t := t) transition hended
        have hothers : (s.completed n i).instances.eraseIdx n = s.instances.eraseIdx n :=
          List.eraseIdx_set_eq
        rw [hothers, show (s.completed n i).token = s.token from rfl] at hrun
        refine ⟨by simpa using hrun, hended', fun hok t' => ?_⟩
        rw [if_pos rfl] at hok ⊢
        dsimp only at hok ⊢
        rw [hsignals hok]
        by_cases ht : t' = t
        · subst ht
          simp [State.completed]
        · simp [State.completed, ht, Ne.symm ht]

/-- The transition that the call gives. -/
def Leaving.transition? (E : Environment A N T V) (i : Instance A K V) : Leaving T → Option T
  | .default => none
  | .transition t => some t
  | .name transitionName => i.task.bind fun a => E.leavingTransition a transitionName

theorem endTask_of_refused {leaving : Leaving T} (hi : s.instances[n]? = some i)
    (h : Refused E i leaving) : ∃ e, endTask E n i leaving s = (.error e, s) := by
  cases leaving with
  | default =>
    obtain he | hs | ⟨name, hname, -⟩ := h
    · exact endTransition_of_refused none hi (.inl he)
    · exact endTransition_of_refused none hi (.inr hs)
    · cases hname
  | transition transition =>
    obtain he | hs | ⟨name, hname, -⟩ := h
    · exact endTransition_of_refused _ hi (.inl he)
    · exact endTransition_of_refused _ hi (.inr hs)
    · cases hname
  | name name =>
    rcases hfound : i.task.bind fun a => E.leavingTransition a name with _ | transition
    · refine ⟨.noLeavingTransition, ?_⟩
      rw [endTask, hfound]
      rfl
    · obtain he | hs | ⟨_, hname, hnone⟩ := h
      · simpa [endTask, hfound] using endTransition_of_refused (some transition) hi (.inl he)
      · simpa [endTask, hfound] using endTransition_of_refused (some transition) hi (.inr hs)
      · cases hname
        rw [hfound] at hnone
        cases hnone

omit [DecidableEq K] [DecidableEq A] in
theorem flags_of_not_refused {leaving : Leaving T} (h : ¬Refused E i leaving) :
    i.end_ = false ∧ i.isSuspended = false := by
  rw [Refused, not_or, not_or, Bool.not_eq_true, Bool.not_eq_true] at h
  exact ⟨h.1, h.2.1⟩

theorem endTask_of_not_refused {leaving : Leaving T} (h : ¬Refused E i leaving) :
    endTask E n i leaving = endTransition E n i (leaving.transition? E i) := by
  cases leaving with
  | default => rfl
  | transition transition => rfl
  | name name =>
    rcases hfound : i.task.bind fun a => E.leavingTransition a name with _ | transition
    · exact absurd (.inr (.inr ⟨name, rfl, hfound⟩)) h
    · rw [endTask, Leaving.transition?, hfound]

/-- What comes out of a call. -/
abbrev Result (A K N V : Type) := Except Exn Unit × State A K N V

/-- The call has thrown. -/
def Result.Throws (r : Result A K N V) : Prop := ∃ e, r.1 = .error e

/-- The task instance and the positions of the tokens are what they were. -/
def Untouched (n : ℕ) (s s' : State A K N V) : Prop :=
  s'.instances[n]? = s.instances[n]? ∧ ∀ t, (s'.token t).node = (s.token t).node

/-- The task is ended, and its token is signalled exactly once if that is due. -/
def Completes (E : Environment A N T V) (n : ℕ) (i : Instance A K V) (s : State A K N V)
    (r : Result A K N V) : Prop :=
  r.1 = .ok () ∧ r.2.Ended n ∧
    ∀ t, r.2.signals t = s.signals t + if due E n i s = true ∧ i.token = some t then 1 else 0

/-- A completion that throws leaves everything untouched if it is refused, and never if it is
    not; one that neither is refused nor fails completes the task, also when it is repeated. -/
theorem untouched_iff (E : Environment A N T V) (n : ℕ) (i : Instance A K V) (leaving : Leaving T)
    (s : State A K N V) (hi : s.instances[n]? = some i) :
    ((Result.Throws (endTask E n i leaving s) → Untouched n s (endTask E n i leaving s).2) ↔
      (Refused E i leaving ∨ fails E n i (leaving.transition? E i) s = false)) ∧
    (¬Refused E i leaving → fails E n i (leaving.transition? E i) s = false →
      Completes E n i s (endTask E n i leaving s)) := by
  by_cases hrefused : Refused E i leaving
  · obtain ⟨e, hrun⟩ := endTask_of_refused hi hrefused
    rw [hrun]
    exact ⟨⟨fun _ => .inl hrefused, fun _ _ => ⟨rfl, fun _ => rfl⟩⟩, absurd hrefused⟩
  · obtain ⟨he, hs⟩ := flags_of_not_refused hrefused
    obtain ⟨hok, hended, hsignals⟩ :=
      endTransition_spec (E := E) (leaving.transition? E i) hi he hs
    rw [endTask_of_not_refused hrefused]
    refine ⟨⟨fun h => .inr (hok.1 ?_), fun h => ?_⟩,
      fun _ hfails => ⟨hok.2 hfails, hended, hsignals (hok.2 hfails)⟩⟩
    · by_contra hthrows
      obtain ⟨e, herror⟩ : Result.Throws (endTransition E n i (leaving.transition? E i) s) := by
        rw [Result.Throws]
        rcases hrun : (endTransition E n i (leaving.transition? E i) s).1 with e | u
        · exact ⟨e, rfl⟩
        · exact absurd hrun hthrows
      -- the task instance was open before, and is ended now
      obtain ⟨j, hj, hended, -⟩ := hended
      rw [(h ⟨e, herror⟩).1, hi] at hj
      rw [← Option.some.inj hj, he] at hended
      cases hended
    · obtain hr | hfails := h
      · exact absurd hr hrefused
      · rintro ⟨e, herror⟩
        rw [hok.2 hfails] at herror
        cases herror

end Leaving

/-- A single node with a single task, whose controller needs the variable `amount`. -/
def Environment.usual : Environment Unit Unit Unit ℕ where
  isStart _ := false
  taskNode := some
  taskController _ := some (.accesses [⟨"amount", "amount", true, false⟩])
  node _ := some
    { signal := .last, createTasks := true, endTasks := false, tasks := some [()] }
  defaultLeavingTransition := some
  leavingTransition _ _ := some ()
  taskEndThrows _ := false
  getVariable _ _ := none
  setVariableThrows _ _ := false
  beforeSignalThrows _ := false
  nodeLeaveThrows _ := false
  destination _ := none
  takeThrows _ := false
  afterSignalThrows _ := false

def Instance.usual (variableInstances : List (String × ℕ)) : Instance Unit Unit ℕ where
  toTaskInstance := TaskInstance.new true
  id := 0
  task := some ()
  token := some ()
  isBlocking := false
  variableInstances := variableInstances

def State.usual (i : Instance Unit Unit ℕ) : State Unit Unit Unit ℕ where
  instances := [i]
  token _ := ⟨some (), false, false⟩
  signals _ := 0

theorem untouched_iff_usual :
    Completes .usual 0 (.usual [("amount", 3)]) (.usual (.usual [("amount", 3)]))
      (endTask .usual 0 (.usual [("amount", 3)]) .default (.usual (.usual [("amount", 3)]))) :=
  (untouched_iff .usual 0 (.usual [("amount", 3)]) .default (.usual (.usual [("amount", 3)]))
    rfl).2 (by simp [Refused, Instance.usual, TaskInstance.new]) (by decide)

/-- Without `amount` the task instance ends and does not signal, and with `amount` set it cannot
    be ended any more. -/
theorem not_untouched :
    let s : State Unit Unit Unit ℕ := .usual (.usual [])
    let r := endTask .usual 0 (.usual []) .default s
    Result.Throws r ∧ ¬ Untouched 0 s r.2 ∧
      ∃ i, r.2.instances[0]? = some i ∧
        let i := { i with variableInstances := [("amount", 3)] }
        (endTask .usual 0 i .default { r.2 with instances := [i] }).1 = .error .alreadyEnded ∧
        r.2.signals () = 0 := by
  refine ⟨⟨.missing ["amount"], rfl⟩, fun h => ?_, _, rfl, rfl, rfl⟩
  have hend := congrArg (Option.map fun i : Instance Unit Unit ℕ => i.end_) h.1
  revert hend
  decide

end TaskCompletion

end Jbpm
