/-
  Task-nodes: tasks are created when a token enters, and the completion of a task may
  let the token go on.

  * `execute`, `leave`, `completionTriggersSignal`: the task-node;
  * `end_`, `cancel`: the completion of a task instance;
  * `Op`, `step`: what happens to the task instances of a process instance, an operation
    that throws not being defined.

  Tokens are not suspended or locked here, task-nodes have a default transition, and
  listeners do not touch the tasks.
-/
import Mathlib.Data.Nat.Notation
import Mathlib.Logic.Function.Basic
import Jbpm.Taskmgmt.TaskInstance

namespace Jbpm

namespace TaskNode

/-! ## Definitions -/

inductive Signal where
  | unsynchronized
  | never
  | first
  | firstWait
  | last
  | lastWait
  deriving DecidableEq

/-- A task.  `start` is true of the task of the start state. -/
structure Task (V : Type) where
  taskNode : Option V
  isSignalling : Bool
  isBlocking : Bool
  isStart : Bool

end TaskNode

open TaskNode in
/-- `tasks` is `null` in a task-node without tasks. -/
structure TaskNode (A : Type) where
  signal : Signal
  createTasks : Bool
  endTasks : Bool
  tasks : Option (List A)

namespace TaskNode

/-- The tasks and the task-nodes of a process definition. -/
structure Definition (A V : Type) where
  task : A → Task V
  node : V → TaskNode A
  /-- `addTask` -/
  mem_tasks : ∀ a N, (∃ l, (node N).tasks = some l ∧ a ∈ l) ↔ (task a).taskNode = some N
  taskNode_start : ∀ a, (task a).isStart = true → (task a).taskNode = none

/-- A task instance on a token.  Ghost state: whether it was created as one that signals, and
    in which stay of its token in a task-node. -/
structure Instance (A K : Type) extends TaskInstance where
  token : K
  task : Option A
  isBlocking : Bool
  signals : Bool
  stay : ℕ

/-- The task instances of a process instance, and the task-nodes its tokens wait in.  Ghost
    state: how many times a token has entered a task-node, which one it was, and how many
    times the token has left it by the completion of a task. -/
structure State (A K V : Type) where
  instances : List (Instance A K)
  node : K → Option V
  stays : K → ℕ
  nodeOf : K → ℕ → Option V
  leftBy : K → ℕ → ℕ

variable {A K V : Type} (D : Definition A V) [DecidableEq A] [DecidableEq K]

/-- `createTaskInstance(task, token)`, up to events, assignment and due date. -/
def createTaskInstance (t : K) (a : Option A) (s : State A K V) : Instance A K :=
  let isSignalling := match a with
    | some a => (D.task a).isSignalling
    | none => true
  let isBlocking := match a with
    | some a => (D.task a).isBlocking
    | none => false
  { TaskInstance.new isSignalling with
    create := true, token := t, task := a, isBlocking := isBlocking, signals := isSignalling,
    stay := s.stays t }

/-! ## `TaskMgmtInstance` -/

def hasBlockingTaskInstances (t : K) (is : List (Instance A K)) : Bool :=
  is.any fun i => !i.end_ && i.isBlocking && decide (i.token = t)

def getSignallingTasks (t : K) (is : List (Instance A K)) : List (Instance A K) :=
  is.filter fun i => i.isSignalling && decide (i.token = t)

/-! ## Leaving -/

/-- The first part of `TaskInstance.end(transition)`, which is all of it for a task instance
    that does not signal. -/
def Instance.end_? (i : Instance A K) : Option (Instance A K) :=
  if i.end_ || i.isSuspended then none
  else some { i with toTaskInstance := i.toTaskInstance.markAsEnded }

/-- `tasks.contains(task)` -/
def contains (tasks : List A) : Option A → Bool
  | some a => decide (a ∈ tasks)
  | none => false

/-- The body of the loop of `removeTaskInstanceSynchronization`. -/
def removeSynchronization (M : TaskNode A) (t : K) (i : Instance A K) : Option (Instance A K) :=
  if i.token = t then
    let i := { i with toTaskInstance := i.toTaskInstance.stopSignalling, isBlocking := false }
    if !i.end_ && M.endTasks then
      match M.tasks with
      | none => none
      | some tasks => if contains tasks i.task then i.end_? else some i
    else some i
  else some i

def removeTaskInstanceSynchronization (M : TaskNode A) (t : K) :
    List (Instance A K) → Option (List (Instance A K))
  | [] => some []
  | i :: is => do
    let i ← removeSynchronization M t i
    let is ← removeTaskInstanceSynchronization M t is
    some (i :: is)

/-- `leave`: the token goes on to another node. -/
def leave (t : K) (N : V) (s : State A K V) : Option (State A K V) :=
  if hasBlockingTaskInstances t s.instances then none
  else do
    let is ← removeTaskInstanceSynchronization (D.node N) t s.instances
    some { s with instances := is, node := Function.update s.node t none }

/-! ## Entering -/

/-- `execute`, for a token that has entered. -/
def execute (t : K) (N : V) (condition : A → Bool) (s : State A K V) : Option (State A K V) :=
  let created := if (D.node N).createTasks then ((D.node N).tasks.getD []).filter condition else []
  let s := { s with
    instances := s.instances ++ created.map fun a => createTaskInstance D t (some a) s }
  match (D.node N).signal with
  | .unsynchronized => leave D t N s
  | .firstWait | .lastWait | .never => some s
  | .first | .last => if getSignallingTasks t s.instances = [] then leave D t N s else some s

/-- A token that enters a task-node is in a new stay. -/
def State.entered (s : State A K V) (t : K) (N : V) : State A K V :=
  { s with
    node := Function.update s.node t (some N)
    stays := Function.update s.stays t (s.stays t + 1)
    nodeOf := Function.update s.nodeOf t
      (Function.update (s.nodeOf t) (s.stays t + 1) (some N)) }

/-- A token that is in no task-node enters one. -/
def enter (t : K) (N : V) (condition : A → Bool) (s : State A K V) : Option (State A K V) :=
  if s.node t = none then execute D t N condition (s.entered t N) else none

/-! ## Completions -/

/-- `isLastToComplete(taskInstance)`, for a task instance of the token that has ended. -/
def isLastToComplete (t : K) (is : List (Instance A K)) : Bool :=
  is.all fun other => !(decide (other.token = t) && other.isSignalling && !other.end_)

def completionTriggersSignal (M : TaskNode A) (t : K) (is : List (Instance A K)) : Bool :=
  match M.signal with
  | .first | .firstWait => true
  | .last | .lastWait => isLastToComplete t is
  | .unsynchronized | .never => false

/-- `token.signal()`.  A token outside of task-nodes leaves some other node. -/
def signalToken (t : K) (s : State A K V) : Option (State A K V) :=
  match s.node t with
  | none => some s
  | some N => do
    let s ← leave D t N s
    some { s with
      leftBy := Function.update s.leftBy t
        (Function.update (s.leftBy t) (s.stays t) (s.leftBy t (s.stays t) + 1)) }

/-- The condition of `end` for a signal. -/
def triggersSignal (i : Instance A K) (is : List (Instance A K)) : Bool :=
  match i.task with
  | none => false
  | some a =>
    (D.task a).isStart ||
      match (D.task a).taskNode with
      | none => false
      | some N => completionTriggersSignal (D.node N) i.token is

/-- `end()` of the task instance number `n`. -/
def end_ (n : ℕ) (i : Instance A K) (s : State A K V) : Option (State A K V) := do
  let ended ← i.end_?
  if i.isSignalling then
    let ended := { ended with toTaskInstance := ended.toTaskInstance.stopSignalling }
    let s := { s with instances := s.instances.set n ended }
    if triggersSignal D ended s.instances then signalToken D ended.token s else some s
  else some { s with instances := s.instances.set n ended }

def setSuspended (n : ℕ) (i : Instance A K) (b : Bool) (s : State A K V) :
    Option (State A K V) :=
  if i.isOpen then some { s with instances := s.instances.set n { i with isSuspended := b } }
  else none

/-! ## Steps -/

inductive Op (A K V : Type) where
  | enter (t : K) (N : V) (condition : A → Bool)
  | create (t : K) (a : Option A)
  | end_ (n : ℕ)
  | cancel (n : ℕ)
  | suspend (n : ℕ)
  | resume (n : ℕ)

def step (s : State A K V) : Op A K V → Option (State A K V)
  | .enter t N condition => enter D t N condition s
  | .create t a => some { s with instances := s.instances ++ [createTaskInstance D t a s] }
  | .end_ n => do end_ D n (← s.instances[n]?) s
  | .cancel n => do
    let i ← s.instances[n]?
    end_ D n { i with toTaskInstance := i.toTaskInstance.markAsCancelled } s
  | .suspend n => do setSuspended n (← s.instances[n]?) true s
  | .resume n => do setSuspended n (← s.instances[n]?) false s

def State.init : State A K V where
  instances := []
  node _ := none
  stays _ := 0
  nodeOf _ _ := none
  leftBy _ _ := 0

end TaskNode

end Jbpm
