/-
  Super-states: nodes that contain nodes.  A transition fires the leave events of
  the super-states around its source, the enter events of those around its
  destination, and passes the token on to the first inner node.

  A token rests at a node that is no super-state, or at an asynchronous node
  until the job that executes the node unlocks it.  Nodes that go on by
  themselves are signalled at once.
-/
import Jbpm.Lib.Forest

namespace Jbpm

namespace Graph

open Lib

structure Transition where
  from_ : ℕ
  to_ : ℕ
  deriving DecidableEq

/-- The nodes of a process definition.  The super-state of a node is its parent
    in `superStates`; `nodes` are the nodes of a super-state in order. -/
structure ProcessDefinition where
  superStates : Forest ℕ
  isSuperStateNode : ℕ → Bool
  nodes : ℕ → List ℕ
  isAsync : ℕ → Bool
  leavingTransitions : ℕ → List Transition
  startState : ℕ
  height : ℕ → ℕ
  isSuperStateNode_of_parent : ∀ {n s}, superStates.parent n = some s → isSuperStateNode s
  parent_of_mem : ∀ {n s}, n ∈ nodes s → superStates.parent n = some s
  height_of_mem : ∀ {n s}, n ∈ nodes s → height n < height s
  from_of_mem : ∀ {n tr}, tr ∈ leavingTransitions n → tr.from_ = n

inductive Event
  | nodeLeave (n : ℕ)
  | superStateLeave (s : ℕ)
  | transition (tr : Transition)
  | superStateEnter (s : ℕ)
  | nodeEnter (n : ℕ)
  deriving DecidableEq

/-- A token, with the events fired for it so far. -/
structure Execution where
  node : ℕ
  isLocked : Bool
  events : List Event

def Execution.fire (evs : List Event) (e : Execution) : Execution :=
  { e with events := e.events ++ evs }

namespace ProcessDefinition

variable (d : ProcessDefinition)

/-- `SuperState.containsNode` walks up from the node. -/
def containsNode (s n : ℕ) : Bool := s ∈ d.superStates.ancestors n

/-- All super-states of `a`, from the inside out, up to one that contains `b`. -/
def collectAllSuperStates (a b : ℕ) : List ℕ :=
  (d.superStates.ancestors a).takeWhile fun s => !d.containsNode s b

/-- `SuperState.execute` and `Node.enter`: an empty super-state has no first
    node to delegate to. -/
def enterFrom : ℕ → ℕ → Execution → Option Execution
  | 0, _, _ => none
  | k + 1, n, e =>
    let e := { e with node := n }.fire [.nodeEnter n]
    if d.isAsync n then some { e with isLocked := true }
    else if d.isSuperStateNode n then
      match d.nodes n with
      | [] => none
      | c :: _ => enterFrom k c e
    else some e

def enter (n : ℕ) (e : Execution) : Option Execution := d.enterFrom (d.height n + 1) n e

/-- What a node that is no super-state does is left to the signals that follow. -/
def execute (n : ℕ) (e : Execution) : Option Execution :=
  if d.isSuperStateNode n then
    match d.nodes n with
    | [] => none
    | c :: _ => d.enter c e
  else some e

/-- The loop of `fireSuperStateEnterEvents`. -/
def destinationFrom : ℕ → ℕ → Option ℕ
  | 0, _ => none
  | k + 1, n =>
    if d.isSuperStateNode n then
      match d.nodes n with
      | [] => none
      | c :: _ => destinationFrom k c
    else some n

/-- The actual destination of a transition to `n`. -/
def destination (n : ℕ) : Option ℕ := d.destinationFrom (d.height n + 1) n

def take (tr : Transition) (transitionSource : ℕ) (e : Execution) : Option Execution :=
  let e := e.fire ((d.collectAllSuperStates transitionSource tr.to_).map .superStateLeave)
  let e := e.fire [.transition tr]
  (d.destination tr.to_).bind fun n =>
    let e := e.fire ((d.collectAllSuperStates n tr.from_).reverse.map .superStateEnter)
    d.enter tr.to_ e

def leave (n : ℕ) (tr : Transition) (e : Execution) : Option Execution :=
  d.take tr n ({ e with node := n }.fire [.nodeLeave n])

/-- The transitions of a node, and those that it inherits from its super-states. -/
def availableTransitions (n : ℕ) : List Transition :=
  (n :: d.superStates.ancestors n).flatMap d.leavingTransitions

/-- The constructor of a process instance executes the initial node. -/
def start : Option Execution := d.execute d.startState ⟨d.startState, false, []⟩

/-- What happens to a token at rest. -/
inductive Act
  | signal (tr : Transition)
  | executeJob
  deriving DecidableEq

def step (e : Execution) : Act → Option Execution
  | .signal tr =>
    if e.isLocked = false ∧ tr ∈ d.availableTransitions e.node then d.leave e.node tr e else none
  | .executeJob => if e.isLocked then d.execute e.node { e with isLocked := false } else none

end ProcessDefinition

end Graph

end Jbpm
