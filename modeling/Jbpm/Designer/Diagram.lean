/-
  The designer: a process definition and its diagram, which follows the definition by the
  events that it fires.

  * `Diagram`: the node elements and transitions of the definition, and the nodes, edges and
    containers of the notation for them;
  * `View.getDestinationNode`: where the `to` of a transition leads;
  * `Change.exec`: a change of the definition, with what the listeners of the notation do.

  The notation element of a semantic element is created once and stays registered, so that
  both go by one name here.
-/
import Mathlib.Data.Nat.Notation
import Mathlib.Logic.Function.Basic
import Mathlib.Logic.Function.Iterate
import Jbpm.Java.Throws
import Jbpm.Jpdl.DefinitionXml

namespace Jbpm

open Java

namespace Designer

/-- The classes of node elements.  The notation of a super-state is a `JpdlNodeContainer`, that
    of the others a `JpdlNode`. -/
inductive Kind where
  | startState
  | superState
  | other
  deriving DecidableEq

inductive Exn where
  /-- `NullPointerException` -/
  | nullPointer
  /-- `ClassCastException` -/
  | classCast
  deriving DecidableEq

/-- What a `to` is resolved in.  A container is the process definition, or a super-state. -/
structure View (N : Type) where
  nodeElements : Option N → List N
  name : N → Option String
  container : N → Option (Option N)
  registered : N → Bool

/-- The definition, and the nodes of the diagram; `nodeListeners` is how many times a node listens
    to its element. -/
structure Elements (N T : Type) extends View N where
  startState : Option N
  transitions : N → List T
  goesTo : T → Option String
  nodes : Option N → List N
  nodeListeners : N → ℕ

structure Diagram (N T : Type) extends Elements N T where
  danglingEdges : Option N → List T
  leavingEdges : N → List T
  arrivingEdges : N → List T
  source : T → Option N
  target : T → Option N
  edgeListeners : T → ℕ

variable {N T : Type} (kind : N → Kind)

/-! ## Destinations -/

namespace View

variable (v : View N)

/-- The loop of `SuperState.getNodeElementByName` -/
def findNamed (name : String) : List N → Except Exn (Option N)
  | [] => .ok none
  | n :: ns =>
    match v.name n with
    | none => .error .nullPointer
    | some name' => if name' = name then .ok (some n) else findNamed name ns

/-- `getNodeElementByName` of the process definition, or of a super-state. -/
def getNodeElementByName (name : String) : Option N → Except Exn (Option N)
  | none => .ok ((v.nodeElements none).find? fun n => decide (v.name n = some name))
  | some p => v.findNamed name (v.nodeElements (some p))

def isContainer : Option N → Bool
  | none => true
  | some p => decide (kind p = .superState)

/-- The loop of `getDestinationNode`.  Once there is an element, the names are looked up in it,
    also after a `..`. -/
def follow (runner element : Option (Option N)) : List String → Except Exn (Option (Option N))
  | [] => .ok runner
  | nextToken :: rest =>
    if nextToken = ".." then
      match runner with
      | some (some n) => follow (v.container n) element rest
      | _ => .ok none
    else
      match element.or runner with
      | none => .error .nullPointer
      | some c =>
        if isContainer kind c then
          match v.getNodeElementByName nextToken c with
          | .error e => .error e
          | .ok found => follow ((found.filter v.registered).map some) (found.map some) rest
        else .ok none

/-- `(Node)runner` -/
def castNode : Option (Option N) → Except Exn (Option N)
  | none => .ok none
  | some none => .error .classCast
  | some (some n) => .ok (some n)

variable [DecidableEq N]

/-- `JpdlNode.getDestinationNode` -/
def getDestination (n : N) : Option String → Except Exn (Option N)
  | none => .ok none
  | some to_ =>
    match v.follow kind (v.container n) none (Jpdl.parts to_) with
    | .error e => .error e
    | .ok runner => if runner = v.container n then .ok none else castNode runner

/-- `getDestinationNode` of a `JpdlNode` or a `JpdlNodeContainer` -/
def getDestinationNode (n : N) (to_ : Option String) : Except Exn (Option N) :=
  if kind n = .superState then
    match to_ with
    | none => .error .nullPointer
    | some to_ =>
      match v.follow kind (v.container n) none (Jpdl.parts to_) with
      | .error e => .error e
      | .ok runner => castNode runner
  else v.getDestination kind n to_

/-- `getRootContainer` -/
def getRootContainer (n : N) : Option Unit :=
  match v.container n with
  | none => none
  | some none => some ()
  | some (some p) => by
    apply getRootContainer
    exact p
partial_fixpoint

end View

/-! ## Nodes and edges -/

namespace Diagram

variable [DecidableEq N] [DecidableEq T]

def addLeavingEdge (n : N) (t : T) (s : Diagram N T) : Diagram N T :=
  { s with
    leavingEdges := Function.update s.leavingEdges n (s.leavingEdges n ++ [t])
    source := Function.update s.source t (some n) }

def removeLeavingEdge (n : N) (t : T) (s : Diagram N T) : Diagram N T :=
  { s with
    leavingEdges := Function.update s.leavingEdges n ((s.leavingEdges n).erase t)
    source := Function.update s.source t none }

def addArrivingEdge (n : N) (t : T) (s : Diagram N T) : Diagram N T :=
  { s with
    arrivingEdges := Function.update s.arrivingEdges n (s.arrivingEdges n ++ [t])
    target := Function.update s.target t (some n) }

def removeArrivingEdge (n : N) (t : T) (s : Diagram N T) : Diagram N T :=
  { s with
    arrivingEdges := Function.update s.arrivingEdges n ((s.arrivingEdges n).erase t)
    target := Function.update s.target t none }

/-- `addArrivingEdge`, if there is a node. -/
def arriveAt (target : Option N) (t : T) (s : Diagram N T) : Diagram N T :=
  match target with
  | none => s
  | some n => s.addArrivingEdge n t

/-- `removeArrivingEdge`, if there is a node. -/
def departFrom (target : Option N) (t : T) (s : Diagram N T) : Diagram N T :=
  match target with
  | none => s
  | some n => s.removeArrivingEdge n t

def addEdgeListener (t : T) (s : Diagram N T) : Diagram N T :=
  { s with edgeListeners := Function.update s.edgeListeners t (s.edgeListeners t + 1) }

def removeEdgeListener (t : T) (s : Diagram N T) : Diagram N T :=
  { s with edgeListeners := Function.update s.edgeListeners t (s.edgeListeners t - 1) }

def addNodeListener (n : N) (s : Diagram N T) : Diagram N T :=
  { s with nodeListeners := Function.update s.nodeListeners n (s.nodeListeners n + 1) }

def removeNodeListener (n : N) (s : Diagram N T) : Diagram N T :=
  { s with nodeListeners := Function.update s.nodeListeners n (s.nodeListeners n - 1) }

def addDanglingEdge (c : Option N) (t : T) (s : Diagram N T) : Diagram N T :=
  { s with danglingEdges := Function.update s.danglingEdges c (s.danglingEdges c ++ [t]) }

/-! ## Transitions -/

/-- The event `transitionAdd` -/
def transitionAdd (n : N) (t : T) : Throws Exn (Diagram N T) Unit := fun s =>
  let s := (s.addLeavingEdge n t).addEdgeListener t
  match s.getDestinationNode kind n (s.goesTo t) with
  | .error e => (.error e, s)
  | .ok target => (.ok (), s.arriveAt target t)

/-- The event `transitionRemove`.  An edge without a target goes on listening. -/
def transitionRemove (n : N) (t : T) (s : Diagram N T) : Diagram N T :=
  match s.target t with
  | none => s.removeLeavingEdge n t
  | some m => ((s.removeEdgeListener t).removeArrivingEdge m t).removeLeavingEdge n t

/-- An event that is fired for so many listeners. -/
def fire (m : Throws Exn (Diagram N T) Unit) : ℕ → Throws Exn (Diagram N T) Unit
  | 0 => pure ()
  | k + 1 => do
    m
    fire m k

def addTransition (n : N) (t : T) : Throws Exn (Diagram N T) Unit := fun s =>
  if t ∈ s.transitions n then (.ok (), s)
  else
    fire (transitionAdd kind n t) (s.nodeListeners n)
      { s with transitions := Function.update s.transitions n (s.transitions n ++ [t]) }

def removeTransition (n : N) (t : T) (s : Diagram N T) : Diagram N T :=
  if t ∈ s.transitions n then
    (transitionRemove n t)^[s.nodeListeners n]
      { s with transitions := Function.update s.transitions n ((s.transitions n).erase t) }
  else s

/-- `processDefinition.getNodeElementByName`, if the node is registered. -/
def findRegistered (s : Diagram N T) (to_ : Option String) : Option N :=
  (to_.bind fun name => (s.nodeElements none).find? fun n => decide (s.name n = some name)).filter
    s.registered

/-- The event `to` of an edge -/
def toChange (t : T) (oldTo newTo : Option String) (s : Diagram N T) : Diagram N T :=
  match (s.source t).bind s.getRootContainer with
  | none => s
  | some () => (s.departFrom (s.findRegistered oldTo) t).arriveAt (s.findRegistered newTo) t

def setTo (t : T) (newTo : Option String) (s : Diagram N T) : Diagram N T :=
  let s' := { s with goesTo := Function.update s.goesTo t newTo }
  if s.goesTo t = newTo then s' else (toChange t (s.goesTo t) newTo)^[s.edgeListeners t] s'

/-! ## Names -/

/-- The loop of `updateArrivingEdges`.  An edge does not listen while its transition is set, and
    the list of the edges stays as it is. -/
def updateArrivingEdges (n : N) (to_ : Option String) : (fuel i : ℕ) → Diagram N T → Diagram N T
  | 0, _, s => s
  | fuel + 1, i, s =>
    match (s.arrivingEdges n)[i]? with
    | none => s
    | some t => updateArrivingEdges n to_ fuel (i + 1)
        (((s.removeEdgeListener t).setTo t to_).addEdgeListener t)

/-- The event `name`, which only a `JpdlNode` looks at. -/
def nameChange (n : N) (name : Option String) (s : Diagram N T) : Diagram N T :=
  if kind n = .superState then s
  else s.updateArrivingEdges n name (s.arrivingEdges n).length 0

def setName (n : N) (name : Option String) (s : Diagram N T) : Diagram N T :=
  let s' := { s with name := Function.update s.name n name }
  if s.name n = name then s' else (nameChange kind n name)^[s.nodeListeners n] s'

/-! ## Nodes -/

/-- `addArrivingEdges`: the dangling edges to the name of the node arrive in it.  A super-state
    keeps none of the others. -/
def addArrivingEdges (c : Option N) (n : N) : Throws Exn (Diagram N T) Unit := fun s =>
  let list := (s.danglingEdges c).filter fun t =>
    (s.name n).isSome && decide (s.goesTo t = s.name n)
  let s' := list.foldl (fun s t => s.addArrivingEdge n t) s
  match c with
  | none => (.ok (), { s' with
      danglingEdges := Function.update s.danglingEdges none
        ((s.danglingEdges none).filter (· ∉ list)) })
  | some p =>
    if s.danglingEdges (some p) ≠ [] ∧ s.name n = none then (.error .nullPointer, s)
    else (.ok (), { s' with danglingEdges := Function.update s.danglingEdges (some p) [] })

/-- `addLeavingEdges` -/
def addLeavingEdges (n : N) : List T → Throws Exn (Diagram N T) Unit
  | [] => pure ()
  | t :: ts => do
    transitionAdd kind n t
    addLeavingEdges n ts

/-- The event `nodeElementAdd`, or `startStateAdd`.  Only the process definition adds the edges
    that leave the node. -/
def nodeElementAdd (c : Option N) (n : N) : Throws Exn (Diagram N T) Unit := do
  Throws.modify_ fun s => { s with
    registered := Function.update s.registered n true
    nodes := Function.update s.nodes c (s.nodes c ++ [n])
    container := Function.update s.container n (some c) }
  addArrivingEdges c n
  (fun s => if c = none then addLeavingEdges kind n (s.transitions n) s else (.ok (), s))
  Throws.modify_ (addNodeListener n)

def addNodeElement (c : Option N) (n : N) : Throws Exn (Diagram N T) Unit := fun s =>
  match c with
  | none =>
    if kind n = .startState then
      if s.startState.isSome then (.ok (), s)
      else nodeElementAdd kind none n { s with
        startState := some n
        nodeElements := Function.update s.nodeElements none (n :: s.nodeElements none) }
    else nodeElementAdd kind none n { s with
      nodeElements := Function.update s.nodeElements none (s.nodeElements none ++ [n]) }
  | some p =>
    fire (nodeElementAdd kind (some p) n) (s.nodeListeners p) { s with
      nodeElements := Function.update s.nodeElements (some p) (s.nodeElements (some p) ++ [n]) }

/-- The loop of `removeArrivingEdges`, over the list that it shortens. -/
def removeArrivingEdges (c : Option N) (n : N) : (fuel i : ℕ) → Diagram N T → Diagram N T
  | 0, _, s => s
  | fuel + 1, i, s =>
    match (s.arrivingEdges n)[i]? with
    | none => s
    | some t =>
      removeArrivingEdges c n fuel (i + 1) ((s.removeArrivingEdge n t).addDanglingEdge c t)

/-- The loop of `removeLeavingEdges`, which is no better. -/
def removeLeavingEdges (n : N) : (fuel i : ℕ) → Diagram N T → Diagram N T
  | 0, _, s => s
  | fuel + 1, i, s =>
    match (s.leavingEdges n)[i]? with
    | none => s
    | some t => removeLeavingEdges n fuel (i + 1)
        (((s.departFrom (s.target t) t).removeLeavingEdge n t).removeEdgeListener t)

/-- The event `nodeElementRemove`, or `startStateRemove`.  Only the process definition removes the
    edges that leave the node. -/
def nodeElementRemove (c : Option N) (n : N) (s : Diagram N T) : Diagram N T :=
  if s.registered n then
    let s := s.removeNodeListener n
    let s := s.removeArrivingEdges c n (s.arrivingEdges n).length 0
    let s := if c = none then s.removeLeavingEdges n (s.leavingEdges n).length 0 else s
    { s with
      nodes := Function.update s.nodes c ((s.nodes c).erase n)
      container := Function.update s.container n none }
  else s

def removeNodeElement (c : Option N) (n : N) (s : Diagram N T) : Diagram N T :=
  match c with
  | none =>
    if kind n = .startState then
      if s.startState = some n then
        nodeElementRemove none n { s with
          startState := none
          nodeElements := Function.update s.nodeElements none (s.nodeElements none).tail }
      else s
    else nodeElementRemove none n { s with
      nodeElements := Function.update s.nodeElements none ((s.nodeElements none).erase n) }
  | some p =>
    (nodeElementRemove (some p) n)^[s.nodeListeners p] { s with
      nodeElements := Function.update s.nodeElements (some p)
        ((s.nodeElements (some p)).erase n) }

end Diagram

/-! ## Changes -/

inductive Change (N T : Type) where
  | addNode (c : Option N) (n : N)
  | removeNode (c : Option N) (n : N)
  | addTransition (n : N) (t : T)
  | removeTransition (n : N) (t : T)
  | setName (n : N) (name : Option String)
  | setTo (t : T) (newTo : Option String)

def Change.exec [DecidableEq N] [DecidableEq T] : Change N T → Throws Exn (Diagram N T) Unit
  | .addNode c n => Diagram.addNodeElement kind c n
  | .removeNode c n => Throws.modify_ (Diagram.removeNodeElement kind c n)
  | .addTransition n t => Diagram.addTransition kind n t
  | .removeTransition n t => Throws.modify_ (Diagram.removeTransition n t)
  | .setName n name => Throws.modify_ (Diagram.setName kind n name)
  | .setTo t newTo => Throws.modify_ (Diagram.setTo t newTo)

end Designer

end Jbpm
