/-
  Process definitions as xml documents, written and read again.

  * `Definition`: the nodes of a process definition, with their leaving transitions;
  * `write`: `JpdlXmlWriter`, up to the document;
  * `read`: `JpdlXmlReader`, from the document on.

  What else there is of a node (events, actions, tasks, ..) is its `content`, of which a
  `Contents` tells whether it can be written and whether it can be read.
-/
import Mathlib.Data.List.Basic
import Mathlib.Data.Nat.Notation

namespace Jbpm

namespace Jpdl

/-- The types of `node.types.xml`, without the pages, whose class is not part of the library. -/
inductive NodeType where
  | startState
  | endState
  | node
  | state
  | taskNode
  | fork
  | join
  | decision
  | processState
  | superState
  | merge
  | milestoneNode
  | interleaveStart
  | interleaveEnd
  | mailNode
  deriving DecidableEq

namespace NodeType

def all : List NodeType :=
  [startState, endState, node, state, taskNode, fork, join, decision, processState, superState,
    merge, milestoneNode, interleaveStart, interleaveEnd, mailNode]

/-- `NodeTypes.getNodeName` -/
def getNodeName : NodeType → String
  | startState => "start-state"
  | endState => "end-state"
  | node => "node"
  | state => "state"
  | taskNode => "task-node"
  | fork => "fork"
  | join => "join"
  | decision => "decision"
  | processState => "process-state"
  | superState => "super-state"
  | merge => "merge"
  | milestoneNode => "milestone-node"
  | interleaveStart => "interleave-start"
  | interleaveEnd => "interleave-end"
  | mailNode => "mail-node"

def getNodeType (name : String) : Option NodeType := all.find? (·.getNodeName == name)

@[simp]
theorem getNodeType_getNodeName (type : NodeType) : getNodeType type.getNodeName = some type := by
  cases type <;> rfl

end NodeType

/-! ## Definitions and documents -/

structure Transition (ι : Type) where
  name : Option String
  destination : Option ι

structure Node (ι : Type) where
  type : NodeType
  name : Option String
  superState : Option ι
  leavingTransitions : List (Transition ι)

/-- The nodes at all levels; those of one level are in the order of their collection. -/
structure Graph (ι : Type) where
  nodes : List ι
  node : ι → Node ι
  startState : Option ι

/-- A process definition: its transitions lead to its nodes, and there are neither transitions
    that leave an end state nor such that arrive in a start state, as neither can be added. -/
structure Definition (ι : Type) extends Graph ι where
  nodup : nodes.Nodup
  startState_mem : ∀ i, startState = some i → i ∈ nodes
  destination_mem : ∀ i ∈ nodes, ∀ t ∈ (node i).leavingTransitions, ∀ d,
    t.destination = some d → d ∈ nodes
  leavingTransitions_endState : ∀ i ∈ nodes, (node i).type = .endState →
    (node i).leavingTransitions = []
  destination_startState : ∀ i ∈ nodes, ∀ t ∈ (node i).leavingTransitions, ∀ d,
    t.destination = some d → (node d).type ≠ .startState

/-- A `transition` element, with its attributes `name` and `to`. -/
structure TransitionElement where
  name : Option String
  toName : Option String

/-- An element of a node, with those of the nodes in it. -/
inductive Element (C : Type) where
  | mk (tag : String) (name : Option String) (transitions : List TransitionElement) (content : C)
      (elements : List (Element C))

structure Document (C : Type) where
  initial : Option String
  content : C
  elements : List (Element C)

structure Contents (C : Type) where
  writeThrows : C → Bool
  readFails : C → Bool

inductive Exn where
  /-- what else there is cannot be written or read -/
  | content
  /-- `ClassCastException` -/
  | classCast
  /-- `NullPointerException` -/
  | nullPointer
  /-- `max one start-state allowed in a process` -/
  | startStates
  /-- `couldn't set name .. on node .. cause .. has already another .. node with the same name` -/
  | duplicateName
  /-- `can't add a leaving transition to an end-state` -/
  | leavingEndState
  /-- `its not possible to add a transition that is arriving in a start state` -/
  | arrivingStartState
  /-- `couldn't find node .. because of a '..' on the process definition.` -/
  | noParent
  deriving DecidableEq

variable {ι C : Type} (E : Contents C)

/-! ## The writer -/

namespace Graph

variable (D : Graph ι) (content : ι → C)

/-- `getNodes` of the process definition -/
def getNodes : List ι := D.nodes.filter fun i => (D.node i).superState.isNone

/-- A null name is not written. -/
def writeTransition (t : Transition ι) : TransitionElement where
  name := t.name
  toName := t.destination.bind fun d => (D.node d).name

/-- The nodes of a super-state are not written. -/
def writeNode (i : ι) : Except Exn (Element C) :=
  if E.writeThrows (content i) then .error .content
  else .ok (.mk (D.node i).type.getNodeName (D.node i).name
    ((D.node i).leavingTransitions.map D.writeTransition) (content i) [])

/-- The start state is cast to the class `StartState`. -/
def writeStartNode : Except Exn (List (Element C)) :=
  match D.startState with
  | none => .ok []
  | some i =>
    if (D.node i).type = .startState then [i].mapM (D.writeNode E content) else .error .classCast

def writeNodes : Except Exn (List (Element C)) :=
  (D.getNodes.filter fun i => (D.node i).type ≠ .startState).mapM (D.writeNode E content)

/-- `createDomTree` -/
def write (c : C) : Except Exn (Document C) := do
  let start ← D.writeStartNode E content
  let nodes ← D.writeNodes E content
  if E.writeThrows c then .error .content
  else .ok { initial := none, content := c, elements := start ++ nodes }

end Graph

/-! ## The first pass of the reader -/

/-- A node whose transitions are not resolved yet. -/
structure Record where
  type : NodeType
  name : Option String
  superState : Option ℕ
  transitions : List TransitionElement

/-- The nodes are numbered as they are read. -/
structure Reading where
  nodes : List Record
  startState : Option ℕ

namespace Reading

/-- `hasNode` of the process definition or of a super-state -/
def hasNode (s : Reading) (collection : Option ℕ) (name : String) : Bool :=
  s.nodes.any fun r => decide (r.superState = collection) && decide (r.name = some name)

/-- `addNode`; only that of the process definition looks for the start state. -/
def addNode (s : Reading) (r : Record) : Reading where
  nodes := s.nodes ++ [r]
  startState :=
    if r.type = .startState ∧ r.superState = none ∧ s.startState = none then some s.nodes.length
    else s.startState

end Reading

/-- `path` is the name of the super-state, if there is one. -/
def getFullyQualifiedName (path : Option String) (name : String) : String :=
  match path with
  | none => name
  | some path => path ++ "/" ++ name

mutual

/-- An error is as good as an exception: either way there is no definition. -/
def readNode (initial : Option String) (superState : Option ℕ) (path : Option String) :
    Element C → Reading → Except Exn Reading
  | .mk tag name transitions content elements, s =>
    match NodeType.getNodeType tag with
    | none => .ok s
    | some type =>
      if type = .startState ∧ s.startState.isSome then .error .startStates
      else if name.any (s.hasNode superState) then .error .duplicateName
      else if E.readFails content then .error .content
      else
        let k := s.nodes.length
        let s := s.addNode ⟨type, name, superState, transitions⟩
        let isInitial := name.any fun name => initial == some (getFullyQualifiedName path name)
        let s := if isInitial then { s with startState := some k } else s
        if type = .superState then
          readNodes initial (some k) (some (getFullyQualifiedName path (name.getD "null")))
            elements s
        else .ok s

def readNodes (initial : Option String) (superState : Option ℕ) (path : Option String) :
    List (Element C) → Reading → Except Exn Reading
  | [], s => .ok s
  | e :: es, s => do
    let s ← readNode initial superState path e s
    readNodes initial superState path es s

end

/-! ## The second pass -/

/-- `StringTokenizer` with the delimiter `/` -/
def parts (hierarchicalName : String) : List String :=
  ((hierarchicalName.toList.splitOn '/').filter (· ≠ [])).map String.ofList

/-- `"".equals(name.trim())` -/
def isBlank (name : String) : Bool := name.toList.all (· ≤ ' ')

/-- The names of a collection are different. -/
def getNode (rs : List Record) (collection : Option ℕ) (name : String) : Option ℕ :=
  (List.range rs.length).find? fun k =>
    rs[k]?.any fun r => decide (r.superState = collection) && decide (r.name = some name)

/-- The loop of `findNode`, from the process definition or from a super-state.  A super-state
    without nodes has no map of them. -/
def findPart (rs : List Record) (collection : Option ℕ) : List String → Except Exn (Option ℕ)
  | [] => .ok none
  | namePart :: rest =>
    if namePart = ".." then
      match collection with
      | none => .error .noParent
      | some k => findPart rs (rs[k]?.bind (·.superState)) rest
    else if collection.isSome && !rs.any (·.superState = collection) then .error .nullPointer
    else if rest = [] then .ok (getNode rs collection namePart)
    else
      match getNode rs collection namePart with
      | none => .error .nullPointer
      | some k =>
        if rs[k]?.any (·.type = .superState) then findPart rs (some k) rest else .error .classCast

def findNode (rs : List Record) (collection : Option ℕ) (hierarchicalName : String) :
    Except Exn (Option ℕ) :=
  if isBlank hierarchicalName then .ok none
  else
    findPart rs (if hierarchicalName.toList.head? = some '/' then none else collection)
      (parts hierarchicalName)

/-- Of a destination that is not found there is only a warning. -/
def resolveTransitionDestination (rs : List Record) (r : Record) (t : TransitionElement) :
    Except Exn (Transition ℕ) :=
  if r.type = .endState then .error .leavingEndState
  else
    match t.toName with
    | none => .ok ⟨t.name, none⟩
    | some toName =>
      match findNode rs r.superState toName with
      | .error e => .error e
      | .ok none => .ok ⟨t.name, none⟩
      | .ok (some d) =>
        if rs[d]?.any (·.type = .startState) then .error .arrivingStartState
        else .ok ⟨t.name, some d⟩

def resolveTransitionDestinations (rs : List Record) : Except Exn (List (List (Transition ℕ))) :=
  rs.mapM fun r => r.transitions.mapM (resolveTransitionDestination rs r)

/-- The definition with the given nodes, whose transitions are resolved. -/
def Graph.ofRecords (s : Reading) (leaving : List (List (Transition ℕ))) : Graph ℕ where
  nodes := List.range s.nodes.length
  node k :=
    match s.nodes[k]?, leaving[k]? with
    | some r, some leavingTransitions => ⟨r.type, r.name, r.superState, leavingTransitions⟩
    | _, _ => ⟨.node, none, none, []⟩
  startState := s.startState

/-- `readProcessDefinition` -/
def read (doc : Document C) : Except Exn (Graph ℕ) :=
  if E.readFails doc.content then .error .content
  else do
    let s ← readNodes E doc.initial none none doc.elements { nodes := [], startState := none }
    let leaving ← resolveTransitionDestinations s.nodes
    .ok (Graph.ofRecords s leaving)

end Jpdl

end Jbpm
