/-
  Activities with their parents and their implicit transitions, and the changes of a sequence.

  * `Kind`, `entry`, `exit`: which nodes carry the transitions of an activity;
  * `Activities`: the children and parents of all activities, and their transitions;
  * `addActivity`, `removeNode`, `reorderNode`: the changes of a sequence, with the detachment
    of an activity from any other parent;
  * `hops`: the transitions that a sequence is to have;
  * `Sole`: the only transition that leaves a node and arrives at another one.
-/
import Jbpm.Bpel.ImplicitTransitions
import Jbpm.Lib.Lists
import Jbpm.Lib.Run

namespace Jbpm

open Lib

namespace Bpel

/-- What an activity is, as far as its own transitions and those of its children go.  Flows, ifs
    and picks are parallel; scopes and handlers have no transitions to their activity. -/
inductive Kind
  | basic
  | scope
  | sequence
  | parallel
  | while_
  | repeatUntil
  deriving DecidableEq

def Kind.isStructured : Kind → Bool
  | .basic | .scope => false
  | .sequence | .parallel | .while_ | .repeatUntil => true

structure Activities (A : Type) where
  graph : Graph A
  children : A → List A
  parent : A → Option A

namespace Activities

variable {A : Type} (kind : A → Kind)

/-- The node at which transitions arrive: the begin mark of a structure. -/
def entry (a : A) : Mark A := if (kind a).isStructured then .begin_ a else .node a

/-- The node that transitions leave: the end mark of a structure. -/
def exit (a : A) : Mark A := if (kind a).isStructured then .end_ a else .node a

/-- The implicit transitions of a child of a structure that is not a sequence, in the order in
    which they are removed. -/
def implicit (p child : A) : List (Mark A × Mark A) :=
  match kind p with
  | .parallel => [(.begin_ p, entry kind child), (exit kind child, .end_ p)]
  | .while_ => [(.begin_ p, .loop p), (.loop p, entry kind child), (.loop p, .end_ p),
      (exit kind child, .loop p)]
  | .repeatUntil => [(.begin_ p, entry kind child), (exit kind child, .loop p),
      (.loop p, entry kind child), (.loop p, .end_ p)]
  | .basic | .scope | .sequence => []

variable [DecidableEq A] (place : ℕ → ℕ)

/-! ## Transitions of a sequence -/

def addImplicitTransitions (s a : A) (x : Activities A) : Graph A :=
  let g :=
    match (x.children s).getLast? with
    | some lastActivity =>
      (x.graph.disconnect (exit kind lastActivity) (.end_ s)).connect (exit kind lastActivity)
        (entry kind a)
    | none => x.graph.connect (.begin_ s) (entry kind a)
  g.connect (exit kind a) (.end_ s)

/-- There is no default transition, or nothing that it leads to: `none`. -/
def removeSequenceTransitions (a : A) (g : Graph A) : Option (Graph A) := do
  let leaving ← g.defaultLeavingTransition (exit kind a)
  let arriving ← g.defaultArrivingTransition place (entry kind a)
  let g := g.removeArrivingTransition arriving (entry kind a)
  let g := g.removeLeavingTransition leaving (exit kind a)
  let successor ← g.target leaving
  let g := g.removeArrivingTransition leaving successor
  some (g.addArrivingTransition arriving successor)

/-- `removeImplicitTransitions`, of all structures. -/
def removeImplicitTransitions (p a : A) (g : Graph A) : Option (Graph A) :=
  if kind p = .sequence then removeSequenceTransitions kind place a g
  else some (g.disconnectAll (implicit kind p a))

/-! ## Children -/

def removeActivity (p a : A) (x : Activities A) : Option (Activities A) := do
  let graph ← removeImplicitTransitions kind place p a x.graph
  some {
    graph
    children := Function.update x.children p ((x.children p).erase a)
    parent := Function.update x.parent a none }

def removeNode (p a : A) (x : Activities A) : Option (Activities A) :=
  if a ∈ x.children p then removeActivity kind place p a x else some x

def detachFromParent (a : A) (x : Activities A) : Option (Activities A) :=
  match x.parent a with
  | none => some x
  | some p => do
    let x ← removeNode kind place p a x
    some { x with parent := Function.update x.parent a none }

/-- `addActivity` of a sequence. -/
def addActivity (s a : A) (x : Activities A) : Option (Activities A) := do
  let x := { x with graph := addImplicitTransitions kind s a x }
  let x ← detachFromParent kind place a x
  some {
    graph := x.graph
    children := Function.update x.children s (x.children s ++ [a])
    parent := Function.update x.parent a (some s) }

/-- `reorderNode` of a sequence. -/
def reorderNode (s : A) (oldIndex newIndex : ℕ) (x : Activities A) : Option (Activities A) := do
  let reorderedActivity ← (x.children s)[oldIndex]?
  let activities := (x.children s).eraseIdx oldIndex
  let g ← removeSequenceTransitions kind place reorderedActivity x.graph
  let predecessor ←
    (if newIndex = 0 then some (.begin_ s) else (activities[newIndex - 1]?).map (exit kind))
  let successor ←
    (if newIndex = activities.length then some (.end_ s)
      else (activities[newIndex]?).map (entry kind))
  let leaving ← g.defaultLeavingTransition predecessor
  let g := g.removeArrivingTransition leaving successor
  let g := g.addArrivingTransition leaving (entry kind reorderedActivity)
  let g := g.connect (exit kind reorderedActivity) successor
  some {
    x with
    graph := g
    children := Function.update x.children s (activities.insertIdx newIndex reorderedActivity) }

/-- A change of a sequence. -/
inductive Op (A : Type)
  | addNode (s activity : A)
  | removeNode (s activity : A)
  | reorderNode (s : A) (oldIndex newIndex : ℕ)

/-- The activities after a change, or `none` if it ends with an exception. -/
def apply (x : Activities A) : Op A → Option (Activities A)
  | .addNode s activity => addActivity kind place s activity x
  | .removeNode s activity => removeNode kind place s activity x
  | .reorderNode s oldIndex newIndex => reorderNode kind place s oldIndex newIndex x

/-! ## Chains -/

/-- The transitions through activities, from one node to another one. -/
def hops (m : Mark A) : List A → Mark A → List (Mark A × Mark A)
  | [], m' => [(m, m')]
  | a :: activities, m' => (m, entry kind a) :: hops (exit kind a) activities m'

end Activities

/-- The transition is the only one to leave the first node, and the only one to arrive at the
    second. -/
def Graph.Sole {A : Type} (g : Graph A) (t : ℕ) (m m' : Mark A) : Prop :=
  (∀ t', g.source t' = some m ↔ t' = t) ∧ ∀ t', g.target t' = some m' ↔ t' = t

namespace Activities

variable {A : Type} (kind : A → Kind)

/-- The transitions of a sequence are those of a chain.  A sequence that never had an activity has
    none. -/
def Chained (x : Activities A) (s : A) : Prop :=
  (x.children s = [] ∧ (∀ t, x.graph.source t ≠ some (.begin_ s)) ∧
      ∀ t, x.graph.target t ≠ some (.end_ s)) ∨
    ∀ q ∈ hops kind (.begin_ s) (x.children s) (.end_ s), ∃ t, x.graph.Sole t q.1 q.2

/-- The child of a structure that is not a sequence has the implicit transitions of that, each
    once at most, and no other ones. -/
structure Placed (x : Activities A) (p child : A) : Prop where
  arriving : ∀ t m, x.graph.source t = some m → x.graph.target t = some (entry kind child) →
    (m, entry kind child) ∈ implicit kind p child
  leaving : ∀ t m, x.graph.source t = some (exit kind child) → x.graph.target t = some m →
    (exit kind child, m) ∈ implicit kind p child
  once : ∀ q ∈ implicit kind p child, q.2 = entry kind child ∨ q.1 = exit kind child →
    ∀ t t', x.graph.source t = some q.1 → x.graph.target t = some q.2 →
      x.graph.source t' = some q.1 → x.graph.target t' = some q.2 → t = t'

/-- Activities are connected as their parents connect them, and not at all without a parent. -/
structure Connected (x : Activities A) : Prop where
  consistent : x.graph.Consistent
  parent : ∀ p c, c ∈ x.children p ↔ x.parent c = some p
  nodup : ∀ p, (x.children p).Nodup
  irrefl : ∀ c, x.parent c ≠ some c
  sequence : ∀ s, kind s = .sequence → x.Chained kind s
  other : ∀ p, kind p ≠ .sequence → ∀ c ∈ x.children p, x.Placed kind p c
  root : ∀ c, x.parent c = none →
    (∀ t, x.graph.target t ≠ some (entry kind c)) ∧ ∀ t, x.graph.source t ≠ some (exit kind c)

end Activities

end Bpel

end Jbpm
