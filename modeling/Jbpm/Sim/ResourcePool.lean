/-
  Simulated tasks and states that share resource pools.

  * `consumeResources`, `acquireResourcesAndStart`, `resourceReleased`: entities that use
    resources;
  * `checkWaitingQueue`: the wake-up of the first entity that waits for a pool;
  * `Op`, `step`: entities arrive, and the completion of their work releases the pools they have
    acquired, one by one.

  Queues are lists, the first one first.  The resources of a pool are numbered.  The requirements
  of an entity do not change, and pools that are required are defined.
-/
import Mathlib.Data.List.Dedup
import Mathlib.Logic.Function.Basic
import Jbpm.Lib.Run

namespace Jbpm

namespace Sim

/-! ## The model -/

structure ResourceRequirement (P : Type) where
  resourcePoolName : P
  amount : ℕ

/-- The capacities of the pools, and what the entities require: positive amounts that the pool
    can provide. -/
structure Scenario (E P : Type) where
  capacity : P → ℕ
  getRequiredResources : E → List (ResourceRequirement P)
  amount_pos : ∀ e, ∀ r ∈ getRequiredResources e, 0 < r.amount
  amount_le : ∀ e, ∀ r ∈ getRequiredResources e, r.amount ≤ capacity r.resourcePoolName

/-- Ghost state: how often the entity has been started, and the pools it has released. -/
structure Entity (P : Type) where
  acquiredResourceEntities : P → Option (List ℕ)
  missingResources : List P
  starts : ℕ
  released : List P

/-- `pool` and `resourceQueue` of the pools, the entities that a work completion is scheduled
    for, and the one that is releasing its resources, with the pools still to be released.
    Ghost state: the entities that have arrived. -/
structure State (E P : Type) where
  pool : P → List ℕ
  resourceQueue : P → List E
  entity : E → Entity P
  scheduled : List E
  releasing : Option (E × List P)
  arrived : List E

variable {E P : Type} [DecidableEq E] [DecidableEq P] (W : Scenario E P)

def State.init : State E P where
  pool p := List.range (W.capacity p)
  resourceQueue _ := []
  entity _ :=
    { acquiredResourceEntities := fun _ => none, missingResources := [], starts := 0,
      released := [] }
  scheduled := []
  releasing := none
  arrived := []

def State.setEntity (s : State E P) (e : E) (x : Entity P) : State E P :=
  { s with entity := Function.update s.entity e x }

/-- What an entity holds of a pool: what it has acquired, until it releases it. -/
def Entity.held (x : Entity P) (p : P) : List ℕ :=
  if p ∈ x.released then [] else (x.acquiredResourceEntities p).getD []

/-! ## `ResourceUsingEntity` -/

/-- `acquiredResourceEntities.put(poolName, result)` -/
def Entity.put (x : Entity P) (p : P) (result : List ℕ) : Entity P :=
  { x with acquiredResourceEntities :=
      Function.update x.acquiredResourceEntities p (some result) }

/-- Takes `n` resources of the pool, or queues up for it. -/
def consumeResources (e : E) (p : P) (n : ℕ) (s : State E P) : Option (Bool × State E P) :=
  if W.capacity p < n then none
  else if (s.pool p).isEmpty || decide ((s.pool p).length < n) then
    some (false,
      { s with resourceQueue := Function.update s.resourceQueue p (s.resourceQueue p ++ [e]) })
  else
    some (true,
      { s with pool := Function.update s.pool p ((s.pool p).drop n) }.setEntity e
        ((s.entity e).put p ((s.pool p).take n)))

/-- `missingResources.add(poolName)`, on a set -/
def Entity.addMissing (x : Entity P) (p : P) : Entity P :=
  { x with missingResources :=
      if p ∈ x.missingResources then x.missingResources else x.missingResources ++ [p] }

def Entity.removeMissing (x : Entity P) (p : P) : Entity P :=
  { x with missingResources := x.missingResources.filter (· ≠ p) }

/-- Starts the work, and schedules its completion. -/
def start (e : E) (s : State E P) : State E P :=
  { s.setEntity e { s.entity e with starts := (s.entity e).starts + 1 } with
    scheduled := s.scheduled ++ [e] }

/-- The loop of `acquireResourcesAndStart`. -/
def acquireResources (e : E) : List (ResourceRequirement P) → State E P → Option (State E P)
  | [], s => some s
  | r :: rs, s => do
    let (acquired, s) ← consumeResources W e r.resourcePoolName r.amount s
    if acquired then acquireResources e rs s
    else acquireResources e rs (s.setEntity e ((s.entity e).addMissing r.resourcePoolName))

def startIfComplete (e : E) (s : State E P) : Bool × State E P :=
  if (s.entity e).missingResources = [] then (true, start e s) else (false, s)

def acquireResourcesAndStart (e : E) (s : State E P) : Option (State E P) := do
  let s ← acquireResources W e (W.getRequiredResources e) s
  some (startIfComplete e s).2

/-- "I am informed of a released resource": throws if the entity does not wait for it. -/
def resourceReleased (e : E) (p : P) (s : State E P) : Option (Bool × State E P) :=
  if p ∈ (s.entity e).missingResources then
    match (W.getRequiredResources e).find? (·.resourcePoolName = p) with
    | none => some (startIfComplete e s)
    | some r => do
      let (acquired, s) ← consumeResources W e p r.amount s
      some (startIfComplete e
        (if acquired then s.setEntity e ((s.entity e).removeMissing p) else s))
  else none

/-- `JbpmSimulationModel.checkWaitingQueue` -/
def checkWaitingQueue (p : P) (s : State E P) : Option (State E P) :=
  match s.resourceQueue p with
  | [] => some s
  | e :: _ => do
    let (started, s) ← resourceReleased W e p s
    if started then
      some { s with
        resourceQueue := Function.update s.resourceQueue p ((s.resourceQueue p).erase e) }
    else some s

/-- The body of the loop of `releaseResources`. -/
def releaseResources (e : E) (p : P) (s : State E P) : Option (State E P) :=
  let x := s.entity e
  let resourceEntities := (x.acquiredResourceEntities p).getD []
  checkWaitingQueue W p
    ({ s with pool := Function.update s.pool p (s.pool p ++ resourceEntities) }.setEntity e
      { x with released := p :: x.released })

/-! ## Steps -/

/-- `acquiredResourceEntities.keySet()`, in some order -/
def keySet (e : E) (s : State E P) : List P :=
  (((W.getRequiredResources e).map (·.resourcePoolName)).filter fun p =>
    ((s.entity e).acquiredResourceEntities p).isSome).dedup

/-- A simulated task or state arrives, its work completes, and `releaseResources` goes on. -/
inductive Op (E P : Type) where
  | arrive (e : E)
  | complete (e : E) (poolNames : List P)
  | release

def step (s : State E P) : Op E P → Option (State E P)
  | .arrive e =>
    if s.releasing.isNone && decide (e ∉ s.arrived) then
      acquireResourcesAndStart W e { s with arrived := s.arrived ++ [e] }
    else none
  | .complete e poolNames =>
    if s.releasing.isNone && decide (e ∈ s.scheduled) && poolNames.isPerm (keySet W e s) then
      some { s with scheduled := s.scheduled.erase e, releasing := some (e, poolNames) }
    else none
  | .release =>
    match s.releasing with
    | none => none
    | some (_, []) => some { s with releasing := none }
    | some (e, p :: poolNames) =>
      releaseResources W e p { s with releasing := some (e, poolNames) }

end Sim

end Jbpm
