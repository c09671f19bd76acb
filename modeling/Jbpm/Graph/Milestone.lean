/-
  Milestones: tokens wait in a milestone-node until a milestone event marks the milestone as
  reached.

  * `Tokens.findToken`: relative token paths;
  * `Work`: what is left to be done of the calls that are being executed, the innermost first;
  * `doLeave`, `doExecute`, `doEvent`, ...: nodes, transitions and milestone events, one call at
    a time;
  * `Op`, `step`: tokens arrive, wait states are signalled, milestone events are executed.

  The variable of a milestone is looked up from the token on and is set on the root token, so
  there is one milestone instance of each name, as long as no other variable has that name.
  The listeners are a set, which is iterated over in any order, and is not changed meanwhile,
  since the milestone has been reached then.  Nodes have the leaving transitions
  of their super-states, and no conditions.
-/
import Mathlib.Data.Nat.Notation
import Mathlib.Logic.Function.Basic
import Jbpm.Lib.Run

namespace Jbpm

namespace Milestone

/-! ## Token paths -/

/-- The tokens of a process instance.  `children` is `null` until a token has a child. -/
structure Tokens (T : Type) where
  rootToken : T
  parent : T → Option T
  children : T → Option (List Char → Option T)

/-- `String.trim` -/
def trim (s : List Char) : List Char :=
  ((s.dropWhile (· ≤ ' ')).reverse.dropWhile (· ≤ ' ')).reverse

theorem length_dropWhile_le {α : Type} (p : α → Bool) (l : List α) :
    (l.dropWhile p).length ≤ l.length :=
  (List.dropWhile_sublist p).length_le

theorem length_trim_le (s : List Char) : (trim s).length ≤ s.length := by
  rw [trim, List.length_reverse]
  refine Nat.le_trans (length_dropWhile_le _ _) ?_
  rw [List.length_reverse]
  exact length_dropWhile_le _ _

variable {T N : Type}

/-- `findToken(relativeTokenPath)`, of a string.  There may be no such token; a path through a
    child throws without any children. -/
def Tokens.findPath (S : Tokens T) (t : T) (relativeTokenPath : List Char) :
    Option (Option T) :=
  match _ : trim relativeTokenPath with
  | [] => some (some t)
  | ['.'] => some (some t)
  | ['.', '.'] => some (S.parent t)
  | '/' :: path => S.findPath S.rootToken path
  | '.' :: '/' :: path => S.findPath t path
  | '.' :: '.' :: '/' :: path =>
    match S.parent t with
    | some p => S.findPath p path
    | none => some none
  | path =>
    match _ : path.dropWhile (· ≠ '/') with
    | [] => some ((S.children t).bind (· path))
    | _ :: rest =>
      match S.children t with
      | none => none
      | some children =>
        match children (path.takeWhile (· ≠ '/')) with
        | some token => S.findPath token rest
        | none => some none
termination_by relativeTokenPath.length
decreasing_by
  all_goals
    have hle := ‹trim relativeTokenPath = _› ▸ length_trim_le relativeTokenPath
    first
      | have hrest := ‹path.dropWhile (· ≠ '/') = _› ▸ length_dropWhile_le (· ≠ '/') path
        exact Nat.lt_of_lt_of_le hrest hle
      | simp only [List.length_cons] at hle
        omega

def Tokens.findToken (S : Tokens T) (t : T) : Option (List Char) → Option (Option T)
  | none => some none
  | some relativeTokenPath => S.findPath t relativeTokenPath

/-! ## Nodes -/

structure MilestoneEvent where
  milestoneName : String
  relativeTokenPath : Option (List Char)

structure Transition (N : Type) where
  to_ : N
  /-- the milestone events among the actions of the transition -/
  events : List MilestoneEvent

/-- A node waits, or leaves at once, or is a milestone-node. -/
inductive Kind where
  | state
  | node
  | milestoneNode (tokenPath : Option (List Char))

structure Node (N : Type) where
  name : String
  kind : Kind
  /-- the milestone events among the actions of `node-enter` and `node-leave` -/
  nodeEnter : List MilestoneEvent
  nodeLeave : List MilestoneEvent
  leavingTransitions : List (Transition N)

/-! ## The state -/

structure MilestoneInstance (T : Type) where
  reached : Bool
  listeners : List T

/-- Ghost state: a stay of a token in a node, how many times it has been told to leave it, and
    how many times it was signalled there. -/
structure Stay (N : Type) where
  node : N
  leaves : ℕ
  signals : ℕ
  deriving DecidableEq

/-- A token.  Ghost state: its stays in nodes, the last one first. -/
structure Token (N : Type) where
  node : Option N
  stays : List (Stay N)

inductive Work (T N : Type) where
  | leave (t : T) (transition : Option (Transition N))
  | take (t : T) (transition : Transition N)
  | enter (t : T) (n : N)
  | execute (t : T) (n : N)
  | event (t : T) (e : MilestoneEvent)
  /-- the rest of the iteration of `notifyListeners` -/
  | notify (ts : List T)

/-- Ghost state: the milestones marked as reached, by their name and their token. -/
structure State (T N : Type) where
  token : T → Token N
  milestone : String → MilestoneInstance T
  work : List (Work T N)
  marked : List (String × T)

def State.init : State T N where
  token _ := { node := none, stays := [] }
  milestone _ := { reached := false, listeners := [] }
  work := []
  marked := []

/-! ## Calls -/

def Token.left (x : Token N) : Token N :=
  { x with
    stays := match x.stays with
      | [] => []
      | y :: ys => { y with leaves := y.leaves + 1 } :: ys }

def Token.signalled (x : Token N) : Token N :=
  { x with
    stays := match x.stays with
      | [] => []
      | y :: ys => { y with signals := y.signals + 1 } :: ys }

def Token.entered (x : Token N) (n : N) : Token N :=
  { node := some n, stays := { node := n, leaves := 0, signals := 0 } :: x.stays }

variable [DecidableEq T] (S : Tokens T) (G : N → Node N)

def State.setToken (s : State T N) (t : T) (x : Token N) : State T N :=
  { s with token := Function.update s.token t x }

def State.push (s : State T N) (ws : List (Work T N)) : State T N :=
  { s with work := ws ++ s.work }

/-- `node.leave(executionContext)` of the node of the token -/
def doLeave (t : T) (transition : Option (Transition N)) (s : State T N) :
    Option (State T N) := do
  let n ← (s.token t).node
  let transition ← transition.or (G n).leavingTransitions.head?
  some ((s.setToken t (s.token t).left).push
    ((G n).nodeLeave.map (.event t) ++ [.take t transition]))

/-- `transition.take(executionContext)` -/
def doTake (t : T) (transition : Transition N) (s : State T N) : State T N :=
  (s.setToken t { s.token t with node := none }).push
    (transition.events.map (.event t) ++ [.enter t transition.to_])

def doEnter (t : T) (n : N) (s : State T N) : State T N :=
  (s.setToken t ((s.token t).entered n)).push ((G n).nodeEnter.map (.event t) ++ [.execute t n])

/-- `mi.addListener(token)`, on a set -/
def addMilestoneListener (name : String) (t : T) (s : State T N) : State T N :=
  { s with
    milestone := Function.update s.milestone name { s.milestone name with
      listeners := if t ∈ (s.milestone name).listeners then (s.milestone name).listeners
        else t :: (s.milestone name).listeners } }

def doExecute (t : T) (n : N) (s : State T N) : Option (State T N) :=
  match (G n).kind with
  | .state => some s
  | .node => some (s.push [.leave t none])
  | .milestoneNode tokenPath => do
    let milestoneToken ← (← S.findToken t tokenPath)
    if (s.milestone (G n).name).reached then some (s.push [.leave t none])
    else some (addMilestoneListener (G n).name milestoneToken s)

/-- `MilestoneEvent.execute`; `ts` are the listeners, as they are iterated over. -/
def doEvent (t : T) (e : MilestoneEvent) (ts : List T) (s : State T N) : Option (State T N) :=
  if ts.isPerm (s.milestone e.milestoneName).listeners then
    some ({ s with
      milestone := Function.update s.milestone e.milestoneName
        { s.milestone e.milestoneName with reached := true }
      marked := match S.findToken t e.relativeTokenPath with
        | some (some M) => (e.milestoneName, M) :: s.marked
        | _ => s.marked }.push [.notify ts])
  else none

/-! ## Steps -/

inductive Op (T N : Type) where
  | arrive (t : T) (n : N)
  | signal (t : T) (transition : Transition N)
  | event (t : T) (e : MilestoneEvent)
  /-- the execution goes on -/
  | work (ts : List T)

def Kind.isState : Kind → Bool
  | .state => true
  | _ => false

/-- A token that was not in a node yet arrives in one, a token in a wait state is signalled, a
    milestone event is executed; then the calls are worked off before anything else happens. -/
def step (s : State T N) : Op T N → Option (State T N)
  | .arrive t n =>
    if s.work.isEmpty && (s.token t).node.isNone then some (s.push [.enter t n]) else none
  | .signal t transition => do
    let n ← (s.token t).node
    if s.work.isEmpty && (G n).kind.isState then
      some ((s.setToken t (s.token t).signalled).push [.leave t (some transition)])
    else none
  | .event t e => if s.work.isEmpty then some (s.push [.event t e]) else none
  | .work ts =>
    match s.work with
    | [] => none
    | w :: ws =>
      let s := { s with work := ws }
      match w with
      | .leave t transition => doLeave G t transition s
      | .take t transition => some (doTake t transition s)
      | .enter t n => some (doEnter G t n s)
      | .execute t n => doExecute S G t n s
      | .event t e => doEvent S t e ts s
      | .notify [] => some s
      | .notify (u :: us) => some (s.push [.leave u none, .notify us])

end Milestone

end Jbpm
