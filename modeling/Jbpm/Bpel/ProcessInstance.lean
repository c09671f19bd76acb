/-
  How activities are entered: the tokens, receptions, timers, links and scope
  instances that a process instance gets until it waits.

  The activities that a message can start a process with are modelled here:
  receive, pick, sequence, flow and scope.  What any other activity does once it
  executes, and what becomes of a fault, is the business of an `Engine`.
-/
import Jbpm.Integration.Correlation
import Mathlib.Data.List.Basic

namespace Jbpm

/-- A receive action and the initiate modes of its correlations. -/
structure ReceiveAction where
  id : ℕ
  initiates : List Initiate
  deriving DecidableEq

/-- What all activities have: a name, and the links they are targets of. -/
structure ActivityInfo where
  id : ℕ
  name : String
  targets : List String
  deriving DecidableEq

inductive Activity
  | receive (i : ActivityInfo) (action : ReceiveAction)
  | pick (i : ActivityInfo) (onMessages : List ReceiveAction) (onAlarms : List ℕ)
  | sequence (i : ActivityInfo) (first : Activity) (rest : List Activity)
  | flow (i : ActivityInfo) (links : List String) (activities : List Activity)
  | scope (i : ActivityInfo) (onEvents : List ReceiveAction) (onAlarms : List ℕ)
      (activity : Activity)
  /-- all others; `nested` are the activities of a `repeatUntil`, `structured`
      tells whether it has a begin mark -/
  | other (i : ActivityInfo) (structured : Bool) (nested : List Activity)

/-- The nodes a token can stand on. -/
inductive ActivityNode
  | activity (id : ℕ)
  | begin_ (id : ℕ)
  deriving DecidableEq

namespace Activity

def info : Activity → ActivityInfo
  | receive i _ | pick i _ _ | sequence i _ _ | flow i _ _ | scope i _ _ _ | other i _ _ => i

/-- The node that `enter` puts the token on: structured activities hand over to
    their begin mark. -/
def node : Activity → ActivityNode
  | receive i _ | scope i _ _ _ | other i false _ => .activity i.id
  | pick i _ _ | sequence i _ _ | flow i _ _ | other i true _ => .begin_ i.id

end Activity

/-! ## Process instances -/

structure ActivityToken where
  parent : Option ℕ
  name : String
  node : Option ActivityNode
  ended : Bool
  deriving DecidableEq

structure LinkInst where
  holder : ℕ
  name : String
  status : Option Bool
  targetToken : Option ℕ
  deriving DecidableEq

/-- The part of a process instance that entering activities changes.  Tokens are
    known by their position. -/
structure ProcessInst where
  tokens : List ActivityToken
  links : List LinkInst
  receptions : List (ReceiveAction × ℕ)
  timers : List (ℕ × ℕ)
  /-- the scope instances, all in the primary state, with their tokens -/
  scopes : List (ℕ × ℕ)
  deriving DecidableEq

/-- Execution that does not reach its end: a fault leaves what was done so far,
    and a link without instance is a null pointer. -/
inductive Interruption
  | fault (p : ProcessInst)
  | nullPointer

abbrev Executed := Except Interruption ProcessInst

/-- What is not modelled here. -/
structure Engine where
  /-- `execute` of the other activities -/
  perform : ActivityInfo → ℕ → ProcessInst → Executed
  /-- the join condition of an activity whose links are determined; if it is
      false the activity is skipped -/
  joinCondition : ActivityInfo → ℕ → ProcessInst → Except Interruption (Bool × ProcessInst)
  /-- `raiseException` -/
  raise : ℕ → ProcessInst → Executed
  /-- the expression of an alarm has a value -/
  due : ℕ → Bool

namespace ProcessInst

variable (p : ProcessInst)

/-- `new Token(parent, name)`: it starts on the node of its parent. -/
def newToken (parent : ℕ) (name : String) : ProcessInst :=
  { p with tokens := p.tokens ++ [⟨some parent, name, (p.tokens[parent]?).bind (·.node), false⟩] }

def setNode (t : ℕ) (n : ActivityNode) : ProcessInst :=
  { p with tokens := p.tokens.modify t fun k => { k with node := some n } }

def hasEnded (t : ℕ) : Bool := (p.tokens[t]?).any (·.ended)

/-- `receive` of the integration service.  No correlation set is initialised
    before the first message is delivered, so a reception that must know its
    values raises a violation. -/
def receive (a : ReceiveAction) (t : ℕ) : Executed :=
  if .no ∈ a.initiates then .error (.fault p)
  else .ok { p with receptions := p.receptions ++ [(a, t)] }

def receiveAll : List ReceiveAction → ℕ → ProcessInst → Executed
  | [], _, p => .ok p
  | a :: as, t, p => do receiveAll as t (← p.receive a t)

def createTimers (e : Engine) : List ℕ → ℕ → ProcessInst → Executed
  | [], _, p => .ok p
  | a :: as, t, p =>
    if e.due a then createTimers e as t { p with timers := p.timers ++ [(a, t)] }
    else .error (.fault p)

/-! ## Links -/

/-- The variable of the link, looked up from the token upwards; parents come
    before their children. -/
def findLink (name : String) : ℕ → ℕ → Option ℕ
  | 0, _ => none
  | n + 1, t =>
    match p.links.findIdx? fun l => l.holder = t ∧ l.name = name with
    | some i => some i
    | none =>
      match (p.tokens[t]?).bind (·.parent) with
      | none => none
      | some parent => findLink name n parent

/-- `LinkDefinition.getInstance` -/
def linkInstance (t : ℕ) (name : String) : Option ℕ := p.findLink name (t + 1) t

def setTargetsToken (t : ℕ) : List String → ProcessInst → Executed
  | [], p => .ok p
  | name :: names, p =>
    match p.linkInstance t name with
    | none => .error .nullPointer
    | some i => setTargetsToken t names
        { p with links := p.links.modify i fun l => { l with targetToken := some t } }

def areTargetsDetermined (t : ℕ) (names : List String) : Bool :=
  names.all fun name => match p.linkInstance t name with
    | none => false
    | some i => (p.links[i]?).any fun l => l.status.isSome

/-- `Flow.initializeLinks`: the token that holds them, if there are any. -/
def initializeLinks (name : String) (links : List String) (t : ℕ) : ProcessInst × ℕ :=
  if links.isEmpty then (p, t)
  else ({ p.newToken t name with
      links := p.links ++ links.map fun l => ⟨p.tokens.length, l, none, none⟩ },
    p.tokens.length)

/-- `Flow.createConcurrentTokens`: the first of the new tokens. -/
def createConcurrentTokens (activities : List Activity) (t : ℕ) : ProcessInst × ℕ :=
  (activities.foldl (fun p a => p.newToken t a.info.name) p, p.tokens.length)

/-! ## Scopes -/

/-- `createInstance`, with the token of the primary activity. -/
def createScope (id t : ℕ) (activity : Activity) : ProcessInst :=
  { p.newToken t activity.info.name with scopes := p.scopes ++ [(id, t)] }

/-- `enableEvents`: the events token stands on the scope. -/
def enableEvents (e : Engine) (id t : ℕ) (onEvents : List ReceiveAction) (onAlarms : List ℕ) :
    Executed :=
  if onEvents.isEmpty ∧ onAlarms.isEmpty then .ok p
  else do
    let k := p.tokens.length
    createTimers e onAlarms k
      (← receiveAll onEvents k ((p.newToken t "events").setNode k (.activity id)))

end ProcessInst

open ProcessInst

/-! ## Entering activities -/

namespace Activity

/-- `Activity.enter`, around the execution of the activity. -/
def enterWith (e : Engine) (a : Activity) (execute : ℕ → ProcessInst → Executed) (t : ℕ)
    (p : ProcessInst) : Executed :=
  if p.hasEnded t then .ok p
  else
    let body : Executed := do
      let p := p.setNode t a.node
      if a.info.targets.isEmpty then execute t p
      else
        let p ← setTargetsToken t a.info.targets p
        if p.areTargetsDetermined t a.info.targets then
          let (b, p) ← e.joinCondition a.info t p
          if b then execute t p else pure p
        else pure p
    match body with
    | .error (.fault p) => e.raise t p
    | r => r

mutual

def execute (e : Engine) : Activity → ℕ → ProcessInst → Executed
  | receive _ action, t, p => p.receive action t
  | pick _ onMessages onAlarms, t, p => do createTimers e onAlarms t (← receiveAll onMessages t p)
  | sequence _ first _, t, p => enterWith e first (execute e first) t p
  | flow i links activities, t, p =>
    let (p, flowToken) := p.initializeLinks i.name links t
    let (p, k) := p.createConcurrentTokens activities flowToken
    enterConcurrent e flowToken activities k p
  | scope i onEvents onAlarms activity, t, p => do
    let k := p.tokens.length
    let p := (p.newToken t i.name).createScope i.id k activity
    let p ← p.enableEvents e i.id k onEvents onAlarms
    enterWith e activity (execute e activity) (k + 1) p
  | other i _ _, t, p => e.perform i t p

/-- The concurrent tokens of a flow, from `k` on, enter their activities. -/
def enterConcurrent (e : Engine) (flowToken : ℕ) : List Activity → ℕ → ProcessInst → Executed
  | [], _, p => .ok p
  | a :: as, k, p => do
    let p ← enterWith e a (execute e a) k p
    if p.hasEnded flowToken then .ok p else enterConcurrent e flowToken as (k + 1) p

end

def enter (e : Engine) (a : Activity) (t : ℕ) (p : ProcessInst) : Executed :=
  enterWith e a (execute e a) t p

end Activity

/-- A process is its global scope. -/
structure BpelProcess where
  info : ActivityInfo
  onEvents : List ReceiveAction
  onAlarms : List ℕ
  activity : Activity

namespace BpelProcess

/-- A new process instance: the root token. -/
def newInstance : ProcessInst := ⟨[⟨none, "", none, false⟩], [], [], [], []⟩

/-- The global scope is entered.  Its instance has the root token, where any
    other scope gets a token of its own. -/
def start (e : Engine) (d : BpelProcess) : Executed := do
  let p := (newInstance.setNode 0 (.activity d.info.id)).createScope d.info.id 0 d.activity
  let p ← p.enableEvents e d.info.id 0 d.onEvents d.onAlarms
  d.activity.enter e 1 p

end BpelProcess

end Jbpm
