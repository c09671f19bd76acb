/-
  The JMS listeners of a process: those that `IntegrationControl` registers,
  those that the integration services of running transactions hold, and those
  that are open at the JMS provider.

  Transactions overlap.  What they do to tokens stays their own until they
  commit, and a transaction whose tokens another one has changed since cannot
  commit any more.  What they do to listeners is seen by all at once.

  * `step`: what a transaction, a delivery or the life cycle of the process does;
  * `Legal`: what the JMS provider and the database grant.
-/
import Jbpm.Lib.Run
import Mathlib.Data.List.Perm.Basic
import Mathlib.Data.Nat.Notation
import Mathlib.Logic.Function.Basic

namespace Jbpm

open Lib

/-- `RequestListener.Key` -/
structure RequestKey where
  receiveActionId : ℕ
  tokenId : ℕ
  deriving DecidableEq

/-- What a listener waits for. -/
inductive ListenerKind
  | start (receiveActionId : ℕ)
  | request (key : RequestKey) (oneShot : Bool)
  deriving DecidableEq

/-- The state of the message consumer of a listener: it has a message listener
    once it is open. -/
inductive ConsumerStatus
  | created
  | opened
  | closed
  deriving DecidableEq

structure Listener where
  kind : ListenerKind
  status : ConsumerStatus
  /-- `onMessage` is under way -/
  busy : Bool
  deriving DecidableEq

/-- Whether one message is the end of the listener: a start listener leaves a
    clone behind, the listeners of event handlers stay. -/
def ListenerKind.oneShot : ListenerKind → Bool
  | start _ => true
  | request _ oneShot => oneShot

/-- A transaction: the context in which a message is delivered, a timer fires or
    a client signals. -/
structure ListenerTx where
  /-- the listener whose message is delivered -/
  listener : Option ℕ
  /-- the listeners that its `JmsIntegrationService` created -/
  requestListeners : List ℕ
  /-- the tokens that begin or cease to wait, latest first -/
  writes : List (RequestKey × Option Bool)
  /-- another transaction has committed a change of the same tokens -/
  stale : Bool
  /-- the pairs, waiting in the database, whose listener it took out of the
      registry -/
  taken : List RequestKey

/-- Whether a token waits at a receive action, as the transaction sees it. -/
def ListenerTx.view (x : ListenerTx) (waiting : RequestKey → Option Bool) (k : RequestKey) :
    Option Bool :=
  (x.writes.lookup k).getD (waiting k)

structure ListenerRegistry where
  /-- the JMS connection is open -/
  connected : Bool
  /-- inbound message activities are enabled -/
  enabled : Bool
  startListeners : List ℕ
  requestListeners : RequestKey → Option ℕ
  /-- all listeners ever created, by identity -/
  listener : ℕ → Listener
  next : ℕ
  /-- the receive actions at which tokens wait in the database, and whether
      they wait for one message only -/
  waiting : RequestKey → Option Bool
  tx : ℕ → Option ListenerTx

namespace ListenerRegistry

variable (s : ListenerRegistry)

/-! ## The registry -/

/-- The constructors of the two listeners end with their registration. -/
def addStartListener (receiveActionId : ℕ) (status : ConsumerStatus) : ListenerRegistry :=
  { s with
    startListeners := s.startListeners ++ [s.next]
    listener := Function.update s.listener s.next ⟨.start receiveActionId, status, false⟩
    next := s.next + 1 }

def addRequestListener (k : RequestKey) (oneShot : Bool) : ListenerRegistry :=
  { s with
    requestListeners := Function.update s.requestListeners k (some s.next)
    listener := Function.update s.listener s.next ⟨.request k oneShot, .created, false⟩
    next := s.next + 1 }

def setStatus (l : ℕ) (status : ConsumerStatus) (m : ℕ → Listener) : ℕ → Listener :=
  Function.update m l { m l with status }

def setBusy (l : ℕ) (busy : Bool) (m : ℕ → Listener) : ℕ → Listener :=
  Function.update m l { m l with busy }

/-! ## Transactions -/

/-- The token ceases to wait, if it does in the eyes of the transaction. -/
def leave (k : RequestKey) (x : ListenerTx) : ListenerTx :=
  if (x.view s.waiting k).isSome then { x with writes := (k, none) :: x.writes } else x

/-- The transaction took the listener of `k`. -/
def take (k : RequestKey) (x : ListenerTx) : ListenerTx :=
  if (s.waiting k).isSome then { x with taken := k :: x.taken } else x

def beginTx (t : ℕ) (listener : Option ℕ) : ListenerRegistry :=
  { s with tx := Function.update s.tx t (some ⟨listener, [], [], false, []⟩) }

@[simp, grind =] theorem beginTx_startListeners (t : ℕ) (l : Option ℕ) :
    (s.beginTx t l).startListeners = s.startListeners := rfl
@[simp, grind =] theorem beginTx_requestListeners (t : ℕ) (l : Option ℕ) :
    (s.beginTx t l).requestListeners = s.requestListeners := rfl
@[simp, grind =] theorem beginTx_listener (t : ℕ) (l : Option ℕ) :
    (s.beginTx t l).listener = s.listener := rfl
@[simp, grind =] theorem beginTx_waiting (t : ℕ) (l : Option ℕ) :
    (s.beginTx t l).waiting = s.waiting := rfl
@[simp, grind =] theorem beginTx_enabled (t : ℕ) (l : Option ℕ) :
    (s.beginTx t l).enabled = s.enabled := rfl

/-- `StartListener.onMessage`, up to the delivery of the request. -/
def startMessage (t l receiveActionId : ℕ) : ListenerRegistry :=
  (({ s with startListeners := s.startListeners.erase l, listener := setBusy l true s.listener }
    ).addStartListener receiveActionId .opened).beginTx t (some l)

/-- `RequestListener.onMessage`, up to the delivery of the request: a one-shot
    listener removes itself, unless another one has its place. -/
def requestMessage (t l : ℕ) (k : RequestKey) (oneShot : Bool) : ListenerRegistry :=
  let x : ListenerTx := ⟨some l, [], [], false, []⟩
  let x := if oneShot then s.leave k x else x
  if oneShot = true ∧ s.requestListeners k = some l then
    { s with
      requestListeners := Function.update s.requestListeners k none
      listener := setBusy l true s.listener
      tx := Function.update s.tx t (some (s.take k x)) }
  else
    { s with
      listener := setBusy l true s.listener
      tx := Function.update s.tx t (some x) }

def onMessage (t l : ℕ) : ListenerRegistry :=
  match (s.listener l).kind with
  | .start receiveActionId => s.startMessage t l receiveActionId
  | .request k oneShot => s.requestMessage t l k oneShot

/-- A transaction changes its own record. -/
def modifyTx (t : ℕ) (f : ListenerTx → ListenerTx) : ListenerRegistry :=
  { s with tx := Function.update s.tx t ((s.tx t).map f) }

/-- `jmsReceive`: the listener is registered at once and opened when the service
    is closed. -/
def jmsReceive (t : ℕ) (k : RequestKey) (oneShot : Bool) : ListenerRegistry :=
  (s.addRequestListener k oneShot).modifyTx t fun x =>
    { x with requestListeners := x.requestListeners ++ [s.next] }

/-- A token begins to wait at a receive action.  Without a connection no session
    can be made and an exception is thrown. -/
def receive (t : ℕ) (k : RequestKey) (oneShot : Bool) : ListenerRegistry :=
  if s.connected then
    (s.modifyTx t fun x => { x with writes := (k, some oneShot) :: x.writes }).jmsReceive t k oneShot
  else s

/-- `jmsCancelReception`: the listener is closed at once. -/
def cancelReception (t : ℕ) (k : RequestKey) : ListenerRegistry :=
  match s.requestListeners k with
  | none => s.modifyTx t (s.leave k)
  | some l =>
    { s with
      requestListeners := Function.update s.requestListeners k none
      listener := setStatus l .closed s.listener }.modifyTx t fun x =>
        s.take k { s.leave k x with requestListeners := x.requestListeners.erase l }

/-- How the context of a transaction is closed. -/
inductive Outcome
  | committed
  /-- the commit is fine, but the message cannot be acknowledged -/
  | unacknowledged
  /-- marked for rollback, for a recoverable exception or another one: the
      provider delivers the message again or does not -/
  | rolledBack
  /-- the commit fails, in a transaction that is not marked for rollback -/
  | commitFailed
  deriving DecidableEq

def Outcome.commits : Outcome → Bool
  | committed | unacknowledged => true
  | rolledBack | commitFailed => false

/-- `openRequestListeners` ends at the first listener that is closed. -/
def openRequestListeners : List ℕ → (ℕ → Listener) → Bool × (ℕ → Listener)
  | [], m => (true, m)
  | l :: ls, m =>
    if (m l).status = .closed then (false, m)
    else openRequestListeners ls (setStatus l .opened m)

def closeRequestListeners (ls : List ℕ) (m : ℕ → Listener) : ℕ → Listener :=
  ls.foldl (fun m l => setStatus l .closed m) m

/-- The database takes over the changes of `x`. -/
def commit (x : ListenerTx) : ListenerRegistry :=
  { s with
    waiting := x.view s.waiting
    tx := fun u => (s.tx u).map fun y =>
      { y with stale := y.stale || y.writes.any fun w => (x.writes.lookup w.1).isSome } }

/-- The rest of `onMessage`: the listener is closed only if all went well. -/
def afterDelivery (listener : Option ℕ) (ok : Bool) (m : ℕ → Listener) : ℕ → Listener :=
  match listener with
  | none => m
  | some l =>
    if ok = true ∧ (m l).kind.oneShot = true then setBusy l false (setStatus l .closed m)
    else setBusy l false m

/-- The context is closed: the persistence service first, then the integration
    service, which looks at the mark for rollback only. -/
def finish (t : ℕ) (o : Outcome) : ListenerRegistry :=
  match s.tx t with
  | none => s
  | some x =>
    let s₁ := if o.commits then s.commit x else s
    let r := if o = .rolledBack then (true, closeRequestListeners x.requestListeners s₁.listener)
      else openRequestListeners x.requestListeners s₁.listener
    { s₁ with
      listener := afterDelivery x.listener (o = .committed ∧ r.1 = true) r.2
      tx := Function.update s₁.tx t none }

/-! ## The life cycle of the process -/

def isRegistered (l : ℕ) : Prop :=
  match (s.listener l).kind with
  | .start _ => l ∈ s.startListeners
  | .request k _ => s.requestListeners k = some l

instance (l : ℕ) : Decidable (s.isRegistered l) := by
  unfold isRegistered
  split <;> infer_instance

/-- `enableInboundMessageActivities`: `receiveActions` are those of the start
    activities, `tokens` what the queries for waiting tokens find. -/
def enable (receiveActions : List ℕ) (t : ℕ) (tokens : List (RequestKey × Bool)) :
    ListenerRegistry :=
  tokens.foldl (fun s e => s.jmsReceive t e.1 e.2)
    (receiveActions.foldl (fun s a => s.addStartListener a .opened)
      { s with connected := true, enabled := true })

/-- `disableInboundMessageActivities`, up to the connection. -/
def disable : ListenerRegistry :=
  { s with
    enabled := false
    startListeners := []
    requestListeners := fun _ => none
    listener := fun l => if s.isRegistered l then { s.listener l with status := .closed }
      else s.listener l }

/-- `closeJmsConnection`: all consumers of a connection close with it. -/
def closeJmsConnection : ListenerRegistry :=
  { s with
    connected := false
    listener := fun l => { s.listener l with status := .closed } }

/-! ## Runs -/

inductive Op
  | beginTx (t : ℕ)
  | deliver (t l : ℕ)
  | receive (t : ℕ) (k : RequestKey) (oneShot : Bool)
  | cancelReception (t : ℕ) (k : RequestKey)
  | finish (t : ℕ) (o : Outcome)
  | enable (t : ℕ) (tokens : List (RequestKey × Bool))
  | disable
  | closeJmsConnection

def step (receiveActions : List ℕ) (s : ListenerRegistry) : Op → ListenerRegistry
  | .beginTx t => s.beginTx t none
  | .deliver t l => s.onMessage t l
  | .receive t k oneShot => s.receive t k oneShot
  | .cancelReception t k => s.cancelReception t k
  | .finish t o => s.finish t o
  | .enable t tokens => s.enable receiveActions t tokens
  | .disable => s.disable
  | .closeJmsConnection => s.closeJmsConnection

/-- What others grant: a message is delivered to an open listener that is not at
    work, a stale transaction does not commit, the queries find the waiting
    tokens, and a connection closes after the deliveries under way. -/
def Legal (s : ListenerRegistry) : Op → Prop
  | .beginTx t => s.tx t = none
  | .deliver t l => s.tx t = none ∧ (s.listener l).status = .opened ∧ (s.listener l).busy = false
  | .receive t _ _ | .cancelReception t _ => s.tx t ≠ none
  | .finish t o => ∃ x, s.tx t = some x ∧ (o.commits = true → x.stale = false)
  | .enable t tokens => s.tx t ≠ none ∧ s.connected = false ∧ (tokens.map Prod.fst).Nodup ∧
      ∀ k b, (k, b) ∈ tokens ↔ s.waiting k = some b
  | .disable => s.enabled = true
  | .closeJmsConnection => s.enabled = false ∧ ∀ l, (s.listener l).busy = false

/-- The process before it is enabled; tokens may wait from earlier times. -/
def init (waiting : RequestKey → Option Bool) : ListenerRegistry where
  connected := false
  enabled := false
  startListeners := []
  requestListeners := fun _ => none
  listener := fun _ => ⟨.start 0, .closed, false⟩
  next := 0
  waiting := waiting
  tx := fun _ => none

abbrev Steps (receiveActions : List ℕ) : ListenerRegistry → Op → ListenerRegistry → Prop :=
  guard Legal fun s o s' => s' = step receiveActions s o

end ListenerRegistry

end Jbpm
