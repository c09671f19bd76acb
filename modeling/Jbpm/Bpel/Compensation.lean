/-
  The compensation of scopes: the query for the next scope to compensate, and the
  signals between a scope instance, its compensator and the instances that are
  compensated.

  Every call that compensation makes is the last thing its caller does, so that a
  step runs one call and leaves the next one to be run.  What the activities of a
  process do, when they complete, fault or are terminated, comes from outside.

  * `isNext`: the query;
  * `step`: what the outside and the calls do;
  * `Legal`: what the outside can do;
  * `CompensationRequest`: a ghost, the record of what was compensated for whom.
-/
import Jbpm.Bpel.ScopeState
import Jbpm.Lib.Run
import Mathlib.Logic.Function.Basic
import Mathlib.Data.List.Infix

namespace Jbpm

open Lib ScopeState

/-- A scope, with the scopes directly within its primary activity. -/
inductive ScopeDef
  | mk (id : ℕ) (compensationHandler terminationHandler : Bool) (scopes : List ScopeDef)

namespace ScopeDef

def id : ScopeDef → ℕ
  | mk i _ _ _ => i

def hasCompensationHandler : ScopeDef → Bool
  | mk _ b _ _ => b

def hasTerminationHandler : ScopeDef → Bool
  | mk _ _ b _ => b

mutual

/-- `NestedScopeFinder.visit` of a scope -/
def visit : ScopeDef → List ℕ
  | mk i _ _ scopes => i :: visitAll scopes

def visitAll : List ScopeDef → List ℕ
  | [] => []
  | d :: ds => d.visit ++ visitAll ds

end

/-- The finder starts from the enclosed activity. -/
def findNestedScopes : ScopeDef → List ℕ
  | mk _ _ _ scopes => visitAll scopes

end ScopeDef

/-- The token that executes an activity: its nearest scope instance, and the
    branch of the handler if it is not the handler token itself. -/
structure ExeToken where
  scope : ℕ
  branch : Option ℕ
  deriving DecidableEq

inductive Compensator
  | scope (s : ℕ)
  | compensate
  | compensateScope
  deriving DecidableEq

/-- Who waits for the children of a scope instance to be compensated. -/
inductive Requester
  | scope (s : ℕ)
  | activity (token : ExeToken)
  deriving DecidableEq

def Requester.isActivity : Requester → Bool
  | scope _ => false
  | activity _ => true

def Requester.compensator : Requester → Compensator
  | scope s => .scope s
  | activity _ => .compensate

/-- The children of `enclosing` that had completed when the request was made, the
    latest first; those that `compensate` was called on, in order; and who was
    told the end. -/
structure CompensationRequest where
  enclosing : ℕ
  requester : Requester
  children : List ℕ
  done : List ℕ
  resumed : List Requester
  deriving DecidableEq

structure ScopeInst where
  definition : ScopeDef
  parent : Option ℕ
  /-- the node of the token -/
  node : ℕ
  state : ScopeState
  /-- when the token ended, if the instance completed -/
  endDate : Option ℕ
  compensator : Option Compensator
  request : Option ℕ

inductive CompensationCall
  | invokeDefaultCompensation (s : ℕ)
  | scopeCompensated (nested : ℕ)
  | childrenCompensated (s r : ℕ)
  | faulted (s : ℕ)
  deriving DecidableEq

/-- The scope that the call tells of a fault. -/
def CompensationCall.faultedScope : CompensationCall → Option ℕ
  | faulted s => some s
  | _ => none

/-- The scope instances of a process instance, all those ever created. -/
structure ScopeInsts where
  inst : ℕ → ScopeInst
  size : ℕ
  request : ℕ → CompensationRequest
  requests : ℕ
  clock : ℕ
  /-- the instances that completed, the latest first -/
  completions : List ℕ
  call : Option CompensationCall

namespace ScopeInsts

variable (p : ScopeInsts)

/-! ## The query -/

/-- The instances that `findNextScopeToCompensate` selects for the nested scopes
    of `s`: wherever they are in the process. -/
def Selected (s i : ℕ) : Prop :=
  i < p.size ∧ (p.inst i).node ∈ (p.inst s).definition.findNestedScopes ∧
    (p.inst i).state = .ea ∧ (p.inst i).endDate.isSome

def endOf (i : ℕ) : ℕ := (p.inst i).endDate.getD 0

/-- `nextChildToCompensate`: the selected instances in descending order of their
    ends, of which the first is taken. -/
def isNext (s : ℕ) : Option ℕ → Prop
  | none => ∀ i < p.size, ¬ p.Selected s i
  | some n => p.Selected s n ∧ ∀ i < p.size, p.Selected s i → p.endOf i ≤ p.endOf n

instance (s i : ℕ) : Decidable (p.Selected s i) := inferInstanceAs (Decidable (_ ∧ _))

instance (s : ℕ) : ∀ n, Decidable (p.isNext s n)
  | none => inferInstanceAs (Decidable (∀ i < p.size, _))
  | some _ => inferInstanceAs (Decidable (_ ∧ ∀ i < p.size, _))

/-! ## Signals -/

def setState (i : ℕ) (s : ScopeState) : ScopeInsts :=
  { p with inst := Function.update p.inst i { p.inst i with state := s } }

def setCall (c : CompensationCall) : ScopeInsts := { p with call := some c }

/-- `EndState.enterCompleted`, with the end of the token. -/
def enterCompleted (i now : ℕ) : ScopeInsts :=
  { p with
    inst := Function.update p.inst i { p.inst i with state := .ea, endDate := some now }
    clock := now
    completions := i :: p.completions }

/-- `EndState.enterFaulted` -/
def enterFaulted (i : ℕ) : ScopeInsts :=
  match (p.inst i).parent with
  | none => p.setState i .ef
  | some parent => (p.setState i .ef).setCall (.faulted parent)

/-- The `enter` methods of `EndState`.  That a child terminated is told to the
    parent from outside. -/
def enter (i now : ℕ) : ScopeState → ScopeInsts
  | .ea => p.enterCompleted i now
  | .ef => p.enterFaulted i
  | .ec => (p.setState i .ec).setCall (.scopeCompensated i)
  | s => p.setState i s

/-- A signal to instance `i` at time `now`; `b` tells whether events are pending
    when the primary activity completes, and whether a handler catches the fault.
    An illegal signal is an exception, which undoes the transaction. -/
def signal (i : ℕ) (x : Signal) (b : Bool) (now : ℕ) : ScopeInsts :=
  match (p.inst i).state.react x with
  | .illegal | .ignore => p
  | .terminateChildren s => p.setState i s
  | .completeActivity => if b then p.setState i .ae else p.enterCompleted i now
  | .selectFaultHandler =>
    if b then p.setState i .fe
    else (p.setState i .fd).setCall (.invokeDefaultCompensation i)
  | .selectTerminationHandler =>
    if (p.inst i).definition.hasTerminationHandler then p.setState i .te
    else (p.setState i .td).setCall (.invokeDefaultCompensation i)
  | .enterCompensating =>
    if (p.inst i).definition.hasCompensationHandler then p.setState i .ce
    else (p.setState i .cd).setCall (.invokeDefaultCompensation i)
  | .enter s => p.enter i now s
  | .endHandler => p.enter i now .ec

/-! ## Compensation -/

/-- The completed children of `s`, the latest first. -/
def completedChildren (s : ℕ) : List ℕ :=
  p.completions.filter fun i => (p.inst i).state = .ea ∧ (p.inst i).parent = some s

def openRequest (s : ℕ) (who : Requester) : ScopeInsts :=
  { p with
    request := Function.update p.request p.requests ⟨s, who, p.completedChildren s, [], []⟩
    requests := p.requests + 1 }

def resume (r : ℕ) (who : Requester) : ScopeInsts :=
  { p with
    request := Function.update p.request r
      { p.request r with resumed := (p.request r).resumed ++ [who] } }

/-- `ScopeInstance.compensate` on the child `n`, for request `r`. -/
def compensateChild (n r : ℕ) (who : Requester) : ScopeInsts :=
  { p with
    inst := Function.update p.inst n
      { p.inst n with compensator := some who.compensator, request := some r }
    request := Function.update p.request r
      { p.request r with done := (p.request r).done ++ [n] } }.signal n .compensate false p.clock

/-- What follows the query: the compensation of the child that was found, or the
    end. -/
def proceed (r : ℕ) (who : Requester) : Option ℕ → ScopeInsts
  | some n => p.compensateChild n r who
  | none => match who with
    | .scope s => p.setCall (.childrenCompensated s r)
    | .activity _ => p.resume r who

/-- The calls; `next` is what the query gives if the call makes one. -/
def run (next : Option ℕ) : CompensationCall → ScopeInsts
  | .invokeDefaultCompensation s =>
    (p.openRequest s (.scope s)).proceed p.requests (.scope s) next
  | .scopeCompensated nested => match (p.inst nested).compensator, (p.inst nested).request with
    | some (.scope s), some r => p.proceed r (.scope s) next
    | some .compensate, some r => match (p.inst nested).parent with
      | some enclosing => p.proceed r (.activity ⟨enclosing, none⟩) next
      | none => p
    | _, _ => p
  | .childrenCompensated s r => (p.resume r (.scope s)).signal s .childrenCompensated false p.clock
  | .faulted s => p.signal s .faulted false p.clock

/-- The scope whose children the call asks for. -/
def queried : CompensationCall → Option ℕ
  | .invokeDefaultCompensation s => some s
  | .scopeCompensated nested => match (p.inst nested).compensator with
    | some (.scope s) => some s
    | some .compensate => (p.inst nested).parent
    | _ => none
  | _ => none

/-! ## Steps -/

inductive Step
  /-- `Scope.execute`, or an event handler: its token stands on another node -/
  | create (d : ScopeDef) (parent : Option ℕ) (node : ℕ)
  | signal (i : ℕ) (x : Signal) (b : Bool) (now : ℕ)
  /-- `Compensate.execute` -/
  | compensate (token : ExeToken) (next : Option ℕ)
  /-- `compensate` of an instance that a `compensateScope` activity found -/
  | compensateScope (n : ℕ)
  | call (next : Option ℕ)

def step : Step → ScopeInsts
  | .create d parent node =>
    { p with
      inst := Function.update p.inst p.size ⟨d, parent, node, .ap, none, none, none⟩
      size := p.size + 1 }
  | .signal i x b now => p.signal i x b now
  | .compensate token next =>
    (p.openRequest token.scope (.activity token)).proceed p.requests (.activity token) next
  | .compensateScope n =>
    { p with
      inst := Function.update p.inst n
        { p.inst n with compensator := some .compensateScope, request := none }
      }.signal n .compensate false p.clock
  | .call next => match p.call with
    | none => p
    | some c => { p with call := none }.run next c

/-- Request `r` for the children of `s` is not answered yet. -/
def Waiting (s r : ℕ) : Prop :=
  r < p.requests ∧ (p.request r).enclosing = s ∧ (p.request r).resumed = []

instance (s r : ℕ) : Decidable (p.Waiting s r) := inferInstanceAs (Decidable (_ ∧ _))

/-- What the outside can do.  While an activity waits for the children to be
    compensated, its token does nothing else and the handler is not complete. -/
def Legal : Step → Prop
  | .create _ parent _ => p.call = none ∧ ∀ s ∈ parent, s < p.size
  | .signal i x _ now => p.call = none ∧ i < p.size ∧ p.clock ≤ now ∧
      x ≠ .compensate ∧ x ≠ .childrenCompensated ∧
        (x = .completed → ∀ r < p.requests, p.Waiting i r →
          (p.request r).requester.isActivity = false)
  | .compensate token next => p.call = none ∧ token.scope < p.size ∧
      (p.inst token.scope).state ∈ [.fe, .te, .ce] ∧
        (∀ r < p.requests, p.Waiting token.scope r →
          (p.request r).requester ≠ .activity token) ∧ p.isNext token.scope next
  | .compensateScope n => p.call = none ∧ n < p.size ∧ (p.inst n).state = .ea
  | .call next => ∃ c ∈ p.call, ∀ s ∈ p.queried c, p.isNext s next

instance : ∀ x, Decidable (p.Legal x)
  | .create _ _ _ | .signal _ _ _ _ | .compensate _ _ | .compensateScope _ =>
    inferInstanceAs (Decidable (_ ∧ _))
  | .call next => inferInstanceAs (Decidable (∃ c ∈ p.call, ∀ s ∈ p.queried c, p.isNext s next))

def init : ScopeInsts where
  inst _ := ⟨.mk 0 false false [], none, 0, .ap, none, none, none⟩
  size := 0
  request _ := ⟨0, .scope 0, [], [], []⟩
  requests := 0
  clock := 0
  completions := []
  call := none

def Steps : ScopeInsts → Step → ScopeInsts → Prop := guard Legal fun p x p' => p' = p.step x

end ScopeInsts

end Jbpm
