/-
  The states of a scope instance and how each of them answers the signals.

  * `react`: the methods of `ActiveState`, `FaultingState`, `TerminatingState`,
    `CompensatingState` and `EndState`, one line for each method.
-/
import Mathlib.Data.Nat.Notation

namespace Jbpm

/-- The states by their names: `A`ctive, `F`aulting, `T`erminating, `C`ompensating
    and `E`nd states. -/
inductive ScopeState
  /-- performing the primary activity, waiting for events -/
  | ap | ae
  /-- terminating the primary activity, default and explicit handling,
      terminating the handler -/
  | fp | fd | fe | ft
  | tp | td | te | tt
  | cd | ce | ct
  /-- terminated, compensated, completed, faulted, exited -/
  | et | ec | ea | ef | ex
  deriving DecidableEq

namespace ScopeState

inductive Signal
  | terminate | faulted | completed | childrenTerminated | childrenCompensated | compensate
  deriving DecidableEq

/-- The body of a state's method. -/
inductive Reaction
  /-- `throwStateException` -/
  | illegal
  | ignore
  /-- `setState`, then `terminateChildren` -/
  | terminateChildren (s : ScopeState)
  /-- `disableEvents`, then the end or the wait for pending events -/
  | completeActivity
  | selectFaultHandler
  | selectTerminationHandler
  /-- `CompensatingState.enterCompensating` -/
  | enterCompensating
  /-- the `enter` method of `EndState` for the state -/
  | enter (s : ScopeState)
  /-- the handler token is ended before the scope is compensated -/
  | endHandler
  deriving DecidableEq

def react : ScopeState → Signal → Reaction
  | ap, .completed => .completeActivity
  | ae, .completed => .enter ea
  | ap, .terminate | ae, .terminate => .terminateChildren tp
  | ap, .faulted | ae, .faulted => .terminateChildren fp
  | fp, .childrenTerminated => .selectFaultHandler
  | fd, .childrenCompensated | fd, .faulted => .enter ef
  | fe, .completed => .enter ex
  | fe, .faulted => .terminateChildren ft
  | ft, .childrenTerminated => .enter ef
  | fp, .terminate | fd, .terminate | fe, .terminate | ft, .terminate => .ignore
  | tp, .faulted => .ignore
  | tp, .childrenTerminated => .selectTerminationHandler
  | td, .faulted | td, .childrenCompensated => .enter et
  | te, .faulted => .terminateChildren tt
  | te, .completed => .enter et
  | tt, .childrenTerminated => .enter et
  | cd, .faulted => .enter ef
  | cd, .childrenCompensated => .enter ec
  | ce, .completed => .endHandler
  | ce, .faulted => .terminateChildren ct
  | ct, .childrenTerminated => .enter ef
  | ea, .compensate => .enterCompensating
  | ef, .terminate => .ignore
  | _, _ => .illegal

def isTerminable : ScopeState → Bool
  | ap | ae | fd | fe | td | te => true
  | _ => false

def isEnd : ScopeState → Bool
  | et | ec | ea | ef | ex => true
  | _ => false

end ScopeState

end Jbpm
