/-
  Jobs: rows of the job table, what may run them and when, and what the job
  executor writes to them.  Dates are numbers of milliseconds.
-/

namespace Jbpm

namespace Job

/-- A duration is what it adds to a date; by none a date goes back or stays,
    else the loop that reschedules a timer would not end. -/
structure Duration where
  add : Nat → Nat
  lt_add : ∀ d, d < add d

/-- The loop of `Timer.execute`: the first date from `dueDate` on, in steps of
    `r`, that is still to come. -/
def Duration.reschedule (r : Duration) (now dueDate : Nat) : Nat :=
  if dueDate ≤ now then r.reschedule now (r.add dueDate) else dueDate
termination_by now + 1 - dueDate
decreasing_by
  have := r.lt_add dueDate
  omega

theorem Duration.lt_reschedule (r : Duration) (now dueDate : Nat) :
    now < r.reschedule now dueDate := by
  fun_induction r.reschedule now dueDate with
  | case1 d _ ih => exact ih
  | case2 d h => omega

/-- The classes of jobs, with what a timer is made of. -/
inductive Kind
  | timer (name : Option String) (repeat_ : Option String) (transitionName : Option String)
  | executeNode
  | executeAction
  deriving DecidableEq

end Job

open Job

/-- A row of the job table. -/
structure Job where
  id : Nat
  version : Nat
  kind : Kind
  dueDate : Nat
  processInstance : Option Nat
  token : Option Nat
  isSuspended : Bool
  isExclusive : Bool
  lockOwner : Option String
  lockTime : Option Nat
  exception : Option String
  retries : Int
  deriving DecidableEq

namespace Job

/-- A job as it is saved first. -/
def created (id : Nat) (kind : Kind) (dueDate : Nat) (processInstance token : Option Nat)
    (isExclusive : Bool) : Job where
  id := id
  version := 0
  kind := kind
  dueDate := dueDate
  processInstance := processInstance
  token := token
  isSuspended := false
  isExclusive := isExclusive
  lockOwner := none
  lockTime := none
  exception := none
  retries := 1

/-- What `acquireJobs` writes to a job. -/
def lock (owner : String) (now : Nat) (j : Job) : Job :=
  { j with lockOwner := some owner, lockTime := some now }

/-- What `unlockOverdueJobs` writes to a job. -/
def unlock (j : Job) : Job := { j with lockOwner := none, lockTime := none }

/-- What is written to a job that has thrown: the column of the exception takes
    4000 characters. -/
def fail (stackTrace : String) (j : Job) : Job :=
  { j with exception := some (String.ofList (stackTrace.toList.take 4000)), retries := j.retries - 1 }

/-- The filter of the query `getFirstAcquirableJob`. -/
def isAcquirable (lockOwner : String) (now : Nat) (j : Job) : Bool :=
  (j.lockOwner.isNone || j.lockOwner == some lockOwner) && decide (0 < j.retries) &&
    decide (j.dueDate ≤ now) && !j.isSuspended

/-- The filter of the query `findExclusiveJobs`; no job is of the process
    instance `null`. -/
def isExclusiveFor (lockOwner : String) (now : Nat) (processInstance : Option Nat) (j : Job) :
    Bool :=
  j.isAcquirable lockOwner now && processInstance.isSome &&
    j.processInstance == processInstance && j.isExclusive

end Job

end Jbpm
