/-
  Deleting process instances: `GraphSession.deleteProcessInstance` on a store of
  process instances, tokens, tasks, jobs and logs.

  A token is named by its process instance, which it never changes, and a number.
  Queries give rows in the order of the table, whichever that is.
-/
import Mathlib.Data.Nat.Notation

namespace Jbpm

namespace Db

structure TokenId where
  processInstance : ℕ
  number : ℕ
  deriving DecidableEq

structure ProcessInstance where
  id : ℕ
  superProcessToken : Option TokenId
  deriving DecidableEq

structure Token where
  id : TokenId
  parent : Option TokenId
  subProcessInstance : Option ℕ
  deriving DecidableEq

/-- A task, with the process instance of its task management instance. -/
structure TaskInstance where
  id : ℕ
  processInstance : ℕ
  token : Option TokenId
  deriving DecidableEq

structure Job where
  id : ℕ
  processInstance : Option ℕ
  token : Option TokenId
  taskInstance : Option ℕ
  deriving DecidableEq

/-- A log, with the child token, the task or the sub-process instance that logs of
    some classes refer to. -/
structure ProcessLog where
  id : ℕ
  token : TokenId
  child : Option TokenId
  taskInstance : Option ℕ
  subProcessInstance : Option ℕ
  deriving DecidableEq

/-- The tables, and the process instances that were deleted so far. -/
structure Store where
  processInstances : List ProcessInstance
  tokens : List Token
  taskInstances : List TaskInstance
  jobs : List Job
  logs : List ProcessLog
  deleted : List ℕ
  deriving DecidableEq

inductive DeleteError
  /-- a token still refers to the deleted instance (`FK_TOKEN_SUBPI`) -/
  | constraintViolation
  | outOfFuel
  deriving DecidableEq

namespace Store

/-! ## Queries -/

def findTokensForProcessInstance (p : ℕ) (s : Store) : List TokenId :=
  (s.tokens.filter fun t => t.id.processInstance == p).map (·.id)

def findSubProcessInstances (p : ℕ) (s : Store) : List ℕ :=
  (s.processInstances.filter fun q => q.superProcessToken.any (·.processInstance == p)).map (·.id)

def findTaskInstanceIdsForProcessInstance (p : ℕ) (s : Store) : List ℕ :=
  (s.taskInstances.filter fun t => t.processInstance == p).map (·.id)

/-- The children of a token. -/
def children (t : TokenId) (s : Store) : List TokenId :=
  (s.tokens.filter fun u => u.parent == some t).map (·.id)

/-! ## Updates -/

/-- `subProcessInstance.setSuperProcessToken(null)` -/
def clearSuperProcessToken (q : ℕ) (s : Store) : Store :=
  { s with processInstances := s.processInstances.map fun r =>
      if r.id = q then { r with superProcessToken := none } else r }

/-- `token.setSubProcessInstance(null)` -/
def clearSubProcessInstance (t : TokenId) (s : Store) : Store :=
  { s with tokens := s.tokens.map fun u =>
      if u.id = t then { u with subProcessInstance := none } else u }

def deleteJobsForProcessInstance (p : ℕ) (s : Store) : Store :=
  { s with jobs := s.jobs.filter fun j => j.processInstance != some p }

def deleteLogs (tokens : List TokenId) (s : Store) : Store :=
  { s with logs := s.logs.filter fun l => !tokens.contains l.token }

/-- `session.delete(processInstance)`: the mapping cascades to the tokens and the
    tasks of the process instance. -/
def deleteCascading (p : ℕ) (s : Store) : Store :=
  { s with
    processInstances := s.processInstances.filter fun q => q.id != p
    tokens := s.tokens.filter fun t => t.id.processInstance != p
    taskInstances := s.taskInstances.filter fun t => t.processInstance != p
    deleted := s.deleted ++ [p] }

/-- Deleting fails when it is flushed, if the database enforces that tokens refer
    to process instances that are there. -/
def delete (enforced : Bool) (p : ℕ) (s : Store) : Except DeleteError Store :=
  let s := s.deleteCascading p
  if enforced && s.tokens.any fun t => t.subProcessInstance == some p then
    .error .constraintViolation
  else .ok s

end Store

/-! ## GraphSession -/

namespace GraphSession

open Store

/-- The loop over the sub-process instances: the reference of the token at hand is
    cleared, whichever token the instance was started by. -/
def deleteAll (deleteProcessInstance : ℕ → Store → Except DeleteError Store) (t : TokenId) :
    List ℕ → Store → Except DeleteError Store
  | [], s => .ok s
  | q :: qs, s => do
    let s ← deleteProcessInstance q ((s.clearSuperProcessToken q).clearSubProcessInstance t)
    deleteAll deleteProcessInstance t qs s

/-- `deleteSubProcesses(token)`: all sub-process instances of the process instance
    of the token, whichever token they belong to. -/
def deleteSubProcesses (deleteProcessInstance : ℕ → Store → Except DeleteError Store) :
    ℕ → TokenId → Store → Except DeleteError Store
  | 0, _, _ => .error .outOfFuel
  | n + 1, t, s =>
    let processInstances := s.findSubProcessInstances t.processInstance
    if processInstances.isEmpty then .ok s
    else do
      let s ← deleteAll deleteProcessInstance t processInstances s
      (s.children t).foldlM (fun s child => deleteSubProcesses deleteProcessInstance n child s) s

/-- `deleteProcessInstance(processInstance, includeTasks, includeJobs)` -/
def deleteProcessInstance (enforced : Bool) :
    ℕ → ℕ → Bool → Bool → Store → Except DeleteError Store
  | 0, _, _, _, _ => .error .outOfFuel
  | n + 1, p, includeTasks, includeJobs, s => do
    let tokens := s.findTokensForProcessInstance p
    let s ← tokens.foldlM
      (fun s t => deleteSubProcesses
        (fun q s => deleteProcessInstance enforced n q true true s) (n + 2) t s) s
    let s := if includeJobs then s.deleteJobsForProcessInstance p else s
    -- the query that would delete the tasks is prepared, but not executed
    let _ := if includeTasks then s.findTaskInstanceIdsForProcessInstance p else []
    (s.deleteLogs tokens).delete enforced p

end GraphSession

end Db

end Jbpm
