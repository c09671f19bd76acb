/-
  Job executors and lock monitors that share a job table.  A thread acquires jobs
  in one transaction and executes each of them in another one, in which it loads
  the job again; all transactions check versions when they commit.

  * `Phase`: what an executor thread is doing;
  * `Step`, `Legal`, `step`: the steps of all threads, and of the transactions
    that create, suspend, resume and cancel jobs;
  * `Event`: what `history` records, newest first.
-/
import Jbpm.Job.Job
import Jbpm.Lib.Optimistic
import Jbpm.Lib.Run

namespace Jbpm

open Lib Lib.Optimistic

instance : Row Job where
  key j := j.id
  version j := j.version
  bump j := { j with version := j.version + 1 }
  key_bump _ := rfl
  version_bump _ := rfl

namespace JobExecutor

/-- How the execution of a job ends: whether `execute` returned, whether it has
    deleted the job itself, whether it has changed anything else, and what is
    recorded if it has thrown. -/
structure Outcome where
  succeeded : Bool
  cancelsItself : Bool
  changes : Bool
  stackTrace : String
  deriving DecidableEq

def Outcome.hasEffects (o : Outcome) : Bool := o.succeeded || o.cancelsItself || o.changes

/-- The configuration: the names of the threads, which the locks carry, the
    longest time a job is locked, how a repeat is read, and the query of the lock
    monitor, which the mapping need not have. -/
structure Config (E : Type) where
  getName : E → String
  maxLockTime : ℕ
  newDuration : String → Option Job.Duration
  findJobsWithOverdueLockTime : Option (ℕ → Job → Bool)

inductive Phase
  /-- the jobs that are acquired and still to be executed -/
  | acquired (acquiredJobs : List Job)
  | found (job : Job)
  | acquiring (jobsToLock : List (Entity Job))
  | executing (job : Job) (since : ℕ) (acquiredJobs : List Job)

inductive Event (E : Type)
  | loaded (e : E) (job : Job)
  /-- an execution is committed of the job as it was loaded -/
  | executed (e : E) (job : Job) (since : ℕ) (outcome : Outcome)
  | cancelled (id : ℕ)
  deriving DecidableEq

structure State (E M : Type) where
  jobs : ℕ → Option Job
  nextId : ℕ
  clock : E → ℕ
  phase : E → Phase
  monitor : M → Option (List (Entity Job))
  history : List (Event E)

inductive Step (E M : Type)
  | tick (e : E) (t : ℕ)
  | getFirstAcquirableJob (e : E) (job : Job)
  | findExclusiveJobs (e : E) (jobsToLock : List Job)
  | commitAcquisition (e : E)
  | load (e : E)
  | commitExecution (e : E) (outcome : Outcome)
  /-- the thread is stopped, or an exception ends what it is doing -/
  | abandon (e : E)
  | findOverdueJobs (m : M) (treshold : ℕ) (jobs : List Job)
  | commitUnlock (m : M)
  | abandonUnlock (m : M)
  | create (kind : Job.Kind) (dueDate : ℕ) (processInstance token : Option ℕ) (isExclusive : Bool)
  | suspendJobs (token : ℕ)
  | resumeJobs (token : ℕ)
  | cancelTimersByName (name : String) (token : ℕ)
  | deleteJobsForProcessInstance (processInstance : ℕ)

/-! ## Sessions -/

def lockEntity (owner : String) (now : ℕ) (j : Job) : Entity Job where
  loaded := j
  current := some (j.lock owner now)
  key_current := by rintro _ ⟨⟩; rfl
  version_current := by rintro _ ⟨⟩; rfl

def unlockEntity (j : Job) : Entity Job where
  loaded := j
  current := some j.unlock
  key_current := by rintro _ ⟨⟩; rfl
  version_current := by rintro _ ⟨⟩; rfl

variable {E M : Type}

namespace Config

variable (c : Config E)

def nextDueDate (now : ℕ) (repeat_ : String) (dueDate : ℕ) : ℕ :=
  match c.newDuration repeat_ with
  | some r => r.reschedule now dueDate
  | none => dueDate

/-- The job at the end of an execution. -/
def executed (now : ℕ) (o : Outcome) (j : Job) : Option Job :=
  if o.cancelsItself then none
  else if o.succeeded then
    match j.kind with
    | .timer _ (some repeat_) _ => some { j with dueDate := c.nextDueDate now repeat_ j.dueDate }
    | _ => none
  else some (j.fail o.stackTrace)

def executedEntity (now : ℕ) (o : Outcome) (j : Job) : Entity Job where
  loaded := j
  current := c.executed now o j
  key_current := by
    intro j' hj
    unfold executed at hj
    split at hj
    · cases hj
    · split at hj
      · split at hj <;> cases hj
        rfl
      · cases hj
        rfl
  version_current := by
    intro j' hj
    unfold executed at hj
    split at hj
    · cases hj
    · split at hj
      · split at hj <;> cases hj
        rfl
      · cases hj
        rfl

/-- The transaction is marked if the job is locked too long. -/
def lockedTooLong (now : ℕ) (j : Job) : Bool :=
  match j.lockTime with
  | some t => decide (c.maxLockTime + t < now)
  | none => false

end Config

/-! ## Steps -/

namespace State

variable (s : State E M)

/-- A query finds the jobs for which `p` holds. -/
def Finds (p : Job → Bool) (js : List Job) : Prop :=
  js.Nodup ∧ (∀ j ∈ js, s.jobs j.id = some j ∧ p j = true) ∧
    ∀ k < s.nextId, ∀ r ∈ s.jobs k, p r = true → r ∈ js

instance (p : Job → Bool) (js : List Job) : Decidable (s.Finds p js) :=
  inferInstanceAs (Decidable (_ ∧ _ ∧ _))

/-- The jobs for which `p` holds are deleted. -/
def cancel (p : Job → Bool) : State E M :=
  { s with
    jobs := fun k => (s.jobs k).filter fun j => !p j
    history := ((List.range s.nextId).filter fun k => (s.jobs k).any p).map .cancelled ++ s.history }

/-- A bulk update, which leaves the versions alone. -/
def setSuspended (token : ℕ) (isSuspended : Bool) : State E M :=
  { s with
    jobs := fun k => (s.jobs k).map fun j =>
      if j.token = some token then { j with isSuspended := isSuspended } else j }

variable [DecidableEq E] [DecidableEq M]

def setPhase (e : E) (p : Phase) : State E M := { s with phase := Function.update s.phase e p }

def setMonitor (m : M) (es : Option (List (Entity Job))) : State E M :=
  { s with monitor := Function.update s.monitor m es }

variable (c : Config E)

/-- The end of `acquireJobs`: if the commit fails, no jobs are acquired. -/
def commitAcquisition (e : E) (jobsToLock : List (Entity Job)) : State E M :=
  match flushAll s.jobs jobsToLock with
  | some jobs => { s with jobs := jobs }.setPhase e (.acquired (jobsToLock.filterMap committed))
  | none => s.setPhase e (.acquired [])

/-- The start of `executeJob`; without a row the job cannot be executed, and the
    exception ends the loop over the acquired jobs. -/
def load (e : E) (job : Job) (acquiredJobs : List Job) : State E M :=
  match s.jobs job.id with
  | some j =>
    { s with history := .loaded e j :: s.history }.setPhase e
      (.executing j (s.clock e) acquiredJobs)
  | none => s.setPhase e (.acquired [])

/-- The end of `executeJob`; of a job without a lock time an exception is thrown
    before the commit, but does not prevent it. -/
def commitExecution (e : E) (job : Job) (since : ℕ) (acquiredJobs : List Job) (o : Outcome) :
    State E M :=
  if c.lockedTooLong (s.clock e) job then s.setPhase e (.acquired acquiredJobs)
  else
    let acquiredJobs := if job.lockTime.isNone then [] else acquiredJobs
    match flush s.jobs (c.executedEntity (s.clock e) o job) with
    | some jobs =>
      { s with jobs := jobs, history := .executed e job since o :: s.history }.setPhase e
        (.acquired acquiredJobs)
    | none => s.setPhase e (.acquired acquiredJobs)

def commitUnlock (m : M) (es : List (Entity Job)) : State E M :=
  match flushAll s.jobs es with
  | some jobs => { s with jobs := jobs }.setMonitor m none
  | none => s.setMonitor m none

def create (kind : Job.Kind) (dueDate : ℕ) (processInstance token : Option ℕ)
    (isExclusive : Bool) : State E M :=
  { s with
    jobs := Function.update s.jobs s.nextId
      (some (.created s.nextId kind dueDate processInstance token isExclusive))
    nextId := s.nextId + 1 }

/-- The steps that can be taken. -/
def Legal : Step E M → Prop
  | .tick e t => s.clock e ≤ t
  | .getFirstAcquirableJob e job =>
    (match s.phase e with | .acquired [] => True | _ => False) ∧
      s.jobs job.id = some job ∧ job.isAcquirable (c.getName e) (s.clock e) = true ∧
      ∀ k < s.nextId, ∀ r ∈ s.jobs k, r.isAcquirable (c.getName e) (s.clock e) = true →
        job.dueDate ≤ r.dueDate
  | .findExclusiveJobs e js =>
    match s.phase e with
    | .found job =>
      if job.isExclusive then
        s.Finds (Job.isExclusiveFor (c.getName e) (s.clock e) job.processInstance) js ∧
          js.Pairwise fun j j' => j.dueDate ≤ j'.dueDate
      else js = [job]
    | _ => False
  | .commitAcquisition e => match s.phase e with | .acquiring _ => True | _ => False
  | .load e => match s.phase e with | .acquired (_ :: _) => True | _ => False
  | .commitExecution e o =>
    match s.phase e with
    | .executing job _ _ =>
      -- a repeat that cannot be read makes `execute` throw
      match job.kind with
      | .timer _ (some r) _ =>
        o.succeeded = true → job.dueDate ≤ s.clock e → (c.newDuration r).isSome = true
      | _ => True
    | _ => False
  | .findOverdueJobs m treshold js =>
    (s.monitor m).isNone = true ∧
      match c.findJobsWithOverdueLockTime with
      | some query => s.Finds (query treshold) js
      | none => False
  | .commitUnlock m => (s.monitor m).isSome = true
  | _ => True

def step : Step E M → State E M
  | .tick e t => { s with clock := Function.update s.clock e t }
  | .getFirstAcquirableJob e job => s.setPhase e (.found job)
  | .findExclusiveJobs e js =>
    match s.phase e with
    | .found job =>
      -- the job found first is in the session already
      s.setPhase e (.acquiring (js.map fun j =>
        lockEntity (c.getName e) (s.clock e) (if j.id = job.id then job else j)))
    | _ => s
  | .commitAcquisition e =>
    match s.phase e with
    | .acquiring es => s.commitAcquisition e es
    | _ => s
  | .load e =>
    match s.phase e with
    | .acquired (job :: acquiredJobs) => s.load e job acquiredJobs
    | _ => s
  | .commitExecution e o =>
    match s.phase e with
    | .executing job since acquiredJobs => s.commitExecution c e job since acquiredJobs o
    | _ => s
  | .abandon e => s.setPhase e (.acquired [])
  | .findOverdueJobs m _ js => s.setMonitor m (some (js.map unlockEntity))
  | .commitUnlock m =>
    match s.monitor m with
    | some es => s.commitUnlock m es
    | none => s
  | .abandonUnlock m => s.setMonitor m none
  | .create kind dueDate processInstance token isExclusive =>
    s.create kind dueDate processInstance token isExclusive
  | .suspendJobs token => s.setSuspended token true
  | .resumeJobs token => s.setSuspended token false
  | .cancelTimersByName name token =>
    s.cancel fun j => (match j.kind with | .timer n _ _ => n == some name | _ => false) &&
      j.token == some token
  | .deleteJobsForProcessInstance processInstance =>
    s.cancel fun j => (match j.kind with | .executeAction => false | _ => true) &&
      j.processInstance == some processInstance

end State

/-- The runs of all threads and transactions. -/
abbrev Steps [DecidableEq E] [DecidableEq M] (c : Config E) : State E M → Step E M → State E M → Prop :=
  guard (fun s l => s.Legal c l) fun s l s' => s' = s.step c l

end JobExecutor

end Jbpm
