/-
  Timers in the EJB timer service: each of them stands for a timer of the job table.

  * `Call.entity`, `Call.db`: what the two scheduler services do;
  * `ejbTimeout`, `executeJob`: a timer is executed, by the container or by the job executor;
  * `Corresponds`: what should hold at the end of every transaction;
  * `Fine`: the steps that keep it.

  The ids of jobs are those of an identity column, so that a job is in the table when it is saved.
  The locks of the job executor are left out.
-/
import Mathlib.Data.List.Nodup
import Mathlib.Data.Nat.Notation
import Jbpm.Job.Job
import Jbpm.Lib.Run

namespace Jbpm

open Lib

namespace EjbTimers

variable {W A : Type}

/-- A timer of the job table; its work is its action, its event and its transition. -/
structure Timer (A : Type) where
  id : ℕ
  name : Option String
  repeat_ : Option String
  token : Option ℕ
  processInstance : Option ℕ
  dueDate : ℕ
  exception : Option String
  retries : Int
  work : A

def Timer.due (timer : Timer A) (dueDate : ℕ) : Timer A := { timer with dueDate := dueDate }

/-- The ids of a token and a process instance that are null are `-1` in the source. -/
structure TimerInfo where
  timerId : ℕ
  timerName : Option String
  tokenId : Option ℕ
  processInstanceId : Option ℕ
  deriving DecidableEq

structure EjbTimer where
  dueDate : ℕ
  info : TimerInfo
  deriving DecidableEq

/-- `new TimerInfo(timer)` -/
def TimerInfo.of (timer : Timer A) : TimerInfo :=
  ⟨timer.id, timer.name, timer.token, timer.processInstance⟩

def TimerInfo.matchesName (timerName : Option String) (token : ℕ) (i : TimerInfo) : Bool :=
  i.timerName.isSome && i.timerName = timerName && i.tokenId = some token

def TimerInfo.matchesProcessInstance (processInstance : ℕ) (i : TimerInfo) : Bool :=
  i.processInstanceId = some processInstance

def EjbTimer.of (timer : Timer A) : EjbTimer := ⟨timer.dueDate, .of timer⟩

/-! ## The job session -/

/-- A transaction in progress; the jobs of some process instances are deleted when it completes. -/
structure Session (A : Type) where
  jobs : List (Timer A)
  nextId : ℕ
  deleting : List ℕ

namespace Session

variable (s : Session A)

def saveJob (timer : Timer A) : Session A :=
  { s with jobs := s.jobs ++ [{ timer with id := s.nextId }], nextId := s.nextId + 1 }

/-- No name equals null. -/
def cancelTimersByName (name : Option String) (token : ℕ) : Session A :=
  { s with jobs := s.jobs.filter fun t =>
      !(name.isSome && t.name = name && t.token = some token) }

def deleteJobsForProcessInstance (processInstance : ℕ) : Session A :=
  { s with deleting := processInstance :: s.deleting }

def deleteJob (id : ℕ) : Session A := { s with jobs := s.jobs.filter (·.id ≠ id) }

/-- A timer that was read and has changed is written back, if its row is still there. -/
def update (timer : Timer A) : Session A :=
  { s with jobs := s.jobs.map fun t => if t.id = timer.id then timer else t }

/-- The jobs after `beforeCompletion`. -/
def completed : List (Timer A) :=
  s.jobs.filter fun t => s.deleting.all fun p => t.processInstance ≠ some p

end Session

/-! ## The scheduler services -/

inductive Call (A : Type)
  | createTimer (timer : Timer A)
  | deleteTimersByName (timerName : Option String) (token : ℕ)
  | deleteTimersByProcessInstance (processInstance : ℕ)

/-- `DbSchedulerService` -/
def Call.db (s : Session A) : Call A → Session A
  | .createTimer timer => s.saveJob timer
  | .deleteTimersByName timerName token => s.cancelTimersByName timerName token
  | .deleteTimersByProcessInstance p => s.deleteJobsForProcessInstance p

structure EjbSession (A : Type) extends Session A where
  timers : List EjbTimer

/-- An entity bean cancels those of its own timers that match. -/
def cancelTimers (isMatch : TimerInfo → Bool) (timers : List EjbTimer) (entity : Timer A) :
    List EjbTimer :=
  timers.filter fun x => !(x.info.timerId = entity.id && isMatch x.info)

def findByTokenId (s : Session A) (token : ℕ) : List (Timer A) :=
  s.jobs.filter fun t => t.token = some token

def findByTokenIdAndName (s : Session A) (token : ℕ) (name : Option String) : List (Timer A) :=
  s.jobs.filter fun t => t.token = some token && t.name = name

def findByProcessInstanceId (s : Session A) (processInstance : ℕ) : List (Timer A) :=
  s.jobs.filter fun t => t.processInstance = some processInstance

/-- `EntitySchedulerService` -/
def Call.entity (s : EjbSession A) : Call A → EjbSession A
  | .createTimer timer =>
    ⟨s.saveJob timer, s.timers ++ [.of { timer with id := s.nextId }]⟩
  | .deleteTimersByName timerName token =>
    let timerEntities :=
      if timerName = none ∨ timerName = some "" then findByTokenId s.toSession token
      else findByTokenIdAndName s.toSession token timerName
    ⟨s.cancelTimersByName timerName token,
      timerEntities.foldl (cancelTimers (TimerInfo.matchesName timerName token)) s.timers⟩
  | .deleteTimersByProcessInstance p =>
    ⟨s.deleteJobsForProcessInstance p,
      (findByProcessInstanceId s.toSession p).foldl
        (cancelTimers (TimerInfo.matchesProcessInstance p)) s.timers⟩

/-! ## Executing a timer -/

/-- What a timer did: the process state it leaves, what it called of the scheduler service, and the
    stack trace if it threw. -/
structure Execution (W A : Type) where
  world : W
  calls : List (Call A)
  exception : Option String

structure Runtime (W A : Type) where
  execute : ℕ → Timer A → W → Execution W A
  newDuration : String → Except String Job.Duration

namespace Runtime

variable (c : Runtime W A)

/-- The end of `Timer.execute`. -/
def reschedule (now : ℕ) (timer : Timer A) : Except String (Timer A) :=
  match timer.repeat_ with
  | none => .ok timer
  | some repeat_ =>
    if timer.dueDate ≤ now then
      (c.newDuration repeat_).map fun d => timer.due (d.reschedule now timer.dueDate)
    else .ok timer

/-- The timer after `Timer.execute`, or what that throws. -/
def outcome (now : ℕ) (timer : Timer A) (w : W) : Except String (Timer A) :=
  match (c.execute now timer w).exception with
  | some stackTrace => .error stackTrace
  | none => c.reschedule now timer

end Runtime

/-- The process state and the job table. -/
structure Store (W A : Type) where
  world : W
  jobs : List (Timer A)
  nextId : ℕ

def Store.getJob (s : Store W A) (id : ℕ) : Option (Timer A) := s.jobs.find? (·.id = id)

def Store.begin (s : Store W A) : Session A := ⟨s.jobs, s.nextId, []⟩

def Session.commit (s : Session A) (w : W) : Store W A := ⟨w, s.completed, s.nextId⟩

/-- `JobExecutorThread.executeJob` -/
def executeJob (c : Runtime W A) (s : Store W A) (id now : ℕ) : Store W A :=
  match s.getJob id with
  | none => s
  | some timer =>
    let x := c.execute now timer s.world
    let session := x.calls.foldl Call.db s.begin
    match c.outcome now timer s.world with
    | .error stackTrace =>
      (session.update { timer with
        exception := some stackTrace, retries := timer.retries - 1 }).commit x.world
    | .ok timer' =>
      -- `Timer.execute` returns whether the job is to be deleted
      if timer.repeat_.isNone then (session.deleteJob timer.id).commit x.world
      else (session.update timer').commit x.world

inductive Event
  | executed (id : ℕ)
  | completed (id : ℕ)
  | deleted (id : ℕ)
  deriving DecidableEq

/-- At the end of a transaction; the history begins with what happened last. -/
structure State (W A : Type) extends Store W A where
  timers : List EjbTimer
  history : List Event

def State.begin (s : State W A) (timers : List EjbTimer) : EjbSession A :=
  ⟨s.toStore.begin, timers⟩

/-- The ids of the jobs that are gone. -/
def gone (jobs jobs' : List (Timer A)) : List ℕ :=
  (jobs.map Timer.id).filter (· ∉ jobs'.map Timer.id)

def State.commit (s : State W A) (e : EjbSession A) (w : W) (events : List Event) : State W A :=
  ⟨e.toSession.commit w, e.timers, (gone s.jobs e.completed).map .deleted ++ events ++ s.history⟩

/-- The numbers of an identity column are not given twice. -/
def State.rollback (s : State W A) (e : EjbSession A) : State W A :=
  { s with nextId := e.nextId }

/-- `TimerEntityBean.ejbTimeout`, with `ExecuteTimerCommand`.  The container has removed the timer;
    a rollback brings it back. -/
def ejbTimeout (c : Runtime W A) (s : State W A) (ejbTimer : EjbTimer) (now : ℕ) : State W A :=
  let timers := s.timers.erase ejbTimer
  match s.getJob ejbTimer.info.timerId with
  | none => { s with timers := timers }
  | some timer =>
    let x := c.execute now timer s.world
    let e := x.calls.foldl Call.entity (s.begin timers)
    match c.outcome now timer s.world with
    | .error _ => s.rollback e
    | .ok timer' =>
      let timers' := if timer'.repeat_.isSome then e.timers ++ [.of timer'] else e.timers
      s.commit ⟨e.update timer', timers'⟩ x.world
        ((if timer'.repeat_.isSome then [] else [.completed timer.id]) ++ [.executed timer.id])

/-! ## Runs -/

inductive Step (W A : Type)
  /-- a transaction of a client -/
  | transaction (change : W → W) (calls : List (Call A)) (commits : Bool)
  | fire (ejbTimer : EjbTimer) (now : ℕ)

/-- A step with timer entities. -/
def exec (c : Runtime W A) (s : State W A) : Step W A → State W A
  | .transaction change calls commits =>
    let e := calls.foldl Call.entity (s.begin s.timers)
    if commits then s.commit e (change s.world) [] else s.rollback e
  | .fire ejbTimer now => ejbTimeout c s ejbTimer now

/-- The same step with the job executor. -/
def execDb (c : Runtime W A) (s : Store W A) : Step W A → Store W A
  | .transaction change calls commits =>
    let session := calls.foldl Call.db s.begin
    if commits then session.commit (change s.world) else { s with nextId := session.nextId }
  | .fire ejbTimer now => executeJob c s ejbTimer.info.timerId now

/-- Only pending timers fire. -/
def Pending (s : State W A) : Step W A → Prop
  | .transaction .. => True
  | .fire x _ => x ∈ s.timers

def Next (c : Runtime W A) : State W A → Step W A → State W A → Prop :=
  guard Pending fun s l s' => s' = exec c s l

/-- A timer that is executed has been neither deleted nor completed. -/
def NeverAgain (history : List Event) : Prop :=
  ∀ later earlier id, history = later ++ .executed id :: earlier →
    .deleted id ∉ earlier ∧ .completed id ∉ earlier

/-- What holds at the end of a transaction, when the job executor is in a state. -/
structure Corresponds (s : State W A) (db : Store W A) : Prop where
  perm : s.timers.Perm (s.jobs.map .of)
  nodup : (s.jobs.map Timer.id).Nodup
  neverAgain : NeverAgain s.history
  eq_db : s.toStore = db

def initial (w : W) (nextId : ℕ) : State W A := ⟨⟨w, [], nextId⟩, [], []⟩

/-- No timer is created for a process instance whose timers have been deleted before. -/
def Orderly (calls : List (Call A)) : Prop :=
  ∀ before p after, calls = before ++ .deleteTimersByProcessInstance p :: after →
    ∀ t, .createTimer t ∈ after → t.processInstance ≠ some p

def Call.deletes (t : Timer A) : Call A → Prop
  | .createTimer _ => False
  | .deleteTimersByName timerName token =>
    t.name.isSome ∧ t.name = timerName ∧ t.token = some token
  | .deleteTimersByProcessInstance p => t.processInstance = some p

/-- An execution succeeds, and deletes its own timer just if that does not repeat. -/
def Fine (c : Runtime W A) (s : State W A) : Step W A → Prop
  | .transaction _ calls commits => commits → Orderly calls
  | .fire x now => ∀ timer, s.getJob x.info.timerId = some timer →
    Orderly (c.execute now timer s.world).calls ∧
      (∃ timer', c.outcome now timer s.world = .ok timer') ∧
      ((∃ call ∈ (c.execute now timer s.world).calls, call.deletes timer) ↔ timer.repeat_ = none)

end EjbTimers

end Jbpm
