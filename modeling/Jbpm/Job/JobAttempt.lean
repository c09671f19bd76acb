/-
  Attempts at a job.  The exception of a job is caught inside the context, so
  that closing it commits what the job has done up to there, with the exception
  written to the job.

  * `executeJob`: one attempt;
  * `KeepsState`, `Clean`: what a failed attempt should do, and when it does;
  * `SameOutcome`: whether failed attempts before a last one go unnoticed.
-/
import Jbpm.Job.Job
import Jbpm.Svc.JbpmContext

namespace Jbpm

open Java Svc

namespace Job

variable {ε G : Type}

/-- The graph element of a timer. -/
structure GraphElement (ε G : Type) where
  fireAndPropagateEvent : Throws ε (Session G) Unit
  raiseException : ε → Throws ε (Session G) Unit

/-- What the execution of a job calls.  `G` is the persistent state without the
    fields of the job: processes, tokens, tasks and the other jobs, and whether
    the job is still there. -/
structure Calls (ε G : Type) where
  graphElement : Option (GraphElement ε G)
  /-- the action of a timer -/
  action : Option (Throws ε (Session G) Unit)
  hasLeavingTransition : String → Throws ε (Session G) Bool
  signal : String → Throws ε (Session G) Unit
  unlockToken : Throws ε (Session G) Unit
  executeNode : Throws ε (Session G) Unit
  /-- the action of an asynchronous action job -/
  executeAction : Throws ε (Session G) Unit
  save : Throws ε (Session G) Unit
  newDuration : String → Except ε Duration

namespace Calls

variable (c : Calls ε G)

def fireTimerEvent : Throws ε (Session G) Unit :=
  match c.graphElement with
  | some g => g.fireAndPropagateEvent
  | none => pure ()

/-- The graph element is given a chance to handle the exception of the action. -/
def executeTimerAction : Throws ε (Session G) Unit :=
  match c.action with
  | none => pure ()
  | some action =>
    Throws.tryCatch_ action fun e =>
      match c.graphElement with
      | some g => g.raiseException e
      | none => Throws.throw_ e

/-- No transition is taken if an exception is recorded in the timer. -/
def takeTransition : Option String → Option String → Throws ε (Session G) Unit
  | some transitionName, none => do
    if ← c.hasLeavingTransition transitionName then c.signal transitionName
  | _, _ => pure ()

/-- The new due date of a timer. -/
def nextDueDate (now : Nat) (repeat_ : String) (dueDate : Nat) : Throws ε (Session G) Nat :=
  if dueDate ≤ now then do
    let r ← Throws.ofExcept (c.newDuration repeat_)
    pure (r.reschedule now dueDate)
  else pure dueDate

/-- `Timer.execute`: whether to delete the timer, and its due date. -/
def executeTimer (now : Nat) (repeat_ transitionName : Option String) (j : Job) :
    Throws ε (Session G) (Bool × Nat) := do
  c.fireTimerEvent
  c.executeTimerAction
  c.takeTransition transitionName j.exception
  c.save
  match repeat_ with
  | none => pure (true, j.dueDate)
  | some r => do
    let dueDate ← c.nextDueDate now r j.dueDate
    pure (false, dueDate)

/-- `ExecuteNodeJob.execute` -/
def executeNodeJob (j : Job) : Throws ε (Session G) (Bool × Nat) := do
  c.unlockToken
  c.executeNode
  c.save
  pure (true, j.dueDate)

/-- `ExecuteActionJob.execute` -/
def executeActionJob (j : Job) : Throws ε (Session G) (Bool × Nat) := do
  c.executeAction
  c.save
  pure (true, j.dueDate)

/-- `Job.execute` -/
def execute (now : Nat) (j : Job) : Throws ε (Session G) (Bool × Nat) :=
  match j.kind with
  | .timer _ repeat_ transitionName => c.executeTimer now repeat_ transitionName j
  | .executeNode => c.executeNodeJob j
  | .executeAction => c.executeActionJob j

end Calls

/-- The persistent state, with the fields of the job. -/
structure Stored (G : Type) where
  graph : G
  job : Job

/-- All an attempt depends on apart from the state: the services of its context,
    what the job calls, the lock, the clock when a timer is rescheduled and when
    the job has ended. -/
structure Attempt (ε G : Type) where
  services : Services ε G
  calls : Calls ε G
  deleteJob : G → G
  stackTrace : ε → String
  nullPointer : ε
  lockOwner : String
  lockTime : Nat
  now : Nat
  finished : Nat
  maxLockTime : Nat

namespace Attempt

variable (a : Attempt ε G)

/-- The job ends: if it was locked too long, the transaction is marked. -/
def mark (j : Job) (s : Session G) : Session G :=
  match j.lockTime with
  | some t => if a.maxLockTime + t < a.finished then { s with isRollbackOnly := true } else s
  | none => s

/-- The context is closed, also if reading the lock time throws. -/
def finish (before : Stored G) (j : Job) (s : Session G) : Except ε Unit × Stored G :=
  let closed := a.services.close before.graph (a.mark j s)
  (match closed.1 with
    | .error e => .error e
    | .ok () => if j.lockTime.isNone then .error a.nullPointer else .ok (),
    ⟨closed.2,
      if a.services.commits before.graph (a.services.saved (a.mark j s)) then j else before.job⟩)

/-- `JobExecutorThread.executeJob` -/
def executeJob (before : Stored G) : Except ε Unit × Stored G :=
  match a.calls.execute a.now before.job (.opened before.graph) with
  | (.ok (deleteThisJob, dueDate), s) =>
    a.finish before { before.job with dueDate := dueDate }
      (if deleteThisJob then { s with objects := a.deleteJob s.objects } else s)
  | (.error e, s) => a.finish before (before.job.fail (a.stackTrace e)) s

/-- An attempt at the job that was acquired for it. -/
def attempt (before : Stored G) : Stored G :=
  (a.executeJob { before with job := before.job.lock a.lockOwner a.lockTime }).2

/-! ## What a failed attempt leaves -/

/-- The execution of the job throws. -/
def Fails (before : Stored G) : Prop :=
  ∃ e s, a.calls.execute a.now before.job (.opened before.graph) = (.error e, s)

/-- If the job throws, then what is committed is what was before, or differs from
    it by the failure recorded in the job. -/
def KeepsState (before : Stored G) : Prop :=
  ∀ e s, a.calls.execute a.now before.job (.opened before.graph) = (.error e, s) →
    (a.executeJob before).2.graph = before.graph ∧
      ((a.executeJob before).2.job = before.job ∨
        (a.executeJob before).2.job = before.job.fail (a.stackTrace e))

/-- When the job throws, then with what closing saves it has changed nothing, or
    the transaction is marked, or the commit is refused. -/
def Clean (before : Stored G) : Prop :=
  ∀ e s, a.calls.execute a.now before.job (.opened before.graph) = (.error e, s) →
    let saved := a.services.saved (a.mark (before.job.fail (a.stackTrace e)) s)
    saved.isRollbackOnly = true ∨ (a.services.commit before.graph saved.objects).isOk = false ∨
      saved.objects = before.graph

theorem finish_graph (before : Stored G) (j : Job) (s : Session G) :
    (a.finish before j s).2.graph = (a.services.close before.graph (a.mark j s)).2 := rfl

theorem finish_job (before : Stored G) (j : Job) (s : Session G) :
    (a.finish before j s).2.job = before.job ∨ (a.finish before j s).2.job = j := by
  unfold finish
  dsimp only
  split
  · exact .inr rfl
  · exact .inl rfl

theorem executeJob_of_error {before : Stored G} {e : ε} {s : Session G}
    (h : a.calls.execute a.now before.job (.opened before.graph) = (.error e, s)) :
    a.executeJob before = a.finish before (before.job.fail (a.stackTrace e)) s := by
  rw [executeJob, h]

/-- The state is kept exactly if the attempt is clean. -/
theorem keepsState_iff (before : Stored G) : a.KeepsState before ↔ a.Clean before := by
  unfold KeepsState Clean
  refine forall_congr' fun e => forall_congr' fun s => forall_congr' fun h => ?_
  rw [a.executeJob_of_error h, finish_graph, Services.close_unchanged]
  exact and_iff_left (finish_job ..)

/-! ## Failed attempts before the last one -/

/-- A job without what an attempt may change in it. -/
def core (j : Job) : Job :=
  { j with exception := none, retries := 0, lockOwner := none, lockTime := none }

def SameOutcome (b b' : Stored G) : Prop := b.graph = b'.graph ∧ core b.job = core b'.job

/-- The attempts one after the other. -/
def attempts (as : List (Attempt ε G)) (before : Stored G) : Stored G :=
  as.foldl (fun b a => a.attempt b) before

/-- The job as it is acquired for the attempt. -/
def acquired (before : Stored G) : Stored G :=
  { before with job := before.job.lock a.lockOwner a.lockTime }

/-- Every one of the attempts fails and is clean. -/
def FailedCleanly : List (Attempt ε G) → Stored G → Prop
  | [], _ => True
  | a :: as, before =>
    a.Fails (a.acquired before) ∧ a.Clean (a.acquired before) ∧ FailedCleanly as (a.attempt before)

/-- The job is a timer with a transition to take. -/
def HasTransition (j : Job) : Prop := ∃ name repeat_ t, j.kind = .timer name repeat_ (some t)

/-- A failure has been recorded in the timer since `before`, and so its transition
    is not taken any more. -/
def TransitionLost (before after : Stored G) : Prop :=
  HasTransition before.job ∧ before.job.exception = none ∧ after.job.exception ≠ none

/-- The state in which the timer does not take its transition. -/
def withFailure (before : Stored G) : Stored G :=
  { before with job := { before.job with exception := some "" } }

theorem SameOutcome.refl (b : Stored G) : SameOutcome b b := ⟨rfl, rfl⟩

theorem SameOutcome.symm {b b' : Stored G} (h : SameOutcome b b') : SameOutcome b' b :=
  ⟨h.1.symm, h.2.symm⟩

theorem SameOutcome.trans {b b' b'' : Stored G} (h : SameOutcome b b') (h' : SameOutcome b' b'') :
    SameOutcome b b'' :=
  ⟨h.1.trans h'.1, h.2.trans h'.2⟩

theorem takeTransition_congr (c : Calls ε G) (t : Option String) {x y : Option String}
    (h : t = none ∨ x.isNone = y.isNone) : c.takeTransition t x = c.takeTransition t y := by
  rcases h with rfl | h
  · rfl
  · cases t <;> cases x <;> cases y <;> first | rfl | cases h

/-- Of what an attempt may change in a job, only the recorded exception has an
    influence on its execution, and only if the job has a transition. -/
theorem execute_congr (c : Calls ε G) (now : Nat) {j j' : Job} (h : core j = core j')
    (hx : ¬ HasTransition j ∨ j.exception.isNone = j'.exception.isNone) :
    c.execute now j = c.execute now j' := by
  have hk : (core j).kind = (core j').kind := by rw [h]
  have hd : (core j).dueDate = (core j').dueDate := by rw [h]
  simp only [core] at hk hd
  unfold Calls.execute
  rw [← hk]
  split
  · rename_i name repeat_ t hj
    have ht : t = none ∨ j.exception.isNone = j'.exception.isNone := by
      rcases hx with hx | hx
      · rcases t with _ | t
        · exact .inl rfl
        · exact absurd ⟨name, repeat_, t, hj⟩ hx
      · exact .inr hx
    simp only [Calls.executeTimer, takeTransition_congr c t ht, hd]
  · rw [Calls.executeNodeJob, Calls.executeNodeJob, hd]
  · rw [Calls.executeActionJob, Calls.executeActionJob, hd]

theorem finish_congr {b b' : Stored G} {j j' : Job} (s : Session G) (h : SameOutcome b b')
    (hj : core j = core j') (ht : j.lockTime = j'.lockTime) :
    SameOutcome (a.finish b j s).2 (a.finish b' j' s).2 := by
  have hm : a.mark j s = a.mark j' s := by rw [mark, mark, ht]
  refine ⟨?_, ?_⟩
  · rw [finish_graph, finish_graph, h.1, hm]
  · unfold finish
    dsimp only
    rw [h.1, hm]
    split
    · exact hj
    · exact h.2

/-- Attempts that acquire the same job come to the same. -/
theorem attempt_congr {b b' : Stored G} (h : SameOutcome b b')
    (hx : ¬ HasTransition b.job ∨ b.job.exception.isNone = b'.job.exception.isNone) :
    SameOutcome (a.attempt b) (a.attempt b') := by
  have hl : SameOutcome (a.acquired b) (a.acquired b') := h
  have he : a.calls.execute a.now (a.acquired b).job = a.calls.execute a.now (a.acquired b').job :=
    execute_congr a.calls a.now h.2 hx
  show SameOutcome (a.executeJob (a.acquired b)).2 (a.executeJob (a.acquired b')).2
  unfold executeJob
  rw [← hl.1, ← he]
  split
  · rename_i deleteThisJob dueDate s _
    refine a.finish_congr _ hl ?_ rfl
    exact congrArg (fun x : Job => { x with dueDate := dueDate }) h.2
  · exact a.finish_congr _ hl h.2 rfl

/-- An attempt that fails and is clean leaves the same. -/
theorem attempt_of_failed {before : Stored G} (hf : a.Fails (a.acquired before))
    (hc : a.Clean (a.acquired before)) : SameOutcome (a.attempt before) before := by
  obtain ⟨e, s, h⟩ := hf
  obtain ⟨hg, hj⟩ := (a.keepsState_iff _).mpr hc e s h
  refine ⟨hg, ?_⟩
  show core (a.executeJob (a.acquired before)).2.job = _
  rcases hj with hj | hj <;> rw [hj] <;> rfl

theorem executeJob_exception (before : Stored G) (h : before.job.exception ≠ none) :
    (a.executeJob before).2.job.exception ≠ none := by
  unfold executeJob
  split
  · rename_i deleteThisJob dueDate s _
    rcases a.finish_job before { before.job with dueDate := dueDate }
      (if deleteThisJob then { s with objects := a.deleteJob s.objects } else s) with hj | hj <;>
      rw [hj] <;> exact h
  · rename_i e s _
    rcases a.finish_job before (before.job.fail (a.stackTrace e)) s with hj | hj <;> rw [hj]
    · exact h
    · simp [fail]

theorem attempts_of_failed {as : List (Attempt ε G)} {before : Stored G}
    (h : FailedCleanly as before) : SameOutcome (attempts as before) before := by
  induction as generalizing before with
  | nil => exact .refl before
  | cons a as ih => exact (ih h.2.2).trans (a.attempt_of_failed h.1 h.2.1)

/-- A recorded exception stays. -/
theorem attempts_exception (as : List (Attempt ε G)) (before : Stored G)
    (h : before.job.exception ≠ none) : (attempts as before).job.exception ≠ none := by
  induction as generalizing before with
  | nil => exact h
  | cons a as ih => exact ih _ (a.executeJob_exception (a.acquired before) h)

/-- Clean failures before the last attempt go unnoticed, unless they cost a timer
    its transition. -/
theorem attempt_after_failed {as : List (Attempt ε G)} {before : Stored G}
    (h : FailedCleanly as before) (last : Attempt ε G) :
    SameOutcome (last.attempt (attempts as before)) (last.attempt before) ↔
      (TransitionLost before (attempts as before) →
        SameOutcome (last.attempt (withFailure before)) (last.attempt before)) := by
  have hs := attempts_of_failed h
  by_cases hl : TransitionLost before (attempts as before)
  · have hx : (attempts as before).job.exception.isNone =
        (withFailure before).job.exception.isNone := by
      simp [withFailure, Option.isSome_iff_ne_none, hl.2.2]
    have hw : SameOutcome (last.attempt (attempts as before)) (last.attempt (withFailure before)) :=
      last.attempt_congr hs (.inr hx)
    exact ⟨fun ho _ => hw.symm.trans ho, fun ho => hw.trans (ho hl)⟩
  · refine iff_of_true (last.attempt_congr hs ?_) (fun h' => absurd h' hl)
    have hk : (core (attempts as before).job).kind = (core before.job).kind := by rw [hs.2]
    by_cases ht : HasTransition (attempts as before).job
    · right
      have ht' : HasTransition before.job := by
        obtain ⟨n, r, t, hj⟩ := ht
        exact ⟨n, r, t, hk.symm.trans hj⟩
      rcases hb : before.job.exception with _ | x
      · rcases ha : (attempts as before).job.exception with _ | y
        · rfl
        · exact absurd ⟨ht', hb, by simp [ha]⟩ hl
      · have ha := attempts_exception as before (by simp [hb])
        simp [Option.isSome_iff_ne_none, ha]
    · exact .inl ht

/-- **Failing jobs.**  A failed attempt leaves the state as it was exactly if it
    is clean; attempts that failed and were clean make no difference for the one
    after them exactly if no timer has lost its transition by them, or taking it
    makes no difference. -/
theorem failed_attempts (before : Stored G) :
    (∀ a : Attempt ε G, a.KeepsState before ↔ a.Clean before) ∧
    ∀ (as : List (Attempt ε G)) (last : Attempt ε G), FailedCleanly as before →
      (SameOutcome (last.attempt (attempts as before)) (last.attempt before) ↔
        (TransitionLost before (attempts as before) →
          SameOutcome (last.attempt (withFailure before)) (last.attempt before))) :=
  ⟨fun a => a.keepsState_iff before, fun _ last h => attempt_after_failed h last⟩

/-! ## Failures that are noticed -/

/-- Attempts at a job of a process of which a number is the node of the token;
    nothing else works on it. -/
def ofCalls (c : Calls Unit Nat) : Attempt Unit Nat where
  services := ⟨[], fun _ _ => .ok (), .ok (), .ok ()⟩
  calls := c
  deleteJob := fun g => g
  stackTrace := fun _ => "at"
  nullPointer := ()
  lockOwner := "JbpmJobExecutor:1"
  lockTime := 0
  now := 0
  finished := 0
  maxLockTime := 0

/-- Taking a transition and executing a node both lead to the next node. -/
def working : Calls Unit Nat where
  graphElement := none
  action := none
  hasLeavingTransition := fun _ => pure true
  signal := fun _ => Throws.modify_ fun s => { s with objects := s.objects + 1 }
  unlockToken := pure ()
  executeNode := Throws.modify_ fun s => { s with objects := s.objects + 1 }
  executeAction := pure ()
  save := pure ()
  newDuration := fun _ => .error ()

/-- A node that leads on to one that throws. -/
def throwingLate : Calls Unit Nat :=
  { working with
    executeNode := do
      Throws.modify_ fun s => { s with objects := s.objects + 1 }
      Throws.throw_ () }

/-- A node, and the action of a timer, that throw at once. -/
def throwingFirst : Calls Unit Nat :=
  { working with executeNode := Throws.throw_ (), action := some (Throws.throw_ ()) }

def nodeJob : Job := (created 1 .executeNode 0 (some 1) (some 1) false).lock "JbpmJobExecutor:1" 0

def timer : Job :=
  (created 1 (.timer none none (some "late")) 0 (some 1) (some 1) false).lock "JbpmJobExecutor:1" 0

theorem throwingFirst_failed (j : Job) (h : j = nodeJob ∨ j = timer) :
    FailedCleanly [ofCalls throwingFirst] ⟨0, j⟩ := by
  rcases h with rfl | rfl <;> refine ⟨⟨(), _, rfl⟩, fun e s h => ?_, trivial⟩ <;> cases h <;>
    exact .inr (.inr rfl)

/-- The token has left its node though the job has thrown; and the timer that
    failed and succeeded has not taken its transition. -/
theorem not_keepsState :
    ¬ (ofCalls throwingLate).KeepsState ⟨0, nodeJob⟩ ∧
      FailedCleanly [ofCalls throwingFirst] ⟨0, timer⟩ ∧
      ¬ SameOutcome ((ofCalls working).attempt (attempts [ofCalls throwingFirst] ⟨0, timer⟩))
        ((ofCalls working).attempt ⟨0, timer⟩) := by
  refine ⟨fun h => ?_, throwingFirst_failed timer (.inr rfl), fun h => ?_⟩
  · exact absurd (h () ⟨1, [], false⟩ rfl).1 (by decide)
  · exact absurd h.1 (by decide)

theorem failed_attempts_node :
    SameOutcome ((ofCalls working).attempt (attempts [ofCalls throwingFirst] ⟨0, nodeJob⟩))
      ((ofCalls working).attempt ⟨0, nodeJob⟩) :=
  ((failed_attempts ⟨0, nodeJob⟩).2 [ofCalls throwingFirst] (ofCalls working)
    (throwingFirst_failed nodeJob (.inl rfl))).mpr fun h => by
      obtain ⟨⟨n, r, t, hk⟩, -⟩ := h
      cases hk

end Attempt

end Job

end Jbpm
