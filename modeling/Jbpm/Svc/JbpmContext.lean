/-
  The context of a call and its end.  A context works on the objects of a
  Hibernate session; `close` saves the process instances registered for it and
  closes the services, of which the persistence service commits or rolls back.

  `P` is the persistent state, as the database and the session see it; saving a
  process instance brings into the session what is not there yet (logs, new
  instances).
-/
import Jbpm.Java.Throws

namespace Jbpm

open Java

namespace Svc

/-- The session of a context, with the flag of the transaction service. -/
structure Session (P : Type) where
  objects : P
  autoSaveProcessInstances : List Nat
  isRollbackOnly : Bool

/-- What a context is configured with: the save operations, the database, which
    may refuse to replace the committed state by that of a session, and what is
    thrown, if anything, when a transaction is rolled back and when the session,
    the connection and the other services are closed. -/
structure Services (ε P : Type) where
  saveOperations : List (Nat → Throws ε (Session P) Unit)
  commit : P → P → Except ε Unit
  rollback : Except ε Unit
  closing : Except ε Unit

variable {ε P α : Type}

def Session.opened (committed : P) : Session P := ⟨committed, [], false⟩

namespace Services

variable (v : Services ε P)

/-- `Services.save` runs the save operations one after the other. -/
def save (processInstance : Nat) : Throws ε (Session P) Unit :=
  go v.saveOperations
where
  go : List (Nat → Throws ε (Session P) Unit) → Throws ε (Session P) Unit
    | [] => pure ()
    | op :: ops => do
      op processInstance
      go ops

/-- The loop of `JbpmContext.autoSave`. -/
def autoSaveAll : List Nat → Throws ε (Session P) Unit
  | [] => pure ()
  | processInstance :: rest => do
    v.save processInstance
    Throws.modify_ fun s => { s with autoSaveProcessInstances := rest }
    autoSaveAll rest

def autoSave : Throws ε (Session P) Unit := fun s => v.autoSaveAll s.autoSaveProcessInstances s

/-- `DbPersistenceService.close`: a commit that fails is rolled back. -/
def closePersistence (committed : P) (s : Session P) : Except ε Unit × P :=
  if s.isRollbackOnly then (v.rollback, committed)
  else
    match v.commit committed s.objects with
    | .ok () => (.ok (), s.objects)
    | .error e => (.error e, committed)

/-- `Services.close`: all services are closed, and the first exception is thrown. -/
def closeServices (committed : P) (s : Session P) : Except ε Unit × P :=
  match v.closePersistence committed s with
  | (.ok (), committed') => (v.closing, committed')
  | (.error e, committed') => (.error e, committed')

/-- `JbpmContext.close`: the services are closed also if a save throws. -/
def close (committed : P) (s : Session P) : Except ε Unit × P :=
  match v.closeServices committed (v.autoSave s).2 with
  | (.ok (), committed') => ((v.autoSave s).1, committed')
  | (.error e, committed') => (.error e, committed')

/-- The session as `close` leaves it to the persistence service. -/
def saved (s : Session P) : Session P := (v.autoSave s).2

/-- Whether the persistence service commits a session. -/
def commits (committed : P) (s : Session P) : Bool :=
  !s.isRollbackOnly && (v.commit committed s.objects).isOk

theorem closePersistence_snd (committed : P) (s : Session P) :
    (v.closePersistence committed s).2 = if v.commits committed s then s.objects else committed := by
  unfold closePersistence commits
  rcases s.isRollbackOnly
  · rcases v.commit committed s.objects with e | u <;> rfl
  · rfl

theorem closePersistence_fst (committed : P) (s : Session P) :
    (v.closePersistence committed s).1 = .ok () ↔
      if s.isRollbackOnly then v.rollback = .ok () else v.commits committed s := by
  unfold closePersistence commits
  rcases s.isRollbackOnly
  · rcases v.commit committed s.objects with e | u <;> simp [Except.isOk, Except.toBool]
  · simp

theorem closeServices_snd (committed : P) (s : Session P) :
    (v.closeServices committed s).2 = (v.closePersistence committed s).2 := by
  unfold closeServices
  rcases v.closePersistence committed s with ⟨e | u, c⟩ <;> rfl

theorem closeServices_fst (committed : P) (s : Session P) :
    (v.closeServices committed s).1 = .ok () ↔
      (v.closePersistence committed s).1 = .ok () ∧ v.closing = .ok () := by
  unfold closeServices
  rcases v.closePersistence committed s with ⟨e | u, c⟩ <;> simp

/-- What is committed: the session with what was saved, or what was before. -/
theorem close_snd (committed : P) (s : Session P) :
    (v.close committed s).2 =
      if v.commits committed (v.saved s) then (v.saved s).objects else committed := by
  rw [← closePersistence_snd, ← closeServices_snd, close, saved]
  rcases v.closeServices committed (v.autoSave s).2 with ⟨e | u, c⟩ <;> rfl

/-- What was committed before is so after only if the session is not committed,
    or no different. -/
theorem close_unchanged (committed : P) (s : Session P) :
    (v.close committed s).2 = committed ↔
      (v.saved s).isRollbackOnly = true ∨ (v.commit committed (v.saved s).objects).isOk = false ∨
        (v.saved s).objects = committed := by
  rw [close_snd, commits]
  cases (v.saved s).isRollbackOnly <;> cases (v.commit committed (v.saved s).objects).isOk <;> simp

/-- `close` throws nothing if every part of it ends well. -/
theorem close_fst (committed : P) (s : Session P) :
    (v.close committed s).1 = .ok () ↔ (v.autoSave s).1 = .ok () ∧ v.closing = .ok () ∧
      if (v.saved s).isRollbackOnly then v.rollback = .ok ()
      else v.commits committed (v.saved s) := by
  rw [← closePersistence_fst, close, saved]
  have hk := v.closeServices_fst committed (v.autoSave s).2
  rw [and_comm (a := v.closing = .ok ()), ← hk]
  rcases v.closeServices committed (v.autoSave s).2 with ⟨e | u, c⟩ <;> simp

end Services

end Svc

end Jbpm
