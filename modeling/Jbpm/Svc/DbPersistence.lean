/-
  The persistence service of a context, from its first use to `close`.

  * `getSession`, `getConnection`: what the service opens, and what it remembers of it;
  * `close_eq`: what `close` does and throws;
  * `mustConnectionBeClosed_iff`: a connection it opened is not closed once there is a
    session.

  What throws is given by an `Environment`.
-/
import Mathlib.Data.Nat.Notation
import Mathlib.Logic.Function.Basic
import Mathlib.Tactic.SplitIfs
import Jbpm.Java.Throws

namespace Jbpm

open Java

namespace Svc

namespace Closing

/-- Exceptions: `JbpmPersistenceException`, with or without a cause, other subclasses of
    `JbpmException`, and all others. -/
inductive Kind where
  | persistence (hasCause : Bool)
  | jbpm
  | other
  deriving DecidableEq

/-- What throws: saving a process instance, or closing a service. -/
inductive Step where
  | save (processInstance : ℕ)
  | close (serviceName : String)
  deriving DecidableEq

structure Failure where
  step : Step
  kind : Kind
  deriving DecidableEq

/-- What happens while a context is closed, with the failures of its steps. -/
inductive Effect where
  | save (processInstance : ℕ)
  | close (serviceName : String)
  | failed (f : Failure)
  | commit (succeeded : Bool)
  | rollback
  | flush
  | closeSession
  | closeConnection
  | contextClosed
  deriving DecidableEq

/-- A session is open or not, a connection is closed or not.  `openedSession` and
    `openedConnection` tell what the service opened itself. -/
structure DbPersistenceService where
  isTransactionEnabled : Bool
  transaction : Bool
  session : Option Bool
  connection : Option Bool
  mustSessionBeFlushed : Bool
  mustSessionBeClosed : Bool
  mustConnectionBeClosed : Bool
  openedSession : Bool
  openedConnection : Bool
  deriving DecidableEq

namespace DbPersistenceService

/-! ## Sessions and connections -/

structure Factory where
  isTransactionEnabled : Bool
  isCurrentSessionEnabled : Bool
  hasSessionFactory : Bool
  hasDataSource : Bool

variable (F : Factory)

def openService : DbPersistenceService where
  isTransactionEnabled := F.isTransactionEnabled
  transaction := false
  session := none
  connection := none
  mustSessionBeFlushed := false
  mustSessionBeClosed := false
  mustConnectionBeClosed := false
  openedSession := false
  openedConnection := false

/-- `getConnection(resolveSession)`; a connection of the session is the responsibility of
    the user. -/
def getConnectionWith (resolveSession : DbPersistenceService → DbPersistenceService)
    (d : DbPersistenceService) : DbPersistenceService :=
  if d.connection.isNone then
    if F.hasDataSource then
      { d with connection := some false, mustConnectionBeClosed := true, openedConnection := true }
    else
      let d := resolveSession d
      if d.session.isSome then
        { d with connection := some false, mustConnectionBeClosed := false }
      else d
  else d

def getSession (d : DbPersistenceService) : DbPersistenceService :=
  if d.session.isNone && F.hasSessionFactory then
    let d := getConnectionWith F id d
    let d :=
      if F.isCurrentSessionEnabled then
        { d with session := some true, mustSessionBeClosed := false, mustSessionBeFlushed := false,
                 mustConnectionBeClosed := false }
      else
        { d with session := some true, mustSessionBeClosed := true, mustSessionBeFlushed := true,
                 mustConnectionBeClosed := false, openedSession := true }
    if d.isTransactionEnabled then { d with transaction := true } else d
  else d

def getConnection : DbPersistenceService → DbPersistenceService := getConnectionWith F (getSession F)

/-- How a service is used before it is closed. -/
inductive Use where
  | getSession
  | getConnection

def use (d : DbPersistenceService) : Use → DbPersistenceService
  | .getSession => d.getSession F
  | .getConnection => d.getConnection F

variable {F} {d : DbPersistenceService}

variable (F) in
/-- What the service remembers of what it opened: the session, but the connection only while there
is no session. -/
structure Remembers (d : DbPersistenceService) : Prop where
  session : d.openedSession = d.mustSessionBeClosed
  unopened : d.session = none → d.openedSession = false
  connection : d.mustConnectionBeClosed = (d.openedConnection && d.session.isNone)
  fetched : F.hasDataSource = true → d.session.isSome = true → d.connection.isSome = true

theorem remembers_openService : (openService F).Remembers F :=
  ⟨rfl, fun _ => rfl, rfl, fun _ => nofun⟩

theorem Remembers.getConnectionWith {g : DbPersistenceService → DbPersistenceService}
    (h : d.Remembers F) (hg : F.hasDataSource = false → (g d).Remembers F) :
    (d.getConnectionWith F g).Remembers F := by
  rw [DbPersistenceService.getConnectionWith]
  split
  · next hnone =>
    split
    · next hsource =>
      have hsession : d.session = none := by
        by_contra hsome
        have := h.fetched hsource (Option.isSome_iff_ne_none.2 hsome)
        simp_all
      exact ⟨h.session, h.unopened, by simp [hsession], fun _ _ => rfl⟩
    · next hsource =>
      have hg := hg (by simpa using hsource)
      dsimp only
      split
      · next hsome =>
        obtain ⟨open_, hopen⟩ := Option.isSome_iff_exists.1 hsome
        exact ⟨hg.session, hg.unopened, by simp [hopen], fun _ _ => rfl⟩
      · exact hg
  · exact h

theorem connection_getConnectionWith (h : F.hasDataSource = true)
    (g : DbPersistenceService → DbPersistenceService) :
    (d.getConnectionWith F g).connection.isSome = true := by
  rw [DbPersistenceService.getConnectionWith, if_pos h]
  split
  · rfl
  · next hsome => simpa [Option.isSome_iff_ne_none] using hsome

theorem openedSession_getConnectionWith :
    (d.getConnectionWith F id).openedSession = d.openedSession := by
  simp only [DbPersistenceService.getConnectionWith, id]
  split
  · split
    · rfl
    · split <;> rfl
  · rfl

theorem Remembers.getSession (h : d.Remembers F) : (d.getSession F).Remembers F := by
  rw [DbPersistenceService.getSession]
  split
  · next hcond =>
    have hnone : d.session = none := by simpa using (Bool.and_eq_true_iff.1 hcond).1
    have hopened : (d.getConnectionWith F id).openedSession = false := by
      rw [openedSession_getConnectionWith]
      exact h.unopened hnone
    have hfetched := fun hF : F.hasDataSource = true => connection_getConnectionWith (d := d) hF id
    generalize d.getConnectionWith F id = d at hopened hfetched
    cases F.isCurrentSessionEnabled <;> cases hT : d.isTransactionEnabled <;>
      simp only [hT, Bool.false_eq_true, if_false, if_true] <;>
      constructor <;> simp_all
  · exact h

theorem Remembers.use (h : d.Remembers F) (u : Use) : (d.use F u).Remembers F := by
  cases u with
  | getSession => exact h.getSession
  | getConnection => exact h.getConnectionWith fun _ => h.getSession

theorem remembers_foldl (us : List Use) (h : d.Remembers F) :
    (us.foldl (DbPersistenceService.use F) d).Remembers F := by
  induction us generalizing d with
  | nil => exact h
  | cons u us ih => exact ih (h.use u)

/-- A connection that the service opened is not closed any more once it has a session. -/
theorem mustConnectionBeClosed_iff (us : List Use) {d : DbPersistenceService}
    (hd : us.foldl (DbPersistenceService.use F) (openService F) = d) :
    d.mustConnectionBeClosed = true ↔ d.openedConnection = true ∧ d.session = none := by
  have h : d.Remembers F := hd ▸ remembers_foldl us remembers_openService
  rw [h.connection, Bool.and_eq_true, Option.isNone_iff_eq_none]

end DbPersistenceService

/-! ## The end of the service -/

/-- The names of the services in the order in which they are configured, whether there is a
transaction service among them, and what the steps of closing a context throw, if anything. -/
structure Environment where
  serviceNames : List String
  hasTxServiceFactory : Bool
  save : ℕ → Option Kind
  close : String → Option Kind
  commitFails : Bool
  rollbackFails : Bool
  flushFails : Bool
  closeSessionFails : Bool
  closeConnectionFails : Bool

/-- A context with the services that are opened. -/
structure State where
  autoSaveProcessInstances : List ℕ
  opened : String → Bool
  isRollbackOnly : Bool
  db : DbPersistenceService
  trace : List Effect

def State.logs (es : List Effect) (s : State) : State := { s with trace := s.trace ++ es }

def State.noFlush (s : State) : State := { s with db := { s.db with mustSessionBeFlushed := false } }

def SERVICENAME_TX : String := "tx"
def SERVICENAME_PERSISTENCE : String := "persistence"

variable (E : Environment)

/-- `Services.getTxService`, as whether there is such a service; it is opened when it is asked for
first. -/
def getTxService : Throws Kind State Bool := fun s =>
  if s.opened SERVICENAME_TX then (.ok true, s)
  else if E.hasTxServiceFactory then
    (.ok true, { s with opened := Function.update s.opened SERVICENAME_TX true,
                        isRollbackOnly := false })
  else (.ok false, s)

namespace DbPersistenceService

def isRollbackOnly : Throws Kind State Bool := do
  if ← getTxService E then
    fun s => (.ok s.isRollbackOnly, s)
  else Throws.throw_ .jbpm -- no jbpm tx service configured

def isTransactionActive (d : DbPersistenceService) : Bool := d.isTransactionEnabled && d.transaction

/-! The following return an exception instead of throwing it; here is whether they do. -/

def commit : Throws Kind State Bool := fun s =>
  (.ok E.commitFails, s.noFlush.logs [.commit (!E.commitFails)])

def rollback : Throws Kind State Bool := fun s =>
  if s.db.transaction then (.ok E.rollbackFails, s.noFlush.logs [.rollback])
  else (.ok true, s.noFlush)

def flushSession : Throws Kind State Bool := fun s =>
  if s.db.mustSessionBeFlushed then
    if s.db.session.isSome then (.ok E.flushFails, s.logs [.flush]) else (.ok true, s)
  else (.ok false, s)

def closeSession : Throws Kind State Bool := fun s =>
  if s.db.mustSessionBeClosed then
    match s.db.session with
    | none => (.ok true, s)
    | some true => (.ok E.closeSessionFails, s.logs [.closeSession])
    | some false => (.ok false, s)
  else (.ok false, s)

def closeConnection : Throws Kind State Bool := fun s =>
  if s.db.mustConnectionBeClosed then
    if s.db.connection = some false then (.ok E.closeConnectionFails, s.logs [.closeConnection])
    else (.ok false, s)
  else (.ok false, s)

def closeAfterFailure : Throws Kind State Unit := do
  let _ ← closeSession E
  let _ ← closeConnection E
  Throws.throw_ (.persistence true)

def closeBoth : Throws Kind State Unit := do
  if ← closeSession E then
    let _ ← closeConnection E
    Throws.throw_ (.persistence true)
  else if ← closeConnection E then
    Throws.throw_ (.persistence true)

def flushAndClose : Throws Kind State Unit := do
  if ← flushSession E then
    let _ ← rollback E
    closeAfterFailure E
  else closeBoth E

/-- The first test of `close`, for transactions that are managed by the user. -/
def checkUserManaged (d : DbPersistenceService) : Throws Kind State Unit :=
  if d.session.isSome && !d.isTransactionActive then do
    if ← isRollbackOnly E then
      Throws.throw_ .jbpm
  else pure ()

def close : Throws Kind State Unit := fun s => (do
  checkUserManaged E s.db
  if s.db.isTransactionActive then
    if !(← isRollbackOnly E) then
      if ← commit E then
        let _ ← rollback E
        closeAfterFailure E
      else flushAndClose E
    else
      if ← rollback E then
        closeAfterFailure E
      else flushAndClose E
  else flushAndClose E) s

/-! ## What it comes to -/

/-- Whether the transaction is marked for rollback only, if there is a transaction service. -/
def rollbackOnly (s : State) : Option Bool :=
  if s.opened SERVICENAME_TX then some s.isRollbackOnly
  else if E.hasTxServiceFactory then some false
  else none

/-- The service throws before it does anything. -/
def refuses (s : State) : Bool :=
  if s.db.isTransactionActive then rollbackOnly E s == none
  else s.db.session.isSome && rollbackOnly E s != some false

def transactionFails (s : State) : Bool :=
  s.db.isTransactionActive &&
    (if rollbackOnly E s = some true then E.rollbackFails else E.commitFails)

def transactionEffects (s : State) : List Effect :=
  if s.db.isTransactionActive then
    if rollbackOnly E s = some true then [.rollback]
    else if E.commitFails then [.commit false, .rollback] else [.commit true]
  else []

variable (d : DbPersistenceService)

def flushingFails : Bool :=
  !d.isTransactionActive && d.mustSessionBeFlushed && (d.session.isNone || E.flushFails)

def flushEffects : List Effect :=
  if !d.isTransactionActive && d.mustSessionBeFlushed then
    (if d.session.isSome then [.flush] else []) ++
      if (d.session.isNone || E.flushFails) && d.transaction then [.rollback] else []
  else []

def sessionFails : Bool :=
  d.mustSessionBeClosed && (d.session.isNone || d.session == some true && E.closeSessionFails)

def sessionEffects : List Effect :=
  if d.mustSessionBeClosed && d.session == some true then [.closeSession] else []

def connectionFails : Bool :=
  d.mustConnectionBeClosed && d.connection == some false && E.closeConnectionFails

def connectionEffects : List Effect :=
  if d.mustConnectionBeClosed && d.connection == some false then [.closeConnection] else []

/-- Whether one of the steps fails. -/
def fails (s : State) : Bool :=
  transactionFails E s || flushingFails E s.db || sessionFails E s.db || connectionFails E s.db

def effects (s : State) : List Effect :=
  transactionEffects E s ++ flushEffects E s.db ++ sessionEffects s.db ++ connectionEffects s.db

end DbPersistenceService

/-- What a persistence service does. -/
def Effect.isInner : Effect → Bool
  | .commit _ | .rollback | .flush | .closeSession | .closeConnection => true
  | .save _ | .close _ | .failed _ | .contextClosed => false

/-- Nothing is closed, and no service opened but the transaction service. -/
structure Continues (s : State) (es : List Effect) (s' : State) : Prop where
  trace : s'.trace = s.trace ++ es
  autoSave : s'.autoSaveProcessInstances = s.autoSaveProcessInstances
  opened : ∀ n, n ≠ SERVICENAME_TX → s'.opened n = s.opened n
  tx : s.opened SERVICENAME_TX = true → s'.opened SERVICENAME_TX = true

namespace Continues

variable {s s' s'' : State} {es es' : List Effect}

theorem logs (s : State) (es : List Effect) : Continues s es (s.logs es) :=
  ⟨rfl, rfl, fun _ _ => rfl, id⟩

theorem refl (s : State) : Continues s [] s :=
  ⟨(List.append_nil _).symm, rfl, fun _ _ => rfl, id⟩

theorem noFlush (s : State) : Continues s [] s.noFlush :=
  ⟨(List.append_nil _).symm, rfl, fun _ _ => rfl, id⟩

theorem trans (h : Continues s es s') (h' : Continues s' es' s'') :
    Continues s (es ++ es') s'' where
  trace := by rw [h'.trace, h.trace, List.append_assoc]
  autoSave := h'.autoSave.trans h.autoSave
  opened n hn := (h'.opened n hn).trans (h.opened n hn)
  tx ht := h'.tx (h.tx ht)

end Continues

namespace DbPersistenceService

variable {E} {s : State}

theorem isInner_of_mem_effects {e : Effect} (h : e ∈ effects E s) : e.isInner = true := by
  simp only [effects, List.mem_append] at h
  rcases h with ((h | h) | h) | h
  · rw [transactionEffects] at h
    split_ifs at h <;> revert e <;> simp [Effect.isInner]
  · rw [flushEffects] at h
    split_ifs at h <;> revert e <;> simp [Effect.isInner]
  · rw [sessionEffects] at h
    split_ifs at h <;> revert e <;> simp [Effect.isInner]
  · rw [connectionEffects] at h
    split_ifs at h <;> revert e <;> simp [Effect.isInner]

theorem closeSession_mem_effects : .closeSession ∈ effects E s ↔
    s.db.mustSessionBeClosed = true ∧ s.db.session = some true := by
  simp only [effects, transactionEffects, flushEffects, sessionEffects, connectionEffects,
    List.mem_append]
  grind

theorem closeConnection_mem_effects : .closeConnection ∈ effects E s ↔
    s.db.mustConnectionBeClosed = true ∧ s.db.connection = some false := by
  simp only [effects, transactionEffects, flushEffects, sessionEffects, connectionEffects,
    List.mem_append]
  grind

theorem commit_mem_effects (h : s.db.isTransactionActive = true) : .commit true ∈ effects E s ↔
    rollbackOnly E s ≠ some true ∧ E.commitFails = false := by
  simp only [effects, transactionEffects, flushEffects, sessionEffects, connectionEffects,
    List.mem_append]
  grind

theorem rollback_mem_effects (h : s.db.isTransactionActive = true) : .rollback ∈ effects E s ↔
    rollbackOnly E s = some true ∨ E.commitFails = true := by
  simp only [effects, transactionEffects, flushEffects, sessionEffects, connectionEffects,
    List.mem_append]
  grind

-- what the simplifier reads of the database in a state that an effect has led to
@[simp]
theorem logs_db (es : List Effect) : (s.logs es).db = s.db := rfl

@[simp]
theorem sessionEffects_noFlush : sessionEffects s.noFlush.db = sessionEffects s.db := rfl

@[simp]
theorem connectionEffects_noFlush : connectionEffects s.noFlush.db = connectionEffects s.db := rfl

@[simp]
theorem transaction_noFlush : s.noFlush.db.transaction = s.db.transaction := rfl

theorem logs_nil : s.logs [] = s := by
  rw [State.logs, List.append_nil]

theorem logs_logs (es es' : List Effect) : (s.logs es).logs es' = s.logs (es ++ es') := by
  rw [State.logs, State.logs, State.logs, List.append_assoc]

theorem closeSession_run : closeSession E s =
    (.ok (sessionFails E s.db), s.logs (sessionEffects s.db)) := by
  rw [closeSession, sessionFails, sessionEffects]
  cases s.db.mustSessionBeClosed with
  | false => simp [logs_nil]
  | true => rcases s.db.session with _ | _ | _ <;> simp [logs_nil]

theorem closeConnection_run : closeConnection E s =
    (.ok (connectionFails E s.db), s.logs (connectionEffects s.db)) := by
  rw [closeConnection, connectionFails, connectionEffects]
  cases s.db.mustConnectionBeClosed with
  | false => simp [logs_nil]
  | true => by_cases h : s.db.connection = some false <;> simp [h, logs_nil]

theorem closeAfterFailure_run : closeAfterFailure E s =
    (.error (.persistence true), s.logs (sessionEffects s.db ++ connectionEffects s.db)) := by
  rw [closeAfterFailure, Throws.bind_of_ok closeSession_run, Throws.bind_of_ok closeConnection_run,
    logs_logs]
  rfl

/-- What is thrown after the transaction has ended, or if there is none. -/
def endsWith (failed : Bool) : Except Kind Unit :=
  if failed then .error (.persistence true) else .ok ()

theorem closeBoth_run : closeBoth E s =
    (endsWith (sessionFails E s.db || connectionFails E s.db),
      s.logs (sessionEffects s.db ++ connectionEffects s.db)) := by
  rw [closeBoth, Throws.bind_of_ok closeSession_run, ← logs_logs]
  cases sessionFails E s.db with
  | true =>
    rw [if_pos rfl, Throws.bind_of_ok closeConnection_run]
    rfl
  | false =>
    rw [if_neg Bool.false_ne_true, Throws.bind_of_ok closeConnection_run]
    change (if connectionFails E s.db = true then _ else _ : Throws Kind State Unit) _ = _
    cases connectionFails E s.db <;> rfl

theorem flushAndClose_of_noFlush (h : s.db.mustSessionBeFlushed = false) : flushAndClose E s =
    (endsWith (sessionFails E s.db || connectionFails E s.db),
      s.logs (sessionEffects s.db ++ connectionEffects s.db)) := by
  have hflush : flushSession E s = (.ok false, s) := by
    rw [flushSession, h]
    rfl
  rw [flushAndClose, Throws.bind_of_ok hflush]
  exact closeBoth_run

theorem flushSession_run (h : s.db.mustSessionBeFlushed = true) : flushSession E s =
    (.ok (s.db.session.isNone || E.flushFails),
      s.logs (if s.db.session.isSome then [.flush] else [])) := by
  rw [flushSession, if_pos h]
  cases s.db.session with
  | none => simp [logs_nil]
  | some open_ => simp

theorem rollback_run : rollback E s = (.ok (!s.db.transaction || E.rollbackFails),
    s.noFlush.logs (if s.db.transaction then [.rollback] else [])) := by
  rw [rollback]
  cases s.db.transaction <;> simp [logs_nil]

/-- Without a transaction, and after a transaction has ended. -/
theorem flushAndClose_run (h : s.db.isTransactionActive = false) :
    (flushAndClose E s).1 = endsWith (fails E s) ∧
      Continues s (effects E s) (flushAndClose E s).2 := by
  cases hflush : s.db.mustSessionBeFlushed with
  | false =>
    rw [flushAndClose_of_noFlush hflush]
    simpa [fails, effects, transactionFails, transactionEffects, flushingFails, flushEffects, h,
      hflush] using Continues.logs s _
  | true =>
    rw [flushAndClose, Throws.bind_of_ok (flushSession_run hflush)]
    cases hfail : (s.db.session.isNone || E.flushFails) with
    | true =>
      rw [if_pos rfl, Throws.bind_of_ok rollback_run, closeAfterFailure_run]
      refine ⟨by simp [fails, flushingFails, h, hflush, hfail, endsWith], ?_⟩
      have := ((Continues.logs s (if s.db.session.isSome then [.flush] else [])).trans
        (.noFlush _)).trans (.logs _ (if s.db.transaction then [.rollback] else []))
      have := this.trans (.logs _ (sessionEffects s.db ++ connectionEffects s.db))
      cases ht : s.db.transaction <;>
        simpa [effects, transactionEffects, flushEffects, h, hflush, hfail, ht] using this
    | false =>
      rw [if_neg Bool.false_ne_true, closeBoth_run]
      refine ⟨by simp [fails, transactionFails, flushingFails, h, hflush, hfail, State.logs], ?_⟩
      have := (Continues.logs s (if s.db.session.isSome then [.flush] else [])).trans
        (.logs _ (sessionEffects s.db ++ connectionEffects s.db))
      simpa [effects, transactionEffects, flushEffects, h, hflush, hfail] using this

/-- If there is a transaction service, it is opened now. -/
theorem getTxService_run (s : State) : ∃ s', getTxService E s =
      (.ok (rollbackOnly E s).isSome, s') ∧ Continues s [] s' ∧ s'.db = s.db ∧
    ∀ marked, rollbackOnly E s = some marked → s'.isRollbackOnly = marked ∧
      rollbackOnly E s' = some marked := by
  simp only [getTxService, rollbackOnly]
  split
  · next ht => exact ⟨s, rfl, .refl s, rfl, by simp [ht]⟩
  · next ht =>
    split
    · refine ⟨_, rfl, ⟨by simp, rfl, fun n hn => ?_, fun h => absurd h ht⟩, rfl, by simp⟩
      exact Function.update_of_ne hn ..
    · exact ⟨s, rfl, .refl s, rfl, by simp⟩

theorem isRollbackOnly_run (s : State) : ∃ s', Continues s [] s' ∧ s'.db = s.db ∧
    (rollbackOnly E s = none → isRollbackOnly E s = (.error .jbpm, s')) ∧
    ∀ marked, rollbackOnly E s = some marked → isRollbackOnly E s = (.ok marked, s') ∧
      rollbackOnly E s' = some marked := by
  obtain ⟨s', hrun, hcont, hdb, hmarked⟩ := getTxService_run (E := E) s
  refine ⟨s', hcont, hdb, fun h => ?_, fun marked h => ?_⟩
  · rw [isRollbackOnly, Throws.bind_of_ok hrun, h]
    rfl
  · rw [isRollbackOnly, Throws.bind_of_ok hrun, h]
    obtain ⟨hflag, hafter⟩ := hmarked marked h
    exact ⟨Prod.ext (congrArg Except.ok hflag) rfl, hafter⟩

/-- The end of `close` after the transaction has ended, well or not. -/
theorem close_transaction {s₁ : State} (h : s.db.isTransactionActive = true)
    (hdb : s₁.db = s.noFlush.db) (hcont : Continues s (transactionEffects E s) s₁) :
    ∃ s', (if transactionFails E s then closeAfterFailure E else flushAndClose E) s₁ =
        (endsWith (fails E s), s') ∧ Continues s (effects E s) s' := by
  have hfails : fails E s =
      (transactionFails E s || sessionFails E s.db || connectionFails E s.db) := by
    simp [fails, flushingFails, h]
  have heffects : effects E s =
      transactionEffects E s ++ (sessionEffects s₁.db ++ connectionEffects s₁.db) := by
    simp [effects, flushEffects, h, hdb]
  have hsession : sessionFails E s₁.db = sessionFails E s.db := hdb ▸ rfl
  have hconnection : connectionFails E s₁.db = connectionFails E s.db := hdb ▸ rfl
  refine ⟨s₁.logs (sessionEffects s₁.db ++ connectionEffects s₁.db), ?_,
    heffects ▸ hcont.trans (.logs _ _)⟩
  rw [hfails]
  cases transactionFails E s with
  | true => exact closeAfterFailure_run
  | false =>
    rw [if_neg Bool.false_ne_true, flushAndClose_of_noFlush (hdb ▸ rfl), hsession, hconnection,
      Bool.false_or]

theorem commit_run : commit E s =
    (.ok E.commitFails, s.noFlush.logs [.commit (!E.commitFails)]) := rfl

/-- With a transaction that is not marked. -/
theorem commit_close (h : s.db.isTransactionActive = true) (hm : rollbackOnly E s = some false) :
    ∃ s', (do
      if ← commit E then
        let _ ← rollback E
        closeAfterFailure E
      else flushAndClose E : Throws Kind State Unit) s = (endsWith (fails E s), s') ∧
      Continues s (effects E s) s' := by
  have ht : s.db.transaction = true := (Bool.and_eq_true_iff.1 h).2
  have hcommit := (Continues.noFlush s).trans (.logs _ [.commit (!E.commitFails)])
  have hfails : transactionFails E s = E.commitFails := by simp [transactionFails, h, hm]
  have htrans := fun s₁ => @close_transaction E s s₁ h
  simp only [hfails] at htrans
  rw [Throws.bind_of_ok commit_run]
  cases hfail : E.commitFails with
  | true =>
    simp only [hfail] at htrans
    rw [if_pos rfl, Throws.bind_of_ok rollback_run]
    refine htrans _ rfl ?_
    simpa [transactionEffects, h, hm, hfail, ht] using
      (hcommit.trans (.noFlush _)).trans (.logs _ [.rollback])
  | false =>
    simp only [hfail] at htrans
    rw [if_neg Bool.false_ne_true]
    refine htrans _ rfl ?_
    simpa [transactionEffects, h, hm, hfail] using hcommit

/-- With a transaction that is marked. -/
theorem rollback_close (h : s.db.isTransactionActive = true) (hm : rollbackOnly E s = some true) :
    ∃ s', (do
      if ← rollback E then
        closeAfterFailure E
      else flushAndClose E : Throws Kind State Unit) s = (endsWith (fails E s), s') ∧
      Continues s (effects E s) s' := by
  have ht : s.db.transaction = true := (Bool.and_eq_true_iff.1 h).2
  have hfails : transactionFails E s = (!s.db.transaction || E.rollbackFails) := by
    simp [transactionFails, h, hm, ht]
  have htrans := fun s₁ => @close_transaction E s s₁ h
  simp only [hfails] at htrans
  rw [Throws.bind_of_ok rollback_run]
  refine htrans _ rfl ?_
  simpa [transactionEffects, h, hm, ht] using (Continues.noFlush s).trans (.logs _ [.rollback])

/-- What the service looks at is the same once the transaction service is opened. -/
theorem effects_congr {s' : State} (hdb : s'.db = s.db)
    (hmarked : rollbackOnly E s' = rollbackOnly E s) :
    fails E s' = fails E s ∧ effects E s' = effects E s := by
  simp only [fails, effects, transactionFails, transactionEffects, hdb, hmarked, and_self]

/-- What `close` throws, and what it does before. -/
theorem close_spec (s : State) :
    (close E s).1 = (if refuses E s then .error .jbpm else endsWith (fails E s)) ∧
    Continues s (if refuses E s then [] else effects E s) (close E s).2 := by
  obtain ⟨s', hcont, hdb, hnone, hsome⟩ := isRollbackOnly_run (E := E) s
  cases hactive : s.db.isTransactionActive with
  | true =>
    have hcheck : checkUserManaged E s.db s = (.ok (), s) := by
      rw [checkUserManaged, hactive, Bool.not_true, Bool.and_false, if_neg Bool.false_ne_true]
      rfl
    rw [close, Throws.bind_of_ok hcheck, hactive, if_pos rfl]
    cases hm : rollbackOnly E s with
    | none =>
      rw [Throws.bind_of_error (hnone hm)]
      simpa [refuses, hactive, hm] using hcont
    | some marked =>
      obtain ⟨hrun, hm'⟩ := hsome marked hm
      obtain ⟨hfails, heffects⟩ := effects_congr hdb (hm'.trans hm.symm)
      have hrefuses : refuses E s = false := by simp [refuses, hactive, hm]
      rw [Throws.bind_of_ok hrun, hrefuses, if_neg Bool.false_ne_true, if_neg Bool.false_ne_true,
        ← hfails, ← heffects]
      rw [← hdb] at hactive
      cases marked with
      | false =>
        obtain ⟨s'', hend, hcont'⟩ := commit_close hactive hm'
        rw [if_pos (by rfl), hend]
        exact ⟨rfl, hcont.trans hcont'⟩
      | true =>
        obtain ⟨s'', hend, hcont'⟩ := rollback_close hactive hm'
        rw [if_neg (by decide), hend]
        exact ⟨rfl, hcont.trans hcont'⟩
  | false =>
    cases hsession : s.db.session.isSome with
    | false =>
      have hcheck : checkUserManaged E s.db s = (.ok (), s) := by
        rw [checkUserManaged, hsession, Bool.false_and, if_neg Bool.false_ne_true]
        rfl
      have hrefuses : refuses E s = false := by simp [refuses, hactive, hsession]
      rw [close, Throws.bind_of_ok hcheck, hactive, hrefuses]
      exact flushAndClose_run hactive
    | true =>
      have hcheck : checkUserManaged E s.db = (do
          if ← isRollbackOnly E then
            Throws.throw_ .jbpm) := by
        rw [checkUserManaged, hsession, hactive]
        rfl
      rw [close, hcheck]
      cases hm : rollbackOnly E s with
      | none =>
        rw [Throws.bind_of_error (Throws.bind_of_error (hnone hm) _)]
        simpa [refuses, hactive, hsession, hm] using hcont
      | some marked =>
        obtain ⟨hrun, hm'⟩ := hsome marked hm
        obtain ⟨hfails, heffects⟩ := effects_congr hdb (hm'.trans hm.symm)
        cases marked with
        | true =>
          rw [Throws.bind_of_error ((Throws.bind_of_ok hrun _).trans rfl)]
          simpa [refuses, hactive, hsession, hm] using hcont
        | false =>
          have hrefuses : refuses E s = false := by simp [refuses, hactive, hm]
          rw [Throws.bind_of_ok ((Throws.bind_of_ok hrun _).trans rfl), hactive, hrefuses,
            ← hfails, ← heffects]
          rw [← hdb] at hactive
          obtain ⟨hend, hcont'⟩ := flushAndClose_run (E := E) hactive
          exact ⟨hend, hcont.trans hcont'⟩

end DbPersistenceService

end Closing

end Svc

end Jbpm
