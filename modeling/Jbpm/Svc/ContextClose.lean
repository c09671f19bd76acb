/-
  The end of a context: its instances are saved, its services closed, and it is taken
  from the stack.

  * `close`: `JbpmContext.close`;
  * `closeAll_loop`: what the loop over the services does;
  * `closesAll_iff`: when everything is closed, and committed or rolled back as a whole.
-/
import Mathlib.Data.List.Count
import Jbpm.Svc.DbPersistence

namespace Jbpm

open Java

namespace Svc

namespace Closing

/-- What `close` throws: an exception of one of the steps, a `JbpmException` around one, or a
    `NullPointerException`. -/
inductive Thrown where
  | failure (f : Failure)
  | wrapped (f : Failure)
  | nullPointer
  deriving DecidableEq

section Close

variable (E : Environment)

def save (processInstance : ℕ) : Throws Thrown State Unit := fun s =>
  match E.save processInstance with
  | none => (.ok (), s.logs [.save processInstance])
  | some kind =>
    (.error (.failure ⟨.save processInstance, kind⟩),
      s.logs [.save processInstance, .failed ⟨.save processInstance, kind⟩])

/-- The loop of `JbpmContext.autoSave`. -/
def autoSaveAll : List ℕ → Throws Thrown State Unit
  | [] => pure ()
  | processInstance :: rest => do
    save E processInstance
    Throws.modify_ fun s => { s with autoSaveProcessInstances := rest }
    autoSaveAll rest

def autoSave : Throws Thrown State Unit := fun s => autoSaveAll E s.autoSaveProcessInstances s

/-- `Service.close`; there is nothing to do for the transaction service. -/
def closeService (serviceName : String) : Throws Kind State Unit :=
  if serviceName = SERVICENAME_PERSISTENCE then DbPersistenceService.close E
  else if serviceName = SERVICENAME_TX then pure ()
  else
    match E.close serviceName with
    | none => pure ()
    | some kind => Throws.throw_ kind

/-- The loop of `Services.close`.  The handler for a `JbpmPersistenceException` asks for the class
    of its cause. -/
def closeAll : List String → Option Failure → Throws Thrown State (Option Failure)
  | [], firstException => pure firstException
  | serviceName :: rest, firstException => fun s =>
    if s.opened serviceName then
      match closeService E serviceName (s.logs [.close serviceName]) with
      | (.ok (), s) => closeAll rest firstException s
      | (.error kind, s) =>
        let f := ⟨.close serviceName, kind⟩
        if kind = .persistence false then (.error .nullPointer, s.logs [.failed f])
        else closeAll rest (firstException.or (some f)) (s.logs [.failed f])
    else closeAll rest firstException s

/-- What is thrown for the first exception of the loop. -/
def rethrown (f : Failure) : Thrown := if f.kind = .other then .wrapped f else .failure f

/-- `Services.close` -/
def closeServices : Throws Thrown State Unit := do
  match ← closeAll E E.serviceNames none with
  | none => pure ()
  | some f => Throws.throw_ (rethrown f)

/-- `JbpmConfiguration.jbpmContextClosed`, of the current context. -/
def jbpmContextClosed : Throws Thrown State Unit := Throws.modify_ fun s => s.logs [.contextClosed]

/-- `JbpmContext.close` -/
def close : Throws Thrown State Unit :=
  Throws.tryFinally_ (Throws.tryFinally_ (autoSave E) (closeServices E)) jbpmContextClosed

end Close

/-! ## What is to be -/

def Effect.closing? : Effect → Option String
  | .close serviceName => some serviceName
  | _ => none

def Effect.failure? : Effect → Option Failure
  | .failed f => some f
  | _ => none

def closings (es : List Effect) : List String := es.filterMap Effect.closing?

def failures (es : List Effect) : List Failure := es.filterMap Effect.failure?

/-- The opened services are closed in the configured order, the first failure is thrown, what was
    opened is released, and the transaction is committed if and only if it is as it should. -/
structure ClosesAll (E : Environment) (s : State) (r : Except Thrown Unit × State) : Prop where
  order : (closings r.2.trace).Sublist E.serviceNames
  once : ∀ n, s.opened n = true → (closings r.2.trace).count n = 1
  first : ∀ f, (failures r.2.trace).head? = some f →
    r.1 = .error (.failure f) ∨ r.1 = .error (.wrapped f)
  ok : failures r.2.trace = [] → r.1 = .ok ()
  session : s.opened SERVICENAME_PERSISTENCE = true → s.db.openedSession = true →
    s.db.session = some true → .closeSession ∈ r.2.trace
  connection : s.opened SERVICENAME_PERSISTENCE = true → s.db.openedConnection = true →
    s.db.connection = some false → .closeConnection ∈ r.2.trace
  context : r.2.trace.getLast? = some .contextClosed
  committed : s.opened SERVICENAME_PERSISTENCE = true → s.db.isTransactionActive = true →
    .commit true ∈ r.2.trace →
      DbPersistenceService.rollbackOnly E s ≠ some true ∧
        ∀ pi ∈ s.autoSaveProcessInstances, E.save pi = none
  rolledBack : s.opened SERVICENAME_PERSISTENCE = true → s.db.isTransactionActive = true →
    .commit true ∉ r.2.trace → .rollback ∈ r.2.trace

/-- The condition. -/
structure Orderly (E : Environment) (s : State) : Prop where
  configured : ∀ n, s.opened n = true → E.serviceNames.count n = 1
  cause : ∀ n, s.opened n = true → n ≠ SERVICENAME_PERSISTENCE → n ≠ SERVICENAME_TX →
    E.close n ≠ some (.persistence false)
  saves : (∃ pi ∈ s.autoSaveProcessInstances, E.save pi ≠ none) →
    (∀ n, s.opened n = true → n ≠ SERVICENAME_PERSISTENCE → n ≠ SERVICENAME_TX →
      E.close n = none) ∧
    (s.opened SERVICENAME_PERSISTENCE = true →
      DbPersistenceService.refuses E s = false ∧ DbPersistenceService.fails E s = false ∧
        (s.db.isTransactionActive = true → DbPersistenceService.rollbackOnly E s = some true))
  transaction : s.opened SERVICENAME_PERSISTENCE = true → s.db.isTransactionActive = true →
    DbPersistenceService.rollbackOnly E s ≠ none
  session : s.opened SERVICENAME_PERSISTENCE = true → s.db.openedSession = true →
    s.db.session = some true →
      s.db.mustSessionBeClosed = true ∧ DbPersistenceService.refuses E s = false
  connection : s.opened SERVICENAME_PERSISTENCE = true → s.db.openedConnection = true →
    s.db.connection = some false →
      s.db.mustConnectionBeClosed = true ∧ DbPersistenceService.refuses E s = false

/-! ## One service -/

section Service

open DbPersistenceService

variable (E : Environment)

/-- What closing a service comes to. -/
def outcome (s : State) (n : String) : Except Kind Unit :=
  if n = SERVICENAME_PERSISTENCE then
    if refuses E s then .error .jbpm else endsWith (fails E s)
  else if n = SERVICENAME_TX then .ok ()
  else
    match E.close n with
    | none => .ok ()
    | some kind => .error kind

def innerEffects (s : State) (n : String) : List Effect :=
  if n = SERVICENAME_PERSISTENCE then if refuses E s then [] else effects E s else []

def serviceFailure (s : State) (n : String) : Option Failure :=
  match outcome E s n with
  | .ok () => none
  | .error kind => some ⟨.close n, kind⟩

/-- All that happens when it is the turn of a service. -/
def serviceEffects (s : State) (n : String) : List Effect :=
  .close n :: (innerEffects E s n ++ ((serviceFailure E s n).map Effect.failed).toList)

variable {E} {s : State} {n : String}

variable (E n) in
/-- Other services may throw a `JbpmPersistenceException` without a cause. -/
def ThrowsNoCause : Prop :=
  n ≠ SERVICENAME_PERSISTENCE ∧ n ≠ SERVICENAME_TX ∧ E.close n = some (.persistence false)

theorem outcome_eq_iff : outcome E s n = .error (.persistence false) ↔ ThrowsNoCause E n := by
  rw [outcome, ThrowsNoCause]
  by_cases hp : n = SERVICENAME_PERSISTENCE
  · rw [if_pos hp]
    cases refuses E s <;> cases fails E s <;> simp [endsWith, hp]
  · by_cases ht : n = SERVICENAME_TX
    · simp [ht, show SERVICENAME_TX ≠ SERVICENAME_PERSISTENCE by decide]
    · cases E.close n <;> simp [hp, ht]

theorem closeService_spec (s : State) (n : String) :
    (closeService E n s).1 = outcome E s n ∧ Continues s (innerEffects E s n) (closeService E n s).2 ∧
      (n ≠ SERVICENAME_PERSISTENCE → (closeService E n s).2 = s) := by
  rw [closeService, outcome, innerEffects]
  split
  · next h =>
    obtain ⟨hrun, hcont⟩ := close_spec (E := E) s
    exact ⟨hrun, hcont, fun hne => absurd h hne⟩
  · split
    · exact ⟨rfl, .refl s, fun _ => rfl⟩
    · cases E.close n <;> exact ⟨rfl, .refl s, fun _ => rfl⟩

theorem closeAll_of_closed (h : s.opened n = false) (ns : List String) (first : Option Failure) :
    closeAll E (n :: ns) first s = closeAll E ns first s := by
  rw [closeAll]
  exact if_neg (h ▸ Bool.false_ne_true)

/-- One turn of the loop. -/
theorem closeAll_of_opened (h : s.opened n = true) (ns : List String) (first : Option Failure) :
    ∃ s', Continues s (serviceEffects E s n) s' ∧
      (n ≠ SERVICENAME_PERSISTENCE → s' = s.logs (serviceEffects E s n)) ∧
      (ThrowsNoCause E n → closeAll E (n :: ns) first s = (.error .nullPointer, s')) ∧
      (¬ ThrowsNoCause E n → closeAll E (n :: ns) first s =
        closeAll E ns (first.or (serviceFailure E s n)) s') := by
  obtain ⟨hrun, hcont, hsame⟩ := closeService_spec (E := E) (s.logs [.close n]) n
  have hcont : Continues s (.close n :: innerEffects E s n)
      (closeService E n (s.logs [.close n])).2 := (Continues.logs s [.close n]).trans hcont
  change (closeService E n _).1 = outcome E s n at hrun
  have hturn : closeAll E (n :: ns) first s =
      match closeService E n (s.logs [.close n]) with
      | (.ok (), s) => closeAll E ns first s
      | (.error kind, s) =>
        if kind = .persistence false then
          (.error .nullPointer, s.logs [.failed ⟨.close n, kind⟩])
        else closeAll E ns (first.or (some ⟨.close n, kind⟩))
          (s.logs [.failed ⟨.close n, kind⟩]) := by
    rw [closeAll]
    exact if_pos h
  rw [hturn, ← outcome_eq_iff (s := s)]
  rcases hclose : closeService E n (s.logs [.close n]) with ⟨kind | u, s'⟩
  · rw [hclose] at hrun hcont hsame
    have hfailure : serviceFailure E s n = some ⟨.close n, kind⟩ := by
      rw [serviceFailure, ← hrun]
    refine ⟨s'.logs [.failed ⟨.close n, kind⟩], ?_, fun hne => ?_, fun h => ?_, fun h => ?_⟩
    · simpa [serviceEffects, hfailure] using hcont.trans (.logs _ [.failed ⟨.close n, kind⟩])
    · obtain rfl : s' = s.logs [.close n] := hsame hne
      simp [serviceEffects, hfailure, logs_logs, innerEffects, hne]
    · rw [← hrun, Except.error.injEq] at h
      exact if_pos h
    · rw [← hrun, Except.error.injEq] at h
      rw [hfailure]
      exact if_neg h
  · rw [hclose] at hrun hcont hsame
    have hfailure : serviceFailure E s n = none := by
      rw [serviceFailure, ← hrun]
    refine ⟨s', ?_, fun hne => ?_, fun h => ?_, fun h => ?_⟩
    · simpa [serviceEffects, hfailure] using hcont
    · obtain rfl : s' = s.logs [.close n] := hsame hne
      simp [serviceEffects, hfailure, innerEffects, hne]
    · rw [← hrun] at h
      cases h
    · rw [hfailure, Option.or_none]

theorem isInner_of_mem_innerEffects {e : Effect} (h : e ∈ innerEffects E s n) :
    e.isInner = true := by
  rw [innerEffects] at h
  split at h
  · split at h
    · cases h
    · exact isInner_of_mem_effects h
  · cases h

theorem closings_append (es es' : List Effect) :
    closings (es ++ es') = closings es ++ closings es' := List.filterMap_append

theorem failures_append (es es' : List Effect) :
    failures (es ++ es') = failures es ++ failures es' := List.filterMap_append

theorem closings_eq_nil {es : List Effect} (h : ∀ e ∈ es, e.isInner = true) : closings es = [] := by
  refine List.filterMap_eq_nil_iff.2 fun e he => ?_
  have := h e he
  cases e <;> simp_all [Effect.isInner, Effect.closing?]

theorem failures_eq_nil {es : List Effect} (h : ∀ e ∈ es, e.isInner = true) : failures es = [] := by
  refine List.filterMap_eq_nil_iff.2 fun e he => ?_
  have := h e he
  cases e <;> simp_all [Effect.isInner, Effect.failure?]

theorem closings_serviceEffects : closings (serviceEffects E s n) = [n] := by
  have hinner := closings_eq_nil fun e (he : e ∈ innerEffects E s n) =>
    isInner_of_mem_innerEffects he
  rw [serviceEffects, ← List.singleton_append, closings_append, closings_append, hinner]
  cases serviceFailure E s n <;> rfl

theorem failures_serviceEffects :
    failures (serviceEffects E s n) = (serviceFailure E s n).toList := by
  have hinner := failures_eq_nil fun e (he : e ∈ innerEffects E s n) =>
    isInner_of_mem_innerEffects he
  rw [serviceEffects, ← List.singleton_append, failures_append, failures_append, hinner]
  cases serviceFailure E s n <;> rfl

theorem inner_serviceEffects : (serviceEffects E s n).filter Effect.isInner = innerEffects E s n := by
  have hinner : (innerEffects E s n).filter Effect.isInner = innerEffects E s n :=
    List.filter_eq_self.2 fun e he => isInner_of_mem_innerEffects he
  rw [serviceEffects, List.filter_cons_of_neg (by simp [Effect.isInner]), List.filter_append, hinner]
  cases serviceFailure E s n <;> simp [Effect.isInner]

theorem innerEffects_of_ne (h : n ≠ SERVICENAME_PERSISTENCE) : innerEffects E s n = [] := by
  rw [innerEffects, if_neg h]

/-- Another service does not depend on the state. -/
theorem outcome_of_ne {s' : State} (h : n ≠ SERVICENAME_PERSISTENCE) :
    outcome E s' n = outcome E s n := by
  rw [outcome, outcome, if_neg h, if_neg h]

theorem outcome_tx : outcome E s SERVICENAME_TX = .ok () := by
  rw [outcome, if_neg (by decide), if_pos rfl]

theorem serviceFailure_eq_none_iff : serviceFailure E s n = none ↔ outcome E s n = .ok () := by
  rw [serviceFailure]
  cases outcome E s n <;> simp

theorem steps_serviceFailure {f : Failure} (h : f ∈ (serviceFailure E s n).toList) :
    ∃ n, f.step = .close n := by
  rw [serviceFailure] at h
  cases ho : outcome E s n with
  | error kind =>
    rw [ho] at h
    exact ⟨n, by rw [List.mem_singleton.1 h]⟩
  | ok u =>
    rw [ho] at h
    cases h

/-! ## The loop -/

/-- What has happened to the services `ns`, in the order of `es`, if the loop has come to `y`. -/
structure Loop (E : Environment) (ns : List String) (first : Option Failure) (s : State)
    (y : Except Thrown (Option Failure)) (es : List Effect) : Prop where
  order : (closings es).Sublist ns
  completes : (∀ n ∈ ns, s.opened n = true → ¬ ThrowsNoCause E n) →
    y = .ok (first.or (failures es).head?) ∧
      ∀ n, s.opened n = true → (closings es).count n = ns.count n
  breaks : (∃ n ∈ ns, s.opened n = true ∧ ThrowsNoCause E n) → y = .error .nullPointer
  steps : ∀ f ∈ failures es, ∃ n, f.step = .close n
  outer : SERVICENAME_PERSISTENCE ∉ ns → es.filter Effect.isInner = []
  inner : ns.count SERVICENAME_PERSISTENCE = 1 → s.opened SERVICENAME_PERSISTENCE = true →
    (∀ n ∈ ns, s.opened n = true → ¬ ThrowsNoCause E n) →
    es.filter Effect.isInner = innerEffects E s SERVICENAME_PERSISTENCE
  fails : (s.opened SERVICENAME_PERSISTENCE = true → ns.count SERVICENAME_PERSISTENCE ≤ 1) →
    (∀ n ∈ ns, s.opened n = true → ¬ ThrowsNoCause E n) →
    (failures es = [] ↔ ∀ n ∈ ns, s.opened n = true → outcome E s n = .ok ())

theorem Continues.opened_of {s s' : State} {es : List Effect} {n : String} (h : Continues s es s')
    (hn : s.opened n = true) : s'.opened n = true := by
  by_cases ht : n = SERVICENAME_TX
  · subst ht
    exact h.tx hn
  · rw [h.opened n ht, hn]

theorem Loop.skip {ns : List String} {first : Option Failure} {es : List Effect}
    {y : Except Thrown (Option Failure)} (hopened : s.opened n = false)
    (h : Loop E ns first s y es) : Loop E (n :: ns) first s y es where
  order := h.order.cons n
  completes hall := by
    obtain ⟨hresult, hcount⟩ := h.completes fun m hm => hall m (List.mem_cons_of_mem n hm)
    refine ⟨hresult, fun m hm => ?_⟩
    have hne : n ≠ m := fun heq => by simp [← heq, hopened] at hm
    rw [hcount m hm, List.count_cons_of_ne hne]
  breaks := by
    rintro ⟨m, hm, hopen, hcause⟩
    rcases List.mem_cons.1 hm with rfl | hm
    · simp [hopened] at hopen
    · exact h.breaks ⟨m, hm, hopen, hcause⟩
  steps := h.steps
  outer hnot := h.outer fun hm => hnot (List.mem_cons_of_mem n hm)
  inner hone hopen hall := by
    have hne : n ≠ SERVICENAME_PERSISTENCE := fun heq => by simp [← heq, hopened] at hopen
    rw [List.count_cons_of_ne hne] at hone
    exact h.inner hone hopen fun m hm => hall m (List.mem_cons_of_mem n hm)
  fails hone hall := by
    rw [h.fails (fun hopen => Nat.le_trans List.count_le_count_cons (hone hopen))
      fun m hm => hall m (List.mem_cons_of_mem n hm)]
    simp [hopened]

/-- The rest of the loop finds what it looks at as it was. -/
theorem serviceEffects_of_ne {s' : State} {m : String}
    (h : n ≠ SERVICENAME_PERSISTENCE → s' = s.logs (serviceEffects E s n))
    (hnm : n ≠ SERVICENAME_PERSISTENCE ∨ m ≠ SERVICENAME_PERSISTENCE) :
    outcome E s' m = outcome E s m := by
  rcases hnm with hn | hm
  · rw [h hn]
    rfl
  · exact outcome_of_ne hm

theorem Loop.turn {ns : List String} {first : Option Failure} {es : List Effect} {s' : State}
    {y : Except Thrown (Option Failure)} (hopened : s.opened n = true)
    (hcause : ¬ ThrowsNoCause E n) (hcont : Continues s (serviceEffects E s n) s')
    (hsame : n ≠ SERVICENAME_PERSISTENCE → s' = s.logs (serviceEffects E s n))
    (h : Loop E ns (first.or (serviceFailure E s n)) s' y es) :
    Loop E (n :: ns) first s y (serviceEffects E s n ++ es) where
  order := by
    rw [closings_append, closings_serviceEffects]
    exact h.order.cons_cons n
  completes hall := by
    obtain ⟨hresult, hcount⟩ := h.completes fun m hm hopen hno =>
      hall m (List.mem_cons_of_mem n hm) ((hcont.opened m hno.2.1).symm.trans hopen) hno
    constructor
    · rw [hresult, failures_append, failures_serviceEffects, List.head?_append, Option.or_assoc]
      cases serviceFailure E s n <;> rfl
    · intro m hm
      rw [closings_append, closings_serviceEffects, List.singleton_append, List.count_cons,
        hcount m (hcont.opened_of hm), List.count_cons]
  breaks := by
    rintro ⟨m, hm, hopen, hno⟩
    rcases List.mem_cons.1 hm with rfl | hm
    · exact absurd hno hcause
    · exact h.breaks ⟨m, hm, hcont.opened_of hopen, hno⟩
  steps := by
    intro f hf
    rw [failures_append, failures_serviceEffects, List.mem_append] at hf
    exact hf.elim steps_serviceFailure (h.steps f)
  outer hnot := by
    have hne : n ≠ SERVICENAME_PERSISTENCE := fun heq => hnot (heq ▸ List.mem_cons_self)
    rw [List.filter_append, inner_serviceEffects, innerEffects_of_ne hne,
      h.outer fun hm => hnot (List.mem_cons_of_mem n hm), List.append_nil]
  inner hone hopen hall := by
    rw [List.filter_append, inner_serviceEffects]
    by_cases hn : n = SERVICENAME_PERSISTENCE
    · subst hn
      rw [List.count_cons_self, Nat.add_eq_right] at hone
      rw [h.outer (List.count_eq_zero.1 hone), List.append_nil]
    · rw [List.count_cons_of_ne hn] at hone
      rw [innerEffects_of_ne hn, h.inner hone (hcont.opened_of hopen) fun m hm hm' hno =>
        hall m (List.mem_cons_of_mem n hm) ((hcont.opened m hno.2.1).symm.trans hm') hno,
        hsame hn]
      rfl
  fails hone hall := by
    have hone' : s'.opened SERVICENAME_PERSISTENCE = true →
        ns.count SERVICENAME_PERSISTENCE ≤ 1 := fun hopen =>
      Nat.le_trans List.count_le_count_cons
        (hone ((hcont.opened _ (by decide)).symm.trans hopen))
    rw [failures_append, failures_serviceEffects, List.append_eq_nil_iff,
      h.fails hone' fun m hm hm' hno =>
        hall m (List.mem_cons_of_mem n hm) ((hcont.opened m hno.2.1).symm.trans hm') hno,
      Option.toList_eq_nil_iff, serviceFailure_eq_none_iff, List.forall_mem_cons]
    refine and_congr ⟨fun h _ => h, fun h => h hopened⟩ (forall₂_congr fun m hm => ?_)
    have hnm : n ≠ SERVICENAME_PERSISTENCE ∨ m ≠ SERVICENAME_PERSISTENCE := by
      by_contra hboth
      obtain ⟨rfl, rfl⟩ : n = SERVICENAME_PERSISTENCE ∧ m = SERVICENAME_PERSISTENCE := by
        simpa [not_or] using hboth
      have htwice := hone hopened
      rw [List.count_cons_self] at htwice
      have := List.count_pos_iff.2 hm
      omega
    by_cases htx : m = SERVICENAME_TX
    · subst htx
      simp only [outcome_tx, implies_true]
    · rw [serviceEffects_of_ne hsame hnm, hcont.opened m htx]

theorem closeAll_loop (ns : List String) (first : Option Failure) (s : State) :
    ∃ es, Continues s es (closeAll E ns first s).2 ∧
      Loop E ns first s (closeAll E ns first s).1 es := by
  induction ns generalizing first s with
  | nil =>
    refine ⟨[], .refl s, .refl [], fun _ => ⟨?_, fun _ _ => rfl⟩, nofun, nofun, fun _ => rfl, nofun,
      fun _ _ => ⟨fun _ => nofun, fun _ => rfl⟩⟩
    exact congrArg Except.ok (Option.or_none (o := first)).symm
  | cons n ns ih =>
    cases hopened : s.opened n with
    | false =>
      rw [closeAll_of_closed hopened]
      obtain ⟨es, hcont, h⟩ := ih first s
      exact ⟨es, hcont, h.skip hopened⟩
    | true =>
      obtain ⟨s', hcont, hsame, hnull, hrun⟩ := closeAll_of_opened (E := E) hopened ns first
      by_cases hno : ThrowsNoCause E n
      · rw [hnull hno]
        refine ⟨serviceEffects E s n, hcont, ?_, fun hall => ?_, fun _ => rfl, fun f hf => ?_,
          fun hnot => ?_, fun _ _ hall => ?_, fun _ hall => ?_⟩
        · rw [closings_serviceEffects]
          exact (List.nil_sublist ns).cons_cons n
        · exact absurd hno (hall n List.mem_cons_self hopened)
        · rw [failures_serviceEffects] at hf
          exact steps_serviceFailure hf
        · rw [inner_serviceEffects, innerEffects_of_ne hno.1]
        · exact absurd hno (hall n List.mem_cons_self hopened)
        · exact absurd hno (hall n List.mem_cons_self hopened)
      · rw [hrun hno]
        obtain ⟨es, hcont', h⟩ := ih (first.or (serviceFailure E s n)) s'
        exact ⟨_, hcont.trans hcont', h.turn hopened hno hcont hsame⟩

/-! ## The whole -/

/-- The saves leave the services alone; the first one that fails is the last. -/
theorem autoSaveAll_spec (l : List ℕ) (s : State) : ∃ es l' x,
    autoSaveAll E l s = (x, { s with autoSaveProcessInstances := l', trace := s.trace ++ es }) ∧
    closings es = [] ∧ es.filter Effect.isInner = [] ∧
    (x = .ok () ∧ failures es = [] ∧ (∀ pi ∈ l, E.save pi = none) ∨
      ∃ f, x = .error (.failure f) ∧ failures es = [f] ∧ (∃ pi, f.step = .save pi) ∧
        ∃ pi ∈ l, E.save pi ≠ none) := by
  induction l generalizing s with
  | nil =>
    exact ⟨[], s.autoSaveProcessInstances, .ok (), by simp [autoSaveAll, Throws.pure_run], rfl, rfl,
      .inl ⟨rfl, rfl, nofun⟩⟩
  | cons pi l ih =>
    rw [autoSaveAll]
    cases hsave : E.save pi with
    | some kind =>
      have hrun : save E pi s = (.error (.failure ⟨.save pi, kind⟩),
          s.logs [.save pi, .failed ⟨.save pi, kind⟩]) := by
        rw [save, hsave]
      rw [Throws.bind_of_error hrun]
      exact ⟨_, _, _, rfl, rfl, rfl, .inr ⟨_, rfl, rfl, ⟨pi, rfl⟩, pi, List.mem_cons_self, by simp [hsave]⟩⟩
    | none =>
      have hrun : save E pi s = (.ok (), s.logs [.save pi]) := by
        rw [save, hsave]
      rw [Throws.bind_of_ok hrun]
      obtain ⟨es, l', x, hrest, hclosings, hinner, hx⟩ :=
        ih { s.logs [.save pi] with autoSaveProcessInstances := l }
      refine ⟨.save pi :: es, l', x, ?_, ?_, ?_, ?_⟩
      · refine hrest.trans ?_
        simp [State.logs]
      · exact hclosings
      · exact hinner
      · refine hx.imp (fun h => ⟨h.1, h.2.1, List.forall_mem_cons.2 ⟨hsave, h.2.2⟩⟩) ?_
        rintro ⟨f, herror, hf, hstep, m, hm, hne⟩
        exact ⟨f, herror, hf, hstep, m, List.mem_cons_of_mem pi hm, hne⟩

/-- What `close` throws if saving comes to `x` and the loop over the services to `y`. -/
def thrown (x : Except Thrown Unit) : Except Thrown (Option Failure) → Except Thrown Unit
  | .error e => .error e
  | .ok (some f) => .error (rethrown f)
  | .ok none => x

theorem closeServices_run (s : State) : closeServices E s =
    (thrown (.ok ()) (closeAll E E.serviceNames none s).1, (closeAll E E.serviceNames none s).2) := by
  rw [closeServices]
  rcases hrun : closeAll E E.serviceNames none s with ⟨e | _ | f, s'⟩
  · rw [Throws.bind_of_error hrun]
    rfl
  · rw [Throws.bind_of_ok hrun]
    rfl
  · rw [Throws.bind_of_ok hrun]
    rfl

theorem close_run {x : Except Thrown Unit} {s' : State} (h : autoSave E s = (x, s')) :
    close E s = (thrown x (closeAll E E.serviceNames none s').1,
      (closeAll E E.serviceNames none s').2.logs [.contextClosed]) := by
  have hinner : Throws.tryFinally_ (autoSave E) (closeServices E) s =
      (thrown x (closeAll E E.serviceNames none s').1, (closeAll E E.serviceNames none s').2) := by
    rw [Throws.tryFinally_, h, closeServices_run]
    rcases closeAll E E.serviceNames none s' with ⟨e | _ | f, s''⟩ <;> rfl
  rw [close, Throws.tryFinally_, hinner]
  rfl

variable (E) in
/-- The parts of `close`: saving comes to `x` with the effects `es₁`, the loop over the services to
`y` with the effects `es₂`. -/
structure Parts (s : State) (r : Except Thrown Unit × State) (x : Except Thrown Unit)
    (y : Except Thrown (Option Failure)) (es₁ es₂ : List Effect) : Prop where
  trace : r.2.trace = es₁ ++ es₂ ++ [.contextClosed]
  result : r.1 = thrown x y
  closings : closings es₁ = []
  inner : es₁.filter Effect.isInner = []
  saves : x = .ok () ∧ failures es₁ = [] ∧ (∀ pi ∈ s.autoSaveProcessInstances, E.save pi = none) ∨
    ∃ f, x = .error (.failure f) ∧ failures es₁ = [f] ∧ (∃ pi, f.step = .save pi) ∧
      ∃ pi ∈ s.autoSaveProcessInstances, E.save pi ≠ none
  loop : Loop E E.serviceNames none s y es₂

theorem close_parts (s : State) :
    ∃ x y es₁ es₂, Parts E s (close E { s with trace := [] }) x y es₁ es₂ := by
  obtain ⟨es₁, l', x, hsave, hclosings, hinner, hx⟩ :=
    autoSaveAll_spec (E := E) s.autoSaveProcessInstances { s with trace := [] }
  obtain ⟨es₂, hcont, hloop⟩ := closeAll_loop (E := E) E.serviceNames none
    { s with autoSaveProcessInstances := l', trace := es₁ }
  have hautoSave : autoSave E { s with trace := [] } =
      (x, { s with autoSaveProcessInstances := l', trace := es₁ }) := hsave
  refine ⟨x, _, es₁, es₂, ?_, ?_, hclosings, hinner, hx, ⟨hloop.order, hloop.completes,
    hloop.breaks, hloop.steps, hloop.outer, hloop.inner, hloop.fails⟩⟩
  · rw [close_run hautoSave]
    exact congrArg (· ++ [Effect.contextClosed]) hcont.trace
  · rw [close_run hautoSave]

section

variable {r : Except Thrown Unit × State} {x : Except Thrown Unit}
  {y : Except Thrown (Option Failure)} {es₁ es₂ : List Effect} (h : Parts E s r x y es₁ es₂)

include h

theorem Parts.closings_trace : Closing.closings r.2.trace = Closing.closings es₂ := by
  rw [h.trace, closings_append, closings_append, h.closings, List.nil_append]
  exact List.append_nil _

theorem Parts.failures_trace : failures r.2.trace = failures es₁ ++ failures es₂ := by
  rw [h.trace, failures_append, failures_append]
  exact List.append_nil _

theorem Parts.mem_trace {e : Effect} (he : e.isInner = true) :
    e ∈ r.2.trace ↔ e ∈ es₂.filter Effect.isInner := by
  have hnot : e ∉ es₁ := fun hmem => by
    have := List.mem_filter.2 ⟨hmem, he⟩
    rw [h.inner] at this
    cases this
  have hne : e ≠ .contextClosed := fun heq => by
    rw [heq] at he
    cases he
  simp [h.trace, hnot, hne, he]

theorem ClosesAll.noCause (hr : ClosesAll E s r) :
    ∀ n ∈ E.serviceNames, s.opened n = true → ¬ ThrowsNoCause E n := by
  intro n hn hopen hno
  have hnull : r.1 = .error .nullPointer := by
    rw [h.result, h.loop.breaks ⟨n, hn, hopen, hno⟩]
    rfl
  rcases hf : (failures r.2.trace).head? with _ | f
  · have := hr.ok (List.head?_eq_none_iff.1 hf)
    rw [hnull] at this
    cases this
  · rcases hr.first f hf with heq | heq <;>
    · rw [hnull] at heq
      cases heq

theorem ClosesAll.configured (hr : ClosesAll E s r) :
    ∀ n, s.opened n = true → E.serviceNames.count n = 1 := by
  intro n hopen
  obtain ⟨-, hcount⟩ := h.loop.completes (hr.noCause h)
  rw [← hr.once n hopen, h.closings_trace]
  exact (hcount n hopen).symm

theorem Parts.mem_effects (hone : E.serviceNames.count SERVICENAME_PERSISTENCE = 1)
    (hcause : ∀ n ∈ E.serviceNames, s.opened n = true → ¬ ThrowsNoCause E n)
    (hopen : s.opened SERVICENAME_PERSISTENCE = true) {e : Effect} (he : e.isInner = true) :
    e ∈ r.2.trace ↔ refuses E s = false ∧ e ∈ effects E s := by
  rw [h.mem_trace he, h.loop.inner hone hopen hcause, innerEffects, if_pos rfl]
  cases refuses E s <;> simp

theorem ClosesAll.mem_effects (hr : ClosesAll E s r)
    (hopen : s.opened SERVICENAME_PERSISTENCE = true) {e : Effect} (he : e.isInner = true) :
    e ∈ r.2.trace ↔ refuses E s = false ∧ e ∈ effects E s :=
  h.mem_effects (hr.configured h _ hopen) (hr.noCause h) hopen he

/-- If a save has failed, all services have been closed well. -/
theorem ClosesAll.outcome (hr : ClosesAll E s r)
    (hsaves : ∃ pi ∈ s.autoSaveProcessInstances, E.save pi ≠ none) :
    ∀ n, s.opened n = true → outcome E s n = .ok () := by
  obtain ⟨hloop, -⟩ := h.loop.completes (hr.noCause h)
  obtain ⟨f, hx, hf, ⟨pi, hstep⟩, -⟩ := h.saves.resolve_left fun ⟨_, _, hall⟩ => by
    obtain ⟨pi, hpi, hne⟩ := hsaves
    exact hne (hall pi hpi)
  have hnone : failures es₂ = [] := by
    rcases hg : (failures es₂).head? with _ | g
    · exact List.head?_eq_none_iff.1 hg
    · have hthrown : r.1 = .error (rethrown g) := by
        rw [h.result, hloop, Option.none_or, hg]
        rfl
      obtain ⟨n, hn⟩ := h.loop.steps g (List.mem_of_head? hg)
      have hfirst := hr.first f (by rw [h.failures_trace, hf]; rfl)
      have hfg : g = f := by
        rw [hthrown, rethrown] at hfirst
        split at hfirst <;> simpa using hfirst
      rw [hfg, hstep] at hn
      cases hn
  intro n hopen
  have hmem : n ∈ E.serviceNames :=
    List.count_pos_iff.1 (by rw [hr.configured h n hopen]; exact Nat.one_pos)
  have hfails := h.loop.fails (fun hopen => Nat.le_of_eq (hr.configured h _ hopen))
    (hr.noCause h)
  exact hfails.1 hnone n hmem hopen

theorem ClosesAll.orderly (hr : ClosesAll E s r) : Orderly E s where
  configured := hr.configured h
  cause n hopen hp ht hno := by
    have hmem : n ∈ E.serviceNames :=
      List.count_pos_iff.1 (by rw [hr.configured h n hopen]; exact Nat.one_pos)
    exact hr.noCause h n hmem hopen ⟨hp, ht, hno⟩
  saves hsaves := by
    have houtcome := hr.outcome h hsaves
    refine ⟨fun n hopen hp ht => ?_, fun hopen => ?_⟩
    · have hn := houtcome n hopen
      rw [Closing.outcome, if_neg hp, if_neg ht] at hn
      cases hc : E.close n with
      | none => rfl
      | some kind =>
        rw [hc] at hn
        cases hn
    · have hp := houtcome _ hopen
      rw [Closing.outcome, if_pos rfl] at hp
      cases hrefuses : refuses E s with
      | true =>
        rw [hrefuses] at hp
        cases hp
      | false =>
        rw [hrefuses, if_neg Bool.false_ne_true] at hp
        cases hfails : fails E s with
        | true =>
          rw [hfails] at hp
          cases hp
        | false =>
          refine ⟨rfl, rfl, fun hactive => ?_⟩
          by_contra hnot
          have hcommit : E.commitFails = false := by
            simp only [fails, transactionFails, hactive, hnot, Bool.or_eq_false_iff] at hfails
            simpa using hfails.1.1.1
          have hmem := (hr.mem_effects h hopen rfl).2
            ⟨hrefuses, (commit_mem_effects hactive).2 ⟨hnot, hcommit⟩⟩
          obtain ⟨pi, hpi, hne⟩ := hsaves
          exact hne ((hr.committed hopen hactive hmem).2 pi hpi)
  transaction hopen hactive hnone := by
    have hrefuses : refuses E s = true := by simp [refuses, hactive, hnone]
    have hnot : ∀ e : Effect, e.isInner = true → e ∉ r.2.trace := fun e he hmem => by
      have := ((hr.mem_effects h hopen he).1 hmem).1
      rw [hrefuses] at this
      cases this
    exact hnot .rollback rfl (hr.rolledBack hopen hactive (hnot (.commit true) rfl))
  session hopen howned hsession := by
    obtain ⟨hrefuses, hmem⟩ := (hr.mem_effects h hopen rfl).1 (hr.session hopen howned hsession)
    exact ⟨(closeSession_mem_effects.1 hmem).1, hrefuses⟩
  connection hopen howned hconnection := by
    obtain ⟨hrefuses, hmem⟩ := (hr.mem_effects h hopen rfl).1 (hr.connection hopen howned hconnection)
    exact ⟨(closeConnection_mem_effects.1 hmem).1, hrefuses⟩

omit h in
theorem Orderly.noCause (hs : Orderly E s) :
    ∀ n ∈ E.serviceNames, s.opened n = true → ¬ ThrowsNoCause E n :=
  fun n _ hopen hno => hs.cause n hopen hno.1 hno.2.1 hno.2.2

/-- If a save has failed, no service fails. -/
theorem Orderly.failures_eq_nil (hs : Orderly E s)
    (hsaves : ∃ pi ∈ s.autoSaveProcessInstances, E.save pi ≠ none) : failures es₂ = [] := by
  obtain ⟨hothers, hpersistence⟩ := hs.saves hsaves
  refine (h.loop.fails (fun hopen => Nat.le_of_eq (hs.configured _ hopen)) hs.noCause).2
    fun n _ hopen => ?_
  rw [outcome]
  split
  · next hp =>
    subst hp
    obtain ⟨hrefuses, hfails, -⟩ := hpersistence hopen
    rw [hrefuses, hfails]
    rfl
  · next hp =>
    split
    · rfl
    · next ht => rw [hothers n hopen hp ht]

theorem Orderly.closesAll (hs : Orderly E s) : ClosesAll E s r := by
  obtain ⟨hloop, hcount⟩ := h.loop.completes hs.noCause
  have hmem : s.opened SERVICENAME_PERSISTENCE = true → ∀ {e : Effect}, e.isInner = true →
      (e ∈ r.2.trace ↔ refuses E s = false ∧ e ∈ effects E s) := fun hopen =>
    h.mem_effects (hs.configured _ hopen) hs.noCause hopen
  refine ⟨?_, fun n hopen => ?_, fun f hf => ?_, fun hnil => ?_, fun hopen howned hsession => ?_,
    fun hopen howned hconnection => ?_, ?_, fun hopen hactive hcommit => ?_,
    fun hopen hactive hcommit => ?_⟩
  · rw [h.closings_trace]
    exact h.loop.order
  · rw [h.closings_trace, hcount n hopen, hs.configured n hopen]
  · rw [h.failures_trace] at hf
    rcases h.saves with ⟨-, hes, -⟩ | ⟨g, hx, hes, -, hsaves⟩
    · rw [hes, List.nil_append] at hf
      rw [h.result, hloop, hf, Option.none_or, thrown, rethrown]
      split <;> simp
    · obtain rfl : g = f := by simpa [hes] using hf
      rw [h.result, hloop, hs.failures_eq_nil h hsaves, hx]
      exact .inl rfl
  · rw [h.failures_trace, List.append_eq_nil_iff] at hnil
    rcases h.saves with ⟨hx, -, -⟩ | ⟨g, -, hes, -, -⟩
    · rw [h.result, hloop, hnil.2, hx]
      rfl
    · rw [hes] at hnil
      cases hnil.1
  · obtain ⟨hmust, hrefuses⟩ := hs.session hopen howned hsession
    exact (hmem hopen rfl).2 ⟨hrefuses, closeSession_mem_effects.2 ⟨hmust, hsession⟩⟩
  · obtain ⟨hmust, hrefuses⟩ := hs.connection hopen howned hconnection
    exact (hmem hopen rfl).2 ⟨hrefuses, closeConnection_mem_effects.2 ⟨hmust, hconnection⟩⟩
  · rw [h.trace, List.getLast?_concat]
  · obtain ⟨hmarked, -⟩ := (commit_mem_effects hactive).1 ((hmem hopen rfl).1 hcommit).2
    refine ⟨hmarked, fun pi hpi => ?_⟩
    by_contra hne
    exact hmarked (((hs.saves ⟨pi, hpi, hne⟩).2 hopen).2.2 hactive)
  · have hrefuses : refuses E s = false := by
      simpa [refuses, hactive, Option.isSome_iff_ne_none] using hs.transaction hopen hactive
    refine (hmem hopen rfl).2 ⟨hrefuses, (rollback_mem_effects hactive).2 ?_⟩
    by_contra hnot
    refine hcommit ((hmem hopen rfl).2 ⟨hrefuses, (commit_mem_effects hactive).2 ?_⟩)
    simpa [not_or] using hnot

end

/-- Everything is closed, and committed or rolled back as a whole, if and only if the condition
holds. -/
theorem closesAll_iff (E : Environment) (s : State) :
    ClosesAll E s (close E { s with trace := [] }) ↔ Orderly E s := by
  obtain ⟨x, y, es₁, es₂, h⟩ := close_parts (E := E) s
  exact ⟨fun hr => hr.orderly h, fun hs => hs.closesAll h⟩

/-! ## Three contexts -/

/-- A persistence and a transaction service, and possibly another one. -/
def Environment.usual (save : ℕ → Option Kind) (close : String → Option Kind) : Environment where
  serviceNames := ["message", "persistence", "tx"]
  hasTxServiceFactory := true
  save := save
  close := close
  commitFails := false
  rollbackFails := false
  flushFails := false
  closeSessionFails := false
  closeConnectionFails := false

/-- A context whose persistence service has been asked for the session. -/
def State.usual (autoSave : List ℕ) (opened : List String) (hasDataSource : Bool) : State where
  autoSaveProcessInstances := autoSave
  opened n := opened.contains n
  isRollbackOnly := false
  db := (openService ⟨true, false, true, hasDataSource⟩).getSession ⟨true, false, true, hasDataSource⟩
  trace := []

/-- A failed save is committed, a connection of the data source is never closed, and an exception
without a cause leaves the session open. -/
theorem not_closesAll :
    (let E := Environment.usual (fun _ => some .jbpm) fun _ => none
      let s := State.usual [1] ["persistence", "tx"] false
      ¬ ClosesAll E s (close E { s with trace := [] })) ∧
    (let E := Environment.usual (fun _ => none) fun _ => none
      let s := State.usual [1] ["persistence", "tx"] true
      ¬ ClosesAll E s (close E { s with trace := [] })) ∧
    (let E := Environment.usual (fun _ => none) fun _ => some (.persistence false)
      let s := State.usual [1] ["message", "persistence", "tx"] false
      ¬ ClosesAll E s (close E { s with trace := [] })) := by
  refine ⟨fun hr => ?_, fun hr => ?_, fun hr => ?_⟩
  · have hsaved := (hr.committed rfl rfl (by decide)).2 1 List.mem_cons_self
    cases hsaved
  · have hclosed := hr.connection rfl rfl rfl
    revert hclosed
    decide
  · have hclosed := hr.session rfl rfl rfl
    revert hclosed
    decide

end Service

end Closing

end Svc

end Jbpm
