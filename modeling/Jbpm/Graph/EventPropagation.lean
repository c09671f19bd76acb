/-
  Events that are fired on a graph element and propagated to the elements around it.  The
  event and its source are fields of the execution context, which the actions use as well:
  they may fire events with it, and execute other actions.

  * `Behaviour`: what an action does with the execution context;
  * `fireEvent`: the actions of an event, static and runtime ones, from the source outwards;
  * `Quiet`: what may happen to the source of the event while an action is executed;
  * `fireEvent_exact`: which actions are executed, in which order, and what they are told
    of the event.
-/
import Mathlib.Data.List.Infix
import Jbpm.Lib.Forest

namespace Jbpm

namespace Graph

namespace Propagation

open Lib

/-- `Error`s are not caught by the engine. -/
inductive Outcome where
  | done
  | exception
  | error
  deriving DecidableEq

structure RuntimeAction (E A : Type) where
  graphElement : E
  eventType : String
  action : A

/-- An action that is executed or sent to the job executor on an element: the event and the
    source in the context at that time, how many events had been fired in the context, and
    how many actions were being executed. -/
structure Run (E A : Type) where
  element : E
  action : A
  sent : Bool
  event : Option (E × String)
  eventSource : Option E
  firings : ℕ
  level : ℕ

/-- What is done while an action is executed, by the action or by an exception handler, in
    an execution context: the event and its source are looked at, the runtime actions of
    the process instance change, an event is fired and an action executed on a graph element,
    which may throw.  What happens in other execution contexts only changes the runtime
    actions. -/
inductive Behaviour (E A : Type) where
  | ends (outcome : Outcome)
  | look (next : Option (E × String) → Option E → Behaviour E A)
  | change (f : List (RuntimeAction E A) → List (RuntimeAction E A)) (next : Behaviour E A)
  | fireEvent (g : E) (eventType : String) (next : Outcome → Behaviour E A)
  | executeAction (g : E) (a : A) (next : Outcome → Behaviour E A)

/-- The graph elements `E` and the actions `A` of a process.  What an action does, and what
    `raiseException` does on an element when it threw, depends on the actions that were
    executed so far. -/
structure Process (E A : Type) where
  parent : Forest E
  /-- the actions of the event of a type, if the element has one -/
  actions : E → String → Option (List A)
  acceptsPropagatedEvents : A → Bool
  isAsync : A → Bool
  getEvent : A → Option (E × String)
  getEvent_of_mem : ∀ {g eventType as a}, actions g eventType = some as → a ∈ as →
    getEvent a = some (g, eventType)
  execute : A → List (Run E A) → Behaviour E A
  raiseException : E → A → List (Run E A) → Behaviour E A

/-- The execution context, the runtime actions, and what was done so far: how many events
    were fired in the context, how many action logs are open, and the actions that were
    executed or sent. -/
structure State (E A : Type) where
  event : Option (E × String)
  eventSource : Option E
  action : Option A
  runtimeActions : List (RuntimeAction E A)
  firings : ℕ
  level : ℕ
  log : List (Run E A)

/-- What was run from one state to another, without what was run by an action. -/
def State.since {E A : Type} (s s' : State E A) : List (Run E A) :=
  (s'.log.drop s.log.length).filter fun run => decide (run.level = s.level)

/-- An element, the runtime actions when those of the element were looked for, and the
    actions that were run there. -/
structure Visit (E A : Type) where
  element : E
  registered : List (RuntimeAction E A)
  runs : List (Run E A)

/-- What the behaviours call. -/
structure Calls (E A : Type) where
  fireEvent : E → String → State E A → Outcome × State E A
  executeAction : E → A → State E A → Outcome × State E A

variable {E A : Type}

def Behaviour.perform (C : Calls E A) : Behaviour E A → State E A → Outcome × State E A
  | ends outcome, s => (outcome, s)
  | look next, s => perform C (next s.event s.eventSource) s
  | change f next, s => perform C next { s with runtimeActions := f s.runtimeActions }
  | fireEvent g eventType next, s =>
    let called := C.fireEvent g eventType s
    perform C (next called.1) called.2
  | executeAction g a next, s =>
    let called := C.executeAction g a s
    perform C (next called.1) called.2

variable [DecidableEq E] (D : Process E A) (C : Calls E A)

def State.run (s : State E A) (g : E) (a : A) (sent : Bool) : Run E A :=
  ⟨g, a, sent, s.event, s.eventSource, s.firings, s.level⟩

/-- `executionContext.setAction(action)` also sets the event. -/
def State.setAction (s : State E A) (a : A) : State E A :=
  { s with action := some a, event := D.getEvent a }

/-- An action log is opened and the action set. -/
def State.startAction (s : State E A) (g : E) (a : A) : State E A :=
  let s := s.setAction D a
  { s with log := s.log ++ [s.run g a false], level := s.level + 1 }

/-- The event is kept. -/
def State.endAction (s : State E A) : State E A :=
  { s with action := none, level := s.level - 1 }

/-- An asynchronous action is sent to the job executor. -/
def State.send (s : State E A) (g : E) (a : A) : State E A :=
  { s with log := s.log ++ [s.run g a true] }

def executeAction (g : E) (a : A) (s : State E A) : Outcome × State E A :=
  let s := s.startAction D g a
  match (D.execute a s.log).perform C s with
  | (.exception, s) =>
    let raised := (D.raiseException g a s.log).perform C s
    (raised.1, raised.2.endAction)
  | (outcome, s) => (outcome, s.endAction)

def executeActions (g : E) (isPropagated : Bool) : List A → State E A → Outcome × State E A
  | [], s => (.done, s)
  | a :: as, s =>
    if D.acceptsPropagatedEvents a || !isPropagated then
      if D.isAsync a then executeActions g isPropagated as (s.send g a)
      else
        match executeAction D C g a s with
        | (.done, s) => executeActions g isPropagated as s
        | thrown => thrown
    else executeActions g isPropagated as s

def getRuntimeActionsForEvent (g : E) (eventType : String)
    (runtimeActions : List (RuntimeAction E A)) : List A :=
  (runtimeActions.filter fun r =>
    decide (r.graphElement = g) && decide (r.eventType = eventType)).map RuntimeAction.action

/-- The actions of the event of the element, if it has one. -/
def executeStaticActions (eventType : String) (g : E) (isPropagated : Bool) (s : State E A) :
    Outcome × State E A :=
  match D.actions g eventType with
  | none => (.done, s)
  | some as => executeActions D C g isPropagated as { s with event := some (g, eventType) }

/-- `fireAndPropagateEvent`, on one element -/
def visit (eventType : String) (g : E) (s : State E A) : Outcome × State E A × Visit E A :=
  let isPropagated := decide (s.eventSource ≠ some g)
  match executeStaticActions D C eventType g isPropagated s with
  | (.done, s₁) =>
    match executeActions D C g isPropagated
        (getRuntimeActionsForEvent g eventType s₁.runtimeActions) s₁ with
    | (.done, s₂) => (.done, { s₂ with event := none }, ⟨g, s₁.runtimeActions, s.since s₂⟩)
    | (outcome, s₂) => (outcome, s₂, ⟨g, s₁.runtimeActions, s.since s₂⟩)
  | (outcome, s₁) => (outcome, s₁, ⟨g, s₁.runtimeActions, s.since s₁⟩)

/-- `fireAndPropagateEvent`, on an element and those around it -/
def fireAndPropagateEvent (eventType : String) :
    List E → State E A → Outcome × State E A × List (Visit E A)
  | [], s => (.done, s, [])
  | g :: gs, s =>
    match visit D C eventType g s with
    | (.done, s, v) =>
      let propagated := fireAndPropagateEvent eventType gs s
      (propagated.1, propagated.2.1, v :: propagated.2.2)
    | (outcome, s, v) => (outcome, s, [v])

def fireEvent (g : E) (eventType : String) (s : State E A) :
    Outcome × State E A × List (Visit E A) :=
  let fired := fireAndPropagateEvent D C eventType (D.parent.path g)
    { s with eventSource := some g, firings := s.firings + 1 }
  (fired.1, { fired.2.1 with eventSource := none }, fired.2.2)

/-- The calls, nested to a depth: one that is nested deeper throws a `StackOverflowError`. -/
def calls : ℕ → Calls E A
  | 0 => ⟨fun _ _ s => (.error, s), fun _ _ s => (.error, s)⟩
  | n + 1 =>
    { fireEvent := fun g eventType s =>
        let fired := fireEvent D (calls n) g eventType s
        (fired.1, fired.2.1)
      executeAction := executeAction D (calls n) }

/-! ## The source of the event -/

/-- Fired events take the source from the context, and nothing else touches it.  What is run
    is added to the log, and the action logs that are opened are closed again. -/
structure Quiet (s s' : State E A) : Prop where
  le : s.firings ≤ s'.firings
  eventSource : s'.eventSource = if s'.firings = s.firings then s.eventSource else none
  level : s'.level = s.level
  log : ∃ new, s'.log = s.log ++ new ∧ ∀ run ∈ new, s.level ≤ run.level

structure Calls.Good (C : Calls E A) : Prop where
  fireEvent : ∀ g eventType s, Quiet s (C.fireEvent g eventType s).2
  executeAction : ∀ g a s, Quiet s (C.executeAction g a s).2

section

variable {D} {C} {s s' s'' : State E A}

omit [DecidableEq E]

theorem since_of_append {new : List (Run E A)} (h : s'.log = s.log ++ new) :
    s.since s' = new.filter fun run => decide (run.level = s.level) := by
  rw [State.since, h, List.drop_left]

/-- The fields that count are the same. -/
theorem Quiet.of_eq (hf : s'.firings = s.firings) (hs : s'.eventSource = s.eventSource)
    (hl : s'.level = s.level) (hlog : s'.log = s.log) : Quiet s s' :=
  ⟨hf.ge, by rw [if_pos hf, hs], hl, [], by rw [hlog, List.append_nil],
    fun run hrun => absurd hrun List.not_mem_nil⟩

theorem Quiet.refl (s : State E A) : Quiet s s := .of_eq rfl rfl rfl rfl

theorem Quiet.trans (h : Quiet s s') (h' : Quiet s' s'') : Quiet s s'' := by
  have hle := h.le
  have hle' := h'.le
  obtain ⟨new, hlog, hlevel⟩ := h.log
  obtain ⟨new', hlog', hlevel'⟩ := h'.log
  refine ⟨hle.trans hle', ?_, h'.level.trans h.level, new ++ new', ?_, fun run hrun => ?_⟩
  · rw [h'.eventSource, h.eventSource]
    by_cases heq : s''.firings = s.firings
    · rw [if_pos heq, if_pos (by omega), if_pos (by omega)]
    · rw [if_neg heq]
      by_cases heq' : s''.firings = s'.firings
      · rw [if_pos heq', if_neg (by omega)]
      · rw [if_neg heq']
  · rw [hlog', hlog, List.append_assoc]
  · rcases List.mem_append.1 hrun with hrun | hrun
    · exact hlevel run hrun
    · exact h.level.symm.le.trans (hlevel' run hrun)

/-- What is run is told apart. -/
theorem Quiet.since_trans (h : Quiet s s') (h' : Quiet s' s'') :
    s.since s'' = s.since s' ++ s'.since s'' := by
  obtain ⟨new, hlog, -⟩ := h.log
  obtain ⟨new', hlog', -⟩ := h'.log
  have happend : s''.log = s.log ++ (new ++ new') := by rw [hlog', hlog, List.append_assoc]
  rw [since_of_append happend, since_of_append hlog, since_of_append hlog', List.filter_append,
    h.level]

theorem quiet_send (s : State E A) (g : E) (a : A) :
    Quiet s (s.send g a) ∧ s.since (s.send g a) = [s.run g a true] := by
  refine ⟨⟨le_rfl, (if_pos rfl).symm, rfl, _, rfl, fun run hrun => ?_⟩, ?_⟩
  · obtain rfl := List.mem_singleton.1 hrun
    exact le_rfl
  · rw [since_of_append rfl]
    exact List.filter_cons_of_pos (decide_eq_true rfl)

/-- What an action runs is not told apart from it. -/
theorem Quiet.endAction {g : E} {a : A} (h : Quiet (s.startAction D g a) s') :
    Quiet s s'.endAction ∧ s.since s'.endAction = [(s.setAction D a).run g a false] := by
  obtain ⟨new, hlog, hlevel⟩ := h.log
  have happend : s'.endAction.log = s.log ++ ((s.setAction D a).run g a false :: new) := by
    rw [State.endAction, hlog, State.startAction, List.append_assoc]
    rfl
  have hlt : ∀ run ∈ new, s.level < run.level := hlevel
  refine ⟨⟨h.le, h.eventSource, ?_, _, happend, fun run hrun => ?_⟩, ?_⟩
  · rw [State.endAction, h.level]
    rfl
  · rcases List.mem_cons.1 hrun with rfl | hrun
    · exact le_rfl
    · exact (hlt run hrun).le
  · have hnil : new.filter (fun run => decide (run.level = s.level)) = [] :=
      List.filter_eq_nil_iff.2 fun run hrun => by
        rw [decide_eq_true_iff]
        exact (hlt run hrun).ne'
    rw [since_of_append happend,
      List.filter_cons_of_pos (p := fun run : Run E A => decide (run.level = s.level))
        (decide_eq_true rfl), hnil]

variable (hC : C.Good)
include hC

theorem perform_quiet (b : Behaviour E A) (s : State E A) : Quiet s (b.perform C s).2 := by
  induction b generalizing s with
  | ends outcome => exact .refl s
  | look next ih => exact ih _ _ s
  | change f next ih =>
    have hchange : Quiet s { s with runtimeActions := f s.runtimeActions } :=
      .of_eq rfl rfl rfl rfl
    exact hchange.trans (ih _)
  | fireEvent g eventType next ih => exact (hC.fireEvent g eventType s).trans (ih _ _)
  | executeAction g a next ih => exact (hC.executeAction g a s).trans (ih _ _)

/-- The action is run once, with its event and the source of the context. -/
theorem executeAction_spec (g : E) (a : A) (s : State E A) :
    Quiet s (executeAction D C g a s).2 ∧
      s.since (executeAction D C g a s).2 = [(s.setAction D a).run g a false] := by
  have hexec := perform_quiet hC (D.execute a (s.startAction D g a).log) (s.startAction D g a)
  rw [executeAction]
  dsimp only
  rcases hperform : (D.execute a (s.startAction D g a).log).perform C (s.startAction D g a) with
    ⟨outcome, s₁⟩
  rw [hperform] at hexec
  cases outcome with
  | exception =>
    exact (hexec.trans (perform_quiet hC (D.raiseException g a s₁.log) s₁)).endAction
  | done => exact hexec.endAction
  | error => exact hexec.endAction

end

/-! ## What is executed -/

/-- What an action on an element is told of an event, whose source is `eventSource` if only
    `firings` events were fired so far. -/
structure Told (g : E) (firings : ℕ) (eventSource : Option E) (run : Run E A) : Prop where
  element : run.element = g
  sent : run.sent = D.isAsync run.action
  event : run.sent = false → run.event = D.getEvent run.action
  le : firings ≤ run.firings
  eventSource : run.eventSource = if run.firings = firings then eventSource else none

/-- The actions that accept the event, up to one that throws. -/
structure Executes (g : E) (s : State E A) (outcome : Outcome) (s' : State E A)
    (accepted : List A) : Prop where
  quiet : Quiet s s'
  told : ∀ run ∈ s.since s', Told D g s.firings s.eventSource run
  isPrefix : (s.since s').map Run.action <+: accepted
  complete : outcome = .done → (s.since s').map Run.action = accepted

section

variable {D} {C} {s s' s'' : State E A} {g : E} {outcome : Outcome} {as as' : List A}

omit [DecidableEq E]

theorem Told.of_quiet {run : Run E A} (h : Quiet s s')
    (hrun : Told D g s'.firings s'.eventSource run) : Told D g s.firings s.eventSource run := by
  have hle := h.le
  have hle' := hrun.le
  refine ⟨hrun.element, hrun.sent, hrun.event, hle.trans hle', ?_⟩
  rw [hrun.eventSource, h.eventSource]
  by_cases heq : run.firings = s.firings
  · rw [if_pos heq, if_pos (by omega), if_pos (by omega)]
  · rw [if_neg heq]
    by_cases heq' : run.firings = s'.firings
    · rw [if_pos heq', if_neg (by omega)]
    · rw [if_neg heq']

theorem Executes.nil (h : Quiet s s') (hsince : s.since s' = []) :
    Executes D g s outcome s' [] := by
  refine ⟨h, fun run hrun => ?_, ?_, fun _ => ?_⟩
  · rw [hsince] at hrun
    exact absurd hrun List.not_mem_nil
  · rw [hsince]
    exact List.prefix_rfl
  · rw [hsince]
    rfl

theorem Executes.single {run : Run E A} (h : Quiet s s') (hsince : s.since s' = [run])
    (hrun : Told D g s.firings s.eventSource run) :
    Executes D g s outcome s' [run.action] := by
  refine ⟨h, fun run' hrun' => ?_, ?_, fun _ => ?_⟩
  · rw [hsince] at hrun'
    exact List.mem_singleton.1 hrun' ▸ hrun
  · rw [hsince]
    exact List.prefix_rfl
  · rw [hsince]
    rfl

theorem Executes.append (h : Executes D g s .done s' as)
    (h' : Executes D g s' outcome s'' as') : Executes D g s outcome s'' (as ++ as') := by
  have hsince := h.quiet.since_trans h'.quiet
  have hmap : (s.since s'').map Run.action = as ++ (s'.since s'').map Run.action := by
    rw [hsince, List.map_append, h.complete rfl]
  refine ⟨h.quiet.trans h'.quiet, fun run hrun => ?_, ?_, fun hdone => ?_⟩
  · rw [hsince] at hrun
    rcases List.mem_append.1 hrun with hrun | hrun
    · exact h.told run hrun
    · exact (h'.told run hrun).of_quiet h.quiet
  · rw [hmap, List.prefix_append_right_inj]
    exact h'.isPrefix
  · rw [hmap, h'.complete hdone]

/-- What follows an action that throws is not executed. -/
theorem Executes.thrown (h : Executes D g s outcome s' as) (hne : outcome ≠ .done)
    (as' : List A) : Executes D g s outcome s' (as ++ as') :=
  ⟨h.quiet, h.told, h.isPrefix.trans (List.prefix_append _ _), fun hdone => absurd hdone hne⟩

variable (hC : C.Good)
include hC

theorem executeActions_spec (g : E) (isPropagated : Bool) (as : List A) (s : State E A) :
    Executes D g s (executeActions D C g isPropagated as s).1
      (executeActions D C g isPropagated as s).2
      (as.filter fun a => D.acceptsPropagatedEvents a || !isPropagated) := by
  induction as generalizing s with
  | nil => exact .nil (.refl s) (since_of_append (List.append_nil _).symm)
  | cons a as ih =>
    rw [executeActions]
    by_cases haccepts : (D.acceptsPropagatedEvents a || !isPropagated) = true
    swap
    · rw [if_neg haccepts,
        List.filter_cons_of_neg (p := fun a => D.acceptsPropagatedEvents a || !isPropagated)
          haccepts]
      exact ih s
    rw [if_pos haccepts,
      List.filter_cons_of_pos (p := fun a => D.acceptsPropagatedEvents a || !isPropagated)
        haccepts]
    by_cases hasync : D.isAsync a = true
    · rw [if_pos hasync]
      obtain ⟨hquiet, hsince⟩ := quiet_send s g a
      have htold : Told D g s.firings s.eventSource (s.run g a true) :=
        ⟨rfl, hasync.symm, fun hsent => (by cases hsent), le_rfl, (if_pos rfl).symm⟩
      exact (Executes.single hquiet hsince htold).append (ih _)
    · rw [if_neg hasync]
      rw [Bool.not_eq_true] at hasync
      obtain ⟨hquiet, hsince⟩ := executeAction_spec (D := D) hC g a s
      have htold : Told D g s.firings s.eventSource ((s.setAction D a).run g a false) :=
        ⟨rfl, hasync.symm, fun _ => rfl, le_rfl, (if_pos rfl).symm⟩
      rcases haction : executeAction D C g a s with ⟨outcome, s₁⟩
      rw [haction] at hquiet hsince
      cases outcome with
      | done => exact (Executes.single hquiet hsince htold).append (ih s₁)
      | exception =>
        exact (Executes.single hquiet hsince htold).thrown (fun hdone => by cases hdone) _
      | error =>
        exact (Executes.single hquiet hsince htold).thrown (fun hdone => by cases hdone) _

theorem executeStaticActions_spec (eventType : String) (g : E) (isPropagated : Bool)
    (s : State E A) :
    Executes D g s (executeStaticActions D C eventType g isPropagated s).1
      (executeStaticActions D C eventType g isPropagated s).2
      (((D.actions g eventType).getD []).filter fun a =>
        D.acceptsPropagatedEvents a || !isPropagated) := by
  rw [executeStaticActions]
  rcases hactions : D.actions g eventType with _ | as
  · exact .nil (.refl s) (since_of_append (List.append_nil _).symm)
  · have hset : Quiet s { s with event := some (g, eventType) } := .of_eq rfl rfl rfl rfl
    have hnil : Executes D g s .done { s with event := some (g, eventType) } [] :=
      .nil hset (since_of_append (List.append_nil _).symm)
    exact hnil.append (executeActions_spec hC g isPropagated as _)

end

/-- The actions of an element for an event of a type that was fired on `source`: the static
    ones and then the runtime ones that are registered for it, without those that do not
    accept propagated events if the element is another one. -/
def selected (source : E) (eventType : String) (v : Visit E A) : List A :=
  ((D.actions v.element eventType).getD [] ++
      getRuntimeActionsForEvent v.element eventType v.registered).filter fun a =>
    D.acceptsPropagatedEvents a || decide (v.element = source)

/-- An element is visited as it should be, completely unless an action throws. -/
structure Visits (source : E) (eventType : String) (s : State E A) (v : Visit E A)
    (complete : Prop) : Prop where
  told : ∀ run ∈ v.runs, Told D v.element s.firings s.eventSource run
  isPrefix : v.runs.map Run.action <+: selected D source eventType v
  complete : complete → v.runs.map Run.action = selected D source eventType v

section

variable {D} {C} {s s' : State E A} {source g : E} {eventType : String} {outcome : Outcome}
  {v : Visit E A}

variable (hC : C.Good)
include hC

theorem visit_spec (hsource : s.eventSource = some g ↔ g = source)
    (h : visit D C eventType g s = (outcome, s', v)) :
    v.element = g ∧ v.runs = s.since s' ∧
      Executes D g s outcome s' (selected D source eventType v) ∧
      (outcome = .done → s'.event = none) := by
  have haccepts : ∀ a, (D.acceptsPropagatedEvents a || !decide (s.eventSource ≠ some g)) =
      (D.acceptsPropagatedEvents a || decide (g = source)) := by
    intro a
    rw [decide_not, Bool.not_not, decide_eq_decide.2 hsource]
  have hselected : ∀ registered runs, selected D source eventType ⟨g, registered, runs⟩ =
      ((D.actions g eventType).getD []).filter (fun a =>
          D.acceptsPropagatedEvents a || !decide (s.eventSource ≠ some g)) ++
        (getRuntimeActionsForEvent g eventType registered).filter fun a =>
          D.acceptsPropagatedEvents a || !decide (s.eventSource ≠ some g) := by
    intro registered runs
    simp only [selected, haccepts, List.filter_append]
  have hstatic := executeStaticActions_spec (D := D) hC eventType g
    (decide (s.eventSource ≠ some g)) s
  rw [visit] at h
  rcases hs₁ : executeStaticActions D C eventType g (decide (s.eventSource ≠ some g)) s with
    ⟨o, s₁⟩
  rw [hs₁] at h hstatic
  cases o with
  | done =>
    have hruntime := executeActions_spec (D := D) hC g (decide (s.eventSource ≠ some g))
      (getRuntimeActionsForEvent g eventType s₁.runtimeActions) s₁
    dsimp only at h
    rcases hs₂ : executeActions D C g (decide (s.eventSource ≠ some g))
        (getRuntimeActionsForEvent g eventType s₁.runtimeActions) s₁ with ⟨o, s₂⟩
    rw [hs₂] at h hruntime
    have hexec := hstatic.append hruntime
    rw [← hselected s₁.runtimeActions (s.since s₂)] at hexec
    cases o with
    | done =>
      cases h
      have hevent : Quiet s₂ { s₂ with event := none } := .of_eq rfl rfl rfl rfl
      have hnil : Executes D g s₂ .done { s₂ with event := none } [] :=
        .nil hevent (since_of_append (List.append_nil _).symm)
      have hcleared := hexec.append hnil
      rw [List.append_nil] at hcleared
      exact ⟨rfl, rfl, hcleared, fun _ => rfl⟩
    | exception =>
      cases h
      exact ⟨rfl, rfl, hexec, fun hdone => by cases hdone⟩
    | error =>
      cases h
      exact ⟨rfl, rfl, hexec, fun hdone => by cases hdone⟩
  | exception =>
    cases h
    refine ⟨rfl, rfl, ?_, fun hdone => by cases hdone⟩
    rw [hselected]
    exact hstatic.thrown (fun hdone => by cases hdone) _
  | error =>
    cases h
    refine ⟨rfl, rfl, ?_, fun hdone => by cases hdone⟩
    rw [hselected]
    exact hstatic.thrown (fun hdone => by cases hdone) _

/-- Only the first element may be the source, and is told apart by it. -/
theorem fireAndPropagateEvent_spec {gs : List E} {vs : List (Visit E A)}
    (hhead : ∀ g, gs.head? = some g → (s.eventSource = some g ↔ g = source))
    (htail : ∀ g ∈ gs.tail, g ≠ source)
    (hsource : s.eventSource = some source ∨ s.eventSource = none)
    (h : fireAndPropagateEvent D C eventType gs s = (outcome, s', vs)) :
    Quiet s s' ∧ vs.map Visit.element <+: gs ∧
      (outcome = .done → vs.map Visit.element = gs ∧ (gs ≠ [] → s'.event = none)) ∧
      s.since s' = vs.flatMap Visit.runs ∧
      ∀ i v, vs[i]? = some v →
        Visits D source eventType s v (outcome = .done ∨ i + 1 < vs.length) := by
  induction gs generalizing s vs with
  | nil =>
    cases h
    exact ⟨.refl _, List.prefix_rfl, fun _ => ⟨rfl, fun hne => absurd rfl hne⟩,
      since_of_append (List.append_nil _).symm, fun i v hv => by cases hv⟩
  | cons g gs ih =>
    rw [fireAndPropagateEvent] at h
    rcases hvisit : visit D C eventType g s with ⟨o, s₁, v⟩
    rw [hvisit] at h
    obtain ⟨helement, hruns, hexec, hevent⟩ := visit_spec hC (hhead g rfl) hvisit
    subst helement
    have hquiet := hexec.quiet
    have hvisits : Visits D source eventType s v (o = .done) := by
      refine ⟨?_, ?_, ?_⟩
      · rw [hruns]
        exact hexec.told
      · rw [hruns]
        exact hexec.isPrefix
      · rw [hruns]
        exact hexec.complete
    have hthrows : o ≠ .done → Quiet s s₁ ∧ [v].map Visit.element <+: v.element :: gs ∧
        (o = .done → [v].map Visit.element = v.element :: gs ∧
          (v.element :: gs ≠ [] → s₁.event = none)) ∧
        s.since s₁ = [v].flatMap Visit.runs ∧
        ∀ i w, [v][i]? = some w →
          Visits D source eventType s w (o = .done ∨ i + 1 < [v].length) := by
      intro hne
      refine ⟨hquiet, (List.prefix_cons_inj _).2 List.nil_prefix, fun hdone => absurd hdone hne,
        ?_, fun i w hw => ?_⟩
      · rw [List.flatMap_cons, List.flatMap_nil, List.append_nil, hruns]
      · cases i with
        | zero =>
          obtain rfl := Option.some.inj hw
          exact ⟨hvisits.told, hvisits.isPrefix, fun hcomplete =>
            hvisits.complete (hcomplete.resolve_right (lt_irrefl _))⟩
        | succ i => cases hw
    cases o with
    | done =>
      dsimp only at h
      rcases hrest : fireAndPropagateEvent D C eventType gs s₁ with ⟨o, s₂, vs₂⟩
      rw [hrest] at h
      dsimp only at h
      cases h
      have hsource' : s₁.eventSource = some source ∨ s₁.eventSource = none := by
        rw [hquiet.eventSource]
        split
        · exact hsource
        · exact .inr rfl
      have hne : ∀ g' ∈ gs, g' ≠ source := htail
      have hhead' : ∀ g', gs.head? = some g' → (s₁.eventSource = some g' ↔ g' = source) := by
        intro g' hg'
        have hne' := hne g' (List.mem_of_mem_head? hg')
        refine iff_of_false (fun heq => ?_) hne'
        rcases hsource' with hs | hs
        · exact hne' (Option.some.inj (heq.symm.trans hs))
        · rw [hs] at heq
          cases heq
      obtain ⟨hquiet', hpre, hdone, hsince, hall⟩ :=
        ih hhead' (fun g' hg' => hne g' (List.mem_of_mem_tail hg')) hsource' hrest
      refine ⟨hquiet.trans hquiet', (List.prefix_cons_inj _).2 hpre, fun hd => ?_, ?_,
        fun i w hw => ?_⟩
      · obtain ⟨helements, hev⟩ := hdone hd
        refine ⟨congrArg (v.element :: ·) helements, fun _ => ?_⟩
        cases gs with
        | nil =>
          cases hrest
          exact hevent rfl
        | cons g' gs => exact hev (List.cons_ne_nil _ _)
      · rw [hquiet.since_trans hquiet', hsince, List.flatMap_cons, hruns]
      · cases i with
        | zero =>
          obtain rfl := Option.some.inj hw
          exact ⟨hvisits.told, hvisits.isPrefix, fun _ => hvisits.complete rfl⟩
        | succ i =>
          have hrest' := hall i w hw
          refine ⟨fun run hrun => (hrest'.told run hrun).of_quiet hquiet, hrest'.isPrefix,
            fun hcomplete => hrest'.complete (hcomplete.imp_right fun hlt => ?_)⟩
          rw [List.length_cons] at hlt
          omega
    | exception =>
      cases h
      exact hthrows fun hdone => by cases hdone
    | error =>
      cases h
      exact hthrows fun hdone => by cases hdone

/-- An event that is fired, with what was started before it left out. -/
theorem fireEvent_spec {vs : List (Visit E A)}
    (h : fireEvent D C g eventType s = (outcome, s', vs)) :
    Quiet s s' ∧ s'.eventSource = none ∧
      vs.map Visit.element <+: D.parent.path g ∧
      (outcome = .done → vs.map Visit.element = D.parent.path g ∧ s'.event = none) ∧
      s.since s' = vs.flatMap Visit.runs ∧
      ∀ i v, vs[i]? = some v →
        Visits D g eventType { s with eventSource := some g, firings := s.firings + 1 } v
          (outcome = .done ∨ i + 1 < vs.length) := by
  rw [fireEvent] at h
  rcases hfire : fireAndPropagateEvent D C eventType (D.parent.path g)
      { s with eventSource := some g, firings := s.firings + 1 } with ⟨o, s₁, vs₁⟩
  rw [hfire] at h
  cases h
  have hhead : ∀ g', (D.parent.path g).head? = some g' → (some g = some g' ↔ g' = g) := by
    intro g' hg'
    obtain rfl : g = g' := Option.some.inj hg'
    exact iff_of_true rfl rfl
  have htail : ∀ g' ∈ (D.parent.path g).tail, g' ≠ g := by
    rintro g' hg' rfl
    exact Forest.notMem_ancestors_self hg'
  obtain ⟨hquiet, hpre, hdone, hsince, hall⟩ :=
    fireAndPropagateEvent_spec hC hhead htail (.inl rfl) hfire
  -- an event was fired, and the source is taken away
  have hlt : s.firings < s₁.firings := hquiet.le
  exact ⟨⟨hlt.le, (if_neg hlt.ne').symm, hquiet.level, hquiet.log⟩, rfl, hpre,
    fun hd => ⟨(hdone hd).1, (hdone hd).2 (List.cons_ne_nil _ _)⟩, hsince, hall⟩

end

/-- All calls are good, however deep they are nested. -/
theorem good_calls (D : Process E A) : ∀ n : ℕ, (calls D n).Good
  | 0 => ⟨fun _ _ s => .refl s, fun _ _ s => .refl s⟩
  | n + 1 =>
    ⟨fun _ _ _ => (fireEvent_spec (good_calls D n) rfl).1,
      fun g a s => (executeAction_spec (good_calls D n) g a s).1⟩

/-- An element in another one, whose first action fires another event on it. -/
def firesAgain : Process Bool Bool where
  parent :=
    { parent := fun g => if g then some false else none
      depth := Bool.toNat
      depth_parent := fun {a p} h => by
        cases a with
        | false => cases h
        | true =>
          cases h
          exact Nat.zero_lt_one }
  actions g eventType := if g && eventType == "node-enter" then some [true, false] else none
  acceptsPropagatedEvents _ := true
  isAsync _ := false
  getEvent _ := some (true, "node-enter")
  getEvent_of_mem := fun {g eventType as a} h _ => by
    split at h
    · next hif =>
      rw [Bool.and_eq_true, beq_iff_eq] at hif
      rw [hif.1, hif.2]
    · cases h
  execute a _ := if a then .fireEvent true "task-create" fun _ => .ends .done else .ends .done
  raiseException _ _ _ := .ends .exception

-- the second action is not told the source
example :
    (fireEvent firesAgain (calls firesAgain 2) true "node-enter"
        ⟨none, none, none, [], 0, 0, []⟩).2.2.map (fun v => v.runs.map Run.eventSource) =
      [[some true, none], []] := by rfl

end Propagation

end Graph

end Jbpm
