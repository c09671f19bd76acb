/-
  The command service.  A command runs in a context of its own, which is closed
  whether the command ends or throws; closing commits.  So what a command did
  before it threw is committed, unless the transaction was marked or refused.

  `Atomic v before command` : what a caller expects of a command;
  `KeepsItsWord v before command` : the commands of which it is true.
-/
import Jbpm.Svc.JbpmContext

namespace Jbpm

open Java Svc

namespace CommandService

variable {ε P V : Type}

/-- What is thrown: by the code a command calls, or by the service around it. -/
inductive Thrown (ε : Type)
  | other (e : ε)
  | jbpmException (message : String) (cause : Thrown ε)
  deriving DecidableEq

inductive Result (V : Type)
  | null
  | value (v : V)
  | list (results : List (Result V))

/-- A command: what its `toString` gives and what its `execute` does. -/
structure Command (ε P V : Type) where
  text : String
  execute : Throws (Thrown ε) (Session P) (Result V)

/-! ## CompositeCommand -/

/-- A field of the class of a result, and whether its type takes such results. -/
structure Field where
  name : String
  isAssignable : Bool

/-- Reflection on results and commands.  A field is set in a command only if the
    command has it. -/
structure Reflection (ε P V : Type) where
  declaredFields : Result V → List Field
  set : Field → Command ε P V → Result V → Except (Thrown ε) (Command ε P V)

def findField (fields : List Field) : Option Field :=
  fields.find? fun candidate => candidate.isAssignable && candidate.name.startsWith "previous"

namespace Reflection

variable (r : Reflection ε P V)

def tryToInject (lastResult : Result V) (command : Command ε P V) :
    Except (Thrown ε) (Command ε P V) :=
  match findField (r.declaredFields lastResult) with
  | none => .ok command
  | some field =>
    match r.set field command lastResult with
    | .ok injected => .ok injected
    | .error e => .error (.jbpmException "couldn't propagate composite command context" e)

/-- The command as it is when its turn has come. -/
def injected : Result V → Command ε P V → Except (Thrown ε) (Command ε P V)
  | .null, command => .ok command
  | lastResult, command => r.tryToInject lastResult command

/-- The loop of `CompositeCommand.execute`. -/
def executeAll (lastResult : Result V) (results : List (Result V)) :
    List (Command ε P V) → Throws (Thrown ε) (Session P) (List (Result V))
  | [] => pure results
  | command :: commands => do
    let command ← Throws.ofExcept (r.injected lastResult command)
    let result ← command.execute
    executeAll result (results ++ [result]) commands

/-- `CompositeCommand.execute`; `none` for a command without its list. -/
def compositeCommand (text : String) (commands : Option (List (Command ε P V))) :
    Command ε P V where
  text := text
  execute :=
    match commands with
    | none => pure .null
    | some commands => do
      let results ← r.executeAll .null [] commands
      pure (.list results)

/-- The commands run one after the other to the results. -/
inductive Ran : Result V → List (Command ε P V) → Session P → List (Result V) → Session P → Prop
  | nil {last s} : Ran last [] s [] s
  | cons {last command command' commands result results s s₁ s₂} :
    r.injected last command = .ok command' → command'.execute s = (.ok result, s₁) →
    Ran result commands s₁ results s₂ → Ran last (command :: commands) s (result :: results) s₂

/-- A command throws when those before it have run. -/
inductive Threw : Result V → List (Command ε P V) → Session P → Thrown ε → Session P → Prop
  | inject {last command commands s e} :
    r.injected last command = .error e → Threw last (command :: commands) s e s
  | execute {last command command' commands s s₁ e} :
    r.injected last command = .ok command' → command'.execute s = (.error e, s₁) →
    Threw last (command :: commands) s e s₁
  | later {last command command' commands result s s₁ s₂ e} :
    r.injected last command = .ok command' → command'.execute s = (.ok result, s₁) →
    Threw result commands s₁ e s₂ → Threw last (command :: commands) s e s₂

end Reflection

/-! ## CommandServiceImpl -/

/-- `CommandServiceImpl.execute`: what the call returns or throws, and what is
    committed after it. -/
def execute (v : Services (Thrown ε) P) (command : Command ε P V) (committed : P) :
    Except (Thrown ε) (Result V) × P :=
  let (result, s) := command.execute (.opened committed)
  match v.close committed s with
  | (.ok (), committed') =>
    match result with
    | .ok r => (.ok r, committed')
    | .error e => (.error (.jbpmException ("couldn't execute " ++ command.text) e), committed')
  | (.error e, committed') => (.error e, committed')

/-- If the command throws, so does the call, and nothing is changed; else all it
    did is committed, and its result is returned. -/
def Atomic (v : Services (Thrown ε) P) (command : Command ε P V) (committed : P) : Prop :=
  match command.execute (.opened committed) with
  | (.error _, _) =>
    (∃ e, (execute v command committed).1 = .error e) ∧ (execute v command committed).2 = committed
  | (.ok r, s) =>
    (execute v command committed).1 = .ok r ∧
      (execute v command committed).2 = (v.saved s).objects

/-- A command that throws has marked the transaction, or is refused the commit,
    or has changed nothing; one that does not is saved, accepted and closed
    without an exception, and has marked the transaction only if it has changed
    nothing. -/
def KeepsItsWord (v : Services (Thrown ε) P) (command : Command ε P V) (committed : P) : Prop :=
  match command.execute (.opened committed) with
  | (.error _, s) =>
    (v.saved s).isRollbackOnly = true ∨ (v.commit committed (v.saved s).objects).isOk = false ∨
      (v.saved s).objects = committed
  | (.ok _, s) =>
    (v.autoSave s).1 = .ok () ∧ v.closing = .ok () ∧
      if (v.saved s).isRollbackOnly then v.rollback = .ok () ∧ (v.saved s).objects = committed
      else (v.commit committed (v.saved s).objects).isOk = true

/-! ## When commands are atomic -/

theorem execute_snd (v : Services (Thrown ε) P) (command : Command ε P V) (committed : P) :
    (execute v command committed).2 =
      (v.close committed (command.execute (.opened committed)).2).2 := by
  rcases h : command.execute (.opened committed) with ⟨e | r, s⟩ <;> simp only [execute, h] <;>
    rcases v.close committed s with ⟨e' | u, c⟩ <;> rfl

/-- A call returns what the command returned, if closing throws nothing. -/
theorem execute_fst_ok {v : Services (Thrown ε) P} {command : Command ε P V} {committed : P}
    {r : Result V} {s : Session P} (h : command.execute (.opened committed) = (.ok r, s)) :
    (execute v command committed).1 = .ok r ↔ (v.close committed s).1 = .ok () := by
  simp only [execute, h]
  rcases v.close committed s with ⟨e | u, c⟩ <;> simp

theorem execute_fst_error {v : Services (Thrown ε) P} {command : Command ε P V} {committed : P}
    {e : Thrown ε} {s : Session P} (h : command.execute (.opened committed) = (.error e, s)) :
    ∃ e', (execute v command committed).1 = .error e' := by
  simp only [execute, h]
  rcases v.close committed s with ⟨e' | u, c⟩ <;> simp

theorem atomic_iff_of_error {v : Services (Thrown ε) P} {command : Command ε P V}
    {committed : P} {e : Thrown ε} {s : Session P}
    (h : command.execute (.opened committed) = (.error e, s)) :
    Atomic v command committed ↔ KeepsItsWord v command committed := by
  unfold Atomic KeepsItsWord
  rw [execute_snd, h]
  simp only [execute_fst_error h, true_and]
  exact v.close_unchanged committed s

theorem atomic_iff_of_ok {v : Services (Thrown ε) P} {command : Command ε P V}
    {committed : P} {r : Result V} {s : Session P}
    (h : command.execute (.opened committed) = (.ok r, s)) :
    Atomic v command committed ↔ KeepsItsWord v command committed := by
  unfold Atomic KeepsItsWord
  rw [execute_snd, h]
  simp only [execute_fst_ok h, v.close_fst, v.close_snd, Services.commits]
  by_cases hr : (v.saved s).isRollbackOnly = true
  · simp [hr, and_assoc, eq_comm]
  · by_cases hc : (v.commit committed (v.saved s).objects).isOk = true <;> simp [hr, hc]

theorem atomic_iff (v : Services (Thrown ε) P) (command : Command ε P V) (committed : P) :
    Atomic v command committed ↔ KeepsItsWord v command committed := by
  rcases h : command.execute (.opened committed) with ⟨e | r, s⟩
  · exact atomic_iff_of_error h
  · exact atomic_iff_of_ok h

/-! ## The steps of a composite command -/

namespace Reflection

variable (r : Reflection ε P V)

theorem executeAll_cons_of_ok {last result : Result V} {results : List (Result V)}
    {command command' : Command ε P V} {commands : List (Command ε P V)} {s s₁ : Session P}
    (hi : r.injected last command = .ok command') (he : command'.execute s = (.ok result, s₁)) :
    r.executeAll last results (command :: commands) s =
      r.executeAll result (results ++ [result]) commands s₁ := by
  rw [executeAll, hi, Throws.bind_of_ok (Throws.ofExcept_run (.ok command') s),
    Throws.bind_of_ok he]

theorem executeAll_of_ran {last : Result V} {commands : List (Command ε P V)}
    {s s' : Session P} {rs : List (Result V)} (h : r.Ran last commands s rs s')
    (results : List (Result V)) :
    r.executeAll last results commands s = (.ok (results ++ rs), s') := by
  induction h generalizing results with
  | nil => rw [List.append_nil]; rfl
  | cons hi he _ ih => rw [r.executeAll_cons_of_ok hi he, ih, List.append_assoc]; rfl

theorem executeAll_of_threw {last : Result V} {commands : List (Command ε P V)}
    {s s' : Session P} {e : Thrown ε} (h : r.Threw last commands s e s')
    (results : List (Result V)) : r.executeAll last results commands s = (.error e, s') := by
  induction h generalizing results with
  | inject hi =>
    rw [executeAll, hi, Throws.bind_of_error (Throws.ofExcept_run (.error _) _)]
  | execute hi he =>
    rw [executeAll, hi, Throws.bind_of_ok (Throws.ofExcept_run (.ok _) _),
      Throws.bind_of_error he]
  | later hi he _ ih => rw [r.executeAll_cons_of_ok hi he, ih]

/-- Either all commands run, or one throws. -/
theorem ran_or_threw (last : Result V) (commands : List (Command ε P V)) (s : Session P) :
    (∃ rs s', r.Ran last commands s rs s') ∨ ∃ e s', r.Threw last commands s e s' := by
  induction commands generalizing last s with
  | nil => exact .inl ⟨[], s, .nil⟩
  | cons command commands ih =>
    rcases hi : r.injected last command with e | command'
    · exact .inr ⟨e, s, .inject hi⟩
    rcases he : command'.execute s with ⟨e | result, s₁⟩
    · exact .inr ⟨e, s₁, .execute hi he⟩
    rcases ih result s₁ with ⟨rs, s', h⟩ | ⟨e, s', h⟩
    · exact .inl ⟨result :: rs, s', .cons hi he h⟩
    · exact .inr ⟨e, s', .later hi he h⟩

theorem executeAll_eq_ok {last : Result V} {commands : List (Command ε P V)}
    {s s' : Session P} {rs : List (Result V)} :
    r.executeAll last [] commands s = (.ok rs, s') ↔ r.Ran last commands s rs s' := by
  constructor
  · intro h
    rcases r.ran_or_threw last commands s with ⟨rs', t, hr⟩ | ⟨e, t, ht⟩
    · have := r.executeAll_of_ran hr []
      simp only [h, List.nil_append, Prod.mk.injEq, Except.ok.injEq] at this
      obtain ⟨rfl, rfl⟩ := this
      exact hr
    · simp [r.executeAll_of_threw ht] at h
  · intro h
    exact r.executeAll_of_ran h []

theorem executeAll_eq_error {last : Result V} {commands : List (Command ε P V)}
    {s s' : Session P} {e : Thrown ε} :
    r.executeAll last [] commands s = (.error e, s') ↔ r.Threw last commands s e s' := by
  constructor
  · intro h
    rcases r.ran_or_threw last commands s with ⟨rs', t, hr⟩ | ⟨e', t, ht⟩
    · simp [r.executeAll_of_ran hr] at h
    · have := r.executeAll_of_threw ht []
      simp only [h, Prod.mk.injEq, Except.error.injEq] at this
      obtain ⟨rfl, rfl⟩ := this
      exact ht
  · intro h
    exact r.executeAll_of_threw h []

theorem compositeCommand_execute (text : String) (commands : List (Command ε P V)) :
    (r.compositeCommand text (some commands)).execute =
      r.executeAll .null [] commands >>= fun results => pure (Result.list results) := rfl

theorem compositeCommand_ok {text : String} {commands : List (Command ε P V)}
    {s s' : Session P} {result : Result V} :
    (r.compositeCommand text (some commands)).execute s = (.ok result, s') ↔
      ∃ rs, r.Ran .null commands s rs s' ∧ result = .list rs := by
  rw [r.compositeCommand_execute]
  rw [Throws.bind_eq_ok]
  constructor
  · rintro ⟨rs, t, h, hp⟩
    simp only [Throws.pure_run, Prod.mk.injEq, Except.ok.injEq] at hp
    obtain ⟨rfl, rfl⟩ := hp
    exact ⟨rs, r.executeAll_eq_ok.mp h, rfl⟩
  · rintro ⟨rs, h, rfl⟩
    exact ⟨rs, s', r.executeAll_eq_ok.mpr h, rfl⟩

theorem compositeCommand_error {text : String} {commands : List (Command ε P V)}
    {s s' : Session P} {e : Thrown ε} :
    (r.compositeCommand text (some commands)).execute s = (.error e, s') ↔
      r.Threw .null commands s e s' := by
  rw [r.compositeCommand_execute]
  rcases h : r.executeAll .null [] commands s with ⟨e' | rs, t⟩
  · rw [Throws.bind_of_error h, ← executeAll_eq_error, h]
    simp
  · rw [Throws.bind_of_ok h, Throws.pure_run, ← executeAll_eq_error, h]
    simp

end Reflection

/-- **Atomicity of commands.**  A command is atomic exactly if it keeps its word;
    a composite command throws if one of its commands throws after those before
    it have run, and returns the results in order if all have run. -/
theorem atomic_iff_keepsItsWord (v : Services (Thrown ε) P) (r : Reflection ε P V)
    (committed : P) :
    (∀ command : Command ε P V, Atomic v command committed ↔ KeepsItsWord v command committed) ∧
    ∀ (text : String) (commands : List (Command ε P V)),
      (∀ e s, (r.compositeCommand text (some commands)).execute (.opened committed) = (.error e, s) ↔
        r.Threw .null commands (.opened committed) e s) ∧
      ∀ result s,
        (r.compositeCommand text (some commands)).execute (.opened committed) = (.ok result, s) ↔
          ∃ rs, r.Ran .null commands (.opened committed) rs s ∧ result = .list rs :=
  ⟨fun command => atomic_iff v command committed,
    fun _ _ => ⟨fun _ _ => r.compositeCommand_error, fun _ _ => r.compositeCommand_ok⟩⟩

/-! ## A composite command that is not atomic -/

/-- The services by default: what is in the session is what is saved, and
    nothing else has touched the token of which a number is the node. -/
def defaultServices : Services (Thrown Unit) Nat where
  saveOperations := []
  commit := fun _ _ => .ok ()
  rollback := .ok ()
  closing := .ok ()

def noFields : Reflection Unit Nat Nat where
  declaredFields := fun _ => []
  set := fun _ command _ => .ok command

/-- `SignalCommand`: the token goes on to the next node. -/
def signalCommand : Command Unit Nat Nat where
  text := "SignalCommand"
  execute := do
    Throws.modify_ fun s => { s with objects := s.objects + 1 }
    pure .null

def failingCommand : Command Unit Nat Nat where
  text := "FailingCommand"
  execute := Throws.throw_ (.other ())

/-- The command that follows throws, and yet the signal is committed. -/
theorem not_atomic :
    ¬ Atomic defaultServices
      (noFields.compositeCommand "CompositeCommand" (some [signalCommand, failingCommand])) 0 :=
  fun h => absurd h.2 (by decide)

example : (execute defaultServices
    (noFields.compositeCommand "CompositeCommand" (some [signalCommand, signalCommand])) 0).2 = 2 :=
  rfl

end CommandService

end Jbpm
