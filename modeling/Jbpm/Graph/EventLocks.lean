/-
  Actions of events, and the lock on the token that is to keep them from moving it.

  * `Script`: what is called during the execution of a token, with the events that are
    fired, the actions that are executed and the tokens that are signalled on the way;
  * `keeps_of_stays`: a signal does not move a token that is locked;
  * `keeps_of_guarded`: the actions of an event leave the token where it is and its lock as
    it was, if the execution context still has an event whenever one of them is executed;
  * `action_keeps_iff`: an action that is executed without one may signal the token.
-/
import Mathlib.Data.List.Count
import Mathlib.Logic.Function.Basic

namespace Jbpm

namespace Graph

namespace Locks

/-- A run of the execution of a token, for tokens `T`, nodes `N`, events `E` and owners of
    locks `O`.  What depends on other things (which transition a signal finds, which actions
    are asynchronous, which handlers there are) is settled in the script. -/
inductive Script (T N E O : Type) where
  | skip
  | seq (a b : Script T N E O)
  | exception
  | error
  /-- `try { a } catch (Exception exception) { b }` -/
  | tryCatch (a b : Script T N E O)
  /-- `executionContext.setEvent(event)` -/
  | setEvent (event : Option E)
  /-- `token.setNode(node)`, in `Node.leave`, `Transition.take` and `Node.enter` -/
  | setNode (node : Option N)
  /-- `token.lock(lockOwnerId)`, for an asynchronous continuation -/
  | lock (lockOwnerId : O)
  /-- `token.unlock(lockOwnerId)` -/
  | unlock (lockOwnerId : O)
  /-- `token.signal()`: what follows if it is accepted has an execution context of its own -/
  | signal (token : T) (body : Script T N E O)
  /-- what goes on with another token, as a fork and a join do -/
  | on (token : T) (body : Script T N E O)
  /-- `executeAction`, for an action with its `getEvent()`: what the action does, what
      `raiseException` does if it throws, and whether that throws in the end -/
  | action (event : Option E) (body raised : Script T N E O) (rethrows : Bool)

inductive Outcome where
  | done
  | exception
  | error
  deriving DecidableEq

structure State (T N O : Type) where
  lock : T → Option O
  node : T → Option N
  /-- the tokens whose signals have been accepted -/
  signals : List T

variable {T N E O : Type} [DecidableEq T]

namespace State

def setLock (s : State T N O) (t : T) (lock : Option O) : State T N O :=
  { s with lock := Function.update s.lock t lock }

@[simp]
theorem setLock_lock (s : State T N O) (t : T) (lock : Option O) :
    (s.setLock t lock).lock t = lock :=
  Function.update_self ..

def setNode (s : State T N O) (t : T) (node : Option N) : State T N O :=
  { s with node := Function.update s.node t node }

variable [DecidableEq O]

/-- `Token.lock` -/
def lockBy (s : State T N O) (t : T) (lockOwnerId : O) : Outcome × State T N O :=
  match s.lock t with
  | none => (.done, s.setLock t (some lockOwnerId))
  | some lock => if lock = lockOwnerId then (.done, s) else (.exception, s)

/-- `Token.unlock`: of a token that is not locked there is only a warning. -/
def unlockBy (s : State T N O) (t : T) (lockOwnerId : O) : Outcome × State T N O :=
  match s.lock t with
  | none => (.done, s)
  | some lock => if lock = lockOwnerId then (.done, s.setLock t none) else (.exception, s)

/-- `if (actionMustBeLocked) token.lock(lockOwnerId)` -/
def lockIf (s : State T N O) (t : T) (lockOwnerId : O) (actionMustBeLocked : Bool) :
    State T N O :=
  if actionMustBeLocked then (s.lockBy t lockOwnerId).2 else s

end State

/-- The token `t` is where it was, its lock is as it was, and no signal of it was accepted. -/
structure Keeps (t : T) (s s' : State T N O) : Prop where
  lock : s'.lock t = s.lock t
  node : s'.node t = s.node t
  signals : s'.signals.count t = s.signals.count t

section

variable {t c : T} {s s' s'' : State T N O}

@[refl]
theorem Keeps.refl (s : State T N O) : Keeps t s s := ⟨rfl, rfl, rfl⟩

theorem Keeps.trans (h₁ : Keeps t s s') (h₂ : Keeps t s' s'') : Keeps t s s'' :=
  ⟨h₂.lock.trans h₁.lock, h₂.node.trans h₁.node, h₂.signals.trans h₁.signals⟩

theorem Keeps.setLock (hc : c ≠ t) (l : Option O) : Keeps t s (s.setLock c l) :=
  ⟨Function.update_of_ne hc.symm _ _, rfl, rfl⟩

theorem Keeps.setNode (hc : c ≠ t) (n : Option N) : Keeps t s (s.setNode c n) :=
  ⟨rfl, Function.update_of_ne hc.symm _ _, rfl⟩

theorem Keeps.signal (hc : c ≠ t) : Keeps t s { s with signals := s.signals ++ [c] } := by
  refine ⟨rfl, rfl, ?_⟩
  simp only [List.count_append, List.count_singleton, beq_iff_eq, hc, if_false, Nat.add_zero]

end

variable [DecidableEq O]

/-- How a script ends, the event in its execution context, and the tokens. -/
structure Result (T N E O : Type) where
  outcome : Outcome
  event : Option E
  state : State T N O

/-- `finally { if (actionMustBeLocked) token.unlock(lockOwnerId) }` -/
def Result.unlockIf (r : Result T N E O) (t : T) (lockOwnerId : O) (actionMustBeLocked : Bool) :
    Result T N E O :=
  if actionMustBeLocked then
    match r.state.unlockBy t lockOwnerId with
    | (.done, s) => ⟨r.outcome, r.event, s⟩
    | (outcome, s) => ⟨outcome, r.event, s⟩
  else r

/-- `(executionContext.getEvent()!=null) && (!token.isLocked())` -/
def actionMustBeLocked (t : T) (event : Option E) (s : State T N O) : Bool :=
  event.isSome && (s.lock t).isNone

namespace Script

variable (owner : T → O)

/-- A script, with an execution context for the token `t` that has an event or none. -/
def run : Script T N E O → T → Option E → State T N O → Result T N E O
  | skip, _, e, s => ⟨.done, e, s⟩
  | seq a b, t, e, s =>
    let r := run a t e s
    if r.outcome = .done then run b t r.event r.state else r
  | exception, _, e, s => ⟨.exception, e, s⟩
  | error, _, e, s => ⟨.error, e, s⟩
  | tryCatch a b, t, e, s =>
    let r := run a t e s
    if r.outcome = .exception then run b t r.event r.state else r
  | setEvent event, _, _, s => ⟨.done, event, s⟩
  | setNode node, t, e, s => ⟨.done, e, s.setNode t node⟩
  | lock lockOwnerId, t, e, s => ⟨(s.lockBy t lockOwnerId).1, e, (s.lockBy t lockOwnerId).2⟩
  | unlock lockOwnerId, t, e, s =>
    ⟨(s.unlockBy t lockOwnerId).1, e, (s.unlockBy t lockOwnerId).2⟩
  | signal t' body, _, e, s =>
    if (s.lock t').isSome then ⟨.exception, e, s⟩
    else
      let r := run body t' none { s with signals := s.signals ++ [t'] }
      ⟨r.outcome, e, r.state⟩
  | on t' body, _, e, s =>
    let r := run body t' none s
    ⟨r.outcome, e, r.state⟩
  | action event body raised rethrows, t, e, s =>
    let must := actionMustBeLocked t e s
    -- `setAction` takes the event of the action, after the one of the context was looked at
    let r := (run body t event (s.lockIf t (owner t) must)).unlockIf t (owner t) must
    if r.outcome = .exception then
      let r' := run raised t r.event r.state
      if r'.outcome = .done ∧ rethrows then ⟨.exception, r'.event, r'.state⟩ else r'
    else r

end Script

/-- A graph element: its event of the type that is fired, if it has one, with the actions
    of the event, and the runtime actions. -/
structure GraphElement (T N E O : Type) where
  event : Option (E × List (Script T N E O))
  runtimeActions : List (Script T N E O)

/-- `executeActions`, of those actions that are not sent to the job executor and accept the
    event. -/
def executeActions (actions : List (Script T N E O)) : Script T N E O :=
  actions.foldr .seq .skip

/-- `fireAndPropagateEvent`, on an element and its parents. -/
def fireEvent : List (GraphElement T N E O) → Script T N E O
  | [] => .skip
  | g :: gs =>
    .seq
      (match g.event with
      | none => .skip
      | some (event, actions) => .seq (.setEvent (some event)) (executeActions actions))
      (.seq (executeActions g.runtimeActions) (.seq (.setEvent none) (fireEvent gs)))

/-! ## What keeps a token -/

section

variable {t c : T} {s : State T N O} {e : Option E} {o : O}

theorem Keeps.lockBy (hc : c ≠ t) : Keeps t s (s.lockBy c o).2 := by
  unfold State.lockBy
  split
  · exact .setLock hc _
  · split <;> rfl

theorem Keeps.unlockBy (hc : c ≠ t) : Keeps t s (s.unlockBy c o).2 := by
  unfold State.unlockBy
  split
  · rfl
  · split
    · exact .setLock hc _
    · rfl

theorem Keeps.lockIf (hc : c ≠ t) (must : Bool) : Keeps t s (s.lockIf c o must) := by
  cases must
  · exact .refl s
  · exact .lockBy hc

/-- `finally` keeps how the script ended, unless the token cannot be unlocked. -/
theorem unlockIf_true (r : Result T N E O) (c : T) (o : O) :
    (r.unlockIf c o true).state = (r.state.unlockBy c o).2 := by
  unfold Result.unlockIf
  rw [if_pos rfl]
  split <;> rename_i h <;> rw [h]

theorem Keeps.unlockIf (hc : c ≠ t) (r : Result T N E O) (must : Bool) :
    Keeps t r.state (r.unlockIf c o must).state := by
  cases must
  · exact .refl _
  · rw [unlockIf_true]
    exact .unlockBy hc

omit [DecidableEq T] [DecidableEq O] in
theorem actionMustBeLocked_of_locked (hl : s.lock t ≠ none) : actionMustBeLocked t e s = false := by
  rw [actionMustBeLocked, Option.isNone_eq_false_iff.2 (Option.ne_none_iff_isSome.1 hl),
    Bool.and_false]

end

/-! ## A token that is locked -/

section

variable (owner : T → O) (t : T)

namespace Script

/-- The script moves and locks `t` only where a signal of `t` is accepted: none of its steps
    is in an execution context for `t` and sets the node or the lock. -/
def Stays : Script T N E O → T → Option E → State T N O → Prop
  | skip, _, _, _ => True
  | seq a b, c, e, s =>
    Stays a c e s ∧ ((a.run owner c e s).outcome = .done →
      Stays b c (a.run owner c e s).event (a.run owner c e s).state)
  | exception, _, _, _ => True
  | error, _, _, _ => True
  | tryCatch a b, c, e, s =>
    Stays a c e s ∧ ((a.run owner c e s).outcome = .exception →
      Stays b c (a.run owner c e s).event (a.run owner c e s).state)
  | setEvent _, _, _, _ => True
  | setNode _, c, _, _ => c ≠ t
  | lock _, c, _, _ => c ≠ t
  | unlock _, c, _, _ => c ≠ t
  | signal t' body, _, _, s =>
    t' = t ∨ (s.lock t' = none → Stays body t' none { s with signals := s.signals ++ [t'] })
  | on t' body, _, _, s => Stays body t' none s
  | action event body raised _, c, e, s =>
    let must := actionMustBeLocked c e s
    let r := (body.run owner c event (s.lockIf c (owner c) must)).unlockIf c (owner c) must
    Stays body c event (s.lockIf c (owner c) must) ∧
      (r.outcome = .exception → Stays raised c r.event r.state)

end Script

variable {owner t}

/-- By induction on the script: what is executed for `t` in between finds it locked, and
    neither locks it again nor unlocks it. -/
theorem keeps_of_stays (p : Script T N E O) {c : T} {e : Option E} {s : State T N O}
    (hl : s.lock t ≠ none) (h : p.Stays owner t c e s) : Keeps t s (p.run owner c e s).state := by
  induction p generalizing c e s with
  | skip | exception | error | setEvent _ => exact .refl s
  | seq a b iha ihb =>
    have ha := iha hl h.1
    simp only [Script.run]
    split
    case isTrue hd => exact ha.trans (ihb (ha.lock ▸ hl) (h.2 hd))
    case isFalse => exact ha
  | tryCatch a b iha ihb =>
    have ha := iha hl h.1
    simp only [Script.run]
    split
    case isTrue hx => exact ha.trans (ihb (ha.lock ▸ hl) (h.2 hx))
    case isFalse => exact ha
  | setNode node => exact .setNode h node
  | lock o => exact .lockBy h
  | unlock o => exact .unlockBy h
  | signal t' body ih =>
    simp only [Script.run]
    split
    case isTrue => exact .refl s
    case isFalse hfree =>
      rw [Option.not_isSome_iff_eq_none] at hfree
      have hne : t' ≠ t := by
        rintro rfl
        exact hl hfree
      have hs : Keeps t s { s with signals := s.signals ++ [t'] } := .signal hne
      exact hs.trans (ih hl ((h.resolve_left hne) hfree))
  | on t' body ih => exact ih hl h
  | action event body raised rethrows ihb ihr =>
    -- in a context for `t` itself nothing is locked, as the token is locked already
    obtain ⟨hbody, hraised⟩ := h
    have hr : Keeps t s ((body.run owner c event
        (s.lockIf c (owner c) (actionMustBeLocked c e s))).unlockIf c (owner c)
        (actionMustBeLocked c e s)).state := by
      by_cases hc : c = t
      · subst hc
        rw [actionMustBeLocked_of_locked hl] at hbody ⊢
        exact ihb hl hbody
      · have hlock : Keeps t s (s.lockIf c (owner c) (actionMustBeLocked c e s)) := .lockIf hc _
        exact (hlock.trans (ihb (hlock.lock ▸ hl) hbody)).trans (.unlockIf hc _ _)
    simp only [Script.run]
    split
    case isTrue hx =>
      have hr' := hr.trans (ihr (hr.lock ▸ hl) (hraised hx))
      split
      · exact hr'
      · exact hr'
    case isFalse => exact hr

end

/-! ## The actions of an event -/

section

variable (owner : T → O) (t : T)

namespace Script

/-- What fires an event of `t` executes actions and does nothing to `t` between them.
    Whenever it executes an action, the context has an event or the token is locked, and the
    action moves and locks the token only by signalling it. -/
def Guarded : Script T N E O → Option E → State T N O → Prop
  | skip, _, _ => True
  | seq a b, e, s =>
    Guarded a e s ∧ ((a.run owner t e s).outcome = .done →
      Guarded b (a.run owner t e s).event (a.run owner t e s).state)
  | exception, _, _ => True
  | error, _, _ => True
  | tryCatch a b, e, s =>
    Guarded a e s ∧ ((a.run owner t e s).outcome = .exception →
      Guarded b (a.run owner t e s).event (a.run owner t e s).state)
  | setEvent _, _, _ => True
  | setNode _, _, _ => False
  | lock _, _, _ => False
  | unlock _, _, _ => False
  | signal _ _, _, _ => False
  | on _ _, _, _ => False
  | action event body raised _, e, s =>
    let must := actionMustBeLocked t e s
    let r := (body.run owner t event (s.lockIf t (owner t) must)).unlockIf t (owner t) must
    (e ≠ none ∨ s.lock t ≠ none) ∧
      body.Stays owner t t event (s.lockIf t (owner t) must) ∧
      (r.outcome = .exception → Guarded raised r.event r.state)

end Script

variable {owner t}

/-- `executeAction` takes the lock if there is none, and gives back what it took. -/
theorem keeps_executeAction {body : Script T N E O} {event e : Option E} {s : State T N O}
    (h : e ≠ none ∨ s.lock t ≠ none)
    (hb : body.Stays owner t t event (s.lockIf t (owner t) (actionMustBeLocked t e s))) :
    Keeps t s ((body.run owner t event (s.lockIf t (owner t) (actionMustBeLocked t e s))).unlockIf
      t (owner t) (actionMustBeLocked t e s)).state := by
  by_cases hl : s.lock t = none
  · have hmust : actionMustBeLocked t e s = true := by
      rw [actionMustBeLocked, hl, Option.isNone_none, Bool.and_true]
      exact Option.ne_none_iff_isSome.1 (h.resolve_right (not_not.2 hl))
    have hlock : s.lockIf t (owner t) true = s.setLock t (some (owner t)) := by
      unfold State.lockIf State.lockBy
      rw [if_pos rfl, hl]
    rw [hmust, hlock] at hb ⊢
    have hs := keeps_of_stays body
      (by rw [State.setLock_lock]; exact Option.some_ne_none _) hb
    have hown := hs.lock
    rw [State.setLock_lock] at hown
    rw [unlockIf_true, State.unlockBy, hown]
    dsimp only
    rw [if_pos rfl]
    exact ⟨(State.setLock_lock ..).trans hl.symm, hs.node, hs.signals⟩
  · rw [actionMustBeLocked_of_locked hl] at hb ⊢
    exact keeps_of_stays body hl hb

/-- The actions of an event, the handlers of their exceptions included, leave the token where
    it is and its lock as it is: by induction on what fires the event. -/
theorem keeps_of_guarded (owner : T → O) (t : T) (p : Script T N E O) (e : Option E)
    (s : State T N O) (h : p.Guarded owner t e s) : Keeps t s (p.run owner t e s).state := by
  induction p generalizing e s with
  | skip | exception | error | setEvent _ => exact .refl s
  | seq a b iha ihb =>
    have ha := iha e s h.1
    simp only [Script.run]
    split
    case isTrue hd => exact ha.trans (ihb _ _ (h.2 hd))
    case isFalse => exact ha
  | tryCatch a b iha ihb =>
    have ha := iha e s h.1
    simp only [Script.run]
    split
    case isTrue hx => exact ha.trans (ihb _ _ (h.2 hx))
    case isFalse => exact ha
  | setNode | lock | unlock | signal | on => exact h.elim
  | action event body raised rethrows ihb ihr =>
    have hr := keeps_executeAction h.1 h.2.1
    simp only [Script.run]
    split
    case isTrue hx =>
      have hr' := hr.trans (ihr _ _ (h.2.2 hx))
      split
      · exact hr'
      · exact hr'
    case isFalse => exact hr

/-- Without an event in the context and without a lock, it is up to the action. -/
theorem action_keeps_iff (owner : T → O) (t : T) (e : Option E) (s : State T N O) :
    (∀ (event : Option E) (body : Script T N E O),
      body.Stays owner t t event (s.lockIf t (owner t) (actionMustBeLocked t e s)) →
      Keeps t s ((Script.action event body .skip false).run owner t e s).state) ↔
    e ≠ none ∨ s.lock t ≠ none := by
  constructor
  · intro h
    by_contra hn
    push Not at hn
    obtain ⟨rfl, hl⟩ := hn
    have hk := (h none (.signal t .skip) (Or.inl rfl)).signals
    simp only [Script.run, actionMustBeLocked, Option.isSome_none, Bool.false_and, State.lockIf,
      Result.unlockIf, hl, Bool.false_eq_true, if_false] at hk
    simp at hk
  · intro h event body hb
    have hg : (Script.action event body .skip false).Guarded owner t e s :=
      ⟨h, hb, fun _ => trivial⟩
    exact keeps_of_guarded owner t _ e s hg

end

/-! ## Events that are fired in the action of an event -/

/-- The script fires events, executes actions, throws, and signals tokens: it moves or locks
    none but by a signal. -/
def Script.Calls : Script T N E O → Prop
  | skip | exception | error | setEvent _ | signal _ _ => True
  | seq a b => Calls a ∧ Calls b
  | tryCatch a b => Calls a ∧ Calls b
  | setNode _ | lock _ | unlock _ | on _ _ => False
  | action _ body raised _ => Calls body ∧ Calls raised

/-- The actions of an element, of its event and those that are added at runtime. -/
def GraphElement.actions (g : GraphElement T N E O) : List (Script T N E O) :=
  (match g.event with
  | none => []
  | some (_, actions) => actions) ++ g.runtimeActions

/-- An event of the token with a handler: the first action signals the token, which is
    rejected, and the handler's does so again. -/
def sample : Script Unit Bool Unit Unit :=
  let signals := .signal () (.seq (.setNode none) (.setNode (some true)))
  fireEvent [⟨some ((), [.action (some ()) signals
    (.tryCatch (.action none signals .exception false) .skip) false]), []⟩]

theorem sample_keeps :
    Keeps () ⟨fun _ => none, fun _ => some false, []⟩
      (sample.run (fun _ => ()) () none ⟨fun _ => none, fun _ => some false, []⟩).state :=
  keeps_of_guarded (fun _ => ()) () sample none _ (by
    simp [sample, fireEvent, executeActions, Script.Guarded, Script.Stays, Script.run,
      actionMustBeLocked, State.lockIf, State.lockBy, State.setLock, Result.unlockIf,
      State.unlockBy])

/-- The first action fires an event that has no actions.  That leaves the context without an
    event, and so the second action is executed without the lock and signals the token. -/
theorem nested_event_unlocks : ¬ ∀ (gs : List (GraphElement Unit Bool Unit Unit))
    (s : State Unit Bool Unit), (∀ g ∈ gs, ∀ a ∈ g.actions, a.Calls) →
    Keeps () s ((fireEvent gs).run (fun _ => ()) () none s).state := by
  intro h
  let first : Script Unit Bool Unit Unit := .action (some ()) (fireEvent [⟨none, []⟩]) .skip false
  let second : Script Unit Bool Unit Unit :=
    .action (some ()) (.signal () (.seq (.setNode none) (.setNode (some true)))) .skip false
  have hk := (h [⟨some ((), [first, second]), []⟩] ⟨fun _ => none, fun _ => some false, []⟩
    (by simp [GraphElement.actions, first, second, Script.Calls, fireEvent, executeActions])).node
  revert hk
  simp [first, second, fireEvent, executeActions, Script.run, actionMustBeLocked, State.lockIf,
    State.lockBy, State.setLock, State.setNode, Result.unlockIf, State.unlockBy]

end Locks

end Graph

end Jbpm
