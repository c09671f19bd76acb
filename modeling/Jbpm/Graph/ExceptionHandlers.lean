/-
  Exception handlers.  An exception of an action is raised on the element that
  executes it: a handler is searched for there and then in the elements around it.

  * `raiseException`: the search as it is, which the actions of a handler start again;
  * `search`: the search as it is documented;
  * `raiseException_cases`: where the two part, no search as documented goes on as the
    other does;
  * `raises_iff`: when they agree.
-/
import Mathlib.Data.List.Infix

namespace Jbpm

namespace Graph

namespace Raise

variable {ε σ : Type}

/-- How an action ends.  An `Error` is not caught by anyone. -/
inductive Outcome (ε : Type) where
  | done
  | exception (e : ε)
  | error

/-- What an action does, to a state with the execution context in it. -/
abbrev Action (ε σ : Type) := σ → Outcome ε × σ

/-- A handler: the exceptions that are instances of its class, all of them if it has no
    class name, and its actions.  If the class cannot be loaded, it is asked in vain. -/
structure ExceptionHandler (ε σ : Type) where
  clazz : Except ε (ε → Bool)
  actions : List (Action ε σ)

def ExceptionHandler.matches (h : ExceptionHandler ε σ) (e : ε) : Except ε Bool :=
  h.clazz.map (· e)

/-- What is noted of a search: a handler that is executed, or that cannot be asked, and an
    action of a handler.  Handlers are told by the number of elements around their own, and
    by their place in its list. -/
inductive Event where
  | handler (level index : ℕ)
  | action (level index : ℕ)
  deriving DecidableEq

def Event.level : Event → ℕ
  | .handler level _ | .action level _ => level

def Event.index : Event → ℕ
  | .handler _ index | .action _ index => index

structure Result (ε σ : Type) where
  outcome : Outcome ε
  state : σ
  trace : List Event

def Result.after (trace : List Event) (r : Result ε σ) : Result ε σ :=
  { r with trace := trace ++ r.trace }

/-- The exceptions, and the execution context that keeps the one that is handled. -/
structure Context (ε σ : Type) where
  isJbpmException : ε → Bool
  /-- `new DelegationException(exception, executionContext)` -/
  delegationException : ε → ε
  isJbpmException_delegationException : ∀ e, isJbpmException (delegationException e) = true
  setException : ε → σ → σ

namespace Context

variable (C : Context ε σ)

/-- What is thrown for an exception that is not handled. -/
def unhandled (e : ε) : ε := if C.isJbpmException e then e else C.delegationException e

theorem unhandled_unhandled (e : ε) : C.unhandled (C.unhandled e) = C.unhandled e := by
  unfold unhandled
  by_cases h : C.isJbpmException e = true
  · rw [if_pos h, if_pos h]
  · rw [if_neg h, if_pos (C.isJbpmException_delegationException e)]

end Context

/-- What a search through the handlers of an element comes to. -/
inductive Found (ε σ : Type) where
  | nothing
  | fails (index : ℕ) (e : ε)
  | handler (index : ℕ) (h : ExceptionHandler ε σ)

/-- `findExceptionHandler`, with the places of the handlers. -/
def findExceptionHandler (e : ε) : ℕ → List (ExceptionHandler ε σ) → Found ε σ
  | _, [] => .nothing
  | i, h :: hs =>
    match h.matches e with
    | .error e' => .fails i e'
    | .ok true => .handler i h
    | .ok false => findExceptionHandler e (i + 1) hs

/-- `executeAction`, for an action of a handler; `raise` raises an exception on the
    element. -/
def executeAction (raise : ε → σ → Option (Result ε σ)) (level index : ℕ) (a : Action ε σ)
    (s : σ) : Option (Result ε σ) :=
  match a s with
  | (.exception e, s') => (raise e s').map (Result.after [.action level index])
  | (r, s') => some ⟨r, s', [.action level index]⟩

/-- `ExceptionHandler.handleException` -/
def handleException (raise : ε → σ → Option (Result ε σ)) (level index : ℕ) :
    List (Action ε σ) → σ → Option (Result ε σ)
  | [], s => some ⟨.done, s, []⟩
  | a :: as, s =>
    match executeAction raise level index a s with
    | none => none
    | some r =>
      match r.outcome with
      | .done => (handleException raise level index as r.state).map (Result.after r.trace)
      | _ => some r

variable (C : Context ε σ)

/-- `GraphElement.raiseException`, on an element and those around it, from the inside out,
    each with its handlers.  `none`: it does not return with that much depth. -/
def raiseException : ℕ → List (List (ExceptionHandler ε σ)) → ε → σ → Option (Result ε σ)
  | 0, _, _, _ => none
  | _ + 1, [], e, s => some ⟨.exception (C.unhandled e), s, []⟩
  | n + 1, g :: gs, e, s =>
    match findExceptionHandler e 0 g with
    | .nothing => raiseException n gs e s
    | .fails i e' => (raiseException n gs e' s).map (Result.after [.handler gs.length i])
    | .handler i h =>
      match handleException (raiseException n (g :: gs)) gs.length i h.actions
          (C.setException e s) with
      | none => none
      | some r =>
        match r.outcome with
        | .exception e' =>
          (raiseException n gs e' r.state).map (Result.after (.handler gs.length i :: r.trace))
        | _ => some (r.after [.handler gs.length i])

/-! ## The documented search -/

/-- The actions of a handler, up to the first that throws, and those that are left. -/
def execute (level index : ℕ) : List (Action ε σ) → σ → Result ε σ × List (Action ε σ)
  | [], s => (⟨.done, s, []⟩, [])
  | a :: as, s =>
    match a s with
    | (.done, s') =>
      ((execute level index as s').1.after [.action level index], (execute level index as s').2)
    | (r, s') => (⟨r, s', [.action level index]⟩, as)

/-- The handlers of an element from a place on, and then `rest`.  If a handler throws, the
    search goes on with the next one and the new exception.  A handler that cannot be asked
    ends the search in its element. -/
def searchIn (rest : ε → σ → Result ε σ) (level : ℕ) :
    ℕ → List (ExceptionHandler ε σ) → ε → σ → Result ε σ
  | _, [], e, s => rest e s
  | i, h :: hs, e, s =>
    match h.matches e with
    | .error e' => (rest e' s).after [.handler level i]
    | .ok false => searchIn rest level (i + 1) hs e s
    | .ok true =>
      let r := (execute level i h.actions (C.setException e s)).1
      match r.outcome with
      | .exception e' =>
        (searchIn rest level (i + 1) hs e' r.state).after (.handler level i :: r.trace)
      | _ => r.after [.handler level i]

/-- The first handler that matches, from the element outwards and in the order of the
    lists; if none completes, the last exception is thrown. -/
def search : List (List (ExceptionHandler ε σ)) → ε → σ → Result ε σ
  | [], e, s => ⟨.exception (C.unhandled e), s, []⟩
  | g :: gs, e, s => searchIn C (search gs) gs.length 0 g e s

/-- None of the handlers matches, and all can be asked. -/
def Silent (hs : List (ExceptionHandler ε σ)) (e : ε) : Prop := ∀ h ∈ hs, h.matches e = .ok false

/-- When a handler throws, neither it nor one before it in its element matches the new
    exception; if another one completes then, the action that threw was its last; and if
    none does, none of the elements around has a handler for what is thrown in the end. -/
def OrderlyIn (around : List (List (ExceptionHandler ε σ))) (rest : ε → σ → Result ε σ)
    (restOrderly : ε → σ → Prop) :
    List (ExceptionHandler ε σ) → List (ExceptionHandler ε σ) → ε → σ → Prop
  | _, [], e, s => restOrderly e s
  | asked, h :: hs, e, s =>
    match h.matches e with
    | .error e' => restOrderly e' s
    | .ok false => OrderlyIn around rest restOrderly (asked ++ [h]) hs e s
    | .ok true =>
      let r := execute around.length asked.length h.actions (C.setException e s)
      match r.1.outcome with
      | .exception e' =>
        Silent (asked ++ [h]) e' ∧
          OrderlyIn around rest restOrderly (asked ++ [h]) hs e' r.1.state ∧
          match (searchIn C rest around.length (asked.length + 1) hs e' r.1.state).outcome with
          | .done => r.2 = []
          | .exception d => ∀ g ∈ around, Silent g d
          | .error => True
      | _ => True

def Orderly : List (List (ExceptionHandler ε σ)) → ε → σ → Prop
  | [], _, _ => True
  | g :: gs, e, s => OrderlyIn C gs (search C gs) (Orderly gs) [] g e s

/-! ## What is found -/

variable {C} {e e' d : ε} {s : σ} {i k l n : ℕ} {h : ExceptionHandler ε σ}
  {as asked hs g : List (ExceptionHandler ε σ)} {gs : List (List (ExceptionHandler ε σ))}
  {r R S : Result ε σ} {t u : List Event} {raise : ε → σ → Option (Result ε σ)}

/-- The place of what is found. -/
def Found.place : Found ε σ → Option ℕ
  | .nothing => none
  | .fails k _ | .handler k _ => some k

theorem Silent.append (has : Silent as e) (hh : h.matches e = .ok false) :
    Silent (as ++ [h]) e := by
  intro h' hmem
  rcases List.mem_append.1 hmem with hmem | hmem
  · exact has h' hmem
  · rw [List.mem_singleton.1 hmem]
    exact hh

theorem find_place : (findExceptionHandler e i hs).place = none ↔ Silent hs e := by
  induction hs generalizing i with
  | nil => exact iff_of_true rfl (fun _ h => (List.not_mem_nil h).elim)
  | cons h hs ih =>
    rw [findExceptionHandler, Silent, List.forall_mem_cons, ← Silent]
    rcases hm : h.matches e with e' | m
    · simp [Found.place]
    · cases m
      · simp [ih]
      · simp [Found.place]

theorem find_of_silent (hs : Silent g e) : findExceptionHandler e i g = .nothing := by
  have hplace := (find_place (i := i)).2 hs
  cases hfind : findExceptionHandler e i g with
  | nothing => rfl
  | fails k e' | handler k h =>
    rw [hfind] at hplace
    cases hplace

/-- An element without a handler for the exception is passed over. -/
theorem raise_pass (hs : Silent g e) :
    raiseException C (n + 1) (g :: gs) e s = raiseException C n gs e s := by
  rw [raiseException, find_of_silent hs]

theorem lt_of_place (h : (findExceptionHandler e i hs).place = some k) : k < i + hs.length := by
  induction hs generalizing i with
  | nil => cases h
  | cons h' hs ih =>
    rw [findExceptionHandler] at h
    rw [List.length_cons]
    rcases hm : h'.matches e with e' | m
    · rw [hm] at h
      cases h
      omega
    · rw [hm] at h
      cases m
      · have hlt := ih h
        omega
      · cases h
        omega

theorem find_append (has : Silent as e) :
    findExceptionHandler e i (as ++ hs) = findExceptionHandler e (i + as.length) hs := by
  induction as generalizing i with
  | nil => rfl
  | cons h as ih =>
    rw [List.cons_append, findExceptionHandler, has h List.mem_cons_self, List.length_cons]
    dsimp only
    rw [ih fun h' hmem => has h' (List.mem_cons_of_mem h hmem), Nat.add_right_comm]
    rfl

/-- What is found among the first handlers is found. -/
theorem place_append (h : (findExceptionHandler e i as).place = some k) :
    (findExceptionHandler e i (as ++ hs)).place = some k := by
  induction as generalizing i with
  | nil => cases h
  | cons h' as ih =>
    rw [List.cons_append, findExceptionHandler]
    rw [findExceptionHandler] at h
    rcases hm : h'.matches e with e' | m
    · rw [hm] at h
      exact h
    · rw [hm] at h
      cases m
      · exact ih h
      · exact h

/-! ## The traces -/

theorem after_after (r : Result ε σ) (t u : List Event) :
    (r.after t).after u = r.after (u ++ t) := by
  rw [Result.after, Result.after, Result.after, List.append_assoc]

theorem level_execute (actions : List (Action ε σ)) (s : σ) :
    ∀ ev ∈ (execute l i actions s).1.trace, ev = .action l i := by
  induction actions generalizing s with
  | nil => simp [execute]
  | cons a actions ih =>
    rw [execute]
    rcases a s with ⟨_ | e | _, s'⟩
    · simpa [Result.after] using ih s'
    · simp
    · simp

/-- Handlers before a place are not part of a search that starts there. -/
theorem level_searchIn {rest : ε → σ → Result ε σ}
    (hrest : ∀ e s, ∀ ev ∈ (rest e s).trace, ev.level < l) :
    ∀ ev ∈ (searchIn C rest l i hs e s).trace, ev.level < l ∨ ev.level = l ∧ i ≤ ev.index := by
  induction hs generalizing i e s with
  | nil => exact fun ev hev => .inl (hrest e s ev hev)
  | cons h hs ih =>
    have hlater : ∀ {e s}, ∀ ev ∈ (searchIn C rest l (i + 1) hs e s).trace,
        ev.level < l ∨ ev.level = l ∧ i ≤ ev.index := fun ev hev =>
      (ih ev hev).imp_right fun hlevel => ⟨hlevel.1, by omega⟩
    rw [searchIn]
    rcases h.matches e with e' | m
    · intro ev hev
      rcases List.mem_cons.1 hev with rfl | hev
      · exact .inr ⟨rfl, le_rfl⟩
      · exact .inl (hrest e' s ev hev)
    cases m
    · exact hlater
    · dsimp only
      have hexecute := level_execute (l := l) (i := i) h.actions (C.setException e s)
      have hself : ∀ ev ∈ Event.handler l i :: (execute l i h.actions (C.setException e s)).1.trace,
          ev.level < l ∨ ev.level = l ∧ i ≤ ev.index := by
        intro ev hev
        rcases List.mem_cons.1 hev with rfl | hev
        · exact .inr ⟨rfl, le_rfl⟩
        · rw [hexecute ev hev]
          exact .inr ⟨rfl, le_rfl⟩
      rcases (execute l i h.actions (C.setException e s)).1.outcome with _ | e' | _
      · exact hself
      · intro ev hev
        rcases List.mem_append.1 hev with hev | hev
        · exact hself ev hev
        · exact hlater ev hev
      · exact hself

theorem level_search : ∀ ev ∈ (search C gs e s).trace, ev.level < gs.length := by
  induction gs generalizing e s with
  | nil => exact fun ev h => (List.not_mem_nil h).elim
  | cons g gs ih =>
    intro ev hev
    have hlevel := level_searchIn (l := gs.length) (fun e s => ih) ev hev
    rw [List.length_cons]
    omega

/-! ## Handlers that throw -/

/-- The actions of a handler, one of which throws: the exception is raised, and if it is
    handled, the handler goes on with the actions that are left. -/
theorem handleException_eq (actions : List (Action ε σ)) (s : σ) :
    handleException raise l i actions s =
      match (execute l i actions s).1.outcome with
      | .exception e =>
        match raise e (execute l i actions s).1.state with
        | none => none
        | some r =>
          match r.outcome with
          | .done => (handleException raise l i (execute l i actions s).2 r.state).map
              (Result.after ((execute l i actions s).1.trace ++ r.trace))
          | _ => some (r.after (execute l i actions s).1.trace)
      | _ => some (execute l i actions s).1 := by
  induction actions generalizing s with
  | nil => rfl
  | cons a actions ih =>
    rw [handleException, executeAction, execute]
    rcases a s with ⟨_ | e | _, s'⟩
    · dsimp only
      rw [ih s']
      obtain ⟨⟨outcome, s₁, t⟩, left⟩ := execute l i actions s'
      rcases outcome with _ | e | _
      · rfl
      · dsimp only [Result.after]
        rcases raise e s₁ with _ | ⟨_ | d | _, s₂, u⟩
        · rfl
        · dsimp only
          rw [Option.map_map]
          refine congrArg (Option.map · _) (funext fun q => ?_)
          simp [Result.after]
        · simp [Result.after]
        · simp [Result.after]
      · rfl
    · dsimp only
      rcases raise e s' with _ | ⟨_ | d | _, s'', t⟩
      · rfl
      · rfl
      · rfl
      · rfl
    · rfl

theorem trace_ne_nil {a : Action ε σ} {actions : List (Action ε σ)}
    (h : handleException raise l i (a :: actions) s = some r) : r.trace ≠ [] := by
  rw [handleException, executeAction] at h
  rcases ha : a s with ⟨_ | e | _, s'⟩
  · rw [ha] at h
    obtain ⟨q, -, rfl⟩ := Option.map_eq_some_iff.1 h
    exact List.cons_ne_nil _ _
  · rw [ha] at h
    dsimp only at h
    rcases hr : raise e s' with _ | ⟨_ | d | _, s'', t⟩
    · rw [hr] at h
      cases h
    · rw [hr] at h
      obtain ⟨q, -, rfl⟩ := Option.map_eq_some_iff.1 h
      exact List.cons_ne_nil _ _
    · rw [hr] at h
      cases h
      exact List.cons_ne_nil _ _
    · rw [hr] at h
      cases h
      exact List.cons_ne_nil _ _
  · rw [ha] at h
    cases h
    exact List.cons_ne_nil _ _

/-! ## One level up -/

/-- What is thrown in the end need not be wrapped again. -/
theorem unhandled_of_raise (h : raiseException C n gs e s = some r)
    (hd : r.outcome = .exception d) : C.unhandled d = d := by
  induction n generalizing gs e s r with
  | zero => cases h
  | succ n ih =>
    cases gs with
    | nil =>
      cases h
      cases hd
      exact C.unhandled_unhandled e
    | cons g gs =>
      rw [raiseException] at h
      split at h
      · exact ih h hd
      · obtain ⟨q, hq, rfl⟩ := Option.map_eq_some_iff.1 h
        exact ih hq hd
      · split at h
        · cases h
        · split at h
          · obtain ⟨q, hq, rfl⟩ := Option.map_eq_some_iff.1 h
            exact ih hq hd
          · next hne =>
            cases h
            exact (hne d hd).elim

theorem raise_of_silent (h : raiseException C n gs e s = some r) (hs : ∀ g ∈ gs, Silent g e) :
    r = ⟨.exception (C.unhandled e), s, []⟩ := by
  induction gs generalizing n with
  | nil =>
    cases n with
    | zero => cases h
    | succ n => exact (Option.some.inj h).symm
  | cons g gs ih =>
    cases n with
    | zero => cases h
    | succ n =>
      rw [raise_pass (hs g List.mem_cons_self)] at h
      exact ih h fun g' hg' => hs g' (List.mem_cons_of_mem g hg')

/-- What is found is noted. -/
theorem mem_trace_of_place (h : raiseException C n (g :: gs) e s = some r)
    (hk : (findExceptionHandler e 0 g).place = some k) : .handler gs.length k ∈ r.trace := by
  cases n with
  | zero => cases h
  | succ n =>
    rw [raiseException] at h
    split at h
    · next hfind =>
      rw [hfind] at hk
      cases hk
    · next hfind =>
      rw [hfind] at hk
      cases hk
      obtain ⟨q, -, rfl⟩ := Option.map_eq_some_iff.1 h
      exact List.mem_cons_self
    · next hfind =>
      rw [hfind] at hk
      cases hk
      split at h
      · cases h
      · split at h
        · obtain ⟨q, -, rfl⟩ := Option.map_eq_some_iff.1 h
          exact List.mem_cons_self
        · cases h
          exact List.mem_cons_self

theorem trace_ne_nil_of_not_silent (h : raiseException C n gs e s = some r)
    (hs : ¬ ∀ g ∈ gs, Silent g e) : r.trace ≠ [] := by
  induction gs generalizing n with
  | nil => exact (hs fun g hg => (List.not_mem_nil hg).elim).elim
  | cons g gs ih =>
    cases hp : (findExceptionHandler e 0 g).place with
    | some k => exact List.ne_nil_of_mem (mem_trace_of_place h hp)
    | none =>
      have hg : Silent g e := find_place.1 hp
      cases n with
      | zero => cases h
      | succ n =>
        rw [raise_pass hg] at h
        refine ih h fun hgs => hs fun g' hg' => ?_
        rcases List.mem_cons.1 hg' with rfl | hg'
        · exact hg
        · exact hgs g' hg'

/-- What follows when an exception of a handler has been raised on its element: if it has
    been handled, the handler goes on with the actions that are left; if not, the handler
    has thrown, and the exception is raised around the element. -/
def resume (raise raiseAround : ε → σ → Option (Result ε σ)) (level index : ℕ)
    (left : List (Action ε σ)) (r : Result ε σ) : Option (Result ε σ) :=
  match r.outcome with
  | .done =>
    match handleException raise level index left r.state with
    | none => none
    | some q =>
      match q.outcome with
      | .exception d => (raiseAround d q.state).map (Result.after q.trace)
      | _ => some q
  | .exception d => raiseAround d r.state
  | .error => some ⟨.error, r.state, []⟩

/-- Nothing follows. -/
def Ends (around : List (List (ExceptionHandler ε σ))) (left : List (Action ε σ)) :
    Outcome ε → Prop
  | .done => left = []
  | .exception d => ∀ g ∈ around, Silent g d
  | .error => True

theorem resume_cases {left : List (Action ε σ)} {q : Result ε σ}
    (hr : ∀ d, r.outcome = .exception d → C.unhandled d = d)
    (h : resume raise (raiseException C n gs) l i left r = some q) :
    q = ⟨r.outcome, r.state, []⟩ ∧ Ends gs left r.outcome ∨
      q.trace ≠ [] ∧ ¬ Ends gs left r.outcome := by
  obtain ⟨outcome, state, t⟩ := r
  rcases outcome with _ | d | _
  · cases left with
    | nil => exact .inl ⟨(Option.some.inj h).symm, rfl⟩
    | cons a left =>
      refine .inr ⟨?_, List.cons_ne_nil a left⟩
      rw [resume] at h
      dsimp only at h
      split at h
      · cases h
      · next p hp =>
        have hne := trace_ne_nil hp
        split at h
        · obtain ⟨q', -, rfl⟩ := Option.map_eq_some_iff.1 h
          exact List.append_ne_nil_of_left_ne_nil hne _
        · cases h
          exact hne
  · by_cases hs : ∀ g ∈ gs, Silent g d
    · refine .inl ⟨?_, hs⟩
      rw [raise_of_silent h hs, hr d rfl]
    · exact .inr ⟨trace_ne_nil_of_not_silent h hs, hs⟩
  · exact .inl ⟨(Option.some.inj h).symm, trivial⟩

section
variable (hfind : findExceptionHandler e 0 g = .handler i h)
include hfind

theorem raise_of_throws
    (hthrows : (execute gs.length i h.actions (C.setException e s)).1.outcome = .exception e') :
    raiseException C (n + 1) (g :: gs) e s =
      (raiseException C n (g :: gs) e'
        (execute gs.length i h.actions (C.setException e s)).1.state).bind fun r =>
        (resume (raiseException C n (g :: gs)) (raiseException C n gs) gs.length i
          (execute gs.length i h.actions (C.setException e s)).2 r).map
          (Result.after
            (.handler gs.length i ::
              (execute gs.length i h.actions (C.setException e s)).1.trace ++ r.trace)) := by
  rw [raiseException, hfind]
  dsimp only
  rw [handleException_eq, hthrows]
  dsimp only
  rcases raiseException C n (g :: gs) e' _ with _ | ⟨_ | d | _, s', t⟩
  · rfl
  · rw [Option.bind_some, resume]
    dsimp only
    rcases handleException _ _ _ _ s' with _ | ⟨_ | d | _, s'', u⟩
    · rfl
    · rfl
    · dsimp only [Option.map_some]
      rw [Option.map_map]
      refine congrArg (Option.map · _) (funext fun q => ?_)
      simp [Result.after]
    · rfl
  · rfl
  · simp [resume, Result.after]

theorem raise_of_not_throws
    (hdone : ∀ d, (execute gs.length i h.actions (C.setException e s)).1.outcome ≠ .exception d) :
    raiseException C (n + 1) (g :: gs) e s =
      some
        ((execute gs.length i h.actions (C.setException e s)).1.after [.handler gs.length i]) := by
  rw [raiseException, hfind]
  dsimp only
  rw [handleException_eq]
  rcases hX : (execute gs.length i h.actions (C.setException e s)).1.outcome with _ | d | _
  · dsimp only
    rw [hX]
  · exact (hdone d hX).elim
  · dsimp only
    rw [hX]

end

/-! ## The two searches -/

/-- A search that is the documented one, under a condition, or has gone another way, when
    the condition fails. -/
def Agrees (R S : Result ε σ) (O : Prop) : Prop := R = S ∧ O ∨ ¬ R.trace <+: S.trace ∧ ¬ O

theorem Agrees.after {O : Prop} (h : Agrees R S O) (t : List Event) :
    Agrees (R.after t) (S.after t) O := by
  rcases h with ⟨rfl, hO⟩ | ⟨hp, hO⟩
  · exact .inl ⟨rfl, hO⟩
  · exact .inr ⟨fun hpre => hp ((List.prefix_append_right_inj t).1 hpre), hO⟩

/-- A handler matches and one of its actions throws: what is raised then, and what follows,
    against the search from the next handler on. -/
theorem agrees_of_throws {R q S : Result ε σ} {left : List (Action ε σ)} {O : Prop}
    (hR : Agrees R S O) (hq : q = ⟨R.outcome, R.state, []⟩ ∧ Ends gs left R.outcome ∨
      q.trace ≠ [] ∧ ¬ Ends gs left R.outcome) :
    Agrees (q.after R.trace) S (O ∧ Ends gs left S.outcome) := by
  rcases hR with ⟨rfl, hO⟩ | ⟨hp, hO⟩
  · rcases hq with ⟨rfl, hends⟩ | ⟨hne, hends⟩
    · refine .inl ⟨?_, hO, hends⟩
      rw [Result.after, List.append_nil]
    · refine .inr ⟨fun hpre => hne ?_, fun h => hends h.2⟩
      have hlength := hpre.length_le
      rw [Result.after, List.length_append] at hlength
      exact List.eq_nil_of_length_eq_zero (by omega)
  · exact .inr ⟨fun hpre => hp ((List.prefix_append _ _).trans hpre), fun h => hO h.1⟩

/-- One of the handlers that were asked before is found again. -/
theorem not_prefix_of_asked {q : Result ε σ}
    (hr : raiseException C n (g :: gs) e s = some r) (hg : g = asked ++ hs)
    (hs' : ¬ Silent asked e) {S : Result ε σ}
    (hS : ∀ ev ∈ S.trace, ev.level < gs.length ∨ ev.level = gs.length ∧ asked.length ≤ ev.index) :
    ¬ (q.after r.trace).trace <+: S.trace := by
  intro hpre
  have hfound : (findExceptionHandler e 0 asked).place ≠ none := mt find_place.1 hs'
  obtain ⟨k, hk⟩ := Option.ne_none_iff_exists'.1 hfound
  have hlt := lt_of_place hk
  have hmem := mem_trace_of_place hr (hg ▸ place_append hk)
  rcases hS _ (hpre.subset (List.mem_append_left _ hmem)) with h | ⟨-, h⟩
  · exact lt_irrefl _ h
  · change asked.length ≤ k at h
    omega

/-- **The search as it is, and as it is documented.**  They end alike as long as the
    handlers that throw do so in order; otherwise the one executes handlers that the
    other does not. -/
theorem raiseException_cases (h : raiseException C n gs e s = some R) :
    Agrees R (search C gs e s) (Orderly C gs e s) := by
  induction gs generalizing n e s R with
  | nil =>
    cases n with
    | zero => cases h
    | succ n => exact .inl ⟨(Option.some.inj h).symm, trivial⟩
  | cons g gs ih =>
    -- the handlers of the element from the place on up to which none has matched
    suffices hfrom : ∀ hs asked n e s R, g = asked ++ hs → Silent asked e →
        raiseException C n (g :: gs) e s = some R →
          Agrees R (searchIn C (search C gs) gs.length asked.length hs e s)
            (OrderlyIn C gs (search C gs) (Orderly C gs) asked hs e s) from
      hfrom g [] n e s R rfl (fun _ h => (List.not_mem_nil h).elim) h
    clear h
    intro hs
    induction hs with
    | nil =>
      intro asked n e s R hg hasked h
      cases n with
      | zero => cases h
      | succ n =>
        rw [List.append_nil] at hg
        rw [raise_pass (hg ▸ hasked)] at h
        exact ih h
    | cons h' hs ihs =>
      intro asked n e s R hg hasked h
      have hg' : g = (asked ++ [h']) ++ hs := by rw [hg, List.append_assoc]; rfl
      have hfind : findExceptionHandler e 0 g = findExceptionHandler e asked.length (h' :: hs) := by
        rw [hg, find_append hasked, Nat.zero_add]
      rw [findExceptionHandler] at hfind
      rw [searchIn, OrderlyIn]
      rcases hm : h'.matches e with e' | m
      · cases n with
        | zero => cases h
        | succ n =>
          rw [hm] at hfind
          rw [raiseException, hfind] at h
          obtain ⟨q, hq, rfl⟩ := Option.map_eq_some_iff.1 h
          exact (ih hq).after _
      cases m
      · have hnext := ihs (asked ++ [h']) n e s R hg' (hasked.append hm) h
        rwa [List.length_append] at hnext
      cases n with
      | zero => cases h
      | succ n =>
        rw [hm] at hfind
        dsimp only
        cases hX : (execute gs.length asked.length h'.actions (C.setException e s)).1.outcome with
        | done =>
          rw [raise_of_not_throws hfind (by simp [hX])] at h
          exact .inl ⟨(Option.some.inj h).symm, trivial⟩
        | error =>
          rw [raise_of_not_throws hfind (by simp [hX])] at h
          exact .inl ⟨(Option.some.inj h).symm, trivial⟩
        | exception e' =>
          rw [raise_of_throws hfind hX] at h
          obtain ⟨r, hr, hresume⟩ := Option.bind_eq_some_iff.1 h
          obtain ⟨q, hq, rfl⟩ := Option.map_eq_some_iff.1 hresume
          have hcases := resume_cases (fun d => unhandled_of_raise hr) hq
          rw [← after_after]
          refine Agrees.after ?_ _
          by_cases hs' : Silent (asked ++ [h']) e'
          · have hR := ihs (asked ++ [h']) n e' _ r hg' hs' hr
            rw [List.length_append] at hR
            have hboth := agrees_of_throws hR hcases
            rcases hboth with ⟨heq, hO, hends⟩ | ⟨hp, hO⟩
            · exact .inl ⟨heq, hs', hO, hends⟩
            · exact .inr ⟨hp, fun h => hO ⟨h.2.1, h.2.2⟩⟩
          · refine .inr ⟨?_, fun h => hs' h.1⟩
            refine not_prefix_of_asked hr hg' hs' ?_
            rw [List.length_append]
            exact level_searchIn fun e s => level_search

/-! ## Enough depth -/

theorem handleException_mono {raise' : ε → σ → Option (Result ε σ)}
    (hraise : ∀ e s r, raise e s = some r → raise' e s = some r) {actions : List (Action ε σ)}
    (h : handleException raise l i actions s = some r) :
    handleException raise' l i actions s = some r := by
  induction actions generalizing s r with
  | nil => exact h
  | cons a actions ih =>
    rw [handleException, executeAction] at h ⊢
    rcases ha : a s with ⟨_ | e | _, s'⟩
    · rw [ha] at h
      obtain ⟨q, hq, rfl⟩ := Option.map_eq_some_iff.1 h
      exact Option.map_eq_some_iff.2 ⟨q, ih hq, rfl⟩
    · rw [ha] at h
      dsimp only at h ⊢
      cases hr : raise e s' with
      | none =>
        rw [hr] at h
        cases h
      | some p =>
        rw [hr] at h
        rw [hraise e s' p hr]
        obtain ⟨outcome, state, t⟩ := p
        cases outcome with
        | done =>
          obtain ⟨q, hq, rfl⟩ := Option.map_eq_some_iff.1 h
          exact Option.map_eq_some_iff.2 ⟨q, ih hq, rfl⟩
        | exception d => exact h
        | error => exact h
    · rw [ha] at h
      exact h

theorem raise_succ (h : raiseException C n gs e s = some r) :
    raiseException C (n + 1) gs e s = some r := by
  induction n generalizing gs e s r with
  | zero => cases h
  | succ n ih =>
    cases gs with
    | nil => exact h
    | cons g gs =>
      rw [raiseException] at h ⊢
      cases hfind : findExceptionHandler e 0 g with
      | nothing =>
        rw [hfind] at h
        exact ih h
      | fails k e' =>
        rw [hfind] at h
        obtain ⟨q, hq, rfl⟩ := Option.map_eq_some_iff.1 h
        exact Option.map_eq_some_iff.2 ⟨q, ih hq, rfl⟩
      | handler k h' =>
        rw [hfind] at h
        dsimp only at h ⊢
        cases hq : handleException (raiseException C n (g :: gs)) gs.length k h'.actions
            (C.setException e s) with
        | none =>
          rw [hq] at h
          cases h
        | some q =>
          rw [hq] at h
          rw [handleException_mono (fun _ _ _ => ih) hq]
          obtain ⟨outcome, state, t⟩ := q
          cases outcome with
          | done => exact h
          | exception d =>
            obtain ⟨p, hp, rfl⟩ := Option.map_eq_some_iff.1 h
            exact Option.map_eq_some_iff.2 ⟨p, ih hp, rfl⟩
          | error => exact h

theorem raise_add (h : raiseException C n gs e s = some r) (m : ℕ) :
    raiseException C (n + m) gs e s = some r := by
  induction m with
  | zero => exact h
  | succ m ih => exact raise_succ ih

theorem exists_raise_of_silent (hs : ∀ g ∈ gs, Silent g e) :
    ∃ r, raiseException C (gs.length + 1) gs e s = some r := by
  induction gs with
  | nil => exact ⟨_, rfl⟩
  | cons g gs ih =>
    rw [List.length_cons, raise_pass (hs g List.mem_cons_self)]
    exact ih fun g' hg' => hs g' (List.mem_cons_of_mem g hg')

theorem searchIn_append {rest : ε → σ → Result ε σ} (has : Silent as e) :
    searchIn C rest l i (as ++ hs) e s = searchIn C rest l (i + as.length) hs e s := by
  induction as generalizing i with
  | nil => rfl
  | cons h as ih =>
    rw [List.cons_append, searchIn, has h List.mem_cons_self, List.length_cons]
    dsimp only
    rw [ih fun h' hmem => has h' (List.mem_cons_of_mem h hmem), Nat.add_right_comm]
    rfl

theorem orderlyIn_append {rest : ε → σ → Result ε σ} {restOrderly : ε → σ → Prop}
    (has : Silent as e) : OrderlyIn C gs rest restOrderly asked (as ++ hs) e s =
      OrderlyIn C gs rest restOrderly (asked ++ as) hs e s := by
  induction as generalizing asked with
  | nil => rw [List.nil_append, List.append_nil]
  | cons h as ih =>
    rw [List.cons_append, OrderlyIn, has h List.mem_cons_self]
    dsimp only
    rw [ih fun h' hmem => has h' (List.mem_cons_of_mem h hmem), List.append_assoc]
    rfl

/-- What follows is nothing, with enough depth. -/
theorem exists_resume (raise : ε → σ → Option (Result ε σ)) {left : List (Action ε σ)}
    (hends : Ends gs left r.outcome) (n : ℕ) :
    ∃ q, resume raise (raiseException C (n + (gs.length + 1)) gs) l i left r = some q := by
  obtain ⟨outcome, state, t⟩ := r
  cases outcome with
  | done =>
    have hleft : left = [] := hends
    rw [hleft]
    exact ⟨_, rfl⟩
  | exception d =>
    obtain ⟨q, hq⟩ := exists_raise_of_silent (C := C) (s := state) hends
    rw [Nat.add_comm]
    exact ⟨q, raise_add hq n⟩
  | error => exact ⟨_, rfl⟩

theorem exists_raise (h : Orderly C gs e s) : ∃ n r, raiseException C n gs e s = some r := by
  induction gs generalizing e s with
  | nil => exact ⟨1, _, rfl⟩
  | cons g gs ih =>
    suffices hfrom : ∀ hs asked e s, g = asked ++ hs → Silent asked e →
        OrderlyIn C gs (search C gs) (Orderly C gs) asked hs e s →
          ∃ n r, raiseException C n (g :: gs) e s = some r from
      hfrom g [] e s rfl (fun _ h => (List.not_mem_nil h).elim) h
    clear h
    intro hs
    induction hs with
    | nil =>
      intro asked e s hg hasked h
      obtain ⟨n, r, hr⟩ := ih h
      rw [List.append_nil] at hg
      refine ⟨n + 1, r, ?_⟩
      rw [raise_pass (hg ▸ hasked)]
      exact hr
    | cons h' hs ihs =>
      intro asked e s hg hasked h
      have hg' : g = (asked ++ [h']) ++ hs := by rw [hg, List.append_assoc]; rfl
      have hfind : findExceptionHandler e 0 g = findExceptionHandler e asked.length (h' :: hs) := by
        rw [hg, find_append hasked, Nat.zero_add]
      rw [findExceptionHandler] at hfind
      rw [OrderlyIn] at h
      rcases hm : h'.matches e with e' | m
      · rw [hm] at hfind h
        obtain ⟨n, r, hr⟩ := ih h
        refine ⟨n + 1, r.after [.handler gs.length asked.length], ?_⟩
        rw [raiseException, hfind]
        exact Option.map_eq_some_iff.2 ⟨r, hr, rfl⟩
      rw [hm] at hfind h
      cases m
      · exact ihs (asked ++ [h']) e s hg' (hasked.append hm) h
      dsimp only at h
      cases hX : (execute gs.length asked.length h'.actions (C.setException e s)).1.outcome with
      | done => exact ⟨1, _, raise_of_not_throws hfind (by simp [hX])⟩
      | error => exact ⟨1, _, raise_of_not_throws hfind (by simp [hX])⟩
      | exception e' =>
        rw [hX] at h
        obtain ⟨hs', hO, hends⟩ := h
        obtain ⟨n, r, hr⟩ := ihs (asked ++ [h']) e' _ hg' hs' hO
        have hsearch : r = searchIn C (search C gs) gs.length (asked.length + 1) hs e'
            (execute gs.length asked.length h'.actions (C.setException e s)).1.state := by
          rcases raiseException_cases hr with ⟨heq, -⟩ | ⟨-, hnot⟩
          · rw [heq, search, hg', searchIn_append hs', List.length_append, Nat.zero_add]
            rfl
          · refine (hnot ?_).elim
            rw [Orderly, hg', orderlyIn_append hs', List.nil_append]
            exact hO
        rw [← hsearch] at hends
        obtain ⟨q, hq⟩ := exists_resume (C := C) (l := gs.length) (i := asked.length)
          (raiseException C (n + (gs.length + 1)) (g :: gs)) hends n
        refine ⟨n + (gs.length + 1) + 1, q.after (.handler gs.length asked.length ::
          (execute gs.length asked.length h'.actions (C.setException e s)).1.trace ++ r.trace), ?_⟩
        rw [raise_of_throws hfind hX, raise_add hr, Option.bind_some, hq]
        rfl

/-- **The search for exception handlers.**  With some depth the search ends, and as it is
    documented, just if the handlers that throw do so in order. -/
theorem raises_iff :
    (∃ n, raiseException C n gs e s = some (search C gs e s)) ↔ Orderly C gs e s := by
  constructor
  · rintro ⟨n, hn⟩
    rcases raiseException_cases hn with ⟨-, hO⟩ | ⟨hp, -⟩
    · exact hO
    · exact (hp (List.prefix_refl _)).elim
  · intro hO
    obtain ⟨n, r, hr⟩ := exists_raise hO
    rcases raiseException_cases hr with ⟨heq, -⟩ | ⟨-, hnot⟩
    · exact ⟨n, heq ▸ hr⟩
    · exact (hnot hO).elim

/-! ## A handler that is found again -/

/-- Exceptions with a number, those from 100 on being `JbpmException`s. -/
def numbered : Context ℕ Unit where
  isJbpmException e := decide (100 ≤ e)
  delegationException e := 100 + e
  isJbpmException_delegationException e := by simp
  setException _ s := s

/-- The second handler throws what the first one matches. -/
def twoHandlers : List (ExceptionHandler ℕ Unit) :=
  [⟨.ok (· == 1), [fun s => (.done, s)]⟩, ⟨.ok (· == 0), [fun s => (.exception 1, s)]⟩]

theorem earlier_handler_executed : ¬ ∀ (gs : List (List (ExceptionHandler ℕ Unit))) (e : ℕ),
    ∃ n, raiseException numbered n gs e () = some (search numbered gs e ()) := by
  intro h
  obtain ⟨n, hn⟩ := h [twoHandlers] 0
  have hraise : raiseException numbered 3 [twoHandlers] 0 () =
      some ⟨.done, (), [.handler 0 1, .action 0 1, .handler 0 0, .action 0 0]⟩ := rfl
  have heq := (raise_add hn 3).symm.trans (Nat.add_comm 3 n ▸ raise_add hraise n)
  cases heq

end Raise

end Graph

end Jbpm
