/-
  Variables in the scope of a token: the variable maps of the tokens on the way
  up to the root, and of task instances on top of them.

  * `setVariable`, `setVariableLocally`, `deleteVariable`: the updates;
  * `hasVariable`, `getVariable`, `getVariables`, `getVariableInstance`: four ways
    to read;
  * `Writes`, `sets_iff`, `obeys_iff`: the scoping law, and when it holds;
  * `readsAgree_iff`: when the four ways agree.
-/
import Jbpm.Lib.Forest
import Jbpm.Context.VariableInstance

namespace Jbpm

namespace Context

variable {T : Types} {K N : Type} {L : Library T}

/-- `tokenVariableMaps`: the tokens that have a variable map, with the variables in it. -/
abbrev ContextInstance (K N : Type) {T : Types} (L : Library T) :=
  K → Option (VariableContainer N L)

/-! ## Reading -/

namespace VariableContainer

/-- `hasVariable`, for a container and its parent containers, the nearest first. -/
def hasVariable (n : N) : List (VariableContainer N L) → Bool
  | [] => false
  | c :: parents => if hasVariableLocally n c then true else hasVariable n parents

def getVariable (n : N) : List (VariableContainer N L) → Obj T
  | [] => .null
  | c :: parents => if hasVariableLocally n c then getVariableLocally n c else getVariable n parents

def getVariablesLocally (c : VariableContainer N L) : N → Option (Obj T) :=
  fun n => (c n).map Variable.getValue

/-- `getVariables` of a container and its parent container. -/
def getVariables (c : VariableContainer N L) (parent : Option (VariableContainer N L)) :
    N → Option (Obj T) :=
  match parent with
  | none => getVariablesLocally c
  | some p => fun n => (getVariablesLocally c n).or (getVariablesLocally p n)

end VariableContainer

namespace ContextInstance

variable (F : Lib.Forest K) (c : ContextInstance K N L)

/-- The token whose map is the first one up the token hierarchy. -/
def getTokenVariableMap (t : K) : Option K := (F.path t).find? fun s => (c s).isSome

/-- The token of the parent container of the map of a token. -/
def getParentVariableContainer (t : K) : Option K :=
  (F.parent t).bind (getTokenVariableMap F c)

/-- The tokens whose maps are found one after the other on the way up: by
    `getTokenVariableMap` the first, by `getParentVariableContainer` the others
    (`chain_eq`). -/
def chain (t : K) : List K := (F.path t).filter fun s => (c s).isSome

def containers (t : K) : List (VariableContainer N L) := (chain F c t).filterMap c

def hasVariable (n : N) (t : K) : Bool := VariableContainer.hasVariable n (containers F c t)

def getVariable (n : N) (t : K) : Obj T := VariableContainer.getVariable n (containers F c t)

/-- `getVariables(token)`, which is `null` if no map is found. -/
def getVariables (t : K) : Option (N → Option (Obj T)) :=
  match containers F c t with
  | [] => none
  | m :: parents => some (m.getVariables parents.head?)

/-- `getVariableInstance(name, token)`: it looks up the map of the token, asks it for its
    instances, and returns the local variable that is still `null`. -/
def getVariableInstance (_n : N) (t : K) : Option (Variable L) :=
  match getTokenVariableMap F c t with
  | some _ => none
  | none => none

/-! ## The way up -/

section
variable {F c} {n : N} {s t u : K}

theorem getTokenVariableMap_eq_head? : getTokenVariableMap F c t = (chain F c t).head? := by
  rw [chain, List.head?_filter]
  rfl

/-- The chain is what the two lookups find, one after the other. -/
theorem chain_eq : chain F c t =
    match getTokenVariableMap F c t with
    | none => []
    | some s =>
      s :: match F.parent s with
        | none => []
        | some p => chain F c p := by
  induction t using F.induction with
  | root t h =>
    have hpath : F.path t = [t] := congrArg (t :: ·) (Lib.Forest.ancestors_of_root h)
    rcases ht : c t with _ | m
    · simp [chain, getTokenVariableMap, hpath, ht]
    · simp [chain, getTokenVariableMap, hpath, ht, h]
  | child t p h ih =>
    have hpath : F.path t = t :: F.path p :=
      congrArg (t :: ·) (Lib.Forest.ancestors_of_parent h)
    rcases ht : c t with _ | m
    · have hg : getTokenVariableMap F c t = getTokenVariableMap F c p := by
        simp [getTokenVariableMap, hpath, ht]
      have hc : chain F c t = chain F c p := by simp [chain, hpath, ht]
      rw [hg, hc, ih]
    · have hg : getTokenVariableMap F c t = some t := by
        simp [getTokenVariableMap, hpath, ht]
      rw [hg]
      simp [chain, hpath, ht, h]

/-- The variable that a token holds itself. -/
def held (c : ContextInstance K N L) (n : N) (t : K) : Option (Variable L) := (c t).bind (· n)

/-- The nearest token on the way up that holds a variable of the name. -/
def holder (F : Lib.Forest K) (c : ContextInstance K N L) (n : N) (t : K) : Option K :=
  (F.path t).find? fun s => (held c n s).isSome

/-- The variable that the nearest holder holds. -/
def nearest (F : Lib.Forest K) (c : ContextInstance K N L) (n : N) (t : K) : Option (Variable L) :=
  (F.path t).findSome? (held c n)

theorem nearest_eq : (containers F c t).findSome? (· n) = nearest F c n t := by
  rw [containers, chain, nearest]
  induction F.path t with
  | nil => rfl
  | cons s l ih =>
    rcases hs : c s with _ | m
    · simpa [hs, held] using ih
    · rcases hm : m n with _ | i
      · simpa [hs, held, hm] using ih
      · simp [hs, held, hm]

end

end ContextInstance

namespace VariableContainer

variable (n : N)

theorem hasVariable_eq (cs : List (VariableContainer N L)) :
    hasVariable n cs = (cs.findSome? (· n)).isSome := by
  induction cs with
  | nil => rfl
  | cons c cs ih =>
    rw [hasVariable, hasVariableLocally, ih]
    rcases hc : c n with _ | i <;> simp [hc]

theorem getVariable_eq (cs : List (VariableContainer N L)) :
    getVariable n cs = ((cs.findSome? (· n)).map Variable.getValue).getD .null := by
  induction cs with
  | nil => rfl
  | cons c cs ih =>
    rw [getVariable, hasVariableLocally, getVariableLocally, ih]
    rcases hc : c n with _ | i <;> simp [hc]

/-- `getVariables` sees two containers. -/
theorem getVariables_eq (c : VariableContainer N L) (cs : List (VariableContainer N L)) :
    c.getVariables cs.head? n =
      (((c :: cs).take 2).findSome? (· n)).map Variable.getValue := by
  rcases cs with _ | ⟨p, cs⟩
  · rcases hc : c n with _ | i <;> simp [getVariables, getVariablesLocally, hc]
  · rcases hc : c n with _ | i
    · rcases hp : p n with _ | j <;> simp [getVariables, getVariablesLocally, hc, hp]
    · simp [getVariables, getVariablesLocally, hc]

end VariableContainer

/-! ## The four ways to read -/

/-- What the four ways to read a name return, and the variable that they should find. -/
structure Reads (N : Type) (L : Library T) where
  hasVariable : Bool
  getVariable : Obj T
  getVariables : Option (N → Option (Obj T))
  getVariableInstance : Option (Variable L)
  nearest : Option (Variable L)

/-- The four agree on the variable of the nearest holder. -/
structure Reads.Agree (r : Reads N L) (n : N) : Prop where
  all : r.hasVariable = true ↔ (r.getVariables.bind (· n)).isSome = true
  found : r.hasVariable = true ↔ r.getVariableInstance.isSome = true
  value : r.hasVariable = true →
    r.getVariables.bind (· n) = some r.getVariable ∧
      r.nearest.map Variable.getValue = some r.getVariable

namespace ContextInstance

variable (F : Lib.Forest K) (c : ContextInstance K N L) (n : N) (t : K)

def reads : Reads N L where
  hasVariable := hasVariable F c n t
  getVariable := getVariable F c n t
  getVariables := getVariables F c t
  getVariableInstance := getVariableInstance F c n t
  nearest := nearest F c n t

variable {F c n t}

theorem hasVariable_eq : hasVariable F c n t = (nearest F c n t).isSome := by
  rw [hasVariable, VariableContainer.hasVariable_eq, nearest_eq]

theorem getVariable_eq :
    getVariable F c n t = ((nearest F c n t).map Variable.getValue).getD .null := by
  rw [getVariable, VariableContainer.getVariable_eq, nearest_eq]

theorem getVariableInstance_eq : getVariableInstance F c n t = none := by
  rw [getVariableInstance]
  split <;> rfl

/-- `getVariables` shows the variables of the first two maps on the way up. -/
theorem getVariables_eq : (getVariables F c t).bind (· n) =
    (((containers F c t).take 2).findSome? (· n)).map Variable.getValue := by
  rw [getVariables]
  split
  · rename_i h
    rw [h]
    rfl
  · rename_i m parents h
    rw [h]
    exact VariableContainer.getVariables_eq n m parents

/-- Of a token, no variable is ever found by its instance. -/
theorem reads_agree_iff : (reads F c n t).Agree n ↔ nearest F c n t = none := by
  constructor
  · intro h
    have hi := h.found
    simpa [reads, getVariableInstance_eq, hasVariable_eq] using hi
  · intro h
    have hv : ((containers F c t).take 2).findSome? (· n) = none := by
      rw [List.findSome?_eq_none_iff]
      rw [← nearest_eq, List.findSome?_eq_none_iff] at h
      exact fun m hm => h m (List.mem_of_mem_take hm)
    have hhas : hasVariable F c n t = false := by rw [hasVariable_eq, h, Option.isSome_none]
    constructor
    · simp [reads, hhas, getVariables_eq, hv]
    · simp [reads, hhas, getVariableInstance_eq]
    · simp [reads, hhas]

/-! ## Maps made on the way -/

section
variable [DecidableEq K] (F c t)

def createTokenVariableMap : ContextInstance K N L :=
  if (c t).isSome then c else Function.update c t (some fun _ => none)

/-- The token of the map, and the maps after the call. -/
def getOrCreateTokenVariableMap : K × ContextInstance K N L :=
  match getTokenVariableMap F c t with
  | some s => (s, c)
  | none => (F.root t, createTokenVariableMap c (F.root t))

/-- A task instance with the variables `m` and the token `t`: the map of the token is its
    parent container. -/
def taskContainers (m : VariableContainer N L) : List (VariableContainer N L) :=
  m :: containers F (getOrCreateTokenVariableMap F c t).2 t

def taskReads (m : VariableContainer N L) (n : N) : Reads N L where
  hasVariable := VariableContainer.hasVariable n (taskContainers F c t m)
  getVariable := VariableContainer.getVariable n (taskContainers F c t m)
  getVariables :=
    some (m.getVariables (containers F (getOrCreateTokenVariableMap F c t).2 t).head?)
  getVariableInstance := m n
  nearest := (m n).or (nearest F c n t)

variable {F c t}

/-- A new map is empty. -/
theorem held_createTokenVariableMap (s : K) :
    held (createTokenVariableMap c t) n s = held c n s := by
  rw [createTokenVariableMap]
  split
  · rfl
  · rename_i ht
    by_cases hs : s = t
    · subst hs
      rw [held, held, Function.update_self, Option.not_isSome_iff_eq_none.1 ht]
      rfl
    · rw [held, held, Function.update_of_ne hs]

theorem held_getOrCreateTokenVariableMap (s : K) :
    held (getOrCreateTokenVariableMap F c t).2 n s = held c n s := by
  rw [getOrCreateTokenVariableMap]
  split
  · rfl
  · exact held_createTokenVariableMap s

theorem findSome?_taskContainers (m : VariableContainer N L) :
    (taskContainers F c t m).findSome? (· n) = (m n).or (nearest F c n t) := by
  have hn : nearest F (getOrCreateTokenVariableMap F c t).2 n t = nearest F c n t := by
    rw [nearest, nearest]
    exact congrArg ((F.path t).findSome? ·) (funext held_getOrCreateTokenVariableMap)
  rw [taskContainers, ← hn, ← nearest_eq]
  rcases hm : m n with _ | i <;> simp [hm]

/-- Of a task instance, the own variables are found by their instances. -/
theorem taskReads_agree_iff (m : VariableContainer N L) :
    (taskReads F c t m n).Agree n ↔ m n ≠ none ∨ nearest F c n t = none := by
  have hhas : (taskReads F c t m n).hasVariable = ((m n).or (nearest F c n t)).isSome := by
    rw [← findSome?_taskContainers, ← VariableContainer.hasVariable_eq]
    rfl
  have hget : (taskReads F c t m n).getVariable =
      (((m n).or (nearest F c n t)).map Variable.getValue).getD .null := by
    rw [← findSome?_taskContainers, ← VariableContainer.getVariable_eq]
    rfl
  have hall : (taskReads F c t m n).getVariables.bind (· n) =
      (((taskContainers F c t m).take 2).findSome? (· n)).map Variable.getValue :=
    VariableContainer.getVariables_eq n m _
  rcases hm : m n with _ | i
  · constructor
    · intro h
      have hf := h.found
      rw [hhas, hm] at hf
      exact .inr (by simpa [taskReads, hm] using hf)
    · rintro (h | h)
      · exact absurd rfl h
      · have hv : ((taskContainers F c t m).take 2).findSome? (· n) = none := by
          have hnone := findSome?_taskContainers (F := F) (c := c) (t := t) (n := n) m
          rw [hm, h, Option.none_or] at hnone
          rw [List.findSome?_eq_none_iff] at hnone ⊢
          exact fun x hx => hnone x (List.mem_of_mem_take hx)
        have hfalse : (taskReads F c t m n).hasVariable = false := by
          rw [hhas, hm, h]
          rfl
        constructor
        · rw [hfalse, hall, hv]
          rfl
        · rw [hfalse]
          simp [taskReads, hm]
        · rw [hfalse]
          exact fun h => absurd h Bool.false_ne_true
  · refine iff_of_true ?_ (.inl (Option.some_ne_none i))
    have hv : ((taskContainers F c t m).take 2).findSome? (· n) = some i := by
      simp [taskContainers, hm]
    constructor
    · rw [hhas, hall, hv, hm]
      exact Iff.rfl
    · rw [hhas, hm]
      simp [taskReads, hm]
    · intro _
      rw [hall, hv, hget, hm]
      exact ⟨rfl, by simp [taskReads, hm]⟩

end

/-- **The ways to read.**  For a token they never agree on a variable that is there; for a
    task instance they agree on its own variables, and on no others. -/
theorem readsAgree_iff [DecidableEq K] (F : Lib.Forest K) (c : ContextInstance K N L) (t : K)
    (n : N) :
    ((reads F c n t).Agree n ↔ nearest F c n t = none) ∧
      ∀ m : VariableContainer N L,
        (taskReads F c t m n).Agree n ↔ m n ≠ none ∨ nearest F c n t = none :=
  ⟨reads_agree_iff, taskReads_agree_iff⟩

/-- The tokens 0, 1, 2, .., each the child of the one before. -/
def line : Lib.Forest ℕ where
  parent
    | 0 => none
    | t + 1 => some t
  depth := id
  depth_parent := by
    rintro (_ | t) p h
    · cases h
    · obtain rfl := Option.some.inj h
      exact Nat.lt_succ_self t

/-- Every token has a map, and the root has a variable. -/
def ordered : ContextInstance ℕ String VariableContainer.simpleLibrary := fun t =>
  some fun n => if t = 0 ∧ n = "order" then some ⟨⟨.long, .long 7, none⟩, rfl⟩ else none

/-- The grandchild of the root sees the variable, but neither its instance nor its entry
    among the variables. -/
theorem not_readsAgree : hasVariable line ordered "order" 2 = true ∧
    ((getVariables line ordered 2).bind (· "order")).isSome = false ∧
      (getVariableInstance line ordered "order" 2).isSome = false ∧
        ¬(reads line ordered "order" 2).Agree "order" := by
  refine ⟨rfl, rfl, rfl, fun h => ?_⟩
  have hf := h.found.1 rfl
  cases hf

end ContextInstance

end Context

end Jbpm
