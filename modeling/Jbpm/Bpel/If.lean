/-
  `If`: its children with their conditions, and its execution.

  * `If`: the two lists, in which the else branch is the activity without a condition;
  * `addNode`, `removeNode`, `reorderNode`, `setCondition`, `setElse`: the changes;
  * `Engine`, `execute`: the execution, with a record of what is evaluated, eliminated and taken;
  * `lastSet`: the condition last set for each activity;
  * `keeps_conditions`: the conditions and the execution after any changes, where a reorder
    leaves the else branch alone or lets it trade places with the branch before it.
-/
import Jbpm.Java.Throws
import Jbpm.Lib.Lists
import Jbpm.Lib.Run
import Mathlib.Logic.Function.Basic

namespace Jbpm

open Java Lib

namespace Bpel

/-- The activities and, of the first of them, the conditions.  A condition is `null` until it
    is set. -/
structure If (A C : Type) where
  activities : List A
  conditions : List (Option C)

/-- The exceptions of a change, and those of an execution. -/
inductive If.Raise (ε : Type)
  | nonMember
  | indexOutOfBounds
  | nullPointer
  | noSuchElement
  | engine (e : ε)

namespace If

variable {A C : Type} (s : If A C)

def empty : If A C := ⟨[], []⟩

/-! ## Children -/

/-- `getBranches`: `subList(0, conditions.size())` -/
def getBranches : List A := s.activities.take s.conditions.length

def getElse : Option A := s.activities[s.conditions.length]?

section
variable [DecidableEq A]

def removeActivity (activity : A) : If A C where
  activities := s.activities.erase activity
  conditions :=
    if s.activities.idxOf activity < s.conditions.length then
      s.conditions.eraseIdx (s.activities.idxOf activity)
    else s.conditions

def removeNode (activity : A) : If A C :=
  if activity ∈ s.activities then s.removeActivity activity else s

/-- `super.addActivity`: the activity is first detached from its parent, which may be this
    one. -/
def superAddActivity (activity : A) : If A C :=
  let s := s.removeNode activity
  { s with activities := s.activities ++ [activity] }

def addActivity (activity : A) : If A C :=
  let added :=
    match s.getElse with
    | some _else =>
      -- remove the default activity temporarily
      let s := { s with activities := s.activities.eraseIdx s.conditions.length }
      let s := s.superAddActivity activity
      { s with activities := s.activities ++ [_else] }
    | none => s.superAddActivity activity
  { added with conditions := added.conditions ++ [none] }

/-- An index that does not exist is noticed by the second half of
    `activities.add(newIndex, activities.remove(oldIndex))` only. -/
def reorderNode (oldIndex newIndex : ℕ) : Throws (Raise Empty) (If A C) Unit := fun s =>
  if s.activities.length ≤ oldIndex then (.error .indexOutOfBounds, s)
  else if s.activities.length ≤ newIndex then
    (.error .indexOutOfBounds, { s with activities := s.activities.eraseIdx oldIndex })
  else
    (.ok (), {
      activities := moved oldIndex newIndex s.activities
      conditions :=
        if oldIndex < s.conditions.length ∧ newIndex < s.conditions.length then
          moved oldIndex newIndex s.conditions
        else s.conditions })

def getCondition (activity : A) : Except (Raise Empty) (Option C) :=
  if activity ∈ s.activities then .ok (s.conditions[s.activities.idxOf activity]?).join
  else .error .nonMember

def setCondition (activity : A) (condition : C) : Throws (Raise Empty) (If A C) Unit := fun s =>
  if activity ∉ s.activities then (.error .nonMember, s)
  else if s.activities.idxOf activity < s.conditions.length then
    (.ok (), { s with
      conditions := s.conditions.set (s.activities.idxOf activity) (some condition) })
  else (.ok (), { s with conditions := s.conditions ++ [some condition] })

def setElse (_else : A) : Throws (Raise Empty) (If A C) Unit := fun s =>
  let index := s.activities.idxOf _else
  if _else ∉ s.activities then (.error .nonMember, s)
  else if index < s.conditions.length then
    let s :=
      match s.getElse with
      | some oldElse => s.removeActivity oldElse
      | none => s
    (.ok (), {
      activities := s.activities.eraseIdx index ++ [_else]
      conditions := s.conditions.eraseIdx index })
  else (.ok (), s)

end

/-! ## Execution -/

/-- What an execution calls: the evaluator of a condition, the elimination of a branch, and the
    transition from the begin mark to a branch or to the end mark. -/
structure Engine (σ ε A C : Type) where
  evaluate : C → Throws ε σ Bool
  eliminatePath : A → Throws ε σ Unit
  leave : Option A → Throws ε σ Unit

/-- The record of an execution. -/
inductive Event (A C : Type)
  | evaluated (branch : A) (condition : C) (holds : Bool)
  | eliminated (branch : A)
  | taken (branch : Option A)

section
variable {σ ε : Type} (G : Engine σ ε A C)

/-- A call of the engine. -/
def call {α : Type} (m : Throws ε σ α) : Throws (Raise ε) (σ × List (Event A C)) α := fun x =>
  match m x.1 with
  | (.ok a, y) => (.ok a, y, x.2)
  | (.error e, y) => (.error (.engine e), y, x.2)

def record (event : Event A C) : Throws (Raise ε) (σ × List (Event A C)) Unit :=
  Throws.modify_ fun x => (x.1, x.2 ++ [event])

def eliminate (branch : A) : Throws (Raise ε) (σ × List (Event A C)) Unit := do
  record (.eliminated branch)
  call (G.eliminatePath branch)

/-- The loop over the conditions, with the branches beside them. -/
def selectBranch : List A → List (Option C) → Option A →
    Throws (Raise ε) (σ × List (Event A C)) (Option A)
  | _, [], selectedBranch => pure selectedBranch
  | [], _ :: _, _ => Throws.throw_ .indexOutOfBounds
  | branch :: branches, condition :: conditions, none =>
    match condition with
    | none => Throws.throw_ .nullPointer
    | some condition => do
      let holds ← call (G.evaluate condition)
      record (.evaluated branch condition holds)
      if holds then selectBranch branches conditions (some branch)
      else do
        eliminate G branch
        selectBranch branches conditions none
  | branch :: branches, _ :: conditions, some selectedBranch => do
    eliminate G branch
    selectBranch branches conditions (some selectedBranch)

/-- `getBegin().leave(exeContext, selectedBranch.getDefaultArrivingTransition())`: the end mark
    has an arriving transition from each activity. -/
def takeBranch (selectedBranch : Option A) : Throws (Raise ε) (σ × List (Event A C)) Unit :=
  if selectedBranch.isNone ∧ s.activities.isEmpty then Throws.throw_ .noSuchElement
  else do
    record (.taken selectedBranch)
    call (G.leave selectedBranch)

/-- What follows the loop, where the else branch is taken or eliminated. -/
def finish (selectedBranch : Option A) : Throws (Raise ε) (σ × List (Event A C)) Unit :=
  match s.getElse, selectedBranch with
  | some _else, none => s.takeBranch G (some _else)
  | some _else, some branch => do
    eliminate G _else
    s.takeBranch G (some branch)
  | none, selectedBranch => s.takeBranch G selectedBranch

def execute : Throws (Raise ε) (σ × List (Event A C)) Unit :=
  selectBranch G s.activities s.conditions none >>= s.finish G

end

/-! ## Changes -/

/-- A change of the children. -/
inductive Op (A C : Type)
  | addNode (activity : A)
  | removeNode (activity : A)
  | reorderNode (oldIndex newIndex : ℕ)
  | setCondition (activity : A) (condition : C)
  | setElse (_else : A)

variable [DecidableEq A]

/-- The children after a change, also if it ends with an exception. -/
def apply : Op A C → If A C
  | .addNode activity => s.addActivity activity
  | .removeNode activity => s.removeNode activity
  | .reorderNode oldIndex newIndex => (reorderNode oldIndex newIndex s).2
  | .setCondition activity condition => (setCondition activity condition s).2
  | .setElse _else => (setElse _else s).2

/-- The condition last set for each activity, before and after a change.  An activity that is
    added has none. -/
def lastSet (cond : A → Option C) : Op A C → A → Option C
  | .addNode activity => Function.update cond activity none
  | .setCondition activity condition =>
    if activity ∈ s.activities then Function.update cond activity (some condition) else cond
  | .removeNode _ | .reorderNode _ _ | .setElse _ => cond

/-- The same, if the else branch takes over the condition of a branch with which it trades
    places. -/
def lastSetOrTaken (cond : A → Option C) (op : Op A C) : A → Option C :=
  match op, s.getElse, s.getBranches.getLast? with
  | .reorderNode oldIndex newIndex, some _else, some branch =>
    if oldIndex ≠ newIndex ∧
        (oldIndex = s.conditions.length ∨ newIndex = s.conditions.length) then
      Function.update cond _else (cond branch)
    else cond
  | _, _, _ => s.lastSet cond op

/-- The else branch is not added again; and a reorder is between indices that exist, and leaves
    the else branch where it is or lets it trade places with the branch before it. -/
def Regular : Op A C → Prop
  | .addNode activity => s.getElse ≠ some activity
  | .reorderNode oldIndex newIndex =>
    oldIndex < s.activities.length ∧ newIndex < s.activities.length ∧
      (oldIndex = s.conditions.length → oldIndex ≤ newIndex + 1) ∧
      (newIndex = s.conditions.length → newIndex ≤ oldIndex + 1)
  | .removeNode _ | .setCondition _ _ | .setElse _ => True

instance : DecidablePred s.Regular
  | .addNode activity => inferInstanceAs (Decidable (s.getElse ≠ some activity))
  | .reorderNode oldIndex newIndex => inferInstanceAs (Decidable
      (oldIndex < s.activities.length ∧ newIndex < s.activities.length ∧
        (oldIndex = s.conditions.length → oldIndex ≤ newIndex + 1) ∧
        (newIndex = s.conditions.length → newIndex ≤ oldIndex + 1)))
  | .removeNode _ | .setCondition _ _ | .setElse _ => .isTrue trivial

/-- A change, and what was last set. -/
def step (x : If A C × (A → Option C)) (op : Op A C) : If A C × (A → Option C) :=
  (x.1.apply op, x.1.lastSetOrTaken x.2 op)

/-- Branches have their conditions, and there may be an else branch behind them. -/
structure Keeps (cond : A → Option C) : Prop where
  nodup : s.activities.Nodup
  activities : s.activities = s.getBranches ++ s.getElse.toList
  condition : ∀ branch ∈ s.getBranches, s.getCondition branch = .ok (cond branch)
  length : s.activities.length = s.conditions.length ∨
    s.activities.length = s.conditions.length + 1

/-! ## The shape of the lists -/

/-- Branches with their conditions, and an else branch. -/
def shape (branches : List A) (_else : Option A) (cond : A → Option C) : If A C where
  activities := branches ++ _else.toList
  conditions := branches.map cond

section
variable {branches : List A} {_else : Option A} {cond : A → Option C} {a e : A} {c : C}

omit [DecidableEq A] in
@[simp] theorem shape_activities :
    (shape branches _else cond).activities = branches ++ _else.toList := rfl

omit [DecidableEq A] in
@[simp] theorem shape_conditions :
    (shape branches _else cond).conditions = branches.map cond := rfl

omit [DecidableEq A] in
theorem getElse_shape : (shape branches _else cond).getElse = _else := by
  rw [getElse, shape_activities, shape_conditions, List.length_map,
    List.getElem?_append_right (Nat.le_refl _), Nat.sub_self]
  cases _else <;> rfl

omit [DecidableEq A] in
theorem getBranches_shape : (shape branches _else cond).getBranches = branches := by
  rw [getBranches, shape_activities, shape_conditions, List.length_map, List.take_left]

/-- A branch is found beside its condition. -/
theorem idxOf_branch (_else : Option A) (cond : A → Option C) (h : a ∈ branches) :
    (branches ++ _else.toList).idxOf a = branches.idxOf a ∧
      branches.idxOf a < (branches.map cond).length := by
  refine ⟨List.idxOf_append_of_mem h, ?_⟩
  rw [List.length_map]
  exact List.idxOf_lt_length_of_mem h

theorem idxOf_else (h : e ∉ branches) :
    (branches ++ [e]).idxOf e = (branches.map cond).length := by
  rw [List.idxOf_append_of_notMem h, List.idxOf_cons_self, List.length_map]
  rfl

theorem getCondition_shape (h : a ∈ branches) :
    (shape branches _else cond).getCondition a = .ok (cond a) := by
  obtain ⟨hidx, -⟩ := idxOf_branch _else cond h
  unfold getCondition shape
  rw [if_pos (List.mem_append_left _ h), hidx, List.getElem?_map,
    List.getElem?_idxOf h]
  rfl

theorem keeps_shape (h : (branches ++ _else.toList).Nodup) :
    (shape branches _else cond).Keeps cond where
  nodup := h
  activities := by
    rw [getBranches_shape, getElse_shape]
    rfl
  condition branch hbranch := by
    rw [getBranches_shape] at hbranch
    exact getCondition_shape hbranch
  length := by
    unfold shape
    rw [List.length_map, List.length_append]
    cases _else with
    | none => exact .inl rfl
    | some _ => exact .inr rfl

/-! ## The changes of a shape -/

theorem erase_append_else (h : a ∈ branches) :
    (branches ++ _else.toList).erase a = branches.erase a ++ _else.toList :=
  List.erase_append_left _ h

theorem removeActivity_branch (h : a ∈ branches) :
    (shape branches _else cond).removeActivity a = shape (branches.erase a) _else cond := by
  obtain ⟨hidx, hlt⟩ := idxOf_branch _else cond h
  unfold removeActivity
  simp only [shape_activities, shape_conditions, hidx]
  rw [if_pos hlt, erase_append_else h, eraseIdx_map_idxOf]
  rfl

theorem removeActivity_else (h : e ∉ branches) :
    (shape branches (some e) cond).removeActivity e = shape branches none cond := by
  have hidx : ¬ (shape branches (some e) cond).activities.idxOf e <
      (shape branches (some e) cond).conditions.length := by
    rw [shape_activities, shape_conditions, Option.toList_some, idxOf_else h]
    exact Nat.lt_irrefl _
  unfold removeActivity
  rw [if_neg hidx, shape_activities, Option.toList_some, List.erase_append_right _ h,
    List.erase_cons_head]
  rfl

theorem removeNode_branch (h : a ∈ branches) :
    (shape branches _else cond).removeNode a = shape (branches.erase a) _else cond := by
  have hmem : a ∈ (shape branches _else cond).activities := List.mem_append_left _ h
  rw [removeNode, if_pos hmem, removeActivity_branch h]

theorem removeNode_nonMember (h : a ∉ (shape branches _else cond).activities) :
    (shape branches _else cond).removeNode a = shape branches _else cond :=
  if_neg h

/-- The end of the list apart, an activity that is added has been removed before. -/
theorem superAddActivity_shape :
    (shape branches none cond).superAddActivity a =
      { shape (branches.erase a) none cond with activities := branches.erase a ++ [a] } := by
  have hremove : (shape branches none cond).removeNode a = shape (branches.erase a) none cond := by
    by_cases ha : a ∈ branches
    · exact removeNode_branch ha
    · rw [removeNode_nonMember (by simpa using ha), List.erase_of_not_mem ha]
  rw [superAddActivity, hremove]
  simp

theorem addActivity_shape (hnodup : (branches ++ _else.toList).Nodup) (ha : _else ≠ some a) :
    (shape branches _else cond).addActivity a =
      shape (branches.erase a ++ [a]) _else (Function.update cond a none) := by
  have hbranches : branches.Nodup := (List.nodup_append.1 hnodup).1
  have hcond : (branches.erase a ++ [a]).map (Function.update cond a none) =
      (branches.erase a).map cond ++ [none] := by
    rw [List.map_append, List.map_singleton, Function.update_self]
    congr 1
    exact map_update_of_notMem hbranches.not_mem_erase none
  unfold addActivity
  rw [getElse_shape]
  cases _else with
  | none =>
    dsimp only
    rw [superAddActivity_shape]
    simp only [shape, hcond, Option.toList_none, List.append_nil]
  | some e =>
    have hfront : { shape branches (some e) cond with
        activities := (shape branches (some e) cond).activities.eraseIdx
          (shape branches (some e) cond).conditions.length } = shape branches none cond := by
      simp only [shape_activities, shape_conditions, List.length_map, Option.toList_some]
      rw [List.eraseIdx_append_of_length_le (Nat.le_refl _), Nat.sub_self]
      rfl
    dsimp only
    rw [hfront, superAddActivity_shape]
    simp only [shape, hcond, Option.toList_some]

omit [DecidableEq A] in
/-- A reorder of the branches. -/
theorem reorderNode_branches {i j : ℕ} (hi : i < branches.length) (hj : j < branches.length) :
    (reorderNode i j (shape branches _else cond)).2 = shape (moved i j branches) _else cond := by
  have hlen : branches.length ≤ (shape branches _else cond).activities.length := by simp
  have hcond : i < (shape branches _else cond).conditions.length ∧
      j < (shape branches _else cond).conditions.length := by simpa using ⟨hi, hj⟩
  unfold reorderNode
  rw [if_neg (by omega), if_neg (by omega), if_pos hcond, shape_activities, shape_conditions,
    moved_append hi hj, ← map_moved]
  rfl

/-- The last branch and the else branch trade places, and the condition stays in its place. -/
theorem reorderNode_trade {front : List A} {b e : A} {i j : ℕ}
    (hnodup : (front ++ [b, e]).Nodup)
    (hij : i = front.length ∧ j = front.length + 1 ∨ i = front.length + 1 ∧ j = front.length) :
    (reorderNode i j (shape (front ++ [b]) (some e) cond)).2 =
      shape (front ++ [e]) (some b) (Function.update cond e (cond b)) := by
  have hactivities : (shape (front ++ [b]) (some e) cond).activities = front ++ [b, e] := by
    simp
  have hlen : (shape (front ++ [b]) (some e) cond).activities.length = front.length + 2 := by
    simp
  have hmoved : moved i j (front ++ [b, e]) = front ++ [e, b] := by
    rcases hij with ⟨rfl, rfl⟩ | ⟨rfl, rfl⟩
    · exact moved_adjacent front b e []
    · exact moved_adjacent_back front b e []
  have hcond : ¬ (i < (shape (front ++ [b]) (some e) cond).conditions.length ∧
      j < (shape (front ++ [b]) (some e) cond).conditions.length) := by
    rw [shape_conditions, List.length_map, List.length_append, List.length_singleton]
    omega
  have hfront : front.map (Function.update cond e (cond b)) = front.map cond :=
    map_update_of_notMem (fun he => List.disjoint_of_nodup_append hnodup he (by simp)) _
  unfold reorderNode
  rw [if_neg (by omega), if_neg (by omega), if_neg hcond, hactivities, hmoved]
  simp [shape, hfront]

theorem setCondition_branch (hnodup : branches.Nodup) (h : a ∈ branches) :
    (setCondition a c (shape branches _else cond)).2 =
      shape branches _else (Function.update cond a (some c)) := by
  obtain ⟨hidx, hlt⟩ := idxOf_branch _else cond h
  have hmem : ¬ a ∉ (shape branches _else cond).activities :=
    not_not.2 (List.mem_append_left _ h)
  have hlt : (shape branches _else cond).activities.idxOf a <
      (shape branches _else cond).conditions.length := by
    rwa [shape_activities, shape_conditions, hidx]
  unfold setCondition
  rw [if_neg hmem, if_pos hlt, shape_activities, shape_conditions, hidx, set_map_idxOf hnodup h]
  rfl

/-- The default activity becomes conditional. -/
theorem setCondition_else (h : e ∉ branches) :
    (setCondition e c (shape branches (some e) cond)).2 =
      shape (branches ++ [e]) none (Function.update cond e (some c)) := by
  have hmem : ¬ e ∉ (shape branches (some e) cond).activities := not_not.2 (by simp)
  have hlt : ¬ (shape branches (some e) cond).activities.idxOf e <
      (shape branches (some e) cond).conditions.length := by
    rw [shape_activities, shape_conditions, Option.toList_some, idxOf_else h]
    exact Nat.lt_irrefl _
  have hbranches : branches.map (Function.update cond e (some c)) = branches.map cond :=
    map_update_of_notMem h _
  unfold setCondition
  rw [if_neg hmem, if_neg hlt]
  simp [shape, hbranches]

theorem setElse_branch (hnodup : (branches ++ _else.toList).Nodup) (h : a ∈ branches) :
    (setElse a (shape branches _else cond)).2 = shape (branches.erase a) (some a) cond := by
  obtain ⟨hidx, hlt⟩ := idxOf_branch _else cond h
  have hmem : ¬ a ∉ (shape branches _else cond).activities :=
    not_not.2 (List.mem_append_left _ h)
  have hlt : (shape branches _else cond).activities.idxOf a <
      (shape branches _else cond).conditions.length := by
    rwa [shape_activities, shape_conditions, hidx]
  have hdropped : (match (shape branches _else cond).getElse with
      | some oldElse => (shape branches _else cond).removeActivity oldElse
      | none => shape branches _else cond) = shape branches none cond := by
    rw [getElse_shape]
    cases _else with
    | none => rfl
    | some e =>
      refine removeActivity_else fun he => ?_
      exact List.disjoint_of_nodup_append hnodup he (by simp)
  have hset : (setElse a (shape branches _else cond)).2 =
      { activities := (shape branches none cond).activities.eraseIdx
          ((shape branches _else cond).activities.idxOf a) ++ [a]
        conditions := (shape branches none cond).conditions.eraseIdx
          ((shape branches _else cond).activities.idxOf a) } := by
    unfold setElse
    rw [if_neg hmem, if_pos hlt, hdropped]
  rw [hset, shape_activities, shape_activities, shape_conditions, hidx, eraseIdx_map_idxOf,
    Option.toList_none, List.append_nil, ← List.erase_eq_eraseIdx_of_idxOf rfl]
  rfl

theorem setElse_else (h : e ∉ branches) :
    (setElse e (shape branches (some e) cond)).2 = shape branches (some e) cond := by
  have hmem : ¬ e ∉ (shape branches (some e) cond).activities := not_not.2 (by simp)
  have hlt : ¬ (shape branches (some e) cond).activities.idxOf e <
      (shape branches (some e) cond).conditions.length := by
    rw [shape_activities, shape_conditions, Option.toList_some, idxOf_else h]
    exact Nat.lt_irrefl _
  unfold setElse
  rw [if_neg hmem, if_neg hlt]

end

/-! ## Runs of changes -/

/-- The lists have a shape, with what was last set. -/
def Inv (x : If A C × (A → Option C)) : Prop :=
  ∃ branches _else, x.1 = shape branches _else x.2 ∧ (branches ++ _else.toList).Nodup

section
variable {branches : List A} {_else : Option A} {cond : A → Option C}

theorem lastSetOrTaken_reorderNode {i j : ℕ} (h : i = j ∨ i ≠ branches.length ∧ j ≠ branches.length) :
    (shape branches _else cond).lastSetOrTaken cond (.reorderNode i j) = cond := by
  unfold lastSetOrTaken
  rw [getElse_shape, getBranches_shape]
  cases _else with
  | none => rfl
  | some e =>
    cases branches.getLast? with
    | none => rfl
    | some b =>
      refine if_neg ?_
      rw [shape_conditions, List.length_map]
      omega

theorem lastSetOrTaken_trade {front : List A} {b e : A} {i j : ℕ}
    (hij : i = front.length ∧ j = front.length + 1 ∨ i = front.length + 1 ∧ j = front.length) :
    (shape (front ++ [b]) (some e) cond).lastSetOrTaken cond (.reorderNode i j) =
      Function.update cond e (cond b) := by
  unfold lastSetOrTaken
  rw [getElse_shape, getBranches_shape, List.getLast?_append]
  refine if_pos ?_
  rw [shape_conditions, List.length_map, List.length_append, List.length_singleton]
  omega

theorem lastSetOrTaken_setCondition {a : A} {c : C}
    (h : a ∈ (shape branches _else cond).activities) :
    (shape branches _else cond).lastSetOrTaken cond (.setCondition a c) =
      Function.update cond a (some c) :=
  if_pos h

theorem inv_reorderNode (hnodup : (branches ++ _else.toList).Nodup) {i j : ℕ}
    (h : (shape branches _else cond).Regular (.reorderNode i j)) :
    Inv (step (shape branches _else cond, cond) (.reorderNode i j)) := by
  unfold Inv step apply
  dsimp only
  obtain ⟨hi, hj, hold, hnew⟩ := h
  rw [shape_activities, List.length_append] at hi hj
  rw [shape_conditions, List.length_map] at hold hnew
  by_cases hin : i < branches.length ∧ j < branches.length
  · rw [reorderNode_branches hin.1 hin.2, lastSetOrTaken_reorderNode (by omega)]
    refine ⟨_, _, rfl, ?_⟩
    exact ((perm_moved hin.1 hin.2).append_right _).nodup_iff.2 hnodup
  -- one of the indices is that of the else branch
  cases _else with
  | none =>
    rw [Option.toList_none, List.length_nil] at hi hj
    omega
  | some e =>
    rw [Option.toList_some, List.length_singleton] at hi hj
    by_cases hij : i = j
    · subst hij
      have hself : (reorderNode i i (shape branches (some e) cond)).2 =
          shape branches (some e) cond := by
        have hlen : (shape branches (some e) cond).activities.length = branches.length + 1 := by
          simp
        unfold reorderNode
        rw [if_neg (by omega), if_neg (by omega), moved_self (by omega)]
        split
        · rename_i hlt
          rw [moved_self hlt.1]
        · rfl
      rw [hself, lastSetOrTaken_reorderNode (.inl rfl)]
      exact ⟨_, _, rfl, hnodup⟩
    · obtain ⟨front, b, rfl⟩ : ∃ front b, branches = front ++ [b] := by
        refine (List.eq_nil_or_concat' branches).resolve_left ?_
        rintro rfl
        rw [List.length_nil] at hi hj
        omega
      have htrade : i = front.length ∧ j = front.length + 1 ∨
          i = front.length + 1 ∧ j = front.length := by
        rw [List.length_append, List.length_singleton] at hi hj hold hnew hin
        omega
      rw [Option.toList_some, List.append_assoc, List.singleton_append] at hnodup
      rw [reorderNode_trade hnodup htrade, lastSetOrTaken_trade htrade]
      refine ⟨_, _, rfl, ?_⟩
      rw [Option.toList_some, List.append_assoc, List.singleton_append]
      exact ((List.Perm.swap b e []).append_left front).nodup_iff.2 hnodup

/-- **One change.** -/
theorem Inv.step {x : If A C × (A → Option C)} (hx : Inv x) {op : Op A C}
    (hop : x.1.Regular op) : Inv (step x op) := by
  obtain ⟨s, cond⟩ := x
  obtain ⟨branches, _else, hs, hnodup⟩ := hx
  obtain rfl : s = shape branches _else cond := hs
  have hbranches : branches.Nodup := (List.nodup_append.1 hnodup).1
  cases op with
  | addNode a =>
    have helse : _else ≠ some a := by
      have hgetElse : (shape branches _else cond).getElse = _else := getElse_shape
      rw [← hgetElse]
      exact hop
    refine ⟨branches.erase a ++ [a], _else, addActivity_shape hnodup helse, ?_⟩
    have hperm : (branches.erase a ++ [a] ++ _else.toList).Perm
        (a :: (branches ++ _else.toList).erase a) := by
      have herase : (branches ++ _else.toList).erase a = branches.erase a ++ _else.toList := by
        by_cases ha : a ∈ branches
        · exact erase_append_else ha
        · have hnot : a ∉ _else.toList := by
            rw [Option.mem_toList]
            exact helse
          rw [List.erase_of_not_mem ha, List.erase_of_not_mem fun h =>
            (List.mem_append.1 h).elim ha hnot]
      rw [herase, List.append_assoc]
      exact List.perm_middle
    refine hperm.nodup_iff.2 (List.nodup_cons.2 ⟨hnodup.not_mem_erase, hnodup.erase a⟩)
  | removeNode a =>
    unfold If.step apply
    by_cases ha : a ∈ branches
    · exact ⟨_, _, removeNode_branch ha, by
        rw [← erase_append_else ha]
        exact hnodup.erase a⟩
    cases _else with
    | none => exact ⟨_, none, removeNode_nonMember (by simpa using ha), hnodup⟩
    | some e =>
      by_cases hae : a = e
      · subst hae
        have hmem : a ∈ (shape branches (some a) cond).activities := by simp
        have hremove : (shape branches (some a) cond).removeNode a = shape branches none cond :=
          (if_pos hmem).trans (removeActivity_else ha)
        exact ⟨branches, none, hremove, by simpa using hbranches⟩
      · exact ⟨_, some e, removeNode_nonMember (by simp [ha, hae]), hnodup⟩
  | reorderNode i j => exact inv_reorderNode hnodup hop
  | setCondition a c =>
    unfold If.step apply
    dsimp only
    by_cases ha : a ∈ branches
    · rw [setCondition_branch hbranches ha, lastSetOrTaken_setCondition (List.mem_append_left _ ha)]
      exact ⟨_, _, rfl, hnodup⟩
    by_cases hmem : a ∈ (shape branches _else cond).activities
    · obtain rfl : _else = some a := by
        simpa [ha] using hmem
      rw [setCondition_else ha, lastSetOrTaken_setCondition hmem]
      exact ⟨_, _, rfl, by simpa using hnodup⟩
    · have hset : (setCondition a c (shape branches _else cond)).2 =
          shape branches _else cond := by
        unfold setCondition
        rw [if_pos hmem]
      have hlast : (shape branches _else cond).lastSetOrTaken cond (.setCondition a c) = cond :=
        if_neg hmem
      rw [hset, hlast]
      exact ⟨_, _, rfl, hnodup⟩
  | setElse a =>
    unfold If.step apply
    dsimp only
    by_cases ha : a ∈ branches
    · rw [setElse_branch hnodup ha]
      refine ⟨_, some a, rfl, ?_⟩
      rw [Option.toList_some]
      exact (List.perm_append_singleton _ _).nodup_iff.2
        (List.nodup_cons.2 ⟨hbranches.not_mem_erase, hbranches.erase a⟩)
    by_cases hmem : a ∈ (shape branches _else cond).activities
    · obtain rfl : _else = some a := by
        simpa [ha] using hmem
      rw [setElse_else ha]
      exact ⟨_, _, rfl, hnodup⟩
    · have hset : (setElse a (shape branches _else cond)).2 = shape branches _else cond := by
        unfold setElse
        rw [if_pos hmem]
      rw [hset]
      exact ⟨_, _, rfl, hnodup⟩

end

/-! ## Executions -/

/-- What is recorded of branches whose conditions do not hold. -/
def Rejected (cond : A → Option C) : List A → List (Event A C) → Prop
  | [], events => events = []
  | b :: front, events => ∃ c rest, cond b = some c ∧ Rejected cond front rest ∧
      events = .evaluated b c false :: .eliminated b :: rest

/-- The record of an execution: the first branch whose condition holds is taken, else the else
    branch, else the end, and every other branch is eliminated. -/
inductive Takes (branches : List A) (_else : Option A) (cond : A → Option C) :
    List (Event A C) → Prop
  | branch {front b rest c events} : branches = front ++ b :: rest → Rejected cond front events →
    cond b = some c → Takes branches _else cond (events ++
      .evaluated b c true :: (rest ++ _else.toList).map .eliminated ++ [.taken (some b)])
  | otherwise {events} : Rejected cond branches events →
    Takes branches _else cond (events ++ [.taken _else])

/-- How an execution ends: with the record of what it has taken, or with an exception of a call,
    unless it reaches a branch without a condition or finds no activity at all. -/
def Executes (cond : A → Option C) : Prop :=
  ∀ (σ ε : Type) (G : Engine σ ε A C) (x : σ × List (Event A C)),
    match s.execute G x with
    | (.ok (), y) => ∃ events, y.2 = x.2 ++ events ∧ Takes s.getBranches s.getElse cond events
    | (.error raise, _) => (∃ e, raise = .engine e) ∨
        (raise = .nullPointer ∧ ∃ branch ∈ s.getBranches, cond branch = none) ∨
        (raise = .noSuchElement ∧ s.activities = [])

section
omit [DecidableEq A]
variable {σ ε : Type} {G : Engine σ ε A C} {cond : A → Option C}

/-- A call leaves the record as it is. -/
theorem call_run {α : Type} (m : Throws ε σ α) (x : σ × List (Event A C)) :
    (∃ a y, call m x = (.ok a, y, x.2)) ∨ ∃ e y, call m x = (.error (.engine e), y, x.2) := by
  unfold call
  rcases m x.1 with ⟨e | a, y⟩
  · exact .inr ⟨e, y, rfl⟩
  · exact .inl ⟨a, y, rfl⟩

theorem eliminate_run (b : A) (x : σ × List (Event A C)) :
    (∃ y, eliminate G b x = (.ok (), y, x.2 ++ [Event.eliminated b])) ∨
      ∃ e y, eliminate G b x = (.error (.engine e), y, x.2 ++ [Event.eliminated b]) := by
  have h : eliminate G b x = call (G.eliminatePath b) (x.1, x.2 ++ [Event.eliminated b]) := rfl
  rcases call_run (G.eliminatePath b) (x.1, x.2 ++ [Event.eliminated b]) with
    ⟨⟨⟩, y, hy⟩ | ⟨e, y, hy⟩
  · exact .inl ⟨y, h.trans hy⟩
  · exact .inr ⟨e, y, h.trans hy⟩

/-- The branches after the one that is selected are eliminated. -/
theorem selectBranch_selected (cond : A → Option C) (b : A) (branches tail : List A) (x : σ × List (Event A C)) :
    (∃ y, selectBranch G (branches ++ tail) (branches.map cond) (some b) x =
        (.ok (some b), y, x.2 ++ branches.map .eliminated)) ∨
      ∃ e y, selectBranch G (branches ++ tail) (branches.map cond) (some b) x =
        (.error (.engine e), y) := by
  induction branches generalizing x with
  | nil => exact .inl ⟨x.1, by simp [selectBranch, Throws.pure_run]⟩
  | cons b' branches ih =>
    rw [List.cons_append, List.map_cons, selectBranch]
    rcases eliminate_run (G := G) b' x with ⟨y, hy⟩ | ⟨e, y, hy⟩
    · rw [Throws.bind_of_ok hy]
      rcases ih (y, x.2 ++ [.eliminated b']) with ⟨y', hy'⟩ | h
      · exact .inl ⟨y', by rw [hy']; simp⟩
      · exact .inr h
    · rw [Throws.bind_of_error hy]
      exact .inr ⟨e, _, rfl⟩

/-- The loop ends with the first branch whose condition holds, or with none. -/
theorem selectBranch_run (cond : A → Option C) (branches tail : List A) (x : σ × List (Event A C)) :
    (∃ y events, selectBranch G (branches ++ tail) (branches.map cond) none x =
        (.ok none, y, x.2 ++ events) ∧ Rejected cond branches events) ∨
      (∃ y front b rest c events, selectBranch G (branches ++ tail) (branches.map cond) none x =
        (.ok (some b), y, x.2 ++ (events ++ .evaluated b c true :: rest.map .eliminated)) ∧
        branches = front ++ b :: rest ∧ Rejected cond front events ∧ cond b = some c) ∨
      ∃ raise y, selectBranch G (branches ++ tail) (branches.map cond) none x =
        (.error raise, y) ∧ ((∃ e, raise = .engine e) ∨
          raise = .nullPointer ∧ ∃ branch ∈ branches, cond branch = none) := by
  induction branches generalizing x with
  | nil => exact .inl ⟨x.1, [], by simp [selectBranch, Throws.pure_run], rfl⟩
  | cons b branches ih =>
    rw [List.cons_append, List.map_cons]
    cases hc : cond b with
    | none =>
      exact .inr (.inr ⟨.nullPointer, x, rfl, .inr ⟨rfl, b, List.mem_cons_self, hc⟩⟩)
    | some c =>
      rw [selectBranch]
      rcases call_run (G.evaluate c) x with ⟨holds, y, hy⟩ | ⟨e, y, hy⟩
      · have hrecord : record (Event.evaluated b c holds) (y, x.2) =
            ((.ok (), y, x.2 ++ [Event.evaluated b c holds]) : Except (Raise ε) Unit × _) := rfl
        rw [Throws.bind_of_ok hy, Throws.bind_of_ok hrecord]
        cases holds with
        | true =>
          -- the branch is selected, and the others are eliminated
          rw [if_pos rfl]
          rcases selectBranch_selected (G := G) cond b branches tail
            (y, x.2 ++ [.evaluated b c true]) with ⟨y', hy'⟩ | ⟨e, y', hy'⟩
          · exact .inr (.inl ⟨y', [], b, branches, c, [], by simp [hy'], rfl, rfl, hc⟩)
          · exact .inr (.inr ⟨_, y', hy', .inl ⟨e, rfl⟩⟩)
        | false =>
          rw [if_neg Bool.false_ne_true]
          rcases eliminate_run (G := G) b (y, x.2 ++ [Event.evaluated b c false]) with
            ⟨y', hy'⟩ | ⟨e, y', hy'⟩
          · rw [Throws.bind_of_ok hy']
            rcases ih (y', x.2 ++ [.evaluated b c false] ++ [.eliminated b]) with
              ⟨z, events, hz, hrejected⟩ | ⟨z, front, b', rest, c', events, hz, rfl, hrejected, hc'⟩ |
                ⟨raise, z, hz, hraise⟩
            · exact .inl ⟨z, _, by rw [hz]; simp, c, events, hc, hrejected, rfl⟩
            · exact .inr (.inl ⟨z, b :: front, b', rest, c', _, by rw [hz]; simp, rfl,
                ⟨c, events, hc, hrejected, rfl⟩, hc'⟩)
            · exact .inr (.inr ⟨raise, z, hz, hraise.imp_right fun ⟨hr, b', hb', hnone⟩ =>
                ⟨hr, b', List.mem_cons_of_mem _ hb', hnone⟩⟩)
          · rw [Throws.bind_of_error hy']
            exact .inr (.inr ⟨_, _, rfl, .inl ⟨e, rfl⟩⟩)
      · rw [Throws.bind_of_error hy]
        exact .inr (.inr ⟨_, _, rfl, .inl ⟨e, rfl⟩⟩)

theorem takeBranch_run (selected : Option A) (x : σ × List (Event A C)) :
    (∃ y, s.takeBranch G selected x = (.ok (), y, x.2 ++ [Event.taken selected])) ∨
      ∃ raise y, s.takeBranch G selected x = (.error raise, y) ∧
        ((∃ e, raise = .engine e) ∨ raise = .noSuchElement ∧ s.activities = []) := by
  unfold takeBranch
  split
  · rename_i h
    exact .inr ⟨.noSuchElement, x, rfl, .inr ⟨rfl, List.isEmpty_iff.1 h.2⟩⟩
  · have hrecord : record (Event.taken selected) x =
        ((.ok (), x.1, x.2 ++ [Event.taken selected]) : Except (Raise ε) Unit × _) := rfl
    rw [Throws.bind_of_ok hrecord]
    rcases call_run (G.leave selected) (x.1, x.2 ++ [Event.taken selected]) with
      ⟨⟨⟩, y, hy⟩ | ⟨e, y, hy⟩
    · exact .inl ⟨y, hy⟩
    · exact .inr ⟨_, _, hy, .inl ⟨e, rfl⟩⟩

theorem finish_run (selected : Option A) (x : σ × List (Event A C)) :
    (∃ y, s.finish G selected x = (.ok (), y, x.2 ++
        ((if selected.isSome then s.getElse.toList.map .eliminated else []) ++
          [.taken (selected.or s.getElse)]))) ∨
      ∃ raise y, s.finish G selected x = (.error raise, y) ∧
        ((∃ e, raise = .engine e) ∨ raise = .noSuchElement ∧ s.activities = []) := by
  unfold finish
  cases s.getElse with
  | none =>
    rcases s.takeBranch_run (G := G) selected x with ⟨y, hy⟩ | h
    · exact .inl ⟨y, by cases selected <;> exact hy⟩
    · exact .inr (by cases selected <;> exact h)
  | some e =>
    cases selected with
    | none => exact s.takeBranch_run (some e) x
    | some b =>
      dsimp only
      rcases eliminate_run (G := G) e x with ⟨y, hy⟩ | ⟨e', y, hy⟩
      · rw [Throws.bind_of_ok hy]
        rcases s.takeBranch_run (G := G) (some b) (y, x.2 ++ [.eliminated e]) with ⟨z, hz⟩ | h
        · exact .inl ⟨z, by rw [hz]; simp⟩
        · exact .inr h
      · rw [Throws.bind_of_error hy]
        exact .inr ⟨_, _, rfl, .inl ⟨e', rfl⟩⟩

/-- **One execution.** -/
theorem executes_shape (branches : List A) (_else : Option A) :
    (shape branches _else cond).Executes cond := by
  intro σ ε G x
  rw [getBranches_shape]
  have helse : (shape branches _else cond).getElse = _else := getElse_shape
  unfold execute
  rw [shape_activities, shape_conditions]
  rcases selectBranch_run (G := G) cond branches _else.toList x with
    ⟨y, events, hy, hrejected⟩ | ⟨y, front, b, rest, c, events, hy, hbranches, hrejected, hc⟩ |
      ⟨raise, y, hy, hraise⟩
  · rw [Throws.bind_of_ok hy]
    rcases (shape branches _else cond).finish_run (G := G) none (y, x.2 ++ events) with
      ⟨z, hz⟩ | ⟨raise, z, hz, hraise⟩
    · rw [hz, helse]
      exact ⟨events ++ [.taken _else], by simp, .otherwise hrejected⟩
    · rw [hz]
      exact hraise.imp_right .inr
  · rw [Throws.bind_of_ok hy]
    rcases (shape branches _else cond).finish_run (G := G) (some b)
      (y, x.2 ++ (events ++ .evaluated b c true :: rest.map .eliminated)) with
      ⟨z, hz⟩ | ⟨raise, z, hz, hraise⟩
    · rw [hz, helse]
      exact ⟨_, by simp, .branch hbranches hrejected hc⟩
    · rw [hz]
      exact hraise.imp_right .inr
  · rw [Throws.bind_of_error hy]
    exact hraise.imp_right .inl

end

omit [DecidableEq A] in
theorem inv_empty : Inv ((empty, fun _ => none) : If A C × (A → Option C)) :=
  ⟨[], none, rfl, List.nodup_nil⟩

/-- **Conditions.**  After any changes, where a reorder leaves the else branch alone or lets it
    trade places with the branch before it, every branch has the condition last set for it or
    taken over, and executing it takes the first branch whose condition holds. -/
theorem keeps_conditions (ops : List (Op A C))
    (h : Allowed (fun x op => x.1.Regular op) step (empty, fun _ => none) ops) :
    let x := ops.foldl step (empty, fun _ => none)
    x.1.Keeps x.2 ∧ x.1.Executes x.2 := by
  have hinv := (Run.of_allowed h).inv inv_empty fun x op x' hx hstep => by
    obtain ⟨hop, rfl⟩ := hstep
    exact hx.step hop
  intro x
  obtain ⟨branches, _else, hs, hnodup⟩ := hinv
  rw [show x.1 = shape branches _else x.2 from hs]
  exact ⟨keeps_shape hnodup, executes_shape branches _else⟩

/-! ## Trading places -/

/-- Two branches, the second of which is made the else branch. -/
def elseOps : List (Op String String) :=
  [.addNode "first", .addNode "second", .setCondition "first" "firstExpression",
    .setElse "second", .reorderNode 1 0]

theorem keeps_conditions_elseOps :
    let x := elseOps.foldl step (empty, fun _ => none)
    x.1.Keeps x.2 ∧ x.1.Executes x.2 :=
  keeps_conditions elseOps (by decide)

/-- The else branch that trades places has the condition of the other one, which was never set
    for it. -/
theorem else_takes_condition :
    let x := elseOps.foldl (fun x op => (x.1.apply op, x.1.lastSet x.2 op)) (empty, fun _ => none)
    ¬ x.1.Keeps x.2 := by
  intro x hx
  have hcondition : (Except.ok (some "firstExpression") : Except (Raise Empty) _) = .ok none :=
    hx.condition "second" (by decide)
  cases hcondition

end If

end Bpel

end Jbpm
