/-
  The pooled actors of task instances and of swimlane instances.  Each pooled actor
  refers back to the task instances, and to the swimlane instance, that it is pooled for.

  * `setPooledActors`: the setters, on the objects that refer to each other;
  * `createPool_spec`: what a new pool consists of;
  * `Consistent`: pools that are the ones last assigned, and are referred to by their
    actors and by no others;
  * `consistent_iff`: when they stay so over a sequence of assignments.
-/
import Jbpm.Java.Throws
import Jbpm.Lib.BackReference
import Jbpm.Lib.Run
import Mathlib.Order.Interval.Finset.Nat

namespace Jbpm

open Java Lib

namespace Pooled

/-- The actor ids of an array. -/
abbrev ActorIds := List (Option String)

inductive Exn where
  | nullPointer
  deriving DecidableEq

structure PooledActor (T W : Type) where
  actorId : Option String
  taskInstances : Option (Finset T)
  swimlaneInstance : Option W

structure TaskInstance (W : Type) where
  actorId : Option String
  previousActorId : Option String
  pooledActors : Option (Finset ℕ)
  swimlaneInstance : Option W

structure SwimlaneInstance where
  actorId : Option String
  pooledActors : Option (Finset ℕ)

/-- The objects.  The pooled actors are numbered in the order in which they are built;
    those below `built` exist. -/
structure State (T W : Type) where
  taskInstance : T → TaskInstance W
  swimlaneInstance : W → SwimlaneInstance
  pooledActor : ℕ → PooledActor T W
  built : ℕ

/-- The argument of the two `setPooledActors`: an array of actor ids or a set of pooled
    actors, either of them null or not. -/
inductive Pool where
  | actorIds (actorIds : Option ActorIds)
  | pooledActors (pooledActors : Option (Finset ℕ))

/-- No pooled actors. -/
def Pool.Empty : Pool → Prop
  | .actorIds ids => ids.getD [] = []
  | .pooledActors pool => pool.getD ∅ = ∅

instance : ∀ p : Pool, Decidable p.Empty
  | .actorIds ids => inferInstanceAs (Decidable (ids.getD [] = []))
  | .pooledActors pool => inferInstanceAs (Decidable (pool.getD ∅ = ∅))

variable {T W : Type} [DecidableEq T] [DecidableEq W]

namespace PooledActor

/-- `new PooledActor(actorId)` -/
def new (actorId : Option String) : PooledActor T W := ⟨actorId, none, none⟩

def addTaskInstance (p : PooledActor T W) (t : T) : PooledActor T W :=
  { p with taskInstances := some (insert t (p.taskInstances.getD ∅)) }

def setSwimlaneInstance (p : PooledActor T W) (w : W) : PooledActor T W :=
  { p with swimlaneInstance := some w }

/-- What the pooled actor refers to. -/
def refersTo (p : PooledActor T W) : T ⊕ W → Prop
  | .inl t => t ∈ p.taskInstances.getD ∅
  | .inr w => p.swimlaneInstance = some w

instance (p : PooledActor T W) : ∀ o, Decidable (p.refersTo o)
  | .inl t => inferInstanceAs (Decidable (t ∈ p.taskInstances.getD ∅))
  | .inr w => inferInstanceAs (Decidable (p.swimlaneInstance = some w))

/-- A pooled actor of a pool that is made for a swimlane instance or a task instance. -/
def pooledFor (swimlaneInstance : Option W) (taskInstance : Option T) (actorId : Option String) :
    PooledActor T W :=
  let p := new actorId
  let p := (swimlaneInstance.map p.setSwimlaneInstance).getD p
  (taskInstance.map p.addTaskInstance).getD p

end PooledActor

namespace State

def putTaskInstance (s : State T W) (t : T) (i : TaskInstance W) : State T W :=
  { s with taskInstance := Function.update s.taskInstance t i }

def putSwimlaneInstance (s : State T W) (w : W) (i : SwimlaneInstance) : State T W :=
  { s with swimlaneInstance := Function.update s.swimlaneInstance w i }

def newPooledActor (s : State T W) (p : PooledActor T W) : State T W :=
  { s with
    pooledActor := Function.update s.pooledActor s.built p
    built := s.built + 1 }

/-- The loop of `PooledActor.createPool`: the pool so far, and the actor ids to come. -/
def createPool (swimlaneInstance : Option W) (taskInstance : Option T) :
    ActorIds → Finset ℕ → State T W → Finset ℕ × State T W
  | [], pool, s => (pool, s)
  | a :: actorIds, pool, s =>
    createPool swimlaneInstance taskInstance actorIds (insert s.built pool)
      (s.newPooledActor (.pooledFor swimlaneInstance taskInstance a))

/-- `addTaskInstance` of each pooled actor of a set. -/
def addTaskInstance (s : State T W) (pooledActors : Finset ℕ) (t : T) : State T W :=
  { s with
    pooledActor := fun a =>
      if a ∈ pooledActors then (s.pooledActor a).addTaskInstance t else s.pooledActor a }

/-- The field `pooledActors` of a task instance or a swimlane instance. -/
def pooledActors (s : State T W) : T ⊕ W → Option (Finset ℕ)
  | .inl t => (s.taskInstance t).pooledActors
  | .inr w => (s.swimlaneInstance w).pooledActors

/-- `TaskInstance.getPooledActors` -/
def getPooledActors (s : State T W) (t : T) : Option (Finset ℕ) :=
  match (s.taskInstance t).swimlaneInstance with
  | none => (s.taskInstance t).pooledActors
  | some w =>
    match (s.taskInstance t).pooledActors with
    | none => (s.swimlaneInstance w).pooledActors
    | some pool => if pool = ∅ then (s.swimlaneInstance w).pooledActors else some pool

end State

namespace TaskInstance

/-- The two `TaskInstance.setPooledActors`.  For a set that is null, it is the parameter
    that is set to null, and not the field. -/
def setPooledActors (t : T) : Pool → Throws Exn (State T W) Unit
  | .actorIds none => .throw_ .nullPointer
  | .actorIds (some actorIds) => .modify_ fun s =>
    let (pool, s) := s.createPool none (some t) actorIds ∅
    s.putTaskInstance t { s.taskInstance t with pooledActors := some pool }
  | .pooledActors none => pure ()
  | .pooledActors (some pool) => .modify_ fun s =>
    (s.putTaskInstance t { s.taskInstance t with pooledActors := some pool }).addTaskInstance pool t

/-- `TaskInstance.setActorId(String,boolean)`, without the event and the log of the
    assignment. -/
def setActorId (t : T) (actorId : Option String) (overwriteSwimlane : Bool) :
    Throws Exn (State T W) Unit := .modify_ fun s =>
  let i := s.taskInstance t
  let s := s.putTaskInstance t { i with previousActorId := i.actorId, actorId := actorId }
  match i.swimlaneInstance, overwriteSwimlane with
  | some w, true => s.putSwimlaneInstance w { s.swimlaneInstance w with actorId := actorId }
  | _, _ => s

def setSwimlaneInstance (t : T) (swimlaneInstance : Option W) : Throws Exn (State T W) Unit :=
  .modify_ fun s =>
    s.putTaskInstance t { s.taskInstance t with swimlaneInstance := swimlaneInstance }

end TaskInstance

namespace SwimlaneInstance

/-- The two `SwimlaneInstance.setPooledActors`. -/
def setPooledActors (w : W) : Pool → Throws Exn (State T W) Unit
  | .actorIds none => .throw_ .nullPointer
  | .actorIds (some actorIds) => .modify_ fun s =>
    let (pool, s) := s.createPool (some w) none actorIds ∅
    s.putSwimlaneInstance w { s.swimlaneInstance w with pooledActors := some pool }
  | .pooledActors pool => .modify_ fun s =>
    s.putSwimlaneInstance w { s.swimlaneInstance w with pooledActors := pool }

def setActorId (w : W) (actorId : Option String) : Throws Exn (State T W) Unit := .modify_ fun s =>
  s.putSwimlaneInstance w { s.swimlaneInstance w with actorId := actorId }

end SwimlaneInstance

/-- What a client calls. -/
inductive Call (T W : Type) where
  | newPooledActor (actorId : Option String)
  | setPooledActors (o : T ⊕ W) (pool : Pool)
  | setActorId (o : T ⊕ W) (actorId : Option String) (overwriteSwimlane : Bool)
  | setSwimlaneInstance (t : T) (swimlaneInstance : Option W)

def Call.run : Call T W → Throws Exn (State T W) Unit
  | .newPooledActor actorId => .modify_ fun s => s.newPooledActor (.new actorId)
  | .setPooledActors (.inl t) pool => TaskInstance.setPooledActors t pool
  | .setPooledActors (.inr w) pool => SwimlaneInstance.setPooledActors w pool
  | .setActorId (.inl t) actorId overwriteSwimlane =>
    TaskInstance.setActorId t actorId overwriteSwimlane
  | .setActorId (.inr w) actorId _ => SwimlaneInstance.setActorId w actorId
  | .setSwimlaneInstance t swimlaneInstance => TaskInstance.setSwimlaneInstance t swimlaneInstance

/-- The objects, with what was last assigned to each. -/
structure History (T W : Type) extends State T W where
  assigned : T ⊕ W → Pool

namespace History

/-- Objects as they are built: nothing is pooled yet. -/
def new (swimlaneInstance : T → Option W) : History T W where
  taskInstance t := ⟨none, none, none, swimlaneInstance t⟩
  swimlaneInstance _ := ⟨none, none⟩
  pooledActor _ := .new none
  built := 0
  assigned _ := .pooledActors none

def note (x : History T W) : Call T W → T ⊕ W → Pool
  | .setPooledActors o pool => Function.update x.assigned o pool
  | _ => x.assigned

def call (x : History T W) (c : Call T W) : History T W :=
  ⟨(c.run x.toState).2, x.note c⟩

/-- The call returns. -/
def Returns (x : History T W) (c : Call T W) : Prop := (c.run x.toState).1 = .ok ()

instance (x : History T W) (c : Call T W) : Decidable (x.Returns c) :=
  match h : (c.run x.toState).1 with
  | .ok () => .isTrue h
  | .error _ => .isFalse fun hr => nomatch h.symm.trans hr

/-- The sets of the call are sets of pooled actors that have been built. -/
def Known (x : History T W) : Call T W → Prop
  | .setPooledActors _ (.pooledActors (some pool)) => ∀ a ∈ pool, a < x.built
  | _ => True

instance (x : History T W) : ∀ c, Decidable (x.Known c)
  | .setPooledActors _ (.pooledActors (some pool)) =>
    inferInstanceAs (Decidable (∀ a ∈ pool, a < x.built))
  | .setPooledActors _ (.pooledActors none) | .setPooledActors _ (.actorIds _) => .isTrue trivial
  | .newPooledActor _ | .setActorId .. | .setSwimlaneInstance .. => .isTrue trivial

/-- The pooled actors of a task instance or a swimlane instance, none if there is no set. -/
def pool (x : History T W) (o : T ⊕ W) : Finset ℕ := (x.pooledActors o).getD ∅

def refersTo (x : History T W) (a : ℕ) (o : T ⊕ W) : Prop := (x.pooledActor a).refersTo o

instance (x : History T W) (a : ℕ) (o : T ⊕ W) : Decidable (x.refersTo a o) :=
  inferInstanceAs (Decidable ((x.pooledActor a).refersTo o))

/-- The pooled actors are the ones assigned: for an array, one for each of its ids. -/
def Pools (x : History T W) (pool : Finset ℕ) : Pool → Prop
  | .actorIds (some ids) => pool.val.map (fun a => (x.pooledActor a).actorId) = ids
  | .pooledActors (some assigned) => pool = assigned
  | .actorIds none | .pooledActors none => pool = ∅

/-- The one whose pool `getPooledActors` of a task instance stands for: its swimlane
    instance, if it has one and no pooled actors are assigned to it. -/
def owner (x : History T W) (t : T) : T ⊕ W :=
  match (x.taskInstance t).swimlaneInstance with
  | some w => if (x.assigned (.inl t)).Empty then .inr w else .inl t
  | none => .inl t

/-- Every pool is the one last assigned, and its actors and no others refer back. -/
structure Consistent (x : History T W) : Prop where
  assigned : ∀ o, x.Pools (x.pool o) (x.assigned o)
  getPooledActors : ∀ t, (x.getPooledActors t).getD ∅ = x.pool (x.owner t)
  references : BackReferenced (fun o => (x.pool o : Set ℕ)) x.refersTo

end History

namespace PooledActor

variable (p : PooledActor T W) (t : T) (w : W) (o : T ⊕ W) (n : Option String)

omit [DecidableEq T] [DecidableEq W] in
theorem not_refersTo_new : ¬ (new n : PooledActor T W).refersTo o := by
  intro h
  cases o with
  | inl t => exact absurd h (Finset.notMem_empty t)
  | inr w => cases h

omit [DecidableEq W] in
theorem refersTo_addTaskInstance :
    (p.addTaskInstance t).refersTo o ↔ p.refersTo o ∨ o = .inl t := by
  cases o with
  | inl t' => simp [refersTo, addTaskInstance, or_comm]
  | inr w => simp [refersTo, addTaskInstance]

omit [DecidableEq W] in
theorem refersTo_pooledFor_task :
    (pooledFor none (some t) n : PooledActor T W).refersTo o ↔ o = .inl t :=
  (refersTo_addTaskInstance (new n) t o).trans (or_iff_right (not_refersTo_new o n))

omit [DecidableEq W] in
theorem refersTo_pooledFor_swimlane :
    (pooledFor (some w) none n : PooledActor T W).refersTo o ↔ o = .inr w := by
  cases o with
  | inl t => simp [refersTo, pooledFor, setSwimlaneInstance, new]
  | inr w' => simp [refersTo, pooledFor, setSwimlaneInstance, new, eq_comm]

omit [DecidableEq W] in
theorem actorId_pooledFor (swimlaneInstance : Option W) (taskInstance : Option T) :
    (pooledFor swimlaneInstance taskInstance n : PooledActor T W).actorId = n := by
  cases swimlaneInstance <;> cases taskInstance <;> rfl

end PooledActor

namespace State

/-- A state with new pooled actors, one for each actor id. -/
structure Created (swimlaneInstance : Option W) (taskInstance : Option T) (ids : ActorIds)
    (s s' : State T W) : Prop where
  built : s'.built = s.built + ids.length
  old : ∀ a, a < s.built → s'.pooledActor a = s.pooledActor a
  beyond : ∀ a, s'.built ≤ a → s'.pooledActor a = s.pooledActor a
  new : ∀ a, s.built ≤ a → a < s'.built →
    ∃ n, s'.pooledActor a = .pooledFor swimlaneInstance taskInstance n
  actorIds : (List.range' s.built ids.length).map (fun a => (s'.pooledActor a).actorId) = ids
  taskInstance : s'.taskInstance = s.taskInstance
  swimlaneInstance : s'.swimlaneInstance = s.swimlaneInstance

omit [DecidableEq W] in
theorem createPool_spec (swimlaneInstance : Option W) (taskInstance : Option T) (ids : ActorIds)
    (pool : Finset ℕ) (s : State T W) :
    ∃ s', s.createPool swimlaneInstance taskInstance ids pool =
        (pool ∪ Finset.Ico s.built (s.built + ids.length), s') ∧
      Created swimlaneInstance taskInstance ids s s' := by
  induction ids generalizing pool s with
  | nil =>
    exact ⟨s, by simp [createPool], rfl, fun _ _ => rfl, fun _ _ => rfl,
      fun a h h' => absurd h' (not_lt.2 h), rfl, rfl, rfl⟩
  | cons n ids ih =>
    let p : PooledActor T W := .pooledFor swimlaneInstance taskInstance n
    obtain ⟨s', hs', h⟩ := ih (insert s.built pool) (s.newPooledActor p)
    have hbuilt : (s.newPooledActor p).built = s.built + 1 := rfl
    have hactor : s'.pooledActor s.built = p := by
      rw [h.old s.built (by rw [hbuilt]; omega)]
      exact Function.update_self ..
    have hother : ∀ a, a ≠ s.built → (s.newPooledActor p).pooledActor a = s.pooledActor a :=
      fun a ha => Function.update_of_ne ha ..
    refine ⟨s', hs'.trans (Prod.ext ?_ rfl), ?_⟩
    · have hico : Finset.Ico s.built (s.built + (ids.length + 1)) =
          insert s.built (Finset.Ico (s.built + 1) (s.built + 1 + ids.length)) := by
        ext a
        simp only [Finset.mem_insert, Finset.mem_Ico]
        omega
      rw [List.length_cons, hico, hbuilt, Finset.insert_union, Finset.union_insert]
    · have hlen := h.built
      rw [hbuilt] at hlen
      refine ⟨by rw [hlen, List.length_cons]; omega, fun a ha => ?_, fun a ha => ?_,
        fun a ha ha' => ?_, ?_, h.taskInstance, h.swimlaneInstance⟩
      · rw [h.old a (by rw [hbuilt]; omega), hother a (by omega)]
      · rw [h.beyond a ha, hother a (by omega)]
      · by_cases he : a = s.built
        · exact ⟨n, he ▸ hactor⟩
        · exact h.new a (by rw [hbuilt]; omega) ha'
      · rw [List.length_cons, List.range'_succ, List.map_cons, hactor,
          PooledActor.actorId_pooledFor]
        exact congrArg _ h.actorIds

end State

namespace History

variable {x x' : History T W} {o : T ⊕ W} {P N : Finset ℕ} {A : Pool}

section

omit [DecidableEq T] [DecidableEq W]

theorem Pools.empty_iff (h : x.Pools P A) : P = ∅ ↔ A.Empty := by
  rcases A with (_ | ids) | (_ | S)
  · exact iff_of_true h rfl
  · have hcard := congrArg Multiset.card h
    rw [Multiset.card_map, Multiset.coe_card] at hcard
    rw [← Finset.card_eq_zero, Pool.Empty, Option.getD_some, ← List.length_eq_zero_iff, ← hcard]
    rfl
  · exact iff_of_true h rfl
  · rw [show P = S from h]
    rfl

theorem pools_getD (S : Option (Finset ℕ)) : x.Pools (S.getD ∅) (.pooledActors S) := by
  cases S <;> rfl

theorem pools_congr (h : ∀ a ∈ P, (x'.pooledActor a).actorId = (x.pooledActor a).actorId) :
    x'.Pools P A ↔ x.Pools P A := by
  rcases A with (_ | ids) | (_ | S)
  · rfl
  · rw [Pools, Pools, Multiset.map_congr rfl h]
  · rfl
  · rfl

theorem getPooledActors_eq (h : ∀ o, x.Pools (x.pool o) (x.assigned o)) (t : T) :
    (x.getPooledActors t).getD ∅ = x.pool (x.owner t) := by
  unfold State.getPooledActors owner
  have ht := (h (.inl t)).empty_iff
  cases hw : (x.taskInstance t).swimlaneInstance with
  | none => rfl
  | some w =>
    have hpool : x.pool (.inl t) = ((x.taskInstance t).pooledActors).getD ∅ := rfl
    dsimp only
    by_cases he : (x.assigned (.inl t)).Empty
    · rw [if_pos he]
      have hempty := ht.2 he
      rw [hpool] at hempty
      cases hp : (x.taskInstance t).pooledActors with
      | none => rfl
      | some P =>
        rw [hp] at hempty
        dsimp only
        rw [if_pos (show P = ∅ from hempty)]
        rfl
    · rw [if_neg he, hpool]
      have hne := mt ht.1 he
      rw [hpool] at hne
      cases hp : (x.taskInstance t).pooledActors with
      | none => exact (hne (by rw [hp]; rfl)).elim
      | some P =>
        rw [hp] at hne
        dsimp only
        rw [if_neg (show ¬ P = ∅ from hne)]

theorem consistent_iff_pools : x.Consistent ↔
    (∀ o, x.Pools (x.pool o) (x.assigned o)) ∧
      BackReferenced (fun o => (x.pool o : Set ℕ)) x.refersTo :=
  ⟨fun h => ⟨h.assigned, h.references⟩, fun h => ⟨h.1, getPooledActors_eq h.1, h.2⟩⟩

/-- Only pooled actors that have been built refer to something. -/
def Built (x : History T W) : Prop := ∀ a o, x.refersTo a o → a < x.built

/-- What the calls keep: consistent, with nothing known of what is not built yet. -/
def Inv (x : History T W) : Prop := x.Consistent ∧ x.Built

theorem Inv.lt (h : x.Inv) {a : ℕ} (ha : a ∈ x.pool o) : a < x.built :=
  h.2 a o ((h.1.references o a).1 ha)

/-- A call that assigns no pool. -/
structure Same (x x' : History T W) : Prop where
  assigned : x'.assigned = x.assigned
  pool : x'.pool = x.pool
  refersTo : ∀ a o, x'.refersTo a o ↔ x.refersTo a o
  actorId : ∀ a, a < x.built → (x'.pooledActor a).actorId = (x.pooledActor a).actorId
  built : x.built ≤ x'.built

theorem Same.inv (hs : Same x x') (h : x.Inv) : x'.Inv := by
  refine ⟨consistent_iff_pools.2 ⟨fun o => ?_, ?_⟩, fun a o hr => ?_⟩
  · rw [hs.pool, hs.assigned]
    exact (pools_congr fun a hmem => hs.actorId a (h.lt hmem)).2 (h.1.assigned o)
  · exact (BackReferenced.congr (fun o => by rw [hs.pool]) hs.refersTo).2 h.1.references
  · exact (h.2 a o ((hs.refersTo a o).1 hr)).trans_le hs.built

end

/-- An assignment: `P` are the pooled actors of `o` now, and `N` have been told. -/
structure Assigns (x : History T W) (o : T ⊕ W) (A : Pool) (P N : Finset ℕ) (x' : History T W) :
    Prop where
  assigned : x'.assigned = Function.update x.assigned o A
  pool : x'.pool = Function.update x.pool o P
  refersTo : ∀ a o', x'.refersTo a o' ↔ x.refersTo a o' ∨ o' = o ∧ a ∈ N
  actorId : ∀ a, a < x.built → (x'.pooledActor a).actorId = (x.pooledActor a).actorId
  built : x.built ≤ x'.built
  told : ∀ a ∈ N, a < x'.built

theorem Assigns.consistent_iff_told (ha : Assigns x o A P N x') (h : x.Inv) :
    x'.Consistent ↔ x'.Pools P A ∧ x.pool o ∪ N = P := by
  have hrefs : BackReferenced (fun o => (x'.pool o : Set ℕ)) x'.refersTo ↔ x.pool o ∪ N = P := by
    have hset : (fun o => (x'.pool o : Set ℕ)) =
        Function.update (fun o => (x.pool o : Set ℕ)) o (P : Set ℕ) := by
      rw [ha.pool]
      funext o'
      exact Function.apply_update (fun _ (S : Finset ℕ) => (S : Set ℕ)) x.pool o P o'
    rw [hset, h.1.references.update_iff (N := (N : Set ℕ)) ha.refersTo, ← Finset.coe_union,
      Finset.coe_inj]
  have hpools : (∀ o', x'.Pools (x'.pool o') (x'.assigned o')) ↔ x'.Pools P A := by
    rw [ha.pool, ha.assigned]
    constructor
    · intro ho
      have ho := ho o
      rwa [Function.update_self, Function.update_self] at ho
    · intro hP o'
      by_cases he : o' = o
      · subst he
        rwa [Function.update_self, Function.update_self]
      · rw [Function.update_of_ne he, Function.update_of_ne he]
        exact (pools_congr fun a hmem => ha.actorId a (h.lt hmem)).2 (h.1.assigned o')
  rw [consistent_iff_pools, hpools, hrefs]

theorem Assigns.keepsBuilt (ha : Assigns x o A P N x') (h : x.Built) : x'.Built := by
  intro a o' hr
  rcases (ha.refersTo a o').1 hr with hr | ⟨-, hN⟩
  · exact (h a o' hr).trans_le ha.built
  · exact ha.told a hN

/-! ## What the calls do -/

section
variable (s : State T W) (t : T) (w : W)

theorem pooledActors_putTaskInstance (i : TaskInstance W) (o : T ⊕ W) :
    (s.putTaskInstance t i).pooledActors o =
      if o = .inl t then i.pooledActors else s.pooledActors o := by
  cases o with
  | inl t' =>
    by_cases he : t' = t
    · subst he
      rw [if_pos rfl]
      exact congrArg TaskInstance.pooledActors (Function.update_self ..)
    · rw [if_neg fun h => he (Sum.inl.inj h)]
      exact congrArg TaskInstance.pooledActors (Function.update_of_ne he ..)
  | inr w => rfl

theorem pooledActors_putSwimlaneInstance (i : SwimlaneInstance) (o : T ⊕ W) :
    (s.putSwimlaneInstance w i).pooledActors o =
      if o = .inr w then i.pooledActors else s.pooledActors o := by
  cases o with
  | inl t => rfl
  | inr w' =>
    by_cases he : w' = w
    · subst he
      rw [if_pos rfl]
      exact congrArg SwimlaneInstance.pooledActors (Function.update_self ..)
    · rw [if_neg fun h => he (Sum.inr.inj h)]
      exact congrArg SwimlaneInstance.pooledActors (Function.update_of_ne he ..)

end

theorem pool_update {p : Option (Finset ℕ)}
    (h : ∀ o', x'.pooledActors o' = if o' = o then p else x.pooledActors o') :
    x'.pool = Function.update x.pool o (p.getD ∅) := by
  funext o'
  rw [pool, h, Function.update_apply]
  split
  · rfl
  · rfl

omit [DecidableEq T] [DecidableEq W] in
theorem pool_eq (h : ∀ o', x'.pooledActors o' = x.pooledActors o') : x'.pool = x.pool := by
  funext o'
  rw [pool, h, pool]

/-- A new pool, made for `o`. -/
theorem assigns_of_created {w : Option W} {t : Option T} {ids : ActorIds} {s' : State T W}
    (hc : State.Created w t ids x.toState s')
    (hfor : ∀ n o', (PooledActor.pooledFor w t n).refersTo o' ↔ o' = o) (hx : x.Built)
    (hactor : x'.pooledActor = s'.pooledActor) (hbuilt : x'.built = s'.built)
    (hassigned : x'.assigned = Function.update x.assigned o (.actorIds (some ids)))
    (hpool : x'.pool = Function.update x.pool o (Finset.Ico x.built (x.built + ids.length))) :
    Assigns x o (.actorIds (some ids)) (Finset.Ico x.built (x.built + ids.length))
        (Finset.Ico x.built (x.built + ids.length)) x' ∧
      x'.Pools (Finset.Ico x.built (x.built + ids.length)) (.actorIds (some ids)) := by
  have hb := hc.built
  refine ⟨⟨hassigned, hpool, fun a o' => ?_, fun a ha => ?_, by omega, fun a ha => ?_⟩, ?_⟩
  · rw [Finset.mem_Ico, refersTo, refersTo, hactor]
    rcases lt_or_ge a x.built with ha | ha
    · rw [hc.old a ha]
      exact (or_iff_left fun h => absurd h.2.1 (not_le.2 ha)).symm
    have hnot : ¬ (x.pooledActor a).refersTo o' := fun h => absurd (hx a o' h) (not_lt.2 ha)
    rcases lt_or_ge a s'.built with ha' | ha'
    · obtain ⟨n, hn⟩ := hc.new a ha ha'
      rw [hn, hfor, or_iff_right hnot]
      exact ⟨fun h => ⟨h, ha, by omega⟩, fun h => h.1⟩
    · rw [hc.beyond a ha']
      exact (or_iff_left fun h => absurd h.2.2 (by omega)).symm
  · rw [hactor, hc.old a ha]
  · rw [Finset.mem_Ico] at ha
    omega
  · have hids := hc.actorIds
    have hval : (Finset.Ico x.built (x.built + ids.length)).val =
        List.range' x.built ids.length := by
      rw [Nat.Ico_eq_range', Nat.add_sub_cancel_left]
    rw [Pools, hval, hactor]
    exact congrArg _ hids

theorem call_actorIds (o : T ⊕ W) (ids : ActorIds) (hx : x.Built) :
    Assigns x o (.actorIds (some ids)) (Finset.Ico x.built (x.built + ids.length))
        (Finset.Ico x.built (x.built + ids.length))
        (x.call (.setPooledActors o (.actorIds (some ids)))) ∧
      (x.call (.setPooledActors o (.actorIds (some ids)))).Pools
        (Finset.Ico x.built (x.built + ids.length)) (.actorIds (some ids)) := by
  cases o with
  | inl t =>
    obtain ⟨s', hs', hc⟩ := State.createPool_spec none (some t) ids ∅ x.toState
    rw [Finset.empty_union] at hs'
    have hcall : (x.call (.setPooledActors (.inl t) (.actorIds (some ids)))).toState =
        s'.putTaskInstance t { s'.taskInstance t with
          pooledActors := some (Finset.Ico x.built (x.built + ids.length)) } := by
      show (TaskInstance.setPooledActors t (.actorIds (some ids)) x.toState).2 = _
      rw [TaskInstance.setPooledActors, Throws.modify_, hs']
    refine assigns_of_created hc (fun n o' => PooledActor.refersTo_pooledFor_task t o' n) hx
      (by rw [hcall]; rfl) (by rw [hcall]; rfl) rfl (pool_update (p := some _) fun o' => ?_)
    rw [hcall, pooledActors_putTaskInstance]
    congr 1
    cases o' with
    | inl t' => exact congrArg (fun f => (f t').pooledActors) hc.taskInstance
    | inr w => exact congrArg (fun f => (f w).pooledActors) hc.swimlaneInstance
  | inr w =>
    obtain ⟨s', hs', hc⟩ := State.createPool_spec (some w) none ids ∅ x.toState
    rw [Finset.empty_union] at hs'
    have hcall : (x.call (.setPooledActors (.inr w) (.actorIds (some ids)))).toState =
        s'.putSwimlaneInstance w { s'.swimlaneInstance w with
          pooledActors := some (Finset.Ico x.built (x.built + ids.length)) } := by
      show (SwimlaneInstance.setPooledActors w (.actorIds (some ids)) x.toState).2 = _
      rw [SwimlaneInstance.setPooledActors, Throws.modify_, hs']
    refine assigns_of_created hc (fun n o' => PooledActor.refersTo_pooledFor_swimlane w o' n) hx
      (by rw [hcall]; rfl) (by rw [hcall]; rfl) rfl (pool_update (p := some _) fun o' => ?_)
    rw [hcall, pooledActors_putSwimlaneInstance]
    congr 1
    cases o' with
    | inl t => exact congrArg (fun f => (f t).pooledActors) hc.taskInstance
    | inr w' => exact congrArg (fun f => (f w').pooledActors) hc.swimlaneInstance

theorem call_pooledActors_task (t : T) (S : Finset ℕ) (hS : ∀ a ∈ S, a < x.built) :
    Assigns x (.inl t) (.pooledActors (some S)) S S
      (x.call (.setPooledActors (.inl t) (.pooledActors (some S)))) where
  assigned := rfl
  pool := pool_update (p := some S) fun _ => pooledActors_putTaskInstance ..
  refersTo a o' := by
    show (if a ∈ S then (x.pooledActor a).addTaskInstance t else x.pooledActor a).refersTo o' ↔ _
    split
    · next ha => rw [PooledActor.refersTo_addTaskInstance, and_iff_left ha, refersTo]
    · next ha => exact (or_iff_left fun h => ha h.2).symm
  actorId a _ := by
    show (if a ∈ S then (x.pooledActor a).addTaskInstance t else x.pooledActor a).actorId = _
    split
    · rfl
    · rfl
  built := le_rfl
  told := hS

/-- Null for a set: the field of the task instance stays what it is. -/
theorem call_null_task (t : T) :
    Assigns x (.inl t) (.pooledActors none) (x.pool (.inl t)) ∅
      (x.call (.setPooledActors (.inl t) (.pooledActors none))) where
  assigned := rfl
  pool := (Function.update_eq_self ..).symm
  refersTo a o' := by simp [call, Call.run, TaskInstance.setPooledActors, Throws.pure_run, refersTo]
  actorId _ _ := rfl
  built := le_rfl
  told a ha := absurd ha (Finset.notMem_empty a)

/-- A set for a swimlane instance: its pooled actors are not told. -/
theorem call_pooledActors_swimlane (w : W) (S : Option (Finset ℕ)) :
    Assigns x (.inr w) (.pooledActors S) (S.getD ∅) ∅
      (x.call (.setPooledActors (.inr w) (.pooledActors S))) where
  assigned := rfl
  pool := pool_update fun _ => pooledActors_putSwimlaneInstance ..
  refersTo a _ := (or_iff_left fun h => Finset.notMem_empty a h.2).symm
  actorId _ _ := rfl
  built := le_rfl
  told a ha := absurd ha (Finset.notMem_empty a)

theorem call_newPooledActor (n : Option String) (hx : x.Built) :
    Same x (x.call (.newPooledActor n)) where
  assigned := rfl
  pool := rfl
  refersTo a o := by
    show ((Function.update x.pooledActor x.built (.new n)) a).refersTo o ↔ _
    by_cases ha : a = x.built
    · subst ha
      rw [Function.update_self]
      exact iff_of_false (PooledActor.not_refersTo_new o n) fun h => absurd (hx _ o h) (lt_irrefl _)
    · rw [Function.update_of_ne ha, refersTo]
  actorId a ha := congrArg PooledActor.actorId (Function.update_of_ne ha.ne ..)
  built := Nat.le_succ _

theorem pooledActors_setActorId (t : T) (a : Option String) (b : Bool) (s : State T W) (o : T ⊕ W) :
    (TaskInstance.setActorId t a b s).2.pooledActors o = s.pooledActors o := by
  have hput : ∀ i : TaskInstance W, i.pooledActors = (s.taskInstance t).pooledActors →
      (s.putTaskInstance t i).pooledActors o = s.pooledActors o := fun i hi => by
    rw [pooledActors_putTaskInstance]
    split
    · next he => rw [hi, he]; rfl
    · rfl
  unfold TaskInstance.setActorId Throws.modify_
  dsimp only
  split
  · rw [pooledActors_putSwimlaneInstance]
    split
    · next he => rw [he]; rfl
    · exact hput _ rfl
  · exact hput _ rfl

theorem call_setActorId (o : T ⊕ W) (a : Option String) (b : Bool) :
    Same x (x.call (.setActorId o a b)) := by
  cases o with
  | inl t =>
    have hactor : (x.call (.setActorId (.inl t) a b)).pooledActor = x.pooledActor ∧
        (x.call (.setActorId (.inl t) a b)).built = x.built := by
      show (TaskInstance.setActorId t a b x.toState).2.pooledActor = _ ∧
        (TaskInstance.setActorId t a b x.toState).2.built = _
      unfold TaskInstance.setActorId Throws.modify_
      dsimp only
      split
      · exact ⟨rfl, rfl⟩
      · exact ⟨rfl, rfl⟩
    exact ⟨rfl, pool_eq (pooledActors_setActorId t a b x.toState),
      fun a o => by rw [refersTo, hactor.1, refersTo], fun a _ => by rw [hactor.1], hactor.2.ge⟩
  | inr w =>
    refine ⟨rfl, pool_eq fun o => ?_, fun _ _ => Iff.rfl, fun _ _ => rfl, le_rfl⟩
    refine (pooledActors_putSwimlaneInstance x.toState w _ o).trans ?_
    split
    · next he => rw [he]; rfl
    · rfl

theorem call_setSwimlaneInstance (t : T) (w : Option W) :
    Same x (x.call (.setSwimlaneInstance t w)) := by
  refine ⟨rfl, pool_eq fun o => ?_, fun _ _ => Iff.rfl, fun _ _ => rfl, le_rfl⟩
  refine (pooledActors_putTaskInstance x.toState t _ o).trans ?_
  split
  · next he => rw [he]; rfl
  · rfl

/-! ## Sequences of calls -/

/-- When a call keeps the pools consistent.  A null array is refused with an exception;
    pooled actors that are replaced are not told; a set that is null leaves a task
    instance with its pooled actors; and a swimlane instance tells none of a set. -/
def Keeps (x : History T W) : Call T W → Prop
  | .setPooledActors _ (.actorIds none) => False
  | .setPooledActors o (.actorIds (some _)) => x.pool o = ∅
  | .setPooledActors o (.pooledActors none) => x.pool o = ∅
  | .setPooledActors (.inl t) (.pooledActors (some S)) => x.pool (.inl t) ⊆ S
  | .setPooledActors (.inr w) (.pooledActors (some S)) => x.pool (.inr w) = S
  | _ => True

instance (x : History T W) : ∀ c, Decidable (x.Keeps c)
  | .setPooledActors _ (.actorIds none) => inferInstanceAs (Decidable False)
  | .setPooledActors o (.actorIds (some _)) => inferInstanceAs (Decidable (x.pool o = ∅))
  | .setPooledActors o (.pooledActors none) => inferInstanceAs (Decidable (x.pool o = ∅))
  | .setPooledActors (.inl t) (.pooledActors (some S)) =>
    inferInstanceAs (Decidable (x.pool (.inl t) ⊆ S))
  | .setPooledActors (.inr w) (.pooledActors (some S)) =>
    inferInstanceAs (Decidable (x.pool (.inr w) = S))
  | .newPooledActor _ | .setActorId .. | .setSwimlaneInstance .. => .isTrue trivial

/-- The call returns, and leaves the pools consistent. -/
def Succeeds (x : History T W) (c : Call T W) : Prop := x.Returns c ∧ (x.call c).Consistent

theorem succeeds_iff (h : x.Inv) {c : Call T W} (hc : x.Known c) : x.Succeeds c ↔ x.Keeps c := by
  have hret : ∀ {c : Call T W}, x.Returns c → (x.Succeeds c ↔ (x.call c).Consistent) :=
    fun hr => and_iff_right hr
  cases c with
  | newPooledActor n =>
    rw [hret (c := .newPooledActor n) rfl]
    exact iff_of_true ((call_newPooledActor n h.2).inv h).1 trivial
  | setActorId o a b =>
    have hr : x.Returns (.setActorId o a b) := by cases o <;> rfl
    rw [hret hr]
    exact iff_of_true ((call_setActorId o a b).inv h).1 (by cases o <;> trivial)
  | setSwimlaneInstance t w =>
    rw [hret (c := .setSwimlaneInstance t w) rfl]
    exact iff_of_true ((call_setSwimlaneInstance t w).inv h).1 trivial
  | setPooledActors o A =>
    rcases A with (_ | ids) | (_ | S)
    · refine iff_of_false (fun hs => ?_) (by cases o <;> exact id)
      cases o with
      | inl t => cases hs.1
      | inr w => cases hs.1
    · have hr : x.Returns (.setPooledActors o (.actorIds (some ids))) := by cases o <;> rfl
      obtain ⟨ha, hp⟩ := call_actorIds o ids h.2
      have hkeeps : x.Keeps (.setPooledActors o (.actorIds (some ids))) ↔ x.pool o = ∅ := by
        cases o <;> rfl
      rw [hret hr, ha.consistent_iff_told h, and_iff_right hp, hkeeps, Finset.union_eq_right]
      constructor
      · intro hsub
        refine Finset.eq_empty_of_forall_notMem fun a hmem => ?_
        exact absurd (Finset.mem_Ico.1 (hsub hmem)).1 (not_le.2 (h.lt hmem))
      · intro he
        rw [he]
        exact Finset.empty_subset _
    · cases o with
      | inl t =>
        rw [hret (c := .setPooledActors (.inl t) (.pooledActors none)) rfl,
          (call_null_task t).consistent_iff_told h, Finset.union_empty, and_iff_left rfl]
        rfl
      | inr w =>
        rw [hret (c := .setPooledActors (.inr w) (.pooledActors none)) rfl,
          (call_pooledActors_swimlane w none).consistent_iff_told h,
          and_iff_right (pools_getD none), Finset.union_empty]
        rfl
    · cases o with
      | inl t =>
        rw [hret (c := .setPooledActors (.inl t) (.pooledActors (some S))) rfl,
          (call_pooledActors_task t S hc).consistent_iff_told h,
          and_iff_right (show Pools _ S (.pooledActors (some S)) from rfl),
          Finset.union_eq_right]
        rfl
      | inr w =>
        rw [hret (c := .setPooledActors (.inr w) (.pooledActors (some S))) rfl,
          (call_pooledActors_swimlane w (some S)).consistent_iff_told h,
          and_iff_right (pools_getD (some S)),
          Finset.union_empty]
        rfl

theorem built_call (h : x.Inv) {c : Call T W} (hc : x.Known c) (hs : x.Succeeds c) :
    (x.call c).Inv := by
  refine ⟨hs.2, ?_⟩
  cases c with
  | newPooledActor n => exact ((call_newPooledActor n h.2).inv h).2
  | setActorId o a b => exact ((call_setActorId o a b).inv h).2
  | setSwimlaneInstance t w => exact ((call_setSwimlaneInstance t w).inv h).2
  | setPooledActors o A =>
    rcases A with (_ | ids) | (_ | S)
    · cases o with
      | inl t => cases hs.1
      | inr w => cases hs.1
    · exact (call_actorIds o ids h.2).1.keepsBuilt h.2
    · cases o with
      | inl t => exact (call_null_task t).keepsBuilt h.2
      | inr w => exact (call_pooledActors_swimlane w none).keepsBuilt h.2
    · cases o with
      | inl t => exact (call_pooledActors_task t S hc).keepsBuilt h.2
      | inr w => exact (call_pooledActors_swimlane w (some S)).keepsBuilt h.2

omit [DecidableEq T] [DecidableEq W] in
theorem inv_new (swimlaneInstance : T → Option W) : (new swimlaneInstance).Inv := by
  have hnot : ∀ a o, ¬ (new swimlaneInstance).refersTo a o :=
    fun a o => PooledActor.not_refersTo_new o none
  have hpool : ∀ o, (new swimlaneInstance).pool o = ∅ := fun o => by cases o <;> rfl
  refine ⟨consistent_iff_pools.2 ⟨hpool, fun o a => ?_⟩, fun a o h => absurd h (hnot a o)⟩
  refine iff_of_false ?_ (hnot a o)
  rw [Finset.mem_coe, hpool]
  exact Finset.notMem_empty a

/-- **Pools over a sequence of calls.**  Every call returns and leaves every pool the one
    last assigned, referred to by its actors and by no others, just if every call keeps
    the pools consistent in the state it is made in. -/
theorem consistent_iff (swimlaneInstance : T → Option W) (calls : List (Call T W))
    (h : Allowed Known call (new swimlaneInstance) calls) :
    Allowed Succeeds call (new swimlaneInstance) calls ↔
      Allowed Keeps call (new swimlaneInstance) calls :=
  Allowed.congr_inv (fun _ _ hx hc => succeeds_iff hx hc) (fun _ _ hx hc hs => built_call hx hc hs)
    (inv_new swimlaneInstance) h

/-- A task instance in a swimlane: both pools are assigned once, and the first is then
    extended. -/
def sample : List (Call Unit Unit) :=
  [.newPooledActor (some "ann"), .newPooledActor (some "bob"),
    .setPooledActors (.inl ()) (.pooledActors (some {0})),
    .setSwimlaneInstance () (some ()),
    .setPooledActors (.inr ()) (.actorIds (some [some "me", some "you"])),
    .setActorId (.inl ()) (some "me") true,
    .setPooledActors (.inl ()) (.pooledActors (some {0, 1}))]

theorem consistent_sample : Allowed Succeeds call (new fun _ => none) sample :=
  (consistent_iff (fun _ => none) sample (by decide)).2 (by decide)

/-- Two arrays one after the other: the actor of the first still refers to the task
    instance. -/
theorem replaced_refers_back : ¬ ∀ calls : List (Call Unit Unit),
    Allowed Known call (new fun _ => none) calls →
      Allowed Succeeds call (new fun _ => none) calls := by
  intro h
  obtain ⟨-, ⟨-, hc⟩, -⟩ := h
    [.setPooledActors (.inl ()) (.actorIds (some [some "me"])),
      .setPooledActors (.inl ()) (.actorIds (some [some "you"]))] (by decide)
  have hpool := (hc.references (.inl ()) 0).2 (by decide)
  revert hpool
  decide

end History

end Pooled

end Jbpm
