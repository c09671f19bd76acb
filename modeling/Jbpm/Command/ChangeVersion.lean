/-
  The command that gives process instances another version of their definition.

  * `Installation`: definitions and instances, and what of them does not change;
  * `execute`: the instance of an id, then all running ones of a name;
  * `plan`: what is assigned for an instance, from what is there before;
  * `does_execute`: the command does what is planned for the instances that it is about;
  * `migrates`: when it succeeds, and what has changed then.
-/
import Jbpm.Graph.HierarchicalName
import Jbpm.Java.Throws
import Jbpm.Lib.Assignment

namespace Jbpm

namespace Migration

open Java Lib

/-- A token and its children, which are null for a token that was not loaded. -/
inductive Tokens (T : Type)
  | token (t : T) (children : Option (List (Tokens T)))

mutual

/-- The tokens from the root on, and whether their children are null. -/
def Tokens.list {T : Type} : Tokens T → List (T × Bool)
  | .token t none => [(t, true)]
  | .token t (some children) => (t, false) :: Tokens.lists children

def Tokens.lists {T : Type} : List (Tokens T) → List (T × Bool)
  | [] => []
  | child :: children => child.list ++ Tokens.lists children

end

/-- Process instances `P`, tokens `T`, task instances `I`, tasks `K`, and process definitions `D`
    with their nodes. -/
structure Installation (P T I K D : Type) (N : D → Type) where
  name : D → String
  version : D → ℤ
  definitions : List D
  hierarchy : (d : D) → Graph.Hierarchy (N d)
  tasks : List K
  taskName : K → Option String
  taskNode : K → Option (Sigma N)
  /-- The later they were started, the earlier they are. -/
  instances : List P
  hasEnded : P → Bool
  rootToken : P → Tokens T
  processInstance : T → P
  taskInstances : List I
  token : I → T
  isOpen : I → Bool
  isSuspended : I → Bool
  nodup_tokens : ∀ p, ((rootToken p).list.map Prod.fst).Nodup
  processInstance_of_mem : ∀ {p x}, x ∈ (rootToken p).list → processInstance x.1 = p
  nodup_taskInstances : taskInstances.Nodup

/-- The fields of the command. -/
structure ChangeProcessInstanceVersion (P : Type) where
  processId : Option P
  processName : Option String
  newVersion : ℤ
  nameMapping : Option String → Option (Option String)

inductive Failure
  | nullPointer
  | lookup (e : Graph.Hierarchy.Exn)
  /-- `node with name .. not found in new process definition` -/
  | nodeNotFound
  /-- `node .. has no Task configured! Check the new process definition` -/
  | noTask
  | nonUniqueResult

/-- What is assigned: the definition of an instance, the node of a token, the task of a task
    instance. -/
inductive Item (P T I : Type)
  | processInstance (p : P)
  | token (t : T)
  | taskInstance (i : I)
  deriving DecidableEq

def Value (P T I K : Type) {D : Type} (N : D → Type) : Item P T I → Type
  | .processInstance _ => D
  | .token _ => Option (Sigma N)
  | .taskInstance _ => Option K

section Execute

variable {P T I K D : Type} {N : D → Type} [DecidableEq P] [DecidableEq T] [DecidableEq I]
  [DecidableEq D] [∀ d, DecidableEq (N d)]

/-- The objects, and the definition that the command has found. -/
structure Session (P T I K : Type) {D : Type} (N : D → Type) where
  store : ∀ k, Value P T I K N k
  newDef : Option D

variable (w : Installation P T I K D N) (cmd : ChangeProcessInstanceVersion P)

/-- `findProcessDefinition`, which has a unique result -/
def findProcessDefinition (processName : String) (version : ℤ) : Except Failure (Option D) :=
  match w.definitions.filter fun d => w.name d = processName ∧ w.version d = version with
  | [] => .ok none
  | [d] => .ok (some d)
  | _ => .error .nonUniqueResult

/-- `findLatestProcessDefinition`, the first result -/
def findLatestProcessDefinition (processName : String) : Option D :=
  (w.definitions.filter fun d => w.name d = processName).maxOn? w.version

def requested (processName : String) : Except Failure (Option D) :=
  if cmd.newVersion ≤ 0 then .ok (findLatestProcessDefinition w processName)
  else findProcessDefinition w processName cmd.newVersion

def getNewDef (processName : String) : Throws Failure (Session P T I K N) (Option D) := fun s =>
  match s.newDef, requested w cmd processName with
  | some newDef, _ => (.ok (some newDef), s)
  | none, .ok newDef => (.ok newDef, { s with newDef := newDef })
  | none, .error e => (.error e, s)

def getNewNodeName (oldNode : Sigma N) : Option String :=
  let oldName := (w.hierarchy oldNode.1).getFullyQualifiedName oldNode.2
  (cmd.nameMapping oldName).getD oldName

def findNewNode (newDef : Option D) (oldNode : Option (Sigma N)) : Except Failure (Sigma N) :=
  match newDef, oldNode with
  | some d, some oldNode =>
    match (w.hierarchy d).findNode none (getNewNodeName w cmd oldNode) with
    | .ok (some n) => .ok ⟨d, n⟩
    | .ok none => .error .nodeNotFound
    | .error e => .error (.lookup e)
  | _, _ => .error .nullPointer

/-- The tasks of a node that have the name of a task. -/
def tasksForNode (newNode : Sigma N) (oldTask : K) : List K :=
  w.tasks.filter fun k =>
    w.taskName oldTask ≠ none ∧ w.taskName k = w.taskName oldTask ∧ w.taskNode k = some newNode

/-- `TaskMgmtSession.findTaskForNode`, which has a unique result -/
def findTaskForNode (newNode : Sigma N) : Option K → Except Failure K
  | none => .error .nullPointer
  | some oldTask =>
    match tasksForNode w newNode oldTask with
    | [] => .error .noTask
    | [newTask] => .ok newTask
    | _ => .error .nonUniqueResult

def getTasksForToken (t : T) : List I :=
  w.taskInstances.filter fun i => w.token i = t ∧ w.isOpen i ∧ ¬ w.isSuspended i

def set (k : Item P T I) (v : Value P T I K N k) : Throws Failure (Session P T I K N) Unit :=
  Throws.modify_ fun s => { s with store := Function.update s.store k v }

def get (k : Item P T I) : Throws Failure (Session P T I K N) (Value P T I K N k) := fun s =>
  (.ok (s.store k), s)

def changeTask (newNode : Sigma N) (i : I) : Throws Failure (Session P T I K N) Unit := do
  let oldTask ← get (.taskInstance i)
  let newTask ← Throws.ofExcept (findTaskForNode w newNode oldTask)
  set (.taskInstance i) (some newTask)

/-- What is done for a token, before its children. -/
def changeToken (t : T) : Throws Failure (Session P T I K N) Unit := do
  let oldNode ← get (.token t)
  let oldDef ← get (.processInstance (w.processInstance t))
  let newDef ← getNewDef w cmd (w.name oldDef)
  let newNode ← Throws.ofExcept (findNewNode w cmd newDef oldNode)
  set (.token t) (some newNode)
  (getTasksForToken w t).forM (changeTask w newNode)

mutual

def changeTokenVersion : Tokens T → Throws Failure (Session P T I K N) Unit
  | .token t none => do
    changeToken w cmd t
    Throws.throw_ .nullPointer
  | .token t (some children) => do
    changeToken w cmd t
    changeTokenVersions children

def changeTokenVersions : List (Tokens T) → Throws Failure (Session P T I K N) Unit
  | [] => pure ()
  | child :: children => do
    changeTokenVersion child
    changeTokenVersions children

end

def changeProcessVersion (p : P) : Throws Failure (Session P T I K N) Unit := do
  changeTokenVersion w cmd (w.rootToken p)
  let oldDef ← get (.processInstance p)
  let newDef ← getNewDef w cmd (w.name oldDef)
  match newDef with
  | none => Throws.throw_ .nullPointer
  | some newDef => set (.processInstance p) newDef

/-- `GetProcessInstancesCommand`: the running instances of the definitions of a name -/
def getProcessInstances (processName : String) (f : ∀ k, Value P T I K N k) : List P :=
  w.instances.filter fun p => ¬ w.hasEnded p ∧ w.name (f (.processInstance p)) = processName

def changeAllProcessInstances (processName : String) :
    Throws Failure (Session P T I K N) Unit := fun s =>
  (getProcessInstances w processName s.store).forM (changeProcessVersion w cmd) s

def execute : Throws Failure (Session P T I K N) Unit := do
  cmd.processId.toList.forM (changeProcessVersion w cmd)
  (cmd.processName.filter (· ≠ "")).toList.forM (changeAllProcessInstances w cmd)

end Execute

/-! ## What is planned -/

section Items

variable {P T I K D : Type} {N : D → Type} [DecidableEq T]
  {w : Installation P T I K D N} {p q : P}

/-- What is assigned when a token is visited. -/
def TokenItem (w : Installation P T I K D N) (t : T) (k : Item P T I) : Prop :=
  k = .token t ∨ ∃ i ∈ getTasksForToken w t, k = .taskInstance i

/-- What is assigned for a process instance. -/
def InstanceItem (w : Installation P T I K D N) (p : P) (k : Item P T I) : Prop :=
  k = .processInstance p ∨ ∃ x ∈ (w.rootToken p).list, TokenItem w x.1 k

theorem tokenItem_disjoint {t u : T} (hne : t ≠ u) {k : Item P T I} (h : TokenItem w t k) :
    ¬ TokenItem w u k := by
  rcases h with rfl | ⟨i, hi, rfl⟩
  · rintro (h | ⟨j, -, h⟩)
    · exact hne (Item.token.inj h)
    · cases h
  · rintro (h | ⟨j, hj, h⟩)
    · cases h
    · obtain rfl := Item.taskInstance.inj h
      have hti := (of_decide_eq_true (List.mem_filter.1 hi).2).1
      have htj := (of_decide_eq_true (List.mem_filter.1 hj).2).1
      exact hne (hti.symm.trans htj)

theorem not_tokenItem_processInstance {t : T} : ¬ TokenItem w t (.processInstance p) := by
  rintro (h | ⟨i, -, h⟩)
  · cases h
  · cases h

theorem instanceItem_disjoint (hne : p ≠ q) {k : Item P T I} (h : InstanceItem w p k) :
    ¬ InstanceItem w q k := by
  rcases h with rfl | ⟨x, hx, hk⟩
  · rintro (h | ⟨y, -, hk⟩)
    · exact hne (Item.processInstance.inj h)
    · exact not_tokenItem_processInstance hk
  · rintro (rfl | ⟨y, hy, hk'⟩)
    · exact not_tokenItem_processInstance hk
    · refine tokenItem_disjoint (fun he => hne ?_) hk hk'
      rw [← w.processInstance_of_mem hx, ← w.processInstance_of_mem hy, he]

end Items

section Plan

variable {P T I K D : Type} {N : D → Type} [DecidableEq D] [∀ d, DecidableEq (N d)]

/-- An assignment, or the reason why there is none. -/
abbrev Step (P T I K : Type) {D : Type} (N : D → Type) :=
  Except Failure (Σ k : Item P T I, Value P T I K N k)

variable (w : Installation P T I K D N) (cmd : ChangeProcessInstanceVersion P)
  (newDef : Except Failure (Option D))

def taskPlan (newNode : Sigma N) (f : ∀ k, Value P T I K N k) (i : I) : Step P T I K N :=
  (findTaskForNode w newNode (f (.taskInstance i))).map fun k => ⟨.taskInstance i, some k⟩

section
variable {w} {f : ∀ k, Value P T I K N k} {a : Σ k : Item P T I, Value P T I K N k}

theorem taskPlan_ok {newNode : Sigma N} {i : I} (h : taskPlan w newNode f i = .ok a) :
    a.1 = .taskInstance i := by
  rw [taskPlan] at h
  rcases hk : findTaskForNode w newNode (f (.taskInstance i)) with e | k
  · rw [hk] at h
    cases h
  · rw [hk] at h
    obtain rfl := Except.ok.inj h
    rfl

end

variable [DecidableEq T]

/-- The new node of a token, for which the new definition is looked up. -/
def nodePlan (f : ∀ k, Value P T I K N k) (t : T) : Except Failure (Sigma N) :=
  newDef.bind fun d => findNewNode w cmd d (f (.token t))

/-- For a token, before its children. -/
def tokenPlan (f : ∀ k, Value P T I K N k) (t : T) : List (Step P T I K N) :=
  match nodePlan w cmd newDef f t with
  | .error e => [.error e]
  | .ok newNode => .ok ⟨.token t, some newNode⟩ :: (getTasksForToken w t).map (taskPlan w newNode f)

/-- For a token, up to where its children are visited. -/
def visitPlan (f : ∀ k, Value P T I K N k) (x : T × Bool) : List (Step P T I K N) :=
  tokenPlan w cmd newDef f x.1 ++ if x.2 then [.error .nullPointer] else []

def definitionPlan (p : P) : Step P T I K N :=
  match newDef with
  | .error e => .error e
  | .ok none => .error .nullPointer
  | .ok (some d) => .ok ⟨.processInstance p, d⟩

/-- For a process instance: first its tokens, then its definition. -/
def plan (f : ∀ k, Value P T I K N k) (p : P) : List (Step P T I K N) :=
  (w.rootToken p).list.flatMap (visitPlan w cmd newDef f) ++ [definitionPlan newDef p]

/-! ### Blocks -/

variable {w cmd newDef} {f g : ∀ k, Value P T I K N k} {x y : T × Bool} {p q : P}
  {a : Σ k : Item P T I, Value P T I K N k}

theorem visitPlan_within (h : .ok a ∈ visitPlan w cmd newDef f x) : TokenItem w x.1 a.1 := by
  rcases List.mem_append.1 h with h | h
  · rw [tokenPlan] at h
    rcases hn : nodePlan w cmd newDef f x.1 with e | newNode
    · rw [hn] at h
      cases List.mem_singleton.1 h
    · rw [hn] at h
      rcases List.mem_cons.1 h with h | h
      · obtain rfl := Except.ok.inj h
        exact .inl rfl
      · obtain ⟨i, hi, ha⟩ := List.mem_map.1 h
        exact .inr ⟨i, hi, taskPlan_ok ha⟩
  · split at h
    · cases List.mem_singleton.1 h
    · exact absurd h List.not_mem_nil

theorem visitPlan_congr (h : ∀ k, TokenItem w x.1 k → f k = g k) :
    visitPlan w cmd newDef f x = visitPlan w cmd newDef g x := by
  rw [visitPlan, visitPlan, tokenPlan, tokenPlan, nodePlan, nodePlan, h _ (.inl rfl)]
  rcases newDef.bind fun d => findNewNode w cmd d (g (.token x.1)) with e | newNode
  · rfl
  · have htasks : (getTasksForToken w x.1).map (taskPlan w newNode f) =
        (getTasksForToken w x.1).map (taskPlan w newNode g) :=
      List.map_congr_left fun i hi => by rw [taskPlan, taskPlan, h _ (.inr ⟨i, hi, rfl⟩)]
    simp only [htasks]

variable (w cmd newDef)

def tokenBlock (x : T × Bool) : Assignment.Block Failure (Value P T I K N) where
  plan := fun f => visitPlan w cmd newDef f x
  keys := TokenItem w x.1
  congr := visitPlan_congr
  within := visitPlan_within

variable {w cmd newDef}

theorem plan_within (h : .ok a ∈ plan w cmd newDef f p) : InstanceItem w p a.1 := by
  rcases List.mem_append.1 h with h | h
  · obtain ⟨x, hx, ha⟩ := List.mem_flatMap.1 h
    exact .inr ⟨x, hx, visitPlan_within ha⟩
  · have ha := List.mem_singleton.1 h
    rcases newDef with e | _ | d
    · cases ha
    · cases ha
    · obtain rfl := Except.ok.inj ha
      exact .inl rfl

theorem plan_congr (h : ∀ k, InstanceItem w p k → f k = g k) :
    plan w cmd newDef f p = plan w cmd newDef g p := by
  refine congrArg (· ++ _) (List.flatMap_congr fun x hx => visitPlan_congr fun k hk => ?_)
  exact h k (.inr ⟨x, hx, hk⟩)

variable (w cmd newDef)

def instanceBlock (p : P) : Assignment.Block Failure (Value P T I K N) where
  plan := fun f => plan w cmd newDef f p
  keys := InstanceItem w p
  congr := plan_congr
  within := plan_within

variable {w cmd newDef}

theorem separate_visitPlan : Assignment.Separate (visitPlan w cmd newDef f x) := by
  refine List.pairwise_append.2 ⟨?_, ?_, ?_⟩
  · rw [tokenPlan]
    rcases nodePlan w cmd newDef f x.1 with e | newNode
    · exact List.pairwise_singleton _ _
    · refine List.pairwise_cons.2 ⟨?_, ?_⟩
      · rintro y hy a b ha rfl
        obtain ⟨i, -, hb⟩ := List.mem_map.1 hy
        obtain rfl := Except.ok.inj ha
        rw [taskPlan_ok hb]
        exact fun h => by cases h
      · refine List.pairwise_map.2 ((w.nodup_taskInstances.filter _).imp ?_)
        intro i j hij a b ha hb
        rw [taskPlan_ok ha, taskPlan_ok hb]
        exact fun h => hij (Item.taskInstance.inj h)
  · split
    · exact List.pairwise_singleton _ _
    · exact List.Pairwise.nil
  · rintro y - z hz a b - rfl
    split at hz
    · cases List.mem_singleton.1 hz
    · exact absurd hz List.not_mem_nil

theorem pairwise_tokenBlocks : ((w.rootToken p).list.map (tokenBlock w cmd newDef)).Pairwise
    fun b b' => ∀ k, b.keys k → ¬ b'.keys k :=
  List.pairwise_map.2 ((List.pairwise_map.1 (w.nodup_tokens p)).imp fun hne _ hk =>
    tokenItem_disjoint hne hk)

theorem separate_plan : Assignment.Separate (plan w cmd newDef f p) := by
  have hpairwise : ((w.rootToken p).list.map (tokenBlock w cmd newDef)).Pairwise
      fun b b' => ∀ k, b.keys k → ¬ b'.keys k := pairwise_tokenBlocks
  have htokens := Assignment.separate_flatMap hpairwise (f := f) (by
    intro b hb
    obtain ⟨x, -, rfl⟩ := List.mem_map.1 hb
    exact separate_visitPlan)
  rw [List.flatMap_map] at htokens
  refine List.pairwise_append.2 ⟨htokens, List.pairwise_singleton _ _, ?_⟩
  rintro y hy z hz a b rfl hb
  obtain ⟨x, -, ha⟩ := List.mem_flatMap.1 hy
  have hb' : b.1 = .processInstance p := by
    rw [List.mem_singleton.1 hz] at hb
    rcases newDef with e | _ | d
    · cases hb
    · cases hb
    · obtain rfl := Except.ok.inj hb
      rfl
  rw [hb']
  exact fun h => not_tokenItem_processInstance (h ▸ visitPlan_within ha)

theorem pairwise_instanceBlocks {ps : List P} (h : ps.Nodup) :
    (ps.map (instanceBlock w cmd newDef)).Pairwise fun b b' => ∀ k, b.keys k → ¬ b'.keys k :=
  List.pairwise_map.2 (h.imp fun hne _ hk => instanceItem_disjoint hne hk)

end Plan

/-! ## What is done -/

section Done

variable {P T I K D : Type} {N : D → Type}
  (w : Installation P T I K D N) (cmd : ChangeProcessInstanceVersion P) (n : String)

/-- Only the definition that is requested for the name has been kept. -/
def Kept (s : Session P T I K N) : Prop := s.newDef = none ∨ requested w cmd n = .ok s.newDef

variable {w cmd n}

theorem getNewDef_run {s : Session P T I K N} (h : Kept w cmd n s) :
    ∃ s', getNewDef w cmd n s = (requested w cmd n, s') ∧ s'.store = s.store ∧
      Kept w cmd n s' := by
  rw [getNewDef]
  rcases hs : s.newDef with _ | newDef
  · rcases hr : requested w cmd n with e | newDef
    · exact ⟨s, rfl, rfl, h⟩
    · exact ⟨{ s with newDef := newDef }, rfl, rfl, .inr hr⟩
  · have hr : requested w cmd n = .ok s.newDef :=
      h.resolve_left (by rw [hs]; exact Option.some_ne_none _)
    rw [hr, hs]
    exact ⟨s, rfl, rfl, h⟩

variable [DecidableEq P] [DecidableEq T] [DecidableEq I]

variable (w cmd n) in
/-- The statements end as the assignments do. -/
def Does (m : Throws Failure (Session P T I K N) Unit) (s : Session P T I K N)
    (es : List (Step P T I K N)) : Prop :=
  ∃ s', m s = ((Assignment.perform es s.store).1, s') ∧
    s'.store = (Assignment.perform es s.store).2 ∧ Kept w cmd n s'

variable {m m' : Throws Failure (Session P T I K N) Unit} {s : Session P T I K N}
  {es fs : List (Step P T I K N)} {f : ∀ k, Value P T I K N k}

theorem Does.bind (h : Does w cmd n m s es)
    (h' : ∀ s', (Assignment.perform es s.store).1 = .ok () →
      s'.store = (Assignment.perform es s.store).2 → Kept w cmd n s' → Does w cmd n m' s' fs) :
    Does w cmd n (m >>= fun _ => m') s (es ++ fs) := by
  obtain ⟨s', hm, hstore, hkept⟩ := h
  rw [Does, Assignment.perform_append]
  rcases hp : Assignment.perform es s.store with ⟨e | ⟨⟩, g⟩
  · rw [hp] at hm hstore
    exact ⟨s', Throws.bind_of_error hm _, hstore, hkept⟩
  · rw [hp] at hm hstore h'
    obtain ⟨s'', hm', hstore', hkept'⟩ := h' s' rfl hstore hkept
    obtain rfl : s'.store = g := hstore
    exact ⟨s'', (Throws.bind_of_ok hm _).trans hm', hstore', hkept'⟩

theorem does_pure (h : Kept w cmd n s) : Does w cmd n (pure ()) s [] := ⟨s, rfl, rfl, h⟩

theorem does_throw (e : Failure) (h : Kept w cmd n s) :
    Does w cmd n (Throws.throw_ e) s [.error e] :=
  ⟨s, rfl, rfl, h⟩

theorem does_set {k : Item P T I} {v : Value P T I K N k} (h : Kept w cmd n s) :
    Does w cmd n (set k v) s [.ok ⟨k, v⟩] :=
  ⟨_, rfl, rfl, h⟩

omit [DecidableEq P] [DecidableEq T] [DecidableEq I] in
theorem forM_append_run {α : Type} (l l' : List α)
    (h : α → Throws Failure (Session P T I K N) Unit) (s : Session P T I K N) :
    (l ++ l').forM h s = (l.forM h >>= fun _ => l'.forM h) s := by
  induction l generalizing s with
  | nil => rfl
  | cons a l ih =>
    show (h a >>= fun _ => (l ++ l').forM h) s = ((h a >>= fun _ => l.forM h) >>= _) s
    rcases ha : h a s with ⟨e | ⟨⟩, s'⟩
    · rw [Throws.bind_of_error ha, Throws.bind_of_error (Throws.bind_of_error ha _)]
    · rw [Throws.bind_of_ok ha, ih, Throws.bind_run, Throws.bind_run, Throws.bind_of_ok ha]

/-- The statements end as the blocks do, each planned when the ones before it are done. -/
def DoesBlocks (w : Installation P T I K D N) (cmd : ChangeProcessInstanceVersion P) (n : String)
    (m : Throws Failure (Session P T I K N) Unit) (s : Session P T I K N)
    (bs : List (Assignment.Block Failure (Value P T I K N))) : Prop :=
  ∃ s', m s = ((Assignment.performBlocks bs s.store).1, s') ∧
    s'.store = (Assignment.performBlocks bs s.store).2 ∧ Kept w cmd n s'

theorem doesBlocks_forM {α : Type} (J : Session P T I K N → Prop) {l : List α}
    {h : α → Throws Failure (Session P T I K N) Unit}
    {b : α → Assignment.Block Failure (Value P T I K N)}
    (hdoes : ∀ a ∈ l, ∀ s, Kept w cmd n s → J s → Does w cmd n (h a) s ((b a).plan s.store))
    (hkeeps : ∀ a ∈ l, ∀ s s' : Session P T I K N, J s →
      (Assignment.perform ((b a).plan s.store) s.store).1 = .ok () →
        s'.store = (Assignment.perform ((b a).plan s.store) s.store).2 → J s')
    (hs : Kept w cmd n s) (hI : J s) : DoesBlocks w cmd n (l.forM h) s (l.map b) := by
  induction l generalizing s with
  | nil => exact ⟨s, rfl, rfl, hs⟩
  | cons a l ih =>
    obtain ⟨s', ha, hstore, hkept⟩ := hdoes a List.mem_cons_self s hs hI
    have hkeep := hkeeps a List.mem_cons_self s s' hI
    rw [DoesBlocks, List.map_cons, Assignment.performBlocks]
    rcases hp : Assignment.perform ((b a).plan s.store) s.store with ⟨e | ⟨⟩, g⟩
    · rw [hp] at ha hstore
      exact ⟨s', Throws.bind_of_error ha _, hstore, hkept⟩
    · rw [hp] at ha hstore hkeep
      obtain ⟨s'', hl, hstore', hkept'⟩ := ih (fun c hc => hdoes c (List.mem_cons_of_mem _ hc))
        (fun c hc => hkeeps c (List.mem_cons_of_mem _ hc)) hkept (hkeep rfl hstore)
      obtain rfl : s'.store = g := hstore
      exact ⟨s'', (Throws.bind_of_ok ha _).trans hl, hstore', hkept'⟩

theorem DoesBlocks.does {bs : List (Assignment.Block Failure (Value P T I K N))}
    (h : DoesBlocks w cmd n m s bs)
    (hbs : bs.Pairwise fun b b' => ∀ k, b.keys k → ¬ b'.keys k) :
    Does w cmd n m s (bs.flatMap fun b => b.plan s.store) := by
  obtain ⟨s', hm, hstore, hkept⟩ := h
  rw [Assignment.performBlocks_eq hbs (f := s.store) fun _ _ _ _ => rfl] at hm hstore
  exact ⟨s', hm, hstore, hkept⟩

variable [DecidableEq D] [∀ d, DecidableEq (N d)]

theorem changeTask_run {newNode : Sigma N} {i : I} : changeTask w newNode i s =
    (Throws.ofExcept (findTaskForNode w newNode (s.store (.taskInstance i))) >>= fun k =>
      set (.taskInstance i) (some k)) s := rfl

theorem changeToken_run {t : T} : changeToken w cmd t s =
    (getNewDef w cmd (w.name (s.store (.processInstance (w.processInstance t)))) >>= fun newDef =>
      Throws.ofExcept (findNewNode w cmd newDef (s.store (.token t))) >>= fun newNode =>
        set (.token t) (some newNode) >>= fun _ =>
          (getTasksForToken w t).forM (changeTask w newNode)) s := rfl

theorem does_changeTask {newNode : Sigma N} {i : I} (h : Kept w cmd n s) :
    Does w cmd n (changeTask w newNode i) s [taskPlan w newNode s.store i] := by
  rw [taskPlan, Does, changeTask_run]
  rcases findTaskForNode w newNode (s.store (.taskInstance i)) with e | k
  · exact ⟨s, Throws.bind_of_error (Throws.ofExcept_run _ _) _, rfl, h⟩
  · exact ⟨_, Throws.bind_of_ok (Throws.ofExcept_run _ _) _, rfl, h⟩

theorem does_changeTasks {newNode : Sigma N} (is : List I) (his : is.Nodup)
    (hf : ∀ i ∈ is, s.store (.taskInstance i) = f (.taskInstance i)) (h : Kept w cmd n s) :
    Does w cmd n (is.forM (changeTask w newNode)) s (is.map (taskPlan w newNode f)) := by
  induction is generalizing s with
  | nil => exact does_pure h
  | cons i is ih =>
    rw [List.nodup_cons] at his
    have hplan : taskPlan w newNode s.store i = taskPlan w newNode f i := by
      rw [taskPlan, taskPlan, hf i List.mem_cons_self]
    have hi : Does w cmd n (changeTask w newNode i) s [taskPlan w newNode s.store i] :=
      does_changeTask h
    rw [hplan] at hi
    refine hi.bind fun s' _ hs' hkept => ih his.2 (fun j hj => ?_) hkept
    rw [hs', Assignment.perform_of_ne fun a ha => ?_, hf j (List.mem_cons_of_mem _ hj)]
    rw [taskPlan_ok (List.mem_singleton.1 ha).symm]
    exact fun he => his.1 (Item.taskInstance.inj he ▸ hj)

theorem does_changeToken {t : T} (h : Kept w cmd n s)
    (hn : w.name (s.store (.processInstance (w.processInstance t))) = n) :
    Does w cmd n (changeToken w cmd t) s (tokenPlan w cmd (requested w cmd n) s.store t) := by
  obtain ⟨s₁, hs₁, hstore, hkept⟩ := getNewDef_run h
  rw [Does, changeToken_run, hn, tokenPlan, nodePlan]
  rcases hr : requested w cmd n with e | newDef
  · rw [hr] at hs₁
    exact ⟨s₁, Throws.bind_of_error hs₁ _, hstore, hkept⟩
  · rw [hr] at hs₁
    rw [Throws.bind_of_ok hs₁, Except.bind]
    rcases findNewNode w cmd newDef (s.store (.token t)) with e | newNode
    · exact ⟨s₁, Throws.bind_of_error (Throws.ofExcept_run _ _) _, hstore, hkept⟩
    · rw [Throws.bind_of_ok (Throws.ofExcept_run _ _), ← hstore]
      refine (does_set hkept).bind fun s' _ hs' hkept' => ?_
      refine does_changeTasks _ (w.nodup_taskInstances.filter _) (fun i _ => ?_) hkept'
      rw [hs', Assignment.perform_of_ne fun a ha => ?_]
      obtain rfl := Except.ok.inj (List.mem_singleton.1 ha)
      exact fun he => by cases he

/-! ### The tokens of an instance -/

/-- A token is changed, and its children are asked for. -/
def visit (w : Installation P T I K D N) (cmd : ChangeProcessInstanceVersion P) (x : T × Bool) :
    Throws Failure (Session P T I K N) Unit :=
  changeToken w cmd x.1 >>= fun _ => if x.2 then Throws.throw_ .nullPointer else pure ()

theorem visit_of_error {t : T} {e : Failure} {s' : Session P T I K N} (b : Bool)
    (h : changeToken w cmd t s = (.error e, s')) : visit w cmd (t, b) s = (.error e, s') :=
  Throws.bind_of_error h _

theorem visit_of_null {t : T} {s' : Session P T I K N}
    (h : changeToken w cmd t s = (.ok (), s')) :
    visit w cmd (t, true) s = (.error .nullPointer, s') :=
  Throws.bind_of_ok h _

theorem visit_of_loaded {t : T} {s' : Session P T I K N}
    (h : changeToken w cmd t s = (.ok (), s')) : visit w cmd (t, false) s = (.ok (), s') :=
  Throws.bind_of_ok h _

mutual

/-- The recursion visits the tokens one after the other. -/
theorem changeTokenVersion_eq : ∀ (tokens : Tokens T) (s : Session P T I K N),
    changeTokenVersion w cmd tokens s = tokens.list.forM (visit w cmd) s
  | .token t none, s => by
    show (changeToken w cmd t >>= fun _ => Throws.throw_ .nullPointer) s =
      (visit w cmd (t, true) >>= fun _ => pure ()) s
    rcases ht : changeToken w cmd t s with ⟨e | ⟨⟩, s'⟩
    · rw [Throws.bind_of_error ht, Throws.bind_of_error (visit_of_error true ht)]
    · rw [Throws.bind_of_ok ht, Throws.bind_of_error (visit_of_null ht)]
      rfl
  | .token t (some children), s => by
    show (changeToken w cmd t >>= fun _ => changeTokenVersions w cmd children) s =
      (visit w cmd (t, false) >>= fun _ => (Tokens.lists children).forM (visit w cmd)) s
    rcases ht : changeToken w cmd t s with ⟨e | ⟨⟩, s'⟩
    · rw [Throws.bind_of_error ht, Throws.bind_of_error (visit_of_error false ht)]
    · rw [Throws.bind_of_ok ht, Throws.bind_of_ok (visit_of_loaded ht)]
      exact changeTokenVersions_eq children s'

theorem changeTokenVersions_eq : ∀ (children : List (Tokens T)) (s : Session P T I K N),
    changeTokenVersions w cmd children s = (Tokens.lists children).forM (visit w cmd) s
  | [], _ => rfl
  | child :: children, s => by
    show (changeTokenVersion w cmd child >>= fun _ => changeTokenVersions w cmd children) s = _
    rw [Tokens.lists, forM_append_run, Throws.bind_run, Throws.bind_run,
      changeTokenVersion_eq child s]
    rcases child.list.forM (visit w cmd) s with ⟨e | ⟨⟩, s'⟩
    · rfl
    · exact changeTokenVersions_eq children s'

end

theorem does_visit {x : T × Bool} (h : Kept w cmd n s)
    (hn : w.name (s.store (.processInstance (w.processInstance x.1))) = n) :
    Does w cmd n (visit w cmd x) s (visitPlan w cmd (requested w cmd n) s.store x) := by
  refine (does_changeToken h hn).bind fun s' _ _ hkept => ?_
  split
  · exact does_throw _ hkept
  · exact does_pure hkept

/-! ### The instances -/

theorem does_changeTokenVersion {p : P} (h : Kept w cmd n s)
    (hn : w.name (s.store (.processInstance p)) = n) :
    Does w cmd n (changeTokenVersion w cmd (w.rootToken p)) s
      ((w.rootToken p).list.flatMap (visitPlan w cmd (requested w cmd n) s.store)) := by
  have hblocks : DoesBlocks w cmd n ((w.rootToken p).list.forM (visit w cmd)) s
      ((w.rootToken p).list.map (tokenBlock w cmd (requested w cmd n))) := by
    refine doesBlocks_forM (fun s => w.name (s.store (.processInstance p)) = n)
      (fun x hx s hs hn => ?_) (fun x hx s s' hn _ hs' => ?_) h hn
    · exact does_visit hs (by rwa [w.processInstance_of_mem hx])
    · rw [hs', Assignment.perform_of_ne fun a ha he => ?_]
      · exact hn
      · exact not_tokenItem_processInstance (he ▸ visitPlan_within ha)
  have hdoes := hblocks.does pairwise_tokenBlocks
  rw [List.flatMap_map] at hdoes
  obtain ⟨s', hm, hstore, hkept⟩ := hdoes
  exact ⟨s', (changeTokenVersion_eq _ s).trans hm, hstore, hkept⟩

theorem does_changeProcessVersion {p : P} (h : Kept w cmd n s)
    (hn : w.name (s.store (.processInstance p)) = n) :
    Does w cmd n (changeProcessVersion w cmd p) s (plan w cmd (requested w cmd n) s.store p) := by
  refine (does_changeTokenVersion h hn).bind fun s' _ hs' hkept => ?_
  have hn' : w.name (s'.store (.processInstance p)) = n := by
    rw [hs', Assignment.perform_of_ne fun a ha he => ?_]
    · exact hn
    · obtain ⟨x, -, ha⟩ := List.mem_flatMap.1 ha
      exact not_tokenItem_processInstance (he ▸ visitPlan_within ha)
  obtain ⟨s₁, hs₁, hstore, hkept₁⟩ := getNewDef_run hkept
  rw [Does, Throws.bind_of_ok (m := get (.processInstance p)) rfl, hn']
  rcases hr : requested w cmd n with e | _ | d
  · rw [hr] at hs₁
    exact ⟨s₁, Throws.bind_of_error hs₁ _, hstore, hkept₁⟩
  · rw [hr] at hs₁
    rw [Throws.bind_of_ok hs₁, ← hstore]
    exact does_throw _ hkept₁
  · rw [hr] at hs₁
    rw [Throws.bind_of_ok hs₁, ← hstore]
    exact does_set hkept₁

/-! ### Several instances -/

variable {newDef : Except Failure (Option D)} {p : P} {ps : List P}

omit [DecidableEq P] [DecidableEq T] [DecidableEq I] [DecidableEq D]
  [∀ d, DecidableEq (N d)] in
theorem name_requested {d : D} (h : requested w cmd n = .ok (some d)) : w.name d = n := by
  rw [requested] at h
  split at h
  · have hmem := List.maxOn?_mem (Except.ok.inj h)
    exact of_decide_eq_true (List.mem_filter.1 hmem).2
  · rw [findProcessDefinition] at h
    split at h
    · cases h
    · next d' hd' =>
      obtain rfl := Option.some.inj (Except.ok.inj h)
      have hmem : d' ∈ w.definitions.filter fun d =>
          w.name d = n ∧ w.version d = cmd.newVersion := by
        rw [hd']
        exact List.mem_singleton_self d'
      exact (of_decide_eq_true (List.mem_filter.1 hmem).2).1
    · cases h

omit [DecidableEq P] [DecidableEq I] in
theorem separate_plans (h : ps.Nodup) :
    Assignment.Separate (ps.flatMap (plan w cmd newDef f)) := by
  have hpairwise : (ps.map (instanceBlock w cmd newDef)).Pairwise
      fun b b' => ∀ k, b.keys k → ¬ b'.keys k := pairwise_instanceBlocks h
  have hsep := Assignment.separate_flatMap hpairwise (f := f) (by
    intro b hb
    obtain ⟨q, -, rfl⟩ := List.mem_map.1 hb
    exact separate_plan)
  rwa [List.flatMap_map] at hsep

/-- What belongs to no instance stays. -/
theorem plans_of_forall {k : Item P T I} (h : ∀ p ∈ ps, ¬ InstanceItem w p k) :
    (Assignment.perform (ps.flatMap (plan w cmd newDef f)) f).2 k = f k := by
  refine Assignment.perform_of_ne fun a ha he => ?_
  obtain ⟨q, hq, ha⟩ := List.mem_flatMap.1 ha
  exact h q hq (he ▸ plan_within ha)

theorem plans_of_mem (h : ps.Nodup)
    (hok : (Assignment.perform (ps.flatMap (plan w cmd newDef f)) f).1 = .ok ()) (hp : p ∈ ps)
    {k : Item P T I} {v : Value P T I K N k} (hv : .ok ⟨k, v⟩ ∈ plan w cmd newDef f p) :
    (Assignment.perform (ps.flatMap (plan w cmd newDef f)) f).2 k = v :=
  Assignment.perform_of_mem (separate_plans h) (Assignment.perform_eq_ok_iff.1 hok)
    (List.mem_flatMap.2 ⟨p, hp, hv⟩)

variable (cmd) in
/-- The new definition of an instance has the name of the old one. -/
theorem name_of_plans (h : ps.Nodup) (hn : ∀ p ∈ ps, w.name (f (.processInstance p)) = n)
    (hok : (Assignment.perform (ps.flatMap (plan w cmd (requested w cmd n) f)) f).1 = .ok ())
    (p : P) : w.name ((Assignment.perform (ps.flatMap (plan w cmd (requested w cmd n) f)) f).2
      (.processInstance p)) = w.name (f (.processInstance p)) := by
  by_cases hp : p ∈ ps
  · have hmem : definitionPlan (T := T) (I := I) (K := K) (N := N) (requested w cmd n) p ∈
        plan w cmd (requested w cmd n) f p := List.mem_append_right _ (List.mem_singleton_self _)
    obtain ⟨a, ha⟩ := Assignment.perform_eq_ok_iff.1 hok _ (List.mem_flatMap.2 ⟨p, hp, hmem⟩)
    rcases hd : requested w cmd n with e | _ | d
    · rw [hd] at ha
      cases ha
    · rw [hd] at ha
      cases ha
    · rw [hd] at hmem hok
      have hget : (Assignment.perform (ps.flatMap (plan w cmd (.ok (some d)) f)) f).2
          (.processInstance p) = d := plans_of_mem h hok hp hmem
      rw [hget, name_requested hd, hn p hp]
  · rw [plans_of_forall fun q hq hk => ?_]
    rcases hk with hk | ⟨x, -, hk⟩
    · exact hp (Item.processInstance.inj hk ▸ hq)
    · exact not_tokenItem_processInstance hk

variable (cmd) in
theorem does_changeProcessVersions (ps : List P) (hps : ps.Nodup) (h : Kept w cmd n s)
    (hn : ∀ p ∈ ps, w.name (s.store (.processInstance p)) = n) :
    Does w cmd n (ps.forM (changeProcessVersion w cmd)) s
      (ps.flatMap (plan w cmd (requested w cmd n) s.store)) := by
  have hblocks : DoesBlocks w cmd n (ps.forM (changeProcessVersion w cmd)) s
      (ps.map (instanceBlock w cmd (requested w cmd n))) := by
    refine doesBlocks_forM (fun s => ∀ p ∈ ps, w.name (s.store (.processInstance p)) = n)
      (fun p hp s hs hn => does_changeProcessVersion hs (hn p hp))
      (fun p hp s s' hn hok hs' q hq => ?_) h hn
    have hname := name_of_plans cmd (List.nodup_singleton p) (f := s.store) (n := n) (w := w)
      fun r hr => List.mem_singleton.1 hr ▸ hn p hp
    rw [List.flatMap_singleton] at hname
    rw [hs']
    exact (hname hok q).trans (hn q hq)
  have hdoes := hblocks.does (pairwise_instanceBlocks hps)
  rwa [List.flatMap_map] at hdoes

end Done

/-! ## The command -/

section Command

variable {P T I K D : Type} {N : D → Type} [DecidableEq P] [DecidableEq T] [DecidableEq I]
  [DecidableEq D] [∀ d, DecidableEq (N d)]
  (w : Installation P T I K D N) (cmd : ChangeProcessInstanceVersion P)

/-- The instances that the command is about, in their order. -/
def affected (f : ∀ k, Value P T I K N k) : List P :=
  cmd.processId.toList ++ (cmd.processName.filter (· ≠ "")).toList.flatMap fun name =>
    getProcessInstances w name f

/-- There is a node for every token, and a task for every open task instance. -/
def Migratable (d : D) (f : ∀ k, Value P T I K N k) (p : P) : Prop :=
  ∀ x ∈ (w.rootToken p).list, x.2 = false ∧ ∃ newNode,
    findNewNode w cmd (some d) (f (.token x.1)) = .ok newNode ∧
      ∀ i ∈ getTasksForToken w x.1, ∃ k,
        findTaskForNode w newNode (f (.taskInstance i)) = .ok k

/-- From `f` to `g`, an instance has been given the definition `d`, its tokens the nodes that
    theirs are mapped to, and its open task instances the tasks of these nodes. -/
structure Migrated (d : D) (f g : ∀ k, Value P T I K N k) (p : P) : Prop where
  definition : g (.processInstance p) = d
  tokens : ∀ x ∈ (w.rootToken p).list, ∃ newNode,
    findNewNode w cmd (some d) (f (.token x.1)) = .ok newNode ∧ g (.token x.1) = some newNode ∧
      ∀ i ∈ getTasksForToken w x.1, ∃ k,
        findTaskForNode w newNode (f (.taskInstance i)) = .ok k ∧ g (.taskInstance i) = some k

variable {w cmd} {n : String} {newDef : Except Failure (Option D)}
  {f g : ∀ k, Value P T I K N k} {p : P} {x : T × Bool}

omit [DecidableEq P] [DecidableEq T] [DecidableEq I] in
theorem taskPlan_ok_iff {newNode : Sigma N} {i : I} : (∃ a, taskPlan w newNode f i = .ok a) ↔
    ∃ k, findTaskForNode w newNode (f (.taskInstance i)) = .ok k := by
  rw [taskPlan]
  rcases findTaskForNode w newNode (f (.taskInstance i)) with e | k
  · refine iff_of_false (fun h => ?_) fun h => ?_
    · obtain ⟨a, ha⟩ := h
      cases ha
    · obtain ⟨a, ha⟩ := h
      cases ha
  · exact iff_of_true ⟨_, rfl⟩ ⟨k, rfl⟩

omit [DecidableEq P] [DecidableEq I] in
theorem tokenPlan_ok_iff {t : T} : (∀ y ∈ tokenPlan w cmd newDef f t, ∃ a, y = .ok a) ↔
    ∃ newNode, nodePlan w cmd newDef f t = .ok newNode ∧
      ∀ i ∈ getTasksForToken w t, ∃ k,
        findTaskForNode w newNode (f (.taskInstance i)) = .ok k := by
  rw [tokenPlan]
  rcases nodePlan w cmd newDef f t with e | newNode
  · refine iff_of_false (fun h => ?_) fun h => ?_
    · obtain ⟨a, ha⟩ := h _ (List.mem_singleton_self _)
      cases ha
    · obtain ⟨a, ha, -⟩ := h
      cases ha
  · simp only [List.forall_mem_cons, List.forall_mem_map, taskPlan_ok_iff]
    constructor
    · exact fun h => ⟨newNode, rfl, h.2⟩
    · rintro ⟨m, hm, h⟩
      obtain rfl := Except.ok.inj hm
      exact ⟨⟨_, rfl⟩, h⟩

omit [DecidableEq P] [DecidableEq I] in
theorem visitPlan_ok_iff : (∀ y ∈ visitPlan w cmd newDef f x, ∃ a, y = .ok a) ↔
    x.2 = false ∧ ∃ newNode, nodePlan w cmd newDef f x.1 = .ok newNode ∧
      ∀ i ∈ getTasksForToken w x.1, ∃ k,
        findTaskForNode w newNode (f (.taskInstance i)) = .ok k := by
  have hnull : (∀ y ∈ (if x.2 then [.error .nullPointer] else [] : List (Step P T I K N)),
      ∃ a, y = .ok a) ↔ x.2 = false := by
    rcases x.2 with _ | _
    · exact iff_of_true (fun y hy => absurd hy List.not_mem_nil) rfl
    · refine iff_of_false (fun h => ?_) Bool.noConfusion
      obtain ⟨a, ha⟩ := h _ (List.mem_singleton_self _)
      cases ha
  rw [visitPlan, List.forall_mem_append, hnull, tokenPlan_ok_iff, and_comm]

omit [DecidableEq P] [DecidableEq I] in
theorem plan_ok_iff : (∀ y ∈ plan w cmd newDef f p, ∃ a, y = .ok a) ↔
    ∃ d, newDef = .ok (some d) ∧ Migratable w cmd d f p := by
  rw [plan, List.forall_mem_append, List.forall_mem_singleton]
  rcases newDef with e | _ | d
  · refine iff_of_false (fun h => ?_) fun h => ?_
    · obtain ⟨a, ha⟩ := h.2
      cases ha
    · obtain ⟨d, hd, -⟩ := h
      cases hd
  · refine iff_of_false (fun h => ?_) fun h => ?_
    · obtain ⟨a, ha⟩ := h.2
      cases ha
    · obtain ⟨d, hd, -⟩ := h
      cases hd
  · have htokens : (∀ y ∈ (w.rootToken p).list.flatMap (visitPlan w cmd (.ok (some d)) f),
        ∃ a, y = .ok a) ↔ Migratable w cmd d f p := by
      simp only [List.forall_mem_flatMap, visitPlan_ok_iff]
      exact Iff.rfl
    rw [htokens]
    constructor
    · exact fun h => ⟨d, rfl, h.1⟩
    · rintro ⟨e, he, h⟩
      obtain rfl := Option.some.inj (Except.ok.inj he)
      exact ⟨h, _, rfl⟩

/-- If the instances have definitions of one name, and none comes twice, the command does what
    is planned from what is there at the start. -/
theorem does_execute (hnodup : (affected w cmd f).Nodup)
    (hn : ∀ p ∈ affected w cmd f, w.name (f (.processInstance p)) = n) :
    Does w cmd n (execute w cmd) ⟨f, none⟩
      ((affected w cmd f).flatMap (plan w cmd (requested w cmd n) f)) := by
  rw [affected] at hnodup hn ⊢
  obtain ⟨hnodup₁, hnodup₂, hdisjoint⟩ := List.nodup_append.1 hnodup
  rw [List.flatMap_append]
  have hfirst := does_changeProcessVersions cmd (s := ⟨f, none⟩) cmd.processId.toList hnodup₁
    (.inl rfl) fun p hp => hn p (List.mem_append_left _ hp)
  refine hfirst.bind fun s' hok hs' hkept => ?_
  rcases hname : cmd.processName.filter (· ≠ "") with _ | name
  · exact does_pure hkept
  · have hnames : ∀ p, w.name (s'.store (.processInstance p)) =
        w.name (f (.processInstance p)) := by
      intro p
      rw [hs']
      exact name_of_plans cmd hnodup₁ (fun p hp => hn p (List.mem_append_left _ hp)) hok p
    have hlist : getProcessInstances w name s'.store = getProcessInstances w name f :=
      List.filter_congr fun p _ => by rw [hnames p]
    simp only [hname, Option.toList_some, List.flatMap_singleton] at hnodup₂ hdisjoint hn ⊢
    have hplans : (getProcessInstances w name s'.store).flatMap
        (plan w cmd (requested w cmd n) s'.store) =
          (getProcessInstances w name f).flatMap (plan w cmd (requested w cmd n) f) := by
      rw [hlist]
      refine List.flatMap_congr fun p hp => plan_congr fun k hk => ?_
      rw [hs', plans_of_forall fun q hq hk' => ?_]
      exact instanceItem_disjoint (fun he => hdisjoint q hq p hp he) hk' hk
    have hsecond := does_changeProcessVersions cmd (s := s') (getProcessInstances w name s'.store)
      (hlist ▸ hnodup₂) hkept fun p hp =>
        (hnames p).trans (hn p (List.mem_append_right _ (hlist ▸ hp)))
    rw [hplans] at hsecond
    have hall : Does w cmd n (changeAllProcessInstances w cmd name) s'
        ((getProcessInstances w name f).flatMap (plan w cmd (requested w cmd n) f)) := hsecond
    rw [← List.append_nil (List.flatMap _ _)]
    exact hall.bind fun _ _ _ hkept' => does_pure hkept'

theorem migrated_of_ok (hnodup : (affected w cmd f).Nodup)
    (hok : (Assignment.perform ((affected w cmd f).flatMap (plan w cmd newDef f)) f).1 = .ok ())
    (hp : p ∈ affected w cmd f) : ∃ d, newDef = .ok (some d) ∧ Migrated w cmd d f
      (Assignment.perform ((affected w cmd f).flatMap (plan w cmd newDef f)) f).2 p := by
  have hall := Assignment.perform_eq_ok_iff.1 hok
  obtain ⟨d, rfl, hmigratable⟩ := plan_ok_iff.1 fun y hy => hall y (List.mem_flatMap.2 ⟨p, hp, hy⟩)
  refine ⟨d, rfl, plans_of_mem hnodup hok hp (List.mem_append_right _ List.mem_cons_self),
    fun x hx => ?_⟩
  obtain ⟨-, newNode, hnode, htasks⟩ := hmigratable x hx
  have hplan : ∀ y ∈ tokenPlan w cmd (.ok (some d)) f x.1,
      y ∈ plan w cmd (.ok (some d)) f p := fun y hy =>
    List.mem_append_left _ (List.mem_flatMap.2 ⟨x, hx, List.mem_append_left _ hy⟩)
  have htoken : tokenPlan w cmd (.ok (some d)) f x.1 = .ok ⟨.token x.1, some newNode⟩ ::
      (getTasksForToken w x.1).map (taskPlan w newNode f) := by
    rw [tokenPlan, nodePlan, Except.bind, hnode]
  rw [htoken] at hplan
  refine ⟨newNode, hnode, plans_of_mem hnodup hok hp (hplan _ List.mem_cons_self),
    fun i hi => ?_⟩
  obtain ⟨k, hk⟩ := htasks i hi
  refine ⟨k, hk, plans_of_mem hnodup hok hp (hplan _ (List.mem_cons_of_mem _ ?_))⟩
  refine List.mem_map.2 ⟨i, hi, ?_⟩
  rw [taskPlan, hk]
  rfl

/-- **Migration.**  If the instances that the command is about have definitions of one name,
    and none comes twice, the command succeeds exactly if there is one definition as requested and
    it has a node for every token and a task for every open task instance.  Then it has changed
    these instances as it should; and it never changes anything of the others. -/
theorem migrates (w : Installation P T I K D N) (cmd : ChangeProcessInstanceVersion P)
    (f : ∀ k, Value P T I K N k) (n : String) (hnodup : (affected w cmd f).Nodup)
    (hn : ∀ p ∈ affected w cmd f, w.name (f (.processInstance p)) = n) :
    let r := execute w cmd ⟨f, none⟩
    (r.1 = .ok () ↔ ∀ p ∈ affected w cmd f, ∃ d, requested w cmd n = .ok (some d) ∧
        Migratable w cmd d f p) ∧
      (r.1 = .ok () → ∀ p ∈ affected w cmd f, ∃ d, requested w cmd n = .ok (some d) ∧
        Migrated w cmd d f r.2.store p) ∧
      ∀ k, (∀ p ∈ affected w cmd f, ¬ InstanceItem w p k) → r.2.store k = f k := by
  obtain ⟨s', hrun, hstore, -⟩ := does_execute hnodup hn
  intro r
  have hresult : r.1 = (Assignment.perform
      ((affected w cmd f).flatMap (plan w cmd (requested w cmd n) f)) f).1 := congrArg Prod.fst hrun
  have hafter : r.2.store = (Assignment.perform
      ((affected w cmd f).flatMap (plan w cmd (requested w cmd n) f)) f).2 :=
    (congrArg (fun x => x.2.store) hrun).trans hstore
  rw [hresult, hafter]
  refine ⟨?_, fun hok p hp => migrated_of_ok hnodup hok hp, fun k hk => plans_of_forall hk⟩
  rw [Assignment.perform_eq_ok_iff]
  constructor
  · exact fun h p hp => plan_ok_iff.1 fun y hy => h y (List.mem_flatMap.2 ⟨p, hp, hy⟩)
  · intro h y hy
    obtain ⟨p, hp, hy⟩ := List.mem_flatMap.1 hy
    exact plan_ok_iff.2 (h p hp) y hy

end Command

/-- The state `b` of the hierarchy. -/
def stateB : Fin 4 := (Fin.last 2).castSucc

/-- One instance of the first of two versions, with an open task at the state `b`. -/
def orders : Installation Unit Unit Unit Bool Bool fun _ => Fin 4 where
  name _ := "order"
  version d := if d then 2 else 1
  definitions := [false, true]
  hierarchy _ := Graph.Hierarchy.phases
  tasks := [false, true]
  taskName _ := some "check"
  taskNode d := some ⟨d, stateB⟩
  instances := [()]
  hasEnded _ := false
  rootToken _ := .token () (some [])
  processInstance _ := ()
  taskInstances := [()]
  token _ := ()
  isOpen _ := true
  isSuspended _ := false
  nodup_tokens _ := List.nodup_singleton _
  processInstance_of_mem _ := rfl
  nodup_taskInstances := List.nodup_singleton _

def atB : ∀ k, Value Unit Unit Unit Bool (fun _ : Bool => Fin 4) k
  | .processInstance _ => false
  | .token _ => some ⟨false, stateB⟩
  | .taskInstance _ => some false

def toLatest : ChangeProcessInstanceVersion Unit := ⟨none, some "order", -1, fun _ => none⟩

theorem migrates_orders : (execute orders toLatest ⟨atB, none⟩).1 = .ok () ∧
    (execute orders toLatest ⟨atB, none⟩).2.store (.processInstance ()) = true := by
  have hfind : findNewNode orders toLatest (some true) (some ⟨false, stateB⟩) =
      .ok ⟨true, stateB⟩ := by
    have hnode : (orders.hierarchy true).findNode none
        (getNewNodeName orders toLatest ⟨false, stateB⟩) = .ok (some stateB) := by decide
    simp only [findNewNode, hnode]
  have hlatest : requested orders toLatest "order" = .ok (some true) :=
    congrArg Except.ok (show findLatestProcessDefinition orders "order" = some true by decide)
  obtain ⟨hok, hdone, -⟩ := migrates orders toLatest atB "order" (by decide) fun _ _ => rfl
  have hsuccess : (execute orders toLatest ⟨atB, none⟩).1 = .ok () := by
    refine hok.2 fun p _ => ⟨true, hlatest, fun x hx => ?_⟩
    obtain rfl := List.mem_singleton.1 hx
    exact ⟨rfl, ⟨true, stateB⟩, hfind, fun i _ => ⟨true, rfl⟩⟩
  obtain ⟨d, hd, hmigrated⟩ := hdone hsuccess () (by decide)
  obtain rfl := Option.some.inj (Except.ok.inj (hd.symm.trans hlatest))
  exact ⟨hsuccess, hmigrated.definition⟩

end Migration

end Jbpm
