/-
  The nodes of a process definition and of its super-states: lists, the maps that are made
  of them when they are first asked for, the nodes' own references to where they are, and
  the start state.

  * `Op.exec`: the operations, with what they throw;
  * `Consistent`: lists, references, maps and start state agree;
  * `Free`: where a node can be added, which is not checked;
  * `collections_of_run`: lookups, renamings and the start state after any run that adds
    free nodes only.
-/
import Mathlib.Data.Fintype.Option
import Mathlib.Data.List.Induction
import Mathlib.Data.List.Perm.Basic
import Mathlib.Data.Nat.Notation
import Mathlib.Logic.Function.Basic
import Mathlib.Logic.Relation
import Mathlib.Order.Nat
import Jbpm.Lib.Run

namespace Jbpm

namespace Graph

open Lib

variable {N : Type} [DecidableEq N]

/-- What does not change of the nodes. -/
structure NodeClasses (N : Type) where
  isSuperState : N → Bool
  isStartState : N → Bool

/-- The fields of a process definition (`none`), of the super-states and of the nodes. -/
structure NodeCollections (N : Type) where
  nodes : Option N → Option (List N)
  nodesMap : Option N → Option (Option String → Option N)
  startState : Option N
  name : N → Option String
  superState : N → Option N
  /-- whether the node's own `processDefinition` is not null -/
  processDefinition : N → Bool

inductive NodeError
  | illegalArgument
  | nullPointer
  | indexOutOfBounds
  deriving DecidableEq

/-- A map that is filled from the front: the last node of a name stays. -/
def mapByName (name : N → Option String) (nodes : List N) : Option String → Option N :=
  nodes.foldl (fun m n => Function.update m (name n) (some n)) fun _ => none

namespace NodeCollections

/-- Nodes with names, in no collection. -/
def initial (name : N → Option String) : NodeCollections N where
  nodes _ := none
  nodesMap _ := none
  startState := none
  name := name
  superState _ := none
  processDefinition _ := false

variable (T : NodeClasses N) (s : NodeCollections N)

/-- The nodes in the list of a collection. -/
def contents (c : Option N) : List N := (s.nodes c).getD []

/-- A super-state that never had a node has no map, the process definition an empty one. -/
def getNodesMap (c : Option N) : Option (Option String → Option N) × NodeCollections N :=
  match s.nodesMap c with
  | some m => (some m, s)
  | none =>
    if c.isSome ∧ (s.nodes c).isNone then (none, s)
    else
      let m := mapByName s.name (s.contents c)
      (some m, { s with nodesMap := Function.update s.nodesMap c (some m) })

/-- Only the process definition looks whether it has a list. -/
def getNode (c : Option N) (name : Option String) :
    Except NodeError (Option N) × NodeCollections N :=
  if c.isNone ∧ (s.nodes c).isNone then (.ok none, s)
  else
    match s.getNodesMap c with
    | (none, s') => (.error .nullPointer, s')
    | (some m, s') => (.ok (m name), s')

def hasNode (c : Option N) (name : Option String) : Except NodeError Bool × NodeCollections N :=
  ((s.getNode c name).1.map Option.isSome, (s.getNode c name).2)

def addNode (c node : Option N) : Except NodeError (Option N) × NodeCollections N :=
  match node with
  | none => (.error .illegalArgument, s)
  | some n =>
    let s' := { s with
      nodes := Function.update s.nodes c (some (s.contents c ++ [n]))
      nodesMap := Function.update s.nodesMap c none }
    match c with
    | none =>
      (.ok (some n), { s' with
        processDefinition := Function.update s.processDefinition n true
        startState :=
          if T.isStartState n ∧ s.startState = none then some n else s.startState })
    | some p => (.ok (some n), { s' with superState := Function.update s.superState n (some p) })

/-- `removedNode`, the result, is null if the node is not in the list. -/
def removeNode (c node : Option N) : Except NodeError (Option N) × NodeCollections N :=
  match node with
  | none => (.error .illegalArgument, s)
  | some n =>
    let removedNode := if n ∈ s.contents c then some n else none
    let s' :=
      if n ∈ s.contents c then
        { s with
          nodes := Function.update s.nodes c (some ((s.contents c).erase n))
          nodesMap := Function.update s.nodesMap c none
          processDefinition :=
            if c = none then Function.update s.processDefinition n false else s.processDefinition
          superState := if c = none then s.superState else Function.update s.superState n none }
      else s
    (.ok removedNode,
      if c = none ∧ s.startState = removedNode then { s' with startState := none } else s')

/-- The map stays as it is. -/
def reorderNode (c : Option N) (oldIndex newIndex : ℤ) :
    Except NodeError Unit × NodeCollections N :=
  match (s.contents c)[oldIndex.toNat]? with
  | some n =>
    if 0 ≤ oldIndex ∧ 0 ≤ newIndex ∧ newIndex < (s.contents c).length then
      (.ok (), { s with
        nodes := Function.update s.nodes c
          (some (((s.contents c).eraseIdx oldIndex.toNat).insertIdx newIndex.toNat n)) })
    else (.error .indexOutOfBounds, s)
  | none => (.error .indexOutOfBounds, s)

def removeOldStart (startState : Option N) : NodeCollections N :=
  if s.startState ≠ startState ∧ s.startState ≠ none then (s.removeNode none s.startState).2
  else s

/-- The state is added also if it is the start state already. -/
def setStartState (startState : Option N) : NodeCollections N :=
  ({ s.removeOldStart startState with startState := startState }.addNode T none startState).2

/-- `Node.setName`, in the collection that the node is in -/
def rename (c : Option N) (n : N) (name : Option String) :
    Except NodeError Unit × NodeCollections N :=
  match s.hasNode c name with
  | (.error e, s') => (.error e, s')
  | (.ok true, s') => (.error .illegalArgument, s')
  | (.ok false, s') =>
    match s'.getNodesMap c with
    | (none, s') => (.error .nullPointer, s')
    | (some m, s') =>
      let m := Function.update (Function.update m (s.name n) none) name (some n)
      (.ok (), { s' with
        nodesMap := Function.update s'.nodesMap c (some m)
        name := Function.update s'.name n name })

def setName (n : N) (name : Option String) : Except NodeError Unit × NodeCollections N :=
  if s.name n = name then (.ok (), s)
  else
    match s.superState n, s.processDefinition n with
    | some p, _ => s.rename (some p) n name
    | none, true => s.rename none n name
    | none, false => (.ok (), { s with name := Function.update s.name n name })

/-- `GraphElement.setProcessDefinition` -/
def setProcessDefinition (n : N) : NodeCollections N :=
  { s with processDefinition := Function.update s.processDefinition n true }

/-- What is called on the collections and on their nodes. -/
inductive Op (N : Type)
  | setProcessDefinition (n : N)
  | addNode (c node : Option N)
  | removeNode (c node : Option N)
  | reorderNode (c : Option N) (oldIndex newIndex : ℤ)
  | setStartState (startState : Option N)
  /-- the overloaded method for nodes of all kinds -/
  | setStartNode (startState : Option N)
  | setName (n : N) (name : Option String)
  | getNode (c : Option N) (name : Option String)
  | hasNode (c : Option N) (name : Option String)
  | getNodesMap (c : Option N)

def exec : Op N → NodeCollections N
  | .setProcessDefinition n => s.setProcessDefinition n
  | .addNode c node => (s.addNode T c node).2
  | .removeNode c node => (s.removeNode c node).2
  | .reorderNode c oldIndex newIndex => (s.reorderNode c oldIndex newIndex).2
  | .setStartState startState => s.setStartState T startState
  | .setStartNode startState => { s with startState := startState }
  | .setName n name => (s.setName n name).2
  | .getNode c name => (s.getNode c name).2
  | .hasNode c name => (s.hasNode c name).2
  | .getNodesMap c => (s.getNodesMap c).2

/-! ## States in which all agrees -/

/-- One step up, to the super-state around a node. -/
def Up (n p : N) : Prop := s.superState n = some p

/-- The lists have no duplicates and no two nodes of one name, a node knows the super-state
    it is in, and a map that is there has the nodes of the list under their names.  What it
    has for null is left open. -/
structure Consistent : Prop where
  nodup : ∀ c, (s.contents c).Nodup
  named : ∀ {c n n'}, n ∈ s.contents c → n' ∈ s.contents c → s.name n ≠ none →
    s.name n = s.name n' → n = n'
  mem_super : ∀ {n p}, n ∈ s.contents (some p) ↔ s.Up n p
  mem_definition : ∀ {n}, n ∈ s.contents none →
    s.superState n = none ∧ s.processDefinition n = true
  nodes_of_map : ∀ {p m}, s.nodesMap (some p) = some m → s.nodes (some p) ≠ none
  map_eq : ∀ {c m}, s.nodesMap c = some m →
    ∀ k n, m (some k) = some n ↔ n ∈ s.contents c ∧ s.name n = some k
  isSuperState : ∀ {n p}, s.Up n p → T.isSuperState p = true
  acyclic : ∃ depth : N → ℕ, ∀ n p, s.Up n p → depth p < depth n

/-- A node can be added: it is in no collection, no node of its name is in this one, and the
    collection is not within the node. -/
structure Free (c : Option N) (n : N) : Prop where
  notMem : ∀ c', n ∉ s.contents c'
  named : s.name n ≠ none → ∀ n' ∈ s.contents c, s.name n' ≠ s.name n
  isSuperState : ∀ p, c = some p → T.isSuperState p = true
  notWithin : ∀ p, c = some p → ¬ Relation.ReflTransGen s.Up p n

/-- A lookup makes maps and leaves all else as it is. -/
structure Reads (s s' : NodeCollections N) : Prop where
  nodes : s'.nodes = s.nodes
  name : s'.name = s.name
  superState : s'.superState = s.superState
  processDefinition : s'.processDefinition = s.processDefinition
  startState : s'.startState = s.startState
  consistent : s'.Consistent T

omit [DecidableEq N] in
theorem mapByName_append (name : N → Option String) (nodes : List N) (n : N) :
    mapByName name (nodes ++ [n]) =
      Function.update (mapByName name nodes) (name n) (some n) := by
  rw [mapByName, List.foldl_append, List.foldl_cons, List.foldl_nil, ← mapByName]

omit [DecidableEq N] in
theorem mapByName_eq_some {name : N → Option String} {k : Option String} {nodes : List N} {n : N}
    (h : ∀ n ∈ nodes, ∀ n' ∈ nodes, name n = k → name n' = k → n = n') :
    mapByName name nodes k = some n ↔ n ∈ nodes ∧ name n = k := by
  induction nodes using List.reverseRecOn with
  | nil =>
    exact ⟨fun hn => absurd hn (Option.some_ne_none n).symm,
      fun hn => absurd hn.1 List.not_mem_nil⟩
  | append_singleton nodes a ih =>
    have hmem : ∀ m, m ∈ nodes → m ∈ nodes ++ [a] := fun m hm => List.mem_append_left _ hm
    have ha : a ∈ nodes ++ [a] := List.mem_append_right _ (List.mem_singleton_self a)
    rw [mapByName_append]
    by_cases hak : name a = k
    · subst hak
      rw [Function.update_self]
      constructor
      · intro hn
        obtain rfl := Option.some.inj hn
        exact ⟨ha, rfl⟩
      · rintro ⟨hn, hk⟩
        rw [h a ha n hn rfl hk]
    · rw [Function.update_of_ne (Ne.symm hak),
        ih fun m hm m' hm' => h m (hmem m hm) m' (hmem m' hm')]
      refine and_congr_left fun hk => ?_
      rw [List.mem_append, List.mem_singleton, or_iff_left]
      rintro rfl
      exact hak hk

variable {T} {s} {s' s'' : NodeCollections N} {c : Option N} {n : N}

omit [DecidableEq N] in
theorem Consistent.refl (h : s.Consistent T) : Reads T s s := ⟨rfl, rfl, rfl, rfl, rfl, h⟩

omit [DecidableEq N] in
theorem Reads.trans (h : Reads T s s') (h' : Reads T s' s'') : Reads T s s'' where
  nodes := h'.nodes.trans h.nodes
  name := h'.name.trans h.name
  superState := h'.superState.trans h.superState
  processDefinition := h'.processDefinition.trans h.processDefinition
  startState := h'.startState.trans h.startState
  consistent := h'.consistent

omit [DecidableEq N] in
theorem Reads.contents (h : Reads T s s') (c : Option N) : s'.contents c = s.contents c := by
  rw [NodeCollections.contents, h.nodes, NodeCollections.contents]

omit [DecidableEq N] in
/-- A node is in one collection at most. -/
theorem Consistent.collection_unique (h : s.Consistent T) {c' : Option N} (hc : n ∈ s.contents c)
    (hc' : n ∈ s.contents c') : c = c' := by
  cases c with
  | none =>
    cases c' with
    | none => rfl
    | some p' =>
      have hup := h.mem_super.1 hc'
      rw [Up, (h.mem_definition hc).1] at hup
      cases hup
  | some p =>
    cases c' with
    | none =>
      have hup := h.mem_super.1 hc
      rw [Up, (h.mem_definition hc').1] at hup
      cases hup
    | some p' => exact (h.mem_super.1 hc).symm.trans (h.mem_super.1 hc')

omit [DecidableEq N] in
theorem Consistent.mono {T' : NodeClasses N} (h : s.Consistent T)
    (hT : ∀ p, T.isSuperState p = true → T'.isSuperState p = true) : s.Consistent T' where
  nodup := h.nodup
  named := h.named
  mem_super := h.mem_super
  mem_definition := h.mem_definition
  nodes_of_map := h.nodes_of_map
  map_eq := h.map_eq
  isSuperState hp := hT _ (h.isSuperState hp)
  acyclic := h.acyclic

/-! ## Lookups -/

theorem getNodesMap_spec (h : s.Consistent T) (hc : c = none ∨ s.nodes c ≠ none) :
    ∃ m s', s.getNodesMap c = (some m, s') ∧ Reads T s s' ∧
      ∀ k n, m (some k) = some n ↔ n ∈ s.contents c ∧ s.name n = some k := by
  rw [getNodesMap]
  rcases hm : s.nodesMap c with _ | m
  · have hif : ¬ (c.isSome ∧ (s.nodes c).isNone) := by
      rintro ⟨hsome, hnone⟩
      rcases hc with rfl | hc
      · cases hsome
      · exact hc (Option.isNone_iff_eq_none.1 hnone)
    have hmap : ∀ k n, mapByName s.name (s.contents c) (some k) = some n ↔
        n ∈ s.contents c ∧ s.name n = some k := fun k n =>
      mapByName_eq_some fun m hm m' hm' hk hk' =>
        h.named hm hm' (hk ▸ Option.some_ne_none k) (hk.trans hk'.symm)
    dsimp only
    rw [if_neg hif]
    refine ⟨_, _, rfl, ⟨rfl, rfl, rfl, rfl, rfl, ?_⟩, hmap⟩
    refine ⟨h.nodup, h.named, h.mem_super, h.mem_definition, fun {p m} hp => ?_,
      fun {c' m} hc' => ?_, h.isSuperState, h.acyclic⟩
    · dsimp only at hp
      by_cases hpc : some p = c
      · rcases hc with rfl | hc
        · cases hpc
        · exact hpc ▸ hc
      · rw [Function.update_of_ne hpc] at hp
        exact h.nodes_of_map hp
    · dsimp only at hc'
      by_cases hcc : c' = c
      · subst hcc
        rw [Function.update_self] at hc'
        obtain rfl := Option.some.inj hc'
        exact hmap
      · rw [Function.update_of_ne hcc] at hc'
        exact h.map_eq hc'
  · exact ⟨m, s, rfl, h.refl, h.map_eq hm⟩

/-- A super-state that never had a node. -/
theorem getNodesMap_null (h : s.Consistent T) {p : N} (hp : s.nodes (some p) = none) :
    s.getNodesMap (some p) = (none, s) := by
  rw [getNodesMap]
  rcases hm : s.nodesMap (some p) with _ | m
  · exact if_pos ⟨rfl, by rw [hp]; rfl⟩
  · exact absurd hp (h.nodes_of_map hm)

theorem getNode_spec (h : s.Consistent T) (hc : c = none ∨ s.nodes c ≠ none)
    (name : Option String) :
    ∃ x s', s.getNode c name = (.ok x, s') ∧ Reads T s s' ∧
      ∀ k, name = some k → ∀ n, x = some n ↔ n ∈ s.contents c ∧ s.name n = some k := by
  rw [getNode]
  by_cases hif : c.isNone ∧ (s.nodes c).isNone
  · rw [if_pos hif]
    refine ⟨none, s, rfl, h.refl, fun k _ n => ?_⟩
    rw [contents, Option.isNone_iff_eq_none.1 hif.2, Option.getD_none]
    exact ⟨fun hn => absurd hn (Option.some_ne_none n).symm, fun hn => absurd hn.1 List.not_mem_nil⟩
  · obtain ⟨m, s', hm, hr, hmap⟩ := getNodesMap_spec h hc
    rw [if_neg hif, hm]
    exact ⟨m name, s', rfl, hr, fun k hk n => hk ▸ hmap k n⟩

theorem getNode_null (h : s.Consistent T) {p : N} (hp : s.nodes (some p) = none)
    (name : Option String) : s.getNode (some p) name = (.error .nullPointer, s) := by
  rw [getNode, if_neg (fun hif => by cases hif.1), getNodesMap_null h hp]

theorem reads_getNode (h : s.Consistent T) (c : Option N) (name : Option String) :
    Reads T s (s.getNode c name).2 := by
  by_cases hc : c = none ∨ s.nodes c ≠ none
  · obtain ⟨x, s', hx, hr, -⟩ := getNode_spec h hc name
    rw [hx]
    exact hr
  · rw [not_or, not_not] at hc
    obtain ⟨p, rfl⟩ := Option.ne_none_iff_exists'.1 hc.1
    rw [getNode_null h hc.2]
    exact h.refl

theorem reads_getNodesMap (h : s.Consistent T) (c : Option N) :
    Reads T s (s.getNodesMap c).2 := by
  by_cases hc : c = none ∨ s.nodes c ≠ none
  · obtain ⟨m, s', hm, hr, -⟩ := getNodesMap_spec h hc
    rw [hm]
    exact hr
  · rw [not_or, not_not] at hc
    obtain ⟨p, rfl⟩ := Option.ne_none_iff_exists'.1 hc.1
    rw [getNodesMap_null h hc.2]
    exact h.refl

/-! ## Steps -/

/-- The list of a collection is replaced, and its map dropped. -/
def setContents (s : NodeCollections N) (c : Option N) (ns : List N) : NodeCollections N :=
  { s with
    nodes := Function.update s.nodes c (some ns)
    nodesMap := Function.update s.nodesMap c none }

theorem contents_setContents (ns : List N) (c' : Option N) :
    (s.setContents c ns).contents c' = if c' = c then ns else s.contents c' := by
  rw [contents, setContents]
  by_cases hc : c' = c
  · subst hc
    dsimp only
    rw [Function.update_self, if_pos rfl, Option.getD_some]
  · dsimp only
    rw [Function.update_of_ne hc, if_neg hc, contents]

/-- The maps of the other collections stay right. -/
theorem Consistent.setContents (h : s.Consistent T) {ns : List N} {superState : N → Option N}
    {processDefinition : N → Bool} {startState : Option N} (hnodup : ns.Nodup)
    (hnamed : ∀ n ∈ ns, ∀ n' ∈ ns, s.name n ≠ none → s.name n = s.name n' → n = n')
    (hsuper : ∀ n p, n ∈ (s.setContents c ns).contents (some p) ↔ superState n = some p)
    (hdefinition : ∀ n ∈ (s.setContents c ns).contents none,
      superState n = none ∧ processDefinition n = true)
    (hisSuperState : ∀ n p, superState n = some p → T.isSuperState p = true)
    (hacyclic : ∃ depth : N → ℕ, ∀ n p, superState n = some p → depth p < depth n) :
    Consistent T { s.setContents c ns with
      superState := superState
      processDefinition := processDefinition
      startState := startState } where
  nodup c' := by
    show ((s.setContents c ns).contents c').Nodup
    rw [contents_setContents]
    split
    · exact hnodup
    · exact h.nodup c'
  named := by
    intro c' n n' hn hn' hne heq
    change n ∈ (s.setContents c ns).contents c' at hn
    change n' ∈ (s.setContents c ns).contents c' at hn'
    rw [contents_setContents] at hn hn'
    split at hn
    · next hc =>
      rw [if_pos hc] at hn'
      exact hnamed n hn n' hn' hne heq
    · next hc =>
      rw [if_neg hc] at hn'
      exact h.named hn hn' hne heq
  mem_super := hsuper _ _
  mem_definition := hdefinition _
  nodes_of_map := by
    intro p m hm
    dsimp only [NodeCollections.setContents] at hm ⊢
    by_cases hp : some p = c
    · rw [hp, Function.update_self]
      exact Option.some_ne_none ns
    · rw [Function.update_of_ne hp] at hm ⊢
      exact h.nodes_of_map hm
  map_eq := by
    intro c' m hm k n
    change Function.update s.nodesMap c none c' = some m at hm
    by_cases hc : c' = c
    · rw [hc, Function.update_self] at hm
      cases hm
    · rw [Function.update_of_ne hc] at hm
      show _ ↔ n ∈ (s.setContents c ns).contents c' ∧ s.name n = some k
      rw [contents_setContents, if_neg hc]
      exact h.map_eq hm k n
  isSuperState := hisSuperState _ _
  acyclic := hacyclic

theorem contents_addNode (c : Option N) (n : N) (c' : Option N) :
    (s.addNode T c (some n)).2.contents c' =
      if c' = c then s.contents c ++ [n] else s.contents c' := by
  rw [← contents_setContents (s := s)]
  cases c <;> rfl

theorem superState_addNode (c : Option N) (n : N) :
    (s.addNode T c (some n)).2.superState =
      if c = none then s.superState else Function.update s.superState n c := by
  cases c <;> rfl

theorem name_addNode (c : Option N) (n : N) :
    (s.addNode T c (some n)).2.name = s.name := by
  cases c <;> rfl

omit [DecidableEq N] in
theorem Free.superState (h : s.Consistent T) (hf : s.Free T c n) : s.superState n = none := by
  rcases hn : s.superState n with _ | p
  · rfl
  · exact absurd (h.mem_super.2 hn) (hf.notMem _)

omit [DecidableEq N] in
theorem depth_le_of_within {depth : N → ℕ} (h : ∀ m q, s.Up m q → depth q < depth m) {p : N}
    (hp : Relation.ReflTransGen s.Up p n) : depth n ≤ depth p := by
  induction hp with
  | refl => exact le_rfl
  | tail _ hstep ih => exact (h _ _ hstep).le.trans ih

/-- Nodes within a node can be given a greater depth than a node outside. -/
theorem exists_depth (h : s.Consistent T) (hn : s.superState n = none) (p : N)
    (hp : ¬ Relation.ReflTransGen s.Up p n) :
    ∃ depth : N → ℕ,
      ∀ m q, Function.update s.superState n (some p) m = some q → depth q < depth m := by
  classical
  obtain ⟨depth, hdepth⟩ := h.acyclic
  refine ⟨fun m => if Relation.ReflTransGen s.Up m n then depth m + depth p + 1 else depth m,
    fun m q hmq => ?_⟩
  by_cases hmn : m = n
  · subst hmn
    rw [Function.update_self] at hmq
    obtain rfl := Option.some.inj hmq
    dsimp only
    rw [if_neg hp, if_pos .refl]
    omega
  · rw [Function.update_of_ne hmn] at hmq
    have hlt := hdepth m q hmq
    have hiff : Relation.ReflTransGen s.Up m n ↔ Relation.ReflTransGen s.Up q n := by
      refine ⟨fun hm => ?_, fun hq => .head hmq hq⟩
      obtain rfl | ⟨r, hr, hrn⟩ := hm.cases_head
      · exact absurd rfl hmn
      · obtain rfl := Option.some.inj (hmq.symm.trans hr)
        exact hrn
    dsimp only
    rw [if_congr hiff rfl rfl]
    split <;> omega

theorem Consistent.addNode (h : s.Consistent T) (hf : s.Free T c n) :
    (s.addNode T c (some n)).2.Consistent T := by
  have hsuper := hf.superState h
  have hnamed : ∀ m ∈ s.contents c ++ [n], ∀ m' ∈ s.contents c ++ [n], s.name m ≠ none →
      s.name m = s.name m' → m = m' := by
    intro m hm m' hm' hne heq
    rw [List.mem_append, List.mem_singleton] at hm hm'
    rcases hm with hm | rfl
    · rcases hm' with hm' | rfl
      · exact h.named hm hm' hne heq
      · exact absurd heq (hf.named (heq ▸ hne) m hm)
    · rcases hm' with hm' | rfl
      · exact absurd heq.symm (hf.named hne m' hm')
      · rfl
  have hnodup : (s.contents c ++ [n]).Nodup :=
    List.nodup_append.2 ⟨h.nodup c, List.nodup_singleton n, fun m hm m' hm' heq =>
      hf.notMem c (List.mem_singleton.1 hm' ▸ heq ▸ hm)⟩
  cases c with
  | none =>
    refine h.setContents hnodup hnamed (fun m p => ?_) (fun m hm => ?_)
      (fun _ _ => h.isSuperState) h.acyclic
    · rw [contents_setContents, if_neg (Option.some_ne_none p)]
      exact h.mem_super
    · rw [contents_setContents, if_pos rfl, List.mem_append, List.mem_singleton] at hm
      rcases hm with hm | rfl
      · obtain ⟨hsup, hdef⟩ := h.mem_definition hm
        refine ⟨hsup, ?_⟩
        rw [Function.update_apply, hdef, ite_self]
      · exact ⟨hsuper, Function.update_self ..⟩
  | some p =>
    refine h.setContents hnodup hnamed (fun m q => ?_) (fun m hm => ?_) (fun m q hq => ?_)
      (exists_depth h hsuper p (hf.notWithin p rfl))
    · rw [contents_setContents]
      by_cases hmn : m = n
      · subst hmn
        rw [Function.update_self]
        by_cases hqp : q = p
        · subst hqp
          rw [if_pos rfl]
          exact iff_of_true (List.mem_append_right _ (List.mem_singleton_self m)) rfl
        · rw [if_neg fun heq => hqp (Option.some.inj heq)]
          exact iff_of_false (hf.notMem _) fun heq => hqp (Option.some.inj heq).symm
      · rw [Function.update_of_ne hmn]
        split
        · next hqp =>
          rw [hqp, List.mem_append, List.mem_singleton, or_iff_left hmn]
          exact h.mem_super
        · exact h.mem_super
    · rw [contents_setContents, if_neg (Option.some_ne_none p).symm] at hm
      rw [Function.update_of_ne fun hmn : m = n => hf.notMem none (hmn ▸ hm)]
      exact h.mem_definition hm
    · by_cases hmn : m = n
      · subst hmn
        rw [Function.update_self] at hq
        exact hf.isSuperState q hq
      · rw [Function.update_of_ne hmn] at hq
        exact h.isSuperState hq

/-- Nothing of this is checked when a node is added. -/
theorem Free.of_consistent (h : s.Consistent T)
    (h' : (s.addNode T c (some n)).2.Consistent T) : s.Free T c n := by
  have hmem : n ∈ (s.addNode T c (some n)).2.contents c := by
    rw [contents_addNode, if_pos rfl]
    exact List.mem_append_right _ (List.mem_singleton_self n)
  have hnotMem : ∀ c', n ∉ s.contents c' := by
    intro c' hn
    by_cases hc : c' = c
    · subst hc
      have hnodup := h'.nodup c'
      rw [contents_addNode, if_pos rfl, List.nodup_append] at hnodup
      exact hnodup.2.2 n hn n (List.mem_singleton_self n) rfl
    · refine hc (h'.collection_unique (n := n) ?_ hmem)
      rw [contents_addNode, if_neg hc]
      exact hn
  have hup : ∀ p, c = some p → (s.addNode T c (some n)).2.Up n p := fun p hp =>
    h'.mem_super.1 (hp ▸ hmem)
  refine ⟨hnotMem, fun hne n' hn' heq => ?_, fun p hp => h'.isSuperState (hup p hp),
    fun p hp hwithin => ?_⟩
  · have hn'' : n' ∈ (s.addNode T c (some n)).2.contents c := by
      rw [contents_addNode, if_pos rfl]
      exact List.mem_append_left _ hn'
    have hname := name_addNode (T := T) (s := s) c n
    exact hnotMem c (h'.named hmem hn'' (by rw [hname]; exact hne)
      (by rw [hname]; exact heq.symm) ▸ hn')
  · obtain ⟨depth, hdepth⟩ := h'.acyclic
    have hmono : ∀ m q, s.Up m q → depth q < depth m := by
      intro m q hmq
      refine hdepth m q ?_
      have hmn : m ≠ n := fun hmn => hnotMem _ (h.mem_super.2 (hmn ▸ hmq))
      rw [Up, superState_addNode]
      split
      · exact hmq
      · rw [Function.update_of_ne hmn]
        exact hmq
    exact absurd (hdepth n p (hup p hp)) (depth_le_of_within hmono hwithin).not_gt

theorem Consistent.removeNode (h : s.Consistent T) (c node : Option N) :
    (s.removeNode c node).2.Consistent T := by
  cases node with
  | none => exact h
  | some n =>
    by_cases hn : n ∈ s.contents c
    · have hmem : ∀ m, m ∈ (s.contents c).erase n ↔ m ≠ n ∧ m ∈ s.contents c := fun m =>
        (h.nodup c).mem_erase_iff
      have hnamed : ∀ m ∈ (s.contents c).erase n, ∀ m' ∈ (s.contents c).erase n,
          s.name m ≠ none → s.name m = s.name m' → m = m' := fun m hm m' hm' =>
        h.named ((hmem m).1 hm).2 ((hmem m').1 hm').2
      rw [NodeCollections.removeNode]
      dsimp only
      rw [if_pos hn, if_pos hn]
      cases c with
      | none =>
        have hset : ∀ startState, Consistent T { s.setContents none ((s.contents none).erase n) with
            superState := s.superState
            processDefinition := Function.update s.processDefinition n false
            startState := startState } := by
          refine fun startState => h.setContents ((h.nodup none).erase n) hnamed (fun m p => ?_)
            (fun m hm => ?_) (fun _ _ => h.isSuperState) h.acyclic
          · rw [contents_setContents, if_neg (Option.some_ne_none p)]
            exact h.mem_super
          · rw [contents_setContents, if_pos rfl, hmem] at hm
            rw [Function.update_of_ne hm.1]
            exact h.mem_definition hm.2
        split
        · exact hset none
        · exact hset s.startState
      | some p =>
        have hset : ∀ startState, Consistent T
            { s.setContents (some p) ((s.contents (some p)).erase n) with
              superState := Function.update s.superState n none
              processDefinition := s.processDefinition
              startState := startState } := by
          obtain ⟨depth, hdepth⟩ := h.acyclic
          have hup : ∀ m q, Function.update s.superState n none m = some q → s.Up m q := by
            intro m q hmq
            by_cases hmn : m = n
            · rw [hmn, Function.update_self] at hmq
              cases hmq
            · rw [Function.update_of_ne hmn] at hmq
              exact hmq
          refine fun startState => h.setContents ((h.nodup _).erase n) hnamed (fun m q => ?_)
            (fun m hm => ?_) (fun m q hq => h.isSuperState (hup m q hq))
            ⟨depth, fun m q hq => hdepth m q (hup m q hq)⟩
          · rw [contents_setContents]
            by_cases hmn : m = n
            · subst hmn
              rw [Function.update_self]
              refine iff_of_false (fun hm => ?_) (Option.some_ne_none q).symm
              split at hm
              · exact ((hmem m).1 hm).1 rfl
              · next hqp => exact hqp (h.collection_unique hm hn)
            · rw [Function.update_of_ne hmn]
              split
              · next hqp =>
                rw [hmem, and_iff_right hmn, hqp]
                exact h.mem_super
              · exact h.mem_super
          · rw [contents_setContents, if_neg (Option.some_ne_none p).symm] at hm
            rw [Function.update_apply, (h.mem_definition hm).1, ite_self]
            exact ⟨rfl, (h.mem_definition hm).2⟩
        exact hset s.startState
    · rw [NodeCollections.removeNode]
      dsimp only
      rw [if_neg hn, if_neg hn]
      split
      · exact ⟨h.nodup, h.named, h.mem_super, h.mem_definition, h.nodes_of_map, h.map_eq,
          h.isSuperState, h.acyclic⟩
      · exact h

omit [DecidableEq N] in
theorem perm_insertIdx_eraseIdx {ns : List N} {i j : ℕ} {a : N} (hi : ns[i]? = some a)
    (hj : j < ns.length) : ((ns.eraseIdx i).insertIdx j a).Perm ns := by
  obtain ⟨hlt, rfl⟩ := List.getElem?_eq_some_iff.1 hi
  have hlen : j ≤ (ns.eraseIdx i).length := by
    rw [List.length_eraseIdx_of_lt hlt]
    omega
  exact (List.perm_insertIdx _ _ hlen).trans (List.getElem_cons_eraseIdx_perm hlt)

/-- The map need not notice: it has the same nodes under the same names. -/
theorem Consistent.reorderNode (h : s.Consistent T) (c : Option N) (i j : ℤ) :
    (s.reorderNode c i j).2.Consistent T := by
  rw [NodeCollections.reorderNode]
  rcases hn : (s.contents c)[i.toNat]? with _ | n
  · exact h
  dsimp only
  by_cases hij : 0 ≤ i ∧ 0 ≤ j ∧ j < (s.contents c).length
  · rw [if_pos hij]
    have hperm := perm_insertIdx_eraseIdx hn (show j.toNat < (s.contents c).length by omega)
    have hcontents : ∀ c', ({ s with
        nodes := Function.update s.nodes c
          (some (((s.contents c).eraseIdx i.toNat).insertIdx j.toNat n)) } :
          NodeCollections N).contents c' =
        if c' = c then ((s.contents c).eraseIdx i.toNat).insertIdx j.toNat n
        else s.contents c' :=
      contents_setContents _
    have hmem : ∀ c' m, m ∈ ({ s with
        nodes := Function.update s.nodes c
          (some (((s.contents c).eraseIdx i.toNat).insertIdx j.toNat n)) } :
          NodeCollections N).contents c' ↔ m ∈ s.contents c' := by
      intro c' m
      rw [hcontents]
      split
      · next hc => rw [hc, hperm.mem_iff]
      · exact Iff.rfl
    refine ⟨fun c' => ?_, fun {c' m m'} hm hm' => ?_, fun {m p} => ?_, fun {m} hm => ?_,
      fun {p m} hm => ?_, fun {c' m} hm k a => ?_, h.isSuperState, h.acyclic⟩
    · rw [hcontents]
      split
      · exact hperm.nodup_iff.2 (h.nodup c)
      · exact h.nodup c'
    · exact h.named ((hmem c' m).1 hm) ((hmem c' m').1 hm')
    · rw [hmem]
      exact h.mem_super
    · exact h.mem_definition ((hmem none m).1 hm)
    · dsimp only
      rw [Function.update_apply]
      split
      · exact Option.some_ne_none _
      · exact h.nodes_of_map hm
    · rw [hmem]
      exact h.map_eq hm k a
  · rw [if_neg hij]
    exact h

omit [DecidableEq N] in
theorem nodes_ne_null (hn : n ∈ s.contents c) :
    c = none ∨ s.nodes c ≠ none := by
  refine .inr fun hc => ?_
  rw [contents, hc, Option.getD_none] at hn
  exact List.not_mem_nil hn

/-- In a collection with the node, a name is refused or the map is patched. -/
theorem rename_spec (h : s.Consistent T) (hn : n ∈ s.contents c) (name : Option String) :
    (∃ s', s.rename c n name = (.error .illegalArgument, s') ∧ Reads T s s' ∧
        ∀ k, name = some k → ∃ n' ∈ s.contents c, s.name n' = some k) ∨
      ∃ m s', Reads T s s' ∧ s.rename c n name = (.ok (), { s' with
          nodesMap := Function.update s'.nodesMap c
            (some (Function.update (Function.update m (s.name n) none) name (some n)))
          name := Function.update s'.name n name }) ∧
        (∀ k n', m (some k) = some n' ↔ n' ∈ s.contents c ∧ s.name n' = some k) ∧
        ∀ k, name = some k → ∀ n' ∈ s.contents c, s.name n' ≠ some k := by
  have hc := nodes_ne_null hn
  obtain ⟨x, s₁, hx, hr₁, hspec⟩ := getNode_spec h hc name
  rcases x with _ | n'
  · have hc₁ : c = none ∨ s₁.nodes c ≠ none := by rwa [hr₁.nodes]
    obtain ⟨m, s₂, hm, hr₂, hmap⟩ := getNodesMap_spec hr₁.consistent hc₁
    refine .inr ⟨m, s₂, hr₁.trans hr₂, ?_, fun k n' => ?_, fun k hk n' hn' heq => ?_⟩
    · rw [NodeCollections.rename, hasNode, hx]
      dsimp only [Except.map, Option.isSome_none]
      rw [hm]
    · rw [hmap, hr₁.contents, hr₁.name]
    · exact absurd ((hspec k hk n').2 ⟨hn', heq⟩) (Option.some_ne_none n').symm
  · refine .inl ⟨s₁, ?_, hr₁, fun k hk => ⟨n', (hspec k hk n').1 rfl⟩⟩
    rw [NodeCollections.rename, hasNode, hx]
    rfl

theorem Consistent.rename (h : s.Consistent T) (hn : n ∈ s.contents c) (name : Option String) :
    (s.rename c n name).2.Consistent T := by
  obtain ⟨s', hs', hr, -⟩ | ⟨m, s', hr, hs', hmap, hfree⟩ := rename_spec h hn name
  · rw [hs']
    exact hr.consistent
  rw [hs']
  have hs := hr.consistent
  have hn' : n ∈ s'.contents c := by rwa [hr.contents]
  have hother : ∀ {c' m}, c' ≠ c → m ∈ s'.contents c' →
      Function.update s'.name n name m = s'.name m := by
    intro c' m hc' hm
    refine Function.update_of_ne (fun hmn => hc' ?_) ..
    exact hs.collection_unique (hmn ▸ hm) hn'
  have hne : ∀ {m}, m ∈ s'.contents c → m ≠ n → name ≠ none → s'.name m ≠ name := by
    intro m hm hmn hname heq
    obtain ⟨k, rfl⟩ := Option.ne_none_iff_exists'.1 hname
    rw [hr.contents] at hm
    rw [hr.name] at heq
    exact hfree k rfl m hm heq
  refine ⟨hs.nodup, fun {c' a b} ha hb hnull heq => ?_, hs.mem_super, hs.mem_definition,
    fun {p f} hf => ?_, fun {c' f} hf k a => ?_, hs.isSuperState, hs.acyclic⟩
  · change a ∈ s'.contents c' at ha
    change b ∈ s'.contents c' at hb
    dsimp only at hnull heq
    by_cases hc' : c' = c
    · subst hc'
      by_cases han : a = n
      · subst han
        by_cases hbn : b = a
        · exact hbn.symm
        · rw [Function.update_self] at hnull heq
          rw [Function.update_of_ne hbn] at heq
          exact absurd heq.symm (hne hb hbn hnull)
      · rw [Function.update_of_ne han] at hnull heq
        by_cases hbn : b = n
        · subst hbn
          rw [Function.update_self] at heq
          exact absurd heq (hne ha han (heq ▸ hnull))
        · rw [Function.update_of_ne hbn] at heq
          exact hs.named ha hb hnull heq
    · rw [hother hc' ha] at hnull heq
      rw [hother hc' hb] at heq
      exact hs.named ha hb hnull heq
  · dsimp only at hf ⊢
    by_cases hp : some p = c
    · subst hp
      exact (nodes_ne_null hn').resolve_left (Option.some_ne_none p)
    · rw [Function.update_of_ne hp] at hf
      exact hs.nodes_of_map hf
  · show f (some k) = some a ↔ a ∈ s'.contents c' ∧ Function.update s'.name n name a = some k
    change Function.update s'.nodesMap c _ c' = some f at hf
    by_cases hc' : c' = c
    · subst hc'
      rw [Function.update_self] at hf
      obtain rfl := Option.some.inj hf
      by_cases hk : some k = name
      · subst hk
        rw [Function.update_self]
        constructor
        · intro heq
          obtain rfl := Option.some.inj heq
          exact ⟨hn', Function.update_self ..⟩
        · rintro ⟨ha, heq⟩
          by_contra hna
          have han : a ≠ n := fun han => hna (han ▸ rfl)
          rw [Function.update_of_ne han] at heq
          exact hne ha han (Option.some_ne_none k) heq
      · rw [Function.update_of_ne hk]
        by_cases hold : some k = s.name n
        · rw [hold, Function.update_self]
          refine iff_of_false (Option.some_ne_none a).symm fun hmem => ?_
          obtain ⟨ha, heq⟩ := hmem
          by_cases han : a = n
          · rw [han, Function.update_self] at heq
            exact hk (hold.trans heq.symm)
          · rw [Function.update_of_ne han, ← hr.name] at heq
            exact han (hs.named ha hn' (heq ▸ hr.name ▸ hold ▸ Option.some_ne_none k) heq)
        · rw [Function.update_of_ne hold, hmap, ← hr.contents, ← hr.name]
          refine and_congr_right fun ha => ?_
          by_cases han : a = n
          · subst han
            rw [Function.update_self, hr.name]
            exact iff_of_false (fun heq => hold heq.symm) fun heq => hk heq.symm
          · rw [Function.update_of_ne han]
    · rw [Function.update_of_ne hc'] at hf
      rw [hs.map_eq hf]
      exact and_congr_right fun ha => by rw [hother hc' ha]

theorem Consistent.setName (h : s.Consistent T) {n : N}
    (hn : s.superState n = none → s.processDefinition n = true → n ∈ s.contents none)
    (name : Option String) : (s.setName n name).2.Consistent T := by
  rw [NodeCollections.setName]
  by_cases heq : s.name n = name
  · rw [if_pos heq]
    exact h
  rw [if_neg heq]
  rcases hsup : s.superState n with _ | p
  · rcases hdef : s.processDefinition n with _ | _
    · have hnotMem : ∀ c', n ∉ s.contents c' := by
        intro c' hn'
        cases c' with
        | none =>
          have hdef' := (h.mem_definition hn').2
          rw [hdef] at hdef'
          cases hdef'
        | some q =>
          have hup := h.mem_super.1 hn'
          rw [Up, hsup] at hup
          cases hup
      have hother : ∀ {c' m}, m ∈ s.contents c' → Function.update s.name n name m = s.name m :=
        fun {c' m} hm => Function.update_of_ne (fun hmn : m = n => hnotMem c' (hmn ▸ hm)) ..
      refine ⟨h.nodup, fun {c' a b} ha hb hnull hab => ?_, h.mem_super, h.mem_definition,
        h.nodes_of_map, fun {c' f} hf k a => ?_, h.isSuperState, h.acyclic⟩
      · dsimp only at hnull hab
        rw [hother ha] at hnull hab
        rw [hother hb] at hab
        exact h.named ha hb hnull hab
      · rw [h.map_eq hf]
        refine and_congr_right fun ha => ?_
        show s.name a = some k ↔ Function.update s.name n name a = some k
        rw [hother ha]
    · exact h.rename (hn hsup hdef) name
  · exact h.rename (h.mem_super.2 hsup) name

variable (s) in
/-- The nodes are in one collection. -/
def Sibling (n n' : N) : Prop := ∃ c, n ∈ s.contents c ∧ n' ∈ s.contents c

/-- A node has a new name; maps may be made or patched, and all else is as it was. -/
structure Renames (n : N) (name : Option String) (s s' : NodeCollections N) : Prop where
  nodes : s'.nodes = s.nodes
  name : s'.name = Function.update s.name n name
  superState : s'.superState = s.superState
  processDefinition : s'.processDefinition = s.processDefinition
  startState : s'.startState = s.startState

theorem rename_renames (h : s.Consistent T) (hn : n ∈ s.contents c) {name : Option String}
    (hne : s.name n ≠ name) :
    (∃ s', s.rename c n name = (.error .illegalArgument, s') ∧ Reads T s s' ∧
        ∀ k, name = some k → ∃ n', s.Sibling n n' ∧ n' ≠ n ∧ s.name n' = some k) ∨
      ∃ s', s.rename c n name = (.ok (), s') ∧ Renames n name s s' ∧
        ∀ k, name = some k → ∀ n', s.Sibling n n' → s.name n' = some k → n' = n := by
  obtain ⟨s', hs', hr, hused⟩ | ⟨m, s', hr, hs', -, hfree⟩ := rename_spec h hn name
  · refine .inl ⟨s', hs', hr, fun k hk => ?_⟩
    obtain ⟨n', hn', hk'⟩ := hused k hk
    exact ⟨n', ⟨c, hn, hn'⟩, fun heq => hne (heq ▸ hk'.trans hk.symm), hk'⟩
  · refine .inr ⟨_, hs', ⟨hr.nodes, ?_, hr.superState, hr.processDefinition, hr.startState⟩,
      fun k hk n' hn' hk' => ?_⟩
    · show Function.update s'.name n name = _
      rw [hr.name]
    · obtain ⟨c', hc, hc'⟩ := hn'
      obtain rfl := h.collection_unique hc hn
      exact absurd hk' (hfree k hk n' hc')

/-- A name is refused if a sibling has it, and then nothing changes. -/
theorem setName_spec (h : s.Consistent T) {n : N}
    (hn : s.superState n = none → s.processDefinition n = true → n ∈ s.contents none)
    (name : Option String) :
    (∃ s', s.setName n name = (.error .illegalArgument, s') ∧ Reads T s s' ∧
        ∀ k, name = some k → ∃ n', s.Sibling n n' ∧ n' ≠ n ∧ s.name n' = some k) ∨
      ∃ s', s.setName n name = (.ok (), s') ∧ Renames n name s s' ∧
        ∀ k, name = some k → ∀ n', s.Sibling n n' → s.name n' = some k → n' = n := by
  rw [NodeCollections.setName]
  by_cases heq : s.name n = name
  · rw [if_pos heq]
    refine .inr ⟨s, rfl, ⟨rfl, ?_, rfl, rfl, rfl⟩, fun k hk n' hn' hk' => ?_⟩
    · rw [← heq, Function.update_eq_self]
    · obtain ⟨c, hc, hc'⟩ := hn'
      refine h.named hc' hc (hk' ▸ Option.some_ne_none k) ?_
      rw [hk', heq, hk]
  rw [if_neg heq]
  rcases hsup : s.superState n with _ | p
  · rcases hdef : s.processDefinition n with _ | _
    · refine .inr ⟨_, rfl, ⟨rfl, rfl, rfl, rfl, rfl⟩, fun k _ n' hn' => ?_⟩
      obtain ⟨c, hc, -⟩ := hn'
      cases c with
      | none =>
        have hdef' := (h.mem_definition hc).2
        rw [hdef] at hdef'
        cases hdef'
      | some p =>
        have hup := h.mem_super.1 hc
        rw [Up, hsup] at hup
        cases hup
    · exact rename_renames h (hn hsup hdef) heq
  · exact rename_renames h (h.mem_super.2 hsup) heq

omit [DecidableEq N] in
/-- Which state is the start state does not matter for the collections. -/
theorem consistent_startState (startState : Option N) :
    Consistent T { s with startState := startState } ↔ s.Consistent T :=
  ⟨fun h => ⟨h.nodup, h.named, h.mem_super, h.mem_definition, h.nodes_of_map, h.map_eq,
      h.isSuperState, h.acyclic⟩,
    fun h => ⟨h.nodup, h.named, h.mem_super, h.mem_definition, h.nodes_of_map, h.map_eq,
      h.isSuperState, h.acyclic⟩⟩

theorem Consistent.setProcessDefinition (h : s.Consistent T) (n : N) :
    (s.setProcessDefinition n).Consistent T where
  nodup := h.nodup
  named := h.named
  mem_super := h.mem_super
  mem_definition := by
    intro m hm
    obtain ⟨hsup, hdef⟩ := h.mem_definition hm
    refine ⟨hsup, ?_⟩
    show Function.update s.processDefinition n true m = true
    rw [Function.update_apply, hdef, ite_self]
  nodes_of_map := h.nodes_of_map
  map_eq := h.map_eq
  isSuperState := h.isSuperState
  acyclic := h.acyclic

variable (T s) in
/-- The steps that keep the collections consistent: a node is added where it can be, and a
    node that has a process definition, as the reader gives it to all nodes, is not renamed
    while it is in no collection. -/
def Careful : Op N → Prop
  | .addNode c (some n) => s.Free T c n
  | .setStartState (some n) => { s.removeOldStart (some n) with startState := some n }.Free T none n
  | .setName n _ => s.superState n = none → s.processDefinition n = true → n ∈ s.contents none
  | _ => True

theorem Consistent.exec (h : s.Consistent T) {op : Op N} (hop : s.Careful T op) :
    (s.exec T op).Consistent T := by
  cases op with
  | setProcessDefinition n => exact h.setProcessDefinition n
  | addNode c node =>
    cases node with
    | none => exact h
    | some n => exact h.addNode hop
  | removeNode c node => exact h.removeNode c node
  | reorderNode c i j => exact h.reorderNode c i j
  | setStartState startState =>
    have hold : (s.removeOldStart startState).Consistent T := by
      rw [removeOldStart]
      split
      · exact h.removeNode none _
      · exact h
    have hold' := (consistent_startState startState).2 hold
    cases startState with
    | none => exact hold'
    | some n => exact hold'.addNode hop
  | setStartNode startState => exact (consistent_startState startState).2 h
  | setName n name => exact h.setName hop name
  | getNode c name => exact (reads_getNode h c name).consistent
  | hasNode c name => exact (reads_getNode h c name).consistent
  | getNodesMap c => exact (reads_getNodesMap h c).consistent

omit [DecidableEq N] in
theorem consistent_initial (name : N → Option String) : (initial name).Consistent T where
  nodup _ := List.nodup_nil
  named hn := absurd hn List.not_mem_nil
  mem_super := iff_of_false List.not_mem_nil (Option.some_ne_none _).symm
  mem_definition hn := absurd hn List.not_mem_nil
  nodes_of_map hm := absurd hm (Option.some_ne_none _).symm
  map_eq hm := absurd hm (Option.some_ne_none _).symm
  isSuperState hp := absurd hp (Option.some_ne_none _).symm
  acyclic := ⟨fun _ => 0, fun _ _ hp => absurd hp (Option.some_ne_none _).symm⟩

theorem consistent_of_careful {name : N → Option String} {ops : List (Op N)}
    (h : Run (guard (Careful T) fun s op s' => s' = s.exec T op) (initial name) ops s) :
    s.Consistent T :=
  h.inv (consistent_initial name) fun s op s' hs hstep => by
    obtain ⟨hc, rfl⟩ := hstep
    exact hs.exec hc

/-! ## The start state -/

variable (s) in
/-- The start state is in the list of the process definition. -/
def StartListed : Prop := ∀ n, s.startState = some n → n ∈ s.contents none

variable (s) in
/-- The overloaded `setStartState` takes nodes of super-states as well. -/
def KeepsStart : Op N → Prop
  | .setStartNode (some n) => n ∈ s.contents none
  | _ => True

omit [DecidableEq N] in
theorem Reads.startListed (h : Reads T s s') (hs : s.StartListed) : s'.StartListed := by
  intro n hn
  rw [h.contents]
  exact hs n (h.startState ▸ hn)

theorem StartListed.removeNode (hs : s.StartListed) (h : s.Consistent T) (c node : Option N) :
    (s.removeNode c node).2.StartListed := by
  cases node with
  | none => exact hs
  | some n =>
    intro m hm
    by_cases hn : n ∈ s.contents c
    · rw [NodeCollections.removeNode] at hm ⊢
      dsimp only at hm ⊢
      rw [if_pos hn, if_pos hn] at hm ⊢
      split at hm
      · cases hm
      · next hif =>
        rw [if_neg hif]
        change m ∈ (s.setContents c ((s.contents c).erase n)).contents none
        rw [contents_setContents]
        split
        · next hc =>
          subst hc
          rw [(h.nodup none).mem_erase_iff]
          exact ⟨fun hmn => hif ⟨rfl, hmn ▸ hm⟩, hs m hm⟩
        · exact hs m hm
    · rw [NodeCollections.removeNode] at hm ⊢
      dsimp only at hm ⊢
      rw [if_neg hn, if_neg hn] at hm ⊢
      split at hm
      · cases hm
      · next hif =>
        rw [if_neg hif]
        exact hs m hm

theorem StartListed.addNode
    (h : ∀ m, s.startState = some m → m ∈ s.contents none ∨ m = n ∧ c = none) :
    (s.addNode T c (some n)).2.StartListed := by
  intro m hm
  rw [contents_addNode]
  split
  · next hc =>
    subst hc
    rw [List.mem_append, List.mem_singleton]
    change (if T.isStartState n ∧ s.startState = none then some n else s.startState) = some m at hm
    split at hm
    · exact .inr (Option.some.inj hm).symm
    · exact (h m hm).imp_right fun hmn => hmn.1
  · next hc =>
    cases c with
    | none => exact absurd rfl hc
    | some p => exact (h m hm).resolve_right fun hmn => Option.some_ne_none p hmn.2

theorem StartListed.exec (hs : s.StartListed) (h : s.Consistent T) {op : Op N}
    (hop : s.Careful T op) (hkeeps : s.KeepsStart op) : (s.exec T op).StartListed := by
  cases op with
  | setProcessDefinition n => exact hs
  | addNode c node =>
    cases node with
    | none => exact hs
    | some n => exact .addNode fun m hm => .inl (hs m hm)
  | removeNode c node => exact hs.removeNode h c node
  | reorderNode c i j =>
    rw [NodeCollections.exec, NodeCollections.reorderNode]
    rcases hn : (s.contents c)[i.toNat]? with _ | n
    · exact hs
    dsimp only
    split
    · next hij =>
      intro m hm
      change m ∈ (s.setContents c (((s.contents c).eraseIdx i.toNat).insertIdx j.toNat n)).contents
        none
      rw [contents_setContents]
      split
      · next hc =>
        subst hc
        exact (perm_insertIdx_eraseIdx hn (by omega)).mem_iff.2 (hs m hm)
      · exact hs m hm
    · exact hs
  | setStartState startState =>
    cases startState with
    | none => exact fun m hm => absurd hm (Option.some_ne_none m).symm
    | some n => exact .addNode fun m hm => .inr ⟨(Option.some.inj hm).symm, rfl⟩
  | setStartNode startState =>
    intro m hm
    obtain rfl : startState = some m := hm
    exact hkeeps
  | setName n name =>
    rw [NodeCollections.exec]
    obtain ⟨s', hs', hr, -⟩ | ⟨s', hs', hr, -⟩ := setName_spec h hop name
    · rw [hs']
      exact hr.startListed hs
    · rw [hs']
      intro m hm
      rw [contents, hr.nodes]
      exact hs m (hr.startState ▸ hm)
  | getNode c name => exact (reads_getNode h c name).startListed hs
  | hasNode c name => exact (reads_getNode h c name).startListed hs
  | getNodesMap c => exact (reads_getNodesMap h c).startListed hs

/-! ## Runs -/

/-- **Collections after careful steps.**  What is found under a name is the node of the list
    that has it; a name is refused just if a sibling has it; and a node may be added just if
    it is free.  The start state is in the list of the process definition, unless it was
    set to another node. -/
theorem collections_of_run {name : N → Option String} {ops : List (Op N)}
    (h : Run (guard (Careful T) fun s op s' => s' = s.exec T op) (initial name) ops s) :
    (∀ c, (s.contents c).Nodup) ∧
    (∀ c k, c = none ∨ s.nodes c ≠ none → ∃ x m, (s.getNode c (some k)).1 = .ok x ∧
      (s.hasNode c (some k)).1 = .ok x.isSome ∧ (s.getNodesMap c).1 = some m ∧ m (some k) = x ∧
      ∀ n, x = some n ↔ n ∈ s.contents c ∧ s.name n = some k) ∧
    (∀ n k, s.Careful T (.setName n (some k)) →
      ((s.setName n (some k)).1 = .ok () ↔
        ∀ n', s.Sibling n n' → s.name n' = some k → n' = n) ∧
      ((s.setName n (some k)).1 = .ok () → Renames n (some k) s (s.setName n (some k)).2) ∧
      ∀ e, (s.setName n (some k)).1 = .error e → Reads T s (s.setName n (some k)).2) ∧
    (∀ c n, (s.addNode T c (some n)).2.Consistent T ↔ s.Free T c n) ∧
    (Run (guard (Careful T) (guard KeepsStart fun s op s' => s' = s.exec T op)) (initial name)
        ops s → s.StartListed) := by
  have hs := consistent_of_careful h
  refine ⟨hs.nodup, fun c k hc => ?_, fun n k hn => ?_, fun c n => ⟨.of_consistent hs, hs.addNode⟩,
    fun hrun => ?_⟩
  · obtain ⟨x, s', hx, -, hspec⟩ := getNode_spec hs hc (some k)
    obtain ⟨m, s'', hm, -, hmap⟩ := getNodesMap_spec hs hc
    refine ⟨x, m, by rw [hx], by rw [hasNode, hx]; rfl, by rw [hm], ?_, hspec k rfl⟩
    exact Option.ext fun n => (hmap k n).trans (hspec k rfl n).symm
  · obtain ⟨s', hs', hr, hused⟩ | ⟨s', hs', hr, hfree⟩ := setName_spec hs hn (some k)
    · obtain ⟨n', hn', hne, hk⟩ := hused k rfl
      rw [hs']
      exact ⟨iff_of_false (fun hok => by cases hok) fun hall => hne (hall n' hn' hk),
        fun hok => (by cases hok), fun _ _ => hr⟩
    · rw [hs']
      exact ⟨iff_of_true rfl (hfree k rfl), fun _ => hr, fun _ he => by cases he⟩
  · refine (hrun.inv (I := fun s => s.Consistent T ∧ s.StartListed)
      ⟨consistent_initial name, fun n hn => by cases hn⟩ fun s op s' hs hstep => ?_).2
    obtain ⟨hc, hkeeps, rfl⟩ := hstep
    exact ⟨hs.1.exec hc, hs.2.exec hs.1 hc hkeeps⟩

/-- A super-state, and the node in it. -/
def nested : NodeClasses Bool := ⟨id, fun _ => false⟩

def nest : List (Op Bool) :=
  [.addNode none (some true), .addNode (some true) (some false), .getNode (some true) (some "b"),
    .setName false (some "b"), .reorderNode none 0 0]

omit [DecidableEq N] in
theorem notWithin_of_root {p n : N} (hp : s.superState p = none) (hne : p ≠ n) :
    ¬ Relation.ReflTransGen s.Up p n := by
  intro h
  obtain rfl | ⟨q, hq, -⟩ := h.cases_head
  · exact hne rfl
  · rw [Up, hp] at hq
    cases hq

theorem nest_careful :
    Allowed (Careful nested) (fun s op => s.exec nested op) (initial fun _ => none) nest := by
  have hnone : ∀ {P : Bool → Prop} (p : Bool), (none : Option Bool) = some p → P p := fun p hp =>
    absurd hp (Option.some_ne_none p).symm
  refine ⟨⟨fun c => ?_, fun hne => absurd rfl hne, hnone, hnone⟩,
    ⟨fun c => ?_, fun hne => absurd rfl hne, fun p hp => ?_, fun p hp => ?_⟩, trivial, fun hn => ?_,
    trivial, trivial⟩
  · exact List.not_mem_nil
  · revert c
    decide
  · obtain rfl := Option.some.inj hp
    rfl
  · obtain rfl := Option.some.inj hp
    exact notWithin_of_root rfl Bool.noConfusion
  · cases hn

theorem collections_of_nest :
    let s := nest.foldl (fun s op => s.exec nested op) (initial fun _ => none)
    (s.getNode (some true) (some "b")).1 = .ok (some false) ∧ ∀ c, (s.contents c).Nodup :=
  ⟨by decide, (collections_of_run (Run.of_allowed nest_careful)).1⟩

end NodeCollections

end Graph

end Jbpm
