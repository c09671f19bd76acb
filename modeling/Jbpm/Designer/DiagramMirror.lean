/-
  The diagram mirrors the definition, as long as it follows the changes.

  * `Mirrors`: what is asked of a diagram;
  * `Followed`: the changes that the listeners of the notation follow;
  * `Consistent`: the invariant, and that changes of transitions and names keep it.
-/
import Mathlib.Data.List.Perm.Basic
import Mathlib.Tactic.MkIffOfInductiveProp
import Jbpm.Designer.EdgesMirror

namespace Jbpm

open Java

namespace Designer

variable {N T : Type} (kind : N → Kind)

/-! ## What is asked of a diagram -/

/-- Where the `to` of a transition from `n` leads. -/
def View.destination [DecidableEq N] (v : View N) (n : N) (to_ : Option String) : Option N :=
  match v.getDestination kind n to_ with
  | .ok d => d
  | .error _ => none

namespace Elements

/-- The node elements of the process definition, at any level. -/
inductive InModel (s : Elements N T) : N → Prop where
  | root {n} : n ∈ s.nodeElements none → InModel s n
  | nested {p n} : InModel s p → n ∈ s.nodeElements (some p) → InModel s n

/-- The process definition, or a super-state in it. -/
def Contains (s : Elements N T) (c : Option N) : Prop := ∀ p, c = some p → s.InModel p

/-- The node is in a container of the diagram. -/
def Shown (s : Elements N T) (n : N) : Prop := ∃ c, n ∈ s.nodes c

def destination [DecidableEq N] (s : Elements N T) (n : N) (t : T) : Option N :=
  s.toView.destination kind n (s.goesTo t)

end Elements

structure Mirrors [DecidableEq N] [DecidableEq T] (s : Diagram N T) : Prop where
  nodes_nodup : ∀ c, s.Contains c → (s.nodes c).Nodup
  nodes : ∀ c, s.Contains c → (s.nodes c).Perm (s.nodeElements c)
  container : ∀ c, s.Contains c → ∀ n ∈ s.nodeElements c, s.container n = some c
  leaving : ∀ n, s.InModel n → ∀ t ∈ s.transitions n,
    (s.leavingEdges n).count t = 1 ∧ s.source t = some n
  target : ∀ n, s.InModel n → ∀ t ∈ s.transitions n, s.target t = s.destination kind n t
  arriving : ∀ n, s.InModel n → ∀ t ∈ s.transitions n, ∀ m, s.InModel m →
    (s.arrivingEdges m).count t = if s.destination kind n t = some m then 1 else 0

/-! ## Changes that are followed -/

namespace Elements

variable [DecidableEq N] (s : Elements N T) (c : Option N) (n : N)

/-- With a node, also in the diagram. -/
def insert : Elements N T :=
  { s with
    startState := if c = none ∧ kind n = .startState then some n else s.startState
    nodeElements := Function.update s.nodeElements c
      (if c = none ∧ kind n = .startState then n :: s.nodeElements c else s.nodeElements c ++ [n])
    registered := Function.update s.registered n true
    nodes := Function.update s.nodes c (s.nodes c ++ [n])
    container := Function.update s.container n (some c) }

/-- Without a node. -/
def delete : Elements N T :=
  { s with
    startState := if c = none ∧ kind n = .startState then none else s.startState
    nodeElements := Function.update s.nodeElements c ((s.nodeElements c).erase n)
    nodes := Function.update s.nodes c ((s.nodes c).erase n)
    container := Function.update s.container n none }

end Elements

section Followed

variable [DecidableEq N] [DecidableEq T] (s : Diagram N T)

/-- There is nothing left in the diagram of an earlier time of the node, the nodes in it are shown
    already, and a super-state adds it without transitions. The transitions that lead to it now
    are dangling edges of the container, to its name. -/
@[mk_iff]
structure AddFollowed (c : Option N) (n : N) : Prop where
  leavingEdges : s.leavingEdges n = []
  arrivingEdges : s.arrivingEdges n = []
  nodeListeners : s.nodeListeners n = 0
  edges : ∀ t ∈ s.transitions n, s.edgeListeners t = 0 ∧ s.target t = none
  nodes : (s.nodes (some n)).Perm (s.nodeElements (some n))
  transitions : c = none ∨ s.transitions n = []
  name : c = none ∨ s.danglingEdges c = [] ∨ s.name n ≠ none
  found : ∀ t ∈ s.transitions n, (s.insert kind c n).getDestinationNode kind n (s.goesTo t) =
    .ok ((s.insert kind c n).destination kind n t)
  destination_ne : ∀ k, s.Shown k → ∀ t ∈ s.transitions k, s.destination kind k t ≠ some n
  destination : ∀ k, s.Shown k → ∀ t ∈ s.transitions k, (s.insert kind c n).destination kind k t =
    if t ∈ s.danglingEdges c ∧ s.name n ≠ none ∧ s.goesTo t = s.name n then some n
    else s.destination kind k t

/-- The loops meet at most one edge, and a super-state none that leaves the node; no edge of the
    node leads back to it or dangles.  The transitions that led to it lead nowhere now. -/
@[mk_iff]
structure RemoveFollowed (c : Option N) (n : N) : Prop where
  arrivingEdges : (s.arrivingEdges n).length ≤ 1
  leavingEdges : if c = none then (s.leavingEdges n).length ≤ 1 else s.leavingEdges n = []
  loop : ∀ t ∈ s.transitions n, t ∉ s.arrivingEdges n
  dangling : ∀ t ∈ s.transitions n, ∀ c, t ∉ s.danglingEdges c
  destination : ∀ k, s.Shown k → k ≠ n → ∀ t ∈ s.transitions k,
    (s.delete kind c n).destination kind k t =
      if s.destination kind k t = some n then none else s.destination kind k t

/-- The `to` of a transition after a node has got another name. -/
def renamedTo (n : N) (name : Option String) (t : T) : Option String :=
  if kind n ≠ .superState ∧ t ∈ s.arrivingEdges n then name else s.goesTo t

def Followed : Change N T → Prop
  | .addNode c n => c = none ∧ kind n = .startState ∧ s.startState.isSome ∨ AddFollowed kind s c n
  | .removeNode c n => RemoveFollowed kind s c n
  | .addTransition n t => s.edgeListeners t = 0 ∧ s.target t = none ∧
      s.getDestinationNode kind n (s.goesTo t) = .ok (s.destination kind n t)
  | .removeTransition _ t => ∀ c, t ∉ s.danglingEdges c
  | .setName n name => name = s.name n ∨ ∀ k, s.Shown k → ∀ t ∈ s.transitions k,
      View.destination kind { s with name := Function.update s.name n name } k
        (renamedTo kind s n name t) = s.destination kind k t
  | .setTo t newTo => newTo = s.goesTo t ∨ ∀ n, s.Shown n → t ∈ s.transitions n →
      s.findRegistered (s.goesTo t) = s.destination kind n t ∧
      s.findRegistered newTo = s.toView.destination kind n newTo ∧
      (s.findRegistered newTo ≠ none → ∀ c, t ∉ s.danglingEdges c)

/-- A change of the definition: what is added is not part of it yet, and the rest is. -/
def Proper : Change N T → Prop
  | .addNode c n => s.Contains c ∧ ∀ c', n ∉ s.nodeElements c'
  | .removeNode c n => s.Contains c ∧ n ∈ s.nodeElements c
  | .addTransition n t => s.InModel n ∧ ∀ m, t ∉ s.transitions m
  | .removeTransition n t => s.InModel n ∧ t ∈ s.transitions n
  | .setName n _ => s.InModel n
  | .setTo t _ => ∃ n, s.InModel n ∧ t ∈ s.transitions n

end Followed

/-! ## The invariant -/

/-- No transition leaves two nodes, or one twice. -/
structure Separate (transitions : N → List T) : Prop where
  nodup : ∀ n, (transitions n).Nodup
  source : ∀ n m t, t ∈ transitions n → t ∈ transitions m → n = m

/-- The nodes of the diagram mirror the node elements. -/
structure Nodes (s : Elements N T) : Prop where
  nodup : ∀ c, (s.nodes c).Nodup
  container : ∀ c, ∀ n ∈ s.nodes c, s.container n = some c
  nodeElements : ∀ c, (∀ p, c = some p → s.Shown p) → (s.nodes c).Perm (s.nodeElements c)
  mem_nodeElements : ∀ c, ∀ n ∈ s.nodes c, n ∈ s.nodeElements c
  registered : ∀ c, ∀ n ∈ s.nodes c, s.registered n = true
  nodeListeners : ∀ n, s.Shown n → s.nodeListeners n = 1
  startState : ∀ n, s.startState = some n →
    (s.nodeElements none).head? = some n ∧ kind n = .startState

section Separate

variable [DecidableEq N] {transitions : N → List T} {n : N} {t : T}

theorem Separate.append (h : Separate transitions) (ht : ∀ m, t ∉ transitions m) :
    Separate (Function.update transitions n (transitions n ++ [t])) := by
  have hmem : ∀ k u, u ∈ Function.update transitions n (transitions n ++ [t]) k ↔
      u ∈ transitions k ∨ k = n ∧ u = t := by
    intro k u
    by_cases hk : k = n
    · subst hk
      simp
    · simp [hk]
  refine ⟨fun k => ?_, fun k m u hk hm => ?_⟩
  · by_cases hk : k = n
    · subst hk
      rw [Function.update_self, List.nodup_append]
      refine ⟨h.nodup k, List.nodup_singleton t, fun a ha b hb hab => ht k ?_⟩
      rwa [← List.mem_singleton.1 hb, ← hab]
    · rw [Function.update_of_ne hk]
      exact h.nodup k
  · obtain hku | ⟨hkn, hut⟩ := (hmem k u).1 hk
    · obtain hmu | ⟨-, hut⟩ := (hmem m u).1 hm
      · exact h.source k m u hku hmu
      · exact absurd (hut ▸ hku) (ht k)
    · obtain hmu | ⟨hmn, -⟩ := (hmem m u).1 hm
      · exact absurd (hut ▸ hmu) (ht m)
      · rw [hkn, hmn]

theorem Separate.erase [DecidableEq T] (h : Separate transitions) :
    Separate (Function.update transitions n ((transitions n).erase t)) := by
  have hmem : ∀ k u, u ∈ Function.update transitions n ((transitions n).erase t) k →
      u ∈ transitions k := by
    intro k u hu
    by_cases hk : k = n
    · subst hk
      rw [Function.update_self] at hu
      exact List.mem_of_mem_erase hu
    · rwa [Function.update_of_ne hk] at hu
  refine ⟨fun k => ?_, fun k m u hk hm => h.source k m u (hmem k u hk) (hmem m u hm)⟩
  by_cases hk : k = n
  · subst hk
    rw [Function.update_self]
    exact (h.nodup k).erase t
  · rw [Function.update_of_ne hk]
    exact h.nodup k

end Separate

structure Consistent [DecidableEq N] (s : Diagram N T) : Prop where
  nodes : Nodes kind s.toElements
  separate : Separate s.transitions
  edges : Edges s.Shown s.transitions (s.destination kind) s

section Consistent

variable {kind}

theorem Nodes.shown {s : Elements N T} (h : Nodes kind s) {n : N} (hn : s.InModel n) :
    s.Shown n := by
  induction hn with
  | root hn => exact ⟨none, (h.nodeElements none nofun).mem_iff.2 hn⟩
  | @nested p n _ hn ih =>
    exact ⟨some p, (h.nodeElements (some p) fun q hq => Option.some.inj hq ▸ ih).mem_iff.2 hn⟩

theorem Nodes.perm {s : Elements N T} (h : Nodes kind s) {c : Option N} (hc : s.Contains c) :
    (s.nodes c).Perm (s.nodeElements c) :=
  h.nodeElements c fun p hp => h.shown (hc p hp)

variable [DecidableEq N] [DecidableEq T] {s : Diagram N T}

theorem Consistent.mirrors (h : Consistent kind s) : Mirrors kind s where
  nodes_nodup c _ := h.nodes.nodup c
  nodes c hc := h.nodes.perm hc
  container c hc n hn := h.nodes.container c n ((h.nodes.perm hc).mem_iff.2 hn)
  leaving n hn t ht := by
    have hshown := h.nodes.shown hn
    rw [h.edges.leaving n hshown]
    exact ⟨List.count_eq_one_of_mem (h.separate.nodup n) ht, (h.edges.source n hshown t ht).1⟩
  target n hn t ht := h.edges.target n (h.nodes.shown hn) t ht
  arriving n hn t ht m hm := by
    have hnodup := h.edges.arriving_nodup m (h.nodes.shown hm)
    have hmem := h.edges.mem_arriving m (h.nodes.shown hm) t
    split
    · rename_i hd
      exact List.count_eq_one_of_mem hnodup (hmem.2 ⟨n, h.nodes.shown hn, ht, hd⟩)
    · rename_i hd
      refine List.count_eq_zero.2 fun hmem' => hd ?_
      obtain ⟨k, -, htk, hdk⟩ := hmem.1 hmem'
      rwa [h.separate.source n k t ht htk]

/-! ## Transitions -/

omit [DecidableEq N] [DecidableEq T] in
theorem fire_one (m : Throws Exn (Diagram N T) Unit) : Diagram.fire m 1 = m := by
  funext s
  rw [Diagram.fire, Diagram.fire, Throws.bind_run]
  rcases m s with ⟨e | u, s'⟩ <;> rfl

theorem toElements_arriveAt (d : Option N) (t : T) (s : Diagram N T) :
    (s.arriveAt d t).toElements = s.toElements := by
  cases d <;> rfl

theorem toElements_departFrom (d : Option N) (t : T) (s : Diagram N T) :
    (s.departFrom d t).toElements = s.toElements := by
  cases d <;> rfl

theorem transitionAdd_run {n : N} {t : T} {d : Option N}
    (h : s.getDestinationNode kind n (s.goesTo t) = .ok d) :
    Diagram.transitionAdd kind n t s =
      (.ok (), ((s.addLeavingEdge n t).addEdgeListener t).arriveAt d t) := by
  have hsame : ((s.addLeavingEdge n t).addEdgeListener t).getDestinationNode kind n
      (((s.addLeavingEdge n t).addEdgeListener t).goesTo t) = .ok d := h
  rw [Diagram.transitionAdd]
  simp only [hsame]

omit [DecidableEq N] [DecidableEq T] in
theorem Nodes.congr {s s' : Elements N T} (h : Nodes kind s) (hview : s'.toView = s.toView)
    (hstart : s'.startState = s.startState) (hnodes : s'.nodes = s.nodes)
    (hlisteners : s'.nodeListeners = s.nodeListeners) : Nodes kind s' := by
  obtain ⟨v', start', transitions', goesTo', nodes', listeners'⟩ := s'
  cases hview
  cases hstart
  cases hnodes
  cases hlisteners
  exact { h with }

theorem Consistent.addTransition (h : Consistent kind s) {n : N} {t : T}
    (hp : Proper s (.addTransition n t)) (hf : Followed kind s (.addTransition n t)) :
    Consistent kind (Diagram.addTransition kind n t s).2 := by
  obtain ⟨hmodel, hnew⟩ := hp
  obtain ⟨hlisteners, htarget, hfound⟩ := hf
  have hn := h.nodes.shown hmodel
  let s₁ : Diagram N T :=
    { s with transitions := Function.update s.transitions n (s.transitions n ++ [t]) }
  have hrun : Diagram.addTransition kind n t s =
      (.ok (), ((s₁.addLeavingEdge n t).addEdgeListener t).arriveAt
        (s.destination kind n t) t) := by
    rw [Diagram.addTransition, if_neg (hnew n), h.nodes.nodeListeners n hn, fire_one]
    exact transitionAdd_run (s := s₁) hfound
  rw [hrun]
  have hadd : Edges s.Shown (Function.update s.transitions n (s.transitions n ++ [t]))
      (s.destination kind) _ :=
    Edges.add (s := s₁) { h.edges with } hn (fun m _ => hnew m) hlisteners htarget
  refine ⟨?_, ?_, ?_⟩
  · dsimp only
    rw [toElements_arriveAt]
    exact h.nodes.congr rfl rfl rfl rfl
  · dsimp only
    rw [toElements_arriveAt]
    exact h.separate.append hnew
  · dsimp only
    rw [toElements_arriveAt]
    exact hadd

theorem Consistent.removeTransition (h : Consistent kind s) {n : N} {t : T}
    (hp : Proper s (.removeTransition n t)) (hf : Followed kind s (.removeTransition n t)) :
    Consistent kind (Diagram.removeTransition n t s) := by
  obtain ⟨hmodel, ht⟩ := hp
  have hn := h.nodes.shown hmodel
  let s₁ : Diagram N T :=
    { s with transitions := Function.update s.transitions n ((s.transitions n).erase t) }
  have hrun : Diagram.removeTransition n t s =
      { (s₁.departFrom (s₁.target t) t).removeLeavingEdge n t with
        edgeListeners := if s.target t = none then s.edgeListeners
          else Function.update s.edgeListeners t (s.edgeListeners t - 1) } := by
    rw [Diagram.removeTransition, if_pos ht, h.nodes.nodeListeners n hn, Function.iterate_one,
      Diagram.transitionRemove]
    rcases htarget : s.target t with _ | m
    · simp [s₁, Diagram.departFrom, Diagram.removeLeavingEdge]
    · simp [s₁, Diagram.departFrom, Diagram.removeLeavingEdge,
        Diagram.removeEdgeListener, Diagram.removeArrivingEdge]
  have hremove : Edges s.Shown (Function.update s.transitions n ((s.transitions n).erase t))
      (s.destination kind) (Diagram.removeTransition n t s) := by
    rw [hrun]
    refine Edges.remove (s := s₁) { h.edges with } hn ht (h.separate.nodup n) hf fun u hu => ?_
    split
    · rfl
    · exact Function.update_of_ne hu _ _
  have helements : (Diagram.removeTransition n t s).toElements = s₁.toElements := by
    rw [hrun]
    exact toElements_departFrom _ _ _
  refine ⟨?_, ?_, ?_⟩
  · rw [helements]
    exact h.nodes.congr rfl rfl rfl rfl
  · rw [helements]
    exact h.separate.erase
  · rw [helements]
    exact hremove

omit [DecidableEq T] in
/-- Above a node of the definition is the root container. -/
theorem getRootContainer_of_inModel (h : Consistent kind s) {n : N} (hn : s.InModel n) :
    s.getRootContainer n = some () := by
  induction hn with
  | root hn =>
    have hc := h.nodes.container none _ ((h.nodes.nodeElements none nofun).mem_iff.2 hn)
    rw [View.getRootContainer, hc]
  | @nested p n hp hn ih =>
    have hperm := h.nodes.perm (c := some p) fun q hq => Option.some.inj hq ▸ hp
    have hc := h.nodes.container (some p) n (hperm.mem_iff.2 hn)
    rw [View.getRootContainer, hc]
    exact ih

theorem toChange_run {t : T} {oldTo newTo : Option String}
    (h : (s.source t).bind s.getRootContainer = some ()) : Diagram.toChange t oldTo newTo s =
      (s.departFrom (s.findRegistered oldTo) t).arriveAt (s.findRegistered newTo) t := by
  rw [Diagram.toChange, h]

theorem Consistent.setTo (h : Consistent kind s) {t : T} {newTo : Option String}
    (hp : Proper s (.setTo t newTo)) (hf : Followed kind s (.setTo t newTo)) :
    Consistent kind (Diagram.setTo t newTo s) := by
  obtain ⟨n, hmodel, ht⟩ := hp
  have hn := h.nodes.shown hmodel
  obtain ⟨hsource, hlisteners⟩ := h.edges.source n hn t ht
  by_cases hsame : newTo = s.goesTo t
  · have hrun : Diagram.setTo t newTo s = s := by
      rw [Diagram.setTo, hsame, Function.update_eq_self]
      exact if_pos rfl
    rwa [hrun]
  · obtain ⟨hold, hnew, hdangling⟩ := hf.resolve_left hsame n hn ht
    let s₁ : Diagram N T := { s with goesTo := Function.update s.goesTo t newTo }
    have hrun : Diagram.setTo t newTo s =
        (s₁.departFrom (s.destination kind n t) t).arriveAt (s.findRegistered newTo) t := by
      have hroot : (s₁.source t).bind s₁.getRootContainer = some () := by
        change (s.source t).bind s.getRootContainer = some ()
        rw [hsource, Option.bind_some]
        exact getRootContainer_of_inModel h hmodel
      rw [Diagram.setTo, if_neg (Ne.symm hsame), hlisteners, Function.iterate_one]
      refine (toChange_run hroot).trans ?_
      change (s₁.departFrom (s.findRegistered (s.goesTo t)) t).arriveAt _ t = _
      rw [hold]
      rfl
    have hdetach : Edges s.Shown s.transitions
        (fun k => Function.update (s.destination kind k) t none)
        (s₁.departFrom (s.destination kind n t) t) :=
      Edges.detach (s := s₁) { h.edges with } hn ht
    have hkept : (s₁.departFrom (s.destination kind n t) t).danglingEdges = s.danglingEdges := by
      cases s.destination kind n t <;> rfl
    have hattach := hdetach.attach (d := s.findRegistered newTo) hn ht (Function.update_self ..)
      fun hd c => hkept ▸ hdangling hd c
    have helements : (Diagram.setTo t newTo s).toElements = s₁.toElements := by
      rw [hrun, toElements_arriveAt, toElements_departFrom]
    refine ⟨?_, ?_, ?_⟩
    · rw [helements]
      exact h.nodes.congr rfl rfl rfl rfl
    · rw [helements]
      exact h.separate
    · rw [helements, hrun]
      refine hattach.congr (fun _ _ => rfl) fun k hk u hu => ?_
      by_cases hut : u = t
      · subst hut
        rw [Function.update_self, hnew, h.separate.source k n u hu ht]
        change s.toView.destination kind n (Function.update s.goesTo u newTo u) = _
        rw [Function.update_self]
      · rw [Function.update_of_ne hut, Function.update_of_ne hut]
        change s.toView.destination kind k (Function.update s.goesTo t newTo u) = _
        rw [Function.update_of_ne hut]
        rfl

/-! ## Names -/

theorem updateArrivingEdges_run {n : N} {name : Option String} (fuel : ℕ) {i : ℕ}
    (hi : i + fuel = (s.arrivingEdges n).length)
    (hlisteners : ∀ t ∈ s.arrivingEdges n, s.edgeListeners t = 1) :
    s.updateArrivingEdges n name fuel i = { s with
      goesTo := fun t => if t ∈ (s.arrivingEdges n).drop i then name else s.goesTo t } := by
  induction fuel generalizing s i with
  | zero =>
    rw [Diagram.updateArrivingEdges, List.drop_eq_nil_of_le (by omega)]
    simp
  | succ fuel ih =>
    have hlt : i < (s.arrivingEdges n).length := by omega
    have hone := hlisteners _ (List.getElem_mem hlt)
    have hset : ((s.removeEdgeListener (s.arrivingEdges n)[i]).setTo (s.arrivingEdges n)[i]
        name).addEdgeListener (s.arrivingEdges n)[i] = { s with
          goesTo := Function.update s.goesTo (s.arrivingEdges n)[i] name } := by
      rw [Diagram.setTo]
      simp [Diagram.removeEdgeListener, Diagram.addEdgeListener, hone]
    have hlength : i + 1 + fuel = (s.arrivingEdges n).length := by omega
    have hrest := ih
      (s := { s with goesTo := Function.update s.goesTo (s.arrivingEdges n)[i] name })
      hlength hlisteners
    rw [Diagram.updateArrivingEdges, List.getElem?_eq_getElem hlt]
    dsimp only
    rw [hset, hrest]
    congr 2
    funext t
    change (if t ∈ (s.arrivingEdges n).drop (i + 1) then name
      else Function.update s.goesTo (s.arrivingEdges n)[i] name t) = _
    rw [List.drop_eq_getElem_cons hlt]
    by_cases ht : t = (s.arrivingEdges n)[i]
    · rw [ht, Function.update_self, ite_self, if_pos List.mem_cons_self]
    · simp only [Function.update_of_ne ht, List.mem_cons, ht, false_or]

theorem Consistent.setName (h : Consistent kind s) {n : N} {name : Option String}
    (hp : Proper s (.setName n name)) (hf : Followed kind s (.setName n name)) :
    Consistent kind (Diagram.setName kind n name s) := by
  have hn := h.nodes.shown hp
  by_cases hsame : name = s.name n
  · have hrun : Diagram.setName kind n name s = s := by
      rw [Diagram.setName, hsame, Function.update_eq_self]
      exact if_pos rfl
    rwa [hrun]
  · have hdestination := hf.resolve_left hsame
    have hlisteners : ∀ t ∈ s.arrivingEdges n, s.edgeListeners t = 1 := by
      intro t ht
      obtain ⟨k, hk, htk, -⟩ := (h.edges.mem_arriving n hn t).1 ht
      exact (h.edges.source k hk t htk).2
    let s₁ : Diagram N T := { s with name := Function.update s.name n name }
    have hrun : Diagram.setName kind n name s =
        { s₁ with goesTo := renamedTo kind s n name } := by
      rw [Diagram.setName, if_neg (Ne.symm hsame), h.nodes.nodeListeners n hn,
        Function.iterate_one, Diagram.nameChange]
      by_cases hkind : kind n = .superState
      · rw [if_pos hkind]
        have hgoes : renamedTo kind s n name = s.goesTo := by
          funext t
          simp [renamedTo, hkind]
        rw [hgoes]
      · rw [if_neg hkind]
        refine (updateArrivingEdges_run (s := s₁) (i := 0) (s.arrivingEdges n).length
          (Nat.zero_add _) hlisteners).trans ?_
        congr 2
        funext t
        simp [renamedTo, hkind, s₁]
    rw [hrun]
    refine ⟨?_, h.separate, ?_⟩
    · exact { h.nodes with }
    · have hedges : Edges s.Shown s.transitions (s.destination kind)
          { s₁ with goesTo := renamedTo kind s n name } := { h.edges with }
      exact hedges.congr (fun _ _ => rfl) hdestination

end Consistent

end Designer

end Jbpm
