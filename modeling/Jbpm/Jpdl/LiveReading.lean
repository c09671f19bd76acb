/-
  Process definitions as they are read: every node is added to its collection before it has
  its name, and transitions are resolved by lookups in the collections, with the maps that
  these make.

  * `Live.read`: the reader over the collections of `NodeCollections`;
  * `Shows`, `Reflects`: collections that show the records of `Jpdl.Reading`;
  * `findNode_shows`: a lookup by a path finds the same in both;
  * `readNodes_agree`: a pass through the elements keeps that they agree;
  * `live_read_eq`: the two readers read the same.
-/
import Jbpm.Graph.NodeCollections
import Jbpm.Jpdl.DefinitionXml

namespace Jbpm

namespace Jpdl

namespace Live

open Jbpm.Graph

/-- The classes of the nodes, which are numbered as they are read. -/
def classes (types : List NodeType) : NodeClasses ℕ where
  isSuperState n := types[n]? = some .superState
  isStartState n := types[n]? = some .startState

/-- The nodes that were read, with their transition elements, and the number of problems that
    were added. -/
structure Reader where
  types : List NodeType
  unresolvedTransitionDestinations : List (List TransitionElement)
  collections : NodeCollections ℕ
  problems : ℕ

/-- A node is put into its collection, with its type known and its name not yet. -/
def Reader.addNode (r : Reader) (c : Option ℕ) (type : NodeType)
    (transitions : List TransitionElement) : Reader :=
  let n := r.types.length
  let types := r.types ++ [type]
  { r with
    types := types
    unresolvedTransitionDestinations := r.unresolvedTransitionDestinations ++ [transitions]
    collections := ((r.collections.setProcessDefinition n).addNode (classes types) c (some n)).2 }

/-- `node.setName(name)`, if there is a name. -/
def Reader.setName (r : Reader) (n : ℕ) (name : Option String) : Except Exn Reader :=
  match name with
  | none => .ok r
  | some name =>
    match r.collections.setName n (some name) with
    | (.error _, _) => .error .duplicateName
    | (.ok (), s) => .ok { r with collections := s }

variable {C : Type} (E : Contents C)

mutual

/-- A second start state is a problem, after which the reader goes on with the next element. -/
def readNode (initial : Option String) (c : Option ℕ) (path : Option String) :
    Element C → Reader → Except Exn Reader
  | .mk tag name transitions content elements, r =>
    match NodeType.getNodeType tag with
    | none => .ok r
    | some type =>
      if type = .startState ∧ r.collections.startState.isSome then
        .ok { r with problems := r.problems + 1 }
      else
        let n := r.types.length
        match (r.addNode c type transitions).setName n name with
        | .error e => .error e
        | .ok r =>
          let isInitial := name.any fun name => initial == some (getFullyQualifiedName path name)
          let r :=
            if isInitial then { r with collections := { r.collections with startState := some n } }
            else r
          if E.readFails content then .error .content
          else if type = .superState then
            readNodes initial (some n) (some (getFullyQualifiedName path (name.getD "null")))
              elements r
          else .ok r

def readNodes (initial : Option String) (c : Option ℕ) (path : Option String) :
    List (Element C) → Reader → Except Exn Reader
  | [], r => .ok r
  | e :: es, r =>
    match readNode initial c path e r with
    | .error e => .error e
    | .ok r => readNodes initial c path es r

end

/-- The loop of `findNode`, with the lookups of the collections. -/
def findPart (T : NodeClasses ℕ) (c : Option ℕ) :
    List String → NodeCollections ℕ → Except Exn (Option ℕ) × NodeCollections ℕ
  | [], s => (.ok none, s)
  | namePart :: rest, s =>
    if namePart = ".." then
      match c with
      | none => (.error .noParent, s)
      | some k => findPart T (s.superState k) rest s
    else
      match s.getNode c (some namePart) with
      | (.error _, s) => (.error .nullPointer, s)
      | (.ok node, s) =>
        if rest = [] then (.ok node, s)
        else
          match node with
          | none => (.error .nullPointer, s)
          | some k =>
            if T.isSuperState k then findPart T (some k) rest s else (.error .classCast, s)

def findNode (T : NodeClasses ℕ) (c : Option ℕ) (hierarchicalName : String)
    (s : NodeCollections ℕ) : Except Exn (Option ℕ) × NodeCollections ℕ :=
  if isBlank hierarchicalName then (.ok none, s)
  else
    findPart T (if hierarchicalName.toList.head? = some '/' then none else c)
      (parts hierarchicalName) s

/-- A transition of a node: its destination is looked up from where the node is. -/
def resolveTransitionDestination (types : List NodeType) (n : ℕ) (t : TransitionElement)
    (s : NodeCollections ℕ) : Except Exn (Transition ℕ) × NodeCollections ℕ :=
  if types[n]? = some .endState then (.error .leavingEndState, s)
  else
    match t.toName with
    | none => (.ok ⟨t.name, none⟩, s)
    | some toName =>
      match findNode (classes types) (s.superState n) toName s with
      | (.error e, s) => (.error e, s)
      | (.ok none, s) => (.ok ⟨t.name, none⟩, s)
      | (.ok (some d), s) =>
        if types[d]? = some .startState then (.error .arrivingStartState, s)
        else (.ok ⟨t.name, some d⟩, s)

/-- A loop that may throw, over a state. -/
def mapAll {α β σ : Type} (f : α → σ → Except Exn β × σ) : List α → σ → Except Exn (List β) × σ
  | [], s => (.ok [], s)
  | a :: as, s =>
    match f a s with
    | (.error e, s) => (.error e, s)
    | (.ok b, s) =>
      match mapAll f as s with
      | (.error e, s) => (.error e, s)
      | (.ok bs, s) => (.ok (b :: bs), s)

def resolveTransitionDestinations (r : Reader) :
    Except Exn (List (List (Transition ℕ))) × NodeCollections ℕ :=
  mapAll (fun nts => mapAll (resolveTransitionDestination r.types nts.2) nts.1)
    r.unresolvedTransitionDestinations.zipIdx r.collections

/-- The nodes as they are in the end. -/
def graph (r : Reader) (s : NodeCollections ℕ) (leaving : List (List (Transition ℕ))) :
    Graph ℕ where
  nodes := List.range r.types.length
  node k :=
    match r.types[k]?, leaving[k]? with
    | some type, some leavingTransitions => ⟨type, s.name k, s.superState k, leavingTransitions⟩
    | _, _ => ⟨.node, none, none, []⟩
  startState := s.startState

def start : Reader where
  types := []
  unresolvedTransitionDestinations := []
  collections := .initial fun _ => none
  problems := 0

/-- `readProcessDefinition`: if there were problems, there is no definition. -/
def read (doc : Document C) : Option (Graph ℕ) :=
  if E.readFails doc.content then none
  else
    match readNodes E doc.initial none none doc.elements start with
    | .error _ => none
    | .ok r =>
      match resolveTransitionDestinations r with
      | (.error _, _) => none
      | (.ok leaving, s) => if r.problems = 0 then some (graph r s leaving) else none

/-! ## Collections that reflect records -/

/-- The collections have the nodes of the records where the records say, under their names. -/
structure Shows (rs : List Record) (s : NodeCollections ℕ) : Prop where
  consistent : s.Consistent (classes (rs.map Record.type))
  mem : ∀ {c n}, n ∈ s.contents c ↔ ∃ x, rs[n]? = some x ∧ x.superState = c
  null : ∀ {c}, s.nodes c = none ↔ s.contents c = []
  name : ∀ n, s.name n = rs[n]?.bind Record.name
  superState : ∀ n, s.superState n = rs[n]?.bind Record.superState
  lt : ∀ {n p}, s.superState n = some p → p < n

/-- A collection in which nodes can be: the process definition, or a super-state. -/
def IsCollection (rs : List Record) (c : Option ℕ) : Prop :=
  ∀ p, c = some p → ∃ x, rs[p]? = some x ∧ x.type = .superState

variable {rs : List Record} {s s' : NodeCollections ℕ} {c : Option ℕ} {n : ℕ}

theorem isSuperState_classes (rs : List Record) (p : ℕ) :
    (classes (rs.map Record.type)).isSuperState p = rs[p]?.any (·.type = .superState) := by
  show decide ((rs.map Record.type)[p]? = some .superState) = _
  rw [List.getElem?_map]
  rcases rs[p]? with _ | x
  · rfl
  · simp only [Option.map_some, Option.some_inj, Option.any_some]

theorem IsCollection.isSuperState (h : IsCollection rs c) {p : ℕ} (hp : c = some p) :
    (classes (rs.map Record.type)).isSuperState p = true := by
  obtain ⟨x, hx, htype⟩ := h p hp
  rw [isSuperState_classes, hx, Option.any_some, decide_eq_true htype]

theorem IsCollection.append (h : IsCollection rs c) (rs' : List Record) :
    IsCollection (rs ++ rs') c := by
  intro p hp
  obtain ⟨x, hx, htype⟩ := h p hp
  exact ⟨x, by rw [List.getElem?_append_left (List.getElem?_eq_some_iff.1 hx).1, hx], htype⟩

theorem Shows.of_reads (h : Shows rs s)
    (hr : NodeCollections.Reads (classes (rs.map Record.type)) s s') : Shows rs s' where
  consistent := hr.consistent
  mem := by
    intro c n
    rw [hr.contents]
    exact h.mem
  null := by
    intro c
    rw [hr.contents, hr.nodes]
    exact h.null
  name n := by rw [hr.name, h.name]
  superState n := by rw [hr.superState, h.superState]
  lt := by
    intro n p hp
    rw [hr.superState] at hp
    exact h.lt hp

/-! ## The second pass -/

theorem contents_eq_nil (h : Shows rs s) :
    s.contents c = [] ↔ rs.any (fun x => x.superState = c) = false := by
  rw [List.eq_nil_iff_forall_not_mem, Bool.eq_false_iff, Ne, List.any_eq_true]
  constructor
  · rintro hnil ⟨x, hx, hc⟩
    obtain ⟨n, hn⟩ := List.mem_iff_getElem?.1 hx
    exact hnil n (h.mem.2 ⟨x, hn, of_decide_eq_true hc⟩)
  · intro hany n hn
    obtain ⟨x, hx, hc⟩ := h.mem.1 hn
    exact hany ⟨x, List.mem_of_getElem? hx, decide_eq_true hc⟩

/-- What is found under a name. -/
theorem getNode_eq (h : Shows rs s) {x : Option ℕ} {k : String}
    (hx : ∀ n, x = some n ↔ n ∈ s.contents c ∧ s.name n = some k) :
    x = getNode rs c k := by
  have hiff : ∀ n, (rs[n]?.any fun r => decide (r.superState = c) && decide (r.name = some k)) =
      true ↔ x = some n := by
    intro n
    rw [hx, h.mem, h.name]
    rcases rs[n]? with _ | r
    · simp
    · simp
  rw [getNode]
  rcases x with _ | n
  · refine (List.find?_eq_none.2 fun n _ hn => ?_).symm
    exact absurd ((hiff n).1 hn) (Option.some_ne_none n).symm
  · obtain ⟨r, hr, -⟩ := h.mem.1 ((hx n).1 rfl).1
    have hmem : n ∈ List.range rs.length := List.mem_range.2 (List.getElem?_eq_some_iff.1 hr).1
    have hsome : ((List.range rs.length).find? fun n =>
        rs[n]?.any fun r => decide (r.superState = c) && decide (r.name = some k)).isSome :=
      List.find?_isSome.2 ⟨n, hmem, (hiff n).2 rfl⟩
    obtain ⟨m, hm⟩ := Option.isSome_iff_exists.1 hsome
    have hfound := List.find?_some hm
    rw [hm]
    exact (hiff m).1 hfound

theorem findPart_shows {T : NodeClasses ℕ} (hT : T = classes (rs.map Record.type)) :
    ∀ (ps : List String) (c : Option ℕ) {s : NodeCollections ℕ}, Shows rs s →
      (findPart T c ps s).1 = Jpdl.findPart rs c ps ∧ Shows rs (findPart T c ps s).2
  | [], _, _, h => ⟨rfl, h⟩
  | namePart :: rest, c, s, h => by
    subst hT
    rw [Live.findPart.eq_def, Jpdl.findPart.eq_def]
    dsimp only
    by_cases hup : namePart = ".."
    · rw [if_pos hup, if_pos hup]
      cases c with
      | none => exact ⟨rfl, h⟩
      | some k =>
        dsimp only
        rw [h.superState]
        exact findPart_shows rfl rest _ h
    rw [if_neg hup, if_neg hup]
    by_cases hnull : c ≠ none ∧ s.nodes c = none
    · obtain ⟨p, rfl⟩ := Option.ne_none_iff_exists'.1 hnull.1
      have hany := (contents_eq_nil h).1 (h.null.1 hnull.2)
      rw [NodeCollections.getNode_null h.consistent hnull.2, if_pos (by rw [hany]; rfl)]
      exact ⟨rfl, h⟩
    · have hc : c = none ∨ s.nodes c ≠ none := by
        by_cases hc : c = none
        · exact .inl hc
        · exact .inr fun hn => hnull ⟨hc, hn⟩
      obtain ⟨x, s', hx, hr, hspec⟩ :=
        NodeCollections.getNode_spec h.consistent hc (some namePart)
      have hs' := h.of_reads hr
      have hany : ¬ (c.isSome && !rs.any (fun r => r.superState = c)) = true := by
        rcases hc with rfl | hc
        · simp
        · rw [Ne, h.null, contents_eq_nil h, Bool.not_eq_false] at hc
          rw [hc, Bool.not_true, Bool.and_false]
          exact Bool.false_ne_true
      rw [hx, if_neg hany, ← getNode_eq h (hspec namePart rfl)]
      dsimp only
      by_cases hrest : rest = []
      · rw [if_pos hrest, if_pos hrest]
        exact ⟨rfl, hs'⟩
      rw [if_neg hrest, if_neg hrest]
      rcases x with _ | k
      · exact ⟨rfl, hs'⟩
      dsimp only
      rw [isSuperState_classes]
      by_cases hk : rs[k]?.any (·.type = .superState) = true
      · rw [if_pos hk, if_pos hk]
        exact findPart_shows rfl rest _ hs'
      · rw [if_neg hk, if_neg hk]
        exact ⟨rfl, hs'⟩

/-- **Lookups by a path.**  The maps that are there do not matter. -/
theorem findNode_shows (h : Shows rs s) (c : Option ℕ) (hierarchicalName : String) :
    (findNode (classes (rs.map Record.type)) c hierarchicalName s).1 =
        Jpdl.findNode rs c hierarchicalName ∧
      Shows rs (findNode (classes (rs.map Record.type)) c hierarchicalName s).2 := by
  rw [findNode, Jpdl.findNode]
  split
  · exact ⟨rfl, h⟩
  · exact findPart_shows rfl _ _ h

theorem resolveTransitionDestination_shows (h : Shows rs s) {x : Record} (hx : rs[n]? = some x)
    (t : TransitionElement) :
    (resolveTransitionDestination (rs.map Record.type) n t s).1 =
        Jpdl.resolveTransitionDestination rs x t ∧
      Shows rs (resolveTransitionDestination (rs.map Record.type) n t s).2 := by
  have htype : ∀ m, (rs.map Record.type)[m]? = rs[m]?.map Record.type := fun m =>
    List.getElem?_map
  rw [resolveTransitionDestination, Jpdl.resolveTransitionDestination, htype, hx,
    Option.map_some]
  by_cases hend : x.type = .endState
  · rw [if_pos (congrArg some hend), if_pos hend]
    exact ⟨rfl, h⟩
  rw [if_neg fun heq => hend (Option.some.inj heq), if_neg hend]
  rcases t.toName with _ | toName
  · exact ⟨rfl, h⟩
  dsimp only
  obtain ⟨hfind, hshows⟩ := findNode_shows h (s.superState n) toName
  rw [h.superState, hx, Option.bind_some] at hfind hshows ⊢
  rcases hlive : findNode (classes (rs.map Record.type)) x.superState toName s with ⟨r, s'⟩
  rw [hlive] at hfind hshows
  dsimp only at hfind hshows ⊢
  rw [← hfind]
  rcases r with e | _ | d
  · exact ⟨rfl, hshows⟩
  · exact ⟨rfl, hshows⟩
  · dsimp only
    rw [htype]
    rcases hd : rs[d]? with _ | y
    · rw [Option.map_none, if_neg (Option.some_ne_none _).symm, Option.any_none,
        if_neg Bool.false_ne_true]
      exact ⟨rfl, hshows⟩
    · rw [Option.map_some, Option.any_some]
      by_cases hstart : y.type = .startState
      · rw [if_pos (congrArg some hstart), if_pos (decide_eq_true hstart)]
        exact ⟨rfl, hshows⟩
      · rw [if_neg fun heq => hstart (Option.some.inj heq),
          if_neg fun heq => hstart (of_decide_eq_true heq)]
        exact ⟨rfl, hshows⟩

theorem mapAll_eq {α β σ : Type} {I : σ → Prop} {f : α → σ → Except Exn β × σ}
    {g : α → Except Exn β} :
    ∀ {as : List α}, (∀ a ∈ as, ∀ s, I s → (f a s).1 = g a ∧ I (f a s).2) → ∀ {s : σ}, I s →
      (mapAll f as s).1 = as.mapM g ∧ I (mapAll f as s).2
  | [], _, _, hs => ⟨rfl, hs⟩
  | a :: as, h, s, hs => by
    obtain ⟨hfirst, hI⟩ := h a List.mem_cons_self s hs
    rw [mapAll, List.mapM_cons]
    rcases hf : f a s with ⟨e | b, s'⟩
    · rw [hf] at hfirst hI
      rw [← hfirst]
      exact ⟨rfl, hI⟩
    · rw [hf] at hfirst hI
      rw [← hfirst]
      obtain ⟨hrest, hI'⟩ := mapAll_eq (fun a ha => h a (List.mem_cons_of_mem _ ha)) hI
      dsimp only
      rcases hfs : mapAll f as s' with ⟨e | bs, s''⟩
      · rw [hfs] at hrest hI'
        rw [← hrest]
        exact ⟨rfl, hI'⟩
      · rw [hfs] at hrest hI'
        rw [← hrest]
        exact ⟨rfl, hI'⟩

theorem startState_getNode (s : NodeCollections ℕ) (c : Option ℕ) (name : Option String) :
    (s.getNode c name).2.startState = s.startState := by
  have hmap : (s.getNodesMap c).2.startState = s.startState := by
    rw [NodeCollections.getNodesMap]
    rcases s.nodesMap c with _ | m
    · dsimp only
      split <;> rfl
    · rfl
  rw [NodeCollections.getNode]
  split
  · rfl
  · rcases hm : s.getNodesMap c with ⟨_ | m, s'⟩
    · rw [hm] at hmap
      exact hmap
    · rw [hm] at hmap
      exact hmap

theorem startState_findPart (T : NodeClasses ℕ) :
    ∀ (ps : List String) (c : Option ℕ) (s : NodeCollections ℕ),
      (findPart T c ps s).2.startState = s.startState
  | [], _, _ => rfl
  | namePart :: rest, c, s => by
    rw [Live.findPart.eq_def]
    dsimp only
    split
    · cases c with
      | none => rfl
      | some k => exact startState_findPart T rest _ s
    · have hget := startState_getNode s c (some namePart)
      rcases hx : s.getNode c (some namePart) with ⟨e | x, s'⟩
      · rw [hx] at hget
        exact hget
      · rw [hx] at hget
        dsimp only
        split
        · exact hget
        · cases x with
          | none => exact hget
          | some k =>
            dsimp only
            split
            · exact (startState_findPart T rest _ s').trans hget
            · exact hget

theorem startState_resolve (types : List NodeType) (n : ℕ) (t : TransitionElement)
    (s : NodeCollections ℕ) :
    (resolveTransitionDestination types n t s).2.startState = s.startState := by
  rw [resolveTransitionDestination]
  split
  · rfl
  rcases t.toName with _ | toName
  · rfl
  dsimp only
  have hfind : (findNode (classes types) (s.superState n) toName s).2.startState =
      s.startState := by
    rw [findNode]
    split
    · rfl
    · exact startState_findPart _ _ _ s
  rcases hx : findNode (classes types) (s.superState n) toName s with ⟨e | _ | d, s'⟩
  all_goals rw [hx] at hfind
  · exact hfind
  · exact hfind
  · dsimp only
    split
    · exact hfind
    · exact hfind

theorem mapM_zipIdx {α : Type} {g : Record → Except Exn α}
    {g' : List TransitionElement × ℕ → Except Exn α} :
    ∀ (rs' : List Record) (k : ℕ), (∀ i x, rs'[i]? = some x → g' (x.transitions, k + i) = g x) →
      ((rs'.map Record.transitions).zipIdx k).mapM g' = rs'.mapM g
  | [], _, _ => rfl
  | x :: rs', k, h => by
    have hx : g' (x.transitions, k) = g x := h 0 x rfl
    rw [List.map_cons, List.zipIdx_cons, List.mapM_cons, List.mapM_cons, hx,
      mapM_zipIdx rs' (k + 1) fun i y hy => by
        rw [Nat.add_assoc, Nat.add_comm 1 i]
        exact h (i + 1) y hy]

/-- **The second pass.**  Every transition is resolved as from the records. -/
theorem resolveTransitionDestinations_eq {s : Reading} {r : Reader}
    (htypes : r.types = s.nodes.map Record.type)
    (htransitions : r.unresolvedTransitionDestinations = s.nodes.map Record.transitions)
    (h : Shows s.nodes r.collections) :
    (resolveTransitionDestinations r).1 = Jpdl.resolveTransitionDestinations s.nodes ∧
      Shows s.nodes (resolveTransitionDestinations r).2 ∧
      (resolveTransitionDestinations r).2.startState = r.collections.startState := by
  let g' : List TransitionElement × ℕ → Except Exn (List (Transition ℕ)) := fun nts =>
    match s.nodes[nts.2]? with
    | some x => nts.1.mapM (Jpdl.resolveTransitionDestination s.nodes x)
    | none => .ok []
  have hzip : (s.nodes.map Record.transitions).zipIdx.mapM g' =
      Jpdl.resolveTransitionDestinations s.nodes := by
    rw [Jpdl.resolveTransitionDestinations]
    refine mapM_zipIdx s.nodes 0 fun i x hx => ?_
    show (match s.nodes[0 + i]? with
      | some x' => x.transitions.mapM (Jpdl.resolveTransitionDestination s.nodes x')
      | none => .ok []) = _
    rw [Nat.zero_add, hx]
  rw [resolveTransitionDestinations, htypes, htransitions, ← hzip]
  refine mapAll_eq (I := fun s' => Shows s.nodes s' ∧ s'.startState = r.collections.startState)
    (fun nts hnts s' hs' => ?_) ⟨h, rfl⟩
  obtain ⟨ts, n⟩ := nts
  rw [List.mem_zipIdx_iff_getElem?, List.getElem?_map, Option.map_eq_some_iff] at hnts
  obtain ⟨x, hx, rfl⟩ := hnts
  have hg' : g' (x.transitions, n) =
      x.transitions.mapM (Jpdl.resolveTransitionDestination s.nodes x) := by
    show (match s.nodes[n]? with
      | some x' => x.transitions.mapM (Jpdl.resolveTransitionDestination s.nodes x')
      | none => .ok []) = _
    rw [hx]
  rw [hg']
  refine mapAll_eq (I := fun s' => Shows s.nodes s' ∧ s'.startState = r.collections.startState)
    (fun t _ s'' hs'' => ?_) hs'
  obtain ⟨heq, hshows⟩ := resolveTransitionDestination_shows hs''.1 hx t
  exact ⟨heq, hshows, (startState_resolve _ n t s'').trans hs''.2⟩

/-! ## The first pass -/

/-- A node is put into its collection. -/
theorem Shows.addNode (h : Shows rs s) {r : Record} (hname : r.name = none)
    (hc : IsCollection rs r.superState) :
    Shows (rs ++ [r]) ((s.setProcessDefinition rs.length).addNode
      (classes ((rs ++ [r]).map Record.type)) r.superState (some rs.length)).2 := by
  have hlast : rs[rs.length]? = none := List.getElem?_eq_none le_rfl
  have hget : ∀ {n}, n ≠ rs.length → (rs ++ [r])[n]? = rs[n]? := by
    intro n hn
    rw [List.getElem?_append]
    split
    · rfl
    · next hlt =>
      rw [List.getElem?_eq_none (by rw [List.length_singleton]; omega),
        List.getElem?_eq_none (by omega)]
  have hget' : (rs ++ [r])[rs.length]? = some r := List.getElem?_concat_length ..
  have hmono : ∀ p, (classes (rs.map Record.type)).isSuperState p = true →
      (classes ((rs ++ [r]).map Record.type)).isSuperState p = true := by
    intro p hp
    rw [isSuperState_classes] at hp ⊢
    rw [hget]
    · exact hp
    · rintro rfl
      rw [hlast] at hp
      cases hp
  have hset : (s.setProcessDefinition rs.length).Consistent
      (classes ((rs ++ [r]).map Record.type)) :=
    (h.consistent.setProcessDefinition rs.length).mono hmono
  have hfree : (s.setProcessDefinition rs.length).Free (classes ((rs ++ [r]).map Record.type))
      r.superState rs.length := by
    refine ⟨fun c' hn => ?_, fun hne => ?_, fun p hp => hmono p (hc.isSuperState hp),
      fun p hp hwithin => ?_⟩
    · obtain ⟨x, hx, -⟩ := h.mem.1 hn
      rw [hlast] at hx
      cases hx
    · refine absurd ?_ hne
      show s.name rs.length = none
      rw [h.name, hlast, Option.bind_none]
    · obtain ⟨x, hx, -⟩ := hc p hp
      have hlt := (List.getElem?_eq_some_iff.1 hx).1
      have hle : id rs.length ≤ id p :=
        NodeCollections.depth_le_of_within (fun m q hq => h.lt hq) hwithin
      exact absurd hlt (not_lt.2 hle)
  have hcontents := NodeCollections.contents_addNode (T := classes ((rs ++ [r]).map Record.type))
    (s := s.setProcessDefinition rs.length) r.superState rs.length
  have hsuper : ∀ n, ((s.setProcessDefinition rs.length).addNode
      (classes ((rs ++ [r]).map Record.type)) r.superState (some rs.length)).2.superState n =
        (rs ++ [r])[n]?.bind Record.superState := by
    intro n
    rw [NodeCollections.superState_addNode]
    by_cases hn : n = rs.length
    · subst hn
      rw [hget', Option.bind_some]
      split
      · next hnone =>
        rw [hnone]
        show s.superState rs.length = none
        rw [h.superState, hlast, Option.bind_none]
      · exact Function.update_self ..
    · rw [hget hn, ← h.superState]
      split
      · rfl
      · exact Function.update_of_ne hn ..
  refine ⟨hset.addNode hfree, fun {c n} => ?_, fun {c} => ?_, fun n => ?_, hsuper,
    fun {n p} hp => ?_⟩
  · rw [hcontents]
    by_cases hn : n = rs.length
    · subst hn
      rw [hget']
      split
      · next hcr =>
        exact iff_of_true (List.mem_append_right _ (List.mem_singleton_self _)) ⟨r, rfl, hcr.symm⟩
      · next hcr =>
        refine iff_of_false (hfree.notMem c) ?_
        rintro ⟨x, hx, hxc⟩
        obtain rfl := Option.some.inj hx
        exact hcr hxc.symm
    · rw [hget hn, ← h.mem]
      split
      · next hcr =>
        rw [List.mem_append, List.mem_singleton, or_iff_left hn, hcr]
        exact Iff.rfl
      · exact Iff.rfl
  · have hnodes : ((s.setProcessDefinition rs.length).addNode
        (classes ((rs ++ [r]).map Record.type)) r.superState (some rs.length)).2.nodes =
          Function.update s.nodes r.superState (some (s.contents r.superState ++ [rs.length])) := by
      cases r.superState <;> rfl
    rw [hcontents, hnodes]
    by_cases hcr : c = r.superState
    · subst hcr
      rw [Function.update_self, if_pos rfl]
      exact iff_of_false (Option.some_ne_none _) (List.append_ne_nil_of_right_ne_nil _ (by simp))
    · rw [Function.update_of_ne hcr, if_neg hcr]
      exact h.null
  · rw [NodeCollections.name_addNode]
    show s.name n = _
    rw [h.name]
    by_cases hn : n = rs.length
    · subst hn
      rw [hget', hlast, Option.bind_none, Option.bind_some, hname]
    · rw [hget hn]
  · rw [hsuper] at hp
    by_cases hn : n = rs.length
    · subst hn
      rw [hget', Option.bind_some] at hp
      obtain ⟨x, hx, -⟩ := hc p hp
      exact (List.getElem?_eq_some_iff.1 hx).1
    · rw [hget hn, ← h.superState] at hp
      exact h.lt hp

/-- A name is refused if a record of the collection has it. -/
theorem Shows.setName {r : Record} (h : Shows (rs ++ [r]) s) (k : String) :
    (rs.any (fun x => decide (x.superState = r.superState) && decide (x.name = some k)) = true ∧
        ∃ s', s.setName rs.length (some k) = (.error .illegalArgument, s')) ∨
      rs.any (fun x => decide (x.superState = r.superState) && decide (x.name = some k)) = false ∧
        ∃ s', s.setName rs.length (some k) = (.ok (), s') ∧ s'.startState = s.startState ∧
          Shows (rs ++ [{ r with name := some k }]) s' := by
  have hget' : ∀ r' : Record, (rs ++ [r'])[rs.length]? = some r' := fun _ =>
    List.getElem?_concat_length ..
  have hget : ∀ {n}, n ≠ rs.length →
      (rs ++ [({ r with name := some k } : Record)])[n]? = (rs ++ [r])[n]? := by
    intro n hn
    rw [List.getElem?_append, List.getElem?_append]
    split
    · rfl
    · next hlt =>
      rw [List.getElem?_eq_none (by rw [List.length_singleton]; omega),
        List.getElem?_eq_none (by rw [List.length_singleton]; omega)]
  have hmem : rs.length ∈ s.contents r.superState := h.mem.2 ⟨r, hget' r, rfl⟩
  have hcareful : s.superState rs.length = none → s.processDefinition rs.length = true →
      rs.length ∈ s.contents none := by
    intro hnone _
    rw [h.superState, hget', Option.bind_some] at hnone
    rwa [hnone] at hmem
  have hused : rs.any (fun x => decide (x.superState = r.superState) && decide (x.name = some k)) =
      true ↔ ∃ n', s.Sibling rs.length n' ∧ n' ≠ rs.length ∧ s.name n' = some k := by
    rw [List.any_eq_true]
    constructor
    · rintro ⟨x, hx, hxk⟩
      obtain ⟨n', hn'⟩ := List.mem_iff_getElem?.1 hx
      have hlt := (List.getElem?_eq_some_iff.1 hn').1
      have hn'' : (rs ++ [r])[n']? = some x := by rw [List.getElem?_append_left hlt, hn']
      rw [Bool.and_eq_true, decide_eq_true_iff, decide_eq_true_iff] at hxk
      refine ⟨n', ⟨r.superState, hmem, h.mem.2 ⟨x, hn'', hxk.1⟩⟩, hlt.ne, ?_⟩
      rw [h.name, hn'', Option.bind_some, hxk.2]
    · rintro ⟨n', ⟨c, hc, hc'⟩, hne, hk⟩
      obtain rfl := h.consistent.collection_unique hc hmem
      obtain ⟨x, hx, hxc⟩ := h.mem.1 hc'
      have hlt : n' < rs.length := by
        have hlen := (List.getElem?_eq_some_iff.1 hx).1
        rw [List.length_append, List.length_singleton] at hlen
        omega
      rw [h.name, hx, Option.bind_some] at hk
      rw [List.getElem?_append_left hlt] at hx
      exact ⟨x, List.mem_of_getElem? hx,
        Bool.and_eq_true_iff.2 ⟨decide_eq_true hxc, decide_eq_true hk⟩⟩
  obtain ⟨s', hs', -, hrefused⟩ | ⟨s', hs', hr, hfree⟩ :=
    NodeCollections.setName_spec h.consistent hcareful (some k)
  · exact .inl ⟨hused.2 (hrefused k rfl), s', hs'⟩
  · refine .inr ⟨?_, s', hs', hr.startState, ?_⟩
    · rw [← Bool.not_eq_true, hused]
      rintro ⟨n', hn', hne, hk⟩
      exact hne (hfree k rfl n' hn' hk)
    have hcontents : ∀ c, s'.contents c = s.contents c := fun c => by
      rw [NodeCollections.contents, hr.nodes, NodeCollections.contents]
    have hsuper : ∀ n : ℕ,
        (rs ++ [({ r with name := some k } : Record)])[n]?.bind Record.superState =
          (rs ++ [r])[n]?.bind Record.superState := by
      intro n
      by_cases hn : n = rs.length
      · subst hn
        rw [hget', hget']
        rfl
      · rw [hget hn]
    have hmem' : ∀ (c : Option ℕ) (n : ℕ), (∃ x,
        (rs ++ [({ r with name := some k } : Record)])[n]? = some x ∧ x.superState = c) ↔
          ∃ x, (rs ++ [r])[n]? = some x ∧ x.superState = c := by
      intro c n
      by_cases hn : n = rs.length
      · subst hn
        rw [hget', hget']
        simp only [Option.some_inj, exists_eq_left']
      · rw [hget hn]
    refine ⟨?_, fun {c n} => ?_, fun {c} => ?_, fun n => ?_, fun n => ?_, fun {n p} hp => ?_⟩
    · have hset := h.consistent.setName hcareful (some k)
      rw [hs', List.map_append] at hset
      rw [List.map_append]
      exact hset
    · rw [hcontents, hmem', h.mem]
    · rw [hcontents, hr.nodes]
      exact h.null
    · rw [hr.name]
      by_cases hn : n = rs.length
      · subst hn
        rw [Function.update_self, hget', Option.bind_some]
      · rw [Function.update_of_ne hn, h.name, hget hn]
    · rw [hr.superState, h.superState, hsuper]
    · rw [hr.superState] at hp
      exact h.lt hp

/-- The reader's collections show the records, and there were no problems yet. -/
structure Reflects (s : Reading) (r : Reader) : Prop where
  types : r.types = s.nodes.map Record.type
  transitions : r.unresolvedTransitionDestinations = s.nodes.map Record.transitions
  shows : Shows s.nodes r.collections
  startState : r.collections.startState = s.startState
  problems : r.problems = 0

theorem startState_addNode (s : NodeCollections ℕ) (T : NodeClasses ℕ) (c : Option ℕ) (n : ℕ) :
    ((s.setProcessDefinition n).addNode T c (some n)).2.startState =
      if T.isStartState n ∧ c = none ∧ s.startState = none then some n else s.startState := by
  cases c with
  | none =>
    show (if T.isStartState n ∧ s.startState = none then _ else _) = _
    simp only [true_and]
    rfl
  | some p =>
    rw [if_neg fun h => Option.some_ne_none p h.2.1]
    rfl

/-- A node is read into its collection and gets its name, if no other node has it. -/
theorem Reflects.addNode {s : Reading} {r : Reader} (h : Reflects s r)
    (hc : IsCollection s.nodes c) (type : NodeType) (name : Option String)
    (transitions : List TransitionElement) :
    (name.any (s.hasNode c) = true ∧
        (r.addNode c type transitions).setName r.types.length name = .error .duplicateName) ∨
      name.any (s.hasNode c) = false ∧
        ∃ r', (r.addNode c type transitions).setName r.types.length name = .ok r' ∧
          Reflects (s.addNode ⟨type, name, c, transitions⟩) r' := by
  have hlen : r.types.length = s.nodes.length := by rw [h.types, List.length_map]
  have hadded := h.shows.addNode (r := ⟨type, none, c, transitions⟩) rfl hc
  have hstart : (r.addNode c type transitions).collections.startState =
      if type = .startState ∧ c = none ∧ s.startState = none then some s.nodes.length
      else s.startState := by
    rw [Reader.addNode]
    dsimp only
    rw [startState_addNode, h.startState, hlen]
    refine if_congr (and_congr_left fun _ => ?_) rfl rfl
    show decide ((r.types ++ [type])[s.nodes.length]? = some .startState) = true ↔ _
    rw [← hlen, List.getElem?_concat_length, decide_eq_true_iff, Option.some_inj]
  have hcollections : (r.addNode c type transitions).collections =
      ((r.collections.setProcessDefinition s.nodes.length).addNode
        (classes ((s.nodes ++ [(⟨type, none, c, transitions⟩ : Record)]).map Record.type)) c
        (some s.nodes.length)).2 := by
    rw [Reader.addNode, hlen, h.types, List.map_append]
    rfl
  rw [← hcollections] at hadded
  have htypes : (r.addNode c type transitions).types =
      (s.nodes ++ [(⟨type, name, c, transitions⟩ : Record)]).map Record.type := by
    rw [Reader.addNode, h.types, List.map_append]
    rfl
  have htransitions : (r.addNode c type transitions).unresolvedTransitionDestinations =
      (s.nodes ++ [(⟨type, name, c, transitions⟩ : Record)]).map Record.transitions := by
    rw [Reader.addNode, h.transitions, List.map_append]
    rfl
  cases name with
  | none => exact .inr ⟨rfl, _, rfl, htypes, htransitions, hadded, hstart, h.problems⟩
  | some k =>
    rw [hlen, Reader.setName]
    obtain ⟨hused, s', hs'⟩ | ⟨hfree, s', hs', hstart', hshows⟩ := hadded.setName k
    · refine .inl ⟨hused, ?_⟩
      rw [hs']
    · refine .inr ⟨hfree, { r.addNode c type transitions with collections := s' }, ?_,
        htypes, htransitions, hshows, hstart'.trans hstart, h.problems⟩
      rw [hs']

theorem Reader.setName_problems {r r' : Reader} {n : ℕ} {name : Option String}
    (h : r.setName n name = .ok r') : r'.problems = r.problems := by
  cases name with
  | none =>
    cases h
    rfl
  | some name =>
    rw [Reader.setName] at h
    split at h
    · cases h
    · cases h
      rfl

mutual

/-- Problems stay. -/
theorem readNode_problems (initial : Option String) (c : Option ℕ) (path : Option String) :
    ∀ (e : Element C) {r r' : Reader}, readNode E initial c path e r = .ok r' →
      r.problems ≤ r'.problems
  | .mk tag name transitions content elements, r, r', h => by
    rw [readNode] at h
    split at h
    · cases h
      exact le_rfl
    · split at h
      · cases h
        exact Nat.le_succ _
      · dsimp only at h
        split at h
        · cases h
        · next hset =>
          have hproblems := Reader.setName_problems hset
          rw [Reader.addNode] at hproblems
          split at h
          · cases h
          · split at h
            · have hle := readNodes_problems initial _ _ elements h
              rw [← hproblems]
              refine le_trans (le_of_eq ?_) hle
              split <;> rfl
            · cases h
              rw [← hproblems]
              exact le_of_eq (by split <;> rfl)

theorem readNodes_problems (initial : Option String) (c : Option ℕ) (path : Option String) :
    ∀ (es : List (Element C)) {r r' : Reader}, readNodes E initial c path es r = .ok r' →
      r.problems ≤ r'.problems
  | [], r, r', h => by
    cases h
    exact le_rfl
  | e :: es, r, r', h => by
    rw [readNodes] at h
    split at h
    · cases h
    · next he =>
      exact (readNode_problems initial c path e he).trans (readNodes_problems initial c path es h)

end

/-- If the records can be read the collections reflect them, and else there is an exception
    or a problem. -/
def Agree (s : Reading) : Except Exn Reading → Except Exn Reader → Prop
  | .ok s', x => ∃ r', x = .ok r' ∧ Reflects s' r' ∧ ∃ rs, s'.nodes = s.nodes ++ rs
  | .error _, x => ∀ r', x = .ok r' → 0 < r'.problems

theorem Reflects.setStartNode {s : Reading} {r : Reader} (h : Reflects s r) (n : ℕ) :
    Reflects { s with startState := some n }
      { r with collections := { r.collections with startState := some n } } where
  types := h.types
  transitions := h.transitions
  shows :=
    { consistent := (NodeCollections.consistent_startState _).2 h.shows.consistent
      mem := h.shows.mem
      null := h.shows.null
      name := h.shows.name
      superState := h.shows.superState
      lt := h.shows.lt }
  startState := rfl
  problems := h.problems

mutual

theorem readNode_agree (initial c : Option _) (path : Option String) :
    ∀ (e : Element C) {s : Reading} {r : Reader}, Reflects s r → IsCollection s.nodes c →
      Agree s (Jpdl.readNode E initial c path e s) (readNode E initial c path e r)
  | .mk tag name transitions content elements, s, r, h, hc => by
    have hlen : r.types.length = s.nodes.length := by rw [h.types, List.length_map]
    rw [Jpdl.readNode, readNode]
    rcases NodeType.getNodeType tag with _ | type
    · exact ⟨r, rfl, h, [], (List.append_nil _).symm⟩
    dsimp only
    rw [h.startState]
    by_cases hstart : type = .startState ∧ s.startState.isSome = true
    · rw [if_pos hstart, if_pos hstart]
      rintro r' hr'
      obtain rfl := Except.ok.inj hr'
      exact Nat.succ_pos _
    rw [if_neg hstart, if_neg hstart]
    obtain ⟨hused, hset⟩ | ⟨hfree, r₁, hset, hr₁⟩ := h.addNode hc type name transitions
    · rw [if_pos hused, hset]
      exact fun r' hr' => by cases hr'
    rw [if_neg (by rw [hfree]; exact Bool.false_ne_true), hset, hlen]
    dsimp only
    by_cases hcontent : E.readFails content = true
    · rw [if_pos hcontent, if_pos hcontent]
      exact fun r' hr' => by cases hr'
    rw [if_neg hcontent, if_neg hcontent]
    have hr₂ : Reflects
        (if name.any (fun name => initial == some (getFullyQualifiedName path name)) = true then
          { s.addNode ⟨type, name, c, transitions⟩ with startState := some s.nodes.length }
        else s.addNode ⟨type, name, c, transitions⟩)
        (if name.any (fun name => initial == some (getFullyQualifiedName path name)) = true then
          { r₁ with collections := { r₁.collections with startState := some s.nodes.length } }
        else r₁) := by
      split
      · exact hr₁.setStartNode _
      · exact hr₁
    have hnodes : (if
        name.any (fun name => initial == some (getFullyQualifiedName path name)) = true then
          { s.addNode ⟨type, name, c, transitions⟩ with startState := some s.nodes.length }
        else s.addNode ⟨type, name, c, transitions⟩).nodes =
          s.nodes ++ [⟨type, name, c, transitions⟩] := by
      split <;> rfl
    by_cases hsuper : type = .superState
    · rw [if_pos hsuper, if_pos hsuper]
      have hagree := readNodes_agree initial (some s.nodes.length)
        (some (getFullyQualifiedName path (name.getD "null"))) elements hr₂ fun p hp => by
          obtain rfl := Option.some.inj hp
          exact ⟨⟨type, name, c, transitions⟩, by rw [hnodes, List.getElem?_concat_length], hsuper⟩
      revert hagree
      generalize Jpdl.readNodes E initial (some s.nodes.length) _ elements _ = x
      cases x with
      | error _ => exact fun hagree => hagree
      | ok s' =>
        rintro ⟨r', hr', hreflects, rs, hrs⟩
        refine ⟨r', hr', hreflects, ⟨type, name, c, transitions⟩ :: rs, ?_⟩
        rw [hrs, hnodes, List.append_assoc, List.singleton_append]
    · rw [if_neg hsuper, if_neg hsuper]
      exact ⟨_, rfl, hr₂, _, hnodes⟩

theorem readNodes_agree (initial c : Option _) (path : Option String) :
    ∀ (es : List (Element C)) {s : Reading} {r : Reader}, Reflects s r → IsCollection s.nodes c →
      Agree s (Jpdl.readNodes E initial c path es s) (readNodes E initial c path es r)
  | [], s, r, h, _ => ⟨r, rfl, h, [], (List.append_nil _).symm⟩
  | e :: es, s, r, h, hc => by
    have hagree := readNode_agree initial c path e h hc
    rw [Jpdl.readNodes, readNodes]
    rcases hx : Jpdl.readNode E initial c path e s with x | s₁
    · rw [hx] at hagree
      rcases hy : readNode E initial c path e r with y | r₁
      · exact fun r' hr' => by cases hr'
      · intro r' hr'
        exact (hagree r₁ hy).trans_le (readNodes_problems E initial c path es hr')
    · rw [hx] at hagree
      obtain ⟨r₁, hr₁, hreflects, rs, hrs⟩ := hagree
      rw [hr₁]
      have hrest := readNodes_agree initial c path es hreflects (hrs ▸ hc.append rs)
      revert hrest
      show Agree s₁ (Jpdl.readNodes E initial c path es s₁) _ →
        Agree s (Jpdl.readNodes E initial c path es s₁) _
      generalize Jpdl.readNodes E initial c path es s₁ = x
      cases x with
      | error _ => exact fun hrest => hrest
      | ok s' =>
        rintro ⟨r', hr', hreflects', rs', hrs'⟩
        exact ⟨r', hr', hreflects', rs ++ rs', by rw [hrs', hrs, List.append_assoc]⟩

end

theorem reflects_start : Reflects { nodes := [], startState := none } start where
  types := rfl
  transitions := rfl
  shows :=
    { consistent := NodeCollections.consistent_initial _
      mem := by
        intro c n
        refine iff_of_false List.not_mem_nil ?_
        rintro ⟨x, hx, -⟩
        cases hx
      null := iff_of_true rfl rfl
      name := fun _ => rfl
      superState := fun _ => rfl
      lt := fun hp => absurd hp (Option.some_ne_none _).symm }
  startState := rfl
  problems := rfl

theorem graph_eq {s : Reading} {r : Reader} {s' : NodeCollections ℕ}
    (htypes : r.types = s.nodes.map Record.type) (h : Shows s.nodes s')
    (hstart : s'.startState = s.startState) (leaving : List (List (Transition ℕ))) :
    graph r s' leaving = Graph.ofRecords s leaving := by
  rw [graph, Graph.ofRecords, htypes, hstart, List.length_map]
  congr 1
  funext k
  rw [List.getElem?_map, h.name, h.superState]
  rcases s.nodes[k]? with _ | x
  · rfl
  · rcases leaving[k]? with _ | ts
    · rfl
    · rfl

/-- **Reading.**  The collections, in which nodes are put before they have their names, and
    whose maps are made, dropped and patched on the way, give the same process definition
    as the records: the same documents can be read, with the same nodes, names, destinations
    and start state. -/
theorem live_read_eq (doc : Document C) : Live.read E doc = (Jpdl.read E doc).toOption := by
  rw [Live.read, Jpdl.read]
  by_cases hcontent : E.readFails doc.content = true
  · rw [if_pos hcontent, if_pos hcontent]
    rfl
  rw [if_neg hcontent, if_neg hcontent]
  have hagree := readNodes_agree E doc.initial none none doc.elements reflects_start
    fun p hp => absurd hp (Option.some_ne_none p).symm
  rcases hx : Jpdl.readNodes E doc.initial none none doc.elements
    { nodes := [], startState := none } with x | s
  · rw [hx] at hagree
    rcases hy : readNodes E doc.initial none none doc.elements start with y | r
    · rfl
    · have hpos := hagree r hy
      dsimp only
      rcases resolveTransitionDestinations r with ⟨e | leaving, s'⟩
      · rfl
      · exact if_neg hpos.ne'
  · rw [hx] at hagree
    obtain ⟨r, hr, hreflects, -⟩ := hagree
    obtain ⟨heq, hshows, hstart⟩ := resolveTransitionDestinations_eq hreflects.types
      hreflects.transitions hreflects.shows
    rw [hr]
    dsimp only
    show _ = Except.toOption (Jpdl.resolveTransitionDestinations s.nodes >>= fun leaving =>
      .ok (Graph.ofRecords s leaving))
    rw [← heq]
    rcases hres : resolveTransitionDestinations r with ⟨e | leaving, s'⟩
    · rfl
    · rw [hres] at hshows hstart
      dsimp only at hshows hstart ⊢
      rw [if_pos hreflects.problems,
        graph_eq hreflects.types hshows (hstart.trans hreflects.startState)]
      rfl

end Live

end Jpdl

end Jbpm
