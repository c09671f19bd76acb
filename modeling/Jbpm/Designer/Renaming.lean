/-
  Edges that are drawn, and nodes that get other names afterwards.

  * `Drawing`: a process definition and its diagram;
  * `EdgeCreateCommand.execute`, `Drawing.draw`: a new edge;
  * `Drawing.rename`: another name for a node, which rewrites the edges that arrive in it;
  * `renamed_iff`: when a path still leads to its target after any renamings.
-/
import Jbpm.Lib.Run
import Jbpm.Designer.TransitionPath

namespace Jbpm

open Java Lib Jpdl Graph.Hierarchy

namespace Designer

variable {N T : Type} [DecidableEq N] [DecidableEq T] {kind : N → Kind}

/-! ## The commands -/

/-- `execute`: the `to` is set while the edge does not listen. -/
def EdgeCreateCommand.execute (kind : N → Kind) (containers : Forest N)
    (processName : Option String) (source target : N) (t : T) :
    Throws Exn (Diagram N T) Unit := do
  Throws.modify_ fun s => s.setTo t
    (some (EdgeCreateCommand.initializeToAttribute containers processName s.name source target))
  Diagram.addTransition kind source t

/-- The diagram with another name, and the edges that arrive in the node rewritten. -/
theorem setName_run {s : Diagram N T} {n : N} (name : Option String)
    (hn : s.nodeListeners n = 1) (ht : ∀ t ∈ s.arrivingEdges n, s.edgeListeners t = 1) :
    s.setName kind n name = { s with
      name := Function.update s.name n name
      goesTo := if name = s.name n then s.goesTo else renamedTo kind s n name } := by
  by_cases hname : name = s.name n
  · rw [Diagram.setName, hname, Function.update_eq_self, if_pos rfl, if_pos rfl]
  · rw [Diagram.setName, if_neg (Ne.symm hname), if_neg hname, hn, Function.iterate_one,
      Diagram.nameChange]
    by_cases hkind : kind n = .superState
    · rw [if_pos hkind]
      congr 2
      funext t
      rw [renamedTo, if_neg fun h => h.1 hkind]
    · rw [if_neg hkind]
      refine (updateArrivingEdges_run (s := { s with name := Function.update s.name n name })
        (i := 0) (s.arrivingEdges n).length (Nat.zero_add _) ht).trans ?_
      congr 2
      funext t
      simp only [renamedTo, hkind, List.drop_zero, ne_eq, not_false_eq_true, true_and]

/-! ## Drawings -/

/-- A process definition and a diagram of it, in which each node listens once, and each edge that
    arrives somewhere. -/
structure Drawing (kind : N → Kind) (T : Type) [DecidableEq T] where
  definition : Graph.Hierarchy N
  diagram : Diagram N T
  shows : Shows kind definition diagram.toView
  nodeListeners : ∀ n, diagram.nodeListeners n = 1
  edgeListeners : ∀ n, ∀ t ∈ diagram.arrivingEdges n, diagram.edgeListeners t = 1

namespace Drawing

variable (p : Drawing kind T) {source target : N} {t : T}

/-- The `to` of the edge leads to the target. -/
def Resolves (source target : N) (t : T) : Prop :=
  Designer.Resolves kind p.definition p.diagram.toView source target (p.diagram.goesTo t)

def Leads (source target : N) : Prop :=
  Designer.Leads p.definition p.diagram.toView source target

/-- The edge is not part of the diagram yet. -/
structure Fresh (source : N) (t : T) : Prop where
  listeners : p.diagram.edgeListeners t = 0
  arriving : ∀ n, t ∉ p.diagram.arrivingEdges n
  leaving : t ∉ p.diagram.transitions source

/-- The `to` that an edge is drawn with. -/
def drawnTo (processName : Option String) (source target : N) : String :=
  EdgeCreateCommand.initializeToAttribute p.definition.superState processName p.definition.name
    source target

variable {p}

/-- The `to` is set, the transition is added, and the node is told so. -/
theorem execute_eq (processName : Option String) (hfresh : p.Fresh source t) (target : N) :
    EdgeCreateCommand.execute kind p.definition.superState processName source target t p.diagram =
      Diagram.transitionAdd kind source t { p.diagram with
        goesTo := Function.update p.diagram.goesTo t (some (p.drawnTo processName source target))
        transitions := Function.update p.diagram.transitions source
          (p.diagram.transitions source ++ [t]) } := by
  have hset : p.diagram.setTo t (some (p.drawnTo processName source target)) = { p.diagram with
      goesTo := Function.update p.diagram.goesTo t
        (some (p.drawnTo processName source target)) } := by
    rw [Diagram.setTo, hfresh.listeners, Function.iterate_zero, id, ite_self]
  rw [EdgeCreateCommand.execute, Throws.bind_run]
  change Diagram.addTransition kind source t (p.diagram.setTo t (some _)) = _
  rw [p.shows.name]
  change Diagram.addTransition kind source t
    (p.diagram.setTo t (some (p.drawnTo processName source target))) = _
  rw [hset, Diagram.addTransition, if_neg hfresh.leaving, p.nodeListeners source, fire_one]

/-- The view and the `to` that the command leaves, also if it throws. -/
theorem execute_view (processName : Option String) (hfresh : p.Fresh source t) (target : N) :
    (EdgeCreateCommand.execute kind p.definition.superState processName source target t
      p.diagram).2.toView = p.diagram.toView ∧
    (EdgeCreateCommand.execute kind p.definition.superState processName source target t
      p.diagram).2.goesTo t = some (p.drawnTo processName source target) := by
  rw [execute_eq processName hfresh, Diagram.transitionAdd]
  dsimp only
  split
  · exact ⟨rfl, Function.update_self ..⟩
  · rw [toElements_arriveAt]
    exact ⟨rfl, Function.update_self ..⟩

/-- The new edge leaves the source and arrives in the target. -/
theorem execute_run (processName : Option String) (hfresh : p.Fresh source t)
    (hleads : p.Leads source target) :
    EdgeCreateCommand.execute kind p.definition.superState processName source target t p.diagram =
      (.ok (), ((({ p.diagram with
        goesTo := Function.update p.diagram.goesTo t (some (p.drawnTo processName source target))
        transitions := Function.update p.diagram.transitions source
          (p.diagram.transitions source ++ [t]) } : Diagram N T).addLeavingEdge source
            t).addEdgeListener t).addArrivingEdge target t) := by
  rw [execute_eq processName hfresh]
  refine transitionAdd_run (d := some target) ?_
  change p.diagram.toView.getDestinationNode kind source (Function.update p.diagram.goesTo t
    (some (p.drawnTo processName source target)) t) = _
  rw [Function.update_self]
  exact ((p.shows.drawn_iff processName source target).2 hleads).destinationNode

theorem arrives_iff (processName : Option String) (hfresh : p.Fresh source t)
    (hleads : p.Leads source target) {n : N} :
    t ∈ (EdgeCreateCommand.execute kind p.definition.superState processName source target t
      p.diagram).2.arrivingEdges n ↔ n = target := by
  rw [execute_run processName hfresh hleads]
  change t ∈ Function.update p.diagram.arrivingEdges target
    (p.diagram.arrivingEdges target ++ [t]) n ↔ _
  by_cases hn : n = target
  · subst hn
    rw [Function.update_self]
    exact iff_of_true (List.mem_append_right _ List.mem_cons_self) rfl
  · rw [Function.update_of_ne hn]
    exact iff_of_false (hfresh.arriving n) hn

/-- With a new edge, whose `to` leads to its target. -/
def draw (p : Drawing kind T) (processName : Option String) (hfresh : p.Fresh source t)
    (hleads : p.Leads source target) : Drawing kind T where
  definition := p.definition
  diagram := (EdgeCreateCommand.execute kind p.definition.superState processName source target t
    p.diagram).2
  shows := by
    rw [execute_run processName hfresh hleads]
    exact { p.shows with }
  nodeListeners := by
    rw [execute_run processName hfresh hleads]
    exact p.nodeListeners
  edgeListeners n u hu := by
    rw [execute_run processName hfresh hleads] at hu ⊢
    change (Function.update p.diagram.edgeListeners t (p.diagram.edgeListeners t + 1)) u = 1
    by_cases hut : u = t
    · subst hut
      rw [Function.update_self, hfresh.listeners]
    · rw [Function.update_of_ne hut]
      refine p.edgeListeners n u ?_
      change u ∈ Function.update p.diagram.arrivingEdges target
        (p.diagram.arrivingEdges target ++ [t]) n at hu
      by_cases hn : n = target
      · subst hn
        rw [Function.update_self, List.mem_append, List.mem_singleton] at hu
        exact hu.resolve_right hut
      · rwa [Function.update_of_ne hn] at hu

/-- A new edge is drawn.  Its `to` leads to the target exactly if neither node is inside the
    other and the names on the way can be looked up, and the edge then arrives just there. -/
theorem draws_iff (p : Drawing kind T) (processName : Option String) (source target : N) (t : T)
    (hfresh : p.Fresh source t) :
    (Designer.Resolves kind p.definition (EdgeCreateCommand.execute kind p.definition.superState
        processName source target t p.diagram).2.toView source target
        ((EdgeCreateCommand.execute kind p.definition.superState processName source target t
          p.diagram).2.goesTo t) ↔ p.Leads source target) ∧
      (p.Leads source target →
        (EdgeCreateCommand.execute kind p.definition.superState processName source target t
          p.diagram).1 = .ok () ∧
        ∀ n, t ∈ (EdgeCreateCommand.execute kind p.definition.superState processName source target
          t p.diagram).2.arrivingEdges n ↔ n = target) := by
  obtain ⟨hview, hto⟩ := execute_view processName hfresh target
  refine ⟨?_, fun hleads => ⟨?_, fun n => arrives_iff processName hfresh hleads⟩⟩
  · rw [hview, hto]
    exact p.shows.drawn_iff processName source target
  · rw [execute_run processName hfresh hleads]

/-- With another name for a node. -/
def rename (p : Drawing kind T) {n : N} {name : Option String}
    (h : p.definition.Renamable n name) : Drawing kind T where
  definition := p.definition.rename n name h
  diagram := p.diagram.setName kind n name
  shows := by
    rw [setName_run name (p.nodeListeners n) (p.edgeListeners n)]
    refine { p.shows with name := ?_ }
    change Function.update p.diagram.name n name = Function.update p.definition.name n name
    rw [p.shows.name]
  nodeListeners := by
    rw [setName_run name (p.nodeListeners n) (p.edgeListeners n)]
    exact p.nodeListeners
  edgeListeners := by
    rw [setName_run name (p.nodeListeners n) (p.edgeListeners n)]
    exact p.edgeListeners

/-! ## Runs of renamings -/

/-- A step of the designer: a node gets a name that no other node of its container has. -/
def Renames (p : Drawing kind T) (l : N × Option String) (p' : Drawing kind T) : Prop :=
  ∃ h : p.definition.Renamable l.1 l.2, p' = p.rename h

/-- The edges that arrive in the target are rewritten: it is no super-state, and it has got
    another name. -/
def Rewritten (p : Drawing kind T) (ls : List (N × Option String)) (target : N) : Prop :=
  kind target ≠ .superState ∧ ∃ l ∈ ls, l.1 = target ∧ l.2 ≠ p.definition.name target

/-- What a run of renamings has made of an edge. -/
structure Kept (p : Drawing kind T) (to_ : String) (ls : List (N × Option String)) (target : N)
    (t : T) (q : Drawing kind T) : Prop where
  superState : q.definition.superState = p.definition.superState
  arriving : ∀ n, t ∈ q.diagram.arrivingEdges n ↔ n = target
  name : kind target ≠ .superState → ¬ p.Rewritten ls target →
    q.definition.name target = p.definition.name target
  rewritten : p.Rewritten ls target → q.diagram.goesTo t = q.definition.name target
  unwritten : ¬ p.Rewritten ls target → q.diagram.goesTo t = some to_

theorem rename_goesTo (p : Drawing kind T) {n : N} {name : Option String}
    (h : p.definition.Renamable n name) : (p.rename h).diagram.goesTo t =
      if name ≠ p.definition.name n ∧ kind n ≠ .superState ∧ t ∈ p.diagram.arrivingEdges n then name
      else p.diagram.goesTo t := by
  have hrun : p.diagram.setName kind n name = _ :=
    setName_run name (p.nodeListeners n) (p.edgeListeners n)
  change (p.diagram.setName kind n name).goesTo t = _
  rw [hrun, p.shows.name]
  change (if name = p.definition.name n then p.diagram.goesTo
    else renamedTo kind p.diagram n name) t = _
  by_cases hname : name = p.definition.name n
  · rw [if_pos hname, if_neg fun h => h.1 hname]
  · rw [if_neg hname, renamedTo]
    simp only [ne_eq, hname, not_false_eq_true, true_and]

theorem rename_arrivingEdges (p : Drawing kind T) {n : N} {name : Option String}
    (h : p.definition.Renamable n name) :
    (p.rename h).diagram.arrivingEdges = p.diagram.arrivingEdges := by
  change (p.diagram.setName kind n name).arrivingEdges = _
  rw [setName_run name (p.nodeListeners n) (p.edgeListeners n)]

omit [DecidableEq N] in
theorem rewritten_append {p : Drawing kind T} {ls : List (N × Option String)} {n : N}
    {name : Option String} : p.Rewritten (ls ++ [(n, name)]) target ↔ p.Rewritten ls target ∨
      kind target ≠ .superState ∧ n = target ∧ name ≠ p.definition.name target := by
  simp only [Rewritten, List.mem_append, List.mem_singleton, or_and_right, exists_or,
    exists_eq_left, and_or_left]

/-- **Step.**  Only a new name for the target rewrites the edge. -/
theorem Kept.rename {p q : Drawing kind T} {to_ : String} {ls : List (N × Option String)}
    (hq : Kept p to_ ls target t q) {n : N} {name : Option String}
    (h : q.definition.Renamable n name) :
    Kept p to_ (ls ++ [(n, name)]) target t (q.rename h) := by
  have hnew : (q.rename h).definition.name target =
      Function.update q.definition.name n name target := rfl
  have hgoes := q.rename_goesTo (t := t) h
  simp only [hq.arriving n] at hgoes
  have harriving : ∀ m, t ∈ (q.rename h).diagram.arrivingEdges m ↔ m = target := by
    rw [rename_arrivingEdges]
    exact hq.arriving
  by_cases hn : n = target
  · subst hn
    rw [Function.update_self] at hnew
    simp only [and_true] at hgoes
    refine ⟨hq.superState, harriving, fun hkind hnot => ?_, fun hr => ?_, fun hnot => ?_⟩
    · rw [hnew]
      by_contra hne
      exact hnot (rewritten_append.2 (.inr ⟨hkind, rfl, hne⟩))
    · rw [hgoes, hnew]
      by_cases hname : name = q.definition.name n
      · rw [if_neg fun h => h.1 hname, hname]
        refine hq.rewritten (by_contra fun hnot => ?_)
        rcases rewritten_append.1 hr with hr | ⟨hkind, -, hne⟩
        · exact hnot hr
        · exact hne (hname.trans (hq.name hkind hnot))
      · exact if_pos ⟨hname, hr.1⟩
    · rw [rewritten_append, not_or] at hnot
      rw [hgoes, if_neg]
      · exact hq.unwritten hnot.1
      · rintro ⟨hname, hkind⟩
        have hsame : name = p.definition.name n := by
          by_contra hne
          exact hnot.2 ⟨hkind, rfl, hne⟩
        exact hname (hsame.trans (hq.name hkind hnot.1).symm)
  · rw [Function.update_of_ne (Ne.symm hn)] at hnew
    rw [if_neg fun h => hn h.2.2] at hgoes
    have hiff : p.Rewritten (ls ++ [(n, name)]) target ↔ p.Rewritten ls target := by
      rw [rewritten_append]
      exact or_iff_left fun h => hn h.2.1
    refine ⟨hq.superState, harriving, fun hkind hr => ?_, fun hr => ?_, fun hr => ?_⟩
    · rw [hnew]
      exact hq.name hkind (mt hiff.2 hr)
    · rw [hgoes, hnew]
      exact hq.rewritten (hiff.1 hr)
    · rw [hgoes]
      exact hq.unwritten (mt hiff.2 hr)

theorem kept_draw {p : Drawing kind T} {processName : Option String} (hfresh : p.Fresh source t)
    (hleads : p.Leads source target) : Kept p (p.drawnTo processName source target) [] target t
      (p.draw processName hfresh hleads) := by
  refine ⟨rfl, fun n => arrives_iff processName hfresh hleads, fun _ _ => rfl, fun hr => ?_,
    fun _ => (execute_view processName hfresh target).2⟩
  obtain ⟨-, l, hl, -⟩ := hr
  exact absurd hl List.not_mem_nil

/-- **Run.** -/
theorem kept_of_run {p : Drawing kind T} {processName : Option String}
    (hfresh : p.Fresh source t) (hleads : p.Leads source target) {ls : List (N × Option String)}
    {q : Drawing kind T} (h : Run Renames (p.draw processName hfresh hleads) ls q) :
    Kept p (p.drawnTo processName source target) ls target t q := by
  induction h with
  | nil => exact kept_draw hfresh hleads
  | snoc _ hl ih =>
    obtain ⟨hrenamable, rfl⟩ := hl
    exact ih.rename hrenamable

/-- An edge whose `to` leads to its target is drawn, and nodes get other names.  The `to` then
    leads to the target exactly if one that is drawn now would, and either the target has been
    rewritten and is in the container of the source, or the names on the way are as they were. -/
theorem renamed_iff {p : Drawing kind T} {processName : Option String}
    (hfresh : p.Fresh source t) (hleads : p.Leads source target) {ls : List (N × Option String)}
    {q : Drawing kind T} (h : Run Renames (p.draw processName hfresh hleads) ls q) :
    q.Resolves source target t ↔ q.Leads source target ∧
      (p.Rewritten ls target →
        p.definition.superState.parent target = p.definition.superState.parent source) ∧
      (¬ p.Rewritten ls target → ∀ m ∈ p.definition.superState.path target,
        m ∉ p.definition.superState.ancestors source →
          q.definition.name m = p.definition.name m) := by
  have hkept := kept_of_run hfresh hleads h
  by_cases hr : p.Rewritten ls target
  · simp only [hr, forall_const, not_true_eq_false, false_implies, and_true]
    rw [Resolves, hkept.rewritten hr, q.shows.name_resolves_iff, hkept.superState]
    rfl
  · simp only [hr, false_implies, true_and, not_false_eq_true, forall_const]
    rw [Resolves, hkept.unwritten hr]
    exact q.shows.drawn_before_iff hkept.superState hleads

/-! ## An edge out of a super-state -/

def phasesKind (n : Fin 4) : Kind := if n.val = 0 ∨ n.val = 3 then .superState else .other

def phases : Drawing phasesKind Unit where
  definition := Graph.Hierarchy.phases
  diagram :=
    { nodeElements := fun c => (Graph.Hierarchy.phases.nodes c).getD []
      name := Graph.Hierarchy.phases.name
      container := fun n => some (Graph.Hierarchy.phases.superState.parent n)
      registered := fun _ => true
      startState := none
      transitions := fun _ => []
      goesTo := fun _ => none
      nodes := fun c => (Graph.Hierarchy.phases.nodes c).getD []
      nodeListeners := fun _ => 1
      danglingEdges := fun _ => []
      leavingEdges := fun _ => []
      arrivingEdges := fun _ => []
      source := fun _ => none
      target := fun _ => none
      edgeListeners := fun _ => 0 }
  shows :=
    { name := rfl
      container := fun _ => rfl
      mem_nodeElements := fun _ _ => Graph.Hierarchy.phases.mem_nodes
      registered := fun _ => rfl
      superState := by decide }
  nodeListeners _ := rfl
  edgeListeners _ _ h := absurd h List.not_mem_nil

theorem leads_phases {D : Graph.Hierarchy (Fin 4)} {v : View (Fin 4)} (h : Shows phasesKind D v)
    (hsuper : D.superState = Graph.Hierarchy.phases.superState) (hname : D.name 2 = some "b") :
    Designer.Leads D v 1 2 := by
  have hparent : D.superState.parent 2 = none := by
    rw [hsuper]
    rfl
  have hpath : D.superState.path 2 = [2] := path_of_parent hparent
  refine ⟨?_, ?_, fun m hm _ => ?_, fun hp => ?_⟩
  · rw [hsuper]
    decide
  · rw [hsuper]
    decide
  · rw [hpath, List.mem_singleton] at hm
    subst hm
    refine ⟨⟨"b", hname, by decide, by decide⟩, fun p hp => ?_⟩
    rw [h.container, hparent] at hp
    cases hp
  · rw [written, hname]
    decide

theorem fresh_phases : phases.Fresh 1 () := ⟨rfl, fun _ => List.not_mem_nil, List.not_mem_nil⟩

theorem leads_phases_drawn : phases.Leads 1 2 := leads_phases phases.shows rfl rfl

theorem draws_phases : Designer.Resolves phasesKind phases.definition
    (EdgeCreateCommand.execute phasesKind phases.definition.superState none 1 2 ()
      phases.diagram).2.toView 1 2
    ((EdgeCreateCommand.execute phasesKind phases.definition.superState none 1 2 ()
      phases.diagram).2.goesTo ()) :=
  (draws_iff phases none 1 2 () fresh_phases).1.2 leads_phases_drawn

/-- The other super-state gets another name: the path `../b` still leads to its target. -/
theorem renamed_phases : ∃ q, Run Renames (phases.draw none fresh_phases leads_phases_drawn)
    [(3, some "done")] q ∧ q.diagram.goesTo () = some "../b" ∧ q.Resolves 1 2 () := by
  have hrenamable : (phases.draw none fresh_phases leads_phases_drawn).definition.Renamable 3
      (some "done") := by
    refine ⟨by decide, fun s hs => ?_⟩
    obtain rfl := Option.some.inj hs
    decide
  have hrun : Run Renames (phases.draw none fresh_phases leads_phases_drawn) [(3, some "done")]
      ((phases.draw none fresh_phases leads_phases_drawn).rename hrenamable) :=
    .snoc .nil ⟨hrenamable, rfl⟩
  have hnot : ¬ phases.Rewritten [(3, some "done")] 2 := by
    rintro ⟨-, l, hl, hl2, -⟩
    rw [List.mem_singleton.1 hl] at hl2
    cases hl2
  refine ⟨_, hrun, ?_, (renamed_iff fresh_phases leads_phases_drawn hrun).2 ⟨?_, ?_, ?_⟩⟩
  · rw [(kept_of_run fresh_phases leads_phases_drawn hrun).unwritten hnot]
    decide
  · exact leads_phases (Drawing.shows _) rfl rfl
  · exact fun h => absurd h hnot
  · intro _ m hm _
    have hpath : phases.definition.superState.path 2 = [2] := by decide
    rw [hpath, List.mem_singleton] at hm
    subst hm
    rfl

end Drawing

end Designer

end Jbpm
