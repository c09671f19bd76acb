/-
  Dead paths: `eliminatePath` of activities, structured activities, flows and scopes, and the
  notifications of `LinkInstance.statusDetermined` that go on with it later.

  * `Activity`: activities with their links, which a structured activity has on its marks;
  * `run`: one step of the calls in progress, the innermost first;
  * `Safe`: the steps at which a structured activity gives up its links no sooner than it may;
  * `controlled_of_run`: so every link is set to false once, and not before all incoming links of
    its source are determined.
-/
import Mathlib.Data.List.Nodup
import Mathlib.Logic.Function.Basic
import Jbpm.Lib.Run

namespace Jbpm

open Lib

namespace Bpel.Elimination

/-! ## Activities -/

structure Link where
  id : ℕ
  name : String
  deriving DecidableEq

/-- The links that an activity is the target and the source of. -/
structure Info where
  id : ℕ
  targets : List Link
  sources : List Link
  deriving DecidableEq

/-- The structures are sequences, ifs, picks and loops. -/
inductive Activity where
  | basic (i : Info)
  | structure_ (i : Info) (activities : List Activity)
  | flow (i : Info) (links : List Link) (activities : List Activity)
  | scope (i : Info) (handlers : List Activity) (activity : Activity)

/-- An activity by itself.  A structured one has its targets on the begin mark, and its sources on
    the end mark. -/
structure Node where
  info : Info
  structured : Bool
  deriving DecidableEq

namespace Node

def targets (n : Node) : List Link := n.info.targets

def sources (n : Node) : List Link := n.info.sources

/-- The sources of what is notified when a target is determined. -/
def own (n : Node) : List Link := if n.structured then [] else n.sources

end Node

namespace Activity

mutual

/-- The activities that an activity consists of, but for those in the handlers of scopes. -/
def nodes : Activity → List Node
  | basic i => [⟨i, false⟩]
  | structure_ i activities => nodesAll activities ++ [⟨i, true⟩]
  | flow i _ activities => nodesAll activities ++ [⟨i, true⟩]
  | scope i _ activity => nodes activity ++ [⟨i, false⟩]

def nodesAll : List Activity → List Node
  | [] => []
  | a :: as => nodes a ++ nodesAll as

end

mutual

/-- The activities in the handlers of scopes. -/
def handlerNodes : Activity → List Node
  | basic _ => []
  | structure_ _ activities => handlerNodesAll activities
  | flow _ _ activities => handlerNodesAll activities
  | scope _ handlers activity => nodesAll handlers ++ handlerNodesAll handlers ++ handlerNodes activity

def handlerNodesAll : List Activity → List Node
  | [] => []
  | a :: as => handlerNodes a ++ handlerNodesAll as

end

def sources (a : Activity) : List Link := a.nodes.flatMap Node.sources

def handlerSources (a : Activity) : List Link := a.handlerNodes.flatMap Node.sources

def targets (a : Activity) : List Link := a.nodes.flatMap Node.targets

end Activity

/-! ## The code -/

/-- A token, with the links whose instances are variables of it or of its parents, the innermost
    first. -/
structure Token where
  id : ℕ
  links : List Link

/-- `getInstance(token)`: the variable with the name of the link. -/
def Token.find (t : Token) (l : Link) : Option Link := t.links.find? fun i => i.name = l.name

/-- The calls in progress. -/
inductive Task where
  /-- `eliminatePath(token)` -/
  | eliminate (a : Activity) (t : Token)
  /-- `super.eliminatePath(token)`, of `Activity` -/
  | own (n : Node) (t : Token)
  /-- `end.eliminatePath(token)` -/
  | end_ (n : Node) (t : Token)
  /-- the rest of `setSourcesNegativeStatus(token)` -/
  | negative (n : Node) (ls : List Link) (t : Token)
  /-- an activity elsewhere that has been notified -/
  | external

/-- The link instances, where one that has not been created has no status and no token; the nodes
    of the tokens and their number; the calls, the innermost first; and the links whose status was
    set to false, with whether all incoming links were determined then. -/
structure State where
  status : Link → Option Bool
  target : Link → Option Token
  node : ℕ → Option ℕ
  tokens : ℕ
  stack : List Task
  log : List (Link × Bool)

namespace State

variable (root : Activity) (s : State)

/-- All incoming links of the activity are determined. -/
def determined (n : Node) : Bool := n.targets.all fun l => (s.status l).isSome

/-- `setTargetsToken(token)`, for the instances. -/
def setTargetsToken (is : List Link) (t : Token) : State :=
  { s with target := fun l => if l ∈ is then some t else s.target l }

/-- `areTargetsDetermined(token)` -/
def areTargetsDetermined (n : Node) (t : Token) : Bool :=
  n.targets.all fun l => (t.find l).any fun i => (s.status i).isSome

/-- `Activity.eliminatePath(token)`; without an instance it is a null pointer. -/
def eliminateOwn (n : Node) (t : Token) : Option State :=
  (n.targets.mapM t.find).map fun is =>
    let s := s.setTargetsToken is t
    if n.targets ≠ [] ∧ s.areTargetsDetermined n t = false then s
    else { s with stack := .negative n n.sources t :: s.stack }

/-- `targetDetermined(token)` of the target of a link, which may be elsewhere. -/
def targetDetermined (i : Link) (t : Token) : State :=
  match root.nodes.find? fun n => i ∈ n.targets with
  | none => { s with stack := .external :: s.stack }
  | some n =>
    if s.areTargetsDetermined n t then
      if s.node t.id = some n.info.id then { s with stack := .external :: s.stack }
      else { s with stack := .negative n n.own t :: s.stack }
    else s

/-- `statusDetermined(status)` -/
def statusDetermined (i : Link) (status : Bool) : State :=
  let s := { s with status := Function.update s.status i (some status) }
  match s.target i with
  | none => s
  | some t => s.targetDetermined root i t

/-- `initializeLinks(parentToken)` -/
def initializeLinks (links : List Link) (t : Token) : Token × State :=
  if links.isEmpty then (t, s)
  else (⟨s.tokens, links ++ t.links⟩,
    { s with node := Function.update s.node s.tokens (s.node t.id), tokens := s.tokens + 1 })

/-- One step of the innermost call. -/
def run : Option State :=
  match s.stack with
  | [] | .external :: _ => none
  | .eliminate (.basic i) t :: rest => some { s with stack := .own ⟨i, false⟩ t :: rest }
  | .eliminate (.structure_ i activities) t :: rest => some { s with
      stack := activities.map (.eliminate · t) ++ .end_ ⟨i, true⟩ t :: rest }
  | .eliminate (.flow i links activities) t :: rest =>
    let (t, s) := s.initializeLinks links t
    some { s with stack := activities.map (.eliminate · t) ++ .end_ ⟨i, true⟩ t :: rest }
  | .eliminate (.scope i _ activity) t :: rest => some { s with
      stack := .eliminate activity t :: .own ⟨i, false⟩ t :: rest }
  | .own n t :: rest => { s with stack := rest }.eliminateOwn n t
  | .end_ n t :: rest => some { s with stack := .negative n n.sources t :: rest }
  | .negative _ [] _ :: rest => some { s with stack := rest }
  | .negative n (l :: ls) t :: rest => (t.find l).map fun i =>
    { s with stack := .negative n ls t :: rest, log := s.log ++ [(i, s.determined n)] }
      |>.statusDetermined root i false

end State

/-- A step of the elimination, or what the rest of the process does between: it determines links
    and enters activities elsewhere, tokens move, a notified activity returns. -/
inductive Act where
  | run
  | determined (l : Link) (status : Bool)
  | waits (l : Link) (t : Token)
  | moves (token : ℕ) (node : Option ℕ)
  | returns

/-- The rest of the process goes on while nothing is being eliminated, or in a notified activity. -/
def State.idle (s : State) : Bool :=
  match s.stack with
  | [] | .external :: _ => true
  | _ => false

/-- The activities that are eliminated are neither entered nor left. -/
def step (root : Activity) (s : State) : Act → Option State
  | .run => s.run root
  | .determined l status =>
    if s.idle ∧ s.status l = none ∧ l ∉ root.sources ++ root.handlerSources then
      some (s.statusDetermined root l status)
    else none
  | .waits l t =>
    if s.idle ∧ l ∉ root.targets then
      some { s with target := Function.update s.target l (some t) }
    else none
  | .moves token node =>
    if s.idle ∧ ∀ n ∈ root.nodes, node ≠ some n.info.id then
      some { s with node := Function.update s.node token node }
    else none
  | .returns =>
    match s.stack with
    | .external :: rest => some { s with stack := rest }
    | _ => none

/-! ## What an elimination keeps to -/

/-- The structured activity whose end mark is eliminated has no outgoing links, or all its
    incoming links are determined, and the token finds its outgoing links by their names; the
    handlers of a scope have no outgoing links. -/
def Task.Safe (s : State) : Task → Prop
  | end_ n t => n.sources = [] ∨ s.determined n = true ∧ ∀ l ∈ n.sources, t.find l = some l
  | eliminate (.scope _ handlers _) _ =>
    ∀ n ∈ Activity.nodesAll handlers ++ Activity.handlerNodesAll handlers, n.sources = []
  | _ => True

instance (s : State) : ∀ task : Task, Decidable (task.Safe s)
  | .end_ .. => inferInstanceAs (Decidable (_ ∨ _))
  | .eliminate (.scope ..) _ => inferInstanceAs (Decidable (∀ n ∈ _, _))
  | .eliminate (.basic _) _ | .eliminate (.structure_ ..) _ | .eliminate (.flow ..) _ | .own .. |
    .negative .. | .external => .isTrue trivial

def Safe (s : State) : Act → Prop
  | .run => ∀ task ∈ s.stack.head?, task.Safe s
  | _ => True

instance (s : State) : ∀ act, Decidable (Safe s act)
  | .run => inferInstanceAs (Decidable (∀ task ∈ s.stack.head?, task.Safe s))
  | .determined .. | .waits .. | .moves .. | .returns => .isTrue trivial

/-- No link is set more than once, and none before all incoming links of its source are
    determined; if they are and there are no calls in progress, it has been set to false. -/
def Controlled (root : Activity) (s : State) : Prop :=
  (∀ l ∈ root.sources ++ root.handlerSources, (s.log.map Prod.fst).count l ≤ 1) ∧
  (∀ r ∈ s.log, r.2 = true) ∧
  (s.stack = [] → ∀ n ∈ root.nodes ++ root.handlerNodes, s.determined n = true →
    ∀ l ∈ n.sources, (s.log.map Prod.fst).count l = 1 ∧ s.status l = some false)

/-- The links of an activity are found by their names. -/
def Resolves (links : List Link) (i : Info) : Prop :=
  ∀ l ∈ i.targets ++ i.sources, (links.find? fun k => k.name = l.name) = some l

mutual

/-- The readers look up the links of an activity by their names, in the flows around it. -/
def Scoped (links : List Link) : Activity → Prop
  | .basic i => Resolves links i
  | .structure_ i activities => Resolves links i ∧ ScopedAll links activities
  | .flow i own activities => Resolves links i ∧ ScopedAll (own ++ links) activities
  | .scope i _ activity => Resolves links i ∧ Scoped links activity

def ScopedAll (links : List Link) : List Activity → Prop
  | [] => True
  | a :: as => Scoped links a ∧ ScopedAll links as

end

/-- A link has one source and one target. -/
structure WellFormed (root : Activity) (t : Token) : Prop where
  sources : (root.sources ++ root.handlerSources).Nodup
  targets : root.targets.Nodup
  names : Scoped t.links root

/-- An activity is about to be eliminated: the activities in it have not been executed, and do not
    wait for links.  If it is skipped, a token may be on it, and its targets are determined. -/
structure Start (root : Activity) (t : Token) (s : State) : Prop where
  stack : s.stack = [.eliminate root t]
  log : s.log = []
  status : ∀ l ∈ root.sources, s.status l = none
  target : ∀ l ∈ root.targets, s.target l = none
  node : ∀ k, ∀ n ∈ root.nodes, s.node k = some n.info.id → s.determined n = true

/-! ## Links that are to be set -/

theorem nodesAll_eq (as : List Activity) :
    Activity.nodesAll as = as.flatMap Activity.nodes := by
  induction as with
  | nil => rfl
  | cons a as ih => rw [Activity.nodesAll, ih, List.flatMap_cons]

theorem handlerNodesAll_eq (as : List Activity) :
    Activity.handlerNodesAll as = as.flatMap Activity.handlerNodes := by
  induction as with
  | nil => rfl
  | cons a as ih => rw [Activity.handlerNodesAll, ih, List.flatMap_cons]

theorem ScopedAll.of_mem {links : List Link} : ∀ {as : List Activity} {a : Activity},
    ScopedAll links as → a ∈ as → Scoped links a
  | _ :: _, _, h, ha => by
    rcases List.mem_cons.1 ha with rfl | hrest
    · exact h.1
    · exact h.2.of_mem hrest

namespace Task

/-- The links that a call is going to set, or to leave to a notification. -/
def links : Task → List Link
  | eliminate a _ => a.sources
  | own n _ | end_ n _ => n.sources
  | negative _ ls _ => ls
  | external => []

/-- The targets of the activities that a call has not come to. -/
def targets : Task → List Link
  | eliminate a _ => a.targets
  | own n _ => n.targets
  | end_ .. | negative .. | external => []

def handlerLinks : Task → List Link
  | eliminate a _ => a.handlerSources
  | _ => []

end Task

namespace State

variable (root : Activity) (s : State)

/-- An activity that has been eliminated and waits for its incoming links. -/
def waiting (n : Node) : Bool := (n.targets.any fun l => (s.target l).isSome) && !s.determined n

def waitingLinks : List Link := (root.nodes.filter s.waiting).flatMap Node.own

/-- How often a link has been set, or is going to be. -/
def due (l : Link) : ℕ :=
  (s.log.map Prod.fst).count l + (s.stack.flatMap Task.links).count l +
    (s.waitingLinks root).count l

end State

/-- One element of a list enters a filtered one. -/
theorem count_filter_flatMap {α : Type*} {p q : α → Bool} {f : α → List Link} {before after : List α}
    {x : α} (hbefore : ∀ y ∈ before, p y = q y) (hafter : ∀ y ∈ after, p y = q y)
    (hp : p x = false) (hq : q x = true) (l : Link) :
    (((before ++ x :: after).filter q).flatMap f).count l =
      (((before ++ x :: after).filter p).flatMap f).count l + (f x).count l := by
  rw [List.filter_append, List.filter_append, List.filter_cons_of_pos hq,
    List.filter_cons_of_neg (by rw [hp]; exact Bool.false_ne_true),
    List.filter_congr fun y hy => hbefore y hy, List.filter_congr fun y hy => hafter y hy]
  simp only [List.flatMap_append, List.flatMap_cons, List.count_append]
  omega

section
variable {root : Activity} {s : State} {n m : Node} {i l : Link} {t : Token}

/-- Where each link belongs to one activity, the others do not have it. -/
theorem split_nodup {f : Node → List Link} {ns : List Node} (h : (ns.flatMap f).Nodup)
    (hn : n ∈ ns) : ∃ before after, ns = before ++ n :: after ∧
      ∀ i ∈ f n, ∀ m ∈ before ++ after, i ∉ f m := by
  obtain ⟨before, after, rfl⟩ := List.append_of_mem hn
  refine ⟨before, after, rfl, fun i hi m hm him => ?_⟩
  rw [List.flatMap_append, List.flatMap_cons, List.nodup_append] at h
  obtain ⟨-, htail, hdisjoint⟩ := h
  rcases List.mem_append.1 hm with hbefore | hafter
  · exact hdisjoint i (List.mem_flatMap.2 ⟨m, hbefore, him⟩) i (List.mem_append_left _ hi) rfl
  · exact (List.nodup_append.1 htail).2.2 i hi i (List.mem_flatMap.2 ⟨m, hafter, him⟩) rfl

theorem node_unique {f : Node → List Link} {ns : List Node} (h : (ns.flatMap f).Nodup)
    (hn : n ∈ ns) (hm : m ∈ ns) (hin : i ∈ f n) (him : i ∈ f m) : m = n := by
  obtain ⟨before, after, heq, hothers⟩ := split_nodup h hn
  rw [heq, List.mem_append, List.mem_cons] at hm
  rcases hm with hbefore | rfl | hafter
  · exact absurd him (hothers i hin m (List.mem_append_left _ hbefore))
  · rfl
  · exact absurd him (hothers i hin m (List.mem_append_right _ hafter))

theorem sources_of_own (h : l ∈ n.own) : l ∈ n.sources := by
  rw [Node.own] at h
  split at h
  · exact absurd h List.not_mem_nil
  · exact h

theorem determined_congr {s' : State} (h : ∀ l ∈ n.targets, s'.status l = s.status l) :
    s'.determined n = s.determined n := by
  rw [Bool.eq_iff_iff, State.determined, State.determined, List.all_eq_true, List.all_eq_true]
  exact forall₂_congr fun l hl => by rw [h l hl]

theorem areTargetsDetermined_eq (h : Resolves t.links n.info) :
    s.areTargetsDetermined n t = s.determined n := by
  have hfind : ∀ l ∈ n.targets, t.find l = some l := fun l hl => h l (List.mem_append_left _ hl)
  rw [Bool.eq_iff_iff, State.determined, State.areTargetsDetermined, List.all_eq_true,
    List.all_eq_true]
  exact forall₂_congr fun l hl => by rw [hfind l hl, Option.any_some]

theorem mapM_find (h : ∀ l ∈ n.targets, t.find l = some l) :
    n.targets.mapM t.find = some n.targets := by
  generalize n.targets = ls at h
  induction ls with
  | nil => rfl
  | cons l ls ih =>
    rw [List.mapM_cons, h l List.mem_cons_self, ih fun l' hl' => h l' (List.mem_cons_of_mem _ hl')]
    rfl

theorem waiting_congr {s' : State} (hstatus : ∀ l ∈ n.targets, s'.status l = s.status l)
    (htarget : ∀ l ∈ n.targets, s'.target l = s.target l) : s'.waiting n = s.waiting n := by
  have hany : (n.targets.any fun l => (s'.target l).isSome) =
      n.targets.any fun l => (s.target l).isSome := by
    rw [Bool.eq_iff_iff, List.any_eq_true, List.any_eq_true]
    exact exists_congr fun l => and_congr_right fun hl => by rw [htarget l hl]
  rw [State.waiting, State.waiting, hany, determined_congr hstatus]

theorem waitingLinks_congr {s' : State} (h : ∀ n ∈ root.nodes, s'.waiting n = s.waiting n) :
    s'.waitingLinks root = s.waitingLinks root := by
  rw [State.waitingLinks, State.waitingLinks, List.filter_congr h]

/-- An activity whose targets have no token does not wait. -/
theorem waiting_eq_false (h : ∀ l ∈ n.targets, s.target l = none) : s.waiting n = false := by
  have hany : (n.targets.any fun l => (s.target l).isSome) = false := by
    rw [List.any_eq_false]
    exact fun l hl => by simp [h l hl]
  rw [State.waiting, hany, Bool.false_and]

/-! ## Invariant -/

/-- What holds for a call in progress. -/
def Task.Ok (root : Activity) (s : State) : Task → Prop
  | eliminate a t => Scoped t.links a ∧ ∀ n ∈ a.nodes, n ∈ root.nodes
  | own n t => Resolves t.links n.info ∧ n ∈ root.nodes ∧ n.structured = false
  | end_ n _ => n ∈ root.nodes ∧ n.structured = true
  | negative n ls t => ∀ l ∈ ls, t.find l = some l ∧ s.determined n = true
  | external => True

/-- What is kept by the parts of a step. -/
structure Core (root : Activity) (s : State) : Prop where
  due : ∀ l, s.due root l = root.sources.count l
  once : (s.stack.flatMap Task.targets).Nodup
  untouched : ∀ i ∈ s.stack.flatMap Task.targets, s.target i = none
  tokens : ∀ n ∈ root.nodes, ∀ i ∈ n.targets, ∀ t, s.target i = some t →
    (∀ j ∈ n.targets, s.target j = some t) ∧ Resolves t.links n.info
  tasks : ∀ task ∈ s.stack, task.Ok root s
  flags : ∀ r ∈ s.log, r.2 = true
  handlers : ∀ l ∈ root.handlerSources, l ∈ s.stack.flatMap Task.handlerLinks
  node : ∀ k, ∀ n ∈ root.nodes, s.node k = some n.info.id → s.determined n = true

/-- The links that have been set are false, and the others have no status. -/
def Inv (root : Activity) (s : State) : Prop :=
  Core root s ∧
    ∀ l ∈ root.sources, s.status l = if l ∈ s.log.map Prod.fst then some false else none

theorem determined_mono {s' : State} (h : ∀ l, s.status l ≠ none → s'.status l ≠ none)
    (hn : s.determined n = true) : s'.determined n = true := by
  rw [State.determined, List.all_eq_true] at hn ⊢
  intro l hl
  rw [Option.isSome_iff_ne_none]
  exact h l (Option.isSome_iff_ne_none.1 (hn l hl))

theorem Task.Ok.mono {s' : State} {task : Task} (h : ∀ l, s.status l ≠ none → s'.status l ≠ none)
    (hok : task.Ok root s) : task.Ok root s' := by
  cases task with
  | negative => exact fun l hl => ⟨(hok l hl).1, determined_mono h (hok l hl).2⟩
  | _ => exact hok

theorem update_status_mono (i : Link) (b : Bool) (l : Link) (h : s.status l ≠ none) :
    Function.update s.status i (some b) l ≠ none := by
  by_cases hl : l = i
  · subst hl
    simp
  · rwa [Function.update_of_ne hl]

/-! ## Notifications -/

/-- The activities that do not have the link as a target wait as before. -/
theorem waiting_update (hn : i ∉ n.targets) (b : Bool) (stack : List Task) :
    { s with status := Function.update s.status i (some b), stack := stack }.waiting n =
      s.waiting n :=
  waiting_congr (fun l hl => Function.update_of_ne (fun h : l = i => hn (h ▸ hl)) _ _)
    fun _ _ => rfl

/-- A link is determined whose target does not wait, or waits for another link as well. -/
theorem due_update {b : Bool} (tasks : List Task) {s' : State}
    (hs' : s' = { s with status := Function.update s.status i (some b),
                         stack := tasks ++ s.stack })
    (htasks : tasks.flatMap Task.links = [])
    (hwaiting : ∀ n ∈ root.nodes, i ∈ n.targets → s'.waiting n = s.waiting n) (l : Link) :
    s'.due root l = s.due root l := by
  have hlinks : s'.waitingLinks root = s.waitingLinks root := waitingLinks_congr fun n hn => by
    by_cases hi : i ∈ n.targets
    · exact hwaiting n hn hi
    · rw [hs']
      exact waiting_update hi b _
  have hlog : s'.log = s.log := by rw [hs']
  have hstack : s'.stack = tasks ++ s.stack := by rw [hs']
  rw [State.due, State.due, hlinks, hlog, hstack, List.flatMap_append, htasks, List.nil_append]

theorem status_of_determined (hn : s.determined n = true) (hi : i ∈ n.targets) :
    s.status i ≠ none := by
  rw [State.determined, List.all_eq_true] at hn
  exact Option.isSome_iff_ne_none.1 (hn i hi)

theorem waiting_eq (h : s.target i = some t) (hi : i ∈ n.targets) :
    s.waiting n = !s.determined n := by
  have hany : (n.targets.any fun l => (s.target l).isSome) = true :=
    List.any_eq_true.2 ⟨i, hi, by rw [h]; rfl⟩
  rw [State.waiting, hany, Bool.true_and]

/-- The last of its targets is determined: the activity does not wait any more. -/
theorem due_last (htargets : root.targets.Nodup) (hn : n ∈ root.nodes) (hin : i ∈ n.targets)
    (ht : s.target i = some t) (hi : s.status i = none) (b : Bool) {s' : State}
    (hs' : s' = { s with status := Function.update s.status i (some b),
                         stack := .negative n n.own t :: s.stack })
    (hdet : s'.determined n = true) (l : Link) : s'.due root l = s.due root l := by
  obtain ⟨before, after, heq, hothers⟩ := split_nodup htargets hn
  have hsame : ∀ m ∈ before ++ after, s'.waiting m = s.waiting m := by
    subst hs'
    exact fun m hm => waiting_update (hothers i hin m hm) b _
  have hafter : s'.waiting n = false := by
    rw [waiting_eq (t := t) (i := i) (by rw [hs']; exact ht) hin, hdet]
    rfl
  have hbefore : s.waiting n = true := by
    have hno : s.determined n = false :=
      Bool.eq_false_iff.2 fun h => status_of_determined h hin hi
    rw [waiting_eq ht hin, hno]
    rfl
  have hcount := count_filter_flatMap (f := Node.own)
    (fun m hm => hsame m (List.mem_append_left _ hm))
    (fun m hm => hsame m (List.mem_append_right _ hm)) hafter hbefore l
  rw [← heq] at hcount
  have hlog : s'.log = s.log := by rw [hs']
  have hstack : s'.stack = .negative n n.own t :: s.stack := by rw [hs']
  rw [State.due, State.due, State.waitingLinks, State.waitingLinks, hcount, hlog, hstack,
    List.flatMap_cons, List.count_append, Task.links]
  omega

/-- A link is determined, and the calls that come of it have none but links that were waiting. -/
theorem statusDetermined_spec (htargets : root.targets.Nodup) (h : Core root s)
    (hi : s.status i = none) (b : Bool) : ∃ tasks s',
      s.statusDetermined root i b = s' ∧
      s' = { s with status := Function.update s.status i (some b), stack := tasks ++ s.stack } ∧
      (∀ task ∈ tasks, task.targets = [] ∧ task.Ok root s') ∧
      ∀ l, s'.due root l = s.due root l := by
  unfold State.statusDetermined
  dsimp only
  cases ht : s.target i with
  | none =>
    refine ⟨[], _, rfl, rfl, fun task htask => absurd htask List.not_mem_nil, ?_⟩
    refine due_update [] rfl rfl fun n hn hin => ?_
    have hnone : ∀ j ∈ n.targets, s.target j = none := by
      intro j hj
      by_contra hsome
      obtain ⟨t, htj⟩ := Option.ne_none_iff_exists'.1 hsome
      rw [(h.tokens n hn j hj t htj).1 i hin] at ht
      cases ht
    rw [waiting_eq_false hnone]
    exact waiting_eq_false hnone
  | some t =>
    dsimp only
    unfold State.targetDetermined
    split
    case h_1 hfind =>
      refine ⟨[.external], _, rfl, rfl, ?_, ?_⟩
      · intro task htask
        rw [List.mem_singleton.1 htask]
        exact ⟨rfl, trivial⟩
      · refine due_update [.external] rfl rfl fun n hn hin => ?_
        exact absurd hin (by simpa using List.find?_eq_none.1 hfind n hn)
    case h_2 n hfind =>
      have hn := List.mem_of_find?_eq_some hfind
      have hin : i ∈ n.targets := by simpa using List.find?_some hfind
      obtain ⟨-, hres⟩ := h.tokens n hn i hin t ht
      rw [areTargetsDetermined_eq hres]
      split
      case isFalse hdet =>
        refine ⟨[], _, rfl, rfl, fun task htask => absurd htask List.not_mem_nil, ?_⟩
        refine due_update [] rfl rfl fun m hm him => ?_
        obtain rfl := node_unique htargets hn hm hin him
        have hno : s.determined m = false :=
          Bool.eq_false_iff.2 fun h => status_of_determined h hin hi
        have hdet' := Bool.eq_false_iff.2 hdet
        rw [waiting_eq (s := s) ht hin, hno, waiting_eq (t := t) (i := i) (by exact ht) hin, hdet']
      case isTrue hdet =>
        have hnode : s.node t.id ≠ some n.info.id := fun hnode =>
          status_of_determined (h.node _ n hn hnode) hin hi
        rw [if_neg hnode]
        refine ⟨[.negative n n.own t], _, rfl, rfl, ?_,
          due_last htargets hn hin ht hi b rfl hdet⟩
        intro task htask
        rw [List.mem_singleton.1 htask]
        exact ⟨rfl, fun l hl => ⟨hres l (List.mem_append_right _ (sources_of_own hl)), hdet⟩⟩

/-! ## Steps -/

/-- A link is determined. -/
theorem Core.statusDetermined (h : Core root s) (htargets : root.targets.Nodup)
    (hi : s.status i = none) (b : Bool) : Core root (s.statusDetermined root i b) ∧
      (s.statusDetermined root i b).status = Function.update s.status i (some b) ∧
      (s.statusDetermined root i b).log = s.log := by
  obtain ⟨tasks, s', heq, hs', htasks, hdue⟩ := statusDetermined_spec htargets h hi b
  rw [heq]
  have hmono : ∀ l, s.status l ≠ none → s'.status l ≠ none := by
    rw [hs']
    exact fun l hl => update_status_mono i b l hl
  have hstack : s'.stack = tasks ++ s.stack := by rw [hs']
  have htarget : s'.target = s.target := by rw [hs']
  have hlog : s'.log = s.log := by rw [hs']
  have hnode : s'.node = s.node := by rw [hs']
  have htargets' : s'.stack.flatMap Task.targets = s.stack.flatMap Task.targets := by
    have hnil : tasks.flatMap Task.targets = [] :=
      List.flatMap_eq_nil_iff.2 fun task htask => (htasks task htask).1
    rw [hstack, List.flatMap_append, hnil, List.nil_append]
  refine ⟨⟨fun l => (hdue l).trans (h.due l), ?_, ?_, ?_, ?_, ?_, ?_, ?_⟩, by rw [hs'], hlog⟩
  · rw [htargets']
    exact h.once
  · rw [htargets', htarget]
    exact h.untouched
  · rw [htarget]
    exact h.tokens
  · intro task htask
    rw [hstack] at htask
    rcases List.mem_append.1 htask with hnew | hold
    · exact (htasks task hnew).2
    · exact (h.tasks task hold).mono hmono
  · rw [hlog]
    exact h.flags
  · intro l hl
    rw [hstack, List.flatMap_append]
    exact List.mem_append_right _ (h.handlers l hl)
  · intro k n hn hk
    rw [hnode] at hk
    exact determined_mono hmono (h.node k n hn hk)

/-- The innermost call is replaced by others, which come to the same activities. -/
theorem Core.replace {task : Task} {rest : List Task} {s' : State} (h : Core root s)
    (tasks : List Task)
    (hstack : s.stack = task :: rest) (hs' : s' = { s with stack := tasks ++ rest })
    (hlinks : ∀ l, (tasks.flatMap Task.links).count l = task.links.count l)
    (htargets : (tasks.flatMap Task.targets).Sublist task.targets)
    (hok : ∀ task' ∈ tasks, task'.Ok root s)
    (hhandlers : ∀ l ∈ task.handlerLinks, l ∈ tasks.flatMap Task.handlerLinks) :
    Core root s' := by
  subst hs'
  have hsublist : ((tasks ++ rest).flatMap Task.targets).Sublist
      (s.stack.flatMap Task.targets) := by
    rw [hstack, List.flatMap_append, List.flatMap_cons]
    exact htargets.append_right _
  refine ⟨fun l => ?_, h.once.sublist hsublist, fun i hi => h.untouched i (hsublist.subset hi),
    h.tokens, fun task' htask' => ?_, h.flags, fun l hl => ?_, h.node⟩
  · rw [← h.due l]
    have hl := hlinks l
    change _ + ((tasks ++ rest).flatMap Task.links).count l + _ = _
    rw [State.due, hstack, List.flatMap_append, List.flatMap_cons, List.count_append,
      List.count_append, hl]
    rfl
  · rcases List.mem_append.1 htask' with hnew | hold
    · exact (hok task' hnew).mono fun _ hl => hl
    · exact (h.tasks task' (by rw [hstack]; exact List.mem_cons_of_mem _ hold)).mono fun _ hl => hl
  · have hall := h.handlers l hl
    rw [hstack, List.flatMap_cons, List.mem_append] at hall
    change l ∈ (tasks ++ rest).flatMap Task.handlerLinks
    rw [List.flatMap_append, List.mem_append]
    exact hall.imp (hhandlers l) id

/-- A token for the links of a flow. -/
theorem Core.initializeLinks (h : Core root s) (links : List Link) (t : Token) :
    Core root (s.initializeLinks links t).2 := by
  rw [State.initializeLinks]
  split
  · exact h
  · refine { h with tasks := fun task htask => (h.tasks task htask).mono fun _ hl => hl,
                    node := fun k n hn hk => ?_ }
    dsimp only at hk
    by_cases hnew : k = s.tokens
    · subst hnew
      rw [Function.update_self] at hk
      exact h.node _ n hn hk
    · rw [Function.update_of_ne hnew] at hk
      exact h.node k n hn hk

/-- `setTargetsToken` is about the targets of one activity. -/
theorem Core.tokens_set (h : Core root s) (htargets : root.targets.Nodup) (hn : n ∈ root.nodes)
    (hres : Resolves t.links n.info) : ∀ m ∈ root.nodes, ∀ i ∈ m.targets, ∀ t',
      (s.setTargetsToken n.targets t).target i = some t' →
      (∀ j ∈ m.targets, (s.setTargetsToken n.targets t).target j = some t') ∧
        Resolves t'.links m.info := by
  intro m hm i hi t' ht'
  simp only [State.setTargetsToken] at ht' ⊢
  split at ht'
  case isTrue hin =>
    obtain rfl := node_unique htargets hn hm hin hi
    obtain rfl := Option.some.inj ht'
    exact ⟨fun j hj => if_pos hj, hres⟩
  case isFalse hout =>
    obtain ⟨hall, hres'⟩ := h.tokens m hm i hi t' ht'
    refine ⟨fun j hj => ?_, hres'⟩
    rw [if_neg, hall j hj]
    intro hjn
    obtain rfl := node_unique htargets hn hm hjn hj
    exact hout hi

/-- The other activities wait as before. -/
theorem waiting_set (hdisjoint : ∀ l ∈ n.targets, l ∉ m.targets) {s' : State}
    (hstatus : s'.status = s.status)
    (htarget : s'.target = (s.setTargetsToken n.targets t).target) :
    s'.waiting m = s.waiting m := by
  refine waiting_congr (fun _ _ => by rw [hstatus]) fun l hl => ?_
  rw [htarget]
  exact if_neg fun hln => hdisjoint l hln hl

theorem waiting_set_self {s' : State}
    (htarget : s'.target = (s.setTargetsToken n.targets t).target) :
    s'.waiting n = (decide (n.targets ≠ []) && !s'.determined n) := by
  have hall : ∀ l ∈ n.targets, s'.target l = some t := by
    rw [htarget]
    exact fun l hl => if_pos hl
  cases hls : n.targets with
  | nil =>
    rw [waiting_eq_false (by rw [hls]; simp)]
    rfl
  | cons l ls =>
    have hl : l ∈ n.targets := by
      rw [hls]
      exact List.mem_cons_self
    rw [waiting_eq (hall l hl) hl]
    simp

theorem eliminateOwn_eq (hres : Resolves t.links n.info) : s.eliminateOwn n t = some
    (if n.targets ≠ [] ∧ s.determined n = false then s.setTargetsToken n.targets t
    else { s.setTargetsToken n.targets t with stack := .negative n n.sources t :: s.stack }) := by
  have hfind : ∀ l ∈ n.targets, t.find l = some l := fun l hl => hres l (List.mem_append_left _ hl)
  rw [State.eliminateOwn, mapM_find hfind, Option.map_some]
  dsimp only
  rw [areTargetsDetermined_eq hres]
  rfl

/-- The innermost call has come to its activity. -/
theorem Core.own_of_due {rest : List Task} (h : Core root s) (tasks : List Task)
    (hwf : root.targets.Nodup)
    (hstack : s.stack = .own n t :: rest) {s' : State} (hs' : s' = { s with
      target := (s.setTargetsToken n.targets t).target, stack := tasks ++ rest })
    (htasks : ∀ task ∈ tasks, task.targets = [] ∧ task.Ok root s)
    (hdue : ∀ l, s'.due root l = root.sources.count l) : Core root s' := by
  have hown := h.tasks (.own n t) (by rw [hstack]; exact List.mem_cons_self)
  obtain ⟨hres, hn, -⟩ := hown
  have honce := h.once
  have huntouched := h.untouched
  rw [hstack, List.flatMap_cons, Task.targets] at honce huntouched
  have htokens := h.tokens_set hwf hn hres
  have hrest : (tasks ++ rest).flatMap Task.targets = rest.flatMap Task.targets := by
    have hnil : tasks.flatMap Task.targets = [] :=
      List.flatMap_eq_nil_iff.2 fun task htask => (htasks task htask).1
    rw [List.flatMap_append, hnil, List.nil_append]
  subst hs'
  refine ⟨hdue, ?_, fun i hi => ?_, htokens, fun task htask => ?_, h.flags, fun l hl => ?_, h.node⟩
  · change ((tasks ++ rest).flatMap Task.targets).Nodup
    rw [hrest]
    exact (List.nodup_append.1 honce).2.1
  · change i ∈ (tasks ++ rest).flatMap Task.targets at hi
    rw [hrest] at hi
    refine (if_neg fun hin => ?_).trans (huntouched i (List.mem_append_right _ hi))
    exact (List.nodup_append.1 honce).2.2 i hin i hi rfl
  · rcases List.mem_append.1 htask with hnew | hold
    · exact (htasks task hnew).2.mono fun _ hl => hl
    · have hmem : task ∈ s.stack := by
        rw [hstack]
        exact List.mem_cons_of_mem _ hold
      exact (h.tasks task hmem).mono fun _ hl => hl
  · have hall : l ∈ rest.flatMap Task.handlerLinks := by
      simpa [hstack, Task.handlerLinks] using h.handlers l hl
    change l ∈ (tasks ++ rest).flatMap Task.handlerLinks
    rw [List.flatMap_append]
    exact List.mem_append_right _ hall

/-- The activity waits for its targets from now on, or its links are to be set. -/
theorem Core.own {rest : List Task} {s' : State} (h : Core root s) (hwf : root.targets.Nodup)
    (hstack : s.stack = .own n t :: rest)
    (hs' : { s with stack := rest }.eliminateOwn n t = some s') :
    Core root s' ∧ s'.status = s.status ∧ s'.log = s.log := by
  have hown := h.tasks (.own n t) (by rw [hstack]; exact List.mem_cons_self)
  obtain ⟨hres, hn, hbasic⟩ := hown
  have huntouched := h.untouched
  rw [hstack, List.flatMap_cons, Task.targets] at huntouched
  have hno : s.waiting n = false :=
    waiting_eq_false fun l hl => huntouched l (List.mem_append_left _ hl)
  have hdue : ∀ l, (s.log.map Prod.fst).count l + (n.sources.count l +
      (rest.flatMap Task.links).count l) + (s.waitingLinks root).count l =
        root.sources.count l := by
    intro l
    rw [← h.due l, State.due, hstack, List.flatMap_cons, List.count_append, Task.links]
  rw [eliminateOwn_eq hres, Option.some.injEq] at hs'
  have hfields : s'.status = s.status ∧ s'.log = s.log ∧
      s'.target = (s.setTargetsToken n.targets t).target := by
    rw [← hs']
    split <;> exact ⟨rfl, rfl, rfl⟩
  obtain ⟨hstatus, hlog, htarget⟩ := hfields
  have hdetermined : s'.determined n = s.determined n := determined_congr fun _ _ => by rw [hstatus]
  split at hs'
  case isTrue hwait =>
    obtain ⟨hne, hdet⟩ := hwait
    refine ⟨h.own_of_due [] hwf hstack hs'.symm
      (fun _ htask => absurd htask List.not_mem_nil) fun l => ?_, hstatus, hlog⟩
    obtain ⟨before, after, heq, hothers⟩ := split_nodup hwf hn
    have hself : s'.waiting n = true := by
      rw [waiting_set_self htarget, hdetermined, decide_eq_true hne]
      rw [show s.determined n = false from hdet]
      rfl
    have hsame : ∀ m ∈ before ++ after, s.waiting m = s'.waiting m :=
      fun m hm => (waiting_set (fun l hl => hothers l hl m hm) hstatus htarget).symm
    have hcount := count_filter_flatMap (f := Node.own)
      (fun m hm => hsame m (List.mem_append_left _ hm))
      (fun m hm => hsame m (List.mem_append_right _ hm)) hno hself l
    rw [← heq, Node.own, if_neg (by rw [hbasic]; exact Bool.false_ne_true)] at hcount
    have hstack' : s'.stack = rest := by rw [← hs']; rfl
    rw [← hdue l, State.due, State.waitingLinks, hcount, State.waitingLinks, hlog, hstack']
    omega
  case isFalse hset =>
    have hdet : s.determined n = true ∨ n.targets = [] := by
      by_contra hno
      rw [not_or] at hno
      exact hset ⟨hno.2, Bool.eq_false_iff.2 hno.1⟩
    refine ⟨h.own_of_due [.negative n n.sources t] hwf hstack hs'.symm ?_ fun l => ?_,
      hstatus, hlog⟩
    · intro task htask
      rw [List.mem_singleton.1 htask]
      refine ⟨rfl, fun l hl => ⟨hres l (List.mem_append_right _ hl), ?_⟩⟩
      exact hdet.elim id fun hnil => by rw [State.determined, hnil]; rfl
    · have hlinks : s'.waitingLinks root = s.waitingLinks root := by
        refine waitingLinks_congr fun m hm => ?_
        by_cases hmn : m = n
        · rw [hmn, hno, waiting_set_self htarget, hdetermined]
          rcases hdet with hyes | hnil
          · simp [hyes]
          · simp [hnil]
        · exact waiting_set (fun l hl hlm => hmn (node_unique hwf hn hm hl hlm)) hstatus htarget
      have hstack' : s'.stack = .negative n n.sources t :: rest := by rw [← hs']
      rw [State.due, hlinks, hlog, hstack', ← hdue l, List.flatMap_cons, List.count_append,
        Task.links]

/-- The next link of an activity is set to false. -/
theorem Core.negative {l : Link} {ls : List Link} {rest : List Task} (h : Inv root s)
    (hsources : (root.sources ++ root.handlerSources).Nodup)
    (hstack : s.stack = .negative n (l :: ls) t :: rest) {s' : State}
    (hs' : s' = { s with stack := .negative n ls t :: rest, log := s.log ++ [(l, s.determined n)] }) :
    Core root s' ∧ l ∈ root.sources ∧ s.status l = none ∧ l ∉ s.log.map Prod.fst := by
  obtain ⟨hcore, hstatus⟩ := h
  have hok := hcore.tasks (.negative n (l :: ls) t) (by rw [hstack]; exact List.mem_cons_self)
  have hdet : s.determined n = true := (hok l List.mem_cons_self).2
  have hdue : ∀ k, (s.log.map Prod.fst).count k + ((l :: ls).count k +
      (rest.flatMap Task.links).count k) + (s.waitingLinks root).count k =
        root.sources.count k := by
    intro k
    rw [← hcore.due k, State.due, hstack, List.flatMap_cons, List.count_append, Task.links]
  have honce : root.sources.count l ≤ 1 :=
    List.nodup_iff_count_le_one.1 (List.nodup_append.1 hsources).1 l
  have hself := hdue l
  rw [List.count_cons_self] at hself
  have hmem : l ∈ root.sources := List.count_pos_iff.1 (by omega)
  have hlog : l ∉ s.log.map Prod.fst := List.count_eq_zero.1 (by omega)
  refine ⟨?_, hmem, by rw [hstatus l hmem, if_neg hlog], hlog⟩
  subst hs'
  refine ⟨fun k => ?_, ?_, ?_, hcore.tokens, fun task htask => ?_, fun r hr => ?_, fun k hk => ?_,
    hcore.node⟩
  · rw [← hdue k]
    change ((s.log ++ [(l, s.determined n)]).map Prod.fst).count k +
      ((Task.negative n ls t :: rest).flatMap Task.links).count k + (s.waitingLinks root).count k = _
    rw [List.map_append, List.count_append, List.flatMap_cons, List.count_append, Task.links,
      List.map_singleton, List.count_cons, List.count_cons, List.count_nil]
    dsimp only
    omega
  · have honce := hcore.once
    rwa [hstack, List.flatMap_cons, Task.targets] at honce
  · have huntouched := hcore.untouched
    rwa [hstack, List.flatMap_cons, Task.targets] at huntouched
  · rcases List.mem_cons.1 htask with rfl | hold
    · exact fun k hk => hok k (List.mem_cons_of_mem _ hk)
    · have hmem' : task ∈ s.stack := by
        rw [hstack]
        exact List.mem_cons_of_mem _ hold
      exact (hcore.tasks task hmem').mono fun _ hl => hl
  · rcases List.mem_append.1 hr with hold | hnew
    · exact hcore.flags r hold
    · rw [List.mem_singleton.1 hnew]
      exact hdet
  · have hall := hcore.handlers k hk
    simpa [hstack, Task.handlerLinks] using hall

theorem links_eliminate (as : List Activity) (t : Token) :
    (as.map (Task.eliminate · t)).flatMap Task.links =
      (Activity.nodesAll as).flatMap Node.sources := by
  rw [nodesAll_eq, List.flatMap_map, List.flatMap_assoc]
  rfl

theorem targets_eliminate (as : List Activity) (t : Token) :
    (as.map (Task.eliminate · t)).flatMap Task.targets =
      (Activity.nodesAll as).flatMap Node.targets := by
  rw [nodesAll_eq, List.flatMap_map, List.flatMap_assoc]
  rfl

theorem handlerLinks_eliminate (as : List Activity) (t : Token) :
    (as.map (Task.eliminate · t)).flatMap Task.handlerLinks =
      (Activity.handlerNodesAll as).flatMap Node.sources := by
  rw [handlerNodesAll_eq, List.flatMap_map, List.flatMap_assoc]
  rfl

/-- The activities of a structure and then its end mark. -/
theorem Core.structure_ {rest : List Task} {a : Activity} {t₀ : Token} {j : Info}
    {as : List Activity} {s' : State} (h : Core root s) (hstack : s.stack = .eliminate a t₀ :: rest)
    (hnodes : a.nodes = Activity.nodesAll as ++ [⟨j, true⟩])
    (hhandlers : a.handlerNodes = Activity.handlerNodesAll as)
    (hnames : ScopedAll t.links as)
    (hs' : s' = { s with
      stack := (as.map (Task.eliminate · t) ++ [.end_ ⟨j, true⟩ t]) ++ rest }) :
    Core root s' := by
  have hok := h.tasks (.eliminate a t₀) (by rw [hstack]; exact List.mem_cons_self)
  have hin : ∀ n ∈ a.nodes, n ∈ root.nodes := hok.2
  rw [hnodes] at hin
  refine h.replace _ hstack hs' (fun l => ?_) ?_ (fun task htask => ?_) fun l hl => ?_
  · rw [List.flatMap_append, links_eliminate, Task.links, Activity.sources, hnodes,
      List.flatMap_append]
    rfl
  · rw [List.flatMap_append, targets_eliminate, Task.targets, Activity.targets, hnodes,
      List.flatMap_append]
    exact List.Sublist.append_left (List.nil_sublist _) _
  · rcases List.mem_append.1 htask with hnew | hend
    · obtain ⟨b, hb, rfl⟩ := List.mem_map.1 hnew
      refine ⟨hnames.of_mem hb, fun n hn => hin n (List.mem_append_left _ ?_)⟩
      rw [nodesAll_eq]
      exact List.mem_flatMap.2 ⟨b, hb, hn⟩
    · rw [List.mem_singleton.1 hend]
      exact ⟨hin _ (List.mem_append_right _ List.mem_cons_self), rfl⟩
  · rw [List.flatMap_append, handlerLinks_eliminate]
    rw [Task.handlerLinks, Activity.handlerSources, hhandlers] at hl
    exact List.mem_append_left _ hl

theorem initializeLinks_links (s : State) (links : List Link) (t : Token) :
    (s.initializeLinks links t).1.links = links ++ t.links := by
  rw [State.initializeLinks]
  split
  case isTrue hnil => rw [List.isEmpty_iff.1 hnil, List.nil_append]
  case isFalse => rfl

theorem initializeLinks_fields (s : State) (links : List Link) (t : Token) :
    (s.initializeLinks links t).2.stack = s.stack ∧
      (s.initializeLinks links t).2.status = s.status ∧
      (s.initializeLinks links t).2.log = s.log := by
  rw [State.initializeLinks]
  split <;> exact ⟨rfl, rfl, rfl⟩

/-- One step of the innermost call. -/
theorem Inv.run {t₀ : Token} {s' : State} (h : Inv root s) (hwf : WellFormed root t₀)
    (hsafe : Safe s .run) (hs' : s.run root = some s') : Inv root s' := by
  have hcore := h.1
  unfold State.run at hs'
  split at hs'
  case h_1 => cases hs'
  case h_2 => cases hs'
  case h_3 i t rest hstack =>
    obtain ⟨hnames, hin⟩ := hcore.tasks _ (by rw [hstack]; exact List.mem_cons_self)
    cases hs'
    refine ⟨hcore.replace [.own ⟨i, false⟩ t] hstack rfl (fun l => ?_) ?_
      (fun task htask => ?_) fun l hl => ?_, h.2⟩
    · simp [Task.links, Activity.sources, Activity.nodes]
    · simp [Task.targets, Activity.targets, Activity.nodes]
    · rw [List.mem_singleton.1 htask]
      exact ⟨hnames, hin _ List.mem_cons_self, rfl⟩
    · exact absurd hl List.not_mem_nil
  case h_4 i activities t rest hstack =>
    obtain ⟨hnames, -⟩ := hcore.tasks _ (by rw [hstack]; exact List.mem_cons_self)
    cases hs'
    exact ⟨hcore.structure_ hstack rfl rfl hnames.2 (by simp), h.2⟩
  case h_5 i links activities t rest hstack =>
    obtain ⟨hnames, -⟩ := hcore.tasks _ (by rw [hstack]; exact List.mem_cons_self)
    obtain ⟨hstack', hstatus, hlog⟩ := initializeLinks_fields s links t
    have hlinks := initializeLinks_links s links t
    have hcore' := hcore.initializeLinks links t
    generalize s.initializeLinks links t = r at hs' hstack' hstatus hlog hlinks hcore'
    obtain ⟨t', s₁⟩ := r
    cases hs'
    refine ⟨hcore'.structure_ (t := t') (hstack'.trans hstack) rfl rfl ?_ (by simp), ?_⟩
    · rw [hlinks]
      exact hnames.2
    · intro l hl
      change s₁.status l = if l ∈ s₁.log.map Prod.fst then some false else none
      rw [hstatus, hlog]
      exact h.2 l hl
  case h_6 i handlers activity t rest hstack =>
    obtain ⟨hnames, hin⟩ := hcore.tasks _ (by rw [hstack]; exact List.mem_cons_self)
    rw [Activity.nodes] at hin
    cases hs'
    have hnone : ∀ n ∈ Activity.nodesAll handlers ++ Activity.handlerNodesAll handlers,
        n.sources = [] :=
      hsafe (.eliminate (.scope i handlers activity) t) (by rw [hstack]; rfl)
    refine ⟨hcore.replace [.eliminate activity t, .own ⟨i, false⟩ t] hstack rfl
      (fun l => ?_) ?_ (fun task htask => ?_) fun l hl => ?_, h.2⟩
    · simp [Task.links, Activity.sources, Activity.nodes]
    · simp [Task.targets, Activity.targets, Activity.nodes]
    · rcases List.mem_cons.1 htask with rfl | hown
      · exact ⟨hnames.2, fun n hn => hin n (List.mem_append_left _ hn)⟩
      · rw [List.mem_singleton.1 hown]
        exact ⟨hnames.1, hin _ (List.mem_append_right _ List.mem_cons_self), rfl⟩
    · rw [Task.handlerLinks, Activity.handlerSources, Activity.handlerNodes,
        List.flatMap_append, List.flatMap_eq_nil_iff.2 hnone, List.nil_append] at hl
      exact List.mem_append_left _ hl
  case h_7 n t rest hstack =>
    obtain ⟨hcore', hstatus, hlog⟩ := hcore.own hwf.targets hstack hs'
    refine ⟨hcore', ?_⟩
    rw [hstatus, hlog]
    exact h.2
  case h_8 n t rest hstack =>
    have hend : n.sources = [] ∨ s.determined n = true ∧ ∀ l ∈ n.sources, t.find l = some l :=
      hsafe (.end_ n t) (by rw [hstack]; rfl)
    cases hs'
    refine ⟨hcore.replace [.negative n n.sources t] hstack rfl (fun l => ?_)
      (List.nil_sublist _) (fun task htask => ?_) fun l hl => absurd hl List.not_mem_nil, h.2⟩
    · simp [Task.links]
    · rw [List.mem_singleton.1 htask]
      intro l hl
      rcases hend with hnil | ⟨hdet, hfind⟩
      · rw [hnil] at hl
        exact absurd hl List.not_mem_nil
      · exact ⟨hfind l hl, hdet⟩
  case h_9 n t rest hstack =>
    cases hs'
    exact ⟨hcore.replace [] hstack rfl (fun _ => rfl) (List.nil_sublist _)
      (fun _ htask => absurd htask List.not_mem_nil) fun l hl => absurd hl List.not_mem_nil, h.2⟩
  case h_10 n l ls t rest hstack =>
    have hfind := hcore.tasks (.negative n (l :: ls) t) (by rw [hstack]; exact List.mem_cons_self)
    rw [(hfind l List.mem_cons_self).1, Option.map_some, Option.some.injEq] at hs'
    obtain ⟨hcore', hmem, hnone, hlog⟩ := Core.negative h hwf.sources hstack rfl
    obtain ⟨hdone, hstatus, hlog'⟩ := hcore'.statusDetermined hwf.targets hnone false
    rw [hs'] at hdone hstatus hlog'
    refine ⟨hdone, fun k hk => ?_⟩
    rw [hstatus, hlog', List.map_append, List.map_singleton]
    by_cases hkl : k = l
    · subst hkl
      simp
    · rw [Function.update_of_ne hkl]
      simpa [hkl] using h.2 k hk

theorem Core.mem_targets (h : Core root s) (hi : i ∈ s.stack.flatMap Task.targets) :
    i ∈ root.targets := by
  obtain ⟨task, htask, hi⟩ := List.mem_flatMap.1 hi
  have hok := h.tasks task htask
  cases task with
  | eliminate a t =>
    obtain ⟨n, hn, hin⟩ := List.mem_flatMap.1 hi
    exact List.mem_flatMap.2 ⟨n, hok.2 n hn, hin⟩
  | own n t => exact List.mem_flatMap.2 ⟨n, hok.2.1, hi⟩
  | _ => exact absurd hi List.not_mem_nil

/-- A link elsewhere is no target of the activities, and they keep waiting. -/
theorem Core.waits (h : Core root s) (hl : l ∉ root.targets) (t : Token) :
    Core root { s with target := Function.update s.target l (some t) } := by
  have hsame : ∀ i ∈ root.targets, Function.update s.target l (some t) i = s.target i :=
    fun i hi => Function.update_of_ne (fun heq : i = l => hl (heq ▸ hi)) _ _
  have hmem : ∀ n ∈ root.nodes, ∀ i ∈ n.targets, i ∈ root.targets :=
    fun n hn i hi => List.mem_flatMap.2 ⟨n, hn, hi⟩
  have hlinks : { s with target := Function.update s.target l (some t) }.waitingLinks root =
      s.waitingLinks root :=
    waitingLinks_congr fun n hn => waiting_congr (fun _ _ => rfl)
      fun i hi => hsame i (hmem n hn i hi)
  refine ⟨fun k => ?_, h.once, fun i hi => ?_, fun n hn i hi t' ht' => ?_,
    fun task htask => (h.tasks task htask).mono fun _ hk => hk, h.flags, h.handlers, h.node⟩
  · rw [← h.due k, State.due, hlinks]
    rfl
  · exact (hsame i (h.mem_targets hi)).trans (h.untouched i hi)
  · dsimp only at ht' ⊢
    rw [hsame i (hmem n hn i hi)] at ht'
    obtain ⟨hall, hres⟩ := h.tokens n hn i hi t' ht'
    exact ⟨fun j hj => (hsame j (hmem n hn j hj)).trans (hall j hj), hres⟩

theorem Inv.step {t₀ : Token} {s' : State} {act : Act} (h : Inv root s)
    (hwf : WellFormed root t₀) (hsafe : Safe s act) (hs' : step root s act = some s') :
    Inv root s' := by
  obtain ⟨hcore, hstatus⟩ := h
  cases act with
  | run => exact Inv.run ⟨hcore, hstatus⟩ hwf hsafe hs'
  | determined l b =>
    obtain ⟨⟨-, hnone, hl⟩, ⟨⟩⟩ := Option.ite_none_right_eq_some.1 hs'
    obtain ⟨hdone, hupdate, hlog⟩ := hcore.statusDetermined hwf.targets hnone b
    refine ⟨hdone, fun k hk => ?_⟩
    have hkl : k ≠ l := by
      rintro rfl
      exact hl (List.mem_append_left _ hk)
    rw [hupdate, hlog, Function.update_of_ne hkl]
    exact hstatus k hk
  | waits l t =>
    obtain ⟨⟨-, hl⟩, ⟨⟩⟩ := Option.ite_none_right_eq_some.1 hs'
    exact ⟨hcore.waits hl t, hstatus⟩
  | moves k m =>
    obtain ⟨⟨-, hm⟩, ⟨⟩⟩ := Option.ite_none_right_eq_some.1 hs'
    refine ⟨{ hcore with
      tasks := fun task htask => (hcore.tasks task htask).mono fun _ hl => hl,
      node := fun k' n hn hk' => ?_ }, hstatus⟩
    dsimp only at hk'
    by_cases hkk : k' = k
    · subst hkk
      rw [Function.update_self] at hk'
      exact absurd hk' (hm n hn)
    · rw [Function.update_of_ne hkk] at hk'
      exact hcore.node k' n hn hk'
  | returns =>
    unfold Elimination.step at hs'
    dsimp only at hs'
    split at hs'
    case h_1 rest hstack =>
      cases hs'
      exact ⟨hcore.replace [] hstack rfl (fun _ => rfl) (List.nil_sublist _)
        (fun _ htask => absurd htask List.not_mem_nil) fun l hl => absurd hl List.not_mem_nil,
        hstatus⟩
    case h_2 => cases hs'

theorem Start.inv {t₀ : Token} (h : Start root t₀ s) (hwf : WellFormed root t₀) : Inv root s := by
  have hnone : ∀ n ∈ root.nodes, ∀ i ∈ n.targets, s.target i = none :=
    fun n hn i hi => h.target i (List.mem_flatMap.2 ⟨n, hn, hi⟩)
  have hwaiting : s.waitingLinks root = [] := by
    rw [State.waitingLinks, List.filter_eq_nil_iff.2 fun n hn => by
      rw [waiting_eq_false (hnone n hn)]
      exact Bool.false_ne_true]
    rfl
  refine ⟨⟨fun l => ?_, ?_, ?_, ?_, ?_, ?_, ?_, h.node⟩, ?_⟩
  · rw [State.due, hwaiting, h.log, h.stack]
    simp [Task.links]
  · rw [h.stack]
    simpa [Task.targets] using hwf.targets
  · rw [h.stack]
    simpa [Task.targets] using h.target
  · intro n hn i hi t ht
    rw [hnone n hn i hi] at ht
    cases ht
  · rw [h.stack]
    intro task htask
    rw [List.mem_singleton.1 htask]
    exact ⟨hwf.names, fun n hn => hn⟩
  · rw [h.log]
    exact fun r hr => absurd hr List.not_mem_nil
  · rw [h.stack]
    simp [Task.handlerLinks]
  · rw [h.log]
    simpa using h.status

theorem Inv.controlled {t₀ : Token} (h : Inv root s) (hwf : WellFormed root t₀) :
    Controlled root s := by
  obtain ⟨hcore, hstatus⟩ := h
  refine ⟨fun l _ => ?_, hcore.flags, fun hstack n hn hdet l hl => ?_⟩
  · have hdue := hcore.due l
    have honce : root.sources.count l ≤ 1 :=
      List.nodup_iff_count_le_one.1 (List.nodup_append.1 hwf.sources).1 l
    rw [State.due] at hdue
    omega
  · rcases List.mem_append.1 hn with hnode | hhandler
    · have hmem : l ∈ root.sources := List.mem_flatMap.2 ⟨n, hnode, hl⟩
      have hnodup := (List.nodup_append.1 hwf.sources).1
      have hno : l ∉ s.waitingLinks root := by
        intro hwait
        obtain ⟨m, hm, hlm⟩ := List.mem_flatMap.1 hwait
        obtain ⟨hm, hmwait⟩ := List.mem_filter.1 hm
        obtain rfl := node_unique hnodup hnode hm hl (sources_of_own hlm)
        simp [State.waiting, hdet] at hmwait
      have hdue := hcore.due l
      rw [State.due, hstack, List.count_eq_zero.2 hno, List.count_eq_one_of_mem hnodup hmem] at hdue
      have hcount : (s.log.map Prod.fst).count l = 1 := hdue
      refine ⟨hcount, ?_⟩
      rw [hstatus l hmem, if_pos (List.count_pos_iff.1 (by omega))]
    · have hmem := hcore.handlers l (List.mem_flatMap.2 ⟨n, hhandler, hl⟩)
      rw [hstack] at hmem
      exact absurd hmem List.not_mem_nil

/-- A call in progress can go on: the token finds every link that the call looks up. -/
theorem Core.progress {task : Task} {rest : List Task} (h : Core root s)
    (hstack : s.stack = task :: rest) (hexternal : task ≠ .external) : s.run root ≠ none := by
  have hok : task.Ok root s := h.tasks task (by rw [hstack]; exact List.mem_cons_self)
  rw [State.run, hstack]
  cases task with
  | eliminate a t => cases a <;> exact Option.some_ne_none _
  | own n t =>
    obtain ⟨hnames, -, -⟩ := hok
    dsimp only
    rw [eliminateOwn_eq hnames]
    exact Option.some_ne_none _
  | end_ n t => exact Option.some_ne_none _
  | negative n ls t =>
    cases ls with
    | nil => exact Option.some_ne_none _
    | cons l ls =>
      dsimp only
      rw [(hok l List.mem_cons_self).1]
      exact Option.some_ne_none _
  | external => exact absurd rfl hexternal

end

/-- A link into the activity from elsewhere, one out of it, and one out of the structure. -/
def ofStructure : List Link := [⟨0, "in"⟩, ⟨1, "out"⟩, ⟨2, "end"⟩]

/-- An activity in a structure. -/
def inStructure : Activity :=
  .structure_ ⟨0, [], [⟨2, "end"⟩]⟩ [.basic ⟨1, [⟨0, "in"⟩], [⟨1, "out"⟩]⟩]

/-- A structure that is itself the target of the link. -/
def targetStructure : Activity := .structure_ ⟨0, [⟨0, "in"⟩], [⟨2, "end"⟩]⟩ []

/-- The activity is not executed. -/
def dead (root : Activity) : State where
  status _ := none
  target _ := none
  node _ := none
  tokens := 1
  stack := [.eliminate root ⟨0, ofStructure⟩]
  log := []

/-- The state after the steps, where those that are not possible are left out. -/
def after (root : Activity) (acts : List Act) : State :=
  acts.foldl (fun s act => (step root s act).getD s) (dead root)

/-- The link into the activity is determined after the elimination. -/
def late : List Act := List.replicate 6 .run ++ [.determined ⟨0, "in"⟩ true, .run, .run]

end Bpel.Elimination

end Jbpm
