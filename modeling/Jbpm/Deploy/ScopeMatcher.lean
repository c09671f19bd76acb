/-
  The scopes of a process that scope descriptors denote.

  * `Activity`, `Scope`: activities, with scopes in handlers and outside of them;
  * `findScope`, `visit`: the matcher, with the descriptors that are put in its map;
  * `findScope_eq_iff`: when the search finds the one scope that carries a name;
  * `matched_iff`: the definitions and descriptors that are matched.
-/
import Jbpm.Deploy.DeploymentDescriptor

namespace Jbpm

namespace Deploy

/-! ## Activities -/

/-- An activity; a composite one is structured or a scope.  The activity of a scope may be missing;
    its handlers are given by their activities, if they have one. -/
inductive Activity (S : Type)
  | basic
  | structured (nodes : List (Activity S))
  | scope (id : S) (name : String) (isUnnamed : Bool) (activity : Option (Activity S))
    (handlers : List (Activity S))

structure Scope (S : Type) where
  id : S
  name : String
  isUnnamed : Bool
  activity : Option (Activity S)
  handlers : List (Activity S)

variable {S Q R : Type}

/-- The scope of a descriptor: an unnamed one for an unnamed descriptor. -/
def Scope.carries (appScopeName : Option String) (s : Scope S) : Bool :=
  match appScopeName with
  | some name => name = s.name
  | none => s.isUnnamed

mutual

/-- The scopes outside of handlers, each before those that it encloses. -/
def Activity.scopes : Activity S → List (Scope S)
  | .basic => []
  | .structured nodes => scopesAll nodes
  | .scope id name isUnnamed none handlers => [⟨id, name, isUnnamed, none, handlers⟩]
  | .scope id name isUnnamed (some a) handlers =>
    ⟨id, name, isUnnamed, some a, handlers⟩ :: a.scopes

def scopesAll : List (Activity S) → List (Scope S)
  | [] => []
  | a :: rest => a.scopes ++ scopesAll rest

end

mutual

/-- The scopes in handlers. -/
def Activity.handled : Activity S → List (Scope S)
  | .basic => []
  | .structured nodes => handledAll nodes
  | .scope _ _ _ none handlers => scopesAll handlers ++ handledAll handlers
  | .scope _ _ _ (some a) handlers => a.handled ++ (scopesAll handlers ++ handledAll handlers)

def handledAll : List (Activity S) → List (Scope S)
  | [] => []
  | a :: rest => a.handled ++ handledAll rest

end

/-! ## The matcher -/

inductive Failure
  | conflict
  | nullPointer
  deriving DecidableEq

/-- A scope is found where one may be found already. -/
def combine (matchingScope : Option (Scope S)) :
    Option (Scope S) → Except Failure (Option (Scope S))
  | none => .ok matchingScope
  | some scope => if matchingScope.isSome then .error .conflict else .ok (some scope)

mutual

/-- The loop of `findScope` for one activity. -/
def findNode (appScopeName : Option String) :
    Activity S → Option (Scope S) → Except Failure (Option (Scope S))
  | .basic, matchingScope => .ok matchingScope
  | .structured nodes, matchingScope =>
    (findNodes appScopeName nodes none).bind (combine matchingScope)
  | .scope id name isUnnamed none handlers, matchingScope =>
    let scope : Scope S := ⟨id, name, isUnnamed, none, handlers⟩
    (if scope.carries appScopeName then combine matchingScope (some scope)
      else .ok matchingScope).bind fun _ => .error .nullPointer
  | .scope id name isUnnamed (some a) handlers, matchingScope =>
    let scope : Scope S := ⟨id, name, isUnnamed, some a, handlers⟩
    (if scope.carries appScopeName then combine matchingScope (some scope)
      else .ok matchingScope).bind fun matchingScope =>
    (findNode appScopeName a none).bind (combine matchingScope)

def findNodes (appScopeName : Option String) :
    List (Activity S) → Option (Scope S) → Except Failure (Option (Scope S))
  | [], matchingScope => .ok matchingScope
  | a :: rest, matchingScope =>
    (findNode appScopeName a matchingScope).bind (findNodes appScopeName rest)

end

/-- `findScope` in a scope: its activity is its only node. -/
def findScope (appScopeName : Option String) (parent : Scope S) :
    Except Failure (Option (Scope S)) :=
  match parent.activity with
  | none => .error .nullPointer
  | some a => findNodes appScopeName [a] none

/-- What the matcher does: the descriptors that it puts in its map, the names that it searches in a
    scope, and the failure that ends it. -/
structure Log (S Q R : Type) where
  puts : List (Scope S × ScopeDescriptor Q R)
  searches : List (Option String × Scope S)
  failure : Option Failure

def Log.andThen (first second : Log S Q R) : Log S Q R :=
  if first.failure = none then
    ⟨first.puts ++ second.puts, first.searches ++ second.searches, second.failure⟩
  else first

section Visit

variable (find : Option String → Scope S → Except Failure (Option (Scope S)))

mutual

/-- `visit(ScopeDescriptor)`, by a search for scopes; a descriptor is left out if there is no
    scope. -/
def visit (parent : Scope S) : ScopeDescriptor Q R → Log S Q R
  | .mk name links scopes =>
    match find name parent with
    | .error e => ⟨[], [(name, parent)], some e⟩
    | .ok none => ⟨[], [(name, parent)], none⟩
    | .ok (some scope) =>
      Log.andThen ⟨[(scope, .mk name links scopes)], [(name, parent)], none⟩
        (propagate scope scopes)

def propagate (parent : Scope S) : List (ScopeDescriptor Q R) → Log S Q R
  | [] => ⟨[], [], none⟩
  | d :: ds => (visit parent d).andThen (propagate parent ds)

end

/-- `visit(DeploymentDescriptor)` -/
def visitDeployment (globalScope : Scope S) : ScopeDescriptor Q R → Log S Q R
  | .mk name links scopes =>
    Log.andThen ⟨[(globalScope, .mk name links scopes)], [], none⟩
      (propagate find globalScope scopes)

end Visit

/-- `scopeDescriptors.put` -/
def put [DecidableEq S] (scopeDescriptors : S → Option (ScopeDescriptor Q R))
    (p : Scope S × ScopeDescriptor Q R) (s : S) : Option (ScopeDescriptor Q R) :=
  if s = p.1.id then some p.2 else scopeDescriptors s

/-- `getScopeDescriptors` -/
def Log.scopeDescriptors [DecidableEq S] (l : Log S Q R) : S → Option (ScopeDescriptor Q R) :=
  l.puts.foldl put fun _ => none

/-! ## Scopes that carry a name -/

mutual

/-- No activity is missing outside of handlers. -/
def Activity.Complete : Activity S → Prop
  | .basic => True
  | .structured nodes => CompleteAll nodes
  | .scope _ _ _ none _ => False
  | .scope _ _ _ (some a) _ => a.Complete

def CompleteAll : List (Activity S) → Prop
  | [] => True
  | a :: rest => a.Complete ∧ CompleteAll rest

end

/-- The nodes of a composite activity, unless they are missing. -/
def Activity.nodes? : Activity S → Option (List (Activity S))
  | .basic => none
  | .structured nodes => some nodes
  | .scope _ _ _ activity _ => activity.map fun a => [a]

def Activity.carries (appScopeName : Option String) : Activity S → Bool
  | .basic | .structured _ => false
  | .scope id name isUnnamed activity handlers =>
    Scope.carries appScopeName ⟨id, name, isUnnamed, activity, handlers⟩

variable (appScopeName : Option String)

def candidates (scopes : List (Scope S)) : List (Scope S) := scopes.filter (·.carries appScopeName)

/-- Two scopes with the name are met before an activity that is missing.  A scope counts at once
    in its list of nodes, and after its own nodes in the list around it; `known` are those that
    are known in the list. -/
inductive Met : List (Scope S) → List (Activity S) → Prop
  | here {known a rest} : known ≠ [] → a.carries appScopeName = true → Met known (a :: rest)
  | inside {known a rest nodes} : a.nodes? = some nodes → Met [] nodes → Met known (a :: rest)
  | around {known a rest} : a.Complete → 2 ≤ (known ++ candidates appScopeName a.scopes).length →
      Met known (a :: rest)
  | later {known a rest} : a.Complete → Met (known ++ candidates appScopeName a.scopes) rest →
      Met known (a :: rest)

/-- All scopes that are enclosed by a scope, outside of handlers. -/
def Scope.outside (s : Scope S) : List (Scope S) := s.activity.elim [] Activity.scopes

/-- All scopes in the handlers of a scope, and in those of the scopes that it encloses. -/
def Scope.inHandlers (s : Scope S) : List (Scope S) :=
  s.activity.elim [] Activity.handled ++ (scopesAll s.handlers ++ handledAll s.handlers)

/-- The one scope of a list, if there is any; more are a conflict. -/
def theOne : List (Scope S) → Except Failure (Option (Scope S))
  | [] => .ok none
  | [s] => .ok (some s)
  | _ => .error .conflict

/-- The search among all scopes that are enclosed, at any depth and in handlers too. -/
def search (appScopeName : Option String) (parent : Scope S) :
    Except Failure (Option (Scope S)) :=
  theOne (candidates appScopeName (parent.outside ++ parent.inHandlers))

/-- Two scopes with the name are met outside of handlers, or no activity is missing and no scope in
    a handler carries the name. -/
def Findable (parent : Scope S) : Prop :=
  ∃ a, parent.activity = some a ∧
    (Met appScopeName [] [a] ∨ (a.Complete ∧ candidates appScopeName parent.inHandlers = []))

/-! ### The search -/

theorem theOne_bind (l l' : List (Scope S)) :
    (theOne l).bind (fun m => (theOne l').bind (combine m)) = theOne (l ++ l') := by
  match l, l' with
  | [], [] | [], [_] | [], _ :: _ :: _ => rfl
  | [_], [] | [_], [_] | [_], _ :: _ :: _ => rfl
  | _ :: _ :: _, _ => rfl

theorem theOne_bind_append (l l' : List (Scope S)) :
    (theOne l).bind (fun m => theOne (m.toList ++ l')) = theOne (l ++ l') := by
  match l with
  | [] | [_] | _ :: _ :: _ => rfl

theorem theOne_toList (m : Option (Scope S)) : theOne m.toList = .ok m := by
  cases m <;> rfl

theorem combine_theOne (m : Option (Scope S)) (l : List (Scope S)) :
    (theOne l).bind (combine m) = theOne (m.toList ++ l) := by
  rw [← theOne_bind, theOne_toList]
  rfl

theorem candidates_append (l l' : List (Scope S)) : candidates appScopeName (l ++ l') =
    candidates appScopeName l ++ candidates appScopeName l' := List.filter_append ..

/-- The check of one scope. -/
theorem check_eq (s : Scope S) (m : Option (Scope S)) :
    (if s.carries appScopeName then combine m (some s) else .ok m) =
      theOne (m.toList ++ candidates appScopeName [s]) := by
  by_cases hs : s.carries appScopeName
  · rw [if_pos hs, candidates, List.filter_cons_of_pos hs]
    cases m <;> rfl
  · rw [if_neg hs, candidates, List.filter_cons_of_neg hs]
    cases m <;> rfl

mutual

theorem findNode_complete : ∀ (a : Activity S) (m : Option (Scope S)), a.Complete →
    findNode appScopeName a m = theOne (m.toList ++ candidates appScopeName a.scopes)
  | .basic, m, _ => by
    rw [findNode, Activity.scopes, candidates, List.filter_nil, List.append_nil, theOne_toList]
  | .structured nodes, m, h => by
    rw [Activity.Complete] at h
    rw [findNode, findNodes_complete nodes none h, Activity.scopes]
    exact combine_theOne m _
  | .scope _ _ _ none _, _, h => by
    rw [Activity.Complete] at h
    exact h.elim
  | .scope id name isUnnamed (some a) handlers, m, h => by
    rw [Activity.Complete] at h
    rw [findNode, check_eq, findNode_complete a none h]
    refine (theOne_bind _ _).trans ?_
    rw [Activity.scopes, List.append_assoc, Option.toList_none, List.nil_append,
      ← candidates_append]
    rfl

theorem findNodes_complete : ∀ (nodes : List (Activity S)) (m : Option (Scope S)),
    CompleteAll nodes →
      findNodes appScopeName nodes m =
        theOne (m.toList ++ candidates appScopeName (scopesAll nodes))
  | [], m, _ => by
    rw [findNodes, scopesAll, candidates, List.filter_nil, List.append_nil, theOne_toList]
  | a :: rest, m, h => by
    rw [CompleteAll] at h
    have hrest : findNodes appScopeName rest = fun m' =>
        theOne (m'.toList ++ candidates appScopeName (scopesAll rest)) :=
      funext fun m' => findNodes_complete rest m' h.2
    rw [findNodes, findNode_complete a m h.1, hrest, theOne_bind_append, scopesAll,
      candidates_append, List.append_assoc]

end

theorem theOne_of_two_le {l : List (Scope S)} (h : 2 ≤ l.length) : theOne l = .error .conflict := by
  match l with
  | _ :: _ :: _ => rfl

/-- What is met in one node. -/
def MetIn (m : Option (Scope S)) (a : Activity S) : Prop :=
  (m ≠ none ∧ a.carries appScopeName = true) ∨
    (∃ nodes, a.nodes? = some nodes ∧ Met appScopeName [] nodes) ∨
    (a.Complete ∧ 2 ≤ (m.toList ++ candidates appScopeName a.scopes).length)

theorem met_cons_iff (m : Option (Scope S)) (a : Activity S) (rest : List (Activity S)) :
    Met appScopeName m.toList (a :: rest) ↔ MetIn appScopeName m a ∨
      (a.Complete ∧ Met appScopeName (m.toList ++ candidates appScopeName a.scopes) rest) := by
  constructor
  · intro h
    cases h with
    | here hm ha => exact .inl (.inl ⟨fun h => hm (by rw [h]; rfl), ha⟩)
    | inside hn h => exact .inl (.inr (.inl ⟨_, hn, h⟩))
    | around hc h => exact .inl (.inr (.inr ⟨hc, h⟩))
    | later hc h => exact .inr ⟨hc, h⟩
  · rintro ((⟨hm, ha⟩ | ⟨nodes, hn, h⟩ | ⟨hc, h⟩) | ⟨hc, h⟩)
    · refine .here (fun h => hm ?_) ha
      cases m with
      | none => rfl
      | some => cases h
    · exact .inside hn h
    · exact .around hc h
    · exact .later hc h

theorem not_met_nil (known : List (Scope S)) : ¬ Met appScopeName known [] := nofun

theorem theOne_cases (l : List (Scope S)) :
    2 ≤ l.length ∨ ∃ m : Option (Scope S), m.toList = l := by
  match l with
  | [] => exact .inr ⟨none, rfl⟩
  | [s] => exact .inr ⟨some s, rfl⟩
  | _ :: _ :: _ => exact .inl (Nat.le_add_left ..)

theorem check_conflict {s : Scope S} {m : Option (Scope S)} (hm : m ≠ none)
    (hs : s.carries appScopeName = true) :
    (if s.carries appScopeName then combine m (some s) else .ok m) = .error .conflict := by
  rw [if_pos hs]
  cases m with
  | none => exact absurd rfl hm
  | some => rfl

theorem check_ok {s : Scope S} {m : Option (Scope S)}
    (h : ¬ (m ≠ none ∧ s.carries appScopeName = true)) :
    ∃ m', (if s.carries appScopeName then combine m (some s) else .ok m) = .ok m' := by
  by_cases hs : s.carries appScopeName
  · have hm : m = none := not_not.mp fun hm => h ⟨hm, hs⟩
    exact ⟨some s, by rw [if_pos hs, hm]; rfl⟩
  · exact ⟨m, if_neg hs⟩

mutual

/-- A node that is not complete ends the search, with a conflict if two scopes are met. -/
theorem findNode_spec : ∀ (a : Activity S) (m : Option (Scope S)),
    (MetIn appScopeName m a → findNode appScopeName a m = .error .conflict) ∧
      (¬ MetIn appScopeName m a → ¬ a.Complete →
        findNode appScopeName a m = .error .nullPointer)
  | .basic, m => by
    have hmet : ¬ MetIn appScopeName m (.basic : Activity S) := by
      rintro (⟨-, h⟩ | ⟨nodes, h, -⟩ | ⟨-, h⟩)
      · cases h
      · cases h
      · rw [Activity.scopes, candidates, List.filter_nil, List.append_nil] at h
        cases m <;> simp at h
    exact ⟨fun h => absurd h hmet, fun _ h => absurd trivial (by rwa [Activity.Complete] at h)⟩
  | .structured nodes, m => by
    obtain ⟨hconflict, hnull⟩ := findNodes_spec nodes none
    have hcomplete := findNode_complete appScopeName (.structured nodes) m
    rw [Activity.Complete] at hcomplete ⊢
    constructor
    · rintro (⟨-, h⟩ | ⟨nodes', ⟨rfl⟩, h⟩ | ⟨hc, h⟩)
      · cases h
      · rw [findNode, hconflict h]
        rfl
      · rw [Activity.Complete] at hc
        rw [hcomplete hc, theOne_of_two_le h]
    · intro hmet hc
      rw [findNode, hnull (fun h => hmet (.inr (.inl ⟨nodes, rfl, h⟩))) hc]
      rfl
  | .scope id name isUnnamed none handlers, m => by
    rw [findNode]
    constructor
    · rintro (⟨hm, h⟩ | ⟨nodes', h, -⟩ | ⟨hc, -⟩)
      · rw [check_conflict appScopeName hm h]
        rfl
      · cases h
      · rw [Activity.Complete] at hc
        exact hc.elim
    · intro hmet _
      obtain ⟨m', hm'⟩ := check_ok appScopeName fun h => hmet (.inl h)
      rw [hm']
      rfl
  | .scope id name isUnnamed (some a) handlers, m => by
    obtain ⟨hconflict, hnull⟩ := findNode_spec a none
    have hcomplete := findNode_complete appScopeName (.scope id name isUnnamed (some a) handlers) m
    rw [Activity.Complete] at hcomplete ⊢
    have hinside : Met appScopeName [] [a] ↔ MetIn appScopeName none a :=
      (met_cons_iff appScopeName none a []).trans
        (or_iff_left fun h => not_met_nil _ _ h.2)
    constructor
    · rintro (⟨hm, h⟩ | ⟨nodes', ⟨rfl⟩, h⟩ | ⟨hc, h⟩)
      · rw [findNode, check_conflict appScopeName hm h]
        rfl
      · rw [findNode, hconflict (hinside.mp h), check_eq]
        -- the conflict of the nodes, or one before it
        obtain h | ⟨m', h⟩ :=
          theOne_cases
            (m.toList ++ candidates appScopeName [⟨id, name, isUnnamed, some a, handlers⟩])
        · rw [theOne_of_two_le h]
          rfl
        · rw [← h, theOne_toList]
          rfl
      · rw [Activity.Complete] at hc
        rw [hcomplete hc, theOne_of_two_le h]
    · intro hmet hc
      obtain ⟨m', hm'⟩ := check_ok appScopeName fun h => hmet (.inl h)
      rw [findNode, hm', hnull (fun h => hmet (.inr (.inl ⟨[a], rfl, hinside.mpr h⟩))) hc]
      rfl

theorem findNodes_spec : ∀ (nodes : List (Activity S)) (m : Option (Scope S)),
    (Met appScopeName m.toList nodes → findNodes appScopeName nodes m = .error .conflict) ∧
      (¬ Met appScopeName m.toList nodes → ¬ CompleteAll nodes →
        findNodes appScopeName nodes m = .error .nullPointer)
  | [], m => by
    refine ⟨fun h => absurd h (not_met_nil _ _), fun _ h => absurd trivial ?_⟩
    rwa [CompleteAll] at h
  | a :: rest, m => by
    obtain ⟨hconflict, hnull⟩ := findNode_spec a m
    rw [met_cons_iff, findNodes, CompleteAll]
    constructor
    · rintro (h | ⟨hc, h⟩)
      · rw [hconflict h]
        rfl
      · rw [findNode_complete appScopeName a m hc]
        obtain hl | ⟨m', hm'⟩ := theOne_cases (m.toList ++ candidates appScopeName a.scopes)
        · rw [theOne_of_two_le hl]
          rfl
        · rw [← hm'] at h ⊢
          rw [theOne_toList]
          exact (findNodes_spec rest m').1 h
    · intro hmet hcomplete
      by_cases hc : a.Complete
      · rw [findNode_complete appScopeName a m hc]
        obtain hl | ⟨m', hm'⟩ := theOne_cases (m.toList ++ candidates appScopeName a.scopes)
        · exact absurd (.inl (.inr (.inr ⟨hc, hl⟩))) hmet
        · rw [← hm'] at hmet ⊢
          rw [theOne_toList]
          exact (findNodes_spec rest m').2 (fun h => hmet (.inr ⟨hc, h⟩))
            fun h => hcomplete ⟨hc, h⟩
      · rw [hnull (fun h => hmet (.inl h)) hc]
        rfl

end

theorem candidates_ne_nil {a : Activity S} (ha : a.carries appScopeName = true) :
    candidates appScopeName a.scopes ≠ [] := by
  match a with
  | .basic | .structured _ => cases ha
  | .scope id name isUnnamed activity handlers =>
    have hs : Scope.carries appScopeName ⟨id, name, isUnnamed, activity, handlers⟩ = true := ha
    cases activity with
    | none =>
      rw [Activity.scopes, candidates, List.filter_cons_of_pos hs]
      exact nofun
    | some =>
      rw [Activity.scopes, candidates, List.filter_cons_of_pos hs]
      exact nofun

theorem scopesAll_sublist {a : Activity S} {nodes : List (Activity S)} (h : a.nodes? = some nodes) :
    (scopesAll nodes).Sublist a.scopes := by
  match a with
  | .basic => cases h
  | .structured _ =>
    obtain ⟨rfl⟩ := h
    rw [Activity.scopes]
  | .scope _ _ _ none _ => cases h
  | .scope _ _ _ (some _) _ =>
    obtain ⟨rfl⟩ := h
    rw [scopesAll, scopesAll, List.append_nil, Activity.scopes]
    exact List.sublist_cons_self ..

/-- Those that are met are enclosed. -/
theorem Met.two_le {known : List (Scope S)} {nodes : List (Activity S)}
    (h : Met appScopeName known nodes) :
    2 ≤ (known ++ candidates appScopeName (scopesAll nodes)).length := by
  induction h with
  | here hknown ha =>
    have hk := List.length_pos_of_ne_nil hknown
    have hc := List.length_pos_of_ne_nil (candidates_ne_nil appScopeName ha)
    rw [scopesAll, candidates_append, List.length_append, List.length_append]
    omega
  | inside hn _ ih =>
    have hc := ((scopesAll_sublist hn).filter (·.carries appScopeName)).length_le
    rw [List.nil_append] at ih
    rw [scopesAll, candidates_append, List.length_append, List.length_append]
    exact Nat.le_trans (Nat.le_trans ih hc)
      (Nat.le_trans (Nat.le_add_right ..) (Nat.le_add_left ..))
  | around _ h =>
    rw [scopesAll, candidates_append, ← List.append_assoc, List.length_append]
    omega
  | later _ _ ih => rwa [scopesAll, candidates_append, ← List.append_assoc]

theorem theOne_append_iff {l l' : List (Scope S)} (h : ¬ 2 ≤ l.length) :
    theOne l = theOne (l ++ l') ↔ l' = [] := by
  match l, l' with
  | [], [] | [_], [] => exact iff_of_true rfl rfl
  | [], [_] | [], _ :: _ :: _ | [_], _ :: _ => exact iff_of_false nofun nofun
  | _ :: _ :: _, _ => exact absurd (Nat.le_add_left ..) h

theorem search_ne_nullPointer (parent : Scope S) :
    search appScopeName parent ≠ .error .nullPointer := by
  unfold search
  match candidates appScopeName (parent.outside ++ parent.inHandlers) with
  | [] | [_] | _ :: _ :: _ => exact nofun

theorem search_eq_conflict_iff (parent : Scope S) : search appScopeName parent = .error .conflict ↔
    2 ≤ (candidates appScopeName (parent.outside ++ parent.inHandlers)).length := by
  unfold search
  match candidates appScopeName (parent.outside ++ parent.inHandlers) with
  | [] | [_] => exact iff_of_false nofun (by simp)
  | _ :: _ :: _ => exact iff_of_true rfl (Nat.le_add_left ..)

/-- When the search of the matcher is the search among all scopes. -/
theorem findScope_eq_iff (parent : Scope S) :
    findScope appScopeName parent = search appScopeName parent ↔ Findable appScopeName parent := by
  unfold findScope Findable
  cases ha : parent.activity with
  | none =>
    refine iff_of_false (search_ne_nullPointer appScopeName parent).symm ?_
    rintro ⟨a, h, -⟩
    cases h
  | some a =>
    obtain ⟨hconflict, hnull⟩ := findNodes_spec appScopeName [a] none
    have houtside : parent.outside = a.scopes := by rw [Scope.outside, ha, Option.elim_some]
    have hsearch : search appScopeName parent =
        theOne (candidates appScopeName a.scopes ++ candidates appScopeName parent.inHandlers) := by
      rw [search, candidates_append, houtside]
    simp only [Option.some.injEq, exists_eq_left']
    by_cases hmet : Met appScopeName [] [a]
    · have hle := hmet.two_le
      rw [scopesAll, scopesAll, List.append_nil, List.nil_append] at hle
      refine iff_of_true ?_ (.inl hmet)
      rw [hconflict hmet, hsearch, theOne_of_two_le]
      rw [List.length_append]
      omega
    by_cases hc : a.Complete
    · have hle : ¬ 2 ≤ (candidates appScopeName a.scopes).length :=
        fun h => hmet (.around hc h)
      rw [findNodes_complete appScopeName [a] none ⟨hc, trivial⟩, hsearch, scopesAll, scopesAll,
        List.append_nil, Option.toList_none, List.nil_append, theOne_append_iff hle]
      exact ⟨fun h => .inr ⟨hc, h⟩, fun h => (h.resolve_left hmet).2⟩
    · rw [hnull hmet fun h => hc h.1]
      refine iff_of_false (search_ne_nullPointer appScopeName parent).symm ?_
      rintro (h | h)
      · exact hmet h
      · exact hc h.1

/-! ### The descriptors -/

section Runs

variable {find find' : Option String → Scope S → Except Failure (Option (Scope S))}

theorem Log.mem_searches_andThen {l l' : Log S Q R} {v : Option String × Scope S} :
    v ∈ (l.andThen l').searches ↔
      v ∈ l.searches ∨ (l.failure = none ∧ v ∈ l'.searches) := by
  unfold Log.andThen
  split
  · next h => rw [List.mem_append, and_iff_right h]
  · next h => rw [or_iff_left fun h' => h h'.1]

theorem Log.failure_andThen (l l' : Log S Q R) (e : Failure) :
    (l.andThen l').failure = some e ↔
      l.failure = some e ∨ (l.failure = none ∧ l'.failure = some e) := by
  unfold Log.andThen
  split
  · next h => rw [h, and_iff_right rfl, or_iff_right nofun]
  · next h => rw [or_iff_left fun h' => h h'.1]

theorem Log.andThen_congr {l l₁ l₂ : Log S Q R} (h : l.failure = none → l₁ = l₂) :
    l.andThen l₁ = l.andThen l₂ := by
  unfold Log.andThen
  split
  · next hl => rw [h hl]
  · rfl

mutual

/-- Searches that agree where one of them is made match the same scopes. -/
theorem visit_congr (d : ScopeDescriptor Q R) : ∀ parent : Scope S,
    (∀ v ∈ (visit find parent d).searches, find' v.1 v.2 = find v.1 v.2) →
      visit find' parent d = visit find parent d := by
  obtain ⟨name, links, scopes⟩ := d
  intro parent h
  have hname : find' name parent = find name parent := by
    refine h (name, parent) ?_
    rw [visit]
    split
    · exact List.mem_singleton_self _
    · exact List.mem_singleton_self _
    · exact Log.mem_searches_andThen.mpr (.inl (List.mem_singleton_self _))
  rw [visit] at h ⊢
  rw [visit, hname]
  cases hfind : find name parent with
  | error => rfl
  | ok scope? =>
    cases scope? with
    | none => rfl
    | some scope =>
      rw [hfind] at h
      refine Log.andThen_congr fun _ => propagate_congr scopes scope fun v hv => h v ?_
      exact Log.mem_searches_andThen.mpr (.inr ⟨rfl, hv⟩)

theorem propagate_congr (ds : List (ScopeDescriptor Q R)) : ∀ parent : Scope S,
    (∀ v ∈ (propagate find parent ds).searches, find' v.1 v.2 = find v.1 v.2) →
      propagate find' parent ds = propagate find parent ds := by
  intro parent h
  cases ds with
  | nil => rw [propagate, propagate]
  | cons d ds =>
    rw [propagate] at h ⊢
    rw [propagate, visit_congr d parent fun v hv => h v (Log.mem_searches_andThen.mpr (.inl hv))]
    refine Log.andThen_congr fun hd => propagate_congr ds parent fun v hv => h v ?_
    exact Log.mem_searches_andThen.mpr (.inr ⟨hd, hv⟩)

end

mutual

/-- A run fails when one of its searches does. -/
theorem visit_failure (e : Failure) (d : ScopeDescriptor Q R) : ∀ parent : Scope S,
    (visit find parent d).failure = some e ↔
      ∃ v ∈ (visit find parent d).searches, find v.1 v.2 = .error e := by
  obtain ⟨name, links, scopes⟩ := d
  intro parent
  rw [visit]
  cases hfind : find name parent with
  | error e' =>
    simp only [List.mem_singleton, exists_eq_left, hfind, Option.some.injEq, Except.error.injEq]
  | ok scope? =>
    cases scope? with
    | none => simp only [List.mem_singleton, exists_eq_left, hfind, reduceCtorEq]
    | some scope =>
      simp only [Log.failure_andThen, Log.mem_searches_andThen, propagate_failure e scopes scope,
        List.mem_singleton, true_and, reduceCtorEq, false_or]
      constructor
      · rintro ⟨v, hv, h⟩
        exact ⟨v, .inr hv, h⟩
      · rintro ⟨v, rfl | hv, h⟩
        · rw [hfind] at h
          cases h
        · exact ⟨v, hv, h⟩

theorem propagate_failure (e : Failure) (ds : List (ScopeDescriptor Q R)) : ∀ parent : Scope S,
    (propagate find parent ds).failure = some e ↔
      ∃ v ∈ (propagate find parent ds).searches, find v.1 v.2 = .error e := by
  intro parent
  cases ds with
  | nil => simp only [propagate, reduceCtorEq, List.not_mem_nil, false_and, exists_false]
  | cons d ds =>
    simp only [propagate, Log.failure_andThen, Log.mem_searches_andThen, visit_failure e d parent,
      propagate_failure e ds parent]
    constructor
    · rintro (⟨v, hv, h⟩ | ⟨hd, v, hv, h⟩)
      · exact ⟨v, .inl hv, h⟩
      · exact ⟨v, .inr ⟨hd, hv⟩, h⟩
    · rintro ⟨v, hv | ⟨hd, hv⟩, h⟩
      · exact .inl ⟨v, hv, h⟩
      · exact .inr ⟨hd, v, hv, h⟩

end

variable {globalScope : Scope S} {d : ScopeDescriptor Q R}

theorem visitDeployment_congr
    (h : ∀ v ∈ (visitDeployment find globalScope d).searches, find' v.1 v.2 = find v.1 v.2) :
    visitDeployment find' globalScope d = visitDeployment find globalScope d := by
  obtain ⟨name, links, scopes⟩ := d
  rw [visitDeployment] at h ⊢
  rw [visitDeployment, propagate_congr scopes globalScope fun v hv => h v ?_]
  exact Log.mem_searches_andThen.mpr (.inr ⟨rfl, hv⟩)

theorem visitDeployment_failure (e : Failure) :
    (visitDeployment find globalScope d).failure = some e ↔
      ∃ v ∈ (visitDeployment find globalScope d).searches, find v.1 v.2 = .error e := by
  obtain ⟨name, links, scopes⟩ := d
  simp only [visitDeployment, Log.failure_andThen, Log.mem_searches_andThen,
    propagate_failure e scopes globalScope, List.not_mem_nil, reduceCtorEq, false_or, true_and]

end Runs

theorem foldl_put_of_notMem [DecidableEq S] {s : S} {puts : List (Scope S × ScopeDescriptor Q R)}
    (h : s ∉ puts.map (·.1.id)) (m : S → Option (ScopeDescriptor Q R)) :
    puts.foldl put m s = m s := by
  induction puts generalizing m with
  | nil => rfl
  | cons p puts ih =>
    rw [List.map_cons, List.mem_cons, not_or] at h
    rw [List.foldl_cons, ih h.2, put, if_neg h.1]

theorem foldl_put_of_mem [DecidableEq S] {p : Scope S × ScopeDescriptor Q R}
    {puts : List (Scope S × ScopeDescriptor Q R)} (hd : (puts.map (·.1.id)).Nodup) (hp : p ∈ puts)
    (m : S → Option (ScopeDescriptor Q R)) : puts.foldl put m p.1.id = some p.2 := by
  induction puts generalizing m with
  | nil => cases hp
  | cons q puts ih =>
    rw [List.map_cons, List.nodup_cons] at hd
    rw [List.foldl_cons]
    cases hp with
    | head => rw [foldl_put_of_notMem hd.1, put, if_pos rfl]
    | tail _ hp => exact ih hd.2 hp _

/-! ## Matching -/

variable [DecidableEq S] (globalScope : Scope S) (d : ScopeDescriptor Q R)

/-- Descriptors are matched with the scopes that carry their names, in their parents' scopes. -/
structure Matched : Prop where
  searches : ∀ v ∈ (visitDeployment findScope globalScope d).searches,
    findScope v.1 v.2 = search v.1 v.2
  fails : (visitDeployment findScope globalScope d).failure = some .conflict ↔
    ∃ v ∈ (visitDeployment findScope globalScope d).searches,
      2 ≤ (candidates v.1 (v.2.outside ++ v.2.inHandlers)).length
  noOther : (visitDeployment findScope globalScope d).failure ≠ some .nullPointer
  distinct : ((visitDeployment findScope globalScope d).puts.map (·.1.id)).Nodup
  mapped : ∀ p ∈ (visitDeployment findScope globalScope d).puts,
    (visitDeployment findScope globalScope d).scopeDescriptors p.1.id = some p.2

/-- The scopes that the descriptors denote, up to the first name that more than one carries. -/
def denoted : Log S Q R := visitDeployment search globalScope d

structure Matchable : Prop where
  findable : ∀ v ∈ (denoted globalScope d).searches, Findable v.1 v.2
  distinct : ((denoted globalScope d).puts.map (·.1.id)).Nodup

variable {globalScope d}

/-- A process and descriptors are matched exactly if no search comes to a scope without an activity
    or misses a scope in a handler, and no two descriptors denote one scope. -/
theorem matched_iff : Matched globalScope d ↔ Matchable globalScope d := by
  constructor
  · intro h
    have hlog : denoted globalScope d = visitDeployment findScope globalScope d :=
      visitDeployment_congr fun v hv => (h.searches v hv).symm
    constructor
    · rw [hlog]
      exact fun v hv => (findScope_eq_iff v.1 v.2).mp (h.searches v hv)
    · rw [hlog]
      exact h.distinct
  · intro h
    have hsearch : ∀ v ∈ (denoted globalScope d).searches, findScope v.1 v.2 = search v.1 v.2 :=
      fun v hv => (findScope_eq_iff v.1 v.2).mpr (h.findable v hv)
    have hlog : visitDeployment findScope globalScope d = denoted globalScope d :=
      visitDeployment_congr hsearch
    constructor
    · rwa [hlog]
    · rw [hlog, denoted, visitDeployment_failure]
      simp only [search_eq_conflict_iff]
    · rw [hlog, denoted, ne_eq, visitDeployment_failure]
      rintro ⟨v, -, hv⟩
      exact search_ne_nullPointer v.1 v.2 hv
    · rw [hlog]
      exact h.distinct
    · rw [hlog]
      exact fun p hp => foldl_put_of_mem h.distinct hp _

/-- A scope in a handler is not found. -/
theorem handlerScope_not_matched :
    ¬ Matched (Q := Unit) (R := Unit)
      ⟨0, "process", false, some .basic, [.scope 1 "retry" false (some .basic) []]⟩
      (.mk none [] [.mk (some "retry") [] []]) := by
  intro h
  have hfind := h.searches
    (some "retry", ⟨0, "process", false, some .basic, [.scope 1 "retry" false (some .basic) []]⟩)
    (List.mem_singleton_self _)
  cases hfind

end Deploy

end Jbpm
