/-
  Forks, joins and end states: `Fork.execute`, `Join.execute` and `EndState.execute` on
  the tokens of a process instance.

  * `Fork.getTokenName`: children get the name of the transition that they leave the
    fork over, unless there is a child of that name, or the transition has no name;
  * `Fork.notMem_getTokenName`: which gives a new name, if the transition has one;
  * `Join.execute`: ends the token and decides whether its parent leaves the join.
-/
import Mathlib
import Jbpm.Graph.TokenTree

namespace Jbpm

/-- The tokens of a process instance, and those that left a join, the first one first. -/
structure Tokens (N : Type) where
  tree : TokenTree
  status : ℕ → TokenStatus N
  left : List ℕ

namespace Tokens

variable {N : Type}

/-- `new Token(parent, name)`: the token is where its parent is. -/
def create (p : ℕ) (name : String) (s : Tokens N) : Tokens N :=
  { s with
    tree := s.tree.addChild p name
    status := Function.update s.status s.tree.size ⟨(s.status p).node, false, true⟩ }

def setNode (t : ℕ) (node : N) (s : Tokens N) : Tokens N :=
  { s with status := Function.update s.status t { s.status t with node := some node } }

def setAbleToReactivateParent (t : ℕ) (b : Bool) (s : Tokens N) : Tokens N :=
  { s with status :=
      Function.update s.status t { s.status t with isAbleToReactivateParent := b } }

/-- `token.end(verifyParentTermination)` -/
def end_ (n : ℕ) (verifyParentTermination : Bool) (t : ℕ) (s : Tokens N) : Option (Tokens N) :=
  (Token.end_ s.tree n verifyParentTermination t s.status).map fun status =>
    { s with status := status }

end Tokens

/-! ## Forks -/

namespace Fork

/-- The names of the children of a token are the keys of their map. -/
def hasName (children : List (String × ℕ)) (name : String) : Bool :=
  children.any (·.1 == name)

/-- `getTokenName(parent, transitionName)`, for the children of the parent: the numbers from
    2 on are tried one after the other. -/
def getTokenName (children : List (String × ℕ)) : Option String → String
  | some transitionName =>
    if !hasName children transitionName then transitionName
    else
      let i := (List.range (children.length + 1)).find? fun i =>
        !hasName children (transitionName ++ Nat.repr (i + 2))
      transitionName ++ Nat.repr (i.getD 0 + 2)
  | none => Nat.repr (children.length + 1)

variable {N : Type}

/-- `createForkedToken(parent, transitionName)` -/
def createForkedToken (p : ℕ) (transitionName : Option String) (s : Tokens N) : Tokens N :=
  s.create p (getTokenName (s.tree.children p) transitionName)

/-- `execute`, up to the forked tokens: each of them then leaves the fork and goes its own
    way, some of them before others have left. -/
def execute (p : ℕ) : List (Option String) → Tokens N → List ℕ × Tokens N
  | [], s => ([], s)
  | transitionName :: transitionNames, s =>
    let (ids, s') := execute p transitionNames (createForkedToken p transitionName s)
    (s.tree.size :: ids, s')

end Fork

/-! ## Joins -/

/-- What the script of a join returns. -/
inductive ScriptResult
  | collection (tokenNames : List String)
  | boolean (reactivateParent : Bool)
  | other

/-- A join, and the destination of its leaving transition. -/
structure Join (N : Type) where
  node : N
  successor : N
  isDiscriminator : Bool
  tokenNames : Option (List String)
  script : Option (ℕ → Tokens N → ScriptResult)
  nOutOfM : ℤ

/-- An end state: `endCompleteProcess` is set by `end-complete-process="true"`. -/
structure EndState (N : Type) where
  node : N
  endCompleteProcess : Bool

namespace Join

variable {N : Type} [DecidableEq N]

/-- A default join is not configured. -/
def default (node successor : N) : Join N := ⟨node, successor, false, none, none, -1⟩

def discriminator (node successor : N) : Join N := ⟨node, successor, true, none, none, -1⟩

def nOutOfMJoin (node successor : N) (n : ℕ) : Join N := ⟨node, successor, false, none, none, n⟩

/-- `mustParentBeReactivated(parentToken, tokenNames)`; there may be no child of some name. -/
def mustParentBeReactivated (p : ℕ) (s : Tokens N) : List String → Option Bool
  | [] => some true
  | tokenName :: tokenNames =>
    match s.tree.getChild p tokenName with
    | none => none
    | some t =>
      if (s.status t).isAbleToReactivateParent then some false
      else mustParentBeReactivated p s tokenNames

/-- The number of children of the parent that stand at the join. -/
def countAtJoin (J : Join N) (p : ℕ) (s : Tokens N) : ℕ :=
  ((s.tree.children p).filter fun c => (s.status c.2).node = some J.node).length

/-- Whether the parent is reactivated when `t` arrives. -/
def reactivateParent (J : Join N) (p t : ℕ) (s : Tokens N) : Option Bool :=
  if J.isDiscriminator then some true
  else match J.tokenNames with
    | some tokenNames => mustParentBeReactivated p s tokenNames
    | none =>
      match J.script with
      | some script =>
        match script t s with
        | .collection tokenNames => mustParentBeReactivated p s tokenNames
        | .boolean b => some b
        | .other => some true
      | none =>
        if J.nOutOfM ≠ -1 then some (!decide ((J.countAtJoin p s : ℤ) < J.nOutOfM))
        else mustParentBeReactivated p s ((s.tree.children p).map (·.1))

/-- `leave(parentContext)`: the parent takes the transition, ended or not. -/
def leave (J : Join N) (p : ℕ) (s : Tokens N) : Tokens N :=
  { s.setNode p J.successor with left := s.left ++ [p] }

/-- The parent is reactivated: no child can reactivate it again. -/
def reactivate (J : Join N) (p : ℕ) (s : Tokens N) : Tokens N :=
  J.leave p ((s.tree.children p).foldl (fun s c => s.setAbleToReactivateParent c.2 false) s)

def execute (J : Join N) (n t : ℕ) (s : Tokens N) : Option (Tokens N) := do
  let isAbleToReactivateParent := (s.status t).isAbleToReactivateParent
  let s ← if (s.status t).hasEnded then some s else s.end_ n false t
  if isAbleToReactivateParent then
    let s := s.setAbleToReactivateParent t false
    match s.tree.parent t with
    | none => some s
    | some p =>
      let b ← J.reactivateParent p t s
      if b then some (J.reactivate p s) else some s
  else some s

/-- `Node.enter` -/
def enter (J : Join N) (n t : ℕ) (s : Tokens N) : Option (Tokens N) :=
  J.execute n t (s.setNode t J.node)

end Join

namespace EndState

variable {N : Type}

/-- `execute`; the root token of a process instance is its first one. -/
def execute (E : EndState N) (n t : ℕ) (s : Tokens N) : Option (Tokens N) :=
  if E.endCompleteProcess then s.end_ n true 0 else s.end_ n true t

/-- `Node.enter` -/
def enter (E : EndState N) (n t : ℕ) (s : Tokens N) : Option (Tokens N) :=
  E.execute n t (s.setNode t E.node)

end EndState

/-! ## The names of forked tokens -/

namespace Fork

variable {N : Type} {children : List (String × ℕ)} {name : String}

theorem hasName_iff : hasName children name = true ↔ name ∈ children.map (·.1) := by
  simp only [hasName, List.any_eq_true, beq_iff_eq, List.mem_map]

/-- One of the numbers is free. -/
theorem find_isSome (children : List (String × ℕ)) (name : String) :
    ((List.range (children.length + 1)).find? fun i =>
      !hasName children (name ++ Nat.repr (i + 2))).isSome = true := by
  by_contra hnone
  rw [Bool.not_eq_true, Option.isSome_eq_false_iff, Option.isNone_iff_eq_none,
    List.find?_eq_none] at hnone
  -- otherwise there are more names than children
  have hsub : (List.range (children.length + 1)).map (fun i => name ++ Nat.repr (i + 2)) ⊆
      children.map (·.1) := by
    intro x hx
    obtain ⟨i, hi, rfl⟩ := List.mem_map.1 hx
    exact hasName_iff.1 (by simpa using hnone i hi)
  have hnodup : ((List.range (children.length + 1)).map
      fun i => name ++ Nat.repr (i + 2)).Nodup := by
    refine (List.nodup_range).map fun i j hij => ?_
    exact Nat.add_right_cancel (Nat.repr_injective ((String.append_right_inj name).1 hij))
  have hle := (List.subperm_of_subset hnodup hsub).length_le
  rw [List.length_map, List.length_map, List.length_range] at hle
  omega

/-- A transition with a name gives its token a new one. -/
theorem notMem_getTokenName (children : List (String × ℕ)) (name : String) :
    getTokenName children (some name) ∉ children.map (·.1) := by
  rw [← hasName_iff, getTokenName]
  split
  · next h => simpa using h
  · obtain ⟨i, hi⟩ := Option.isSome_iff_exists.1 (find_isSome children name)
    simpa [hi] using List.find?_some hi

end Fork

end Jbpm
