/-
  Interleaved routing.  An interleave start offers the names of its leaving
  transitions one after the other; the interleave end leads back to it until all of
  them have been taken.  What is left is kept in a process variable.

  * `executeStart`, `executeEnd`: the two nodes, on the variable as the token reads it;
  * `Inv`, `inv_of_run`: the names that are left and those of the transitions taken;
  * `visits_iff`: when every transition is taken once in a pass, and the token then
    leaves by the `done` transition, however the names are picked.
-/
import Mathlib.Data.List.Dedup
import Mathlib.Data.List.Perm.Subperm
import Jbpm.Graph.LeavingTransitions
import Jbpm.Lib.Run

namespace Jbpm

namespace Graph

open Lib

variable {τ : Type}

/-- An interleave start and an interleave end with its two transitions: `back` leads to
    the start, and is the one that the end finds it by.  The names may be given by the
    fields `back` and `done` of the end. -/
structure Interleaving (τ : Type) where
  nodes : Nodes τ
  target : τ → ℕ
  interleaveStart : ℕ
  interleaveEnd : ℕ
  backTransitionName : Option String
  doneTransitionName : Option String
  back : τ
  done : τ
  start_of_back : ∃ t, nodes.getLeavingTransition interleaveEnd (some "back") = some t ∧
    target t = interleaveStart
  back_leaves : nodes.getLeavingTransition interleaveEnd backTransitionName = some back
  target_back : target back = interleaveStart
  done_leaves : nodes.getLeavingTransition interleaveEnd doneTransitionName = some done

namespace Interleaving

inductive Position (τ : Type) where
  | atStart
  | inBranch (t : τ)
  | atEnd
  /-- gone over a transition that does not lead back -/
  | left (t : τ)
  | thrown
  deriving DecidableEq

/-- A token in the loop: the variable `interleave-transition-names` as it reads it, and
    the transitions of the start that it has taken in this pass. -/
structure State (τ : Type) where
  position : Position τ
  transitionNames : Option (List (Option String))
  taken : List τ

/-- A token that comes to the start for the first time. -/
def State.new : State τ := ⟨.atStart, none, []⟩

inductive Action where
  /-- `InterleaveStart.execute`, with what the interleaver picks -/
  | select (nextTransition : Option String)
  /-- something else stores a value under the name of the variable -/
  | write (transitionNames : Option (List (Option String)))
  /-- the branch leads to the interleave end -/
  | arrive
  /-- `InterleaveEnd.execute` -/
  | execute
  /-- the token comes to the start again -/
  | enter

variable (I : Interleaving τ)

def leavingTransitions : List τ := (I.nodes.leavingTransitions I.interleaveStart).getD []

/-- The keys of the map of the leaving transitions; there is no map without a list. -/
def getTransitionNames : Option (List (Option String)) :=
  (I.nodes.leavingTransitions I.interleaveStart).map fun ts => (ts.map I.nodes.name).dedup

/-- What the interleaver picks from: what is left, or, if that is null, all names. -/
def offered (s : State τ) : Option (List (Option String)) :=
  match s.transitionNames with
  | some transitionNames => some transitionNames
  | none => I.getTransitionNames

/-- `InterleaveStart.execute`.  Nothing can be picked from an empty list; of another, an
    interleaver picks one that is in it. -/
def executeStart (nextTransition : Option String) (s : State τ) : Option (State τ) :=
  match I.offered s with
  | none => some { s with position := .thrown }
  | some transitionNames =>
    if transitionNames = [] then some { s with position := .thrown }
    else if nextTransition ∈ transitionNames then
      let s := { s with transitionNames := some (transitionNames.erase nextTransition) }
      match I.nodes.getLeavingTransition I.interleaveStart nextTransition with
      | none => some { s with position := .thrown }
      | some t => some { s with position := .inBranch t, taken := s.taken ++ [t] }
    else none

/-- `interleaveEndNode.leave(executionContext, transitionName)`, to a position that may
    depend on the transition. -/
def leaveEnd (transitionName : Option String) (next : τ → Position τ) (s : State τ) : State τ :=
  match I.nodes.getLeavingTransition I.interleaveEnd transitionName with
  | none => { s with position := .thrown }
  | some t => { s with position := next t }

/-- Where the token is after it has gone back over a transition. -/
def behind (t : τ) : Position τ := if I.target t = I.interleaveStart then .atStart else .left t

/-- `InterleaveEnd.execute` -/
def executeEnd (s : State τ) : State τ :=
  match s.transitionNames with
  | none => { s with position := .thrown }
  | some transitionNames =>
    if transitionNames ≠ [] then I.leaveEnd I.backTransitionName I.behind s
    else I.leaveEnd I.doneTransitionName .left { s with transitionNames := none }

def step (s : State τ) : Action → Option (State τ)
  | .select nextTransition =>
    match s.position with
    | .atStart => I.executeStart nextTransition s
    | _ => none
  | .write transitionNames => some { s with transitionNames := transitionNames }
  | .arrive =>
    match s.position with
    | .inBranch _ => some { s with position := .atEnd }
    | _ => none
  | .execute =>
    match s.position with
    | .atEnd => some (I.executeEnd s)
    | _ => none
  | .enter =>
    match s.position with
    | .left _ => some { s with position := .atStart, taken := [] }
    | _ => none

def Moves (s : State τ) (a : Action) (s' : State τ) : Prop := I.step s a = some s'

/-- Nothing but the two nodes changes the variable. -/
def Untouched (s : State τ) : Action → Prop
  | .write transitionNames => transitionNames = s.transitionNames
  | _ => True

/-- Nothing is thrown, no transition is taken twice, and there is one to pick whenever
    the token is at the start.  The end leads back until all are taken.  When the token
    leaves, it has taken them all, leaves by `done`, and the variable is as before the
    pass. -/
structure Visits (s : State τ) : Prop where
  returns : s.position ≠ .thrown
  once : s.taken.Nodup ∧ s.taken ⊆ I.leavingTransitions
  offered : s.position = .atStart → ∃ names, I.offered s = some names ∧ names ≠ []
  turns : s.position = .atEnd → (I.executeEnd s).position =
    if s.taken.length = I.leavingTransitions.length then .left I.done else .atStart
  leaves : ∀ t, s.position = .left t →
    t = I.done ∧ s.taken.Perm I.leavingTransitions ∧ s.transitionNames = none

/-! ## The names that are left -/

/-- The names of the transitions taken and the names that are left are those of all
    leaving transitions. -/
structure Remaining (s : State τ) (names : List (Option String)) : Prop where
  stored : s.transitionNames = some names
  split : (s.taken.map I.nodes.name ++ names).Perm (I.leavingTransitions.map I.nodes.name)
  taken : s.taken ⊆ I.leavingTransitions

/-- Nothing is taken yet, or something is left. -/
def Starting (s : State τ) : Prop :=
  s.transitionNames = none ∧ s.taken = [] ∨ ∃ names, I.Remaining s names ∧ names ≠ []

def Inv (s : State τ) : Prop :=
  match s.position with
  | .atStart => I.Starting s
  | .inBranch _ | .atEnd => ∃ names, I.Remaining s names
  | .left t => t = I.done ∧ s.taken.Perm I.leavingTransitions ∧ s.transitionNames = none
  | .thrown => False

/-- A start with leaving transitions of different names. -/
def Distinct : Prop :=
  I.leavingTransitions ≠ [] ∧ (I.leavingTransitions.map I.nodes.name).Nodup

variable {I} {s s' : State τ} {names : List (Option String)} {k : Option String}

theorem getTransitionNames_eq (h : I.leavingTransitions ≠ []) :
    I.getTransitionNames = some (I.leavingTransitions.map I.nodes.name).dedup := by
  revert h
  unfold getTransitionNames leavingTransitions
  cases I.nodes.leavingTransitions I.interleaveStart with
  | none => intro h; exact (h rfl).elim
  | some ts => intro _; rfl

theorem getLeavingTransition_of_name (h : k ∈ I.leavingTransitions.map I.nodes.name) :
    ∃ t ∈ I.leavingTransitions, I.nodes.name t = k ∧
      I.nodes.getLeavingTransition I.interleaveStart k = some t := by
  obtain ⟨t, ht, hk⟩ := List.mem_map.1 h
  have hsome : (I.nodes.ownTransition I.interleaveStart k).isSome := by
    rw [Nodes.ownTransition_eq, List.find?_isSome]
    exact ⟨t, ht, by simpa using hk⟩
  obtain ⟨u, hu⟩ := Option.isSome_iff_exists.1 hsome
  have hfind := hu
  rw [Nodes.ownTransition_eq] at hfind
  exact ⟨u, List.mem_of_find?_eq_some hfind, by simpa using List.find?_some hfind,
    Nodes.getLeavingTransition_of_own hu⟩

theorem Remaining.nodup (h : I.Remaining s names) (hd : I.Distinct) :
    (s.taken.map I.nodes.name ++ names).Nodup := h.split.nodup_iff.2 hd.2

theorem Remaining.taken_nodup (h : I.Remaining s names) (hd : I.Distinct) : s.taken.Nodup :=
  List.Nodup.of_map _ (List.nodup_append.1 (h.nodup hd)).1

theorem Remaining.perm (h : I.Remaining s []) (hd : I.Distinct) :
    s.taken.Perm I.leavingTransitions := by
  have hlength := h.split.length_eq
  rw [List.append_nil, List.length_map, List.length_map] at hlength
  exact (List.subperm_of_subset (h.taken_nodup hd) h.taken).perm_of_length_le hlength.ge

/-- The variable of a token at the start: the names that are left, or nothing. -/
theorem Starting.offered (h : I.Starting s) (hd : I.Distinct) :
    ∃ names, I.offered s = some names ∧ names ≠ [] ∧
      (s.taken.map I.nodes.name ++ names).Perm (I.leavingTransitions.map I.nodes.name) ∧
      s.taken ⊆ I.leavingTransitions := by
  rcases h with ⟨hnone, htaken⟩ | ⟨names, h, hne⟩
  · refine ⟨I.leavingTransitions.map I.nodes.name, ?_, by simpa using hd.1, ?_, ?_⟩
    · rw [Interleaving.offered, hnone]
      dsimp only
      rw [getTransitionNames_eq hd.1, hd.2.dedup]
    · rw [htaken]
      exact List.Perm.refl _
    · rw [htaken]
      exact List.nil_subset _
  · refine ⟨names, ?_, hne, h.split, h.taken⟩
    rw [Interleaving.offered, h.stored]

/-- One round: a name of those that are left goes to the transition taken. -/
theorem inv_executeStart (h : I.Starting s) (hd : I.Distinct) (hs : I.executeStart k s = some s') :
    I.Inv s' := by
  obtain ⟨names, hoffered, hne, hsplit, hsub⟩ := h.offered hd
  rw [executeStart, hoffered] at hs
  dsimp only at hs
  rw [if_neg hne] at hs
  by_cases hk : k ∈ names
  · have hmem : k ∈ I.leavingTransitions.map I.nodes.name :=
      hsplit.subset (List.mem_append_right _ hk)
    obtain ⟨t, ht, hname, hget⟩ := getLeavingTransition_of_name hmem
    rw [if_pos hk, hget] at hs
    cases hs
    refine ⟨names.erase k, rfl, ?_, ?_⟩
    · have hsnoc : (s.taken ++ [t]).map I.nodes.name ++ names.erase k =
          s.taken.map I.nodes.name ++ k :: names.erase k := by
        rw [List.map_append, List.map_singleton, hname, List.append_assoc]
        rfl
      rw [hsnoc]
      exact ((List.perm_cons_erase hk).symm.append_left _).trans hsplit
    · exact List.append_subset.2 ⟨hsub, fun u hu => List.mem_singleton.1 hu ▸ ht⟩
  · rw [if_neg hk] at hs
    cases hs

theorem inv_executeEnd (h : I.Remaining s names) (hd : I.Distinct) : I.Inv (I.executeEnd s) := by
  unfold executeEnd leaveEnd
  rw [h.stored]
  dsimp only
  by_cases hne : names = []
  · subst hne
    rw [if_neg (not_not.2 rfl), I.done_leaves]
    exact ⟨rfl, h.perm hd, rfl⟩
  · rw [if_pos hne, I.back_leaves]
    dsimp only
    rw [behind, if_pos I.target_back]
    exact .inr ⟨names, ⟨rfl, h.split, h.taken⟩, hne⟩

theorem Remaining.turns (h : I.Remaining s names) : (I.executeEnd s).position =
    if s.taken.length = I.leavingTransitions.length then .left I.done else .atStart := by
  have hlength := h.split.length_eq
  rw [List.length_append, List.length_map, List.length_map] at hlength
  unfold executeEnd leaveEnd
  rw [h.stored]
  dsimp only
  by_cases hne : names = []
  · subst hne
    rw [if_neg (not_not.2 rfl), I.done_leaves, if_pos (by simpa using hlength)]
  · have hpos := List.length_pos_of_ne_nil hne
    rw [if_pos hne, I.back_leaves, if_neg (by omega)]
    dsimp only
    rw [behind, if_pos I.target_back]

theorem inv_step (h : I.Inv s) (hd : I.Distinct) (a : Action) (ha : Untouched s a)
    (hs : I.step s a = some s') : I.Inv s' := by
  obtain ⟨position, transitionNames, taken⟩ := s
  cases a with
  | select k =>
    cases position with
    | atStart => exact inv_executeStart h hd hs
    | _ => cases hs
  | write names =>
    cases hs
    cases ha
    exact h
  | arrive =>
    cases position with
    | inBranch t =>
      cases hs
      obtain ⟨names, h⟩ := h
      exact ⟨names, h.stored, h.split, h.taken⟩
    | _ => cases hs
  | execute =>
    cases position with
    | atEnd =>
      cases hs
      obtain ⟨names, h⟩ := h
      exact inv_executeEnd h hd
    | _ => cases hs
  | enter =>
    cases position with
    | left t =>
      cases hs
      exact Or.inl ⟨h.2.2, rfl⟩
    | _ => cases hs

theorem inv_of_run (hd : I.Distinct) {as : List Action}
    (h : Run (guard Untouched I.Moves) .new as s) : I.Inv s := by
  have hnew : I.Inv .new := show I.Starting .new from .inl ⟨rfl, rfl⟩
  exact h.inv hnew fun _ a _ hI hs => inv_step hI hd a hs.1 hs.2

theorem Inv.visits (h : I.Inv s) (hd : I.Distinct) : I.Visits s := by
  have hnodup : I.leavingTransitions.Nodup := List.Nodup.of_map _ hd.2
  obtain ⟨position, transitionNames, taken⟩ := s
  cases position with
  | atStart =>
    obtain ⟨names, hoffered, hne, hsplit, hsub⟩ := Starting.offered h hd
    have htaken := List.Nodup.of_map _ (List.nodup_append.1 (hsplit.nodup_iff.2 hd.2)).1
    exact ⟨nofun, ⟨htaken, hsub⟩, fun _ => ⟨names, hoffered, hne⟩, nofun, nofun⟩
  | inBranch t =>
    obtain ⟨names, h⟩ := h
    exact ⟨nofun, ⟨h.taken_nodup hd, h.taken⟩, nofun, nofun, nofun⟩
  | atEnd =>
    obtain ⟨names, h⟩ := h
    exact ⟨nofun, ⟨h.taken_nodup hd, h.taken⟩, nofun, fun _ => h.turns, nofun⟩
  | left t =>
    refine ⟨nofun, ⟨h.2.1.nodup_iff.2 hnodup, h.2.1.subset⟩, nofun, nofun, fun u hu => ?_⟩
    cases hu
    exact h
  | thrown => exact h.elim

/-! ## Picking the first name each time -/

theorem executeStart_of_offered (h : I.offered s = some (k :: names))
    (hk : k ∈ I.leavingTransitions.map I.nodes.name) :
    ∃ t, I.executeStart k s = some ⟨.inBranch t, some names, s.taken ++ [t]⟩ := by
  obtain ⟨t, -, -, hget⟩ := getLeavingTransition_of_name hk
  refine ⟨t, ?_⟩
  rw [executeStart, h]
  dsimp only
  rw [if_neg (List.cons_ne_nil k names), if_pos List.mem_cons_self, hget, List.erase_cons_head]

/-- A round, up to the interleave end. -/
theorem exists_round (hs : s.position = .atStart) (h : I.offered s = some (k :: names))
    (hk : k ∈ I.leavingTransitions.map I.nodes.name) :
    ∃ t, Run (guard Untouched I.Moves) s [.select k, .arrive, .execute]
      (I.executeEnd ⟨.atEnd, some names, s.taken ++ [t]⟩) := by
  obtain ⟨t, ht⟩ := executeStart_of_offered h hk
  have hselect : I.Moves s (.select k) ⟨.inBranch t, some names, s.taken ++ [t]⟩ := by
    rw [Moves, step, hs]
    exact ht
  have harrive : I.Moves ⟨.inBranch t, some names, s.taken ++ [t]⟩ .arrive
      ⟨.atEnd, some names, s.taken ++ [t]⟩ := rfl
  have hexecute : I.Moves ⟨.atEnd, some names, s.taken ++ [t]⟩ .execute
      (I.executeEnd ⟨.atEnd, some names, s.taken ++ [t]⟩) := rfl
  exact ⟨t, .cons ⟨trivial, hselect⟩ (.cons ⟨trivial, harrive⟩ (.cons ⟨trivial, hexecute⟩ .nil))⟩

/-- A token at the start can leave, over as many transitions as there are names. -/
theorem exists_run (hs : s.position = .atStart) (h : I.offered s = some (k :: names))
    (hk : k :: names ⊆ I.leavingTransitions.map I.nodes.name) :
    ∃ as s' t, Run (guard Untouched I.Moves) s as s' ∧ s'.position = .left t ∧
      s'.taken.length = s.taken.length + (k :: names).length := by
  induction names generalizing s k with
  | nil =>
    obtain ⟨t, hround⟩ := exists_round hs h (hk List.mem_cons_self)
    have hend : I.executeEnd ⟨.atEnd, some [], s.taken ++ [t]⟩ =
        ⟨.left I.done, none, s.taken ++ [t]⟩ := by
      simp [executeEnd, leaveEnd, I.done_leaves]
    rw [hend] at hround
    exact ⟨_, _, I.done, hround, rfl, List.length_append⟩
  | cons l names ih =>
    obtain ⟨t, hround⟩ := exists_round hs h (hk List.mem_cons_self)
    have hend : I.executeEnd ⟨.atEnd, some (l :: names), s.taken ++ [t]⟩ =
        ⟨.atStart, some (l :: names), s.taken ++ [t]⟩ := by
      simp [executeEnd, leaveEnd, I.back_leaves, behind, I.target_back]
    rw [hend] at hround
    obtain ⟨as, s', u, hrun, hleft, hlength⟩ :=
      ih (s := ⟨.atStart, some (l :: names), s.taken ++ [t]⟩) rfl rfl
        fun x hx => hk (List.mem_cons_of_mem k hx)
    refine ⟨_, s', u, hround.append hrun, hleft, ?_⟩
    rw [hlength, List.length_append]
    simp only [List.length_cons, List.length_nil]
    omega

/-- If every pass visits every transition once, the names are different. -/
theorem distinct_of_visits
    (h : ∀ as s, Run (guard Untouched I.Moves) .new as s → I.Visits s) : I.Distinct := by
  obtain ⟨names, hoffered, hne⟩ := (h [] .new .nil).offered rfl
  have hts : I.leavingTransitions ≠ [] := by
    intro he
    have hmap : I.getTransitionNames = some names := hoffered
    unfold leavingTransitions at he
    unfold getTransitionNames at hmap
    cases hl : I.nodes.leavingTransitions I.interleaveStart with
    | none =>
      rw [hl] at hmap
      cases hmap
    | some ts =>
      rw [hl] at he hmap
      cases he
      cases hmap
      exact hne rfl
  have hnames : names = (I.leavingTransitions.map I.nodes.name).dedup :=
    Option.some.inj (hoffered.symm.trans (getTransitionNames_eq hts))
  obtain ⟨k, names, rfl⟩ := List.exists_cons_of_ne_nil hne
  obtain ⟨as, s, t, hrun, hleft, hlength⟩ := exists_run (I := I) (s := .new) rfl hoffered
    fun x hx => List.dedup_subset _ (hnames ▸ hx)
  have hperm := ((h as s hrun).leaves t hleft).2.1.length_eq
  refine ⟨hts, List.dedup_eq_self.1 ?_⟩
  refine (List.dedup_sublist _).eq_of_length ?_
  rw [← hnames, List.length_map, ← hperm, hlength]
  exact (Nat.zero_add _).symm

/-- **Interleaved routing.**  Over every sequence of passes, whatever the interleaver
    picks of the names it is offered, each pass takes every leaving transition once and
    then the token leaves by `done`, just if there are leaving transitions and their
    names are different; the branches do not write the variable. -/
theorem visits_iff : (∀ as s, Run (guard Untouched I.Moves) .new as s → I.Visits s) ↔ I.Distinct :=
  ⟨distinct_of_visits, fun hd _ _ h => (inv_of_run hd h).visits hd⟩

/-- The node 0 with the transitions 0 and 1, and the end 1 with the transitions back and
    done. -/
def twoBranches (nameOf : ℕ → Option String) : Interleaving ℕ where
  nodes :=
    { superStates := ⟨fun _ => none, fun _ => 0, fun h => nomatch h⟩
      leavingTransitions := fun n => if n = 0 then some [0, 1] else some [2, 3]
      name := fun t => if t = 2 then some "back" else if t = 3 then some "done" else nameOf t }
  target t := if t = 2 then 0 else 1
  interleaveStart := 0
  interleaveEnd := 1
  backTransitionName := some "back"
  doneTransitionName := some "done"
  back := 2
  done := 3
  start_of_back := ⟨2, rfl, rfl⟩
  back_leaves := rfl
  target_back := rfl
  done_leaves := rfl

example : (twoBranches fun t => if t = 0 then some "b" else some "c").Distinct := by
  unfold Distinct
  decide

/-- Two transitions without a name: one of them is never taken. -/
theorem unnamed_not_taken : ¬ ∀ (I : Interleaving ℕ) (as : List Action) (s : State ℕ),
    Run (guard Untouched I.Moves) .new as s → I.Visits s := by
  intro h
  have hselect : (twoBranches fun _ => none).Moves .new (.select none)
      ⟨.inBranch 0, some [], [0]⟩ := rfl
  have harrive : (twoBranches fun _ => none).Moves ⟨.inBranch 0, some [], [0]⟩ .arrive
      ⟨.atEnd, some [], [0]⟩ := rfl
  have hexecute : (twoBranches fun _ => none).Moves ⟨.atEnd, some [], [0]⟩ .execute
      ⟨.left 3, none, [0]⟩ := rfl
  have hrun : Run (guard Untouched (twoBranches fun _ => none).Moves) .new
      [.select none, .arrive, .execute] ⟨.left 3, none, [0]⟩ := .cons ⟨trivial, hselect⟩
    (.cons ⟨trivial, harrive⟩ (.cons ⟨trivial, hexecute⟩ .nil))
  have hperm := ((h _ _ _ hrun).leaves 3 rfl).2.1
  revert hperm
  decide

end Interleaving

end Graph

end Jbpm
