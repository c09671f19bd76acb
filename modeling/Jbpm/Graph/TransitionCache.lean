/-
  The cached map of a node's leaving transitions, and what changes under it: lists
  of transitions, their order and their names.

  * `Op.exec`: the operations, with what they throw;
  * `Cached`: a map that is there is the map of the list;
  * `Careful`: the steps after which it still is;
  * `cached_of_run`: then the lookups are those of `LeavingTransitions`.
-/
import Mathlib.Data.List.Basic
import Jbpm.Graph.LeavingTransitions
import Jbpm.Lib.Run

namespace Jbpm

namespace Graph

open Lib

/-- The fields of the nodes and of the transitions: a node and a transition are
    numbers. -/
structure TransitionState where
  leavingTransitions : ℕ → Option (List ℕ)
  leavingTransitionMap : ℕ → Option (Option String → Option ℕ)
  name : ℕ → Option String
  from_ : ℕ → Option ℕ

inductive TransitionError
  | illegalArgument
  | nullPointer
  deriving DecidableEq

namespace TransitionState

/-- Nodes without transitions, and transitions of the given names. -/
def initial (name : ℕ → Option String) : TransitionState where
  leavingTransitions _ := none
  leavingTransitionMap _ := none
  name := name
  from_ _ := none

/-- The lists, without the maps. -/
def nodes (superStates : Forest ℕ) (s : TransitionState) : Nodes ℕ where
  superStates := superStates
  leavingTransitions := s.leavingTransitions
  name := s.name

variable (superStates : Forest ℕ) (s : TransitionState)

/-- The transitions in the list of a node. -/
def leaving (n : ℕ) : List ℕ := (s.leavingTransitions n).getD []

/-- The map is made when it is asked for. -/
def getLeavingTransitionsMap (n : ℕ) : Option (Option String → Option ℕ) × TransitionState :=
  match s.leavingTransitionMap n, s.leavingTransitions n with
  | none, some ts =>
    let m := leavingTransitionsMap s.name ts
    (some m, { s with leavingTransitionMap := Function.update s.leavingTransitionMap n (some m) })
  | m, _ => (m, s)

/-- What the map of a node has under a name, if the node has a list. -/
def mapped (n : ℕ) (transitionName : Option String) : Option ℕ × TransitionState :=
  match s.leavingTransitions n with
  | none => (none, s)
  | some _ =>
    let (m, s') := s.getLeavingTransitionsMap n
    (m.bind fun m => m transitionName, s')

def hasLeavingTransition (n : ℕ) (transitionName : Option String) : Bool × TransitionState :=
  let (t, s') := s.mapped n transitionName
  (t.isSome, s')

/-- The lookup in a node and, in turn, its super-states. -/
def lookup (transitionName : Option String) : List ℕ → TransitionState → Option ℕ × TransitionState
  | [], s => (none, s)
  | n :: ns, s =>
    match s.mapped n transitionName with
    | (some t, s') => (some t, s')
    | (none, s') => lookup transitionName ns s'

def getLeavingTransition (n : ℕ) (transitionName : Option String) : Option ℕ × TransitionState :=
  lookup transitionName (superStates.path n) s

def addLeavingTransition (n t : ℕ) : TransitionState :=
  { s with
    leavingTransitions := Function.update s.leavingTransitions n (some (s.leaving n ++ [t]))
    from_ := Function.update s.from_ t (some n)
    leavingTransitionMap := Function.update s.leavingTransitionMap n none }

def removeLeavingTransition (n t : ℕ) : TransitionState :=
  match s.leavingTransitions n with
  | none => s
  | some ts =>
    if t ∈ ts then
      { s with
        leavingTransitions := Function.update s.leavingTransitions n (some (ts.erase t))
        from_ := Function.update s.from_ t none
        leavingTransitionMap := Function.update s.leavingTransitionMap n none }
    else s

/-- `leavingTransitions.add(newIndex, leavingTransitions.remove(oldIndex))` -/
def reordered (ts : List ℕ) (oldIndex newIndex : ℕ) : List ℕ :=
  match ts[oldIndex]? with
  | some t => (ts.eraseIdx oldIndex).insertIdx newIndex t
  | none => ts

/-- The map stays as it is. -/
def reorderLeavingTransition (n : ℕ) (oldIndex newIndex : ℤ) : TransitionState :=
  match s.leavingTransitions n with
  | none => s
  | some ts =>
    if 0 ≤ oldIndex ∧ 0 ≤ newIndex ∧ oldIndex < ts.length ∧ newIndex < ts.length then
      { s with
        leavingTransitions := Function.update s.leavingTransitions n
          (some (reordered ts oldIndex.toNat newIndex.toNat)) }
    else s

/-- `Transition.setName` -/
def setName (t : ℕ) (name : Option String) : Except TransitionError Unit × TransitionState :=
  match s.from_ t with
  | none => (.ok (), { s with name := Function.update s.name t name })
  | some n =>
    match s.hasLeavingTransition n name with
    | (true, s') => (.error .illegalArgument, s')
    | (false, s') =>
      match s'.getLeavingTransitionsMap n with
      | (none, s') => (.error .nullPointer, s')
      | (some m, s') =>
        let m := Function.update (Function.update m (s.name t) none) name (some t)
        (.ok (), { s' with
          leavingTransitionMap := Function.update s'.leavingTransitionMap n (some m)
          name := Function.update s'.name t name })

/-- What is called on the nodes and the transitions. -/
inductive Op
  | addLeavingTransition (n t : ℕ)
  | removeLeavingTransition (n t : ℕ)
  | reorderLeavingTransition (n : ℕ) (oldIndex newIndex : ℤ)
  | setName (t : ℕ) (name : Option String)
  | hasLeavingTransition (n : ℕ) (name : Option String)
  | getLeavingTransition (n : ℕ) (name : Option String)

def exec : Op → TransitionState
  | .addLeavingTransition n t => s.addLeavingTransition n t
  | .removeLeavingTransition n t => s.removeLeavingTransition n t
  | .reorderLeavingTransition n i j => s.reorderLeavingTransition n i j
  | .setName t name => (s.setName t name).2
  | .hasLeavingTransition n name => (s.hasLeavingTransition n name).2
  | .getLeavingTransition n name => (s.getLeavingTransition superStates n name).2

/-! ## Maps that are up to date -/

/-- A map that is there is the map of the list, and a transition is in the list of
    the node that it comes from. -/
structure Cached : Prop where
  map_eq : ∀ {n m}, s.leavingTransitionMap n = some m →
    ∃ ts, s.leavingTransitions n = some ts ∧ m = leavingTransitionsMap s.name ts
  mem_of_from : ∀ {t n}, s.from_ t = some n → t ∈ s.leaving n

/-- A lookup makes maps of some nodes and leaves all else as it is. -/
structure Reads (ns : List ℕ) (s s' : TransitionState) : Prop where
  leavingTransitions : s'.leavingTransitions = s.leavingTransitions
  name : s'.name = s.name
  from_ : s'.from_ = s.from_
  map_of_notMem : ∀ {m}, m ∉ ns → s'.leavingTransitionMap m = s.leavingTransitionMap m
  cached : s'.Cached

variable {superStates} {s} {s' : TransitionState}

theorem Cached.refl (h : s.Cached) (ns : List ℕ) : Reads ns s s :=
  ⟨rfl, rfl, rfl, fun _ => rfl, h⟩

theorem Reads.leaving {ns : List ℕ} (h : Reads ns s s') (n : ℕ) : s'.leaving n = s.leaving n := by
  rw [TransitionState.leaving, h.leavingTransitions, TransitionState.leaving]

theorem Reads.nodes {ns : List ℕ} (h : Reads ns s s') :
    s'.nodes superStates = s.nodes superStates := by
  rw [TransitionState.nodes, h.leavingTransitions, h.name, TransitionState.nodes]

theorem Reads.trans {ns ms : List ℕ} {s'' : TransitionState} (h : Reads ns s s')
    (h' : Reads ms s' s'') : Reads (ns ++ ms) s s'' where
  leavingTransitions := h'.leavingTransitions.trans h.leavingTransitions
  name := h'.name.trans h.name
  from_ := h'.from_.trans h.from_
  map_of_notMem hm := by
    rw [List.mem_append, not_or] at hm
    exact (h'.map_of_notMem hm.2).trans (h.map_of_notMem hm.1)
  cached := h'.cached

/-- The map of a node with a list is that of the list. -/
theorem getLeavingTransitionsMap_spec (h : s.Cached) {n : ℕ} {ts : List ℕ}
    (hn : s.leavingTransitions n = some ts) :
    ∃ s', s.getLeavingTransitionsMap n = (some (leavingTransitionsMap s.name ts), s') ∧
      Reads [n] s s' := by
  rw [getLeavingTransitionsMap, hn]
  rcases hm : s.leavingTransitionMap n with _ | m
  · refine ⟨_, rfl, rfl, rfl, rfl, fun hm' => ?_, ?_⟩
    · exact Function.update_of_ne (by simpa using hm') ..
    · refine ⟨fun {n' m'} hm' => ?_, fun hf => h.mem_of_from hf⟩
      dsimp only at hm'
      by_cases hn' : n' = n
      · subst hn'
        rw [Function.update_self] at hm'
        exact ⟨ts, hn, (Option.some.inj hm').symm⟩
      · rw [Function.update_of_ne hn'] at hm'
        exact h.map_eq hm'
  · obtain ⟨ts', hn', rfl⟩ := h.map_eq hm
    obtain rfl : ts = ts' := Option.some.inj (hn.symm.trans hn')
    exact ⟨s, rfl, h.refl _⟩

theorem mapped_spec (h : s.Cached) (superStates : Forest ℕ) (n : ℕ) (k : Option String) :
    ∃ s', s.mapped n k = ((s.nodes superStates).ownTransition n k, s') ∧ Reads [n] s s' := by
  rcases hn : s.leavingTransitions n with _ | ts
  · refine ⟨s, ?_, h.refl _⟩
    simp only [mapped, Nodes.ownTransition, nodes, hn]
  · obtain ⟨s', hs', hr⟩ := getLeavingTransitionsMap_spec h hn
    refine ⟨s', ?_, hr⟩
    simp only [mapped, Nodes.ownTransition, nodes, hn, hs', Option.bind_some]

theorem hasLeavingTransition_spec (h : s.Cached) (superStates : Forest ℕ) (n : ℕ)
    (k : Option String) :
    ∃ s', s.hasLeavingTransition n k = ((s.nodes superStates).hasLeavingTransition n k, s') ∧
      Reads [n] s s' := by
  obtain ⟨s', hs', hr⟩ := mapped_spec h superStates n k
  refine ⟨s', ?_, hr⟩
  rw [hasLeavingTransition, hs', Nodes.hasLeavingTransition]

theorem lookup_spec (superStates : Forest ℕ) (k : Option String) :
    ∀ (ns : List ℕ) {s : TransitionState}, s.Cached →
      ∃ s', lookup k ns s =
          (ns.findSome? fun n => (s.nodes superStates).ownTransition n k, s') ∧ Reads ns s s'
  | [], s, h => ⟨s, rfl, h.refl _⟩
  | n :: ns, s, h => by
    obtain ⟨s', hs', hr⟩ := mapped_spec h superStates n k
    rw [lookup, hs', List.findSome?_cons]
    rcases (s.nodes superStates).ownTransition n k with _ | t
    · obtain ⟨s'', hs'', hr'⟩ := lookup_spec superStates k ns hr.cached
      rw [hr.nodes] at hs''
      exact ⟨s'', hs'', hr.trans hr'⟩
    · refine ⟨s', rfl, hr.leavingTransitions, hr.name, hr.from_, fun hm => ?_, hr.cached⟩
      exact hr.map_of_notMem fun hm' => hm (List.mem_singleton.1 hm' ▸ List.mem_cons_self)

theorem getLeavingTransition_spec (h : s.Cached) (superStates : Forest ℕ) (n : ℕ)
    (k : Option String) :
    ∃ s', s.getLeavingTransition superStates n k =
        ((s.nodes superStates).getLeavingTransition n k, s') ∧
      Reads (superStates.path n) s s' :=
  lookup_spec superStates k _ h

/-! ## Steps -/

theorem leaving_update {n : ℕ} {ts : List ℕ} (m : ℕ) :
    (Function.update s.leavingTransitions n (some ts) m).getD [] =
      if m = n then ts else s.leaving m := by
  by_cases hm : m = n
  · subst hm
    rw [Function.update_self, if_pos rfl, Option.getD_some]
  · rw [Function.update_of_ne hm, if_neg hm, leaving]

/-- A list is replaced, and its map dropped. -/
theorem Cached.setList (h : s.Cached) {n : ℕ} {ts : List ℕ} {from_ : ℕ → Option ℕ}
    (hfrom : ∀ {t m}, from_ t = some m → t ∈ if m = n then ts else s.leaving m) :
    Cached { s with
      leavingTransitions := Function.update s.leavingTransitions n (some ts)
      from_ := from_
      leavingTransitionMap := Function.update s.leavingTransitionMap n none } where
  map_eq := by
    intro m f hf
    dsimp only at hf ⊢
    by_cases hm : m = n
    · subst hm
      rw [Function.update_self] at hf
      cases hf
    · rw [Function.update_of_ne hm] at hf ⊢
      exact h.map_eq hf
  mem_of_from := by
    intro t m ht
    rw [leaving, leaving_update]
    exact hfrom ht

theorem Cached.addLeavingTransition (h : s.Cached) (n t : ℕ) :
    (s.addLeavingTransition n t).Cached := by
  refine h.setList fun {u m} hu => ?_
  by_cases hut : u = t
  · subst hut
    rw [Function.update_self] at hu
    rw [if_pos (Option.some.inj hu).symm]
    exact List.mem_append_right _ (List.mem_singleton_self u)
  · rw [Function.update_of_ne hut] at hu
    have hmem := h.mem_of_from hu
    split
    · next hm => exact List.mem_append_left _ (hm ▸ hmem)
    · exact hmem

theorem Cached.removeLeavingTransition (h : s.Cached) (n t : ℕ) :
    (s.removeLeavingTransition n t).Cached := by
  rw [TransitionState.removeLeavingTransition]
  split
  · exact h
  · next ts hn =>
    split
    · refine h.setList fun {u m} hu => ?_
      by_cases hut : u = t
      · subst hut
        rw [Function.update_self] at hu
        cases hu
      · rw [Function.update_of_ne hut] at hu
        have hmem := h.mem_of_from hu
        split
        · next hm =>
          subst hm
          rw [leaving, hn, Option.getD_some] at hmem
          exact (List.mem_erase_of_ne hut).2 hmem
        · exact hmem
    · exact h

theorem mem_reordered {ts : List ℕ} {i j u : ℕ} (hj : j < ts.length) (hu : u ∈ ts) :
    u ∈ reordered ts i j := by
  rw [reordered]
  rcases hi : ts[i]? with _ | t
  · exact hu
  · obtain ⟨hlt, ht⟩ := List.getElem?_eq_some_iff.1 hi
    have hlen : j ≤ (ts.eraseIdx i).length := by
      rw [List.length_eraseIdx_of_lt hlt]
      omega
    rw [List.mem_insertIdx hlen, List.mem_eraseIdx_iff_getElem?]
    obtain ⟨p, hp⟩ := List.mem_iff_getElem?.1 hu
    by_cases hpi : p = i
    · subst hpi
      exact .inl (Option.some.inj (hp.symm.trans hi))
    · exact .inr ⟨p, hpi, hp⟩

/-- The steps that keep the maps up to date: a list is reordered before its map is
    there, or so that the first transition of each name stays the first; the name
    of a transition is changed where no other transition of its node has the old
    name, and no other node lists it. -/
def Careful (s : TransitionState) : Op → Prop
  | .reorderLeavingTransition n i j =>
    s.leavingTransitionMap n = none ∨
      ∀ k, leavingTransitionsMap s.name ((s.reorderLeavingTransition n i j).leaving n) k =
        leavingTransitionsMap s.name (s.leaving n) k
  | .setName t name =>
    (∃ n, s.from_ t = some n ∧ ∃ u ∈ s.leaving n, s.name u = name) ∨
      (∀ n, s.from_ t = some n → ∀ u ∈ s.leaving n, u ≠ t → s.name u ≠ s.name t) ∧
        ∀ m, s.from_ t ≠ some m → t ∉ s.leaving m
  | _ => True

theorem Cached.reorderLeavingTransition (h : s.Cached) {n : ℕ} {i j : ℤ}
    (hc : s.Careful (.reorderLeavingTransition n i j)) :
    (s.reorderLeavingTransition n i j).Cached := by
  rw [Careful] at hc
  rcases hn : s.leavingTransitions n with _ | ts
  · rw [TransitionState.reorderLeavingTransition, hn]
    exact h
  by_cases hij : 0 ≤ i ∧ 0 ≤ j ∧ i < ts.length ∧ j < ts.length
  · have heq : s.reorderLeavingTransition n i j = { s with
        leavingTransitions := Function.update s.leavingTransitions n
          (some (reordered ts i.toNat j.toNat)) } := by
      rw [TransitionState.reorderLeavingTransition, hn]
      exact if_pos hij
    rw [heq] at hc ⊢
    refine ⟨fun {m f} hf => ?_, fun {u m} hu => ?_⟩
    · dsimp only at hf ⊢
      by_cases hm : m = n
      · subst hm
        rw [Function.update_self]
        refine ⟨_, rfl, ?_⟩
        obtain ⟨ts', hts', rfl⟩ := h.map_eq hf
        obtain rfl : ts = ts' := Option.some.inj (hn.symm.trans hts')
        rcases hc with hc | hc
        · rw [hf] at hc
          cases hc
        · funext k
          have hk := hc k
          simp only [leaving, Function.update_self, hn, Option.getD_some] at hk
          exact hk.symm
      · rw [Function.update_of_ne hm]
        exact h.map_eq hf
    · have hmem := h.mem_of_from hu
      rw [leaving, leaving_update]
      split
      · next hm =>
        subst hm
        rw [leaving, hn, Option.getD_some] at hmem
        exact mem_reordered (by omega) hmem
      · exact hmem
  · rw [TransitionState.reorderLeavingTransition, hn]
    dsimp only
    rw [if_neg hij]
    exact h

/-- Renaming a transition that is not in a list leaves the map of that list. -/
theorem leavingTransitionsMap_of_notMem {name : ℕ → Option String} {t : ℕ} {ts : List ℕ}
    (ht : t ∉ ts) (k : Option String) :
    leavingTransitionsMap (Function.update name t k) ts = leavingTransitionsMap name ts := by
  induction ts with
  | nil => rfl
  | cons u ts ih =>
    rw [List.mem_cons, not_or] at ht
    simp only [leavingTransitionsMap, List.foldr_cons] at ih ⊢
    rw [ih ht.2, Function.update_of_ne (Ne.symm ht.1)]

/-- What is done to the map when a transition gets a name that no other has, if no
    other had its old one. -/
theorem leavingTransitionsMap_rename {name : ℕ → Option String} {t : ℕ} {ts : List ℕ}
    {k : Option String} (ht : t ∈ ts) (hnew : ∀ u ∈ ts, name u ≠ k)
    (hold : ∀ u ∈ ts, u ≠ t → name u ≠ name t) :
    leavingTransitionsMap (Function.update name t k) ts =
      Function.update (Function.update (leavingTransitionsMap name ts) (name t) none) k
        (some t) := by
  funext l
  rw [leavingTransitionsMap_apply]
  by_cases hl : l = k
  · subst hl
    rw [Function.update_self]
    have hsome : (ts.find? fun u => decide (Function.update name t l u = l)).isSome := by
      rw [List.find?_isSome]
      exact ⟨t, ht, by simp⟩
    obtain ⟨u, hu⟩ := Option.isSome_iff_exists.1 hsome
    have hul := List.find?_some hu
    rw [hu]
    by_contra hut
    have hut : u ≠ t := fun h => hut (by rw [h])
    rw [Function.update_of_ne hut, decide_eq_true_iff] at hul
    exact hnew u (List.mem_of_find?_eq_some hu) hul
  · rw [Function.update_of_ne hl]
    by_cases hlt : l = name t
    · subst hlt
      rw [Function.update_self, List.find?_eq_none]
      intro u hu
      by_cases hut : u = t
      · subst hut
        rw [Function.update_self]
        simpa using Ne.symm hl
      · rw [Function.update_of_ne hut]
        simpa using hold u hu hut
    · rw [Function.update_of_ne hlt, leavingTransitionsMap_apply]
      refine congrArg (fun p => ts.find? p) (funext fun u => ?_)
      by_cases hut : u = t
      · subst hut
        rw [Function.update_self, decide_eq_false (Ne.symm hl), decide_eq_false (Ne.symm hlt)]
      · rw [Function.update_of_ne hut]

/-- A name that another transition of the node has is refused. -/
theorem setName_of_has (h : s.Cached) (superStates : Forest ℕ) {t n : ℕ} {k : Option String} (ht : s.from_ t = some n)
    (hk : ∃ u ∈ s.leaving n, s.name u = k) :
    ∃ s', s.setName t k = (.error .illegalArgument, s') ∧ Reads [n] s s' := by
  obtain ⟨s', hs', hr⟩ := hasLeavingTransition_spec h superStates n k
  rw [Nodes.hasLeavingTransition_iff.2 hk] at hs'
  refine ⟨s', ?_, hr⟩
  rw [setName, ht]
  dsimp only
  rw [hs']

/-- Else the map is patched. -/
theorem setName_of_not_has (h : s.Cached) (superStates : Forest ℕ) {t n : ℕ} {k : Option String}
    (ht : s.from_ t = some n) (hk : ∀ u ∈ s.leaving n, s.name u ≠ k) :
    ∃ s', Reads [n] s s' ∧ s.setName t k = (.ok (), { s' with
      leavingTransitionMap := Function.update s'.leavingTransitionMap n
        (some (Function.update (Function.update (leavingTransitionsMap s.name (s.leaving n))
          (s.name t) none) k (some t)))
      name := Function.update s'.name t k }) := by
  obtain ⟨s₁, hs₁, hr₁⟩ := hasLeavingTransition_spec h superStates n k
  have hhas : (s.nodes superStates).hasLeavingTransition n k = false := by
    rw [← Bool.not_eq_true, Nodes.hasLeavingTransition_iff]
    rintro ⟨u, hu, huk⟩
    exact hk u hu huk
  rw [hhas] at hs₁
  have hmem := h.mem_of_from ht
  rcases hn : s.leavingTransitions n with _ | ts
  · rw [leaving, hn, Option.getD_none] at hmem
    exact (List.not_mem_nil hmem).elim
  have hn₁ : s₁.leavingTransitions n = some ts := by rw [hr₁.leavingTransitions, hn]
  obtain ⟨s₂, hs₂, hr₂⟩ := getLeavingTransitionsMap_spec hr₁.cached hn₁
  refine ⟨s₂, ⟨?_, ?_, ?_, fun hm => ?_, hr₂.cached⟩, ?_⟩
  · exact hr₂.leavingTransitions.trans hr₁.leavingTransitions
  · exact hr₂.name.trans hr₁.name
  · exact hr₂.from_.trans hr₁.from_
  · exact (hr₂.map_of_notMem hm).trans (hr₁.map_of_notMem hm)
  · rw [setName, ht]
    dsimp only
    rw [hs₁]
    dsimp only
    rw [hs₂, hr₁.name, leaving, hn, Option.getD_some]

theorem Careful.of_not_has {t n : ℕ} {k : Option String} (hc : s.Careful (.setName t k))
    (ht : s.from_ t = some n) (hk : ∀ u ∈ s.leaving n, s.name u ≠ k) :
    (∀ u ∈ s.leaving n, u ≠ t → s.name u ≠ s.name t) ∧ ∀ m, m ≠ n → t ∉ s.leaving m := by
  rcases hc with ⟨n', hn', u, hu, huk⟩ | ⟨hold, hother⟩
  · obtain rfl : n = n' := Option.some.inj (ht.symm.trans hn')
    exact absurd huk (hk u hu)
  · refine ⟨hold n ht, fun m hm => hother m fun he => hm ?_⟩
    exact (Option.some.inj (ht.symm.trans he)).symm

theorem Cached.setName (h : s.Cached) (superStates : Forest ℕ) {t : ℕ} {k : Option String}
    (hc : s.Careful (.setName t k)) : (s.setName t k).2.Cached := by
  rcases ht : s.from_ t with _ | n
  · rw [TransitionState.setName, ht]
    rcases hc with ⟨n, hn, -⟩ | ⟨-, hc⟩
    · rw [ht] at hn
      cases hn
    refine ⟨fun {m f} hf => ?_, fun hu => h.mem_of_from hu⟩
    obtain ⟨ts, hts, rfl⟩ := h.map_eq hf
    refine ⟨ts, hts, (leavingTransitionsMap_of_notMem (fun hmem => ?_) k).symm⟩
    exact hc m (by rw [ht]; exact (Option.some_ne_none m).symm) (by rw [leaving, hts]; exact hmem)
  by_cases hk : ∃ u ∈ s.leaving n, s.name u = k
  · obtain ⟨s', hs', hr⟩ := setName_of_has h superStates ht hk
    rw [hs']
    exact hr.cached
  have hk : ∀ u ∈ s.leaving n, s.name u ≠ k := fun u hu huk => hk ⟨u, hu, huk⟩
  obtain ⟨s', hr, hs'⟩ := setName_of_not_has h superStates ht hk
  rw [hs']
  obtain ⟨hold, hother⟩ := hc.of_not_has ht hk
  have hmem := h.mem_of_from ht
  refine ⟨fun {m f} hf => ?_, fun {u m} hu => ?_⟩
  · dsimp only at hf ⊢
    rw [hr.leavingTransitions, hr.name]
    by_cases hm : m = n
    · subst hm
      rw [Function.update_self] at hf
      obtain ⟨ts, hts⟩ : ∃ ts, s.leavingTransitions m = some ts := by
        rcases hts : s.leavingTransitions m with _ | ts
        · rw [leaving, hts] at hmem
          exact (List.not_mem_nil hmem).elim
        · exact ⟨ts, rfl⟩
      have hleaving : s.leaving m = ts := by rw [leaving, hts, Option.getD_some]
      rw [hleaving] at hf hmem hk hold
      exact ⟨ts, hts, (Option.some.inj hf).symm.trans (leavingTransitionsMap_rename hmem hk hold).symm⟩
    · rw [Function.update_of_ne hm, hr.map_of_notMem (by simpa using hm)] at hf
      obtain ⟨ts, hts, rfl⟩ := h.map_eq hf
      refine ⟨ts, hts, (leavingTransitionsMap_of_notMem (fun hmem => ?_) k).symm⟩
      exact hother m hm (by rw [leaving, hts]; exact hmem)
  · exact hr.cached.mem_of_from hu

theorem Cached.exec (h : s.Cached) (superStates : Forest ℕ) {op : Op} (hc : s.Careful op) :
    (s.exec superStates op).Cached := by
  cases op with
  | addLeavingTransition n t => exact h.addLeavingTransition n t
  | removeLeavingTransition n t => exact h.removeLeavingTransition n t
  | reorderLeavingTransition n i j => exact h.reorderLeavingTransition hc
  | setName t name => exact h.setName superStates hc
  | hasLeavingTransition n k =>
    obtain ⟨s', hs', hr⟩ := hasLeavingTransition_spec h superStates n k
    rw [TransitionState.exec, hs']
    exact hr.cached
  | getLeavingTransition n k =>
    obtain ⟨s', hs', hr⟩ := getLeavingTransition_spec h superStates n k
    rw [TransitionState.exec, hs']
    exact hr.cached

theorem cached_initial (name : ℕ → Option String) : (initial name).Cached := ⟨nofun, nofun⟩

/-- After careful steps all maps are up to date. -/
theorem cached_of_run {name : ℕ → Option String} {ops : List Op}
    (h : Run (guard Careful fun s op s' => s' = s.exec superStates op) (initial name) ops s) :
    s.Cached :=
  h.inv (cached_initial name) fun s op s' hs ⟨hc, he⟩ => by
    subst he
    exact hs.exec superStates hc

/-! ## Lookups by name -/

variable (superStates s) in
/-- The first transition of a name in the list of a node or, if it has none, of the
    nearest super-state that has one. -/
def firstNamed (n : ℕ) (k : Option String) : Option ℕ :=
  (superStates.path n).findSome? fun m => (s.leaving m).find? fun t => decide (s.name t = k)

variable (superStates s) in
/-- A transition in the list of a node is what the node has under its name. -/
def Findable (n u : ℕ) : Prop :=
  u ∈ s.leaving n ∧ (s.getLeavingTransition superStates n (s.name u)).1 = some u

variable (superStates s) in
/-- Lists, names and sources are as before, and so are the results of all lookups. -/
structure Unchanged (s' : TransitionState) : Prop where
  leavingTransitions : s'.leavingTransitions = s.leavingTransitions
  name : s'.name = s.name
  from_ : s'.from_ = s.from_
  get : ∀ n k, (s'.getLeavingTransition superStates n k).1 = (s.getLeavingTransition superStates n k).1
  has : ∀ n k, (s'.hasLeavingTransition n k).1 = (s.hasLeavingTransition n k).1

theorem Cached.get_eq (h : s.Cached) (n : ℕ) (k : Option String) :
    (s.getLeavingTransition superStates n k).1 = s.firstNamed superStates n k := by
  obtain ⟨s', hs', -⟩ := getLeavingTransition_spec h superStates n k
  rw [hs', Nodes.getLeavingTransition, firstNamed]
  exact congrArg (fun f => (superStates.path n).findSome? f)
    (funext fun m => Nodes.ownTransition_eq m k)

theorem Cached.has_iff (h : s.Cached) (superStates : Forest ℕ) (n : ℕ) (k : Option String) :
    (s.hasLeavingTransition n k).1 = true ↔ ∃ t ∈ s.leaving n, s.name t = k := by
  obtain ⟨s', hs', -⟩ := hasLeavingTransition_spec h superStates n k
  rw [hs']
  exact Nodes.hasLeavingTransition_iff

theorem Cached.findable_iff (h : s.Cached) {n u : ℕ} :
    s.Findable superStates n u ↔
      u ∈ s.leaving n ∧ leavingTransitionsMap s.name (s.leaving n) (s.name u) = some u := by
  refine and_congr_right fun hu => ?_
  have hhas : ((s.leaving n).find? fun t => decide (s.name t = s.name u)).isSome := by
    rw [List.find?_isSome]
    exact ⟨u, hu, by simp⟩
  obtain ⟨t, ht⟩ := Option.isSome_iff_exists.1 hhas
  rw [h.get_eq, firstNamed, Forest.path, List.findSome?_cons, ht, leavingTransitionsMap_apply, ht]

theorem Reads.unchanged {ns : List ℕ} (h : s.Cached) (hr : Reads ns s s') :
    s.Unchanged superStates s' where
  leavingTransitions := hr.leavingTransitions
  name := hr.name
  from_ := hr.from_
  get n k := by
    rw [hr.cached.get_eq, h.get_eq, firstNamed, firstNamed, hr.name]
    simp only [hr.leaving]
  has n k := by
    rw [Bool.eq_iff_iff, hr.cached.has_iff superStates, h.has_iff superStates, hr.name, hr.leaving]

/-- **A new name.**  The other transitions are found as before. -/
theorem Findable.setName (h : s.Cached) {t n u : ℕ} {k : Option String}
    (hc : s.Careful (.setName t k)) (hok : (s.setName t k).1 = .ok ()) (hut : u ≠ t)
    (hu : s.Findable superStates n u) : (s.setName t k).2.Findable superStates n u := by
  rw [(h.setName superStates hc).findable_iff]
  obtain ⟨hmem, hmap⟩ := h.findable_iff.1 hu
  rcases ht : s.from_ t with _ | m
  · have hn : t ∉ s.leaving n := by
      rcases hc with ⟨n', hn', -⟩ | ⟨-, hother⟩
      · rw [ht] at hn'
        cases hn'
      · exact hother n (by rw [ht]; exact (Option.some_ne_none n).symm)
    rw [TransitionState.setName, ht]
    refine ⟨hmem, ?_⟩
    show leavingTransitionsMap (Function.update s.name t k) (s.leaving n)
      (Function.update s.name t k u) = some u
    rw [leavingTransitionsMap_of_notMem hn, Function.update_of_ne hut]
    exact hmap
  by_cases hk : ∃ u ∈ s.leaving m, s.name u = k
  · obtain ⟨s', hs', -⟩ := setName_of_has h superStates ht hk
    rw [hs'] at hok
    cases hok
  have hk : ∀ u ∈ s.leaving m, s.name u ≠ k := fun u hu huk => hk ⟨u, hu, huk⟩
  obtain ⟨hold, hother⟩ := hc.of_not_has ht hk
  obtain ⟨s', hr, hs'⟩ := setName_of_not_has h superStates ht hk
  rw [hs']
  refine ⟨by rw [← hr.leaving] at hmem; exact hmem, ?_⟩
  show leavingTransitionsMap (Function.update s'.name t k) (s'.leaving n)
    (Function.update s'.name t k u) = some u
  rw [hr.name, hr.leaving, Function.update_of_ne hut]
  by_cases hnm : n = m
  · subst hnm
    rw [leavingTransitionsMap_rename (h.mem_of_from ht) hk hold, Function.update_of_ne (hk u hmem),
      Function.update_of_ne (hold u hmem hut)]
    exact hmap
  · rw [leavingTransitionsMap_of_notMem (hother n hnm)]
    exact hmap

/-- **A name that is refused.**  Nothing changes. -/
theorem setName_refused (h : s.Cached) {t : ℕ} {k : Option String} {e : TransitionError}
    (he : (s.setName t k).1 = .error e) : s.Unchanged superStates (s.setName t k).2 := by
  rcases ht : s.from_ t with _ | n
  · rw [TransitionState.setName, ht] at he
    cases he
  by_cases hk : ∃ u ∈ s.leaving n, s.name u = k
  · obtain ⟨s', hs', hr⟩ := setName_of_has h superStates ht hk
    rw [hs']
    exact hr.unchanged h
  · have hk : ∀ u ∈ s.leaving n, s.name u ≠ k := fun u hu huk => hk ⟨u, hu, huk⟩
    obtain ⟨s', -, hs'⟩ := setName_of_not_has h superStates ht hk
    rw [hs'] at he
    cases he

/-- **Lookups after careful steps.** -/
theorem lookups_of_run {name : ℕ → Option String} {ops : List Op}
    (h : Run (guard Careful fun s op s' => s' = s.exec superStates op) (initial name) ops s) :
    (∀ n k, (s.getLeavingTransition superStates n k).1 = s.firstNamed superStates n k) ∧
      (∀ n k, (s.hasLeavingTransition n k).1 = true ↔ ∃ t ∈ s.leaving n, s.name t = k) ∧
      (∀ t k, s.Careful (.setName t k) → (s.setName t k).1 = .ok () →
        ∀ n u, u ≠ t → s.Findable superStates n u → (s.setName t k).2.Findable superStates n u) ∧
      ∀ t k e, (s.setName t k).1 = .error e → s.Unchanged superStates (s.setName t k).2 := by
  have hs := cached_of_run h
  exact ⟨hs.get_eq, hs.has_iff superStates, fun _ _ hc hok _ _ hut hu => hu.setName hs hc hok hut,
    fun _ _ _ he => setName_refused hs he⟩

def named : ℕ → Option String
  | 0 => some "a"
  | 1 => some "b"
  | _ => none

def sample : List Op :=
  [.addLeavingTransition 0 0, .addLeavingTransition 0 1, .getLeavingTransition 0 (some "a"),
    .reorderLeavingTransition 0 0 1, .setName 1 (some "c")]

theorem sample_careful :
    Allowed Careful (fun s op => s.exec oneNested op) (initial named) sample := by
  refine ⟨trivial, trivial, trivial, .inr fun k => ?_, .inr ⟨fun n hn u hu hut => ?_, fun m hm => ?_⟩,
    trivial⟩
  · show Function.update (Function.update (fun _ => none) (some "a") (some 0)) (some "b") (some 1) k =
      Function.update (Function.update (fun _ => none) (some "b") (some 1)) (some "a") (some 0) k
    rw [Function.update_comm (by decide)]
  · obtain rfl : 0 = n := Option.some.inj (show some 0 = some n from hn)
    have hu : u = 1 ∨ u = 0 := by simpa using (show u ∈ [1, 0] from hu)
    rcases hu with rfl | rfl
    · exact (hut rfl).elim
    · decide
  · cases m with
    | zero => exact (hm rfl).elim
    | succ m => exact List.not_mem_nil

theorem lookups_of_sample :
    let s := sample.foldl (fun s op => s.exec oneNested op) (initial named)
    (s.getLeavingTransition oneNested 0 (some "c")).1 = some 1 ∧
      ∀ n k, (s.getLeavingTransition oneNested n k).1 = s.firstNamed oneNested n k :=
  ⟨by decide, (lookups_of_run (Run.of_allowed sample_careful)).1⟩

/-- Unnamed transitions, after some steps. -/
def after (ops : List Op) : TransitionState :=
  ops.foldl (fun s op => s.exec oneNested op) (initial fun _ => none)

/-- A node in a super-state with a transition finds it but does not have it.  A map
    that is there does not notice a new order, and a name that is given up is also
    given up for another transition that has it. -/
theorem lookups_disagree :
    let outer := after [.addLeavingTransition 0 0]
    let swapped := after [.addLeavingTransition 0 0, .addLeavingTransition 0 1,
      .getLeavingTransition 0 none, .reorderLeavingTransition 0 0 1]
    let two := after [.addLeavingTransition 0 0, .addLeavingTransition 0 1]
    let renamed := two.setName 1 (some "b")
    ((outer.getLeavingTransition oneNested 1 none).1 = some 0 ∧
        (outer.hasLeavingTransition 1 none).1 = false) ∧
      (swapped.leaving 0 = [1, 0] ∧ (swapped.getLeavingTransition oneNested 0 none).1 = some 0) ∧
      (two.getLeavingTransition oneNested 0 none).1 = some 0 ∧ renamed.1 = .ok () ∧
        (renamed.2.getLeavingTransition oneNested 0 none).1 = none := by
  decide

end TransitionState

end Graph

end Jbpm
