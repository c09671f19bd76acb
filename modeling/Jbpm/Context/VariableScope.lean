/-
  The scope of updates: which map `setVariable` writes to, and what other tokens
  read afterwards.

  * `Writes`, `Deletes`: one entry changes, and nothing else is read differently;
  * `Op`, `exec`: the updates;
  * `Obeys`, `Fits`: the scoping law for an update, and when it holds (`obeys_iff`).
-/
import Jbpm.Context.ContextInstance

namespace Jbpm

namespace Context

variable {T : Types} {K N : Type} {L : Library T}

namespace ContextInstance

variable (F : Lib.Forest K) (c : ContextInstance K N L)

/-! ## One entry changes -/

/-- At most the variable `n` of the map of `s` has changed. -/
structure Changes (c' : ContextInstance K N L) (n : N) (s : K) : Prop where
  maps : ∀ u, u ≠ s → c' u = c u
  names : ∀ m, m ≠ n → held c' m s = held c m s

/-- A token reads the same of a name. -/
def SameReads (c' : ContextInstance K N L) (m : N) (u : K) : Prop :=
  hasVariable F c' m u = hasVariable F c m u ∧ getVariable F c' m u = getVariable F c m u

/-- The call has set `n` to `v` in the map of `s`: the tokens whose nearest holder of `n` is
    `s` read `v`, and every other pair of a token and a name reads what it read before. -/
structure Writes (r : Except Exn Unit × ContextInstance K N L) (n : N) (v : Obj T) (s : K) :
    Prop where
  returns : r.1 = .ok ()
  changes : Changes c r.2 n s
  readers : ∀ u, holder F r.2 n u = some s →
    hasVariable F r.2 n u = true ∧ getVariable F r.2 n u = v
  others : ∀ u m, ¬(m = n ∧ holder F r.2 n u = some s) → SameReads F c r.2 m u

/-- `n` is no longer in the map of `s`: every pair reads what it read before, unless `s` was
    the nearest holder. -/
structure Deletes (c' : ContextInstance K N L) (n : N) (s : K) : Prop where
  changes : Changes c c' n s
  deleted : held c' n s = none
  others : ∀ u m, ¬(m = n ∧ holder F c n u = some s) → SameReads F c c' m u

section
variable {F c} {c' : ContextInstance K N L} {n : N} {v : Obj T} {s t : K}

theorem sameReads_of_nearest {m : N} {u : K} (h : nearest F c' m u = nearest F c m u) :
    SameReads F c c' m u := by
  rw [SameReads, hasVariable_eq, hasVariable_eq, getVariable_eq, getVariable_eq, h]
  exact ⟨rfl, rfl⟩

theorem Changes.held_eq (h : Changes c c' n s) {m : N} {u : K} (hne : ¬(m = n ∧ u = s)) :
    held c' m u = held c m u := by
  by_cases hu : u = s
  · subst hu
    exact h.names m fun hm => hne ⟨hm, rfl⟩
  · rw [held, held, h.maps u hu]

/-- A holder that is not the nearest one does not count. -/
theorem findSome?_of_ne {α : Type} {f g : K → Option α} (hs : (g s).isSome = true)
    (hfg : ∀ u, u ≠ s → g u = f u) (l : List K)
    (hl : l.find? (fun u => (g u).isSome) ≠ some s) : l.findSome? g = l.findSome? f := by
  induction l with
  | nil => rfl
  | cons u l ih =>
    have hu : u ≠ s := by
      rintro rfl
      exact hl (by rw [List.find?_cons, hs])
    rw [List.findSome?_cons, List.findSome?_cons, ← hfg u hu]
    rcases hg : g u with _ | a
    · refine ih fun h => hl ?_
      rw [List.find?_cons, hg]
      exact h
    · rfl

/-- **Frame.**  If `s` holds the name afterwards, the tokens with a nearer holder do not
    notice. -/
theorem Changes.sameReads (h : Changes c c' n s) (hs : (held c' n s).isSome = true) {m : N}
    {u : K} (hu : ¬(m = n ∧ holder F c' n u = some s)) : SameReads F c c' m u := by
  refine sameReads_of_nearest ?_
  by_cases hm : m = n
  · subst hm
    exact findSome?_of_ne hs (fun u hne => h.held_eq fun he => hne he.2) _ fun he => hu ⟨rfl, he⟩
  · exact congrArg ((F.path u).findSome? ·) (funext fun u => h.held_eq fun he => hm he.1)

theorem Changes.symm (h : Changes c c' n s) : Changes c' c n s :=
  ⟨fun u hu => (h.maps u hu).symm, fun m hm => (h.names m hm).symm⟩

theorem Changes.trans {c₁ c₂ : ContextInstance K N L} (h : Changes c c₁ n s)
    (h' : Changes c₁ c₂ n s) : Changes c c₂ n s :=
  ⟨fun u hu => (h'.maps u hu).trans (h.maps u hu),
    fun m hm => (h'.names m hm).trans (h.names m hm)⟩

theorem getVariable_of_holder {i : Variable L} (hs : holder F c n t = some s)
    (hi : held c n s = some i) :
    hasVariable F c n t = true ∧ getVariable F c n t = i.getValue := by
  have hn : nearest F c n t = some i := by
    rw [nearest, List.findSome?_eq_some_iff]
    obtain ⟨_, l₁, l₂, hl, hnone⟩ := List.find?_eq_some_iff_append.1 hs
    exact ⟨l₁, s, l₂, hl, hi, fun u hu => by simpa using hnone u hu⟩
  rw [hasVariable_eq, getVariable_eq, hn]
  exact ⟨rfl, rfl⟩

theorem writes_of_changes {r : Except Exn Unit × ContextInstance K N L} {i : Variable L}
    (hr : r.1 = .ok ()) (h : Changes c r.2 n s) (hi : held r.2 n s = some i)
    (hv : i.getValue = v) : Writes F c r n v s where
  returns := hr
  changes := h
  readers _ hu := hv ▸ getVariable_of_holder hu hi
  others _ _ hu := h.sameReads (by rw [hi]; rfl) hu

theorem deletes_of_changes (h : Changes c c' n s) (hd : held c' n s = none) :
    Deletes F c c' n s where
  changes := h
  deleted := hd
  others u m hu := by
    rcases hs : held c n s with _ | i
    · refine sameReads_of_nearest (congrArg ((F.path u).findSome? ·) (funext fun u => ?_))
      by_cases he : m = n ∧ u = s
      · rw [he.1, he.2, hd, hs]
      · exact h.held_eq he
    · have hback := h.symm.sameReads (F := F) (by rw [hs]; rfl) hu
      exact ⟨hback.1.symm, hback.2.symm⟩

end

/-! ## The way up from a token -/

def hasVariableLocally (n : N) (t : K) : Bool :=
  match c t with
  | some m => m.hasVariableLocally n
  | none => false

/-- The token at which the climb of `setVariable` ends. -/
def target (c : ContextInstance K N L) (n : N) : K → List K → K
  | t, [] => t
  | t, p :: parents => if hasVariableLocally c n t then t else target c n p parents

/-- The map that `setVariable` should write to: that of the nearest holder, or that of the
    root token. -/
def scope (n : N) (t : K) : K := (holder F c n t).getD (F.root t)

/-- The variable is held on the way up, or the root token has a map, or no token on the way
    up has one. -/
def Rooted (n : N) (t : K) : Prop :=
  holder F c n t ≠ none ∨ (c (F.root t)).isSome = true ∨ ∀ s ∈ F.path t, c s = none

/-- The value can be assigned to the variable of the map, or to a new one. -/
def Accepts (n : N) (v : Obj T) (s : K) : Prop :=
  (VariableContainer.typeFor n v ((c s).getD fun _ => none)).Accepts L v

section
variable {F c} {n : N} {v : Obj T} {s t : K}

theorem hasVariableLocally_eq : hasVariableLocally c n t = (held c n t).isSome := by
  rw [hasVariableLocally, held]
  rcases hc : c t with _ | m <;> rfl

theorem target_eq (t : K) (l : List K) : target c n t l =
    ((t :: l).find? fun s => (held c n s).isSome).getD
      ((t :: l).getLast (List.cons_ne_nil _ _)) := by
  induction l generalizing t with
  | nil =>
    rw [target]
    rcases ht : held c n t with _ | i <;> simp [ht]
  | cons p l ih =>
    rw [target, hasVariableLocally_eq, List.getLast_cons (List.cons_ne_nil _ _), List.find?_cons,
      ih p]
    rcases ht : held c n t with _ | i <;> simp

theorem holder_eq : (chain F c t).find? (fun s => (held c n s).isSome) = holder F c n t := by
  rw [chain, holder, List.find?_filter]
  refine congrArg ((F.path t).find? ·) (funext fun s => ?_)
  rcases hs : c s with _ | m <;> simp [held, hs]

theorem held_eq_none_of_holder (h : holder F c n t = none) (hs : s ∈ F.path t) :
    held c n s = none := by
  simpa using List.find?_eq_none.1 h s hs

theorem isSome_of_held (h : held c n s ≠ none) : (c s).isSome = true := by
  rcases hs : c s with _ | m
  · exact absurd (by rw [held, hs]; rfl) h
  · rfl

theorem mem_path_of_holder (h : holder F c n t = some s) :
    s ∈ F.path t ∧ (c s).isSome = true :=
  ⟨List.mem_of_find?_eq_some h,
    isSome_of_held (Option.isSome_iff_ne_none.1 (List.find?_eq_some_iff_append.1 h).1)⟩

theorem getLast_chain (h : (c (F.root t)).isSome = true) (hne : chain F c t ≠ []) :
    (chain F c t).getLast hne = F.root t := by
  have hc : chain F c t = (F.path t).dropLast.filter (fun s => (c s).isSome) ++ [F.root t] := by
    rw [chain, Lib.Forest.path_eq_dropLast_root, List.filter_append, List.filter_singleton, h,
      ← Lib.Forest.path_eq_dropLast_root]
    rfl
  simp only [hc, List.getLast_append_singleton]

/-- Nothing nearer than the scope holds the name. -/
theorem path_eq_scope : ∃ l₁ l₂, F.path t = l₁ ++ scope F c n t :: l₂ ∧
    ∀ u ∈ l₁, held c n u = none ∧ u ≠ scope F c n t := by
  rw [scope]
  rcases hh : holder F c n t with _ | x
  · refine ⟨(F.path t).dropLast, [], Lib.Forest.path_eq_dropLast_root, fun u hu => ⟨?_, ?_⟩⟩
    · exact held_eq_none_of_holder hh (List.dropLast_subset _ hu)
    · exact fun he => Lib.Forest.root_notMem_dropLast (he ▸ hu)
  · obtain ⟨hx, l₁, l₂, hl, hnone⟩ := List.find?_eq_some_iff_append.1 hh
    refine ⟨l₁, l₂, hl, fun u hu => ?_⟩
    have hu' : held c n u = none := by simpa using hnone u hu
    refine ⟨hu', ?_⟩
    rintro rfl
    rw [hu'] at hx
    exact absurd hx Bool.false_ne_true

theorem holder_of_changes {c' : ContextInstance K N L} (h : Changes c c' n (scope F c n t))
    {i : Variable L} (hi : held c' n (scope F c n t) = some i) :
    holder F c' n t = some (scope F c n t) := by
  obtain ⟨l₁, l₂, hl, hnone⟩ := path_eq_scope (F := F) (c := c) (n := n) (t := t)
  refine List.find?_eq_some_iff_append.2 ⟨by rw [hi]; rfl, l₁, l₂, hl, fun u hu => ?_⟩
  rw [h.held_eq fun he => (hnone u hu).2 he.2, (hnone u hu).1]
  rfl

variable [DecidableEq K]

theorem changes_createTokenVariableMap : Changes c (createTokenVariableMap c s) n s := by
  refine ⟨fun u hu => ?_, fun m _ => held_createTokenVariableMap s⟩
  rw [createTokenVariableMap]
  split
  · rfl
  · exact Function.update_of_ne hu _ _

theorem isSome_createTokenVariableMap : (createTokenVariableMap c s s).isSome = true := by
  rw [createTokenVariableMap]
  split
  · assumption
  · rw [Function.update_self]
    rfl

theorem accepts_createTokenVariableMap :
    Accepts (createTokenVariableMap c s) n v s ↔ Accepts c n v s := by
  rw [createTokenVariableMap]
  split
  · exact Iff.rfl
  · rename_i hs
    rw [Accepts, Accepts, Function.update_self, Option.not_isSome_iff_eq_none.1 hs]
    exact Iff.rfl

/-- Without a map on the way up, the root gets one. -/
theorem chain_createTokenVariableMap (h : ∀ s ∈ F.path t, c s = none) :
    chain F (createTokenVariableMap c (F.root t)) t = [F.root t] := by
  rw [chain, Lib.Forest.path_eq_dropLast_root, List.filter_append, List.filter_eq_nil_iff.2,
    List.filter_singleton, isSome_createTokenVariableMap]
  · rfl
  · intro s hs
    have hne : s ≠ F.root t := fun he => Lib.Forest.root_notMem_dropLast (he ▸ hs)
    rw [createTokenVariableMap]
    split
    · rw [h s (List.dropLast_subset _ hs)]
      exact Bool.false_ne_true
    · rw [Function.update_of_ne hne, h s (List.dropLast_subset _ hs)]
      exact Bool.false_ne_true

end

variable [DecidableEq K] [DecidableEq N]

/-! ## Updates -/

/-- `setVariableLocally(name, value)` of the map of a token that has one. -/
def setInMap (n : N) (v : Obj T) (t : K) : Except Exn Unit × ContextInstance K N L :=
  match c t with
  | some m => ((m.setVariableLocally n v).1,
      Function.update c t (some (m.setVariableLocally n v).2))
  | none => (.ok (), c)

/-- `setVariable(name, value)` of the map of a token, with the tokens of its parent
    containers. -/
def setOnChain (n : N) (v : Obj T) : K → List K → Except Exn Unit × ContextInstance K N L
  | t, [] => setInMap c n v t
  | t, p :: parents =>
    if hasVariableLocally c n t then setInMap c n v t else setOnChain n v p parents

def setVariable (n : N) (v : Obj T) (t : K) : Except Exn Unit × ContextInstance K N L :=
  let (s, c) := getOrCreateTokenVariableMap F c t
  setOnChain c n v s (chain F c t).tail

/-- `setVariableLocally(name, value, token)`, which `createVariable` calls as well. -/
def setVariableLocally (n : N) (v : Obj T) (t : K) : Except Exn Unit × ContextInstance K N L :=
  setInMap (createTokenVariableMap c t) n v t

def deleteVariable (n : N) (t : K) : ContextInstance K N L :=
  match getTokenVariableMap F c t with
  | some s => Function.update c s ((c s).map (VariableContainer.deleteVariableLocally n))
  | none => c

/-- The updates of a sequence. -/
inductive Op (K N : Type) (T : Types) where
  | set (n : N) (v : Obj T) (t : K)
  | setLocally (n : N) (v : Obj T) (t : K)
  | delete (n : N) (t : K)

def exec : Op K N T → ContextInstance K N L
  | .set n v t => (setVariable F c n v t).2
  | .setLocally n v t => (setVariableLocally c n v t).2
  | .delete n t => deleteVariable F c n t

/-! ## The scoping law -/

def Obeys : Op K N T → Prop
  | .set n v t => Writes F c (setVariable F c n v t) n v (scope F c n t) ∧
      holder F (setVariable F c n v t).2 n t = some (scope F c n t)
  | .setLocally n v t => Writes F c (setVariableLocally c n v t) n v t ∧
      holder F (setVariableLocally c n v t).2 n t = some t
  | .delete n t => ∀ s, getTokenVariableMap F c t = some s →
      Deletes F c (deleteVariable F c n t) n s

def Fits : Op K N T → Prop
  | .set n v t => Rooted F c n t ∧ Accepts c n v (scope F c n t)
  | .setLocally n v t => Accepts c n v t
  | .delete _ _ => True

/-! ## Writing to one map -/

section
variable {F c} {n : N} {v : Obj T} {s t : K}

theorem changes_setInMap : Changes c (setInMap c n v s).2 n s := by
  rw [setInMap]
  split
  · rename_i m hm
    refine ⟨fun u hu => Function.update_of_ne hu _ _, fun k hk => ?_⟩
    simp only [held, Function.update_self, hm]
    exact VariableContainer.setVariableLocally_of_ne hk
  · exact ⟨fun _ _ => rfl, fun _ _ => rfl⟩

theorem setInMap_ok_iff (hs : (c s).isSome = true) :
    (setInMap c n v s).1 = .ok () ↔ Accepts c n v s := by
  obtain ⟨m, hm⟩ := Option.isSome_iff_exists.1 hs
  simp only [setInMap, hm, Accepts, Option.getD_some]
  exact VariableContainer.setVariableLocally_ok_iff

theorem held_setInMap (hs : (c s).isSome = true) (h : (setInMap c n v s).1 = .ok ()) :
    ∃ i, held (setInMap c n v s).2 n s = some i ∧ i.getValue = v := by
  obtain ⟨m, hm⟩ := Option.isSome_iff_exists.1 hs
  simp only [setInMap, hm] at h ⊢
  obtain ⟨i, -, -, hn⟩ := VariableContainer.setVariableLocally_spec (n := n) (v := v) (c := m)
  refine ⟨(Variable.setValue v i).2, ?_, Variable.getValue_setValue⟩
  simp only [held, Function.update_self]
  exact hn h

/-- Writing to a map that is there, or has just been made. -/
theorem writes_setInMap {c₁ : ContextInstance K N L} (h : Changes c c₁ n s)
    (hs : (c₁ s).isSome = true) (ha : Accepts c₁ n v s) :
    Writes F c (setInMap c₁ n v s) n v s ∧ ∃ i, held (setInMap c₁ n v s).2 n s = some i := by
  have hok := (setInMap_ok_iff hs).2 ha
  obtain ⟨i, hi, hv⟩ := held_setInMap hs hok
  exact ⟨writes_of_changes hok (h.trans changes_setInMap) hi hv, i, hi⟩

theorem obeys_setLocally_iff :
    Obeys F c (.setLocally n v t) ↔ Fits F c (.setLocally n v t) := by
  show _ ↔ Accepts c n v t
  rw [← accepts_createTokenVariableMap]
  constructor
  · exact fun h => (setInMap_ok_iff isSome_createTokenVariableMap).1 h.1.returns
  · intro h
    obtain ⟨hw, i, hi⟩ := writes_setInMap (F := F) changes_createTokenVariableMap
      isSome_createTokenVariableMap h
    refine ⟨hw, ?_⟩
    rw [holder, Lib.Forest.path, List.find?_cons]
    simp only [setVariableLocally, hi, Option.isSome_some]

theorem obeys_delete : Obeys F c (.delete n t) := by
  intro s hs
  have hne : c s ≠ none := by
    have h := List.find?_some hs
    exact fun hn => by simp [hn] at h
  obtain ⟨m, hm⟩ := Option.ne_none_iff_exists'.1 hne
  rw [deleteVariable, hs]
  refine deletes_of_changes ⟨fun u hu => Function.update_of_ne hu _ _, fun k hk => ?_⟩ ?_
  · simp only [held, Function.update_self, hm]
    exact Function.update_of_ne hk _ _
  · simp only [held, Function.update_self, hm]
    exact Function.update_self _ _ _

/-! ## The map that `setVariable` finds -/

theorem setOnChain_eq (t : K) (l : List K) :
    setOnChain c n v t l = setInMap c n v (target c n t l) := by
  induction l generalizing t with
  | nil => rfl
  | cons p l ih =>
    rw [setOnChain, target]
    split
    · rfl
    · exact ih p

/-- `setVariable` writes to the map of the nearest holder, or to the last map on the way up,
    which is made if there is none. -/
theorem setVariable_eq : ∃ x ∈ F.path t, ∃ c₁ : ContextInstance K N L,
    setVariable F c n v t = setInMap c₁ n v x ∧ Changes c c₁ n x ∧ (c₁ x).isSome = true ∧
      (Accepts c₁ n v x ↔ Accepts c n v x) ∧ (x = scope F c n t ↔ Rooted F c n t) := by
  rcases hg : getTokenVariableMap F c t with _ | s
  · have hnone : ∀ s ∈ F.path t, c s = none := by simpa [getTokenVariableMap] using hg
    have hhold : holder F c n t = none := by
      refine List.find?_eq_none.2 fun s hs => ?_
      simp [held, hnone s hs]
    refine ⟨F.root t, List.getLast_mem _, createTokenVariableMap c (F.root t), ?_,
      changes_createTokenVariableMap, isSome_createTokenVariableMap,
      accepts_createTokenVariableMap, ?_⟩
    · simp only [setVariable, getOrCreateTokenVariableMap, hg, chain_createTokenVariableMap hnone]
      rfl
    · exact iff_of_true (by rw [scope, hhold]; rfl) (.inr (.inr hnone))
  · obtain ⟨ps, hchain⟩ : ∃ ps, chain F c t = s :: ps := by
      have h := getTokenVariableMap_eq_head? (F := F) (c := c) (t := t)
      rw [hg] at h
      exact List.head?_eq_some_iff.1 h.symm
    have hmem : ∀ x ∈ s :: ps, x ∈ F.path t ∧ (c x).isSome = true := by
      rw [← hchain]
      exact fun x hx => List.mem_filter.1 hx
    have hfind : (s :: ps).find? (fun s => (held c n s).isSome) = holder F c n t := by
      rw [← hchain]
      exact holder_eq
    have hset : setVariable F c n v t = setInMap c n v (target c n s ps) := by
      simp only [setVariable, getOrCreateTokenVariableMap, hg, hchain, List.tail_cons]
      exact setOnChain_eq s ps
    rw [target_eq, hfind] at hset
    rcases hhold : holder F c n t with _ | x
    · rw [hhold, Option.getD_none] at hset
      have hlast := hmem _ (List.getLast_mem (List.cons_ne_nil s ps))
      refine ⟨_, hlast.1, c, hset, ⟨fun _ _ => rfl, fun _ _ => rfl⟩, hlast.2, Iff.rfl, ?_⟩
      rw [scope, hhold, Option.getD_none]
      constructor
      · exact fun he => .inr (.inl (he ▸ hlast.2))
      · rintro (h | h | h)
        · exact absurd hhold h
        · have hl := getLast_chain h (by rw [hchain]; exact List.cons_ne_nil _ _)
          simp only [hchain] at hl
          exact hl
        · have hs := (hmem s List.mem_cons_self).2
          rw [h s (hmem s List.mem_cons_self).1] at hs
          exact absurd hs Bool.false_ne_true
    · rw [hhold, Option.getD_some] at hset
      have hx := mem_path_of_holder hhold
      refine ⟨x, hx.1, c, hset, ⟨fun _ _ => rfl, fun _ _ => rfl⟩, hx.2, Iff.rfl, ?_⟩
      exact iff_of_true (by rw [scope, hhold]; rfl) (.inl (by rw [hhold]; exact Option.some_ne_none x))

theorem obeys_set_iff : Obeys F c (.set n v t) ↔ Fits F c (.set n v t) := by
  obtain ⟨x, hx, c₁, hset, hc₁, hsome, haccepts, hrooted⟩ :=
    setVariable_eq (F := F) (c := c) (n := n) (v := v) (t := t)
  show _ ↔ Rooted F c n t ∧ Accepts c n v (scope F c n t)
  rw [← hrooted]
  constructor
  · rintro ⟨hw, -⟩
    have hok : (setInMap c₁ n v x).1 = .ok () := by
      rw [← hset]
      exact hw.returns
    have hxs : x = scope F c n t := by
      -- the map of another token may not change, but there the variable has been created
      by_contra hne
      obtain ⟨i, hi, -⟩ := held_setInMap hsome hok
      have hc : held c n x = some i := by
        rw [← hi, ← hset, held, held, hw.changes.maps x hne]
      have hh : holder F c n t = none := by
        by_contra hh
        exact hne (hrooted.2 (.inl hh))
      rw [held_eq_none_of_holder hh hx] at hc
      cases hc
    subst hxs
    exact ⟨rfl, haccepts.1 ((setInMap_ok_iff hsome).1 hok)⟩
  · rintro ⟨rfl, ha⟩
    obtain ⟨hw, i, hi⟩ := writes_setInMap (F := F) hc₁ hsome (haccepts.2 ha)
    rw [← hset] at hw hi
    exact ⟨hw, holder_of_changes hw.changes hi⟩

theorem obeys_iff (op : Op K N T) : Obeys F c op ↔ Fits F c op := by
  cases op with
  | set n v t => exact obeys_set_iff
  | setLocally n v t => exact obeys_setLocally_iff
  | delete n t => exact iff_of_true obeys_delete trivial

end

/-- **Scoping law.**  All updates of a sequence obey it exactly if all of them fit. -/
theorem scoping_iff (F : Lib.Forest K) (c : ContextInstance K N L) (ops : List (Op K N T)) :
    Lib.Allowed (fun c op => Obeys F c op) (fun c op => exec F c op) c ops ↔
      Lib.Allowed (fun c op => Fits F c op) (fun c op => exec F c op) c ops :=
  Lib.Allowed.congr (fun _ op => obeys_iff op) c ops

/-- The child of the root has a map, the root has none: the variable of the grandchild is
    created in the map of the child. -/
theorem not_scoping : ¬ Lib.Allowed
    (fun (c : ContextInstance ℕ String VariableContainer.simpleLibrary) op => Obeys line c op)
    (fun c op => exec line c op) (fun _ => none)
    [.setLocally "note" (.long 1) 1, .set "order" (.long 7) 2] := by
  rintro ⟨-, ⟨h, -⟩, -⟩
  have hmaps := h.changes.maps 1 (by decide)
  have heq := congrArg (fun m => (m.bind (· "order")).isSome) hmaps
  cases heq

end ContextInstance

end Context

end Jbpm
