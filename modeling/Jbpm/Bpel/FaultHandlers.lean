/-
  The fault handler that a scope selects for a fault.

  * `Definitions.selectFaultHandler`: the scan over the catches of a scope;
  * `Definitions.documented`: the first catch of the highest class that matches;
  * `selects_iff`: when the one is the other.
-/
import Mathlib.Data.List.Basic
import Mathlib.Data.Nat.Notation
import Mathlib.Tactic.IntervalCases

namespace Jbpm

namespace Bpel

namespace Faults

inductive Exn where
  /-- `NullPointerException` -/
  | nullPointer
  deriving DecidableEq

/-- The kinds of variable types.  A message has parts, some of which are defined by an
    element. -/
inductive Kind (Q : Type) where
  | message (parts : List (Option Q))
  | element
  | schema

/-- The types `T` and the catches `C` of a process definition, with names `Q`. -/
structure Definitions (Q T C : Type) where
  name : T → Q
  kind : T → Kind Q
  faultName : C → Option Q
  faultVariable : C → Option T

/-- `WsdlUtil.getDocLitElementName` -/
def getDocLitElementName {Q : Type} : List (Option Q) → Option Q
  | [elementName] => elementName
  | _ => none

namespace Definitions

variable {Q T C H : Type} [DecidableEq Q] [DecidableEq T] (D : Definitions Q T C)

/-- The fault data is a message with one part, defined by the element of the handler. -/
def matchesElement (handlerType dataType : T) : Bool :=
  match D.kind dataType, D.kind handlerType with
  | .message parts, .element => decide (getDocLitElementName parts = some (D.name handlerType))
  | _, _ => false

/-- `selectCatch(Iterator, VariableType)`, with the catch selected so far. -/
def selectCatch (dataType : T) : Option C → List C → Option C
  | selectedCatch, [] => selectedCatch
  | selectedCatch, currentCatch :: rest =>
    match D.faultVariable currentCatch with
    | some handlerType =>
      if handlerType = dataType then some currentCatch
      else if D.matchesElement handlerType dataType then
        selectCatch dataType (some currentCatch) rest
      else selectCatch dataType selectedCatch rest
    | none =>
      if selectedCatch.isNone then selectCatch dataType (some currentCatch) rest
      else selectCatch dataType selectedCatch rest

/-- The catches with the name, which must not be null. -/
def named (name : Option Q) (faultHandlers : List C) : Except Exn (List C) :=
  match name with
  | some name => .ok (faultHandlers.filter fun c => decide (D.faultName c = some name))
  | none => if faultHandlers = [] then .ok [] else .error .nullPointer

/-- The catches without a name. -/
def unnamed (faultHandlers : List C) : List C :=
  faultHandlers.filter fun c => decide (D.faultName c = none)

/-- `selectFaultHandler`; the catches are on the left, the `catchAll` is on the right. -/
def selectFaultHandler (faultHandlers : List C) (catchAll : Option H) (name : Option Q)
    (dataType : Option T) : Except Exn (Option (C ⊕ H)) := do
  let selectedCatch ← match dataType with
    | none => do
      let namedCatches ← D.named name faultHandlers
      pure (namedCatches.find? fun c => (D.faultVariable c).isNone)
    | some dataType =>
      match name with
      | some name => do
        let namedCatches ← D.named (some name) faultHandlers
        pure ((D.selectCatch dataType none namedCatches).or
          (D.selectCatch dataType none (D.unnamed faultHandlers)))
      | none => pure (D.selectCatch dataType none (D.unnamed faultHandlers))
  pure ((selectedCatch.map .inl).or (catchAll.map .inr))

/-! ## The documented priority -/

/-- How well the variable of a catch suits the data: the type itself, the element of the only
    part, no variable. -/
def grade (dataType : Option T) (c : C) : Option ℕ :=
  match D.faultVariable c, dataType with
  | none, _ => some 2
  | some handlerType, some dataType =>
    if handlerType = dataType then some 0
    else if D.matchesElement handlerType dataType then some 1 else none
  | some _, none => none

/-- The class of a catch, the highest first: those with the name of the fault, then, if there
    are data, those without a name. -/
def rank (name : Option Q) (dataType : Option T) (c : C) : Option ℕ :=
  match D.faultName c with
  | some faultName => if name = some faultName then D.grade dataType c else none
  | none => if dataType.isSome then (D.grade dataType c).map (3 + ·) else none

/-- The catches of a class, first to last. -/
def ranked (faultHandlers : List C) (name : Option Q) (dataType : Option T) (k : ℕ) : List C :=
  faultHandlers.filter fun c => decide (D.rank name dataType c = some k)

/-- The first catch of the highest class that has one, else the `catchAll`. -/
def documented (faultHandlers : List C) (catchAll : Option H) (name : Option Q)
    (dataType : Option T) : Option (C ⊕ H) :=
  (((List.range 6).findSome? fun k => (D.ranked faultHandlers name dataType k).head?).map .inl).or
    (catchAll.map .inr)

/-- The catches of one class are in the same order. -/
def SameOrder (faultHandlers faultHandlers' : List C) (name : Option Q) (dataType : Option T) :
    Prop :=
  faultHandlers'.Perm faultHandlers ∧ ∀ k,
    D.ranked faultHandlers' name dataType k = D.ranked faultHandlers name dataType k

/-- The fault has a name or data, or there are no catches; and where the element of the part
    decides, one catch has it. -/
def Decided (faultHandlers : List C) (name : Option Q) (dataType : Option T) : Prop :=
  (name ≠ none ∨ dataType ≠ none ∨ faultHandlers = []) ∧ ∀ k ∈ [1, 4],
    (∀ j < k, D.ranked faultHandlers name dataType j = []) →
      (D.ranked faultHandlers name dataType k).getLast? =
        (D.ranked faultHandlers name dataType k).head?

/-! ## The scan -/

variable {D} {faultHandlers faultHandlers' : List C} {catchAll : Option H} {name : Option Q}
  {dataType : Option T}

/-- The scan takes the first catch with the type, else the last one with the element, else what
    was selected before, else the first one without a variable. -/
theorem selectCatch_eq (dataType : T) (selectedCatch : Option C) (cs : List C) :
    D.selectCatch dataType selectedCatch cs =
      (cs.filter fun c => decide (D.grade (some dataType) c = some 0)).head?.or
        ((cs.filter fun c => decide (D.grade (some dataType) c = some 1)).getLast?.or
          (selectedCatch.or
            (cs.filter fun c => decide (D.grade (some dataType) c = some 2)).head?)) := by
  induction cs generalizing selectedCatch with
  | nil => simp [selectCatch]
  | cons c cs ih =>
    rw [selectCatch]
    cases hvariable : D.faultVariable c with
    | none =>
      have hgrade : D.grade (some dataType) c = some 2 := by simp [grade, hvariable]
      cases selectedCatch with
      | none => simp [ih, hgrade]
      | some selected => simp [ih, hgrade]
    | some handlerType =>
      dsimp only
      by_cases htype : handlerType = dataType
      · have hgrade : D.grade (some dataType) c = some 0 := by simp [grade, hvariable, htype]
        rw [if_pos htype]
        simp [hgrade]
      by_cases helement : D.matchesElement handlerType dataType = true
      · have hgrade : D.grade (some dataType) c = some 1 := by
          simp [grade, hvariable, htype, helement]
        rw [if_neg htype, if_pos helement, ih]
        simp only [List.filter_cons, hgrade]
        rcases hlast : (cs.filter fun c => decide (D.grade (some dataType) c = some 1)) with
          _ | ⟨a, l⟩
        · simp
        · simp [List.getLast?_cons]
      · have hgrade : D.grade (some dataType) c = none := by
          simp [grade, hvariable, htype, helement]
        rw [if_neg htype, if_neg helement, ih]
        simp [hgrade]

/-- What the scans take of the classes. -/
def taken (r : ℕ → List C) : Option C :=
  (r 0).head?.or ((r 1).getLast?.or ((r 2).head?.or
    ((r 3).head?.or ((r 4).getLast?.or (r 5).head?))))

theorem findSome?_range_six (f : ℕ → Option C) : (List.range 6).findSome? f =
    (f 0).or ((f 1).or ((f 2).or ((f 3).or ((f 4).or (f 5))))) := by
  have hcons : ∀ k ks, List.findSome? f (k :: ks) = (f k).or (List.findSome? f ks) := by
    intro k ks
    rw [List.findSome?_cons]
    cases f k <;> rfl
  have hrange : List.range 6 = [0, 1, 2, 3, 4, 5] := rfl
  rw [hrange, hcons, hcons, hcons, hcons, hcons, hcons, List.findSome?_nil, Option.or_none]

theorem taken_eq_iff (r : ℕ → List C) :
    taken r = (List.range 6).findSome? (fun k => (r k).head?) ↔
      ∀ k ∈ [1, 4], (∀ j < k, r j = []) → (r k).getLast? = (r k).head? := by
  rw [findSome?_range_six, taken]
  constructor
  · intro h k hk hnone
    rcases List.mem_cons.1 hk with rfl | hk
    · rcases h₁ : r 1 with _ | ⟨c, cs⟩
      · rfl
      · simpa [hnone 0 (by omega), h₁] using h
    · rw [List.mem_singleton] at hk
      subst hk
      rcases h₄ : r 4 with _ | ⟨c, cs⟩
      · rfl
      · simpa [hnone 0 (by omega), hnone 1 (by omega), hnone 2 (by omega), hnone 3 (by omega), h₄]
          using h
  · intro h
    rcases h₀ : r 0 with _ | ⟨c, cs⟩
    · have hone := h 1 (by simp) fun j hj => by rwa [Nat.lt_one_iff.1 hj]
      rw [hone]
      rcases h₁ : r 1 with _ | ⟨c, cs⟩
      · rcases h₂ : r 2 with _ | ⟨c, cs⟩
        · rcases h₃ : r 3 with _ | ⟨c, cs⟩
          · have hfour := h 4 (by simp) fun j hj => by interval_cases j <;> assumption
            rw [hfour]
          · rfl
        · rfl
      · rfl
    · rfl

theorem filter_named {n : Q} {k : ℕ} (hk : k < 3) :
    (faultHandlers.filter fun c => decide (D.faultName c = some n)).filter
      (fun c => decide (D.grade dataType c = some k)) =
        D.ranked faultHandlers (some n) dataType k := by
  rw [List.filter_filter, ranked]
  refine List.filter_congr fun c _ => ?_
  rw [rank]
  cases D.faultName c with
  | none =>
    have hnot : (D.grade dataType c).map (3 + ·) ≠ some k := by
      intro h
      obtain ⟨j, -, hj⟩ := Option.map_eq_some_iff.1 h
      omega
    by_cases hdata : dataType.isSome
    · simp [hdata, hnot]
    · simp [hdata]
  | some faultName =>
    by_cases hname : faultName = n
    · simp [hname]
    · simp [hname, Ne.symm hname]

theorem filter_unnamed {k : ℕ} (hdata : dataType.isSome) (hk : k < 3) :
    (D.unnamed faultHandlers).filter (fun c => decide (D.grade dataType c = some k)) =
      D.ranked faultHandlers name dataType (3 + k) := by
  have hgrade : ∀ c j, D.grade dataType c = some j → j < 3 := by
    intro c j h
    unfold grade at h
    split at h
    · cases h
      omega
    · split at h
      · cases h
        omega
      · split at h
        · cases h
          omega
        · cases h
    · cases h
  rw [unnamed, List.filter_filter, ranked]
  refine List.filter_congr fun c _ => ?_
  rw [rank]
  cases D.faultName c with
  | none => simp [hdata]
  | some faultName =>
    have hnot : D.grade dataType c ≠ some (3 + k) := fun h => by
      have hlt := hgrade c _ h
      omega
    by_cases hname : name = some faultName
    · simp [hname, hnot]
    · simp [hname]

theorem ranked_nameless {k : ℕ} (hk : k < 3) : D.ranked faultHandlers none dataType k = [] := by
  rw [ranked, List.filter_eq_nil_iff]
  intro c _
  rw [rank, decide_eq_true_iff]
  cases D.faultName c with
  | some faultName => simp
  | none =>
    intro h
    dsimp only at h
    split at h
    · obtain ⟨j, -, hj⟩ := Option.map_eq_some_iff.1 h
      omega
    · cases h

theorem ranked_dataless {k : ℕ} (hk : k ≠ 2) : D.ranked faultHandlers name none k = [] := by
  rw [ranked, List.filter_eq_nil_iff]
  intro c _
  rw [rank, decide_eq_true_iff]
  cases D.faultName c with
  | none => simp
  | some faultName =>
    intro h
    dsimp only at h
    split at h
    · unfold grade at h
      cases hvariable : D.faultVariable c with
      | none =>
        rw [hvariable] at h
        exact hk (Option.some.inj h).symm
      | some handlerType =>
        rw [hvariable] at h
        cases h
    · cases h

/-- Without a name and data, the catches are asked for the name that is not there. -/
theorem selectFaultHandler_eq :
    D.selectFaultHandler faultHandlers catchAll name dataType =
      if name ≠ none ∨ dataType ≠ none ∨ faultHandlers = [] then
        .ok (((taken (D.ranked faultHandlers name dataType)).map .inl).or (catchAll.map .inr))
      else .error .nullPointer := by
  cases dataType with
  | none =>
    have htaken : taken (D.ranked faultHandlers name none) =
        (D.ranked faultHandlers name none 2).head? := by
      simp only [taken, ranked_dataless (show 0 ≠ 2 by omega),
        ranked_dataless (show 1 ≠ 2 by omega),
        ranked_dataless (show 3 ≠ 2 by omega), ranked_dataless (show 4 ≠ 2 by omega),
        ranked_dataless (show 5 ≠ 2 by omega), List.head?_nil, List.getLast?_nil, Option.none_or,
        Option.or_none]
    rw [htaken]
    cases name with
    | none =>
      by_cases hnil : faultHandlers = []
      · simp [selectFaultHandler, named, hnil, ranked, bind, Except.bind, pure, Except.pure]
      · simp [selectFaultHandler, named, hnil, bind, Except.bind]
    | some n =>
      have hgrade : ∀ c, (D.faultVariable c).isNone = decide (D.grade none c = some 2) := by
        intro c
        unfold grade
        cases D.faultVariable c <;> simp
      have hfind : (faultHandlers.filter fun c => decide (D.faultName c = some n)).find?
          (fun c => (D.faultVariable c).isNone) =
            (D.ranked faultHandlers (some n) none 2).head? := by
        rw [← filter_named (by omega), List.head?_filter]
        exact congrArg (fun p => List.find? p _) (funext hgrade)
      simp [selectFaultHandler, named, bind, Except.bind, pure, Except.pure, hfind]
  | some d =>
    have hunnamed : D.selectCatch d none (D.unnamed faultHandlers) =
        (D.ranked faultHandlers name (some d) 3).head?.or
          ((D.ranked faultHandlers name (some d) 4).getLast?.or
            (D.ranked faultHandlers name (some d) 5).head?) := by
      rw [selectCatch_eq, filter_unnamed rfl (by omega), filter_unnamed rfl (by omega),
        filter_unnamed rfl (by omega), Option.none_or]
    cases name with
    | none =>
      have htaken : taken (D.ranked faultHandlers none (some d)) =
          D.selectCatch d none (D.unnamed faultHandlers) := by
        rw [hunnamed, taken, ranked_nameless (by omega), ranked_nameless (by omega),
          ranked_nameless (by omega)]
        simp
      rw [htaken, if_pos (by simp)]
      rfl
    | some n =>
      have htaken : taken (D.ranked faultHandlers (some n) (some d)) =
          (D.selectCatch d none
            (faultHandlers.filter fun c => decide (D.faultName c = some n))).or
              (D.selectCatch d none (D.unnamed faultHandlers)) := by
        rw [hunnamed, selectCatch_eq, filter_named (by omega), filter_named (by omega),
          filter_named (by omega), Option.none_or, taken, Option.or_assoc, Option.or_assoc]
      rw [htaken, if_pos (by simp)]
      rfl

theorem documented_eq : D.documented faultHandlers catchAll name dataType =
    (((List.range 6).findSome? fun k => (D.ranked faultHandlers name dataType k).head?).map
      .inl).or (catchAll.map .inr) := rfl

/-- A catch is not the `catchAll`. -/
theorem or_inl_inj {a b : Option C} {o : Option H} :
    (a.map Sum.inl).or (o.map .inr) = (b.map Sum.inl).or (o.map .inr) ↔ a = b := by
  cases a <;> cases b <;> cases o <;> simp

/-- **The fault handler of the highest class.**  The documented handler is selected, and it does
    not matter how catches of different classes are ordered, just if the fault has a name or
    data and no two catches tie for the element of its part. -/
theorem selects_iff (D : Definitions Q T C) (faultHandlers : List C) (catchAll : Option H)
    (name : Option Q) (dataType : Option T) :
    (D.selectFaultHandler faultHandlers catchAll name dataType =
        .ok (D.documented faultHandlers catchAll name dataType) ∧
      ∀ faultHandlers', D.SameOrder faultHandlers faultHandlers' name dataType →
        D.selectFaultHandler faultHandlers' catchAll name dataType =
          D.selectFaultHandler faultHandlers catchAll name dataType) ↔
    D.Decided faultHandlers name dataType := by
  have hreorder : ∀ faultHandlers', D.SameOrder faultHandlers faultHandlers' name dataType →
      D.selectFaultHandler faultHandlers' catchAll name dataType =
        D.selectFaultHandler faultHandlers catchAll name dataType := by
    rintro faultHandlers' ⟨hperm, hranked⟩
    have hnil : faultHandlers' = [] ↔ faultHandlers = [] := by
      rw [← List.length_eq_zero_iff, hperm.length_eq, List.length_eq_zero_iff]
    rw [selectFaultHandler_eq, selectFaultHandler_eq, funext hranked]
    exact if_congr (by rw [hnil]) rfl rfl
  rw [and_iff_left hreorder, selectFaultHandler_eq, Decided, ← taken_eq_iff]
  split
  case isTrue hfault =>
    rw [and_iff_right hfault, Except.ok.injEq, documented_eq, or_inl_inj]
  case isFalse hfault => exact iff_of_false nofun fun h => hfault h.1

/-- A message with one part, its element, and two catches for the element. -/
def twoCatches : Definitions ℕ Bool Bool where
  name dataType := if dataType then 0 else 1
  kind dataType := if dataType then .message [some 1] else .element
  faultName _ := some 2
  faultVariable _ := some false

/-- The second of the two is selected. -/
theorem last_catch_selected : ¬ ∀ (D : Definitions ℕ Bool Bool) (faultHandlers : List Bool)
    (catchAll : Option Unit) (name : Option ℕ) (dataType : Option Bool),
    D.selectFaultHandler faultHandlers catchAll name dataType =
      .ok (D.documented faultHandlers catchAll name dataType) := by
  intro h
  have hselect : (.ok (some (.inl true)) : Except Exn (Option (Bool ⊕ Unit))) =
      .ok (some (.inl false)) := h twoCatches [false, true] none (some 2) (some true)
  cases hselect

end Definitions

end Faults

end Bpel

end Jbpm
