/-
  Saving a process instance, and those that are connected with it.

  * `save`: the save operations, of which `CascadeSaveOperation` saves other instances with all of
    them again;
  * `cascadeSave_eq`: a cascade is a traversal;
  * `save_cascades`: all that can be reached are saved once.
-/
import Mathlib.Data.List.Count
import Jbpm.Lib.Traversal

namespace Jbpm

namespace SaveOperations

open Lib

/-- The operations of other classes are not told apart by what they do. -/
inductive SaveOperation (O : Type)
  | cascade
  | other (o : O)
  deriving DecidableEq

/-- The instances that are to be saved with others, and what has been saved. -/
structure Instances (O P : Type) where
  cascadeProcessInstances : P → Option (List P)
  saved : List (O × P)

section Save

variable {O P : Type} [DecidableEq P]

def Instances.removeCascadeProcessInstances (p : P) (s : Instances O P) : Instances O P :=
  { s with cascadeProcessInstances := Function.update s.cascadeProcessInstances p none }

def Instances.apply (o : O) (p : P) (s : Instances O P) : Instances O P :=
  { s with saved := s.saved ++ [(o, p)] }

/-- `cascadeSave` and `saveCascadeInstance`, with the set of the instances that were cascaded;
    `save` is that of the context. -/
def cascadeSave (save : P → Instances O P → Option (Instances O P)) :
    ℕ → List P → Instances O P → List P → Option (Instances O P × List P)
  | 0, _, _, _ => none
  | _ + 1, [], s, cascaded => some (s, cascaded)
  | n + 1, p :: ps, s, cascaded =>
    if p ∈ cascaded then cascadeSave save n ps s cascaded
    else
      let cascadeProcessInstances := (s.cascadeProcessInstances p).getD []
      (save p (s.removeCascadeProcessInstances p)).bind fun s =>
        (cascadeSave save n cascadeProcessInstances s (p :: cascaded)).bind fun (s, cascaded) =>
          cascadeSave save n ps s cascaded

def SaveOperation.save (save : P → Instances O P → Option (Instances O P)) (n : ℕ) (p : P)
    (s : Instances O P) : SaveOperation O → Option (Instances O P)
  | .cascade =>
    (cascadeSave save n ((s.cascadeProcessInstances p).getD [])
      (s.removeCascadeProcessInstances p) [p]).map Prod.fst
  | .other o => some (s.apply o p)

/-- `Services.save` -/
def save (saveOperations : List (SaveOperation O)) : ℕ → P → Instances O P → Option (Instances O P)
  | 0, _, _ => none
  | n + 1, p, s =>
    saveOperations.foldlM (fun s operation => operation.save (save saveOperations n) n p s) s

end Save

/-! ## The operations on one instance -/

section One

variable {O P : Type} [DecidableEq P] {ops : List (SaveOperation O)} {p q : P}
  {s : Instances O P} {n : ℕ}

def SaveOperation.other? : SaveOperation O → Option O
  | .cascade => none
  | .other o => some o

/-- What the operations save of an instance by themselves. -/
def ownSaves (ops : List (SaveOperation O)) (p : P) : List (O × P) :=
  (ops.filterMap SaveOperation.other?).map fun o => (o, p)

def Instances.applyAll (ops : List (SaveOperation O)) (p : P) (s : Instances O P) :
    Instances O P :=
  { s with saved := s.saved ++ ownSaves ops p }

/-- Without anything to cascade to, the other operations are applied. -/
theorem foldlM_save_eq {save : P → Instances O P → Option (Instances O P)}
    (h : .cascade ∈ ops → s.cascadeProcessInstances p = none ∧ 0 < n) :
    ops.foldlM (fun s operation => operation.save save n p s) s = some (s.applyAll ops p) := by
  induction ops generalizing s with
  | nil =>
    show some s = _
    rw [Instances.applyAll, ownSaves, List.filterMap_nil, List.map_nil, List.append_nil]
  | cons op ops ih =>
    rw [List.foldlM_cons]
    cases op with
    | cascade =>
      obtain ⟨hnone, hn⟩ := h List.mem_cons_self
      have hremove : s.removeCascadeProcessInstances p = s := by
        rw [Instances.removeCascadeProcessInstances, ← hnone, Function.update_eq_self]
      obtain ⟨n, rfl⟩ : ∃ k, n = k + 1 := ⟨n - 1, by omega⟩
      rw [SaveOperation.save, hnone, hremove]
      exact ih fun _ => ⟨hnone, hn⟩
    | other o =>
      refine (ih (s := s.apply o p) fun hmem => h (List.mem_cons_of_mem _ hmem)).trans ?_
      rw [Instances.applyAll, Instances.applyAll, Instances.apply, List.append_assoc]
      rfl

theorem save_of_none (h : s.cascadeProcessInstances p = none) (hn : 2 ≤ n) :
    save ops n p s = some (s.applyAll ops p) := by
  obtain ⟨n, rfl⟩ : ∃ k, n = k + 1 := ⟨n - 1, by omega⟩
  exact foldlM_save_eq fun _ => ⟨h, by omega⟩

end One

/-! ## Cascades -/

section Cascade

variable {O P : Type} [DecidableEq P] {ops : List (SaveOperation O)} {p q : P}
  {s : Instances O P} {n : ℕ}

def Instances.next (s : Instances O P) (p : P) : List P := (s.cascadeProcessInstances p).getD []

/-- After some instances were cascaded, the last of which is the first. -/
def Instances.cascaded (ops : List (SaveOperation O)) (found : List P) (s : Instances O P) :
    Instances O P where
  cascadeProcessInstances q := if q ∈ found then none else s.cascadeProcessInstances q
  saved := s.saved ++ found.reverse.flatMap (ownSaves ops)

theorem cascaded_nil : s.cascaded ops [] = s := by
  rw [Instances.cascaded, List.reverse_nil, List.flatMap_nil, List.append_nil]
  simp only [List.not_mem_nil, if_false]

theorem cascaded_cascaded (found found' : List P) :
    (s.cascaded ops found).cascaded ops found' = s.cascaded ops (found' ++ found) := by
  rw [Instances.cascaded, Instances.cascaded, Instances.cascaded, List.reverse_append,
    List.flatMap_append, List.append_assoc]
  congr 1
  funext q
  by_cases hq : q ∈ found' <;> by_cases hq' : q ∈ found <;>
    simp only [List.mem_append, hq, hq', if_true, if_false, or_self, or_true, true_or]

theorem applyAll_remove (p : P) :
    (s.removeCascadeProcessInstances p).applyAll ops p = s.cascaded ops [p] := by
  rw [Instances.applyAll, Instances.removeCascadeProcessInstances, Instances.cascaded,
    List.reverse_singleton, List.flatMap_singleton]
  congr 1
  funext q
  dsimp only
  by_cases hq : q = p
  · subst hq
    rw [Function.update_self, if_pos (List.mem_singleton.mpr rfl)]
  · rw [Function.update_of_ne hq, if_neg (mt List.mem_singleton.mp hq)]

/-- A cascade is a traversal of the graph, as it was before anything was removed. -/
theorem cascadeSave_eq {save : P → Instances O P → Option (Instances O P)}
    (hsave : ∀ q s, s.cascadeProcessInstances q = none → save q s = some (s.applyAll ops q))
    {next : P → List P} {ps marked marked' : List P} (hnext : ∀ q, q ∉ marked → s.next q = next q)
    (h : Lib.traverse next n ps marked = some marked') :
    ∃ found, marked' = found ++ marked ∧
      cascadeSave save n ps s marked = some (s.cascaded ops found, marked') := by
  induction n generalizing ps marked marked' s with
  | zero => cases h
  | succ n ih =>
    cases ps with
    | nil =>
      obtain rfl := Option.some.inj h
      exact ⟨[], rfl, by rw [cascadeSave, cascaded_nil]⟩
    | cons p ps =>
      rw [Lib.traverse] at h
      rw [cascadeSave]
      by_cases hp : p ∈ marked
      · rw [if_pos hp] at h ⊢
        exact ih hnext h
      · rw [if_neg hp] at h ⊢
        obtain ⟨marked₁, h₁, h₂⟩ := Option.bind_eq_some_iff.mp h
        have hsaved : save p (s.removeCascadeProcessInstances p) = some (s.cascaded ops [p]) := by
          rw [hsave p _ (Function.update_self ..), applyAll_remove]
        -- what is not marked is as it was
        have hkept : ∀ found : List P, ∀ q, q ∉ found → (s.cascaded ops found).next q = s.next q :=
          fun found q hq => by
            rw [Instances.next, Instances.cascaded]
            dsimp only
            rw [if_neg hq]
            rfl
        have hnext₁ : ∀ q, q ∉ p :: marked → (s.cascaded ops [p]).next q = next q := by
          intro q hq
          rw [List.mem_cons, not_or] at hq
          rw [hkept [p] q (mt List.mem_singleton.mp hq.1), hnext q hq.2]
        obtain ⟨found, rfl, hfound⟩ := ih hnext₁ h₁
        have hnext₂ : ∀ q, q ∉ found ++ p :: marked →
            (s.cascaded ops (found ++ [p])).next q = next q := by
          intro q hq
          rw [List.mem_append, List.mem_cons, not_or, not_or] at hq
          rw [hkept (found ++ [p]) q, hnext q hq.2.2]
          rw [List.mem_append, List.mem_singleton, not_or]
          exact ⟨hq.1, hq.2.1⟩
        obtain ⟨found', rfl, hfound'⟩ := ih hnext₂ h₂
        refine ⟨found' ++ (found ++ [p]), by simp only [List.append_assoc, List.singleton_append],
          ?_⟩
        have hp' : (s.cascadeProcessInstances p).getD [] = next p := hnext p hp
        rw [cascaded_cascaded] at hfound hfound'
        dsimp only
        rw [hsaved, Option.bind_some, hp', hfound, Option.bind_some, hfound']

end Cascade

/-! ## What is saved -/

section Complete

variable {O P : Type} [DecidableEq O] [DecidableEq P] {ops : List (SaveOperation O)} {p q : P}
  {s : Instances O P}

/-- All instances that can be reached are saved, and have nothing left to be saved with them; the
    others are not touched. -/
structure Complete (ops : List (SaveOperation O)) (p : P) (s s' : Instances O P) : Prop where
  saved : ∃ new, s'.saved = s.saved ++ new ∧
    (∀ q, Reaches s.next p q → ∀ o, new.count (o, q) = ops.count (.other o)) ∧
      ∀ q, ¬ Reaches s.next p q → ∀ o, (o, q) ∉ new
  cleared : ∀ q, Reaches s.next p q → s'.cascadeProcessInstances q = none
  untouched : ∀ q, ¬ Reaches s.next p q →
    s'.cascadeProcessInstances q = s.cascadeProcessInstances q

theorem count_filterMap_other? (o : O) :
    (ops.filterMap SaveOperation.other?).count o = ops.count (.other o) := by
  induction ops with
  | nil => rfl
  | cons op ops ih =>
    cases op with
    | cascade =>
      have hne : SaveOperation.cascade ≠ .other o := nofun
      rw [List.count_cons_of_ne hne, ← ih]
      rfl
    | other o' =>
      have hcons : (SaveOperation.other o' :: ops).filterMap SaveOperation.other? =
          o' :: ops.filterMap SaveOperation.other? := rfl
      rw [hcons, List.count_cons, List.count_cons, ih]
      simp only [beq_iff_eq, SaveOperation.other.injEq]

theorem count_ownSaves (o : O) : (ownSaves ops q).count (o, p) =
    if p = q then ops.count (.other o) else 0 := by
  rw [ownSaves]
  split
  · next h =>
    subst h
    rw [← count_filterMap_other?]
    exact List.count_map_of_injective _ _ (Prod.mk_left_injective p) o
  · next h =>
    refine List.count_eq_zero.mpr fun hmem => h ?_
    obtain ⟨o', -, heq⟩ := List.mem_map.mp hmem
    exact (Prod.mk.inj heq).2.symm

theorem count_flatMap_ownSaves {found : List P} (h : found.Nodup) (o : O) :
    (found.flatMap (ownSaves ops)).count (o, p) =
      if p ∈ found then ops.count (.other o) else 0 := by
  induction found with
  | nil => rfl
  | cons q found ih =>
    obtain ⟨hq, hfound⟩ := List.nodup_cons.mp h
    rw [List.flatMap_cons, List.count_append, count_ownSaves, ih hfound]
    by_cases hp : p = q
    · subst hp
      rw [if_pos rfl, if_neg hq, if_pos List.mem_cons_self, add_zero]
    · simp only [List.mem_cons, hp, if_false, false_or, zero_add]

/-- Saving an instance ends, and all that can be reached from it are saved once, if there is a
    cascade among the operations. -/
theorem save_cascades [Fintype P] (h : .cascade ∈ ops) (s : Instances O P) (p : P) :
    ∃ s', Computes (fun n => save ops n p s) s' ∧ Complete ops p s s' := by
  obtain ⟨pre, post, rfl, hpre⟩ := List.eq_append_cons_of_mem h
  obtain ⟨marked', n₀, hn₀⟩ : ∃ marked', Computes (fun n => Lib.traverse s.next n (s.next p) [p])
      marked' := exists_traverse (s.next p) [p]
  obtain ⟨found, rfl, hfound⟩ := traverse_spec (hn₀ n₀ le_rfl)
  have hmem : ∀ q, Reaches s.next p q ↔ q ∈ found ∨ q = p := fun q => by
    rw [← hfound.mem_iff, List.mem_append, List.mem_singleton]
  have hfresh : p ∉ found := fun hp => hfound.fresh p hp (List.mem_singleton.mpr rfl)
  let s₁ := (s.applyAll pre p).removeCascadeProcessInstances p
  let s₂ := s₁.cascaded (pre ++ .cascade :: post) found
  have hnone : s₂.cascadeProcessInstances p = none := by
    show (if p ∈ found then none else s₁.cascadeProcessInstances p) = none
    rw [if_neg hfresh]
    exact Function.update_self ..
  have hcomputes : Computes (fun n => (pre ++ .cascade :: post).foldlM (fun s operation =>
      operation.save (save (pre ++ .cascade :: post) n) n p s) s) (s₂.applyAll post p) := by
    refine ⟨max n₀ 2, fun n hn => ?_⟩
    have hsave : ∀ q (s : Instances O P), s.cascadeProcessInstances q = none →
        save (pre ++ .cascade :: post) n q s = some (s.applyAll (pre ++ .cascade :: post) q) :=
      fun q s hs => save_of_none hs ((le_max_right n₀ 2).trans hn)
    have hnext : ∀ q, q ∉ [p] → s₁.next q = s.next q := fun q hq => by
      have hq' : q ≠ p := mt List.mem_singleton.mpr hq
      show (Function.update s.cascadeProcessInstances p none q).getD [] = _
      rw [Function.update_of_ne hq']
      rfl
    obtain ⟨found', heq, hcascade⟩ :=
      cascadeSave_eq hsave hnext (hn₀ n ((le_max_left n₀ 2).trans hn))
    obtain rfl := List.append_cancel_right heq
    have hstep : SaveOperation.save (save (pre ++ .cascade :: post) n) n p (s.applyAll pre p)
        .cascade = some s₂ := by
      show (cascadeSave _ n (s.next p) s₁ [p]).map Prod.fst = some s₂
      rw [hcascade]
      rfl
    dsimp only
    rw [List.foldlM_append, foldlM_save_eq fun hmem => absurd hmem hpre, Option.bind_eq_bind,
      Option.bind_some, List.foldlM_cons, hstep]
    exact foldlM_save_eq fun _ => ⟨hnone, by omega⟩
  have hother : ∀ o, (pre ++ .cascade :: post).count (.other o) =
      pre.count (.other o) + post.count (.other o) := fun o => by
    have hne : SaveOperation.cascade ≠ .other o := nofun
    rw [List.count_append, List.count_cons_of_ne hne]
  have hcount : ∀ q o, (ownSaves pre p ++
      found.reverse.flatMap (ownSaves (pre ++ .cascade :: post)) ++ ownSaves post p).count (o, q) =
        if q ∈ found ∨ q = p then (pre ++ .cascade :: post).count (.other o) else 0 := by
    intro q o
    rw [List.count_append, List.count_append, count_ownSaves, count_ownSaves,
      count_flatMap_ownSaves (List.nodup_reverse.mpr hfound.nodup)]
    simp only [List.mem_reverse]
    by_cases hq : q = p
    · subst hq
      rw [if_pos rfl, if_pos rfl, if_neg hfresh, if_pos (.inr rfl), hother, add_zero]
    · simp only [hq, if_false, or_false, zero_add, add_zero]
  refine ⟨s₂.applyAll post p, hcomputes.succ fun n => rfl, ?_⟩
  constructor
  · refine ⟨ownSaves pre p ++ found.reverse.flatMap (ownSaves (pre ++ .cascade :: post)) ++
      ownSaves post p, ?_, fun q hq o => ?_, fun q hq o => ?_⟩
    · show ((s.saved ++ ownSaves pre p) ++ _) ++ ownSaves post p = _
      simp only [List.append_assoc]
    · rw [hcount, if_pos ((hmem q).mp hq)]
    · rw [← List.count_eq_zero, hcount, if_neg (mt (hmem q).mpr hq)]
  · intro q hq
    rcases (hmem q).mp hq with hq | rfl
    · exact if_pos hq
    · exact hnone
  · intro q hq
    rw [hmem, not_or] at hq
    show (if q ∈ found then none else s₁.cascadeProcessInstances q) = _
    rw [if_neg hq.1]
    exact Function.update_of_ne hq.2 ..

/-- Two instances that are to be saved with each other, and with themselves. -/
def twoInstances : Instances ℕ Bool where
  cascadeProcessInstances b := some [!b, b]
  saved := []

theorem save_cascades_two : ∃ s', Computes (fun n => save [.cascade, .other 0] n true twoInstances)
    s' ∧ Complete [.cascade, .other 0] true twoInstances s' :=
  save_cascades List.mem_cons_self twoInstances true

end Complete

end SaveOperations

end Jbpm
