/-
  The starter of process instances leaves the instance as entering the global
  scope would, but for the activity that receives the message.

  * `Effect.forget`: effects about other tokens do not mind that a token is
    forgotten;
  * `Outcome`: what a visit leaves;
  * `visit_eq`: the visit of an initial activity;
  * `starter_eq_start`: the theorem.
-/
import Jbpm.Bpel.EnteringScript

namespace Jbpm

open Activity ProcessInst

/-! ## Forgetting a token -/

namespace ProcessInst

variable (p : ProcessInst) (u : ℕ)

@[simp] theorem length_forget : (p.forget u).tokens.length = p.tokens.length :=
  List.length_modify ..

theorem extends_forget : Extends p (p.forget u) := by
  refine ⟨fun t k hk => ?_, fun l hl => ⟨l, hl, rfl, rfl⟩, (length_forget p u).ge⟩
  simp only [forget, List.getElem?_modify, hk]
  by_cases hu : u = t <;> simp [hu, ActivityToken.onActivity]

theorem parent_forget (t : ℕ) :
    ((p.forget u).tokens[t]?).bind (·.parent) = (p.tokens[t]?).bind (·.parent) := by
  simp only [forget, List.getElem?_modify]
  rcases p.tokens[t]? with _ | k
  · rfl
  · by_cases hu : u = t <;> simp [hu, ActivityToken.onActivity]

theorem hasEnded_forget (t : ℕ) : (p.forget u).hasEnded t = p.hasEnded t := by
  simp only [forget, hasEnded, List.getElem?_modify]
  rcases p.tokens[t]? with _ | k
  · rfl
  · by_cases hu : u = t <;> simp [hu, ActivityToken.onActivity]

theorem findLink_forget (name : String) : ∀ n t,
    (p.forget u).findLink name n t = p.findLink name n t
  | 0, _ => rfl
  | n + 1, t => by
    simp only [findLink, parent_forget, findLink_forget name n]
    rfl

theorem linkInstance_forget (t : ℕ) (name : String) :
    (p.forget u).linkInstance t name = p.linkInstance t name :=
  findLink_forget p u name _ t

end ProcessInst

theorem Starting.forget {p : ProcessInst} (hp : Starting p) (u : ℕ) : Starting (p.forget u) := by
  refine ⟨?_, hp.undetermined, ?_, ?_, ?_⟩
  · intro k hk
    obtain ⟨j, hj, rfl⟩ := List.getElem_of_mem hk
    rw [length_forget] at hj
    simp only [ProcessInst.forget, List.getElem_modify]
    split <;> exact hp.alive p.tokens[j] (List.getElem_mem hj)
  · intro t k s hk hs
    have h := parent_forget p u t
    rw [hk, Option.bind_some, hs] at h
    obtain ⟨k', hk', hs'⟩ := Option.bind_eq_some_iff.1 h.symm
    exact hp.parents t k' s hk' hs'
  · rw [length_forget]
    exact fun r hr => hp.bounded.1 r (List.mem_filter.1 hr).1
  · rw [length_forget]
    exact fun r hr => hp.bounded.2 r (List.mem_filter.1 hr).1

theorem modify_concat {α : Type} {g : α → α} {x : α} : ∀ {l : List α} {u : ℕ},
    u < l.length → (l ++ [x]).modify u g = l.modify u g ++ [x]
  | _ :: _, 0, _ => rfl
  | y :: _, _ + 1, h => congrArg (y :: ·) (modify_concat (Nat.lt_of_succ_lt_succ h))

theorem Effect.forget {f : Effect} {p : ProcessInst} {u : ℕ} (hf : f.token ≠ u)
    (hu : u < p.tokens.length) : f.apply (p.forget u) = (f.apply p).forget u := by
  cases f with
  | newToken s name =>
    have hs : (p.tokens.modify u ActivityToken.onActivity)[s]? = p.tokens[s]? :=
      List.getElem?_modify_ne _ _ (Ne.symm hf)
    simp only [Effect.apply, ProcessInst.newToken, ProcessInst.forget, hs, modify_concat hu]
  | setNode s n =>
    simp only [Effect.apply, ProcessInst.setNode, ProcessInst.forget]
    have hs : u ≠ s := Ne.symm hf
    rw [List.modify_modify_ne _ _ _ hs]
  | receive a s =>
    have hs : (decide (s ≠ u)) = true := decide_eq_true hf
    simp only [Effect.apply, ProcessInst.forget, List.filter_append, List.filter_singleton, hs]
    rfl
  | timer a s =>
    have hs : (decide (s ≠ u)) = true := decide_eq_true hf
    simp only [Effect.apply, ProcessInst.forget, List.filter_append, List.filter_singleton, hs]
    rfl
  | links _ _ | scope _ _ => rfl
  | target s name =>
    simp only [Effect.apply, linkInstance_forget]
    split <;> rfl

theorem applyAll_forget {fs : List Effect} {p : ProcessInst} {u : ℕ}
    (hf : Confined (· ≠ u) p.tokens.length fs) (hu : u < p.tokens.length) :
    applyAll fs (p.forget u) = (applyAll fs p).forget u := by
  induction fs generalizing p with
  | nil => rfl
  | cons f fs ih =>
    rw [applyAll_cons, Effect.forget hf.1.1 hu, applyAll_cons]
    refine ih (by rw [Effect.length_apply]; exact hf.2) ?_
    rw [Effect.length_apply]
    exact hu.trans_le (le_countAll [f] _)

/-! ## Tokens that do not wait yet -/

/-- There is no reception and no timer for the token. -/
def Idle (p : ProcessInst) (t : ℕ) : Prop :=
  (∀ r ∈ p.receptions, r.2 ≠ t) ∧ ∀ r ∈ p.timers, r.2 ≠ t

theorem Starting.idle {p : ProcessInst} (hp : Starting p) {t : ℕ} (ht : p.tokens.length ≤ t) :
    Idle p t :=
  ⟨fun r hr => ((hp.bounded.1 r hr).trans_le ht).ne, fun r hr => ((hp.bounded.2 r hr).trans_le ht).ne⟩

theorem Idle.forget {p : ProcessInst} {t : ℕ} (h : Idle p t) (u : ℕ) : Idle (p.forget u) t :=
  ⟨fun r hr => h.1 r (List.mem_filter.1 hr).1, fun r hr => h.2 r (List.mem_filter.1 hr).1⟩

/-- The effect opens no reception or timer for the token. -/
def Effect.Spares (t : ℕ) : Effect → Prop
  | receive _ s | timer _ s => s ≠ t
  | _ => True

theorem Idle.applyAll {t : ℕ} {fs : List Effect} {p : ProcessInst} (h : Idle p t)
    (hf : ∀ f ∈ fs, f.Spares t) : Idle (applyAll fs p) t := by
  induction fs generalizing p with
  | nil => exact h
  | cons f fs ih =>
    refine ih ?_ fun g hg => hf g (List.mem_cons_of_mem _ hg)
    have hs := hf f (List.mem_cons_self ..)
    cases f with
    | receive a s =>
      refine ⟨?_, h.2⟩
      simp only [Effect.apply, List.mem_append, List.mem_singleton]
      rintro r (hr | rfl)
      · exact h.1 r hr
      · exact hs
    | timer a s =>
      refine ⟨h.1, ?_⟩
      simp only [Effect.apply, List.mem_append, List.mem_singleton]
      rintro r (hr | rfl)
      · exact h.2 r hr
      · exact hs
    | target s name => simp only [Effect.apply]; split <;> exact h
    | newToken _ _ | setNode _ _ | links _ _ | scope _ _ => exact h

theorem Confined.spares {t n : ℕ} {fs : List Effect} (h : Confined (· ≠ t) n fs) :
    ∀ f ∈ fs, f.Spares t := by
  induction fs generalizing n with
  | nil => exact fun _ hf => nomatch hf
  | cons g fs ih =>
    intro f hf
    rcases List.mem_cons.1 hf with rfl | hf
    · have := h.1.1
      cases f <;> trivial
    · exact ih h.2 f hf

theorem mem_receptions_applyAll (fs : List Effect) {p : ProcessInst} {r : ReceiveAction × ℕ}
    (h : r ∈ p.receptions) : r ∈ (applyAll fs p).receptions := by
  induction fs generalizing p with
  | nil => exact h
  | cons f fs ih =>
    refine ih ?_
    cases f with
    | receive a s => exact List.mem_append_left _ h
    | target s name => simp only [Effect.apply]; split <;> exact h
    | newToken _ _ | setNode _ _ | timer _ _ | links _ _ | scope _ _ => exact h

/-! ## What a visit leaves -/

namespace Activity

/-- A visit leaves `q`, or `q` with the token that receives the message
    forgotten; `l` are the receive actions of what is visited. -/
def Outcome (m : ReceiveAction) (P : ℕ → Prop) (q : ProcessInst) (l : List ReceiveAction)
    (r : Visited) : Prop :=
  (m ∉ l ∧ r = .ok (q, none)) ∨
    m ∈ l ∧ ∃ u, (P u ∧ u < q.tokens.length) ∧ (m, u) ∈ q.receptions ∧
      r = .ok (q.forget u, some u)

theorem Outcome.mono {m : ReceiveAction} {P Q : ℕ → Prop} {q : ProcessInst}
    {l : List ReceiveAction} {r : Visited} (h : ∀ u, P u → Q u) (ho : Outcome m P q l r) :
    Outcome m Q q l r := by
  rcases ho with ho | ⟨hm, u, ⟨hu, hl⟩, ho⟩
  · exact .inl ho
  · exact .inr ⟨hm, u, ⟨h u hu, hl⟩, ho⟩

/-- The receive actions of the activities. -/
def startsOf (l : List (Activity × List String)) : List ReceiveAction := l.flatMap (·.1.starts)

theorem applyAll_receptions (as : List ReceiveAction) (t : ℕ) (p : ProcessInst) :
    applyAll (as.map (.receive · t)) p = { p with receptions := p.receptions ++ as.map (·, t) } := by
  induction as generalizing p with
  | nil => simp
  | cons a as ih => simp only [List.map_cons, applyAll_cons, ih, Effect.apply]; simp

theorem applyAll_timers (as : List ℕ) (t : ℕ) (p : ProcessInst) :
    applyAll (as.map (.timer · t)) p = { p with timers := p.timers ++ as.map (·, t) } := by
  induction as generalizing p with
  | nil => simp
  | cons a as ih => simp only [List.map_cons, applyAll_cons, ih, Effect.apply]; simp

/-- A token that waits for messages and alarms is put back on its activity. -/
theorem forget_waiting {p : ProcessInst} {t : ℕ} (h : Idle p t) (a : Activity)
    (onMessages : List ReceiveAction) (onAlarms : List ℕ) :
    (applyAll (onMessages.map (.receive · t) ++ onAlarms.map (.timer · t))
      (p.setNode t a.node)).forget t = p.setNode t (.activity a.info.id) := by
  have hr : p.receptions.filter (fun r => r.2 ≠ t) = p.receptions :=
    List.filter_eq_self.2 fun r hr => decide_eq_true (h.1 r hr)
  have ht : p.timers.filter (fun r => r.2 ≠ t) = p.timers :=
    List.filter_eq_self.2 fun r hr => decide_eq_true (h.2 r hr)
  rw [applyAll_append, applyAll_receptions, applyAll_timers]
  simp only [ProcessInst.forget, setNode, List.filter_append, hr, ht, List.modify_modify_eq]
  have hn : ActivityToken.onActivity ∘ (fun k => { k with node := some a.node }) =
      fun k : ActivityToken => { k with node := some (.activity a.info.id) } := by
    funext k
    cases a with
    | other _ b _ => cases b <;> rfl
    | _ => rfl
  simp [hn, List.filter_map, Function.comp_def]

variable {e : Engine} {m : ReceiveAction}

/-- A visited activity or one that is entered instead. -/
def visitOrEnter (e : Engine) (m : ReceiveAction) (a : Activity) (t : ℕ) (p : ProcessInst) :
    Visited :=
  if a.info.targets.isEmpty then visit e m true a t p else enterInnerActivity e a t p

theorem enterInnerActivity_eq {a : Activity} {t : ℕ} {p : ProcessInst} {visible : List String}
    (hp : Starting p) (hs : Sees p t visible) (hf : Fine e (a.started visible)) :
    enterInnerActivity e a t p = .ok (applyAll (entering a t p.tokens.length) p, none) := by
  rw [enterInnerActivity, enter, enter_eq a hp hs hf]
  rfl

theorem startsOf_started {a : Activity} {visible : List String}
    (ht : a.info.targets.isEmpty = true) :
    startsOf (a.started visible) = a.starts ++ startsOf (a.reached visible) := by
  simp only [startsOf, started, if_pos ht, List.flatMap_cons]

theorem entering_eq {a : Activity} {t n : ℕ} (ht : a.info.targets.isEmpty = true) :
    entering a t n = .setNode t a.node :: executing a t n := by
  rw [entering, entered, if_pos ht]

/-- An activity that receives messages itself. -/
theorem outcome_receiver {a : Activity} (onMessages : List ReceiveAction) (onAlarms : List ℕ)
    {t : ℕ} {p : ProcessInst} {visible : List String} (hp : Starting p) (hs : Sees p t visible)
    (hi : Idle p t) (hf : Fine e (a.started visible)) (ht : a.info.targets.isEmpty = true)
    (hx : executing a t p.tokens.length =
      onMessages.map (.receive · t) ++ onAlarms.map (.timer · t))
    (hl : startsOf (a.started visible) = onMessages)
    (hv : visit e m true a t p = if m ∈ onMessages then
      .ok (p.setNode t (.activity a.info.id), some t) else enterInnerActivity e a t p) :
    Outcome m (fun u => u = t ∨ p.tokens.length ≤ u)
      (applyAll (entering a t p.tokens.length) p) (startsOf (a.started visible))
      (visit e m true a t p) := by
  rw [hl, hv]
  by_cases hm : m ∈ onMessages
  · refine .inr ⟨hm, t, ⟨.inl rfl, ?_⟩, ?_, ?_⟩
    · rw [length_applyAll]
      exact hs.1.trans_le (le_countAll _ _)
    · rw [entering_eq ht, applyAll_cons, hx, applyAll_append, applyAll_receptions, applyAll_timers]
      exact List.mem_append_right _ (List.mem_map_of_mem hm)
    · rw [if_pos hm, entering_eq ht, applyAll_cons, hx]
      rw [← forget_waiting hi a onMessages onAlarms]
      rfl
  · rw [if_neg hm]
    exact .inl ⟨hm, enterInnerActivity_eq hp hs hf⟩

mutual

theorem visit_eq : ∀ (a : Activity) {t : ℕ} {p : ProcessInst} {visible : List String},
    Starting p → Sees p t visible → Idle p t → Fine e (a.started visible) →
      (startsOf (a.started visible)).Nodup → a.info.targets.isEmpty = true →
        Outcome m (fun u => u = t ∨ p.tokens.length ≤ u)
          (applyAll (entering a t p.tokens.length) p) (startsOf (a.started visible))
          (visit e m true a t p)
  | receive i action, t, p, visible, hp, hs, hi, hf, _, ht => by
    have hl : startsOf ((receive i action).started visible) = [action] := by
      rw [startsOf_started ht, starts, if_pos ht]
      rfl
    refine outcome_receiver [action] [] hp hs hi hf ht rfl hl ?_
    simp only [visit, List.mem_singleton, eq_comm, info]
  | pick i onMessages onAlarms, t, p, visible, hp, hs, hi, hf, _, ht => by
    have hl : startsOf ((pick i onMessages onAlarms).started visible) = onMessages := by
      rw [startsOf_started ht, starts, if_pos ht]
      exact List.append_nil _
    exact outcome_receiver onMessages onAlarms hp hs hi hf ht rfl hl (by simp only [visit, info])
  | sequence i first rest, t, p, visible, hp, hs, hi, hf, hn, ht => by
    let q := p.setNode t (.begin_ i.id)
    have hl : startsOf ((sequence i first rest).started visible) =
        startsOf (first.started visible) := by
      simp only [startsOf_started ht, starts, if_pos ht, List.nil_append]
      rfl
    have hq : q.tokens.length = p.tokens.length := List.length_modify ..
    rcases hft : first.info.targets.isEmpty with _ | _
    · have hl' : startsOf (first.started visible) = [] := by
        simp [startsOf, started, starts, hft, List.isEmpty_eq_false_iff.1 hft]
      rw [hl, hl']
      refine .inl ⟨List.not_mem_nil, ?_⟩
      simp only [visit, hft, Bool.true_and, Bool.false_eq_true, if_false]
      exact enterInnerActivity_eq hp hs hf
    · rw [hl] at hn ⊢
      have ih := visit_eq first (p := q) (hp.apply (f := .setNode t _) hs.1)
        ((Extends.apply (.setNode t _) p).sees hs) hi (hf.reached ht) hn hft
      rw [hq] at ih
      have hv : visit e m true (sequence i first rest) t p = visit e m true first t q := by
        simp only [visit, hft, Bool.and_true, if_true, q]
      rw [hv, entering_eq ht]
      exact ih
  | flow i links activities, t, p, visible, hp, hs, hi, hf, hn, ht => by
    let p' := p.setNode t (.begin_ i.id)
    let q := applyAll (flowTokens i.name links activities t p.tokens.length) p'
    have hlen : p'.tokens.length = p.tokens.length := List.length_modify ..
    have hp' : Starting p' := hp.apply (f := .setNode t _) hs.1
    have hs' : Sees p' t visible := (Extends.apply (.setNode t _) p).sees hs
    have hl : startsOf ((flow i links activities).started visible) =
        startsOf (reachedAll (links ++ visible) activities) := by
      simp only [startsOf_started ht, starts, if_pos ht, List.nil_append]
      rfl
    obtain ⟨h₁, h₂⟩ := @initializeLinks_eq i.name links t p' activities
    have hc := @confined_flowTokens (fun _ => True) i.name links activities t _ trivial hs.1 trivial
    have hq : Starting q := hp'.applyAll (by rw [hlen]; exact hc)
    have hsq := @seeAll_flowTokens p' t visible i.name links activities hs'
    rw [hl] at hn ⊢
    rw [hlen] at h₁ h₂ hsq
    have hiq : ∀ j < activities.length, Idle q (firstToken links p.tokens.length + j) := by
      intro j _
      refine (hp'.idle ?_).applyAll ?_
      · rw [hlen]; exact (le_firstToken links _).trans (Nat.le_add_right ..)
      · unfold flowTokens
        split <;> simp [Effect.Spares]
    have ih := visitConcurrent_eq activities (linksToken links t p.tokens.length) hq hsq hiq
      (hf.reached ht) hn
    have hv : visit e m true (flow i links activities) t p = visit.visitConcurrent e m true
        (linksToken links t p.tokens.length) activities (firstToken links p.tokens.length) q := by
      simp only [visit]
      rw [h₁, h₂]
    have hqlen : q.tokens.length = firstToken links p.tokens.length + activities.length := by
      rw [length_applyAll, hlen, countAll_flowTokens]
    rw [hqlen] at ih
    rw [hv, entering_eq ht, applyAll_cons, executing, applyAll_append]
    exact ih.mono fun u hu => .inr ((le_firstToken links _).trans hu)
  | scope i onEvents onAlarms activity, t, p, visible, hp, hs, hi, hf, hn, ht => by
    let p' := p.setNode t (.activity i.id)
    let n := p.tokens.length
    let q := applyAll (scopeTokens i onEvents onAlarms activity t n) p'
    have hlen : p'.tokens.length = n := List.length_modify ..
    have hp' : Starting p' := hp.apply (f := .setNode t _) hs.1
    have hs' : Sees p' t visible := (Extends.apply (.setNode t _) p).sees hs
    have hl : startsOf ((scope i onEvents onAlarms activity).started visible) =
        startsOf (activity.started visible) := by
      simp only [startsOf_started ht, starts, if_pos ht, List.nil_append]
      rfl
    obtain ⟨he, hsq⟩ := @enterScope_eq e p' t visible i onEvents onAlarms activity hs' (hf.quiet ht)
    rw [hlen] at he hsq
    have hc := @confined_scopeTokens (· ≠ n + 1) i onEvents onAlarms activity t n
      (by have := hs.1; omega) hs.1 (by omega) (by omega)
    have hq : Starting q := hp'.applyAll (by rw [hlen]; exact hc)
    have hiq : Idle q (n + 1) := (hp'.idle (by omega)).applyAll hc.spares
    rw [hl] at hn ⊢
    have ih := visitOrEnter_eq activity hq hsq hiq (hf.reached ht) hn
    have hv : visit e m true (scope i onEvents onAlarms activity) t p =
        visitOrEnter e m activity (n + 1) q := by
      simp only [visit, Bool.true_and]
      rw [he]
      rfl
    have hqlen : q.tokens.length = countAll (scopeTokens i onEvents onAlarms activity t n) n := by
      rw [length_applyAll, hlen]
    rw [hqlen] at ih
    rw [hv, entering_eq ht, applyAll_cons, executing, applyAll_append]
    refine ih.mono fun u hu => .inr ?_
    rcases hu with rfl | hu
    · exact Nat.le_succ _
    · exact (le_countAll _ _).trans hu
  | other _ _ _, _, _, _, _, _, _, hf, _, ht => nomatch (hf _ (List.mem_cons_self ..)).1.2 ht

theorem visitConcurrent_eq : ∀ (as : List Activity) (flowToken : ℕ) {k : ℕ} {p : ProcessInst}
    {visible : List String}, Starting p → SeeAll p k as.length visible →
      (∀ j < as.length, Idle p (k + j)) → Fine e (reachedAll visible as) →
        (startsOf (reachedAll visible as)).Nodup →
          Outcome m (fun u => k ≤ u) (applyAll (enteringAll as k p.tokens.length) p)
            (startsOf (reachedAll visible as)) (visit.visitConcurrent e m true flowToken as k p)
  | [], _, _, _, _, _, _, _, _, _ => .inl ⟨by simp [reachedAll, startsOf], rfl⟩
  | a :: as, flowToken, k, p, visible, hp, hs, hi, hf, hn => by
    have hk : Sees p k visible := hs 0 (by simp)
    let fs := entering a k p.tokens.length
    let p' := applyAll fs p
    have hfa : Fine e (a.started visible) := fun x hx => hf x (by
      rw [reachedAll, ← List.cons_append]; exact List.mem_append_left _ hx)
    have hfs : Fine e (reachedAll visible as) := fun x hx => hf x (by
      rw [reachedAll, ← List.cons_append]; exact List.mem_append_right _ hx)
    have hl : startsOf (reachedAll visible (a :: as)) =
        startsOf (a.started visible) ++ startsOf (reachedAll visible as) := by
      rw [reachedAll, ← List.cons_append, startsOf, List.flatMap_append]
      rfl
    rw [hl] at hn ⊢
    obtain ⟨hna, hnas, hd⟩ := List.nodup_append.1 hn
    have ih₁ := visitOrEnter_eq a hp hk (hi 0 (by simp)) hfa hna
    have hc : Confined (fun u => u = k ∨ p.tokens.length ≤ u) p.tokens.length fs :=
      confined_entering a (.inl rfl) hk.1 fun u hu => .inr hu
    have hp' : Starting p' := hp.applyAll hc
    have hs' : SeeAll p' (k + 1) as.length visible := by
      intro j hj
      have := (Extends.applyAll fs p).sees (hs (j + 1) (by simp only [List.length_cons]; omega))
      rwa [← Nat.add_assoc, Nat.add_right_comm] at this
    have hi' : ∀ j < as.length, Idle p' (k + 1 + j) := by
      intro j hj
      have hj' : j + 1 < (a :: as).length := by simp only [List.length_cons]; omega
      have hlt := (hs (j + 1) hj').1
      have := hi (j + 1) hj'
      rw [← Nat.add_assoc, Nat.add_right_comm] at this hlt
      exact this.applyAll (hc.mono fun u hu => by omega).spares
    have hv : visit.visitConcurrent e m true flowToken (a :: as) k p =
        visitOrEnter e m a k p >>= fun x =>
          if x.1.hasEnded flowToken then .ok (x.1, x.2)
          else visit.visitConcurrent e m true flowToken as (k + 1) x.1 >>= fun y =>
            .ok (y.1, y.2.or x.2) := by
      simp only [visit.visitConcurrent, visitOrEnter, Bool.true_and]
      split <;> rfl
    have hq : applyAll (enteringAll (a :: as) k p.tokens.length) p =
        applyAll (enteringAll as (k + 1) p'.tokens.length) p' := by
      rw [enteringAll, applyAll_append, length_applyAll]
      rfl
    rw [hv, hq]
    rcases ih₁ with ⟨hm, h₁⟩ | ⟨hm, u, ⟨hu, hul⟩, hr, h₁⟩
    · have ih₂ := visitConcurrent_eq as flowToken hp' hs' hi' hfs hnas
      rw [h₁]
      simp only [bind, Except.bind]
      rw [hp'.hasEnded]
      rcases ih₂ with ⟨hm', h₂⟩ | ⟨hm', u, ⟨hu, hul⟩, hr, h₂⟩
      · exact .inl ⟨fun h => (List.mem_append.1 h).elim hm hm', by rw [h₂]; rfl⟩
      · exact .inr ⟨List.mem_append_right _ hm', u, ⟨Nat.le_of_succ_le hu, hul⟩, hr,
          by rw [h₂]; rfl⟩
    · -- the others are visited with the token of the message forgotten
      have hul : u < p'.tokens.length := hul
      have hm' : m ∉ startsOf (reachedAll visible as) := fun h => hd m hm m h rfl
      have ih₂ := visitConcurrent_eq as flowToken (hp'.forget u)
        (fun j hj => (extends_forget p' u).sees (hs' j hj)) (fun j hj => (hi' j hj).forget u) hfs hnas
      have hcu : Confined (· ≠ u) p'.tokens.length (enteringAll as (k + 1) p'.tokens.length) := by
        refine confined_enteringAll as (fun j hj => ⟨?_, (hs' j hj).1⟩) fun v hv => by omega
        have hlt := (hs (j + 1) (Nat.succ_lt_succ hj)).1
        omega
      obtain ⟨-, h₂⟩ := ih₂.resolve_right fun h => hm' h.1
      rw [length_forget, applyAll_forget hcu hul] at h₂
      have hx := Extends.applyAll (enteringAll as (k + 1) p'.tokens.length) p'
      rw [h₁]
      simp only [bind, Except.bind]
      rw [(hp'.forget u).hasEnded, h₂]
      refine .inr ⟨List.mem_append_left _ hm, u, ⟨?_, hul.trans_le hx.length⟩, ?_, rfl⟩
      · rcases hu with rfl | hu
        · exact le_rfl
        · exact hk.1.le.trans hu
      · exact mem_receptions_applyAll _ hr

theorem visitOrEnter_eq : ∀ (a : Activity) {t : ℕ} {p : ProcessInst} {visible : List String},
    Starting p → Sees p t visible → Idle p t → Fine e (a.started visible) →
      (startsOf (a.started visible)).Nodup →
        Outcome m (fun u => u = t ∨ p.tokens.length ≤ u)
          (applyAll (entering a t p.tokens.length) p) (startsOf (a.started visible))
          (visitOrEnter e m a t p)
  | a, t, p, visible, hp, hs, hi, hf, hn => by
    rcases ht : a.info.targets.isEmpty with _ | _
    · have hl : startsOf (a.started visible) = [] := by
        simp [startsOf, started, starts, ht, List.isEmpty_eq_false_iff.1 ht]
      rw [visitOrEnter, ht]
      exact .inl ⟨by simp [hl], enterInnerActivity_eq hp hs hf⟩
    · rw [visitOrEnter, ht]
      exact visit_eq a hp hs hi hf hn ht

end

end Activity

/-! ## The start of a process -/

namespace BpelProcess

variable {e : Engine} {d : BpelProcess}

theorem starting_newInstance : Starting newInstance := by
  refine ⟨by simp [newInstance], by simp [newInstance], ?_, by simp [newInstance], by simp [newInstance]⟩
  intro t k s hk hs
  cases t with
  | zero => cases hk; cases hs
  | succ t => cases hk

/-- The effects of entering the global scope, up to its activity. -/
def globalScope (d : BpelProcess) : List Effect :=
  [.setNode 0 (.activity d.info.id), .newToken 0 d.activity.info.name, .scope d.info.id 0]
    ++ Activity.enableEvents d.info.id 0 2 d.onEvents d.onAlarms

/-- The instance when the activity of the global scope is entered. -/
def opened (d : BpelProcess) : ProcessInst := applyAll d.globalScope newInstance

theorem enableEvents_opened (hq : d.Quiet e) :
    ((newInstance.setNode 0 (.activity d.info.id)).createScope d.info.id 0 d.activity).enableEvents
      e d.info.id 0 d.onEvents d.onAlarms = .ok d.opened :=
  enableEvents_eq hq.1.1 hq.1.2

theorem confined_globalScope (d : BpelProcess) : Confined (· ≠ 1) 1 d.globalScope := by
  refine confined_append.2 ⟨⟨⟨Nat.zero_ne_one, Nat.one_pos⟩, ⟨Nat.zero_ne_one, Nat.one_pos⟩,
    ⟨Nat.zero_ne_one, Nat.two_pos⟩, trivial⟩, ?_⟩
  show Confined (· ≠ 1) 2 _
  exact confined_enableEvents (by decide) (by decide) (by decide)

theorem starting_opened (d : BpelProcess) : Starting d.opened :=
  starting_newInstance.applyAll d.confined_globalScope

theorem sees_opened (d : BpelProcess) : Sees d.opened 1 [] := by
  refine ⟨?_, fun _ hn => nomatch hn⟩
  rw [opened, length_applyAll, globalScope, countAll_append]
  exact le_countAll _ 2

theorem idle_opened (d : BpelProcess) : Idle d.opened 1 :=
  (starting_newInstance.idle le_rfl).applyAll d.confined_globalScope.spares

/-- **Creating a process instance by a message.**  The starter leaves the
    instance that the start of the process leaves, in which one token is
    waiting for the message, without the receptions and timers of that token;
    and it is the token found. -/
theorem starter_eq_start (e : Engine) (d : BpelProcess) (messageTarget : ReceiveAction)
    (hA : d.Accepted) (hQ : d.Quiet e) (hN : d.startActions.Nodup)
    (hm : messageTarget ∈ d.startActions) :
    ∃ p t, d.start e = .ok p ∧ (messageTarget, t) ∈ p.receptions ∧
      d.initializeProcessInstance e messageTarget = .ok (p.forget t, some t) := by
  have hf : Fine e d.started := fun x hx => ⟨hA x hx, hQ.2 x hx⟩
  have hv := visitOrEnter_eq d.activity (m := messageTarget) d.starting_opened d.sees_opened
    d.idle_opened hf hN
  have he := enter_eq d.activity d.starting_opened d.sees_opened hf
  obtain ⟨-, t, -, hr, hv⟩ := hv.resolve_left fun h => h.1 hm
  refine ⟨_, t, ?_, hr, ?_⟩
  · rw [start]
    simp only [enableEvents_opened hQ, bind, Except.bind]
    exact he
  · rw [initializeProcessInstance]
    simp only [enableEvents_opened hQ, bind, Except.bind]
    exact hv

/-- An engine where the other activities end at once. -/
def emptyEngine : Engine where
  perform _ t p :=
    .ok { p with tokens := p.tokens.modify t fun k => { k with ended := true } }
  joinCondition _ _ p := .ok (true, p)
  raise _ p := .ok p
  due _ := true

/-- Receives in a sequence, a scope with an event and a nested flow, next to a
    pick and to an empty activity that is the target of a link. -/
def orders : BpelProcess where
  info := ⟨0, "", []⟩
  onEvents := []
  onAlarms := []
  activity := .flow ⟨1, "flow", []⟩ ["placed"] [
    .sequence ⟨2, "sequence", []⟩ (.receive ⟨3, "a", []⟩ ⟨0, [.join]⟩)
      [.other ⟨4, "", []⟩ false []],
    .scope ⟨5, "scope", []⟩ [⟨1, [.yes]⟩] [] (.flow ⟨6, "", []⟩ [] [
      .receive ⟨7, "b", []⟩ ⟨2, [.join]⟩, .other ⟨8, "", ["placed"]⟩ false []]),
    .pick ⟨9, "pick", []⟩ [⟨3, []⟩, ⟨4, []⟩] [0],
    .other ⟨10, "empty", ["placed"]⟩ false []]

theorem starter_eq_start_orders : ∃ p t, orders.start emptyEngine = .ok p ∧
    (⟨4, []⟩, t) ∈ p.receptions ∧
      orders.initializeProcessInstance emptyEngine ⟨4, []⟩ = .ok (p.forget t, some t) :=
  starter_eq_start emptyEngine orders ⟨4, []⟩
    (by decide) (by decide) (by decide) (by decide)

/-- A receive in parallel with an empty activity, which the readers refuse. -/
def refused : BpelProcess where
  info := ⟨0, "", []⟩
  onEvents := []
  onAlarms := []
  activity := .flow ⟨1, "flow", []⟩ [] [
    .receive ⟨2, "a", []⟩ ⟨0, []⟩, .other ⟨3, "empty", []⟩ false []]

/-- The visitor ignores an initial activity that is no receive, pick, sequence,
    flow or scope. -/
theorem not_starter_eq_start : ⟨0, []⟩ ∈ refused.startActions ∧
    ¬ ∃ p t, refused.start emptyEngine = .ok p ∧ (⟨0, []⟩, t) ∈ p.receptions ∧
      refused.initializeProcessInstance emptyEngine ⟨0, []⟩ = .ok (p.forget t, some t) := by
  refine ⟨by decide, ?_⟩
  rintro ⟨p, t, hp, -, hv⟩
  have h₁ : (refused.start emptyEngine).toOption.map (·.hasEnded 3) = some true := by decide
  have h₂ : (refused.initializeProcessInstance emptyEngine ⟨0, []⟩).toOption.map
      (·.1.hasEnded 3) = some false := by decide
  rw [hp] at h₁
  rw [hv] at h₂
  simp only [Except.toOption, Option.map_some, Option.some.injEq, hasEnded_forget] at h₁ h₂
  rw [h₁] at h₂
  cases h₂

end BpelProcess

end Jbpm
