/-
  What entering an activity does to a process instance, as a list of effects: at
  the start of a process no activity completes, so that the effects depend on the
  activity, its token and the number of tokens only.

  * `Effect`, `applyAll`: the effects and what they do;
  * `entering`: the effects of entering an activity;
  * `enterWith_eq`: an activity that the readers let pass and in which nothing
    faults has these effects.
-/
import Jbpm.Bpel.ProcessInstanceStarter
import Mathlib.Order.Nat

namespace Jbpm

open Activity ProcessInst

inductive Effect
  | newToken (parent : ℕ) (name : String)
  | setNode (t : ℕ) (n : ActivityNode)
  | receive (a : ReceiveAction) (t : ℕ)
  | timer (a t : ℕ)
  | links (holder : ℕ) (names : List String)
  | scope (id t : ℕ)
  | target (t : ℕ) (name : String)

namespace Effect

/-- The token that the effect is about; a new token is about its parent. -/
def token : Effect → ℕ
  | newToken t _ | setNode t _ | receive _ t | timer _ t | links t _ | scope _ t | target t _ => t

def apply (p : ProcessInst) : Effect → ProcessInst
  | newToken t name => p.newToken t name
  | setNode t n => p.setNode t n
  | receive a t => { p with receptions := p.receptions ++ [(a, t)] }
  | timer a t => { p with timers := p.timers ++ [(a, t)] }
  | links t names => { p with links := p.links ++ names.map fun l => ⟨t, l, none, none⟩ }
  | scope id t => { p with scopes := p.scopes ++ [(id, t)] }
  | target t name => match p.linkInstance t name with
    | none => p
    | some i => { p with links := p.links.modify i fun l => { l with targetToken := some t } }

/-- The number of tokens after the effect. -/
def count (n : ℕ) : Effect → ℕ
  | newToken _ _ => n + 1
  | _ => n

end Effect

def applyAll (fs : List Effect) (p : ProcessInst) : ProcessInst := fs.foldl Effect.apply p

def countAll (fs : List Effect) (n : ℕ) : ℕ := fs.foldl Effect.count n

@[simp] theorem applyAll_nil (p : ProcessInst) : applyAll [] p = p := rfl

@[simp] theorem applyAll_cons (f : Effect) (fs : List Effect) (p : ProcessInst) :
    applyAll (f :: fs) p = applyAll fs (f.apply p) := rfl

@[simp] theorem applyAll_append (fs gs : List Effect) (p : ProcessInst) :
    applyAll (fs ++ gs) p = applyAll gs (applyAll fs p) := List.foldl_append ..

@[simp] theorem countAll_nil (n : ℕ) : countAll [] n = n := rfl

@[simp] theorem countAll_cons (f : Effect) (fs : List Effect) (n : ℕ) :
    countAll (f :: fs) n = countAll fs (f.count n) := rfl

@[simp] theorem countAll_append (fs gs : List Effect) (n : ℕ) :
    countAll (fs ++ gs) n = countAll gs (countAll fs n) := List.foldl_append ..

@[simp] theorem Effect.length_apply (f : Effect) (p : ProcessInst) :
    (f.apply p).tokens.length = f.count p.tokens.length := by
  cases f <;> simp only [apply, count, ProcessInst.newToken, ProcessInst.setNode,
    List.length_append, List.length_modify, List.length_singleton]
  split <;> rfl

@[simp] theorem length_applyAll (fs : List Effect) (p : ProcessInst) :
    (applyAll fs p).tokens.length = countAll fs p.tokens.length := by
  induction fs generalizing p with
  | nil => rfl
  | cons f fs ih => rw [applyAll_cons, ih, Effect.length_apply, countAll_cons]

theorem le_countAll (fs : List Effect) (n : ℕ) : n ≤ countAll fs n := by
  induction fs generalizing n with
  | nil => exact le_rfl
  | cons f fs ih =>
    refine le_trans ?_ (ih (f.count n))
    cases f <;> simp [Effect.count]

/-! ## The effects of entering -/

namespace Activity

def enableEvents (id t n : ℕ) (onEvents : List ReceiveAction) (onAlarms : List ℕ) : List Effect :=
  if onEvents.isEmpty ∧ onAlarms.isEmpty then []
  else [.newToken t "events", .setNode n (.activity id)]
    ++ (onEvents.map (.receive · n) ++ onAlarms.map (.timer · n))

/-- The tokens of a flow: that of its links and the concurrent ones. -/
def flowTokens (name : String) (links : List String) (activities : List Activity) (t n : ℕ) :
    List Effect :=
  if links.isEmpty then activities.map fun a => .newToken t a.info.name
  else [.newToken t name, .links n links] ++ activities.map fun a => .newToken n a.info.name

/-- The tokens of a scope and of its activity, with the events of the scope. -/
def scopeTokens (i : ActivityInfo) (onEvents : List ReceiveAction) (onAlarms : List ℕ)
    (activity : Activity) (t n : ℕ) : List Effect :=
  [.newToken t i.name, .newToken n activity.info.name, .scope i.id n]
    ++ enableEvents i.id n (n + 2) onEvents onAlarms

/-- The first of the concurrent tokens. -/
def firstToken (links : List String) (n : ℕ) : ℕ := if links.isEmpty then n else n + 1

/-- The effects of entering `a` with token `t`, `fs` being those of executing it. -/
def entered (a : Activity) (t : ℕ) (fs : List Effect) : List Effect :=
  .setNode t a.node :: if a.info.targets.isEmpty then fs else a.info.targets.map (.target t)

mutual

/-- The effects of executing with token `t` when there are `n` tokens. -/
def executing : Activity → ℕ → ℕ → List Effect
  | receive _ action, t, _ => [.receive action t]
  | pick _ onMessages onAlarms, t, _ => onMessages.map (.receive · t) ++ onAlarms.map (.timer · t)
  | sequence _ first _, t, n => entered first t (executing first t n)
  | flow i links activities, t, n =>
    let k := firstToken links n
    flowTokens i.name links activities t n ++ enteringAll activities k (k + activities.length)
  | scope i onEvents onAlarms activity, t, n =>
    let fs := scopeTokens i onEvents onAlarms activity t n
    fs ++ entered activity (n + 1) (executing activity (n + 1) (countAll fs n))
  | other _ _ _, _, _ => []

/-- The activities of a flow, with the tokens from `k` on. -/
def enteringAll : List Activity → ℕ → ℕ → List Effect
  | [], _, _ => []
  | a :: as, k, n =>
    let fs := entered a k (executing a k n)
    fs ++ enteringAll as (k + 1) (countAll fs n)

end

def entering (a : Activity) (t n : ℕ) : List Effect := entered a t (executing a t n)

end Activity

/-! ## Effects about some tokens only -/

/-- The effects are about tokens that exist and that meet `P`. -/
def Confined (P : ℕ → Prop) : ℕ → List Effect → Prop
  | _, [] => True
  | n, f :: fs => (P f.token ∧ f.token < n) ∧ Confined P (f.count n) fs

theorem confined_append {P : ℕ → Prop} {fs gs : List Effect} {n : ℕ} :
    Confined P n (fs ++ gs) ↔ Confined P n fs ∧ Confined P (countAll fs n) gs := by
  induction fs generalizing n with
  | nil => simp [Confined]
  | cons f fs ih => simp only [List.cons_append, Confined, ih, countAll_cons, and_assoc]

theorem Confined.mono {P Q : ℕ → Prop} {fs : List Effect} {n : ℕ} (h : ∀ t, P t → Q t)
    (hf : Confined P n fs) : Confined Q n fs := by
  induction fs generalizing n with
  | nil => trivial
  | cons f fs ih => exact ⟨⟨h _ hf.1.1, hf.1.2⟩, ih hf.2⟩

/-- Effects that create no tokens, all about token `t`. -/
theorem confined_of_token {P : ℕ → Prop} {fs : List Effect} {t n : ℕ} (ht : P t) (hn : t < n)
    (h : ∀ f ∈ fs, f.token = t) : Confined P n fs := by
  induction fs generalizing n with
  | nil => trivial
  | cons f fs ih =>
    have hf := h f (List.mem_cons_self ..)
    refine ⟨hf ▸ ⟨ht, hn⟩, ih ?_ fun g hg => h g (List.mem_cons_of_mem _ hg)⟩
    exact lt_of_lt_of_le hn (le_countAll [f] n)

namespace Activity

theorem confined_entered {P : ℕ → Prop} {a : Activity} {t n : ℕ} {fs : List Effect} (ht : P t)
    (hn : t < n) (h : Confined P n fs) : Confined P n (entered a t fs) := by
  refine ⟨⟨ht, hn⟩, ?_⟩
  split
  · exact h
  · exact confined_of_token ht hn (by simp [Effect.token])

theorem confined_enableEvents {P : ℕ → Prop} {id t n : ℕ} {onEvents : List ReceiveAction}
    {onAlarms : List ℕ} (ht : P t) (hn : t < n) (hP : P n) :
    Confined P n (enableEvents id t n onEvents onAlarms) := by
  unfold enableEvents
  split
  · trivial
  · refine ⟨⟨ht, hn⟩, ⟨hP, n.lt_succ_self⟩, ?_⟩
    show Confined P (n + 1) (onEvents.map (.receive · n) ++ onAlarms.map (.timer · n))
    refine confined_of_token hP n.lt_succ_self ?_
    simp only [List.mem_append, List.mem_map]
    rintro f (⟨a, -, rfl⟩ | ⟨a, -, rfl⟩) <;> rfl

theorem countAll_newTokens (as : List Activity) (t n : ℕ) :
    countAll (as.map fun a => .newToken t a.info.name) n = n + as.length := by
  induction as generalizing n with
  | nil => rfl
  | cons a as ih => simp only [List.map_cons, countAll_cons, Effect.count, ih, List.length_cons]; omega

theorem countAll_flowTokens (name : String) (links : List String) (as : List Activity) (t n : ℕ) :
    countAll (flowTokens name links as t n) n = firstToken links n + as.length := by
  unfold flowTokens firstToken
  split
  · exact countAll_newTokens as t n
  · simp [countAll_newTokens, Effect.count]

theorem confined_flowTokens {P : ℕ → Prop} {name : String} {links : List String}
    {as : List Activity} {t n : ℕ} (ht : P t) (hn : t < n) (hP : P n) :
    Confined P n (flowTokens name links as t n) := by
  unfold flowTokens
  split
  · exact confined_of_token ht hn (by simp [Effect.token])
  · refine ⟨⟨ht, hn⟩, ⟨hP, n.lt_succ_self⟩, ?_⟩
    exact confined_of_token hP n.lt_succ_self (by simp [Effect.token])

theorem le_firstToken (links : List String) (n : ℕ) : n ≤ firstToken links n := by
  unfold firstToken; split <;> omega

theorem confined_scopeTokens {P : ℕ → Prop} {i : ActivityInfo} {onEvents : List ReceiveAction}
    {onAlarms : List ℕ} {activity : Activity} {t n : ℕ} (ht : P t) (hn : t < n) (h₀ : P n)
    (h₂ : P (n + 2)) : Confined P n (scopeTokens i onEvents onAlarms activity t n) := by
  refine confined_append.2 ⟨⟨⟨ht, hn⟩, ⟨h₀, n.lt_succ_self⟩,
    ⟨h₀, n.lt_succ_of_lt n.lt_succ_self⟩, trivial⟩, ?_⟩
  show Confined P (n + 2) _
  exact confined_enableEvents h₀ (by omega) h₂

mutual

/-- Executing is about the token it is given and new ones. -/
theorem confined_executing {P : ℕ → Prop} : ∀ (a : Activity) {t n : ℕ}, P t → t < n →
    (∀ u, n ≤ u → P u) → Confined P n (executing a t n)
  | receive _ _, _, _, ht, hn, _ => ⟨⟨ht, hn⟩, trivial⟩
  | pick _ onMessages onAlarms, t, n, ht, hn, _ => by
    refine confined_of_token ht hn ?_
    simp only [executing, List.mem_append, List.mem_map]
    rintro f (⟨a, -, rfl⟩ | ⟨a, -, rfl⟩) <;> rfl
  | sequence _ first _, _, _, ht, hn, hP =>
    confined_entered ht hn (confined_executing first ht hn hP)
  | flow i links activities, t, n, ht, hn, hP => by
    have hk := le_firstToken links n
    refine confined_append.2 ⟨confined_flowTokens ht hn (hP n le_rfl), ?_⟩
    rw [countAll_flowTokens]
    exact confined_enteringAll activities (fun j hj => ⟨hP _ (by omega), by omega⟩)
      fun u hu => hP u (by omega)
  | scope i onEvents onAlarms activity, t, n, ht, hn, hP => by
    have hle : n + 2 ≤ countAll (scopeTokens i onEvents onAlarms activity t n) n :=
      le_countAll (enableEvents i.id n (n + 2) onEvents onAlarms) (n + 2)
    refine confined_append.2 ⟨confined_scopeTokens ht hn (hP _ le_rfl) (hP _ (by omega)), ?_⟩
    exact confined_entered (hP _ (by omega)) hle
      (confined_executing activity (hP _ (by omega)) hle fun u hu => hP u (by omega))
  | other _ _ _, _, _, _, _, _ => trivial

theorem confined_enteringAll {P : ℕ → Prop} : ∀ (as : List Activity) {k n : ℕ},
    (∀ j < as.length, P (k + j) ∧ k + j < n) → (∀ u, n ≤ u → P u) →
      Confined P n (enteringAll as k n)
  | [], _, _, _, _ => trivial
  | a :: as, k, n, hk, hP => by
    obtain ⟨hPk, hkn⟩ := hk 0 (Nat.succ_pos _)
    have hle := le_countAll (entered a k (executing a k n)) n
    refine confined_append.2 ⟨confined_entered hPk hkn (confined_executing a hPk hkn hP), ?_⟩
    refine confined_enteringAll as (fun j hj => ?_) fun u hu => hP u (hle.trans hu)
    obtain ⟨hPj, hjn⟩ := hk (j + 1) (Nat.succ_lt_succ hj)
    rw [← Nat.add_assoc, Nat.add_right_comm] at hPj hjn
    exact ⟨hPj, hjn.trans_le hle⟩

end

theorem confined_entering {P : ℕ → Prop} (a : Activity) {t n : ℕ} (ht : P t) (hn : t < n)
    (hP : ∀ u, n ≤ u → P u) : Confined P n (entering a t n) :=
  confined_entered ht hn (confined_executing a ht hn hP)

end Activity

/-! ## The start of an instance -/

/-- No token has ended and no link is determined. -/
structure Starting (p : ProcessInst) : Prop where
  alive : ∀ k ∈ p.tokens, k.ended = false
  undetermined : ∀ l ∈ p.links, l.status = none
  parents : ∀ (t : ℕ) (k : ActivityToken) s, p.tokens[t]? = some k → k.parent = some s → s < t
  bounded : (∀ r ∈ p.receptions, r.2 < p.tokens.length) ∧ ∀ r ∈ p.timers, r.2 < p.tokens.length

/-- The link is held by the token or one above it. -/
inductive Visible (p : ProcessInst) (name : String) : ℕ → Prop
  | held {l : LinkInst} : l ∈ p.links → l.name = name → Visible p name l.holder
  | up {t s : ℕ} {k : ActivityToken} : p.tokens[t]? = some k → k.parent = some s → Visible p name s → Visible p name t

/-- The token exists and the links are visible from it. -/
def Sees (p : ProcessInst) (t : ℕ) (visible : List String) : Prop :=
  t < p.tokens.length ∧ ∀ name ∈ visible, Visible p name t

/-- The tokens keep their parents, and the links their holders. -/
structure Extends (p q : ProcessInst) : Prop where
  tokens : ∀ (t : ℕ) (k : ActivityToken), p.tokens[t]? = some k →
    ∃ k' : ActivityToken, q.tokens[t]? = some k' ∧ k'.parent = k.parent
  links : ∀ l ∈ p.links, ∃ l' ∈ q.links, l'.holder = l.holder ∧ l'.name = l.name
  length : p.tokens.length ≤ q.tokens.length

namespace Extends

variable {p q r : ProcessInst}

protected theorem rfl : Extends p p :=
  ⟨fun _ k h => ⟨k, h, rfl⟩, fun l h => ⟨l, h, rfl, rfl⟩, le_rfl⟩

theorem trans (h : Extends p q) (h' : Extends q r) : Extends p r := by
  refine ⟨fun t k hk => ?_, fun l hl => ?_, h.length.trans h'.length⟩
  · obtain ⟨k₁, h₁, e₁⟩ := h.tokens t k hk
    obtain ⟨k₂, h₂, e₂⟩ := h'.tokens t k₁ h₁
    exact ⟨k₂, h₂, e₂.trans e₁⟩
  · obtain ⟨l₁, h₁, e₁, n₁⟩ := h.links l hl
    obtain ⟨l₂, h₂, e₂, n₂⟩ := h'.links l₁ h₁
    exact ⟨l₂, h₂, e₂.trans e₁, n₂.trans n₁⟩

theorem visible (h : Extends p q) {name : String} {t : ℕ} (hv : Visible p name t) :
    Visible q name t := by
  induction hv with
  | held hl hn =>
    obtain ⟨l', hl', he, hn'⟩ := h.links _ hl
    exact he ▸ .held hl' (hn'.trans hn)
  | up hk hs _ ih =>
    obtain ⟨k', hk', he⟩ := h.tokens _ _ hk
    exact .up hk' (he.trans hs) ih

theorem sees (h : Extends p q) {t : ℕ} {visible : List String} (hs : Sees p t visible) :
    Sees q t visible :=
  ⟨hs.1.trans_le h.length, fun name hn => h.visible (hs.2 name hn)⟩

theorem apply (f : Effect) (p : ProcessInst) : Extends p (f.apply p) := by
  have hlen : p.tokens.length ≤ (f.apply p).tokens.length := by
    rw [Effect.length_apply]; exact le_countAll [f] _
  refine ⟨fun t k hk => ?_, fun l hl => ?_, hlen⟩
  · cases f with
    | newToken s name =>
      refine ⟨k, ?_, rfl⟩
      simp only [Effect.apply, newToken]
      rw [List.getElem?_append_left (List.getElem?_eq_some_iff.1 hk).1, hk]
    | setNode s n =>
      simp only [Effect.apply, setNode, List.getElem?_modify, hk]
      by_cases hs : s = t <;> simp [hs]
    | target s name =>
      refine ⟨k, ?_, rfl⟩
      simp only [Effect.apply]
      split <;> exact hk
    | receive _ _ | timer _ _ | links _ _ | scope _ _ => exact ⟨k, hk, rfl⟩
  · cases f with
    | links s names =>
      exact ⟨l, List.mem_append_left _ hl, rfl, rfl⟩
    | target s name =>
      simp only [Effect.apply]
      split
      · exact ⟨l, hl, rfl, rfl⟩
      · rename_i i _
        obtain ⟨j, hj, rfl⟩ := List.getElem_of_mem hl
        refine ⟨_, List.getElem_mem (by simpa using hj), ?_⟩
        simp only [List.getElem_modify]
        split <;> exact ⟨rfl, rfl⟩
    | newToken _ _ | setNode _ _ | receive _ _ | timer _ _ | scope _ _ => exact ⟨l, hl, rfl, rfl⟩

theorem applyAll (fs : List Effect) (p : ProcessInst) : Extends p (applyAll fs p) := by
  induction fs generalizing p with
  | nil => exact .rfl
  | cons f fs ih => exact (apply f p).trans (ih _)

end Extends

theorem Starting.linkInstance {p : ProcessInst} (hp : Starting p) {name : String} {t : ℕ}
    (h : Visible p name t) : (p.linkInstance t name).isSome := by
  suffices ∀ n, t < n → (p.findLink name n t).isSome from this _ t.lt_succ_self
  induction h with
  | @held l hl hn =>
    intro n hlt
    obtain ⟨n, rfl⟩ := Nat.exists_eq_add_of_lt hlt
    have hi : (p.links.findIdx? fun k => k.holder = l.holder ∧ k.name = name).isSome := by
      rw [List.findIdx?_isSome, List.any_eq_true]
      exact ⟨l, hl, by simp [hn]⟩
    obtain ⟨i, hi⟩ := Option.isSome_iff_exists.1 hi
    simp only [findLink, hi, Option.isSome_some]
  | @up t s k hk hs _ ih =>
    intro n hlt
    obtain ⟨n, rfl⟩ := Nat.exists_eq_add_of_lt hlt
    simp only [findLink]
    split
    · rfl
    · have := hp.parents t k s hk hs
      simpa [hk, hs] using ih (t + n) (by omega)

theorem Starting.apply {p : ProcessInst} (hp : Starting p) {f : Effect}
    (hf : f.token < p.tokens.length) : Starting (f.apply p) := by
  have hl := Effect.length_apply f p
  cases f with
  | newToken s name =>
    refine ⟨?_, hp.undetermined, ?_, ?_⟩
    · simp only [Effect.apply, newToken, List.mem_append, List.mem_singleton]
      rintro k (hk | rfl)
      · exact hp.alive k hk
      · rfl
    · intro t k r hk hr
      simp only [Effect.apply, newToken, List.getElem?_append] at hk
      split at hk
      · exact hp.parents t k r hk hr
      · rw [List.getElem?_singleton] at hk
        split at hk
        · cases hk; cases hr
          simp only [Effect.token] at hf; omega
        · cases hk
    · rw [hl]
      exact ⟨fun r hr => (hp.bounded.1 r hr).trans (Nat.lt_succ_self _),
        fun r hr => (hp.bounded.2 r hr).trans (Nat.lt_succ_self _)⟩
  | setNode s n =>
    refine ⟨?_, hp.undetermined, ?_, ?_⟩
    · intro k hk
      obtain ⟨j, hj, rfl⟩ := List.getElem_of_mem hk
      simp only [Effect.apply, setNode, List.length_modify] at hj
      simp only [Effect.apply, setNode, List.getElem_modify]
      split <;> exact hp.alive p.tokens[j] (List.getElem_mem hj)
    · intro t k r hk hr
      simp only [Effect.apply, setNode, List.getElem?_modify, Option.map_eq_map,
        Option.map_eq_some_iff] at hk
      obtain ⟨k', hk', rfl⟩ := hk
      refine hp.parents t k' r hk' ?_
      split at hr <;> exact hr
    · rw [hl]; exact hp.bounded
  | receive a s =>
    refine ⟨hp.alive, hp.undetermined, hp.parents, ?_, hp.bounded.2⟩
    simp only [Effect.apply, List.mem_append, List.mem_singleton]
    rintro r (hr | rfl)
    · exact hp.bounded.1 r hr
    · exact hf
  | timer a s =>
    refine ⟨hp.alive, hp.undetermined, hp.parents, hp.bounded.1, ?_⟩
    simp only [Effect.apply, List.mem_append, List.mem_singleton]
    rintro r (hr | rfl)
    · exact hp.bounded.2 r hr
    · exact hf
  | links s names =>
    refine ⟨hp.alive, ?_, hp.parents, hp.bounded⟩
    simp only [Effect.apply, List.mem_append, List.mem_map]
    rintro l (hl | ⟨n, -, rfl⟩)
    · exact hp.undetermined l hl
    · rfl
  | scope id s => exact ⟨hp.alive, hp.undetermined, hp.parents, hp.bounded⟩
  | target s name =>
    simp only [Effect.apply]
    split
    · exact hp
    · refine ⟨hp.alive, ?_, hp.parents, hp.bounded⟩
      intro l hl
      obtain ⟨j, hj, rfl⟩ := List.getElem_of_mem hl
      rw [List.length_modify] at hj
      simp only [List.getElem_modify]
      split <;> exact hp.undetermined p.links[j] (List.getElem_mem hj)

theorem Starting.applyAll {P : ℕ → Prop} {fs : List Effect} {p : ProcessInst} (hp : Starting p)
    (hf : Confined P p.tokens.length fs) : Starting (applyAll fs p) := by
  induction fs generalizing p with
  | nil => exact hp
  | cons f fs ih => exact ih (hp.apply hf.1.2) (by rw [Effect.length_apply]; exact hf.2)

theorem Starting.hasEnded {p : ProcessInst} (hp : Starting p) (t : ℕ) : p.hasEnded t = false := by
  unfold ProcessInst.hasEnded
  rcases h : p.tokens[t]? with _ | k
  · rfl
  · exact hp.alive k (List.mem_of_getElem? h)

/-! ## Executing does what the effects do -/

theorem receiveAll_eq : ∀ {as : List ReceiveAction} {t : ℕ} {p : ProcessInst},
    (∀ a ∈ as, .no ∉ a.initiates) →
      receiveAll as t p = .ok (applyAll (as.map (.receive · t)) p)
  | [], _, _, _ => rfl
  | a :: as, t, p, h => by
    have ha := h a (List.mem_cons_self ..)
    have ih := @receiveAll_eq as t (Effect.apply p (.receive a t))
      fun b hb => h b (List.mem_cons_of_mem _ hb)
    rw [receiveAll, ProcessInst.receive, if_neg ha]
    exact ih

theorem createTimers_eq {e : Engine} : ∀ {as : List ℕ} {t : ℕ} {p : ProcessInst},
    (∀ a ∈ as, e.due a = true) →
      createTimers e as t p = .ok (applyAll (as.map (.timer · t)) p)
  | [], _, _, _ => rfl
  | a :: as, t, p, h => by
    have ih := @createTimers_eq e as t (Effect.apply p (.timer a t))
      fun b hb => h b (List.mem_cons_of_mem _ hb)
    rw [createTimers, if_pos (h a (List.mem_cons_self ..))]
    exact ih

theorem enableEvents_eq {e : Engine} {id t : ℕ} {onEvents : List ReceiveAction}
    {onAlarms : List ℕ} {p : ProcessInst} (hr : ∀ a ∈ onEvents, .no ∉ a.initiates)
    (ha : ∀ a ∈ onAlarms, e.due a = true) :
    p.enableEvents e id t onEvents onAlarms =
      .ok (applyAll (Activity.enableEvents id t p.tokens.length onEvents onAlarms) p) := by
  unfold ProcessInst.enableEvents Activity.enableEvents
  split
  · rfl
  · simp only [receiveAll_eq hr, createTimers_eq ha, applyAll_append]
    rfl

theorem newTokens_eq (as : List Activity) (t : ℕ) (p : ProcessInst) :
    as.foldl (fun p a => p.newToken t a.info.name) p =
      applyAll (as.map fun a => .newToken t a.info.name) p := by
  induction as generalizing p with
  | nil => rfl
  | cons a as ih => exact ih _

/-- The token of the links of a flow, of `n` tokens. -/
def linksToken (links : List String) (t n : ℕ) : ℕ := if links.isEmpty then t else n

theorem initializeLinks_eq {name : String} {links : List String} {t : ℕ} {p : ProcessInst}
    {activities : List Activity} :
    let q := (p.initializeLinks name links t).1
    (p.initializeLinks name links t).2 = linksToken links t p.tokens.length ∧
      q.createConcurrentTokens activities (linksToken links t p.tokens.length) =
        (applyAll (flowTokens name links activities t p.tokens.length) p,
          firstToken links p.tokens.length) := by
  unfold initializeLinks linksToken flowTokens firstToken createConcurrentTokens
  split
  · exact ⟨rfl, by rw [newTokens_eq]⟩
  · refine ⟨rfl, ?_⟩
    rw [newTokens_eq]
    simp only [newToken, List.length_append, List.length_singleton]
    rfl

theorem setTargetsToken_eq {t : ℕ} : ∀ {names : List String} {p : ProcessInst}, Starting p →
    Sees p t names → setTargetsToken t names p = .ok (applyAll (names.map (.target t)) p)
  | [], _, _, _ => rfl
  | name :: names, p, hp, hs => by
    obtain ⟨i, hi⟩ := Option.isSome_iff_exists.1
      (hp.linkInstance (hs.2 name (List.mem_cons_self ..)))
    have hs' : Sees p t names := ⟨hs.1, fun n hn => hs.2 n (List.mem_cons_of_mem _ hn)⟩
    have ih := @setTargetsToken_eq t names _ (hp.apply (f := .target t name) hs.1)
      ((Extends.apply (.target t name) p).sees hs')
    simp only [Effect.apply, hi] at ih
    simp only [setTargetsToken, hi, List.map_cons, applyAll_cons, Effect.apply, ih]

theorem Starting.areTargetsDetermined {p : ProcessInst} (hp : Starting p) (t : ℕ)
    {names : List String} (h : names.isEmpty = false) : p.areTargetsDetermined t names = false := by
  cases names with
  | nil => simp at h
  | cons name names =>
    simp only [ProcessInst.areTargetsDetermined, List.all_cons, Bool.and_eq_false_iff]
    refine .inl ?_
    split
    · rfl
    · rename_i i _
      rcases hl : p.links[i]? with _ | l
      · rfl
      · simp [hp.undetermined l (List.mem_of_getElem? hl)]

namespace Activity

variable {e : Engine} {p : ProcessInst} {t : ℕ} {visible : List String}

theorem enterWith_eq {a : Activity} {execute : ℕ → ProcessInst → Executed} {fs : List Effect}
    (hp : Starting p) (hs : Sees p t visible) (ha : a.Passes visible)
    (hx : a.info.targets.isEmpty = true →
      execute t (p.setNode t a.node) = .ok (applyAll fs (p.setNode t a.node))) :
    enterWith e a execute t p = .ok (applyAll (entered a t fs) p) := by
  have hp' : Starting (p.setNode t a.node) := hp.apply (f := .setNode t a.node) hs.1
  have hs' : Sees (p.setNode t a.node) t a.info.targets := by
    have := (Extends.apply (.setNode t a.node) p).sees hs
    exact ⟨this.1, fun name hn => this.2 name (ha.1 name hn)⟩
  rcases ht : a.info.targets.isEmpty with _ | _
  · -- the activity waits for its links
    have hq := setTargetsToken_eq hp' hs'
    have hc : Confined (fun _ => True) (p.setNode t a.node).tokens.length
        (a.info.targets.map (.target t)) :=
      confined_of_token trivial hs'.1 (by simp [Effect.token])
    have hd := (hp'.applyAll hc).areTargetsDetermined t ht
    simp only [enterWith, hp.hasEnded, ht, hq, entered, applyAll_cons, Effect.apply]
    simp only [Bool.false_eq_true, if_false, bind, Except.bind, hd]
    rfl
  · simp only [enterWith, hp.hasEnded, ht, hx ht, entered, applyAll_cons, Effect.apply,
      Bool.false_eq_true, if_false, if_true]

/-- The readers let the activities pass and none of them faults. -/
def Fine (e : Engine) (l : List (Activity × List String)) : Prop :=
  ∀ x ∈ l, x.1.Passes x.2 ∧ x.1.Quiet e

theorem Fine.reached {a : Activity} (h : Fine e (a.started visible))
    (ht : a.info.targets.isEmpty = true) : Fine e (a.reached visible) := by
  intro x hx
  refine h x (List.mem_cons_of_mem _ ?_)
  rwa [if_pos ht]

theorem Fine.quiet {a : Activity} (h : Fine e (a.started visible))
    (ht : a.info.targets.isEmpty = true) :
    (∀ r ∈ a.receptions, .no ∉ r.initiates) ∧ ∀ x ∈ a.alarms, e.due x = true :=
  (h _ (List.mem_cons_self ..)).2 ht

/-- The tokens `k`, …, `k + n - 1` exist and see the links. -/
def SeeAll (p : ProcessInst) (k n : ℕ) (visible : List String) : Prop :=
  ∀ j < n, Sees p (k + j) visible

theorem newTokens_parent : ∀ {as : List Activity} {t : ℕ} {p : ProcessInst} {j : ℕ},
    j < as.length → ∃ k : ActivityToken,
      (applyAll (as.map fun a => .newToken t a.info.name) p).tokens[p.tokens.length + j]? = some k ∧
        k.parent = some t
  | a :: as, t, p, 0, _ => by
    let q := p.newToken t a.info.name
    have hq : q.tokens[p.tokens.length]? =
        some ⟨some t, a.info.name, (p.tokens[t]?).bind (·.node), false⟩ := by simp [q, newToken]
    obtain ⟨k, hk, he⟩ := (Extends.applyAll (as.map fun a => .newToken t a.info.name) q).tokens _ _ hq
    exact ⟨k, hk, he⟩
  | a :: as, t, p, j + 1, h => by
    have hl : (p.newToken t a.info.name).tokens.length = p.tokens.length + 1 := by simp [newToken]
    have ih := @newTokens_parent as t (p.newToken t a.info.name) j (Nat.lt_of_succ_lt_succ h)
    rwa [hl, Nat.add_right_comm] at ih

/-- The token of a flow's links sees them too, and so do the concurrent tokens. -/
theorem seeAll_flowTokens {name : String} {links : List String} {activities : List Activity}
    (hs : Sees p t visible) :
    SeeAll (applyAll (flowTokens name links activities t p.tokens.length) p)
      (firstToken links p.tokens.length) activities.length (links ++ visible) := by
  intro j hj
  refine ⟨by rw [length_applyAll, countAll_flowTokens]; omega, ?_⟩
  unfold flowTokens firstToken
  split
  · rename_i hl
    obtain ⟨k, hk, he⟩ := @newTokens_parent activities t p j hj
    rw [List.isEmpty_iff.1 hl]
    intro name hn
    exact .up hk he ((Extends.applyAll _ p).visible (hs.2 name hn))
  · let q := applyAll [.newToken t name, .links p.tokens.length links] p
    have hlen : q.tokens.length = p.tokens.length + 1 := by rw [length_applyAll]; rfl
    obtain ⟨k, hk, he⟩ := @newTokens_parent activities p.tokens.length q j hj
    rw [hlen] at hk
    rw [applyAll_append]
    intro link hn
    refine .up hk he ((Extends.applyAll _ q).visible ?_)
    rcases List.mem_append.1 hn with hn | hn
    · have hm : (⟨p.tokens.length, link, none, none⟩ : LinkInst) ∈ q.links :=
        List.mem_append_right _ (List.mem_map_of_mem hn)
      exact .held hm rfl
    · have ht : q.tokens[p.tokens.length]? =
          some ⟨some t, name, (p.tokens[t]?).bind (·.node), false⟩ := by
        simp [q, Effect.apply, newToken]
      exact .up ht rfl ((Extends.applyAll _ p).visible (hs.2 link hn))

/-- The tokens of a scope; that of its activity sees what the scope's token sees. -/
theorem enterScope_eq (i : ActivityInfo) {onEvents : List ReceiveAction} {onAlarms : List ℕ}
    (activity : Activity) (hs : Sees p t visible)
    (hq : (∀ r ∈ onEvents, .no ∉ r.initiates) ∧ ∀ x ∈ onAlarms, e.due x = true) :
    let n := p.tokens.length
    let q := applyAll (scopeTokens i onEvents onAlarms activity t n) p
    ((p.newToken t i.name).createScope i.id n activity).enableEvents e i.id n onEvents onAlarms =
      .ok q ∧ Sees q (n + 1) visible := by
  intro n q
  let q' := (p.newToken t i.name).createScope i.id n activity
  have hq' : q = applyAll (Activity.enableEvents i.id n (n + 2) onEvents onAlarms) q' := by
    simp only [q, scopeTokens, applyAll_append]
    rfl
  have hn : q'.tokens.length = n + 2 := by simp [q', n, createScope, newToken]
  refine ⟨?_, ?_, fun name hv => ?_⟩
  · have := @enableEvents_eq e i.id n onEvents onAlarms q' hq.1 hq.2
    rwa [hn, ← hq'] at this
  · rw [length_applyAll]
    exact le_countAll (Activity.enableEvents i.id n (n + 2) onEvents onAlarms) (n + 2)
  · have h₁ : q'.tokens[n]? = some ⟨some t, i.name, (p.tokens[t]?).bind (·.node), false⟩ := by
      simp [q', n, createScope, newToken]
    have h₂ : ∃ k : ActivityToken, q'.tokens[n + 1]? = some k ∧ k.parent = some n := by
      simp [q', n, createScope, newToken]
    obtain ⟨k, hk, he⟩ := h₂
    have hx : Extends p q' := Extends.applyAll
      [.newToken t i.name, .newToken n activity.info.name, .scope i.id n] p
    rw [hq']
    exact (Extends.applyAll _ q').visible (.up hk he (.up h₁ rfl (hx.visible (hs.2 name hv))))

mutual

theorem execute_eq : ∀ (a : Activity) {t : ℕ} {p : ProcessInst} {visible : List String},
    Starting p → Sees p t visible → Fine e (a.started visible) → a.info.targets.isEmpty = true →
      execute e a t p = .ok (applyAll (executing a t p.tokens.length) p)
  | receive _ action, t, p, _, _, _, hf, ht => by
    rw [execute, ProcessInst.receive, if_neg ((hf.quiet ht).1 action (List.mem_singleton_self _))]
    rfl
  | pick _ onMessages onAlarms, t, p, _, _, _, hf, ht => by
    have hr := @receiveAll_eq onMessages t p (hf.quiet ht).1
    have ha := @createTimers_eq e onAlarms t (applyAll (onMessages.map (.receive · t)) p)
      (hf.quiet ht).2
    rw [execute, hr, executing, applyAll_append]
    exact ha
  | sequence _ first _, t, p, _, hp, hs, hf, ht => enter_eq first hp hs (hf.reached ht)
  | flow i links activities, t, p, _, hp, hs, hf, ht => by
    obtain ⟨h₁, h₂⟩ := @initializeLinks_eq i.name links t p activities
    have hc := @confined_flowTokens (fun _ => True) i.name links activities t _ trivial hs.1 trivial
    have ih := enterConcurrent_eq activities (linksToken links t p.tokens.length)
      (hp.applyAll hc) (seeAll_flowTokens hs) (hf.reached ht)
    rw [length_applyAll, countAll_flowTokens] at ih
    rw [execute, executing, applyAll_append, ← ih]
    simp only [h₁, h₂]
  | scope i onEvents onAlarms activity, t, p, visible, hp, hs, hf, ht => by
    obtain ⟨he, hs'⟩ := @enterScope_eq e p t visible i onEvents onAlarms activity hs (hf.quiet ht)
    have hc := @confined_scopeTokens (fun _ => True) i onEvents onAlarms activity t _ trivial hs.1
      trivial trivial
    have ih := enter_eq activity (hp.applyAll hc) hs' (hf.reached ht)
    rw [length_applyAll] at ih
    rw [execute, executing, applyAll_append]
    show (ProcessInst.enableEvents _ e _ _ onEvents onAlarms >>=
      enterWith e activity (execute e activity) _) = _
    rw [he]
    exact ih
  | other _ _ _, _, _, _, _, _, hf, ht => nomatch (hf _ (List.mem_cons_self ..)).1.2 ht

theorem enterConcurrent_eq : ∀ (as : List Activity) (flowToken : ℕ) {k : ℕ} {p : ProcessInst}
    {visible : List String}, Starting p → SeeAll p k as.length visible →
      Fine e (reachedAll visible as) → enterConcurrent e flowToken as k p =
        .ok (applyAll (enteringAll as k p.tokens.length) p)
  | [], _, _, _, _, _, _, _ => rfl
  | a :: as, flowToken, k, p, visible, hp, hs, hf => by
    have hk : Sees p k visible := hs 0 (by simp)
    let fs := entering a k p.tokens.length
    have ha : enterWith e a (execute e a) k p = .ok (applyAll fs p) :=
      enter_eq a hp hk fun x hx => hf x (by
        rw [reachedAll, ← List.cons_append]; exact List.mem_append_left _ hx)
    have hp' : Starting (applyAll fs p) := hp.applyAll
      (confined_entering (P := fun _ => True) a trivial hk.1 fun _ _ => trivial)
    have hs' : SeeAll (applyAll fs p) (k + 1) as.length visible := by
      intro j hj
      have := (Extends.applyAll fs p).sees (hs (j + 1) (by simp only [List.length_cons]; omega))
      rwa [← Nat.add_assoc, Nat.add_right_comm] at this
    have ih := enterConcurrent_eq as flowToken hp' hs' fun x hx => hf x (by
      rw [reachedAll, ← List.cons_append]; exact List.mem_append_right _ hx)
    rw [length_applyAll] at ih
    rw [enterConcurrent, enteringAll, applyAll_append]
    simp only [bind, Except.bind, ha, hp'.hasEnded]
    exact ih

theorem enter_eq : ∀ (a : Activity) {t : ℕ} {p : ProcessInst} {visible : List String},
    Starting p → Sees p t visible → Fine e (a.started visible) →
      enterWith e a (execute e a) t p = .ok (applyAll (entering a t p.tokens.length) p)
  | a, t, p, visible, hp, hs, hf => by
    refine enterWith_eq hp hs (hf _ (List.mem_cons_self ..)).1 fun ht => ?_
    have ih := execute_eq a (hp.apply (f := .setNode t a.node) hs.1)
      ((Extends.apply (.setNode t a.node) p).sees hs) hf ht
    rwa [Effect.length_apply] at ih

end

end Activity

end Jbpm
