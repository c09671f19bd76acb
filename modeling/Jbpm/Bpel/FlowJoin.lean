/-
  Processes that run flows: on any token, in other flows and in loops.

  * `JoinsOnce`: the parent token has left the flow once in every earlier execution, and
    once in this one if all concurrent tokens have ended, which have all been started then;
  * `Keeps`: what the steps of other tokens leave alone;
  * `joinsOnce_of_run`: so it is for all tokens and in all runs in which activities of a
    flow have different names and no flow without links comes after the elimination of one
    with links on the same token;
  * `not_joinsOnce`: a flow with links that is eliminated.
-/
import Jbpm.Lib.Run
import Jbpm.Bpel.Flow

namespace Jbpm

open Lib

namespace Flow

/-- An execution: the links token, if the flow has links, and the concurrent tokens, of which
    the first ones have been started. -/
structure Execution where
  flow : Flow
  links : Option ℕ
  tokens : List ℕ
  started : ℕ

variable {N : Type}

namespace Execution

/-- The parent of the concurrent tokens, in an execution on the token `p`. -/
def parent (e : Execution) (p : ℕ) : ℕ := e.links.getD p

def Done (e : Execution) (s : Tokens N) : Prop := ∀ x ∈ e.tokens, (s.status x).hasEnded = true

instance (e : Execution) (s : Tokens N) : Decidable (e.Done s) :=
  inferInstanceAs (Decidable (∀ x ∈ _, _))

end Execution

/-- The executions of flows on each token, the last one first, the links tokens of these, and
    the links tokens of flows that have been eliminated. -/
structure State (N : Type) where
  tokens : Tokens N
  executions : ℕ → List Execution
  links : List ℕ
  eliminated : List ℕ

inductive Step
  | execute (p : ℕ) (F : Flow)
  /-- the next concurrent token is sent to its activity -/
  | start (p : ℕ)
  /-- the activity of `x` has completed or has been skipped -/
  | leave (p x : ℕ)
  | eliminate (p : ℕ) (F : Flow)
  /-- another activity, such as a scope, creates a token -/
  | create (p : ℕ) (name : String)
  /-- and ends it when it is left -/
  | end_ (t : ℕ)

def step (s : State N) : Step → Option (State N)
  | .execute p F =>
    let (q, tokens) := F.initializeLinks p s.tokens
    let (ids, tokens) := createConcurrentTokens q F.activities tokens
    let links := if F.links.isEmpty then none else some q
    some { s with
      tokens := tokens
      executions := Function.update s.executions p (⟨F, links, ids, 0⟩ :: s.executions p)
      links := links.toList ++ s.links }
  | .start p =>
    match s.executions p with
    | [] => none
    | e :: earlier =>
      -- the loop is left when the parent of the concurrent tokens has ended
      if e.started = 0 ∨ (s.tokens.status (e.parent p)).hasEnded = false then
        some { s with executions :=
          Function.update s.executions p ({ e with started := e.started + 1 } :: earlier) }
      else none
  | .leave p x => do
    let e ← (s.executions p).find? fun e => x ∈ e.tokens.take e.started
    let tokens ← e.flow.leave s.tokens.tree.size x s.tokens
    some { s with tokens := tokens }
  | .eliminate p F =>
    some { s with
      tokens := F.eliminatePath p s.tokens
      eliminated := if F.links.isEmpty then s.eliminated else s.tokens.tree.size :: s.eliminated }
  | .create p name => some { s with tokens := s.tokens.create p name }
  | .end_ t => (s.tokens.end_ s.tokens.tree.size false t).map fun tokens =>
      { s with tokens := tokens }

namespace State

/-- No flow is being executed on the token. -/
def Idle (s : State N) (p : ℕ) : Prop := ∀ e ∈ (s.executions p).head?, e.Done s.tokens

/-- Nor on a token below it. -/
def Quiet (s : State N) (t : ℕ) : Prop :=
  ∀ p < s.tokens.tree.size, s.tokens.tree.forest.Within t p → s.Idle p

instance (s : State N) (p : ℕ) : Decidable (s.Idle p) :=
  inferInstanceAs (Decidable (∀ e ∈ _, _))

instance (s : State N) (t : ℕ) : Decidable (s.Quiet t) :=
  inferInstanceAs (Decidable (∀ p < _, _))

end State

/-- A token executes one activity at a time; while it does, it waits for the tokens below it.
    Left-over links tokens are not waited for. -/
def Legal (s : State N) : Step → Prop
  | .execute p _ => p < s.tokens.tree.size ∧ (s.tokens.status p).hasEnded = false ∧
      p ∉ s.links ∧ s.Idle p ∧ ∀ x < s.tokens.tree.size, s.tokens.tree.parent x = some p →
        x ∈ s.eliminated ∨ (s.tokens.status x).hasEnded = true
  | .start p => ∃ e ∈ (s.executions p).head?, e.started < e.tokens.length
  | .leave p x => (∃ e ∈ s.executions p, x ∈ e.tokens.take e.started) ∧ s.Quiet x
  | .eliminate p _ => p < s.tokens.tree.size ∧ p ∉ s.links ∧ s.Idle p
  | .create p _ => p < s.tokens.tree.size ∧ p ∉ s.links ∧ s.Idle p
  | .end_ t => t < s.tokens.tree.size ∧ s.Quiet t ∧
      ∀ p ∈ s.tokens.tree.parent t, p ∉ s.links ∧ s.Idle p

/-- The parent token has left the flow once per execution, when the last concurrent token
    had ended, and then all of them had been started. -/
def JoinsOnce (s : State N) (p : ℕ) : Prop :=
  (s.tokens.left.count p = match s.executions p with
    | [] => 0
    | e :: earlier => earlier.length + if e.Done s.tokens then 1 else 0) ∧
  ∀ e ∈ s.executions p, e.Done s.tokens → e.started = e.tokens.length

/-- The activities of a flow have different names; and if it has no links, then no links
    token of an eliminated flow is a child of its parent token, unless a concurrent token
    replaces it. -/
def Undisturbed (s : State N) : Step → Prop
  | .execute p F => F.activities.Nodup ∧ (F.links.isEmpty = true →
      ∀ c ∈ s.tokens.tree.children p, c.2 ∈ s.eliminated → c.1 ∈ F.activities)
  | _ => True

instance (s : State N) : ∀ l, Decidable (Legal s l)
  | .execute _ _ => inferInstanceAs (Decidable (_ ∧ _ ∧ _ ∧ _ ∧ _))
  | .start _ => inferInstanceAs (Decidable (∃ e ∈ _, _))
  | .leave _ _ => inferInstanceAs (Decidable (_ ∧ _))
  | .eliminate _ _ => inferInstanceAs (Decidable (_ ∧ _ ∧ _))
  | .create _ _ => inferInstanceAs (Decidable (_ ∧ _ ∧ _))
  | .end_ _ => inferInstanceAs (Decidable (_ ∧ _ ∧ ∀ p ∈ _, _))

instance (s : State N) : ∀ l, Decidable (Undisturbed s l)
  | .execute _ _ => inferInstanceAs (Decidable (_ ∧ _))
  | .start _ | .leave _ _ | .eliminate _ _ | .create _ _ | .end_ _ => .isTrue trivial

instance (s : State N) (p : ℕ) : Decidable (JoinsOnce s p) :=
  inferInstanceAs (Decidable (_ ∧ _))

/-! ## The invariant -/

/-- A flow that is being executed on `p`: its concurrent tokens are the children that can
    reactivate the parent, as long as they have not ended. -/
structure Running (s : Tokens N) (p : ℕ) (e : Execution) : Prop where
  nodup : e.tokens.Nodup
  active : (s.status p).hasEnded = false
  active_parent : (s.status (e.parent p)).hasEnded = false
  child : ∀ x ∈ e.tokens, ∃ c ∈ s.tree.children (e.parent p), c.2 = x
  able : ∀ x ∈ e.tokens, (s.status x).hasEnded = false →
    (s.status x).isAbleToReactivateParent = true
  siblings : ∀ c ∈ s.tree.children (e.parent p),
    (s.status c.2).isAbleToReactivateParent = true → c.2 ∈ e.tokens
  started_le : e.started ≤ e.tokens.length
  unstarted : ∀ x ∈ e.tokens.drop e.started, (s.status x).hasEnded = false
  only : ∀ l ∈ e.links, ∀ c ∈ s.tree.children l, c.2 ∈ e.tokens

/-- What holds of the executions on one token. -/
structure State.At (s : State N) (p : ℕ) : Prop where
  once : JoinsOnce s p
  earlier : ∀ e ∈ (s.executions p).tail, e.Done s.tokens
  parent : ∀ e ∈ s.executions p, ∀ x ∈ e.tokens, s.tokens.tree.parent x = some (e.parent p)
  links : ∀ e ∈ s.executions p, ∀ l ∈ e.links, l ∈ s.links ∧ s.tokens.tree.parent l = some p
  isNone : ∀ e ∈ s.executions p, e.flow.links.isEmpty = e.links.isNone
  running : ∀ e ∈ (s.executions p).head?, ¬ e.Done s.tokens → Running s.tokens p e

/-- Tokens that have ended cannot reactivate their parents. -/
def Unable (s : Tokens N) : Prop :=
  ∀ x, (s.status x).hasEnded = true → (s.status x).isAbleToReactivateParent = false

structure Inv (s : State N) : Prop where
  unable : Unable s.tokens
  size : ∀ p, s.executions p ≠ [] → p < s.tokens.tree.size
  links : ∀ l ∈ s.links, l < s.tokens.tree.size ∧ s.executions l = []
  at_ : ∀ p, s.At p

/-- A step elsewhere: the executions on `p` go on as before. -/
structure Keeps (p : ℕ) (s s' : State N) : Prop where
  executions : s'.executions p = s.executions p
  left : s'.tokens.left.count p = s.tokens.left.count p
  parent : ∀ x q, s.tokens.tree.parent x = some q → s'.tokens.tree.parent x = some q
  links : ∀ l ∈ s.links, l ∈ s'.links
  ended : ∀ x < s.tokens.tree.size, (s.tokens.status x).hasEnded = true →
    (s'.tokens.status x).hasEnded = true
  running : ∀ e ∈ (s.executions p).head?, ¬ e.Done s.tokens → Running s.tokens p e →
    Running s'.tokens p e ∧ ¬ e.Done s'.tokens

variable {s s' : State N} {p : ℕ}

theorem State.At.keeps (h : s.At p) (hk : Keeps p s s') : s'.At p := by
  have hdone : ∀ e ∈ s.executions p, e.Done s.tokens → e.Done s'.tokens := fun e he hd x hx =>
    hk.ended x (s.tokens.tree.lt_size (h.parent e he x hx)) (hd x hx)
  have hiff : ∀ e ∈ (s.executions p).head?, e.Done s'.tokens ↔ e.Done s.tokens := by
    intro e he
    refine ⟨fun hd => ?_, hdone e (List.mem_of_mem_head? he)⟩
    by_contra hn
    exact (hk.running e he hn (h.running e he hn)).2 hd
  constructor
  · constructor
    · rw [hk.left, hk.executions, h.once.1]
      rcases he : s.executions p with _ | ⟨e, earlier⟩
      · rfl
      · simp only [hiff e (by rw [he]; rfl)]
    · intro e he hd
      rw [hk.executions] at he
      refine h.once.2 e he ?_
      rcases hes : s.executions p with _ | ⟨e', earlier⟩
      · rw [hes] at he
        cases he
      · rw [hes] at he
        rcases List.mem_cons.1 he with rfl | he
        · exact (hiff e (by rw [hes]; rfl)).1 hd
        · exact h.earlier e (by rw [hes]; exact he)
  · intro e he
    rw [hk.executions] at he
    exact hdone e (List.mem_of_mem_tail he) (h.earlier e he)
  · intro e he x hx
    rw [hk.executions] at he
    exact hk.parent _ _ (h.parent e he x hx)
  · intro e he l hl
    rw [hk.executions] at he
    obtain ⟨hl', hp⟩ := h.links e he l hl
    exact ⟨hk.links l hl', hk.parent _ _ hp⟩
  · intro e he
    rw [hk.executions] at he
    exact h.isNone e he
  · intro e he hd
    rw [hk.executions] at he
    rw [hiff e he] at hd
    exact (hk.running e he hd (h.running e he hd)).1

/-- The tokens of the execution are left alone. -/
theorem Running.keeps {s s' : Tokens N} {e : Execution} (h : Running s p e) (hd : ¬ e.Done s)
    (hp : s'.status p = s.status p) (hq : s'.status (e.parent p) = s.status (e.parent p))
    (htokens : ∀ x ∈ e.tokens, s'.status x = s.status x)
    (hchildren : s'.tree.children (e.parent p) = s.tree.children (e.parent p))
    (hable : ∀ x, (∃ q, s.tree.parent x = some q) →
      (s'.status x).isAbleToReactivateParent = true → (s.status x).isAbleToReactivateParent = true) :
    Running s' p e ∧ ¬ e.Done s' := by
  refine ⟨?_, fun hd' => hd fun x hx => htokens x hx ▸ hd' x hx⟩
  constructor
  · exact h.nodup
  · rw [hp]
    exact h.active
  · rw [hq]
    exact h.active_parent
  · rw [hchildren]
    exact h.child
  · intro x hx
    rw [htokens x hx]
    exact h.able x hx
  · rw [hchildren]
    exact fun c hc hc' => h.siblings c hc (hable c.2 ⟨_, s.tree.parent_of_mem hc⟩ hc')
  · exact h.started_le
  · intro x hx
    rw [htokens x (List.mem_of_mem_drop hx)]
    exact h.unstarted x hx
  · intro l hl c hc
    have hlp : e.parent p = l := by rw [Execution.parent, Option.mem_def.1 hl, Option.getD_some]
    rw [← hlp, hchildren, hlp] at hc
    exact h.only l hl c hc

/-! ## Steps of other tokens -/

theorem Keeps.refl (p : ℕ) (s : State N) : Keeps p s s where
  executions := rfl
  left := rfl
  parent _ _ h := h
  links _ h := h
  ended _ _ h := h
  running _ _ hd hr := ⟨hr, hd⟩

theorem Keeps.trans {s₁ : State N} (h : Keeps p s s₁) (h' : Keeps p s₁ s')
    (hsize : s.tokens.tree.size ≤ s₁.tokens.tree.size) : Keeps p s s' where
  executions := h'.executions.trans h.executions
  left := h'.left.trans h.left
  parent x q hx := h'.parent x q (h.parent x q hx)
  links l hl := h'.links l (h.links l hl)
  ended x hx he := h'.ended x (hx.trans_le hsize) (h.ended x hx he)
  running e he hd hr := by
    obtain ⟨hr', hd'⟩ := h.running e he hd hr
    exact h'.running e (h.executions ▸ he) hd' hr'

/-- New tokens below another token. -/
theorem State.At.keeps_created (h : s.At p) {q : ℕ} {ids : List ℕ}
    (hc : s.tokens.Created q ids s'.tokens) (hexec : s'.executions p = s.executions p)
    (hlinks : ∀ l ∈ s.links, l ∈ s'.links)
    (hchildren : ∀ x ≠ q, s'.tokens.tree.children x = s.tokens.tree.children x)
    (hrunning : ∀ e ∈ (s.executions p).head?, ¬ e.Done s.tokens → p < s.tokens.tree.size ∧
      e.parent p < s.tokens.tree.size ∧ e.parent p ≠ q) : Keeps p s s' where
  executions := hexec
  left := by rw [hc.left]
  parent x r hx := (hc.old x (s.tokens.tree.lt_size hx)).1.trans hx
  links := hlinks
  ended x hx he := by
    rw [(hc.old x hx).2]
    exact he
  running e he hd hr := by
    obtain ⟨hp, hq, hne⟩ := hrunning e he hd
    refine hr.keeps hd (hc.old p hp).2 (hc.old _ hq).2 (fun x hx => ?_) (hchildren _ hne)
      fun x ⟨r, hx⟩ hable => ?_
    · exact (hc.old x (s.tokens.tree.lt_size (h.parent e (List.mem_of_mem_head? he) x hx))).2
    · rwa [(hc.old x (s.tokens.tree.lt_size hx)).2] at hable

/-- Tokens that end elsewhere. -/
theorem keeps_ends {Q : ℕ → Prop} {st : ℕ → TokenStatus N} {left : List ℕ}
    (hends : Token.Ends Q s.tokens.status st)
    (hleft : left.count p = s.tokens.left.count p)
    (hrunning : ∀ e ∈ (s.executions p).head?, ¬ e.Done s.tokens →
      ¬ Q p ∧ ¬ Q (e.parent p) ∧ ∀ x ∈ e.tokens, ¬ Q x) :
    Keeps p s { s with tokens := { s.tokens with status := st, left := left } } where
  executions := rfl
  left := hleft
  parent _ _ hx := hx
  links _ hl := hl
  ended _ _ he := hends.hasEnded he
  running e he hd hr := by
    obtain ⟨hp, hq, htokens⟩ := hrunning e he hd
    refine hr.keeps hd (hends.eq hp) (hends.eq hq) (fun x hx => hends.eq (htokens x hx)) rfl
      fun x _ hable => ?_
    change (st x).isAbleToReactivateParent = true at hable
    rcases hends x with heq | ⟨-, -, heq⟩
    · rwa [← heq]
    · rw [heq] at hable
      cases hable

section Owner

variable {e e' : Execution} {p' q t : ℕ}

theorem State.At.parent_eq (h : s.At p) (he : e ∈ s.executions p) :
    e.parent p = p ∨ e.parent p ∈ s.links ∧ s.tokens.tree.parent (e.parent p) = some p := by
  rcases hl : e.links with _ | l
  · exact .inl (by rw [Execution.parent, hl, Option.getD_none])
  · have hlp : e.parent p = l := by rw [Execution.parent, hl, Option.getD_some]
    rw [hlp]
    exact .inr (h.links e he l hl)

/-- Links tokens do not execute flows. -/
theorem Inv.eq_of_parent_eq (h : Inv s) (he : e ∈ s.executions p) (hp' : s.executions p' ≠ [])
    (heq : e.parent p = p') : p = p' := by
  rcases (h.at_ p).parent_eq he with hp | ⟨hl, -⟩
  · exact hp.symm.trans heq
  · exact absurd (h.links _ (heq ▸ hl)).2 hp'

theorem Inv.eq_of_parent_eq_parent (h : Inv s) (he : e ∈ s.executions p)
    (he' : e' ∈ s.executions p') (heq : e.parent p = e'.parent p') : p = p' := by
  rcases (h.at_ p').parent_eq he' with hp' | ⟨-, hl'⟩
  · exact h.eq_of_parent_eq he (List.ne_nil_of_mem he') (heq.trans hp')
  · rcases (h.at_ p).parent_eq he with hp | ⟨-, hl⟩
    · exact (h.eq_of_parent_eq he' (List.ne_nil_of_mem he) (heq.symm.trans hp)).symm
    · rw [heq, hl'] at hl
      exact (Option.some.inj hl).symm

/-- A token with nothing running in it does not contain a token that runs a flow. -/
theorem Inv.not_within_of_quiet (h : Inv s) (ht : s.Quiet t)
    (he : e ∈ (s.executions p).head?) (hd : ¬ e.Done s.tokens) (hq : t ≠ e.parent p)
    (htokens : t ∉ e.tokens) :
    ¬ s.tokens.tree.forest.Within t p ∧ ¬ s.tokens.tree.forest.Within t (e.parent p) ∧
      ∀ x ∈ e.tokens, ¬ s.tokens.tree.forest.Within t x := by
  have hmem := List.mem_of_mem_head? he
  have hp : ¬ s.tokens.tree.forest.Within t p := fun hw =>
    hd (ht p (h.size p (List.ne_nil_of_mem hmem)) hw e he)
  have hparent : ¬ s.tokens.tree.forest.Within t (e.parent p) := by
    rcases (h.at_ p).parent_eq hmem with heq | ⟨-, hl⟩
    · rwa [heq]
    · rintro (hw | hw)
      · exact hq hw
      · exact hp ((Forest.mem_ancestors_of_parent hl).1 hw)
  refine ⟨hp, hparent, fun x hx => ?_⟩
  rintro (rfl | hw)
  · exact htokens hx
  · exact hparent ((Forest.mem_ancestors_of_parent ((h.at_ p).parent e hmem x hx)).1 hw)

end Owner

/-! ## Tokens of other activities -/

section Others

variable {q t : ℕ} {name : String}

theorem Unable.create {s : Tokens N} (h : Unable s) (q : ℕ) (name : String) :
    Unable (s.create q name) := by
  intro x hx
  by_cases hxs : x = s.tree.size
  · subst hxs
    rw [show (s.create q name).status s.tree.size = ⟨(s.status q).node, false, true⟩ from
      Function.update_self _ _ _] at hx
    cases hx
  · rw [show (s.create q name).status x = s.status x from Function.update_of_ne hxs _ _] at hx ⊢
    exact h x hx

theorem Unable.ends {s : Tokens N} (h : Unable s) {Q : ℕ → Prop} {st : ℕ → TokenStatus N}
    (hends : Token.Ends Q s.status st) (left : List ℕ) :
    Unable { s with status := st, left := left } := by
  intro x hx
  change (st x).hasEnded = true at hx
  change (st x).isAbleToReactivateParent = false
  rcases hends x with heq | ⟨-, -, heq⟩
  · rw [heq] at hx ⊢
    exact h x hx
  · rw [heq]
    rfl

/-- A token that runs no flow gets a child. -/
theorem Inv.created (h : Inv s) (hq : q < s.tokens.tree.size) (hl : q ∉ s.links)
    (hi : s.Idle q) (htokens : s'.tokens = s.tokens.create q name)
    (hexec : s'.executions = s.executions) (hlinks : s'.links = s.links) : Inv s' := by
  have hsize := (Tokens.create_tree (s := s.tokens) hq name).1
  rw [← htokens] at hsize
  constructor
  · rw [htokens]
    exact h.unable.create q name
  · intro p hp
    rw [hexec] at hp
    have hlt := h.size p hp
    omega
  · intro l hl
    rw [hlinks] at hl
    obtain ⟨hlt, hnil⟩ := h.links l hl
    rw [hexec]
    exact ⟨by omega, hnil⟩
  · intro p
    have hc : s.tokens.Created q [s.tokens.tree.size] s'.tokens :=
      htokens ▸ Tokens.created_create hq name
    refine (h.at_ p).keeps ((h.at_ p).keeps_created hc (by rw [hexec]) (fun l hl => hlinks ▸ hl)
      (fun x hx => ?_) fun e he hd => ?_)
    · rw [htokens, Tokens.children_create_of_ne hq hx]
    · have hmem := List.mem_of_mem_head? he
      have hp := h.size p (List.ne_nil_of_mem hmem)
      rcases (h.at_ p).parent_eq hmem with heq | ⟨hl', -⟩
      · rw [heq]
        refine ⟨hp, hp, ?_⟩
        rintro rfl
        exact hd (hi e he)
      · refine ⟨hp, (h.links _ hl').1, ?_⟩
        rintro rfl
        exact hl hl'

theorem Inv.eliminate {F : Flow} (h : Inv s) (hlegal : Legal s (.eliminate p F))
    (hs : step s (.eliminate p F) = some s') : Inv s' := by
  obtain ⟨hp, hl, hi⟩ := hlegal
  obtain rfl := Option.some.inj hs
  by_cases hlinks : F.links.isEmpty = true
  · simp only [eliminatePath, initializeLinks, if_pos hlinks]
    exact h
  · simp only [eliminatePath, initializeLinks, if_neg hlinks]
    exact h.created hp hl hi rfl rfl rfl

theorem Inv.end_ (h : Inv s) (hlegal : Legal s (.end_ t)) :
    ∃ s', step s (.end_ t) = some s' ∧ Inv s' := by
  obtain ⟨ht, hquiet, hparent⟩ := hlegal
  obtain ⟨st, hst, hends, -⟩ := Token.end_below (T := s.tokens.tree) (v := false)
    (Token.active_le s.tokens.status) ht (.inl rfl)
  refine ⟨{ s with tokens := { s.tokens with status := st } }, ?_, ?_⟩
  · rw [step, Tokens.end_, hst]
    rfl
  constructor
  · exact h.unable.ends hends _
  · exact h.size
  · exact h.links
  · intro p
    refine (h.at_ p).keeps (keeps_ends hends rfl fun e he hd => ?_)
    have hmem := List.mem_of_mem_head? he
    refine h.not_within_of_quiet hquiet he hd ?_ ?_
    · intro heq
      rcases (h.at_ p).parent_eq hmem with hp | ⟨-, hl⟩
      · exact hd (hquiet p (h.size p (List.ne_nil_of_mem hmem)) (.inl (heq.trans hp)) e he)
      · exact hd ((hparent p (by rw [heq, hl]; rfl)).2 e he)
    · intro hmem'
      obtain ⟨hl, hi⟩ := hparent _ ((h.at_ p).parent e hmem t hmem')
      rcases (h.at_ p).parent_eq hmem with hp | ⟨hl', -⟩
      · rw [hp] at hi
        exact hd (hi e he)
      · exact hl hl'

end Others

/-! ## Executing a flow -/

theorem Unable.createConcurrentTokens {s : Tokens N} (h : Unable s) (q : ℕ)
    (activities : List String) : Unable (createConcurrentTokens q activities s).2 := by
  induction activities generalizing s with
  | nil => exact h
  | cons activity activities ih => exact ih (h.create q activity)

/-- The next token is started, unless the parent of the concurrent tokens has ended. -/
theorem Inv.start (h : Inv s) (hlegal : Legal s (.start p)) :
    ∃ s', step s (.start p) = some s' ∧ Inv s' := by
  obtain ⟨e, he, hlt⟩ := hlegal
  have hp := h.at_ p
  rcases hes : s.executions p with _ | ⟨e', earlier⟩
  · rw [hes] at he
    cases he
  obtain rfl : e' = e := by
    rw [hes] at he
    exact Option.some.inj he
  have hmem : e' ∈ s.executions p := List.mem_of_mem_head? he
  have hd : ¬ e'.Done s.tokens := fun hd => by
    have heq := hp.once.2 e' hmem hd
    omega
  have hr := hp.running e' he hd
  refine ⟨_, by rw [step, hes]; exact if_pos (.inr hr.active_parent), ?_⟩
  have hself : (Function.update s.executions p ({ e' with started := e'.started + 1 } :: earlier)) p =
      { e' with started := e'.started + 1 } :: earlier := Function.update_self _ _ _
  have hd' : ¬ Execution.Done { e' with started := e'.started + 1 } s.tokens := hd
  have hne : ∀ r, r ≠ p → (Function.update s.executions p
      ({ e' with started := e'.started + 1 } :: earlier)) r = s.executions r :=
    fun r hr => Function.update_of_ne hr _ _
  constructor
  · exact h.unable
  · intro r hr
    by_cases hrp : r = p
    · exact hrp ▸ h.size p (List.ne_nil_of_mem hmem)
    · exact h.size r (hne r hrp ▸ hr)
  · intro l hl
    obtain ⟨hsize, hnil⟩ := h.links l hl
    refine ⟨hsize, (hne l ?_).trans hnil⟩
    rintro rfl
    rw [hes] at hnil
    cases hnil
  · intro r
    by_cases hrp : r = p
    · subst hrp
      have honce := hp.once
      rw [JoinsOnce, hes] at honce
      constructor
      · refine ⟨?_, fun e he hde => ?_⟩
        · simp only [hself, if_neg hd']
          rw [honce.1]
          simp only [if_neg hd]
        · simp only [hself] at he
          rcases List.mem_cons.1 he with rfl | he
          · exact absurd hde hd'
          · exact honce.2 e (List.mem_cons_of_mem _ he) hde
      · intro e he
        simp only [hself] at he
        exact hp.earlier e (by rw [hes]; exact he)
      · intro e he
        simp only [hself] at he
        rcases List.mem_cons.1 he with rfl | he
        · exact hp.parent e' hmem
        · exact hp.parent e (by rw [hes]; exact List.mem_cons_of_mem _ he)
      · intro e he
        simp only [hself] at he
        rcases List.mem_cons.1 he with rfl | he
        · exact hp.links e' hmem
        · exact hp.links e (by rw [hes]; exact List.mem_cons_of_mem _ he)
      · intro e he
        simp only [hself] at he
        rcases List.mem_cons.1 he with rfl | he
        · exact hp.isNone e' hmem
        · exact hp.isNone e (by rw [hes]; exact List.mem_cons_of_mem _ he)
      · intro e he _
        simp only [hself] at he
        obtain rfl := Option.some.inj he
        exact ⟨hr.nodup, hr.active, hr.active_parent, hr.child, hr.able, hr.siblings, hlt,
          fun x hx => hr.unstarted x (List.drop_subset_drop_left _ (Nat.le_succ _) hx), hr.only⟩
    · refine (h.at_ r).keeps ⟨hne r hrp, rfl, fun _ _ h => h, fun _ h => h, fun _ _ h => h,
        fun e _ hd hr => ⟨hr, hd⟩⟩

/-- A new execution, after those that are done. -/
theorem State.At.execute (h : s.At p) (hi : s.Idle p) {e : Execution}
    (hexec : s'.executions p = e :: s.executions p)
    (hleft : s'.tokens.left = s.tokens.left) (hlinks : ∀ l ∈ s.links, l ∈ s'.links)
    (hold : ∀ x < s.tokens.tree.size, s'.tokens.tree.parent x = s.tokens.tree.parent x ∧
      s'.tokens.status x = s.tokens.status x)
    (hparent : ∀ x ∈ e.tokens, s'.tokens.tree.parent x = some (e.parent p))
    (hl : ∀ l ∈ e.links, l ∈ s'.links ∧ s'.tokens.tree.parent l = some p)
    (hn : e.flow.links.isEmpty = e.links.isNone)
    (hd : ¬ e.Done s'.tokens) (hr : Running s'.tokens p e) : s'.At p := by
  -- all executions before this one are done
  have hdone : ∀ e' ∈ s.executions p, e'.Done s.tokens := by
    intro e' he'
    rcases hes : s.executions p with _ | ⟨e₀, earlier⟩
    · rw [hes] at he'
      cases he'
    · rw [hes] at he'
      rcases List.mem_cons.1 he' with rfl | he'
      · exact hi _ (by rw [hes]; rfl)
      · exact h.earlier e' (by rw [hes]; exact he')
  have hlt : ∀ e' ∈ s.executions p, ∀ x ∈ e'.tokens, x < s.tokens.tree.size :=
    fun e' he' x hx => s.tokens.tree.lt_size (h.parent e' he' x hx)
  constructor
  · constructor
    · rw [hexec, hleft, h.once.1]
      simp only [if_neg hd]
      rcases hes : s.executions p with _ | ⟨e₀, earlier⟩
      · rfl
      · simp only [if_pos (hdone e₀ (by rw [hes]; exact List.mem_cons_self)), List.length_cons,
          Nat.add_zero]
    · intro e' he' hde
      rw [hexec] at he'
      rcases List.mem_cons.1 he' with rfl | he'
      · exact absurd hde hd
      · exact h.once.2 e' he' (hdone e' he')
  · intro e' he' x hx
    rw [hexec] at he'
    rw [(hold x (hlt e' he' x hx)).2]
    exact hdone e' he' x hx
  · intro e' he' x hx
    rw [hexec] at he'
    rcases List.mem_cons.1 he' with rfl | he'
    · exact hparent x hx
    · rw [(hold x (hlt e' he' x hx)).1]
      exact h.parent e' he' x hx
  · intro e' he' l hl'
    rw [hexec] at he'
    rcases List.mem_cons.1 he' with rfl | he'
    · exact hl l hl'
    · obtain ⟨hmem, hpl⟩ := h.links e' he' l hl'
      rw [(hold l (s.tokens.tree.lt_size hpl)).1]
      exact ⟨hlinks l hmem, hpl⟩
  · intro e' he'
    rw [hexec] at he'
    rcases List.mem_cons.1 he' with rfl | he'
    · exact hn
    · exact h.isNone e' he'
  · intro e' he' _
    rw [hexec] at he'
    obtain rfl := Option.some.inj he'
    exact hr

/-- Concurrent tokens that have just been created below `q`. -/
theorem running_createConcurrentTokens {s : Tokens N} (hu : Unable s) {F : Flow}
    {links : Option ℕ} {q : ℕ}
    (hq : q < s.tree.size) (hp : p < s.tree.size) (hpq : links.getD p = q)
    (hactive : (s.status p).hasEnded = false) (hactive' : (s.status q).hasEnded = false)
    (hnodup : F.activities.Nodup)
    (hchildren : ∀ c ∈ s.tree.children q, c.1 ∉ F.activities → (s.status c.2).hasEnded = true)
    (hlinks : ∀ l ∈ links, s.tree.children l = []) :
    Running (createConcurrentTokens q F.activities s).2 p
        ⟨F, links, (createConcurrentTokens q F.activities s).1, 0⟩ ∧
      ¬ Execution.Done ⟨F, links, (createConcurrentTokens q F.activities s).1, 0⟩
        (createConcurrentTokens q F.activities s).2 := by
  have hc := created_createConcurrentTokens hq F.activities
  have hnew : ∀ x ∈ (createConcurrentTokens q F.activities s).1,
      ((createConcurrentTokens q F.activities s).2.status x).hasEnded = false := by
    intro x hx
    rw [(hc.new x hx).2.2]
  constructor
  · constructor
    · exact hc.nodup
    · rw [(hc.old p hp).2]
      exact hactive
    · simp only [Execution.parent, hpq]
      rw [(hc.old q hq).2]
      exact hactive'
    · simp only [Execution.parent, hpq]
      exact fun x hx => mem_children_of_nodup hq hnodup hx
    · intro x hx _
      rw [(hc.new x hx).2.2]
    · simp only [Execution.parent, hpq]
      intro c hmem hable
      rcases mem_old_or_new hq hmem with hnew | ⟨hold, hnot⟩
      · exact hnew
      · rw [(hc.old c.2 (s.tree.lt_size (s.tree.parent_of_mem hold))).2,
          hu c.2 (hchildren c hold hnot)] at hable
        cases hable
    · exact Nat.zero_le _
    · exact fun x hx => hnew x hx
    · intro l hl c hmem
      obtain rfl : q = l := by rw [← hpq, show links = some l from hl, Option.getD_some]
      rcases hc.children c hmem with hold | hnew
      · rw [hlinks _ hl] at hold
        cases hold
      · exact hnew
  · intro hd
    have hlength := length_createConcurrentTokens q F.activities s
    have hpos := List.length_pos_iff.2 F.activities_ne
    obtain ⟨x, hx⟩ := List.exists_mem_of_length_pos (hlength ▸ hpos)
    have hended := hd x hx
    rw [hnew x hx] at hended
    cases hended

theorem step_execute_of_isEmpty {F : Flow} (hl : F.links.isEmpty = true) :
    step s (.execute p F) = some { s with
      tokens := (createConcurrentTokens p F.activities s.tokens).2
      executions := Function.update s.executions p
        (⟨F, none, (createConcurrentTokens p F.activities s.tokens).1, 0⟩ :: s.executions p) } := by
  simp only [step, initializeLinks, if_pos hl]
  rfl

theorem step_execute_of_links {F : Flow} (hl : F.links.isEmpty = false) :
    step s (.execute p F) = some { s with
      tokens := (createConcurrentTokens s.tokens.tree.size F.activities (s.tokens.create p F.name)).2
      executions := Function.update s.executions p (⟨F, some s.tokens.tree.size,
        (createConcurrentTokens s.tokens.tree.size F.activities (s.tokens.create p F.name)).1, 0⟩ ::
          s.executions p)
      links := s.tokens.tree.size :: s.links } := by
  have hl' : ¬ F.links.isEmpty = true := by rw [hl]; exact Bool.false_ne_true
  simp only [step, initializeLinks, if_neg hl']
  rfl

theorem Inv.execute {F : Flow} (h : Inv s) (hlegal : Legal s (.execute p F))
    (hu : Undisturbed s (.execute p F)) (hs : step s (.execute p F) = some s') : Inv s' := by
  obtain ⟨hp, hactive, hpl, hi, hchildren⟩ := hlegal
  obtain ⟨hnodup, hu⟩ := hu
  have hne : ∀ r ≠ p, ∀ es, Function.update s.executions p es r = s.executions r :=
    fun r hr es => Function.update_of_ne hr _ _
  -- a flow that runs elsewhere has no children at `p`
  have hrunning : ∀ r ≠ p, ∀ e ∈ (s.executions r).head?, r < s.tokens.tree.size ∧
      e.parent r < s.tokens.tree.size ∧ e.parent r ≠ p := by
    intro r hr e he
    have hmem := List.mem_of_mem_head? he
    have hlt := h.size r (List.ne_nil_of_mem hmem)
    rcases (h.at_ r).parent_eq hmem with heq | ⟨hl, -⟩
    · rw [heq]
      exact ⟨hlt, hlt, hr⟩
    · refine ⟨hlt, (h.links _ hl).1, ?_⟩
      rintro rfl
      exact hpl hl
  by_cases hlinks : F.links.isEmpty = true
  · have hc := created_createConcurrentTokens (s := s.tokens) hp F.activities
    have hnew := running_createConcurrentTokens (F := F) h.unable hp hp (Option.getD_none (a := p))
      hactive hactive hnodup (fun c hc hnot => by
        have hparent := s.tokens.tree.parent_of_mem hc
        refine (hchildren c.2 (s.tokens.tree.lt_size hparent) hparent).resolve_left fun hel => ?_
        exact hnot (hu hlinks c hc hel)) (fun l hl => nomatch hl)
    rw [step_execute_of_isEmpty hlinks] at hs
    obtain rfl := Option.some.inj hs
    constructor
    · exact h.unable.createConcurrentTokens p F.activities
    · intro r hr
      by_cases hrp : r = p
      · exact hrp ▸ hp.trans_le hc.size
      · exact (h.size r (hne r hrp _ ▸ hr)).trans_le hc.size
    · intro l hl
      obtain ⟨hlt, hnil⟩ := h.links l hl
      refine ⟨hlt.trans_le hc.size, (hne l ?_ _).trans hnil⟩
      rintro rfl
      exact hpl hl
    · intro r
      by_cases hrp : r = p
      · subst hrp
        exact (h.at_ r).execute hi (Function.update_self _ _ _) hc.left (fun _ h => h) hc.old
          (fun x hx => (hc.new x hx).2.1) (fun l hl => nomatch hl) hlinks hnew.2 hnew.1
      · exact (h.at_ r).keeps ((h.at_ r).keeps_created hc (hne r hrp _) (fun _ h => h)
          (fun x hx => children_createConcurrentTokens_of_ne hp hx F.activities)
          fun e he _ => hrunning r hrp e he)
  · have hlinks := Bool.eq_false_iff.2 hlinks
    rw [step_execute_of_links hlinks] at hs
    obtain rfl := Option.some.inj hs
    -- first the links token `l`, then its children
    obtain ⟨hsize, hparent, hmap⟩ := Tokens.create_tree (s := s.tokens) hp F.name
    have h₁ := Tokens.created_create (s := s.tokens) hp F.name
    have hl : s.tokens.tree.size < (s.tokens.create p F.name).tree.size := by omega
    have hc := created_createConcurrentTokens (s := s.tokens.create p F.name) hl F.activities
    have hold : ∀ x < s.tokens.tree.size,
        (createConcurrentTokens s.tokens.tree.size F.activities
          (s.tokens.create p F.name)).2.tree.parent x = s.tokens.tree.parent x ∧
        (createConcurrentTokens s.tokens.tree.size F.activities
          (s.tokens.create p F.name)).2.status x = s.tokens.status x := by
      intro x hx
      obtain ⟨hp₂, hs₂⟩ := hc.old x (by omega)
      rw [hp₂, hs₂]
      exact h₁.old x hx
    have hsize₂ : s.tokens.tree.size < _ := hl.trans_le hc.size
    have hnochild : (s.tokens.create p F.name).tree.children s.tokens.tree.size = [] := by
      rw [Tokens.children_create_of_ne hp (by omega), Tokens.children_of_size_le le_rfl]
    have hnil : s.executions s.tokens.tree.size = [] := by
      by_contra hexec
      exact Nat.lt_irrefl _ (h.size _ hexec)
    have hself : (s.tokens.create p F.name).status s.tokens.tree.size =
        ⟨(s.tokens.status p).node, false, true⟩ := Function.update_self _ _ _
    have hnew := running_createConcurrentTokens (F := F) (h.unable.create p F.name) hl
      (by omega : p < _) (Option.getD_some (a := s.tokens.tree.size))
      (by rw [(h₁.old p hp).2]; exact hactive) (by rw [hself]) hnodup (fun c hc => by rw [hnochild] at hc; cases hc)
      (fun l hl => by obtain rfl := Option.some.inj hl; exact hnochild)
    constructor
    · exact (h.unable.create p F.name).createConcurrentTokens _ F.activities
    · intro r hr
      by_cases hrp : r = p
      · subst hrp
        exact hp.trans hsize₂
      · exact (h.size r (hne r hrp _ ▸ hr)).trans hsize₂
    · intro l hmem
      rcases List.mem_cons.1 hmem with rfl | hold
      · exact ⟨hsize₂, (hne _ (by omega) _).trans hnil⟩
      · obtain ⟨hlt, hnil⟩ := h.links l hold
        exact ⟨hlt.trans hsize₂, (hne l (fun he => hpl (he ▸ hold)) _).trans hnil⟩
    · intro r
      by_cases hrp : r = p
      · subst hrp
        refine (h.at_ r).execute hi (Function.update_self _ _ _) (hc.left.trans h₁.left)
          (fun l hl => List.mem_cons_of_mem _ hl) hold (fun x hx => (hc.new x hx).2.1)
          (fun l hl' => ?_) hlinks hnew.2 hnew.1
        obtain rfl := Option.some.inj hl'
        refine ⟨List.mem_cons_self, (hc.old _ hl).1.trans ?_⟩
        rw [hparent, Function.update_self]
      · have hk : Keeps r s { s with tokens := s.tokens.create p F.name } :=
          (h.at_ r).keeps_created h₁ rfl (fun _ h => h)
            (fun x hx => Tokens.children_create_of_ne hp hx F.name) fun e he _ => hrunning r hrp e he
        refine (h.at_ r).keeps (hk.trans (((h.at_ r).keeps hk).keeps_created hc (hne r hrp _)
          (fun l hl => List.mem_cons_of_mem _ hl)
          (fun x hx => children_createConcurrentTokens_of_ne hl hx F.activities)
          fun e he _ => ?_) h₁.size)
        obtain ⟨hlt, hlt', -⟩ := hrunning r hrp e he
        exact ⟨hlt.trans hl, hlt'.trans hl, hlt'.ne⟩

/-! ## Leaving a flow -/

section Leave

variable {e : Execution} {x : ℕ} {st : ℕ → TokenStatus N}

/-- The end of a concurrent token is noticed in its own flow only. -/
theorem Inv.not_within_of_leave (h : Inv s) (he : e ∈ s.executions p) (hx : x ∈ e.tokens)
    (hq : s.Quiet x) {r : ℕ} (hr : r ≠ p) :
    ∀ e' ∈ (s.executions r).head?, ¬ e'.Done s.tokens →
      ¬ s.tokens.tree.forest.Within x r ∧ ¬ s.tokens.tree.forest.Within x (e'.parent r) ∧
        ∀ y ∈ e'.tokens, ¬ s.tokens.tree.forest.Within x y := by
  intro e' he' hd
  have hmem := List.mem_of_mem_head? he'
  have hparent := (h.at_ p).parent e he x hx
  refine h.not_within_of_quiet hq he' hd (fun heq => ?_) fun hx' => ?_
  · rcases (h.at_ r).parent_eq hmem with hp | ⟨-, hl⟩
    · exact hd (hq r (h.size r (List.ne_nil_of_mem hmem)) (.inl (heq.trans hp)) e' he')
    · rw [heq, hl] at hparent
      exact hr (h.eq_of_parent_eq he (List.ne_nil_of_mem hmem) (Option.some.inj hparent).symm).symm
  · rw [(h.at_ r).parent e' hmem x hx'] at hparent
    exact hr (h.eq_of_parent_eq_parent hmem he (Option.some.inj hparent))

/-- Nor is the end of its links token. -/
theorem Inv.ne_of_links (h : Inv s) (he : e ∈ s.executions p) {l : ℕ} (hl : l ∈ e.links)
    {r : ℕ} (hr : r ≠ p) :
    ∀ e' ∈ (s.executions r).head?, ¬ r = l ∧ ¬ e'.parent r = l ∧ ∀ y ∈ e'.tokens, ¬ y = l := by
  intro e' he'
  have hmem := List.mem_of_mem_head? he'
  have hlp : e.parent p = l := by rw [Execution.parent, Option.mem_def.1 hl, Option.getD_some]
  refine ⟨fun heq => ?_, fun heq => ?_, fun y hy heq => ?_⟩
  · exact hr (h.eq_of_parent_eq he (List.ne_nil_of_mem hmem) (hlp.trans heq.symm)).symm
  · exact hr (h.eq_of_parent_eq_parent hmem he (heq.trans hlp.symm))
  · have hparent := (h.at_ r).parent e' hmem y hy
    rw [heq, ((h.at_ p).links e he l hl).2] at hparent
    exact hr (h.eq_of_parent_eq hmem (List.ne_nil_of_mem he) (Option.some.inj hparent).symm)

variable (hr : Running s.tokens p e) (hparent : ∀ y ∈ e.tokens,
  s.tokens.tree.parent y = some (e.parent p)) (hx : x ∈ e.tokens)
  (hends : Token.Ends (s.tokens.tree.forest.Within x ·) s.tokens.status st)
  (hended : (st x).hasEnded = true)
include hparent hx hends

theorem status_sibling {y : ℕ} (hy : s.tokens.tree.parent y = some (e.parent p)) (hne : y ≠ x) :
    st y = s.tokens.status y :=
  hends.eq (TokenTree.not_within_sibling (hparent x hx) hy hne)

include hr

/-- The last token to end has been started, and so have the others. -/
theorem started_of_done (hunstarted : x ∉ e.tokens.drop e.started)
    (hd : e.Done { s.tokens with status := st }) : e.started = e.tokens.length := by
  have hnil : e.tokens.drop e.started = [] := by
    refine List.eq_nil_iff_forall_not_mem.2 fun y hy => ?_
    have hy' := List.mem_of_mem_drop hy
    have hne : y ≠ x := fun heq => hunstarted (heq ▸ hy)
    have hended : (st y).hasEnded = true := hd y hy'
    rw [status_sibling hparent hx hends (hparent y hy') hne, hr.unstarted y hy] at hended
    cases hended
  exact Nat.le_antisymm hr.started_le (List.drop_eq_nil_iff.1 hnil)

include hended

/-- The test for siblings sees whether all concurrent tokens have ended. -/
theorem mustReactivateParent_iff (hu : Unable s.tokens) :
    mustReactivateParent x (e.parent p) { s.tokens with status := st } = true ↔
      e.Done { s.tokens with status := st } := by
  rw [mustReactivateParent, List.all_eq_true]
  constructor
  · intro h y hy
    by_cases hne : y = x
    · exact hne ▸ hended
    · obtain ⟨c, hc, rfl⟩ := hr.child y hy
      have hst := status_sibling hparent hx hends (hparent c.2 hy) hne
      have hable : (st c.2).isAbleToReactivateParent = false := by simpa [hne] using h c hc
      change (st c.2).hasEnded = true
      rw [hst] at hable ⊢
      by_contra hactive
      rw [hr.able c.2 hy (Bool.eq_false_iff.2 hactive)] at hable
      cases hable
  · intro hd c hc
    by_cases hne : c.2 = x
    · simp [hne]
    · have hst := status_sibling hparent hx hends (s.tokens.tree.parent_of_mem hc) hne
      have hable : (st c.2).isAbleToReactivateParent = false := by
        by_contra hable
        rw [Bool.not_eq_false, hst] at hable
        have hde : (st c.2).hasEnded = true := hd c.2 (hr.siblings c hc hable)
        rw [hst] at hde
        rw [hu c.2 hde] at hable
        cases hable
      simp [hable]

/-- A flow that goes on running. -/
theorem Running.leave (hunstarted : x ∉ e.tokens.drop e.started)
    (hp : ¬ s.tokens.tree.forest.Within x p) :
    Running { s.tokens with status := st } p e := by
  have hstatus : st p = s.tokens.status p := hends.eq hp
  have hstatus' : st (e.parent p) = s.tokens.status (e.parent p) :=
    hends.eq (TokenTree.not_within_parent (hparent x hx))
  constructor
  · exact hr.nodup
  · change (st p).hasEnded = false
    rw [hstatus]
    exact hr.active
  · change (st (e.parent p)).hasEnded = false
    rw [hstatus']
    exact hr.active_parent
  · exact hr.child
  · intro y hy hactive
    change (st y).hasEnded = false at hactive
    change (st y).isAbleToReactivateParent = true
    have hne : y ≠ x := by
      rintro rfl
      rw [hended] at hactive
      cases hactive
    rw [status_sibling hparent hx hends (hparent y hy) hne] at hactive ⊢
    exact hr.able y hy hactive
  · intro c hc hable
    by_cases hne : c.2 = x
    · exact hne ▸ hx
    · change (st c.2).isAbleToReactivateParent = true at hable
      rw [status_sibling hparent hx hends (s.tokens.tree.parent_of_mem hc) hne] at hable
      exact hr.siblings c hc hable
  · exact hr.started_le
  · intro y hy
    change (st y).hasEnded = false
    have hne : y ≠ x := fun heq => hunstarted (heq ▸ hy)
    rw [status_sibling hparent hx hends (hparent y (List.mem_of_mem_drop hy)) hne]
    exact hr.unstarted y hy
  · exact hr.only

end Leave

/-- The tokens of the last execution have changed. -/
theorem State.At.of_tokens (h : s.At p) {e : Execution} {earlier : List Execution}
    (he : s.executions p = e :: earlier) {t : Tokens N} (htree : t.tree = s.tokens.tree)
    (hmono : ∀ x, (s.tokens.status x).hasEnded = true → (t.status x).hasEnded = true)
    (hcount : t.left.count p = earlier.length + if e.Done t then 1 else 0)
    (hstarted : e.Done t → e.started = e.tokens.length)
    (hrunning : ¬ e.Done t → Running t p e) : ({ s with tokens := t } : State N).At p := by
  have hearlier : ∀ e' ∈ earlier, e'.Done s.tokens := fun e' he' =>
    h.earlier e' (by rw [he]; exact he')
  constructor
  · refine ⟨?_, fun e' he' hd => ?_⟩
    · simp only [he]
      exact hcount
    · simp only [he] at he'
      rcases List.mem_cons.1 he' with rfl | hmem
      · exact hstarted hd
      · exact h.once.2 e' (by rw [he]; exact List.mem_cons_of_mem _ hmem) (hearlier e' hmem)
  · exact fun e' he' x hx => hmono x (h.earlier e' he' x hx)
  · intro e' he' x hx
    rw [htree]
    exact h.parent e' he' x hx
  · intro e' he' l hl
    rw [htree]
    exact h.links e' he' l hl
  · exact h.isNone
  · intro e' he' hd
    simp only [he] at he'
    obtain rfl := Option.some.inj he'
    exact hrunning hd

theorem leaveEnd_of_active {t : Tokens N} (h : (t.status p).hasEnded = false) :
    leaveEnd p t = { t with left := t.left ++ [p] } := by
  rw [leaveEnd, if_neg (by rw [h]; exact Bool.false_ne_true)]

/-- The parent token leaves the flow. -/
theorem Inv.joined (h : Inv s) {e : Execution} {earlier : List Execution}
    (hexec : s.executions p = e :: earlier) (hcount : s.tokens.left.count p = earlier.length)
    {st : ℕ → TokenStatus N} {Q : ℕ → Prop} (hends : Token.Ends Q s.tokens.status st)
    (hdone : e.Done { s.tokens with status := st }) (hstarted : e.started = e.tokens.length)
    (hkeeps : ∀ r ≠ p, Keeps r s
      { s with tokens := { s.tokens with status := st, left := s.tokens.left ++ [p] } }) :
    Inv { s with tokens := { s.tokens with status := st, left := s.tokens.left ++ [p] } } := by
  refine ⟨h.unable.ends hends _, h.size, h.links, fun r => ?_⟩
  by_cases hrp : r = p
  · subst hrp
    have hdone' : e.Done { s.tokens with status := st, left := s.tokens.left ++ [r] } := hdone
    refine (h.at_ r).of_tokens hexec rfl (fun y hy => hends.hasEnded hy) ?_ (fun _ => hstarted)
      (fun hd => absurd hdone' hd)
    rw [if_pos hdone', List.count_append, hcount, List.count_singleton_self]
  · exact (h.at_ r).keeps (hkeeps r hrp)

theorem Inv.leave {x : ℕ} (h : Inv s) (hlegal : Legal s (.leave p x)) :
    ∃ s', step s (.leave p x) = some s' ∧ Inv s' := by
  obtain ⟨⟨e, he, hx⟩, hquiet⟩ := hlegal
  obtain ⟨e, hfind⟩ : ∃ e', (s.executions p).find? (fun e => x ∈ e.tokens.take e.started) = some e' :=
    Option.isSome_iff_exists.1 (List.find?_isSome.2 ⟨e, he, decide_eq_true hx⟩)
  have he := List.mem_of_find?_eq_some hfind
  have hx : x ∈ e.tokens.take e.started := by simpa using List.find?_some hfind
  have hmem := List.mem_of_mem_take hx
  by_cases hended : (s.tokens.status x).hasEnded = true
  · refine ⟨s, ?_, h⟩
    simp only [step, hfind, leave_of_hasEnded hended, Option.bind_eq_bind, Option.bind_some]
  -- only the last execution has tokens that have not ended
  obtain ⟨earlier, hexec⟩ : ∃ earlier, s.executions p = e :: earlier := by
    rcases hes : s.executions p with _ | ⟨e', earlier⟩
    · rw [hes] at he
      cases he
    · rw [hes] at he
      rcases List.mem_cons.1 he with rfl | he
      · exact ⟨earlier, rfl⟩
      · exact absurd ((h.at_ p).earlier e (by rw [hes]; exact he) x hmem) hended
  have hhead : e ∈ (s.executions p).head? := by
    rw [hexec]
    rfl
  have hd : ¬ e.Done s.tokens := fun hd => hended (hd x hmem)
  have hr := (h.at_ p).running e hhead hd
  have hparent := (h.at_ p).parent e he
  have hunstarted : x ∉ e.tokens.drop e.started := by
    have hnodup := hr.nodup
    rw [← List.take_append_drop e.started e.tokens, List.nodup_append'] at hnodup
    exact fun hdrop => hnodup.2.2 hx hdrop
  have hcount : s.tokens.left.count p = earlier.length := by
    have honce := (h.at_ p).once.1
    rw [hexec] at honce
    simpa only [if_neg hd, Nat.add_zero] using honce
  obtain ⟨st, hends, hst, hstay, hleave, hlinks⟩ := leave_eq (F := e.flow) (Nat.le_refl _)
    (hparent x hmem) (Bool.eq_false_iff.2 hended)
  have hm := mustReactivateParent_iff hr hparent hmem hends hst h.unable
  have hp : ¬ s.tokens.tree.forest.Within x p := fun hw =>
    hd (hquiet p (h.size p (List.ne_nil_of_mem he)) hw e hhead)
  have hactive : (st p).hasEnded = false := by
    rw [hends.eq hp]
    exact hr.active
  have hne : ∀ r ≠ p, ∀ left : List ℕ, left.count r = s.tokens.left.count r →
      Keeps r s { s with tokens := { s.tokens with status := st, left := left } } :=
    fun r hrp left hl => keeps_ends hends hl (h.not_within_of_leave he hmem hquiet hrp)
  by_cases hdone : e.Done { s.tokens with status := st }
  · have hstarted := started_of_done hr hparent hmem hends hunstarted hdone
    have hcount' : ∀ r ≠ p, (s.tokens.left ++ [p]).count r = s.tokens.left.count r :=
      fun r hrp => by
        rw [List.count_append, List.count_singleton, if_neg (by simpa using hrp.symm), Nat.add_zero]
    have hnone := (h.at_ p).isNone e he
    rcases hl : e.links with _ | l
    · have hlp : e.parent p = p := by rw [Execution.parent, hl, Option.getD_none]
      have hstep : step s (.leave p x) = some
          { s with tokens := { s.tokens with status := st, left := s.tokens.left ++ [p] } } := by
        have hleave := hleave (hm.2 hdone) (by rw [hnone, hl]; rfl)
        rw [hlp, leaveEnd_of_active hactive] at hleave
        simp only [step, hfind, hleave, Option.bind_eq_bind, Option.bind_some]
      exact ⟨_, hstep, h.joined hexec hcount hends hdone hstarted
        fun r hrp => hne r hrp _ (hcount' r hrp)⟩
    · have hlp : e.parent p = l := by rw [Execution.parent, hl, Option.getD_some]
      have hpl := ((h.at_ p).links e he l hl).2
      have hchildren : Token.hasActiveChildren s.tokens.tree (e.parent p) st = false := by
        rw [hlp, Token.hasActiveChildren, List.any_eq_false]
        intro c hc
        have hended : (st c.2).hasEnded = true := hdone c.2 (hr.only l hl c hc)
        simp [hended]
      obtain ⟨st', hends', hleave⟩ := hlinks (hm.2 hdone) (by rw [hnone, hl]; rfl) hchildren p
        (hlp ▸ hpl)
      rw [hlp] at hends'
      have hactive' : (st' p).hasEnded = false := by
        rw [hends'.eq (s.tokens.tree.parent_lt hpl).ne]
        exact hactive
      have hstep : step s (.leave p x) = some
          { s with tokens := { s.tokens with status := st', left := s.tokens.left ++ [p] } } := by
        rw [leaveEnd_of_active hactive'] at hleave
        simp only [step, hfind, hleave, Option.bind_eq_bind, Option.bind_some]
      have hall := (hends.mono (Q := fun _ => True) fun _ _ => trivial).trans
        (hends'.mono fun _ _ => trivial)
      exact ⟨_, hstep, h.joined hexec hcount hall (fun y hy => hends'.hasEnded (hdone y hy)) hstarted
        fun r hrp => (hne r hrp _ rfl).trans
          (keeps_ends hends' (hcount' r hrp) fun e' he' _ => h.ne_of_links he hl hrp e' he')
          le_rfl⟩
  · have hstep : step s (.leave p x) =
        some { s with tokens := { s.tokens with status := st } } := by
      rw [← hm, Bool.not_eq_true] at hdone
      simp only [step, hfind, hstay hdone, Option.bind_eq_bind, Option.bind_some]
    refine ⟨_, hstep, h.unable.ends hends _, h.size, h.links, fun r => ?_⟩
    by_cases hrp : r = p
    · subst hrp
      refine (h.at_ r).of_tokens hexec rfl (fun y hy => hends.hasEnded hy) ?_
        (fun hd' => absurd hd' hdone)
        fun _ => hr.leave hparent hmem hends hst hunstarted hp
      rw [if_neg hdone, Nat.add_zero]
      exact hcount
    · exact (h.at_ r).keeps (hne r hrp _ rfl)

/-! ## Runs -/

/-- A process instance before any flow has been executed. -/
structure Start (s : State N) : Prop where
  unable : Unable s.tokens
  left : s.tokens.left = []
  executions : ∀ p, s.executions p = []
  links : s.links = []

theorem inv_of_start (h : Start s) : Inv s where
  unable := h.unable
  size p hp := absurd (h.executions p) hp
  links l hl := by
    rw [h.links] at hl
    cases hl
  at_ p := by
    have hnil : ∀ e, e ∉ s.executions p := fun e he => by
      rw [h.executions p] at he
      cases he
    refine ⟨⟨?_, fun e he => absurd he (hnil e)⟩, fun e he => absurd (List.mem_of_mem_tail he) (hnil e),
      fun e he => absurd he (hnil e), fun e he => absurd he (hnil e),
      fun e he => absurd he (hnil e), fun e he => absurd (List.mem_of_mem_head? he) (hnil e)⟩
    rw [h.left, h.executions p]
    rfl

/-- Runs of undisturbed steps. -/
def Runs (s₀ : State N) : List Step → State N → Prop :=
  Run (guard (fun s l => Undisturbed s l ∧ Legal s l) fun s l s' => step s l = some s') s₀

/-- Undisturbed steps can be made, and keep the invariant. -/
theorem Inv.step (h : Inv s) {l : Step} (hu : Undisturbed s l) (hlegal : Legal s l) :
    ∃ s', step s l = some s' ∧ Inv s' := by
  cases l with
  | execute p F => exact ⟨_, rfl, h.execute hlegal hu rfl⟩
  | start p => exact h.start hlegal
  | leave p x => exact h.leave hlegal
  | eliminate p F => exact ⟨_, rfl, h.eliminate hlegal rfl⟩
  | create p name => exact ⟨_, rfl, h.created hlegal.1 hlegal.2.1 hlegal.2.2 rfl rfl rfl⟩
  | end_ t => exact h.end_ hlegal

theorem inv_of_run {s₀ : State N} (h₀ : Start s₀) {ls : List Step} (h : Runs s₀ ls s) : Inv s := by
  refine h.inv (inv_of_start h₀) fun s l s' hi hl => ?_
  obtain ⟨⟨hu, hlegal⟩, hstep⟩ := hl
  obtain ⟨s'', hs'', hi'⟩ := hi.step hu hlegal
  obtain rfl := Option.some.inj (hstep.symm.trans hs'')
  exact hi'

/-- A root token, and no other one. -/
def begin : State ℕ := ⟨⟨.root, fun _ => ⟨none, false, true⟩, []⟩, fun _ => [], [], []⟩

theorem start_begin : Start begin :=
  ⟨fun _ => nofun, rfl, fun _ => rfl, rfl⟩

def withLinks : Flow := ⟨"prepare", ["link"], ["a", "b"], by decide⟩

def withoutLinks : Flow := ⟨"ship", [], ["c", "d"], by decide⟩

end Flow

end Jbpm
