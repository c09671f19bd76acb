/-
  Flows: `Flow.execute`, `Flow.leave` and `Flow.eliminatePath` on the tokens of a
  process instance.

  * `createConcurrentTokens`: one child for each activity, under the name of the activity;
  * `leave`: ends the concurrent token, and lets the parent go on if no sibling is able to
    reactivate it;
  * `eliminatePath`: creates the links token as well, for the links to be given a status.
-/
import Jbpm.Graph.ForkJoinSteps

namespace Jbpm

/-- A flow, with the names of its links and its activities.  There is at least one
    activity, as the schema requires. -/
structure Flow where
  name : String
  links : List String
  activities : List String
  activities_ne : activities ≠ []

namespace Flow

variable {N : Type} (F : Flow)

/-- `initializeLinks(parentToken)`: the parent of the concurrent tokens, which is a new token
    if there are links.  The link instances are variables of that token. -/
def initializeLinks (p : ℕ) (s : Tokens N) : ℕ × Tokens N :=
  if F.links.isEmpty then (p, s) else (s.tree.size, s.create p F.name)

/-- `createConcurrentTokens(parentToken)` -/
def createConcurrentTokens (q : ℕ) : List String → Tokens N → List ℕ × Tokens N
  | [], s => ([], s)
  | activity :: activities, s =>
    let (ids, s') := createConcurrentTokens q activities (s.create q activity)
    (s.tree.size :: ids, s')

/-- `mustReactivateParent(concurrentToken)`, for the parent of the token. -/
def mustReactivateParent (x q : ℕ) (s : Tokens N) : Bool :=
  (s.tree.children q).all fun c => c.2 == x || !(s.status c.2).isAbleToReactivateParent

/-- `getEnd().leave(parentContext)`: a token that has ended does not leave. -/
def leaveEnd (p : ℕ) (s : Tokens N) : Tokens N :=
  if (s.status p).hasEnded then s else { s with left := s.left ++ [p] }

/-- `leave` -/
def leave (n x : ℕ) (s : Tokens N) : Option (Tokens N) :=
  if (s.status x).hasEnded then some s
  else do
    let s ← s.end_ n false x
    let q ← s.tree.parent x
    if mustReactivateParent x q s then
      if F.links.isEmpty then some (leaveEnd q s)
      else
        -- q is the links token
        let s ← s.end_ n false q
        let p ← s.tree.parent q
        some (leaveEnd p s)
    else some s

/-- `eliminatePath(parentToken)`, up to the status of links. -/
def eliminatePath (p : ℕ) (s : Tokens N) : Tokens N := (F.initializeLinks p s).2

end Flow

/-! ## A token that ends alone -/

namespace Token

variable {N : Type} {T : TokenTree} {st : ℕ → TokenStatus N} {n t : ℕ}

theorem end_self (hn : active T st ≤ n) (ht : t < T.size)
    (hc : hasActiveChildren T t st = false) :
    ∃ st', end_ T n false t st = some st' ∧ Ends (· = t) st st' ∧ (st' t).hasEnded = true := by
  by_cases he : (st t).hasEnded = true
  · exact ⟨st, end_of_hasEnded he, .refl _ _, he⟩
  have he := Bool.eq_false_iff.2 he
  have hlt := active_update ht he
  obtain ⟨n, rfl⟩ : ∃ m, n = m + 1 := ⟨n - 1, by omega⟩
  have hends : Ends (· = t) st (Function.update st t (setEnd (st t))) := .update he rfl
  refine ⟨_, ?_, hends, by rw [Function.update_self]; rfl⟩
  rw [end_succ he, endActive_of_hasEnded fun c hc' => hends.hasEnded ?_]
  · rfl
  · rw [hasActiveChildren, List.any_eq_false] at hc
    simpa using hc c hc'

end Token

/-! ## New tokens -/

namespace Tokens

variable {N : Type} {s : Tokens N} {p q x : ℕ}

theorem children_create_of_ne (hp : p < s.tree.size) (hq : q ≠ p) (name : String) :
    (s.create p name).tree.children q = s.tree.children q := by
  rw [(create_tree hp name).2.2, Function.update_of_ne hq]

/-- A token has no children before it exists. -/
theorem children_of_size_le (hq : s.tree.size ≤ q) : s.tree.children q = [] := by
  refine List.eq_nil_iff_forall_not_mem.2 fun c hc => ?_
  have hparent := s.tree.parent_of_mem hc
  have hlt := s.tree.parent_lt hparent
  have hsize := s.tree.lt_size hparent
  omega

end Tokens

namespace Flow

variable {N : Type} {s : Tokens N} {q : ℕ}

theorem created_createConcurrentTokens (hq : q < s.tree.size) (activities : List String) :
    s.Created q (createConcurrentTokens q activities s).1
      (createConcurrentTokens q activities s).2 := by
  induction activities generalizing s with
  | nil => exact .refl q s
  | cons activity activities ih =>
    have hone := Tokens.created_create hq activity
    have hsize : s.tree.size < (s.create q activity).tree.size :=
      (s.create q activity).tree.lt_size (hone.new _ List.mem_cons_self).2.1
    refine hone.append hq (ih (hq.trans hsize)) fun x hx => ?_
    exact List.mem_singleton.1 hx ▸ hsize

theorem length_createConcurrentTokens (q : ℕ) (activities : List String) (s : Tokens N) :
    (createConcurrentTokens q activities s).1.length = activities.length := by
  induction activities generalizing s with
  | nil => rfl
  | cons activity activities ih => exact congrArg (· + 1) (ih (s.create q activity))

theorem children_createConcurrentTokens_of_ne {x : ℕ} (hq : q < s.tree.size) (hx : x ≠ q)
    (activities : List String) :
    (createConcurrentTokens q activities s).2.tree.children x = s.tree.children x := by
  induction activities generalizing s with
  | nil => rfl
  | cons activity activities ih =>
    have hsize := (Tokens.create_tree hq activity).1
    exact (ih (s := s.create q activity) (by omega)).trans (Tokens.children_create_of_ne hq hx activity)

/-- A child of another name stays in the map. -/
theorem mem_children_createConcurrentTokens {c : String × ℕ} (hq : q < s.tree.size)
    {activities : List String} (hactivities : c.1 ∉ activities) (hc : c ∈ s.tree.children q) :
    c ∈ (createConcurrentTokens q activities s).2.tree.children q := by
  induction activities generalizing s with
  | nil => exact hc
  | cons activity activities ih =>
    obtain ⟨hsize, -, hchildren⟩ := Tokens.create_tree hq activity
    rw [List.mem_cons, not_or] at hactivities
    refine ih (s := s.create q activity) (by omega) hactivities.2 ?_
    rw [hchildren, Function.update_self]
    exact mem_putChild_of_ne hactivities.1 hc

/-- Activities of different names do not replace each other's tokens. -/
theorem mem_children_of_nodup {x : ℕ} (hq : q < s.tree.size) {activities : List String}
    (hnodup : activities.Nodup) (hx : x ∈ (createConcurrentTokens q activities s).1) :
    ∃ c ∈ (createConcurrentTokens q activities s).2.tree.children q, c.2 = x := by
  induction activities generalizing s with
  | nil => cases hx
  | cons activity activities ih =>
    obtain ⟨hsize, -, hchildren⟩ := Tokens.create_tree hq activity
    obtain ⟨hnot, hnodup⟩ := List.nodup_cons.1 hnodup
    rcases List.mem_cons.1 hx with rfl | hx
    · refine ⟨(activity, s.tree.size), ?_, rfl⟩
      refine mem_children_createConcurrentTokens (s := s.create q activity) (by omega) hnot ?_
      rw [hchildren, Function.update_self]
      exact mem_putChild_self _
    · exact ih (s := s.create q activity) (by omega) hnodup hx

/-- Every activity has a child under its name. -/
theorem exists_mem_children {activity : String} (hq : q < s.tree.size)
    {activities : List String} (hactivity : activity ∈ activities) :
    ∃ x ∈ (createConcurrentTokens q activities s).1,
      (activity, x) ∈ (createConcurrentTokens q activities s).2.tree.children q := by
  induction activities generalizing s with
  | nil => cases hactivity
  | cons other activities ih =>
    obtain ⟨hsize, -, hchildren⟩ := Tokens.create_tree hq other
    by_cases hmem : activity ∈ activities
    · obtain ⟨x, hx, hc⟩ := ih (s := s.create q other) (by omega) hmem
      exact ⟨x, List.mem_cons_of_mem _ hx, hc⟩
    · obtain rfl : activity = other := (List.mem_cons.1 hactivity).resolve_right hmem
      refine ⟨s.tree.size, List.mem_cons_self, ?_⟩
      refine mem_children_createConcurrentTokens (s := s.create q activity) (by omega) hmem ?_
      rw [hchildren, Function.update_self]
      exact mem_putChild_self _

/-- What is left of the children from before: those whose names are not among the
    activities. -/
theorem mem_old_or_new {c : String × ℕ} (hq : q < s.tree.size) {activities : List String}
    (hc : c ∈ (createConcurrentTokens q activities s).2.tree.children q) :
    c.2 ∈ (createConcurrentTokens q activities s).1 ∨
      c ∈ s.tree.children q ∧ c.1 ∉ activities := by
  rcases (created_createConcurrentTokens hq activities).children c hc with hold | hnew
  · by_cases hmem : c.1 ∈ activities
    · obtain ⟨x, hx, hcx⟩ := exists_mem_children hq hmem
      have heq : c = (c.1, x) := List.inj_on_of_nodup_map
        ((createConcurrentTokens q activities s).2.tree.nodup_keys q) hc hcx rfl
      have hx2 : c.2 = x := congrArg Prod.snd heq
      exact .inl (hx2 ▸ hx)
    · exact .inr ⟨hold, hmem⟩
  · exact .inl hnew

/-! ## Leaving -/

/-- **Leaving a flow.**  The concurrent token ends, and tokens below it; the parent goes on if no
    sibling is able to reactivate it, and a links token without active children ends alone. -/
theorem leave_eq {F : Flow} {n x : ℕ} (hn : s.tree.size ≤ n) (hx : s.tree.parent x = some q)
    (he : (s.status x).hasEnded = false) :
    ∃ st, Token.Ends (s.tree.forest.Within x ·) s.status st ∧ (st x).hasEnded = true ∧
      (mustReactivateParent x q { s with status := st } = false →
        F.leave n x s = some { s with status := st }) ∧
      (mustReactivateParent x q { s with status := st } = true → F.links.isEmpty = true →
        F.leave n x s = some (leaveEnd q { s with status := st })) ∧
      (mustReactivateParent x q { s with status := st } = true → F.links.isEmpty = false →
        Token.hasActiveChildren s.tree q st = false → ∀ p, s.tree.parent q = some p →
        ∃ st', Token.Ends (· = q) st st' ∧
          F.leave n x s = some (leaveEnd p { s with status := st' })) := by
  have hactive := (Token.active_le (T := s.tree) s.status).trans hn
  obtain ⟨st, hst, hends, hended⟩ := Token.end_below (T := s.tree) (n := n) (t := x) (v := false)
    hactive (s.tree.lt_size hx) (.inl rfl)
  have hend : s.end_ n false x = some { s with status := st } := by
    rw [Tokens.end_, hst, Option.map_some]
  refine ⟨st, hends, hended, fun hm => ?_, fun hm hl => ?_, fun hm hl hc p hp => ?_⟩
  · simp only [leave, he, hend, hx, hm, Bool.false_eq_true, if_false, Option.bind_eq_bind,
      Option.bind_some]
  · simp only [leave, he, hend, hx, hm, hl, Bool.false_eq_true, if_false, if_true,
      Option.bind_eq_bind, Option.bind_some]
  · obtain ⟨st', hst', hends', -⟩ := Token.end_self (hends.active_le.trans hactive)
      ((s.tree.parent_lt hx).trans (s.tree.lt_size hx)) hc
    have hend' : Tokens.end_ n false q { s with status := st } =
        some { s with status := st' } := by
      rw [Tokens.end_, hst', Option.map_some]
    refine ⟨st', hends', ?_⟩
    simp only [leave, he, hend, hend', hx, hp, hm, hl, Bool.false_eq_true, if_false, if_true,
      Option.bind_eq_bind, Option.bind_some]

/-- A token that has ended does not leave the flow again. -/
theorem leave_of_hasEnded {F : Flow} {n x : ℕ} (he : (s.status x).hasEnded = true) :
    F.leave n x s = some s := by
  rw [leave, if_pos he]

end Flow

end Jbpm
