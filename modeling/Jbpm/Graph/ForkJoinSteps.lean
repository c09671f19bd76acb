/-
  What happens to a token and its siblings when it arrives at a join or comes to an end
  state, and what a fork leaves behind.

  * `Join.enter_eq`, `EndState.enter_eq`: the token ends, its siblings are left alone,
    and the parent goes on, ends, or waits;
  * `Fork.created_execute`: the new children of a forking token;
  * `Fork.keepsChildren_of_tail`: none of them replaces another, unless a transition
    without a name comes after one with a name.
-/
import Jbpm.Graph.ForkJoin

namespace Jbpm

/-! ## Arrivals -/

variable {N : Type} {s s₁ : Tokens N} {n p t x : ℕ}

namespace Tokens

/-- The token `t` has ended in a node, and other tokens at most below it. -/
structure Arrived (node : N) (t : ℕ) (s s₁ : Tokens N) : Prop where
  tree : s₁.tree = s.tree
  left : s₁.left = s.left
  self : s₁.status t = ⟨some node, true, false⟩
  other : ∀ x, ¬ s.tree.forest.Within t x → s₁.status x = s.status x

/-- Ending a token that stands in a node. -/
theorem Arrived.of_ends {node : N} {st : ℕ → TokenStatus N} (he : (s.status t).hasEnded = false)
    (h : Token.Ends (s.tree.forest.Within t ·) (s.setNode t node).status st)
    (ht : (st t).hasEnded = true) : Arrived node t s { s.setNode t node with status := st } where
  tree := rfl
  left := rfl
  self := by
    have hself : (s.setNode t node).status t = { s.status t with node := some node } :=
      Function.update_self t _ s.status
    have heq := h.eq_setEnd (x := t) (by rw [hself]; exact he) ht
    exact heq.trans (by rw [hself]; rfl)
  other x hx := by
    have hne : x ≠ t := fun h => hx (.inl h.symm)
    exact (h.eq hx).trans (Function.update_of_ne hne _ _)

theorem Arrived.parent {node : N} (h : Arrived node t s s₁) (ht : s.tree.parent t = some p) :
    s₁.status p = s.status p :=
  h.other p (TokenTree.not_within_parent ht)

theorem Arrived.sibling {node : N} (h : Arrived node t s s₁) (ht : s.tree.parent t = some p)
    (hx : s.tree.parent x = some p) (hne : x ≠ t) : s₁.status x = s.status x :=
  h.other x (TokenTree.not_within_sibling ht hx hne)

theorem setAbleToReactivateParent_of_eq {b : Bool}
    (h : (s.status t).isAbleToReactivateParent = b) : s.setAbleToReactivateParent t b = s := by
  rw [setAbleToReactivateParent, ← h, Function.update_eq_self]

/-- What all children of a token are told. -/
theorem foldl_setAble (cs : List (String × ℕ)) (s : Tokens N) :
    (cs.foldl (fun s c => s.setAbleToReactivateParent c.2 false) s).tree = s.tree ∧
    (cs.foldl (fun s c => s.setAbleToReactivateParent c.2 false) s).left = s.left ∧
    ∀ x, (cs.foldl (fun s c => s.setAbleToReactivateParent c.2 false) s).status x =
      if x ∈ cs.map (·.2) then { s.status x with isAbleToReactivateParent := false }
      else s.status x := by
  induction cs generalizing s with
  | nil => simp
  | cons c cs ih =>
    obtain ⟨htree, hleft, hstatus⟩ := ih (s.setAbleToReactivateParent c.2 false)
    refine ⟨htree, hleft, fun x => (hstatus x).trans ?_⟩
    by_cases hx : x = c.2
    · subst hx
      simp [Tokens.setAbleToReactivateParent]
    · have hs : (s.setAbleToReactivateParent c.2 false).status x = s.status x :=
        Function.update_of_ne hx _ _
      simp only [hs, List.map_cons, List.mem_cons, hx, false_or]

end Tokens

namespace Join

theorem mustParentBeReactivated_eq {cs : List (String × ℕ)} (hcs : cs ⊆ s.tree.children p) :
    mustParentBeReactivated p s (cs.map (·.1)) =
      some (cs.all fun c => !(s.status c.2).isAbleToReactivateParent) := by
  induction cs with
  | nil => rfl
  | cons c cs ih =>
    obtain ⟨hc, hcs⟩ := List.cons_subset.1 hcs
    rw [List.map_cons, mustParentBeReactivated, TokenTree.getChild_of_mem hc]
    by_cases hb : (s.status c.2).isAbleToReactivateParent = true
    · simp [hb]
    · simp [hb, ih hcs]

variable {J : Join N}

/-- The parent goes on, and its children cannot reactivate it any more. -/
theorem reactivate_tree : (J.reactivate p s).tree = s.tree :=
  (Tokens.foldl_setAble (s.tree.children p) s).1

theorem reactivate_left : (J.reactivate p s).left = s.left ++ [p] :=
  congrArg (· ++ [p]) (Tokens.foldl_setAble (s.tree.children p) s).2.1

theorem reactivate_parent :
    (J.reactivate p s).status p = { s.status p with node := some J.successor } := by
  have hp : p ∉ (s.tree.children p).map (·.2) := by
    intro h
    obtain ⟨c, hc, hcp⟩ := List.mem_map.1 h
    have hlt := s.tree.parent_lt (s.tree.parent_of_mem hc)
    omega
  refine (Function.update_self p _ _).trans ?_
  rw [(Tokens.foldl_setAble (s.tree.children p) s).2.2, if_neg hp]

theorem reactivate_child (hx : x ∈ (s.tree.children p).map (·.2)) :
    (J.reactivate p s).status x = { s.status x with isAbleToReactivateParent := false } := by
  have hne : x ≠ p := by
    rintro rfl
    obtain ⟨c, hc, hcx⟩ := List.mem_map.1 hx
    have hlt := s.tree.parent_lt (s.tree.parent_of_mem hc)
    omega
  refine (Function.update_of_ne hne _ _).trans ?_
  rw [(Tokens.foldl_setAble (s.tree.children p) s).2.2, if_pos hx]

theorem reactivate_other (hx : x ∉ (s.tree.children p).map (·.2)) (hne : x ≠ p) :
    (J.reactivate p s).status x = s.status x := by
  refine (Function.update_of_ne hne _ _).trans ?_
  rw [(Tokens.foldl_setAble (s.tree.children p) s).2.2, if_neg hx]

variable [DecidableEq N]

/-- **Arrival at a join.**  The token ends; if it was able to reactivate its parent, then the
    configuration of the join decides. -/
theorem enter_eq (hn : s.tree.size ≤ n) (ht : s.tree.parent t = some p)
    (he : (s.status t).hasEnded = false) :
    ∃ s₁, s.Arrived J.node t s₁ ∧ J.enter n t s =
      if (s.status t).isAbleToReactivateParent then
        (J.reactivateParent p t s₁).map fun b => if b then J.reactivate p s₁ else s₁
      else some s₁ := by
  have hself : (s.setNode t J.node).status t = { s.status t with node := some J.node } :=
    Function.update_self t _ s.status
  obtain ⟨st, hst, hends, hended⟩ := Token.end_below (T := s.tree) (n := n) (t := t)
    (v := false) ((Token.active_le (s.setNode t J.node).status).trans hn) (s.tree.lt_size ht)
    (.inl rfl)
  have harr := Tokens.Arrived.of_ends he hends hended
  refine ⟨_, harr, ?_⟩
  have hend : (s.setNode t J.node).end_ n false t =
      some { s.setNode t J.node with status := st } := by
    rw [Tokens.end_]
    exact congrArg _ hst
  have hable := Tokens.setAbleToReactivateParent_of_eq (b := false)
    (congrArg TokenStatus.isAbleToReactivateParent harr.self)
  simp only [enter, execute, hself, he, hend, Bool.false_eq_true, if_false, Option.bind_eq_bind,
    Option.bind_some, hable]
  by_cases hb : (s.status t).isAbleToReactivateParent = true
  · rw [if_pos hb, if_pos hb]
    simp only [Tokens.setNode, ht]
    rcases J.reactivateParent p t _ with _ | b
    · rfl
    · cases b <;> rfl
  · rw [if_neg hb, if_neg hb]

/-- A default join waits for the children that are able to reactivate the parent. -/
theorem reactivateParent_default (node successor : N) :
    (Join.default node successor).reactivateParent p t s =
      some ((s.tree.children p).all fun c => !(s.status c.2).isAbleToReactivateParent) :=
  mustParentBeReactivated_eq (List.Subset.refl _)

end Join

/-- **The end of a path.**  The token ends; if it was the last active child, then its parent
    ends as well, and tokens above that may. -/
theorem EndState.enter_eq {E : EndState N} (hE : E.endCompleteProcess = false)
    (hn : s.tree.size ≤ n) (ht : s.tree.parent t = some p) (he : (s.status t).hasEnded = false) :
    ∃ s₁, s.Arrived E.node t s₁ ∧
      (Token.hasActiveChildren s.tree p s₁.status = true → E.enter n t s = some s₁) ∧
      (Token.hasActiveChildren s.tree p s₁.status = false → ∃ st,
        E.enter n t s = some { s₁ with status := st } ∧
        Token.Ends (s.tree.forest.Within · p) s₁.status st ∧ (st p).hasEnded = true) := by
  have hself : ((s.setNode t E.node).status t).hasEnded = false := by
    have h : (s.setNode t E.node).status t = { s.status t with node := some E.node } :=
      Function.update_self t _ s.status
    rw [h]
    exact he
  obtain ⟨st, hends, hended, hactive, hlast⟩ := Token.end_child (T := s.tree)
    ((Token.active_le (s.setNode t E.node).status).trans hn) ht hself
  refine ⟨_, Tokens.Arrived.of_ends he hends hended, fun h => ?_, fun h => ?_⟩
  · rw [enter, execute, hE, if_neg Bool.false_ne_true, Tokens.end_]
    exact congrArg _ (hactive h)
  · obtain ⟨st', hst', hends', hp⟩ := hlast h
    refine ⟨st', ?_, hends', hp⟩
    rw [enter, execute, hE, if_neg Bool.false_ne_true, Tokens.end_]
    exact congrArg _ hst'

/-! ## New tokens -/

namespace Tokens

/-- The tokens `ids` are new children of `p`, the others are as before. -/
structure Created (p : ℕ) (s : Tokens N) (ids : List ℕ) (s' : Tokens N) : Prop where
  left : s'.left = s.left
  nodup : ids.Nodup
  new : ∀ x ∈ ids, s.tree.size ≤ x ∧ s'.tree.parent x = some p ∧
    s'.status x = ⟨(s.status p).node, false, true⟩
  old : ∀ x < s.tree.size, s'.tree.parent x = s.tree.parent x ∧ s'.status x = s.status x
  size : s.tree.size ≤ s'.tree.size
  children : ∀ c ∈ s'.tree.children p, c ∈ s.tree.children p ∨ c.2 ∈ ids
  siblings : ∀ x, s'.tree.parent x = some p → s.tree.parent x = some p ∨ x ∈ ids

theorem create_tree (hp : p < s.tree.size) (name : String) :
    (s.create p name).tree.size = s.tree.size + 1 ∧
    (s.create p name).tree.parent = Function.update s.tree.parent s.tree.size (some p) ∧
    (s.create p name).tree.children = Function.update s.tree.children p
      (putChild name s.tree.size (s.tree.children p)) := by
  rw [create, TokenTree.addChild, dif_pos hp]
  exact ⟨rfl, rfl, rfl⟩

theorem Created.refl (p : ℕ) (s : Tokens N) : Created p s [] s :=
  ⟨rfl, List.nodup_nil, fun _ hx => (nomatch hx), fun _ _ => ⟨rfl, rfl⟩, le_rfl,
    fun _ hc => .inl hc, fun _ hx => .inl hx⟩

theorem created_create (hp : p < s.tree.size) (name : String) :
    Created p s [s.tree.size] (s.create p name) := by
  obtain ⟨hsize, hparent, hchildren⟩ := create_tree hp name
  constructor
  · rfl
  · exact List.nodup_singleton _
  · intro x hx
    obtain rfl := List.mem_singleton.1 hx
    rw [hparent]
    exact ⟨le_rfl, Function.update_self _ _ _, Function.update_self _ _ _⟩
  · intro x hx
    rw [hparent]
    exact ⟨Function.update_of_ne hx.ne _ _, Function.update_of_ne hx.ne _ _⟩
  · rw [hsize]
    exact Nat.le_succ _
  · intro c hc
    rw [hchildren, Function.update_self] at hc
    rcases eq_or_mem_of_mem_putChild hc with rfl | hc
    · exact .inr List.mem_cons_self
    · exact .inl hc
  · intro x hx
    rw [hparent] at hx
    by_cases hxs : x = s.tree.size
    · exact .inr (List.mem_singleton.2 hxs)
    · exact .inl ((Function.update_of_ne hxs _ _).symm.trans hx)

theorem Created.append {ids ids' : List ℕ} {s₂ : Tokens N} (hp : p < s.tree.size)
    (h : Created p s ids s₁) (h' : Created p s₁ ids' s₂) (hids : ∀ x ∈ ids, x < s₁.tree.size) :
    Created p s (ids ++ ids') s₂ where
  left := h'.left.trans h.left
  nodup := List.nodup_append'.2 ⟨h.nodup, h'.nodup, fun x hx hx' =>
    Nat.lt_irrefl x ((hids x hx).trans_le (h'.new x hx').1)⟩
  new x hx := by
    rcases List.mem_append.1 hx with hx | hx
    · obtain ⟨hparent, hstatus⟩ := h'.old x (hids x hx)
      rw [hparent, hstatus]
      exact h.new x hx
    · obtain ⟨hle, hparent, hstatus⟩ := h'.new x hx
      rw [(h.old p hp).2] at hstatus
      exact ⟨h.size.trans hle, hparent, hstatus⟩
  old x hx := by
    obtain ⟨hparent, hstatus⟩ := h'.old x (hx.trans_le h.size)
    rw [hparent, hstatus]
    exact h.old x hx
  size := h.size.trans h'.size
  children c hc := by
    rcases h'.children c hc with hc | hc
    · exact (h.children c hc).imp_right (List.mem_append_left ids')
    · exact .inr (List.mem_append_right ids hc)
  siblings x hx := by
    rcases h'.siblings x hx with hx | hx
    · exact (h.siblings x hx).imp_right (List.mem_append_left ids')
    · exact .inr (List.mem_append_right ids hx)

end Tokens

namespace Fork

theorem created_execute (hp : p < s.tree.size) (names : List (Option String)) :
    s.Created p (execute p names s).1 (execute p names s).2 := by
  induction names generalizing s with
  | nil => exact .refl p s
  | cons name names ih =>
    have hone := Tokens.created_create hp (getTokenName (s.tree.children p) name)
    have hsize : s.tree.size < (createForkedToken p name s).tree.size :=
      (createForkedToken p name s).tree.lt_size (hone.new _ List.mem_cons_self).2.1
    refine hone.append hp (ih (hp.trans hsize)) fun x hx => ?_
    exact List.mem_singleton.1 hx ▸ hsize

theorem length_execute (p : ℕ) (names : List (Option String)) (s : Tokens N) :
    (execute p names s).1.length = names.length := by
  induction names generalizing s with
  | nil => rfl
  | cons name names ih => exact congrArg (· + 1) (ih (createForkedToken p name s))

/-- No forked token has replaced another one in the map of the parent. -/
def KeepsChildren (p : ℕ) (names : List (Option String)) (s : Tokens N) : Prop :=
  ∀ x ∈ (execute p names s).1, x ∈ ((execute p names s).2.tree.children p).map (·.2)

instance (p : ℕ) (names : List (Option String)) (s : Tokens N) :
    Decidable (KeepsChildren p names s) :=
  inferInstanceAs (Decidable (∀ x ∈ _, _))

/-- Later transitions with names replace nobody. -/
theorem mem_children_execute {c : String × ℕ} (hp : p < s.tree.size)
    {names : List (Option String)} (hnames : none ∉ names) (hc : c ∈ s.tree.children p) :
    c ∈ (execute p names s).2.tree.children p := by
  induction names generalizing s with
  | nil => exact hc
  | cons name names ih =>
    obtain ⟨name, rfl⟩ := Option.ne_none_iff_exists'.1 fun h => hnames (h ▸ List.mem_cons_self)
    obtain ⟨hsize, -, hchildren⟩ := Tokens.create_tree hp
      (getTokenName (s.tree.children p) (some name))
    refine ih (s := createForkedToken p (some name) s) (hsize ▸ Nat.lt_succ_of_lt hp)
      (fun h => hnames (List.mem_cons_of_mem _ h)) ?_
    · rw [createForkedToken, hchildren, Function.update_self]
      exact mem_putChild_of_ne (fun he => notMem_getTokenName _ name (List.mem_map.2 ⟨c, hc, he⟩)) hc

/-- Children are replaced at most if the transition without a name is not the first one. -/
theorem keepsChildren_of_tail (hp : p < s.tree.size) {names : List (Option String)}
    (hnames : none ∉ names.tail) : KeepsChildren p names s := by
  induction names generalizing s with
  | nil => exact fun x hx => (nomatch hx)
  | cons name names ih =>
    obtain ⟨hsize, -, hchildren⟩ := Tokens.create_tree hp
      (getTokenName (s.tree.children p) name)
    have hp' : p < (createForkedToken p name s).tree.size := hsize ▸ Nat.lt_succ_of_lt hp
    intro x hx
    rcases List.mem_cons.1 hx with rfl | hx
    · refine List.mem_map.2 ⟨(getTokenName (s.tree.children p) name, s.tree.size), ?_, rfl⟩
      refine mem_children_execute hp' hnames ?_
      rw [createForkedToken, hchildren, Function.update_self]
      exact mem_putChild_self _
    · exact ih hp' (fun h => hnames (List.mem_of_mem_tail h)) x hx

end Fork

end Jbpm
