/-
  Trees of tokens, and how ending a token spreads in them: to its children, and to
  its parent if no other child of that is active.

  * `Token.end_below`: if the parent is not asked or has ended, only tokens below end;
  * `Token.end_above`: if no child is active, only tokens above end.
-/
import Mathlib.Data.Finset.Card
import Mathlib.Data.Finset.Range
import Mathlib.Data.List.Nodup
import Jbpm.Lib.Forest

namespace Jbpm

open Lib

/-- The tokens of a process instance.  Tokens are created below older ones.  A token may
    be replaced in the map of its parent by a token of the same name; it goes on
    referring to its parent. -/
structure TokenTree where
  size : ℕ
  parent : ℕ → Option ℕ
  children : ℕ → List (String × ℕ)
  parent_lt : ∀ {t p}, parent t = some p → p < t
  lt_size : ∀ {t p}, parent t = some p → t < size
  parent_of_mem : ∀ {p c}, c ∈ children p → parent c.2 = some p
  nodup_keys : ∀ p, ((children p).map (·.1)).Nodup

/-- `HashMap.put` -/
def putChild (name : String) (t : ℕ) : List (String × ℕ) → List (String × ℕ)
  | [] => [(name, t)]
  | c :: cs => if c.1 = name then (name, t) :: cs else c :: putChild name t cs

theorem eq_or_mem_of_mem_putChild {name : String} {t : ℕ} {c : String × ℕ} :
    ∀ {cs : List (String × ℕ)}, c ∈ putChild name t cs → c = (name, t) ∨ c ∈ cs
  | [], h => .inl (List.mem_singleton.1 h)
  | d :: cs, h => by
    rw [putChild] at h
    split at h
    · exact (List.mem_cons.1 h).imp_right (List.mem_cons_of_mem d)
    · rcases List.mem_cons.1 h with rfl | h
      · exact .inr List.mem_cons_self
      · exact (eq_or_mem_of_mem_putChild h).imp_right (List.mem_cons_of_mem d)

theorem nodup_putChild {name : String} {t : ℕ} :
    ∀ {cs : List (String × ℕ)}, (cs.map (·.1)).Nodup → ((putChild name t cs).map (·.1)).Nodup
  | [], _ => List.nodup_singleton name
  | d :: cs, h => by
    obtain ⟨hd, hcs⟩ := List.nodup_cons.1 h
    rw [putChild]
    split
    · next hname => exact List.nodup_cons.2 ⟨hname ▸ hd, hcs⟩
    · next hname =>
      refine List.nodup_cons.2 ⟨fun hmem => ?_, nodup_putChild hcs⟩
      obtain ⟨c, hc, he⟩ := List.mem_map.1 hmem
      rcases eq_or_mem_of_mem_putChild hc with rfl | hc
      · exact hname he.symm
      · exact hd (List.mem_map.2 ⟨c, hc, he⟩)

theorem mem_putChild_self {name : String} {t : ℕ} : ∀ cs : List (String × ℕ), (name, t) ∈ putChild name t cs
  | [] => List.mem_singleton_self _
  | d :: cs => by
    rw [putChild]
    split
    · exact List.mem_cons_self
    · exact List.mem_cons_of_mem d (mem_putChild_self cs)

/-- A child of another name is not replaced. -/
theorem mem_putChild_of_ne {name : String} {t : ℕ} {c : String × ℕ} (hc : c.1 ≠ name) :
    ∀ {cs : List (String × ℕ)}, c ∈ cs → c ∈ putChild name t cs
  | d :: cs, h => by
    rw [putChild]
    rcases List.mem_cons.1 h with rfl | h
    · rw [if_neg hc]
      exact List.mem_cons_self
    · split
      · exact List.mem_cons_of_mem _ h
      · exact List.mem_cons_of_mem _ (mem_putChild_of_ne hc h)

namespace TokenTree

def forest (T : TokenTree) : Forest ℕ where
  parent := T.parent
  depth := id
  depth_parent := T.parent_lt

def hasChild (T : TokenTree) (p : ℕ) (name : String) : Bool :=
  (T.children p).any (·.1 == name)

def getChild (T : TokenTree) (p : ℕ) (name : String) : Option ℕ :=
  ((T.children p).find? (·.1 == name)).map (·.2)

/-- `new Token(parent, name)` -/
def addChild (T : TokenTree) (p : ℕ) (name : String) : TokenTree :=
  if hp : p < T.size then {
    size := T.size + 1
    parent := Function.update T.parent T.size (some p)
    children := Function.update T.children p (putChild name T.size (T.children p))
    parent_lt := by
      intro t q h
      by_cases ht : t = T.size
      · subst ht
        rw [Function.update_self] at h
        exact Option.some.inj h ▸ hp
      · rw [Function.update_of_ne ht] at h
        exact T.parent_lt h
    lt_size := by
      intro t q h
      by_cases ht : t = T.size
      · omega
      · rw [Function.update_of_ne ht] at h
        exact Nat.lt_succ_of_lt (T.lt_size h)
    parent_of_mem := by
      intro q c h
      have old : ∀ {q}, c ∈ T.children q →
          Function.update T.parent T.size (some p) c.2 = some q := by
        intro q h
        have hc := T.parent_of_mem h
        rw [Function.update_of_ne (Nat.ne_of_lt (T.lt_size hc)), hc]
      by_cases hq : q = p
      · subst hq
        rw [Function.update_self] at h
        rcases eq_or_mem_of_mem_putChild h with rfl | h
        · rw [Function.update_self]
        · exact old h
      · rw [Function.update_of_ne hq] at h
        exact old h
    nodup_keys := by
      intro q
      by_cases hq : q = p
      · subst hq
        rw [Function.update_self]
        exact nodup_putChild (T.nodup_keys q)
      · rw [Function.update_of_ne hq]
        exact T.nodup_keys q }
  else T

/-- A root token. -/
def root : TokenTree where
  size := 1
  parent _ := none
  children _ := []
  parent_lt := nofun
  lt_size := nofun
  parent_of_mem := nofun
  nodup_keys _ := List.nodup_nil

/-- A child is found under its name. -/
theorem getChild_of_mem {T : TokenTree} {p : ℕ} {c : String × ℕ} (hc : c ∈ T.children p) :
    T.getChild p c.1 = some c.2 := by
  rcases hfind : (T.children p).find? (·.1 == c.1) with _ | d
  · exact absurd (List.find?_eq_none.1 hfind c hc) (by simp)
  · have hd : d.1 = c.1 := by simpa using List.find?_some hfind
    rw [getChild, hfind, List.inj_on_of_nodup_map (T.nodup_keys p) (List.mem_of_find?_eq_some hfind)
      hc hd]
    rfl

variable {T : TokenTree} {p t x : ℕ}

theorem lt_of_within (h : T.forest.Within x t) : x ≤ t := by
  rcases h with rfl | h
  · exact le_rfl
  · exact (Forest.depth_lt_of_mem h).le

theorem not_within_parent (ht : T.parent t = some p) : ¬ T.forest.Within t p := by
  intro h
  have hle := lt_of_within h
  have hlt := T.parent_lt ht
  omega

theorem not_within_sibling (ht : T.parent t = some p) (hx : T.parent x = some p) (hne : x ≠ t) :
    ¬ T.forest.Within t x := by
  rintro (h | h)
  · exact hne h.symm
  · exact not_within_parent ht ((Forest.mem_ancestors_of_parent hx).1 h)

end TokenTree

structure TokenStatus (N : Type) where
  node : Option N
  hasEnded : Bool
  isAbleToReactivateParent : Bool
  deriving DecidableEq

namespace Token

variable {N : Type} (T : TokenTree)

def hasActiveChildren (p : ℕ) (st : ℕ → TokenStatus N) : Bool :=
  (T.children p).any fun c => !(st c.2).hasEnded

/-- The end date is the flag that a token has ended; ended tokens cannot reactivate
    their parents. -/
def setEnd (x : TokenStatus N) : TokenStatus N :=
  { x with hasEnded := true, isAbleToReactivateParent := false }

/-- The loop over the children of a token. -/
def endActive (end_ : ℕ → (ℕ → TokenStatus N) → Option (ℕ → TokenStatus N))
    (cs : List (String × ℕ)) (st : ℕ → TokenStatus N) : Option (ℕ → TokenStatus N) :=
  cs.foldlM (fun st c => if (st c.2).hasEnded then some st else end_ c.2 st) st

/-- `end(verifyParentTermination)`.  Tokens that come to an end state or a join have no
    sub-process instance. -/
def end_ (n : ℕ) (verifyParentTermination : Bool) (t : ℕ) (st : ℕ → TokenStatus N) :
    Option (ℕ → TokenStatus N) :=
  if (st t).hasEnded then some st
  else
    match n with
    | 0 => none
    | n + 1 => do
      let st ← endActive (end_ n true) (T.children t) (Function.update st t (setEnd (st t)))
      if verifyParentTermination then
        -- notifyParentOfTokenEnd
        match T.parent t with
        | none => some st -- the process instance ends, and finds its root token ended
        | some p => if hasActiveChildren T p st then some st else end_ n true p st
      else some st

/-! ## Tokens that end -/

/-- Some tokens of `P` have ended, and nothing else has changed. -/
def Ends (P : ℕ → Prop) (st st' : ℕ → TokenStatus N) : Prop :=
  ∀ x, st' x = st x ∨ P x ∧ (st x).hasEnded = false ∧ st' x = setEnd (st x)

variable {T} {P Q : ℕ → Prop} {st st' st'' : ℕ → TokenStatus N} {n t x : ℕ} {v : Bool}

namespace Ends

theorem refl (P : ℕ → Prop) (st : ℕ → TokenStatus N) : Ends P st st := fun _ => .inl rfl

theorem mono (h : Ends P st st') (hPQ : ∀ x, P x → Q x) : Ends Q st st' :=
  fun x => (h x).imp_right fun h => ⟨hPQ x h.1, h.2⟩

theorem hasEnded (h : Ends P st st') (hx : (st x).hasEnded = true) : (st' x).hasEnded = true := by
  rcases h x with he | ⟨-, -, he⟩
  · rw [he, hx]
  · rw [he]
    rfl

theorem trans (h : Ends P st st') (h' : Ends P st' st'') : Ends P st st'' := by
  intro x
  rcases h' x with he' | ⟨hP, hx, he'⟩
  · rw [he']
    exact h x
  · rcases h x with he | ⟨-, -, he⟩
    · rw [he] at hx he'
      exact .inr ⟨hP, hx, he'⟩
    · rw [he] at hx
      cases hx

theorem update (ht : (st t).hasEnded = false) (hP : P t) :
    Ends P st (Function.update st t (setEnd (st t))) := by
  intro x
  by_cases hx : x = t
  · subst hx
    rw [Function.update_self]
    exact .inr ⟨hP, ht, rfl⟩
  · rw [Function.update_of_ne hx]
    exact .inl rfl

theorem eq (h : Ends P st st') (hx : ¬ P x) : st' x = st x :=
  (h x).resolve_right fun h => hx h.1

theorem node (h : Ends P st st') (x : ℕ) : (st' x).node = (st x).node := by
  rcases h x with he | ⟨-, -, he⟩
  · rw [he]
  · rw [he]
    rfl

/-- A token that was active before and has ended afterwards. -/
theorem eq_setEnd (h : Ends P st st') (hx : (st x).hasEnded = false)
    (hx' : (st' x).hasEnded = true) : st' x = setEnd (st x) := by
  rcases h x with he | ⟨-, -, he⟩
  · rw [he, hx] at hx'
    cases hx'
  · exact he

end Ends

variable (T) in
/-- The number of tokens that can end. -/
def active (st : ℕ → TokenStatus N) : ℕ :=
  ((Finset.range T.size).filter fun t => (st t).hasEnded = false).card

theorem active_le (st : ℕ → TokenStatus N) : active T st ≤ T.size :=
  (Finset.card_filter_le _ _).trans_eq (Finset.card_range _)

theorem Ends.active_le (h : Ends P st st') : active T st' ≤ active T st := by
  refine Finset.card_le_card fun x hx => ?_
  rw [Finset.mem_filter] at hx ⊢
  refine ⟨hx.1, ?_⟩
  rcases h x with he | ⟨-, h, -⟩
  · rw [← he, hx.2]
  · exact h

theorem Ends.active_lt (h : Ends P st st') (ht : t < T.size) (he : (st t).hasEnded = false)
    (he' : (st' t).hasEnded = true) : active T st' < active T st := by
  refine Nat.lt_of_le_of_ne h.active_le fun heq => ?_
  have hsub : ((Finset.range T.size).filter fun t => (st' t).hasEnded = false) ⊆
      (Finset.range T.size).filter fun t => (st t).hasEnded = false := by
    intro x hx
    rw [Finset.mem_filter] at hx ⊢
    rcases h x with hx' | ⟨-, hx', -⟩
    · exact ⟨hx.1, hx' ▸ hx.2⟩
    · exact ⟨hx.1, hx'⟩
  have hmem := (Finset.ext_iff.1 (Finset.eq_of_subset_of_card_le hsub heq.ge) t).2
    (Finset.mem_filter.2 ⟨Finset.mem_range.2 ht, he⟩)
  rw [Finset.mem_filter, he'] at hmem
  cases hmem.2

theorem active_update (ht : t < T.size) (he : (st t).hasEnded = false) :
    active T (Function.update st t (setEnd (st t))) < active T st :=
  (Ends.update he (P := (· = t)) rfl).active_lt ht he (by rw [Function.update_self]; rfl)

theorem end_of_hasEnded (h : (st t).hasEnded = true) : end_ T n v t st = some st := by
  unfold end_
  rw [if_pos h]

theorem end_succ (h : (st t).hasEnded = false) :
    end_ T (n + 1) v t st =
      (endActive (end_ T n true) (T.children t) (Function.update st t (setEnd (st t)))).bind
        fun st => if v then
            match T.parent t with
            | none => some st
            | some p => if hasActiveChildren T p st then some st else end_ T n true p st
          else some st := by
  rw [end_, if_neg (by rw [h]; decide)]
  rfl

/-- The loop leaves tokens alone that have ended. -/
theorem endActive_of_hasEnded {end_ : ℕ → (ℕ → TokenStatus N) → Option (ℕ → TokenStatus N)}
    {cs : List (String × ℕ)} (hcs : ∀ c ∈ cs, (st c.2).hasEnded = true) :
    endActive end_ cs st = some st := by
  induction cs with
  | nil => rfl
  | cons c cs ih =>
    rw [endActive, List.foldlM_cons, if_pos (hcs c List.mem_cons_self)]
    exact ih fun d hd => hcs d (List.mem_cons_of_mem c hd)

theorem endActive_below {end_ : ℕ → (ℕ → TokenStatus N) → Option (ℕ → TokenStatus N)}
    {cs : List (String × ℕ)} (hcs : ∀ c ∈ cs, T.parent c.2 = some t)
    (hend : ∀ c st, T.parent c = some t → active T st ≤ n → (st t).hasEnded = true →
      ∃ st', end_ c st = some st' ∧ Ends (T.forest.Within c ·) st st')
    (hn : active T st ≤ n) (ht : (st t).hasEnded = true) :
    ∃ st', endActive end_ cs st = some st' ∧ Ends (T.forest.Within t ·) st st' := by
  induction cs generalizing st with
  | nil => exact ⟨st, rfl, .refl _ _⟩
  | cons c cs ih =>
    have hc := hcs c List.mem_cons_self
    obtain ⟨st₁, hst₁, hends⟩ : ∃ st₁, (if (st c.2).hasEnded then some st
        else end_ c.2 st) = some st₁ ∧ Ends (T.forest.Within t ·) st st₁ := by
      split
      · exact ⟨st, rfl, .refl _ _⟩
      · obtain ⟨st₁, hst₁, hends⟩ := hend c.2 st hc hn ht
        exact ⟨st₁, hst₁, hends.mono fun x hx =>
          Forest.Within.trans (.inr ((Forest.mem_ancestors_of_parent hc).2 (.inl rfl))) hx⟩
    obtain ⟨st₂, hst₂, hends₂⟩ := ih (fun d hd => hcs d (List.mem_cons_of_mem c hd))
      (hends.active_le.trans hn) (hends.hasEnded ht)
    refine ⟨st₂, ?_, hends.trans hends₂⟩
    rw [endActive, List.foldlM_cons, hst₁]
    exact hst₂

/-- **Ending spreads downwards.**  If the parent is not asked, or has ended before, then only
    the token and tokens below it end. -/
theorem end_below (hn : active T st ≤ n) (ht : t < T.size)
    (hv : v = false ∨ ∃ p, T.parent t = some p ∧ (st p).hasEnded = true) :
    ∃ st', end_ T n v t st = some st' ∧ Ends (T.forest.Within t ·) st st' ∧
      (st' t).hasEnded = true := by
  induction n generalizing v t st with
  | zero =>
    by_cases he : (st t).hasEnded = true
    · exact ⟨st, end_of_hasEnded he, .refl _ _, he⟩
    · have hlt := active_update ht (Bool.eq_false_iff.2 he)
      omega
  | succ n ih =>
    by_cases he : (st t).hasEnded = true
    · exact ⟨st, end_of_hasEnded he, .refl _ _, he⟩
    have he := Bool.eq_false_iff.2 he
    have hlt := active_update ht he
    obtain ⟨st₂, hst₂, hends⟩ : ∃ st₂, endActive (end_ T n true) (T.children t)
        (Function.update st t (setEnd (st t))) = some st₂ ∧
        Ends (T.forest.Within t ·) (Function.update st t (setEnd (st t))) st₂ :=
      endActive_below (fun c hc => T.parent_of_mem hc)
        (fun c st₁ hc hn₁ ht₁ => by
          obtain ⟨st₂, hst₂, hends, -⟩ := ih hn₁ (T.lt_size hc) (.inr ⟨t, hc, ht₁⟩)
          exact ⟨st₂, hst₂, hends⟩)
        (Nat.le_of_lt_succ (hlt.trans_le hn)) (by rw [Function.update_self]; rfl)
    have hends₁ : Ends (T.forest.Within t ·) st (Function.update st t (setEnd (st t))) :=
      .update he (.inl rfl)
    refine ⟨st₂, ?_, hends₁.trans hends, hends.hasEnded (by rw [Function.update_self]; rfl)⟩
    rw [end_succ he, hst₂, Option.bind_some]
    rcases hv with rfl | ⟨p, hp, hpe⟩
    · rfl
    · have hpe₂ := (hends₁.trans hends).hasEnded hpe
      simp only [hp, end_of_hasEnded hpe₂, ite_self]

/-- **Ending spreads upwards.**  If no child is active, then only the token and tokens above
    it end. -/
theorem end_above (hn : active T st ≤ n) (ht : t < T.size)
    (hc : hasActiveChildren T t st = false) :
    ∃ st', end_ T n true t st = some st' ∧ Ends (T.forest.Within · t) st st' ∧
      (st' t).hasEnded = true := by
  induction n generalizing t st with
  | zero =>
    by_cases he : (st t).hasEnded = true
    · exact ⟨st, end_of_hasEnded he, .refl _ _, he⟩
    · have hlt := active_update ht (Bool.eq_false_iff.2 he)
      omega
  | succ n ih =>
    by_cases he : (st t).hasEnded = true
    · exact ⟨st, end_of_hasEnded he, .refl _ _, he⟩
    have he := Bool.eq_false_iff.2 he
    have hends₁ : Ends (T.forest.Within · t) st (Function.update st t (setEnd (st t))) :=
      .update he (.inl rfl)
    rw [end_succ he, endActive_of_hasEnded fun c hc' => hends₁.hasEnded ?_, Option.bind_some, if_pos rfl]
    · rcases hp : T.parent t with _ | p
      · exact ⟨_, rfl, hends₁, by rw [Function.update_self]; rfl⟩
      have hlt := active_update ht he
      simp only
      split
      · exact ⟨_, rfl, hends₁, by rw [Function.update_self]; rfl⟩
      · next hpa =>
        obtain ⟨st', hst', hends, -⟩ := ih (Nat.le_of_lt_succ (hlt.trans_le hn))
          ((T.parent_lt hp).trans ht) (Bool.eq_false_iff.2 hpa)
        have hends := hends.mono (Q := (T.forest.Within · t)) fun x hx =>
          .inr ((Forest.mem_ancestors_of_parent hp).2 hx)
        exact ⟨st', hst', hends₁.trans hends, hends.hasEnded (by rw [Function.update_self]; rfl)⟩
    · rw [hasActiveChildren, List.any_eq_false] at hc
      simpa using hc c hc'

/-- A child that ends lets its parent end if it was the last active one. -/
theorem end_child {p : ℕ} (hn : active T st ≤ n) (ht : T.parent t = some p)
    (he : (st t).hasEnded = false) :
    ∃ st₁, Ends (T.forest.Within t ·) st st₁ ∧ (st₁ t).hasEnded = true ∧
      (hasActiveChildren T p st₁ = true → end_ T n true t st = some st₁) ∧
      (hasActiveChildren T p st₁ = false → ∃ st₂, end_ T n true t st = some st₂ ∧
        Ends (T.forest.Within · p) st₁ st₂ ∧ (st₂ p).hasEnded = true) := by
  obtain ⟨st₁, hst₁, hends, ht₁⟩ := end_below hn (T.lt_size ht) (.inl rfl)
  have hn₁ := hends.active_lt (T.lt_size ht) he ht₁
  obtain ⟨n, rfl⟩ : ∃ m, n = m + 1 := ⟨n - 1, by omega⟩
  rw [end_succ he] at hst₁ ⊢
  obtain ⟨st', hst', hif⟩ := Option.bind_eq_some_iff.1 hst₁
  obtain rfl := Option.some.inj hif
  rw [hst', Option.bind_some, if_pos rfl, ht]
  refine ⟨st', hends, ht₁, fun h => if_pos h, fun h => ?_⟩
  obtain ⟨st₂, hst₂, hends₂, hp⟩ := end_above (T := T) (t := p) (n := n) (by omega)
    ((T.parent_lt ht).trans (T.lt_size ht)) h
  exact ⟨st₂, by simp only [h, Bool.false_eq_true, if_false, hst₂], hends₂, hp⟩

end Token

end Jbpm
