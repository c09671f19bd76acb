/-
  The compensation of a scope's children, when the query that looks for the next
  one finds only them.

  * `Safe`: the steps that keep to that;
  * `Core`, `Inv`: the invariant;
  * `ordered_of_safe`: in every run of safe steps the completed children of a scope
    instance are compensated in reverse order, each once, and then the requester
    is resumed once;
  * `not_ordered`: a run in which a deeper descendant is compensated.
-/
import Jbpm.Bpel.Compensation

namespace Jbpm

open Lib ScopeState

/-- The states of a requester that is waiting. -/
def Requester.states : Requester → List ScopeState
  | scope _ => [.fd, .td, .cd]
  | activity _ => [.fe, .te, .ce]

namespace ScopeInsts

variable {p : ScopeInsts}

/-! ## Safe steps -/

/-- The completed children of `s` are instances of scopes nested in its primary
    activity; every other completed instance of these scopes ended before one of
    the children; and no two children ended at the same time. -/
def Clean (p : ScopeInsts) (s : ℕ) : Prop :=
  (∀ i ∈ p.completedChildren s, (p.inst i).node ∈ (p.inst s).definition.findNestedScopes) ∧
  (∀ i < p.size, p.Selected s i → (p.inst i).parent = some s ∨
    ∃ c ∈ p.completedChildren s, p.endOf i < p.endOf c) ∧
  ∀ i ∈ p.completedChildren s, ∀ j ∈ p.completedChildren s, p.endOf i = p.endOf j → i = j

instance (s : ℕ) : Decidable (p.Clean s) := inferInstanceAs (Decidable (_ ∧ _))

/-- The compensation of the children of `s` does not go on: the last child that
    was compensated has faulted. -/
def Broken (p : ScopeInsts) (s : ℕ) : Prop :=
  ∀ r < p.requests, p.Waiting s r →
    ∃ c ∈ (p.request r).done.getLast?, (p.inst c).state = .ef

instance (s : ℕ) : Decidable (p.Broken s) := inferInstanceAs (Decidable (∀ r < p.requests, _))

/-- Nobody waits for the parent of `i` to have its children compensated. -/
def Unawaited (p : ScopeInsts) (i : ℕ) : Prop :=
  ∀ s ∈ (p.inst i).parent, ∀ r < p.requests, ¬ p.Waiting s r

instance (i : ℕ) : Decidable (p.Unawaited i) :=
  inferInstanceAs (Decidable (∀ s ∈ (p.inst i).parent, _))

def Safe (p : ScopeInsts) : Step → Prop
  | .create _ _ _ => True
  | .signal i x _ _ => (x = .faulted → p.Broken i) ∧
      (x = .completed → (p.inst i).state ∈ [.ap, .ae] → p.Unawaited i)
  | .compensate token _ => token.branch = none ∧ p.Clean token.scope
  | .compensateScope n => p.Unawaited n
  | .call _ => ∀ c ∈ p.call,
      (∀ s ∈ p.queried c, p.Clean s) ∧ ∀ s ∈ c.faultedScope, p.Broken s

instance : ∀ x, Decidable (p.Safe x)
  | .create _ _ _ => .isTrue trivial
  | .signal _ _ _ _ | .compensate _ _ => inferInstanceAs (Decidable (_ ∧ _))
  | .compensateScope n => inferInstanceAs (Decidable (p.Unawaited n))
  | .call _ => inferInstanceAs (Decidable (∀ c ∈ p.call, _))

/-! ## The invariant -/

/-- The instance was compensated, or is being so. -/
def Compensated (p : ScopeInsts) (i : ℕ) : Prop := (p.inst i).state ∈ [.cd, .ce, .ct, .ef, .ec]

/-- A request, `f` being the one that the pending call is about. -/
structure RequestInv (p : ScopeInsts) (f : Option ℕ) (r : ℕ) : Prop where
  enclosing : (p.request r).enclosing < p.size ∧
    (p.inst (p.request r).enclosing).state ∉ [.ap, .ae, .fp, .tp, .ea] ∧
      ((p.request r).requester = .scope (p.request r).enclosing →
        (p.inst (p.request r).enclosing).state ∉ [.fe, .te, .ce])
  who : (p.request r).requester = .scope (p.request r).enclosing ∨
    (p.request r).requester = .activity ⟨(p.request r).enclosing, none⟩
  done : ∀ i ∈ (p.request r).done, i < p.size ∧ (p.inst i).request = some r ∧
    (p.inst i).parent = some (p.request r).enclosing ∧ p.Compensated i
  nodup : (p.request r).children.Nodup
  sublist : (p.request r).children.Sublist p.completions
  children : (p.request r).resumed = [] →
    (p.request r).children = (p.request r).done ++ p.completedChildren (p.request r).enclosing
  focus : (p.request r).resumed = [] → f = some r → ∀ i ∈ (p.request r).done, (p.inst i).state = .ec
  last : (p.request r).resumed = [] → f ≠ some r → ∃ front c, (p.request r).done = front ++ [c] ∧
    (∀ i ∈ front, (p.inst i).state = .ec) ∧ (p.inst c).state ∈ [.cd, .ce, .ct, .ef]
  live : (p.request r).resumed = [] →
    (∀ c, (p.request r).done.getLast? = some c → (p.inst c).state ≠ .ef) →
      (p.inst (p.request r).enclosing).state ∈ (p.request r).requester.states
  resumed : (p.request r).resumed ≠ [] → (p.request r).resumed = [(p.request r).requester] ∧
    (p.request r).done = (p.request r).children ∧ ∀ i ∈ (p.request r).done, (p.inst i).state = .ec

structure Completions (p : ScopeInsts) : Prop where
  completed : ∀ i, (p.inst i).state = .ea →
    i < p.size ∧ i ∈ p.completions ∧ (p.inst i).endDate.isSome
  mem : ∀ i ∈ p.completions, i < p.size ∧ ((p.inst i).state = .ea ∨ p.Compensated i) ∧
    p.endOf i ≤ p.clock
  nodup : p.completions.Nodup
  sorted : p.completions.Pairwise fun i j => p.endOf j ≤ p.endOf i

structure Requests (p : ScopeInsts) (f : Option ℕ) : Prop where
  request : ∀ r < p.requests, p.RequestInv f r
  own : ∀ i r, (p.inst i).request = some r → r < p.requests ∧ i ∈ (p.request r).done ∧
    (p.inst i).compensator = some (p.request r).requester.compensator
  unique : ∀ s r r', p.Waiting s r → p.Waiting s r' → r = r'
  focus : ∀ r, f = some r → p.Waiting (p.request r).enclosing r

/-! ## Changes of one instance -/

theorem completedChildren_congr {q : ScopeInsts} (s : ℕ) (hc : q.completions = p.completions)
    (h : ∀ i ∈ p.completions, ((q.inst i).state = .ea ∧ (q.inst i).parent = some s) ↔
      ((p.inst i).state = .ea ∧ (p.inst i).parent = some s)) :
    q.completedChildren s = p.completedChildren s := by
  unfold completedChildren
  rw [hc]
  exact List.filter_congr fun i hi => by simp only [h i hi]

/-- The requests do not mind that instance `i` becomes `x`, if it was neither
    compensated nor faulted and its state allows for the requests it is in. -/
theorem Requests.update {f : Option ℕ} (h : p.Requests f) {q : ScopeInsts} {i : ℕ} {x : ScopeInst}
    (hi : q.inst = Function.update p.inst i x) (hr : q.request = p.request)
    (hn : q.requests = p.requests) (hs : p.size ≤ q.size)
    (hc : p.completions.Sublist q.completions)
    (hcc : ∀ s r, p.Waiting s r → q.completedChildren s = p.completedChildren s)
    (hd : ∀ r < p.requests, i ∈ (p.request r).done → x.request = (p.inst i).request ∧
      x.parent = (p.inst i).parent ∧ x.state ∈ [.cd, .ce, .ct, .ef] ∧
        (p.inst i).state ∉ [.ec, .ef])
    (hx : ∀ r, x.request = some r →
      (p.inst i).request = some r ∧ x.compensator = (p.inst i).compensator)
    (he : ∀ r < p.requests, (p.request r).enclosing = i →
      x.state ∉ [.ap, .ae, .fp, .tp, .ea, .fe, .te, .ce])
    (hl : ∀ r, p.Waiting i r →
      (∀ c, (p.request r).done.getLast? = some c → (p.inst c).state ≠ .ef) →
        x.state ∈ (p.request r).requester.states) :
    q.Requests f := by
  constructor
  · intro r hlt
    rw [hn] at hlt
    have hq := h.request r hlt
    constructor
    · have := hq.enclosing
      simp only [hi, hr, Function.update_apply]
      grind
    · rw [hr]; exact hq.who
    · have := hq.done
      simp only [hi, hr, Function.update_apply, Compensated] at *
      grind
    · rw [hr]; exact hq.nodup
    · rw [hr]; exact hq.sublist.trans hc
    · intro hn
      rw [hr] at hn ⊢
      rw [hcc _ r ⟨hlt, rfl, hn⟩]
      exact hq.children hn
    · have := hq.focus
      simp only [hi, hr, Function.update_apply]
      grind
    · intro hn hf
      rw [hr] at hn ⊢
      obtain ⟨front, c, hd', hfront, hst⟩ := hq.last hn hf
      refine ⟨front, c, hd', fun j hj => ?_, ?_⟩
      · have hj' := hd r hlt
        have hec := hfront j hj
        simp only [hi, Function.update_apply]
        split
        · rename_i heq
          subst heq
          simp [hd', hj, hec] at hj'
        · exact hec
      · have hc' := hd r hlt
        simp only [hi, Function.update_apply]
        split
        · rename_i heq
          subst heq
          exact (hc' (by simp [hd'])).2.2.1
        · exact hst
    · have := hq.live
      simp only [hi, hr, Function.update_apply, Waiting] at *
      grind
    · have := hq.resumed
      simp only [hi, hr, Function.update_apply]
      grind
  · have := h.own
    simp only [hi, hr, hn, Function.update_apply]
    grind
  · have := h.unique
    simp only [Waiting, hr, hn] at *
    exact this
  · have := h.focus
    simp only [Waiting, hr, hn] at *
    exact this

/-- The completions do not mind that instance `i` becomes `x`, if it does not
    complete. -/
theorem Completions.update (h : p.Completions) {q : ScopeInsts} {i : ℕ} {x : ScopeInst}
    (hi : q.inst = Function.update p.inst i x) (hs : p.size ≤ q.size)
    (hc : q.completions = p.completions) (hk : q.clock = p.clock)
    (hx : i ∈ p.completions → x.state ∈ [.cd, .ce, .ct, .ef, .ec] ∧ x.endDate = (p.inst i).endDate)
    (hea : x.state ≠ .ea) : q.Completions := by
  have hend : ∀ j ∈ p.completions, q.endOf j = p.endOf j := by
    intro j hj
    simp only [endOf, hi, Function.update_apply]
    grind
  constructor
  · have := h.completed
    simp only [hi, hc, Function.update_apply]
    grind
  · rw [hc, hk]
    intro j hj
    rw [hend j hj]
    have := h.mem j hj
    simp only [hi, Function.update_apply, Compensated] at *
    grind
  · rw [hc]; exact h.nodup
  · rw [hc]
    refine h.sorted.imp_of_mem fun {j k} hj hk hle => ?_
    rwa [hend j hj, hend k hk]

theorem waiting_openRequest {s t r : ℕ} {who : Requester} :
    (p.openRequest s who).Waiting t r ↔ (r = p.requests ∧ t = s) ∨ p.Waiting t r := by
  simp only [Waiting, openRequest]
  by_cases hr : r = p.requests
  · subst hr
    rw [Function.update_self]
    constructor
    · rintro ⟨-, rfl, -⟩
      exact .inl ⟨rfl, rfl⟩
    · rintro (⟨-, rfl⟩ | ⟨hlt, -⟩)
      · exact ⟨Nat.lt_succ_self _, rfl, rfl⟩
      · exact absurd hlt (lt_irrefl _)
  · rw [Function.update_of_ne hr]
    constructor
    · rintro ⟨hlt, h⟩
      exact .inr ⟨by omega, h⟩
    · rintro (⟨h, -⟩ | ⟨hlt, h⟩)
      · exact absurd h hr
      · exact ⟨by omega, h⟩

structure Core (p : ScopeInsts) (f : Option ℕ) : Prop where
  completions : p.Completions
  requests : p.Requests f

namespace Core

variable {f : Option ℕ} {i : ℕ} {st : ScopeState}

theorem setState (h : p.Core f)
    (ho : (p.inst i).state ≠ .ea ∧ (p.inst i).state ≠ .ec ∧ (p.inst i).state ≠ .ef) (hst : st ≠ .ea)
    (hc : p.Compensated i → st ∈ [.cd, .ce, .ct, .ef])
    (hr : st ∉ [.ap, .ae, .fp, .tp, .fe, .te, .ce] ∨ ∀ r < p.requests, (p.request r).enclosing ≠ i)
    (hl : ∀ r, p.Waiting i r →
      (∀ c, (p.request r).done.getLast? = some c → (p.inst c).state ≠ .ef) →
        st ∈ (p.request r).requester.states) :
    (p.setState i st).Core f := by
  refine ⟨h.completions.update rfl le_rfl rfl rfl (fun hi => ⟨?_, rfl⟩) hst,
    h.requests.update rfl rfl rfl le_rfl (.refl _) (fun s _ _ => ?_) (fun r hr hi => ?_)
      (fun r hx => ⟨hx, rfl⟩) (fun r hr' hi => ?_) hl⟩
  · have hm := (h.completions.mem i hi).2.1.resolve_left ho.1
    have := hc hm
    grind
  · refine completedChildren_congr s rfl fun j _ => ?_
    simp only [ScopeInsts.setState, Function.update_apply]
    grind
  · have := hc (((h.requests.request r hr).done i hi).2.2.2)
    grind
  · grind

/-- The compensation of a child has come to its end. -/
theorem compensated (h : p.Core none) (hi : (p.inst i).state ∈ [.cd, .ce])
    (hw : p.Broken i) : (p.setState i .ec).Core (p.inst i).request := by
  refine ⟨h.completions.update rfl le_rfl rfl rfl (fun _ => ⟨by simp, rfl⟩) nofun, ?_⟩
  have hcc : ∀ s, (p.setState i .ec).completedChildren s = p.completedChildren s := by
    intro s
    refine completedChildren_congr s rfl fun j _ => ?_
    simp only [ScopeInsts.setState, Function.update_apply]
    grind
  constructor
  · intro r hlt
    have hlt : r < p.requests := hlt
    have hq := h.requests.request r hlt
    have hlast := fun hn => hq.last hn (Option.some_ne_none r).symm
    have hdone := hq.done
    constructor
    · have := hq.enclosing
      simp only [ScopeInsts.setState, Function.update_apply]
      grind
    · exact hq.who
    · simp only [ScopeInsts.setState, Function.update_apply, Compensated] at *
      grind
    · exact hq.nodup
    · exact hq.sublist
    · intro hn
      rw [hcc]
      exact hq.children hn
    · intro hn hf j hj
      obtain ⟨front, c, hd, hfront, -⟩ := hlast hn
      have hi' := (h.requests.own i r hf).2.1
      simp only [ScopeInsts.setState, Function.update_apply] at *
      grind
    · intro hn hf
      obtain ⟨front, c, hd, hfront, hc⟩ := hlast hn
      have hi' : i ∉ (p.request r).done := fun hm => hf (hdone i hm).2.1
      refine ⟨front, c, hd, ?_, ?_⟩
      · simp only [ScopeInsts.setState, Function.update_apply]
        grind
      · simp only [ScopeInsts.setState, Function.update_apply]
        grind
    · have := hq.live
      have := hw r
      simp only [ScopeInsts.setState, Function.update_apply, Waiting] at *
      grind
    · have := hq.resumed
      simp only [ScopeInsts.setState, Function.update_apply]
      grind
  · have := h.requests.own
    simp only [ScopeInsts.setState, Function.update_apply]
    grind
  · exact h.requests.unique
  · intro r hr
    obtain ⟨hlt, hd, -⟩ := h.requests.own i r hr
    have := (h.requests.request r hlt).resumed
    refine ⟨hlt, rfl, ?_⟩
    show (p.request r).resumed = []
    grind

theorem openRequest (h : p.Core none) {s : ℕ} {who : Requester} (hs : s < p.size)
    (hst : (p.inst s).state ∈ who.states) (hwho : who = .scope s ∨ who = .activity ⟨s, none⟩)
    (hw : ∀ r, ¬ p.Waiting s r) : (p.openRequest s who).Core (some p.requests) := by
  have hcompl := h.completions
  refine ⟨⟨hcompl.completed, hcompl.mem, hcompl.nodup, hcompl.sorted⟩, ?_⟩
  constructor
  · intro r hlt
    rcases Nat.lt_succ_iff_lt_or_eq.1 hlt with hlt | rfl
    · have hne : r ≠ p.requests := hlt.ne
      have hq := h.requests.request r hlt
      constructor <;> simp only [ScopeInsts.openRequest, Function.update_apply, if_neg hne]
      · exact hq.enclosing
      · exact hq.who
      · exact hq.done
      · exact hq.nodup
      · exact hq.sublist
      · exact hq.children
      · exact fun _ he => absurd (Option.some.inj he).symm hne
      · exact fun hn _ => hq.last hn (Option.some_ne_none r).symm
      · exact hq.live
      · exact hq.resumed
    · constructor <;> simp only [ScopeInsts.openRequest, Function.update_self]
      · refine ⟨hs, ?_⟩
        rcases hwho with rfl | rfl <;> simp only [Requester.states] at hst <;> grind
      · exact hwho
      · exact fun _ hm => (List.not_mem_nil hm).elim
      · exact hcompl.nodup.filter _
      · exact List.filter_sublist
      · exact fun _ => rfl
      · exact fun _ _ _ hm => (List.not_mem_nil hm).elim
      · exact fun _ hne => absurd rfl hne
      · exact fun _ _ => hst
      · exact fun hne => absurd rfl hne
  · intro i r hr
    obtain ⟨hlt, hd⟩ := h.requests.own i r hr
    refine ⟨Nat.lt_succ_of_lt hlt, ?_⟩
    simpa only [ScopeInsts.openRequest, Function.update_apply, if_neg hlt.ne] using hd
  · intro t r r' hr hr'
    rw [waiting_openRequest] at hr hr'
    rcases hr with ⟨rfl, rfl⟩ | hr <;> rcases hr' with ⟨rfl, ht⟩ | hr'
    · rfl
    · exact absurd hr' (hw r')
    · exact absurd (ht ▸ hr) (hw r)
    · exact h.requests.unique t r r' hr hr'
  · intro r hr
    cases hr
    exact waiting_openRequest.2 (.inl ⟨rfl, by simp only [ScopeInsts.openRequest, Function.update_self]⟩)

theorem mem_completedChildren {s : ℕ} : i ∈ p.completedChildren s ↔
    i ∈ p.completions ∧ (p.inst i).state = .ea ∧ (p.inst i).parent = some s := by
  simp [completedChildren]

/-- An instance that has completed is in no request yet. -/
theorem not_mem_done (h : p.Core f) (hi : (p.inst i).state = .ea) {r : ℕ} (hr : r < p.requests) :
    i ∉ (p.request r).done := by
  intro hm
  have := ((h.requests.request r hr).done i hm).2.2.2
  simp [Compensated, hi] at this

theorem enclosing_ne (h : p.Core f) (hi : (p.inst i).state = .ea) {r : ℕ} (hr : r < p.requests) :
    (p.request r).enclosing ≠ i := by
  rintro rfl
  have := (h.requests.request r hr).enclosing.2.1
  simp [hi] at this

/-- The child is compensated, explicitly or not. -/
theorem child {r n : ℕ} (h : p.Core (some r)) {rest : List ℕ}
    (hn : p.completedChildren (p.request r).enclosing = n :: rest) (hst : st ∈ [.cd, .ce]) :
    Core { p with
      inst := Function.update p.inst n { p.inst n with
        state := st, compensator := some (p.request r).requester.compensator, request := some r }
      request := Function.update p.request r
        { p.request r with done := (p.request r).done ++ [n] } } none := by
  obtain ⟨hcompl, hea, hpar⟩ := mem_completedChildren.1 (hn ▸ List.mem_cons_self : n ∈ _)
  obtain ⟨hlt, -, hres⟩ := h.requests.focus r rfl
  refine ⟨h.completions.update rfl le_rfl rfl rfl (fun _ => ⟨?_, rfl⟩) ?_, ?_⟩
  · have := hst
    grind
  · have := hst
    grind
  generalize hq : ({ p with
      inst := Function.update p.inst n { p.inst n with
        state := st, compensator := some (p.request r).requester.compensator, request := some r }
      request := Function.update p.request r
        { p.request r with done := (p.request r).done ++ [n] } } : ScopeInsts) = q
  have hcc : ∀ t, q.completedChildren t = (p.completedChildren t).filter (· ≠ n) := by
    intro t
    subst hq
    simp only [completedChildren, List.filter_filter]
    refine List.filter_congr fun j _ => ?_
    simp only [Function.update_apply]
    grind
  constructor
  · intro r' hr'
    have hlt' : r' < p.requests := by subst hq; exact hr'
    have hx := h.requests.request r' hlt'
    have hdn := h.not_mem_done hea hlt'
    have hne := h.enclosing_ne hea hlt'
    by_cases hrr : r' = r
    · subst hrr
      have hfocus := hx.focus hres rfl
      constructor
      · subst hq
        simp only [Function.update_self, Function.update_of_ne hne]
        exact hx.enclosing
      · subst hq
        simp only [Function.update_self]
        exact hx.who
      · subst hq
        have := hx.done
        have := (h.completions.mem n hcompl).1
        simp only [Function.update_self, Compensated, Function.update_apply] at *
        grind
      · subst hq
        simp only [Function.update_self]
        exact hx.nodup
      · subst hq
        simp only [Function.update_self]
        exact hx.sublist
      · intro hn'
        rw [hcc]
        have hnd : (n :: rest).Nodup := by
          rw [← hn]; exact h.completions.nodup.filter _
        subst hq
        simp only [Function.update_self] at *
        have hrest : rest.filter (· ≠ n) = rest :=
          List.filter_eq_self.2 fun j hj => decide_eq_true fun he =>
            (List.nodup_cons.1 hnd).1 (he ▸ hj)
        rw [hx.children hres, hn, List.append_assoc, List.filter_cons_of_neg (by simp), hrest]
        rfl
      · exact fun _ h => (Option.some_ne_none _ h.symm).elim
      · subst hq
        intro _ _
        refine ⟨(p.request r').done, n, by simp only [Function.update_self], ?_, ?_⟩
        · simp only [Function.update_apply]
          grind
        · simp only [Function.update_self]
          grind
      · subst hq
        have := hx.live hres
        simp only [Function.update_self, Function.update_of_ne hne] at *
        grind
      · subst hq
        simp only [Function.update_self]
        exact fun hn => absurd hres hn
    · have hreq : q.request r' = p.request r' := by
        subst hq
        exact Function.update_of_ne hrr _ _
      have hinst : ∀ j, j ≠ n → q.inst j = p.inst j := by
        subst hq
        exact fun j hj => Function.update_of_ne hj _ _
      have hsize : q.size = p.size ∧ q.completions = p.completions := by subst hq; exact ⟨rfl, rfl⟩
      have hd : ∀ j ∈ (p.request r').done, q.inst j = p.inst j :=
        fun j hj => hinst j fun he => hdn (he ▸ hj)
      constructor <;> rw [hreq]
      · rw [hinst _ hne, hsize.1]; exact hx.enclosing
      · exact hx.who
      · intro j hj
        rw [Compensated, hd j hj, hsize.1]
        exact hx.done j hj
      · exact hx.nodup
      · rw [hsize.2]; exact hx.sublist
      · intro hn'
        have hs : (p.request r').enclosing ≠ (p.request r).enclosing := fun he =>
          hrr (h.requests.unique _ r' r ⟨hlt', rfl, hn'⟩ ⟨hlt, he.symm, hres⟩)
        rw [hcc, List.filter_eq_self.2]
        · exact hx.children hn'
        · intro j hj
          refine decide_eq_true fun he => hs ?_
          have hj' := (mem_completedChildren.1 hj).2.2
          rw [he, hpar] at hj'
          exact (Option.some.inj hj').symm
      · exact fun _ h => (Option.some_ne_none _ h.symm).elim
      · intro hn' _
        obtain ⟨front, c, hdone, hfront, hc⟩ := hx.last hn' fun he => hrr (Option.some.inj he).symm
        refine ⟨front, c, hdone, fun j hj => ?_, ?_⟩
        · rw [hd j (hdone ▸ List.mem_append_left _ hj)]
          exact hfront j hj
        · rwa [hd c (by simp [hdone])]
      · intro hn' hef
        rw [hinst _ hne]
        refine hx.live hn' fun c hc => ?_
        have := hef c hc
        rwa [hd c (List.mem_of_getLast? hc)] at this
      · intro hn'
        refine ⟨(hx.resumed hn').1, (hx.resumed hn').2.1, fun j hj => ?_⟩
        rw [hd j hj]
        exact (hx.resumed hn').2.2 j hj
  · intro j r' hj
    subst hq
    have := h.requests.own j r'
    simp only [Function.update_apply] at *
    grind
  · intro s r₁ r₂ h₁ h₂
    subst hq
    have := h.requests.unique s r₁ r₂
    simp only [Waiting, Function.update_apply] at *
    grind
  · exact fun _ h => (Option.some_ne_none _ h.symm).elim

theorem resume {r : ℕ} (h : p.Core (some r))
    (hn : p.completedChildren (p.request r).enclosing = []) :
    (p.resume r (p.request r).requester).Core none := by
  have hcompl := h.completions
  obtain ⟨hlt, -, hres⟩ := h.requests.focus r rfl
  refine ⟨⟨hcompl.completed, hcompl.mem, hcompl.nodup, hcompl.sorted⟩, ?_⟩
  constructor
  · intro r' hlt'
    have hlt' : r' < p.requests := hlt'
    have hq := h.requests.request r' hlt'
    by_cases hrr : r' = r
    · subst hrr
      have hfocus := hq.focus hres rfl
      have hchildren := hq.children hres
      rw [hn, List.append_nil] at hchildren
      constructor <;> simp only [ScopeInsts.resume, Function.update_self, hres, List.nil_append]
      · exact hq.enclosing
      · exact hq.who
      · exact hq.done
      · exact hq.nodup
      · exact hq.sublist
      · simp
      · simp
      · simp
      · simp
      · exact fun _ => ⟨trivial, hchildren.symm, hfocus⟩
    · constructor <;> simp only [ScopeInsts.resume, Function.update_of_ne hrr]
      · exact hq.enclosing
      · exact hq.who
      · exact hq.done
      · exact hq.nodup
      · exact hq.sublist
      · exact hq.children
      · simp
      · exact fun h' _ => hq.last h' fun he => hrr (Option.some.inj he).symm
      · exact hq.live
      · exact hq.resumed
  · have := h.requests.own
    simp only [ScopeInsts.resume, Function.update_apply]
    grind
  · intro s r₁ r₂ h₁ h₂
    have := h.requests.unique s r₁ r₂
    simp only [Waiting, ScopeInsts.resume, Function.update_apply] at *
    grind
  · exact fun _ h => (Option.some_ne_none _ h.symm).elim

theorem enterCompleted (h : p.Core none) {now : ℕ} (hi : i < p.size)
    (hst : (p.inst i).state ∈ [.ap, .ae]) (hk : p.clock ≤ now)
    (hw : p.Unawaited i) :
    (p.enterCompleted i now).Core none := by
  have hm : i ∉ p.completions := by
    intro hm
    have := (h.completions.mem i hm).2.1
    simp only [Compensated] at this
    grind
  have hend : ∀ j ∈ p.completions, (p.enterCompleted i now).endOf j = p.endOf j := by
    intro j hj
    have hne : j ≠ i := fun he => hm (he ▸ hj)
    simp only [endOf, ScopeInsts.enterCompleted, Function.update_of_ne hne]
  have hself : (p.enterCompleted i now).endOf i = now := by
    simp only [endOf, ScopeInsts.enterCompleted, Function.update_self, Option.getD_some]
  refine ⟨⟨?_, ?_, ?_, ?_⟩, ?_⟩
  · have := h.completions.completed
    simp only [ScopeInsts.enterCompleted, Function.update_apply]
    grind
  · intro j hj
    rcases List.mem_cons.1 hj with rfl | hj
    · refine ⟨hi, .inl ?_, hself.le⟩
      simp only [ScopeInsts.enterCompleted, Function.update_self]
    · have hne : j ≠ i := fun he => hm (he ▸ hj)
      have := h.completions.mem j hj
      rw [hend j hj]
      simp only [ScopeInsts.enterCompleted, Compensated, Function.update_of_ne hne] at *
      exact ⟨this.1, this.2.1, this.2.2.trans hk⟩
  · exact List.nodup_cons.2 ⟨hm, h.completions.nodup⟩
  · refine List.pairwise_cons.2 ⟨fun j hj => ?_, ?_⟩
    · rw [hself, hend j hj]
      exact (h.completions.mem j hj).2.2.trans hk
    · refine h.completions.sorted.imp_of_mem fun {j k} hj hk hle => ?_
      rwa [hend j hj, hend k hk]
  · have hnd : ∀ r < p.requests, i ∉ (p.request r).done := by
      intro r hr hd
      have := ((h.requests.request r hr).done i hd).2.2.2
      simp only [Compensated] at this
      grind
    have hne : ∀ r < p.requests, (p.request r).enclosing ≠ i := by
      rintro r hr rfl
      have := (h.requests.request r hr).enclosing.2.1
      grind
    refine h.requests.update rfl rfl rfl le_rfl (List.sublist_cons_self _ _) (fun s r hr => ?_)
      (fun r hr hd => absurd hd (hnd r hr)) (fun r hx => ⟨hx, rfl⟩)
      (fun r hr he => absurd he (hne r hr)) fun r hr => absurd hr.2.1 (hne r hr.1)
    have hp : (p.inst i).parent ≠ some s := fun he => hw s he r hr.1 hr
    simp only [completedChildren, ScopeInsts.enterCompleted]
    rw [List.filter_cons_of_neg (by simp [hp])]
    refine List.filter_congr fun j hj => ?_
    have hji : j ≠ i := fun he => hm (he ▸ hj)
    refine decide_eq_decide.2 ?_
    rw [Function.update_of_ne hji]

theorem compensateScope (h : p.Core f) (hi : (p.inst i).state = .ea) (hst : st ∈ [.cd, .ce])
    (hw : p.Unawaited i) :
    Core { p with
      inst := Function.update p.inst i { p.inst i with
        state := st, compensator := some .compensateScope, request := none } } f := by
  have hnd : ∀ r < p.requests, i ∉ (p.request r).done := fun r hr => h.not_mem_done hi hr
  refine ⟨h.completions.update rfl le_rfl rfl rfl (fun _ => ⟨?_, rfl⟩) ?_,
    h.requests.update rfl rfl rfl le_rfl (.refl _) (fun s r hr => ?_)
      (fun r hr hd => absurd hd (hnd r hr)) nofun
      (fun r hr he => absurd he (h.enclosing_ne hi hr))
      fun r hr => absurd hr.2.1 (h.enclosing_ne hi hr.1)⟩
  · have := hst
    grind
  · have := hst
    grind
  · refine completedChildren_congr s rfl fun j _ => ?_
    have hp : (p.inst i).parent ≠ some s := fun he => hw s he r hr.1 hr
    simp only [Function.update_apply]
    grind

theorem create (h : p.Core f) (d : ScopeDef) (parent : Option ℕ) (node : ℕ) :
    (p.step (.create d parent node)).Core f := by
  have hne : ∀ i ∈ p.completions, i ≠ p.size := fun i hi => (h.completions.mem i hi).1.ne
  have hne' : ∀ r < p.requests, (p.request r).enclosing ≠ p.size :=
    fun r hr => (h.requests.request r hr).enclosing.1.ne
  refine ⟨h.completions.update rfl (Nat.le_succ _) rfl rfl (fun hi => absurd rfl (hne _ hi)) nofun,
    h.requests.update rfl rfl rfl (Nat.le_succ _) (.refl _) (fun s r _ => ?_)
      (fun r hr hd => ?_) nofun (fun r hr he => absurd he (hne' r hr))
      fun r hr => absurd hr.2.1 (hne' r hr.1)⟩
  · refine completedChildren_congr s rfl fun j hj => ?_
    simp only [step, Function.update_of_ne (hne j hj)]
  · exact absurd ((h.requests.request r hr).done _ hd).1 (lt_irrefl _)

/-- The pending call does not matter. -/
theorem withCall (h : p.Core f) (c : Option CompensationCall) : Core { p with call := c } f := by
  refine ⟨⟨h.completions.completed, h.completions.mem, h.completions.nodup, h.completions.sorted⟩,
    ⟨fun r hr => ?_, h.requests.own, h.requests.unique, h.requests.focus⟩⟩
  have hq := h.requests.request r hr
  exact ⟨hq.enclosing, hq.who, hq.done, hq.nodup, hq.sublist, hq.children, hq.focus, hq.last,
    hq.live, hq.resumed⟩

/-! ## The query finds the latest child -/

theorem selected_of_mem {s j : ℕ} (h : p.Core f) (hc : p.Clean s)
    (hj : j ∈ p.completedChildren s) : p.Selected s j := by
  obtain ⟨-, hea, -⟩ := mem_completedChildren.1 hj
  obtain ⟨hlt, -, hend⟩ := h.completions.completed j hea
  exact ⟨hlt, hc.1 j hj, hea, hend⟩

theorem completedChildren_of_isNext {s n : ℕ} (h : p.Core f) (hc : p.Clean s)
    (hn : p.isNext s (some n)) : ∃ rest, p.completedChildren s = n :: rest := by
  obtain ⟨hsel, hmax⟩ := hn
  have hmem : n ∈ p.completedChildren s := by
    rcases hc.2.1 n hsel.1 hsel with hp | ⟨c, hcs, hlt⟩
    · exact mem_completedChildren.2
        ⟨(h.completions.completed n hsel.2.2.1).2.1, hsel.2.2.1, hp⟩
    · -- no child ended after the one that was found
      have hs := h.selected_of_mem hc hcs
      exact absurd (hmax c hs.1 hs) (not_le.2 hlt)
  have hsorted : (p.completedChildren s).Pairwise fun i j => p.endOf j ≤ p.endOf i :=
    h.completions.sorted.filter _
  rcases hl : p.completedChildren s with _ | ⟨m, rest⟩
  · simp [hl] at hmem
  · rw [hl] at hmem hsorted
    rcases List.mem_cons.1 hmem with rfl | hrest
    · exact ⟨rest, rfl⟩
    · -- the first of the list ended when `n` did
      have hms := h.selected_of_mem hc (hl ▸ List.mem_cons_self : m ∈ p.completedChildren s)
      have hle := (List.pairwise_cons.1 hsorted).1 n hrest
      have heq := hc.2.2 n (hl ▸ hmem) m (hl ▸ List.mem_cons_self)
        (le_antisymm hle (hmax m hms.1 hms))
      exact ⟨rest, by rw [heq]⟩

theorem completedChildren_of_isNext_none {s : ℕ} (h : p.Core f) (hc : p.Clean s)
    (hn : p.isNext s none) : p.completedChildren s = [] := by
  refine List.eq_nil_iff_forall_not_mem.2 fun j hj => ?_
  have hs := h.selected_of_mem hc hj
  exact hn j hs.1 hs

end Core

/-! ## Runs -/

def Inv (p : ScopeInsts) : Prop :=
  match p.call with
  | none | some (.faulted _) => p.Core none
  | some (.invokeDefaultCompensation s) => p.Core none ∧ s < p.size ∧
      (p.inst s).state ∈ [.fd, .td, .cd] ∧ ∀ r < p.requests, (p.request r).enclosing ≠ s
  | some (.scopeCompensated n) => p.Core (p.inst n).request
  | some (.childrenCompensated s r) => p.Core (some r) ∧ (p.request r).requester = .scope s ∧
      p.completedChildren s = []

theorem Inv.of_core (h : p.Core none) (hc : p.call = none) : p.Inv := by
  unfold Inv
  rw [hc]
  exact h

/-- `compensate` of an instance that has completed. -/
theorem inv_compensate {q : ScopeInsts} {n : ℕ} (hea : (q.inst n).state = .ea) (hc : q.call = none)
    (hn : n < q.size) (hr : ∀ r < q.requests, (q.request r).enclosing ≠ n)
    (h : ∀ st ∈ [ScopeState.cd, .ce], (q.setState n st).Core none) (now : ℕ) :
    (q.signal n .compensate false now).Inv := by
  simp only [signal, hea, react]
  split
  · exact Inv.of_core (h .ce (by simp)) hc
  · refine ⟨(h .cd (by simp)).withCall _, hn, ?_, hr⟩
    simp [setCall, setState]

theorem inv_proceed {r : ℕ} {next : Option ℕ} (h : p.Core (some r)) (hc : p.call = none)
    (hclean : p.Clean (p.request r).enclosing) (hn : p.isNext (p.request r).enclosing next) :
    (p.proceed r (p.request r).requester next).Inv := by
  cases next with
  | none =>
    have hnil := h.completedChildren_of_isNext_none hclean hn
    have hwho := (h.requests.request r (h.requests.focus r rfl).1).who
    rcases hwho with hw | hw
    · rw [hw]
      exact ⟨h.withCall _, hw, hnil⟩
    · have := h.resume hnil
      rw [hw] at this ⊢
      exact Inv.of_core this hc
  | some n =>
    obtain ⟨rest, hn⟩ := h.completedChildren_of_isNext hclean hn
    obtain ⟨hcompl, hea, -⟩ := Core.mem_completedChildren.1 (hn ▸ List.mem_cons_self : n ∈ _)
    have hne : ∀ r' < p.requests, (p.request r').enclosing ≠ n := fun _ => h.enclosing_ne hea
    show (p.compensateChild n r _).Inv
    unfold compensateChild
    apply inv_compensate
    · simpa only [Function.update_self] using hea
    · exact hc
    · exact (h.completions.mem n hcompl).1
    · intro r' hr'
      simp only [Function.update_apply]
      split
      · exact hne r (h.requests.focus r rfl).1
      · exact hne r' hr'
    · intro st hst
      have := h.child hn hst
      simpa only [setState, Function.update_self, Function.update_idem] using this

/-- A request is made and the query for it. -/
theorem inv_openRequest {s : ℕ} {who : Requester} {next : Option ℕ} (h : p.Core none)
    (hc : p.call = none) (hs : s < p.size) (hst : (p.inst s).state ∈ who.states)
    (hwho : who = .scope s ∨ who = .activity ⟨s, none⟩) (hw : ∀ r, ¬ p.Waiting s r)
    (hclean : p.Clean s) (hn : p.isNext s next) :
    ((p.openRequest s who).proceed p.requests who next).Inv := by
  have ho := h.openRequest hs hst hwho hw
  have hreq : (p.openRequest s who).request p.requests =
      ⟨s, who, p.completedChildren s, [], []⟩ := Function.update_self ..
  have := @inv_proceed _ p.requests next ho hc (by rw [hreq]; exact hclean)
    (by rw [hreq]; cases next <;> exact hn)
  rwa [hreq] at this

section signals

variable {i : ℕ}

theorem Core.no_request (h : p.Core none) (hst : (p.inst i).state ∈ [.ap, .ae, .fp, .tp]) :
    ∀ r < p.requests, (p.request r).enclosing ≠ i := by
  rintro r hr rfl
  have := (h.requests.request r hr).enclosing.2.1
  grind

/-- A change of state after which nothing of compensation goes on. -/
theorem Core.leave (h : p.Core none) {st : ScopeState}
    (ho : (p.inst i).state ∉ [.ea, .ec, .ef])
    (hst : st ∉ [.ea, .ap, .ae, .fp, .tp, .fe, .te, .ce] ∨ (p.inst i).state ∈ [.ap, .ae, .fp, .tp] ∧ st ≠ .ea)
    (hc : p.Compensated i → st ∈ [.cd, .ce, .ct, .ef]) (hb : p.Broken i) :
    (p.setState i st).Core none := by
  refine h.setState (by grind) (by grind) hc ?_ fun r hr hef => ?_
  · rcases hst with hst | ⟨hst, -⟩
    · exact .inl (by grind)
    · exact .inr (h.no_request hst)
  · obtain ⟨c, hl, hs⟩ := hb r hr.1 hr
    exact absurd hs (hef c hl)

theorem inv_enterFaulted (h : (p.setState i .ef).Core none) (hc : p.call = none) :
    (p.enterFaulted i).Inv := by
  unfold enterFaulted
  split
  · exact Inv.of_core h hc
  · exact h.withCall _

theorem inv_faulted (h : p.Core none) (hc : p.call = none) (hb : p.Broken i) (b : Bool) (now : ℕ) :
    (p.signal i .faulted b now).Inv := by
  have hinv := Inv.of_core h hc
  cases hst : (p.inst i).state <;> simp only [signal, hst, react, enter]
  case ap | ae => exact .of_core (h.leave (by simp [hst]) (by simp [hst]) (by simp [Compensated, hst]) hb) hc
  case fe | te | td => exact .of_core (h.leave (by simp [hst]) (by simp) (by simp [Compensated, hst]) hb) hc
  case ce => exact .of_core (h.leave (by simp [hst]) (by simp) (by simp) hb) hc
  case fd | cd => exact inv_enterFaulted (h.leave (by simp [hst]) (by simp) (by simp) hb) hc
  all_goals exact hinv

theorem inv_terminate (h : p.Core none) (hc : p.call = none) (b : Bool) (now : ℕ) :
    (p.signal i .terminate b now).Inv := by
  have hinv := Inv.of_core h hc
  cases hst : (p.inst i).state <;> simp only [signal, hst, react]
  case ap | ae =>
    have hn := h.no_request (i := i) (by simp [hst])
    exact .of_core (h.leave (by simp [hst]) (by simp [hst]) (by simp [Compensated, hst])
      fun r hr hw => absurd hw.2.1 (hn r hr)) hc
  all_goals exact hinv

theorem inv_childrenTerminated (h : p.Core none) (hc : p.call = none) (hi : i < p.size) (b : Bool)
    (now : ℕ) : (p.signal i .childrenTerminated b now).Inv := by
  have hinv := Inv.of_core h hc
  -- nobody waits for the children, or their compensation is broken
  have hb : ∀ st, (p.inst i).state = st → st ∈ [.fp, .ft, .tp, .tt, .ct] → p.Broken i := by
    rintro st hst hmem r - ⟨hlt, rfl, hres⟩
    by_contra hcut
    have hq := h.requests.request r hlt
    have hlive := hq.live hres fun c hl hs => hcut ⟨c, hl, hs⟩
    rcases hq.who with hw | hw <;> rw [hw, hst] at hlive <;> simp only [Requester.states] at hlive <;>
      grind
  cases hst : (p.inst i).state <;> simp only [signal, hst, react, enter]
  case fp | tp =>
    have hn := h.no_request (i := i) (by simp [hst])
    split
    · exact .of_core (h.leave (by simp [hst]) (by simp [hst]) (by simp [Compensated, hst])
        (hb _ hst (by simp))) hc
    · refine ⟨(h.leave (by simp [hst]) (by simp) (by simp [Compensated, hst])
        (hb _ hst (by simp))).withCall _, hi, ?_, hn⟩
      simp [setCall, setState]
  case ft | ct => exact inv_enterFaulted (h.leave (by simp [hst]) (by simp) (by simp)
    (hb _ hst (by simp))) hc
  case tt => exact .of_core (h.leave (by simp [hst]) (by simp) (by simp [Compensated, hst])
    (hb _ hst (by simp))) hc
  all_goals exact hinv

theorem inv_completed (h : p.Core none) (hc : p.call = none) (hi : i < p.size) (b : Bool)
    {now : ℕ} (hk : p.clock ≤ now)
    (hact : ∀ r < p.requests, p.Waiting i r → (p.request r).requester.isActivity = false)
    (hpar : (p.inst i).state ∈ [.ap, .ae] → p.Unawaited i) :
    (p.signal i .completed b now).Inv := by
  have hinv := Inv.of_core h hc
  -- no activity of the handler waits for the children
  have hb : ∀ st, (p.inst i).state = st → st ∈ [.fe, .te, .ce] → p.Broken i := by
    rintro st hst hmem r - ⟨hlt, rfl, hres⟩
    by_contra hcut
    have hq := h.requests.request r hlt
    have hlive := hq.live hres fun c hl hs => hcut ⟨c, hl, hs⟩
    rcases hq.who with hw | hw
    · rw [hw, hst] at hlive
      simp only [Requester.states] at hlive
      grind
    · have := hact r hlt ⟨hlt, rfl, hres⟩
      rw [hw] at this
      cases this
  cases hst : (p.inst i).state <;> simp only [signal, hst, react, enter]
  case ap =>
    have hn := h.no_request (i := i) (by simp [hst])
    split
    · exact .of_core (h.leave (by simp [hst]) (by simp [hst]) (by simp [Compensated, hst])
        fun r hr hw => absurd hw.2.1 (hn r hr)) hc
    · exact .of_core (h.enterCompleted hi (by simp [hst]) hk (hpar (by simp [hst]))) hc
  case ae => exact .of_core (h.enterCompleted hi (by simp [hst]) hk (hpar (by simp [hst]))) hc
  case fe | te => exact .of_core (h.leave (by simp [hst]) (by simp) (by simp [Compensated, hst])
    (hb _ hst (by simp))) hc
  case ce =>
    have := (h.compensated (by simp [hst]) (hb _ hst (by simp))).withCall (some (.scopeCompensated i))
    simpa [Inv, setCall, setState] using this
  all_goals exact hinv

theorem inv_childrenCompensated (h : p.Core none) (hc : p.call = none)
    (hst : (p.inst i).state ∈ [.fd, .td, .cd]) (hw : ∀ r, ¬ p.Waiting i r) (b : Bool) (now : ℕ) :
    (p.signal i .childrenCompensated b now).Inv := by
  have hb : p.Broken i := fun r _ hr => absurd hr (hw r)
  cases hs : (p.inst i).state <;> simp only [signal, hs, react, enter]
  case fd => exact inv_enterFaulted (h.leave (by simp [hs]) (by simp) (by simp) hb) hc
  case td => exact .of_core (h.leave (by simp [hs]) (by simp) (by simp [Compensated, hs]) hb) hc
  case cd =>
    have := (h.compensated (by simp [hs]) hb).withCall (some (.scopeCompensated i))
    simpa [Inv, setCall, setState] using this
  all_goals simp [hs] at hst

end signals

/-- The pending call keeps the invariant. -/
theorem Inv.run (h : p.Inv) {c : CompensationCall} {next : Option ℕ} (hc : p.call = some c)
    (hn : ∀ s, p.queried c = some s → p.isNext s next)
    (hclean : ∀ s, p.queried c = some s → p.Clean s) (hb : ∀ s ∈ c.faultedScope, p.Broken s) :
    (({ p with call := none } : ScopeInsts).run next c).Inv := by
  unfold Inv at h
  rw [hc] at h
  cases c with
  | invokeDefaultCompensation s =>
    obtain ⟨hcore, hs, hst, hreq⟩ := h
    refine inv_openRequest (hcore.withCall none) rfl hs hst (.inl rfl)
      (fun r hr => absurd hr.2.1 (hreq r hr.1)) (hclean s rfl) ?_
    have := hn s rfl
    cases next <;> exact this
  | scopeCompensated n =>
    have h : p.Core (p.inst n).request := h
    rcases hr : (p.inst n).request with _ | r
    · rw [hr] at h
      have : ({ p with call := none } : ScopeInsts).run next (.scopeCompensated n) =
          { p with call := none } := by
        simp only [ScopeInsts.run, hr]
        split <;> simp_all
      rw [this]
      exact .of_core (h.withCall none) rfl
    · rw [hr] at h
      obtain ⟨hlt, hmem, hcomp⟩ := h.requests.own n r hr
      have hq := h.requests.request r hlt
      have hpar := (hq.done n hmem).2.2.1
      have hquery : p.queried (.scopeCompensated n) = some (p.request r).enclosing := by
        rcases hq.who with hw | hw <;>
          simp only [queried, hcomp, hw, Requester.compensator, hpar]
      have hrun : ({ p with call := none } : ScopeInsts).run next (.scopeCompensated n) =
          ({ p with call := none } : ScopeInsts).proceed r (p.request r).requester next := by
        rcases hq.who with hw | hw <;>
          simp only [ScopeInsts.run, hcomp, hw, Requester.compensator, hpar, hr]
      rw [hrun]
      have := hn _ hquery
      exact inv_proceed (h.withCall none) rfl (hclean _ hquery) (by cases next <;> exact this)
  | childrenCompensated s r =>
    obtain ⟨hcore, hw, hnil⟩ := h
    obtain ⟨hlt, -, hres⟩ := hcore.requests.focus r rfl
    have hq := hcore.requests.request r hlt
    have hs : (p.request r).enclosing = s := by
      rcases hq.who with h' | h' <;> rw [hw] at h' <;> cases h'
      rfl
    have hst : (p.inst s).state ∈ [.fd, .td, .cd] := by
      have := hq.live hres fun c hl he => by
        have := hq.focus hres rfl c (List.mem_of_getLast? hl)
        rw [he] at this
        cases this
      rwa [hw, hs] at this
    have hcore' := (hcore.resume (hs ▸ hnil)).withCall none
    rw [hw] at hcore'
    refine inv_childrenCompensated hcore' rfl hst (fun r' hr' => ?_) false _
    have hne : r' ≠ r := by
      rintro rfl
      have := hr'.2.2
      simp [ScopeInsts.resume] at this
    refine hne (hcore.requests.unique s r' r ?_ ⟨hlt, hs, hres⟩)
    simpa [Waiting, ScopeInsts.resume, Function.update_of_ne hne] using hr'
  | faulted s =>
    exact inv_faulted (Core.withCall h none) rfl (hb s rfl) false _

/-- One step keeps the invariant. -/
theorem Inv.step (h : p.Inv) {x : Step} (hl : p.Legal x) (hs : p.Safe x) : (p.step x).Inv := by
  have hcore : p.call = none → p.Core none := by
    intro hc
    unfold Inv at h
    rwa [hc] at h
  cases x with
  | create d parent node => exact .of_core ((hcore hl.1).create d parent node) hl.1
  | signal i x b now =>
    obtain ⟨hc, hi, hk, hx₁, hx₂, hact⟩ := hl
    obtain ⟨hf, hcompl⟩ := hs
    cases x with
    | terminate => exact inv_terminate (hcore hc) hc b now
    | faulted => exact inv_faulted (hcore hc) hc (hf rfl) b now
    | completed => exact inv_completed (hcore hc) hc hi b hk (hact rfl) (hcompl rfl)
    | childrenTerminated => exact inv_childrenTerminated (hcore hc) hc hi b now
    | childrenCompensated => exact absurd rfl hx₂
    | compensate => exact absurd rfl hx₁
  | compensate token next =>
    obtain ⟨hc, hi, hst, hact, hn⟩ := hl
    obtain ⟨hb, hclean⟩ := hs
    have htok : token = ⟨token.scope, none⟩ := by
      cases token
      simp only at hb
      rw [hb]
    have hc' := hcore hc
    refine inv_openRequest hc' hc hi hst (.inr (congrArg _ htok)) (fun r hr => ?_) hclean hn
    rcases (hc'.requests.request r hr.1).who with hw | hw
    · have := (hc'.requests.request r hr.1).enclosing.2.2 hw
      rw [hr.2.1] at this
      exact this hst
    · rw [hr.2.1, ← htok] at hw
      exact hact r hr.1 hr hw
  | compensateScope n =>
    obtain ⟨hc, hn, hea⟩ := hl
    have hc' := hcore hc
    apply inv_compensate
    · simpa only [Function.update_self] using hea
    · exact hc
    · exact hn
    · exact fun r => hc'.enclosing_ne hea
    · intro st hst
      have := hc'.compensateScope hea hst hs
      simpa only [setState, Function.update_self, Function.update_idem] using this
  | call next =>
    obtain ⟨c, hc, hn⟩ := hl
    obtain ⟨hclean, hb⟩ := hs c hc
    have := h.run hc hn hclean hb
    have hc : p.call = some c := hc
    simpa only [ScopeInsts.step, hc] using this

/-- For each request, the children are compensated in reverse order of their
    completion, each once; the requester is told once, after the last; and until
    then one child is being compensated, or has faulted over it. -/
structure Ordered (p : ScopeInsts) : Prop where
  children : ∀ r < p.requests, (p.request r).children.Nodup ∧
    (p.request r).children.Sublist p.completions ∧
      (p.request r).done <+: (p.request r).children ∧
        ∀ i ∈ (p.request r).done, (p.inst i).parent = some (p.request r).enclosing
  once : ∀ r < p.requests, ∀ r' < p.requests, ∀ i ∈ (p.request r).done,
    i ∈ (p.request r').done → r = r'
  resumed : ∀ r < p.requests, (p.request r).resumed = [] ∨
    (p.request r).resumed = [(p.request r).requester] ∧
      (p.request r).done = (p.request r).children ∧
        ∀ i ∈ (p.request r).done, (p.inst i).state = .ec
  waiting : p.call = none → ∀ r < p.requests, (p.request r).resumed = [] →
    ∃ c, (p.request r).done.getLast? = some c ∧ (p.inst c).state ∈ [.cd, .ce, .ct, .ef]

theorem Inv.ordered (h : p.Inv) : p.Ordered := by
  have hcore : ∃ f, p.Core f ∧ (p.call = none → f = none) := by
    unfold Inv at h
    rcases hc : p.call with _ | c
    · exact ⟨none, by rwa [hc] at h, fun _ => rfl⟩
    · rw [hc] at h
      cases c with
      | invokeDefaultCompensation s => exact ⟨_, h.1, fun hnone => absurd hnone (Option.some_ne_none _)⟩
      | scopeCompensated n => exact ⟨_, h, fun hnone => absurd hnone (Option.some_ne_none _)⟩
      | childrenCompensated s r => exact ⟨_, h.1, fun hnone => absurd hnone (Option.some_ne_none _)⟩
      | faulted s => exact ⟨_, h, fun hnone => absurd hnone (Option.some_ne_none _)⟩
  obtain ⟨f, hcore, hf⟩ := hcore
  have hreq := hcore.requests.request
  constructor
  · intro r hr
    have hq := hreq r hr
    refine ⟨hq.nodup, hq.sublist, ?_, fun i hi => (hq.done i hi).2.2.1⟩
    by_cases hres : (p.request r).resumed = []
    · exact ⟨_, (hq.children hres).symm⟩
    · rw [(hq.resumed hres).2.1]
  · intro r hr r' hr' i hi hi'
    have h₁ := ((hreq r hr).done i hi).2.1
    have h₂ := ((hreq r' hr').done i hi').2.1
    rw [h₁] at h₂
    exact Option.some.inj h₂
  · intro r hr
    by_cases hres : (p.request r).resumed = []
    · exact .inl hres
    · exact .inr ((hreq r hr).resumed hres)
  · intro hc r hr hres
    obtain ⟨front, c, hd, -, hst⟩ := (hreq r hr).last hres
      (by rw [hf hc]; exact (Option.some_ne_none r).symm)
    exact ⟨c, by rw [hd, List.getLast?_concat], hst⟩

theorem inv_init : init.Inv := by
  have hnone : ∀ r : ℕ, (none : Option ℕ) ≠ some r := fun r => (Option.some_ne_none r).symm
  refine .of_core ⟨⟨nofun, nofun, .nil, .nil⟩, ⟨nofun, fun _ r hr => absurd hr (hnone r),
    fun s r r' hr => ?_, fun r hr => absurd hr (hnone r)⟩⟩ rfl
  exact absurd hr.1 (Nat.not_lt_zero _)

def after (xs : List Step) : ScopeInsts := xs.foldl step init

/-- A scope in a loop, and a scope around another one. -/
def travel : ScopeDef :=
  .mk 0 false false [.mk 1 true false [], .mk 2 false false [.mk 3 true false []]]

/-- The loop runs twice, then the other scopes complete, and the fault that
    follows is handled by a `compensate` activity. -/
def travelSteps : List Step :=
  [.create travel none 0, .create (.mk 1 true false []) (some 0) 1, .signal 1 .completed false 1,
    .create (.mk 1 true false []) (some 0) 1, .signal 2 .completed false 2,
    .create (.mk 2 false false [.mk 3 true false []]) (some 0) 2,
    .create (.mk 3 true false []) (some 3) 3, .signal 4 .completed false 3,
    .signal 3 .completed false 4, .signal 0 .faulted false 5,
    .signal 0 .childrenTerminated true 5, .compensate ⟨0, none⟩ (some 3), .call (some 4),
    .signal 4 .completed false 6, .call none, .call none, .call (some 2),
    .signal 2 .completed false 7, .call (some 1), .signal 1 .completed false 8, .call none]

/-- A scope whose compensation handler does not compensate the scope within it. -/
def handled : ScopeDef := .mk 1 true false [.mk 2 false false []]

def handledSteps : List Step :=
  [.create (.mk 0 false false [handled]) none 0, .create handled (some 0) 1,
    .create (.mk 2 false false []) (some 1) 2, .signal 2 .completed false 1,
    .signal 1 .completed false 2, .signal 0 .faulted false 3,
    .signal 0 .childrenTerminated false 3, .call (some 1), .signal 1 .completed false 4,
    .call (some 2)]

end ScopeInsts

end Jbpm
