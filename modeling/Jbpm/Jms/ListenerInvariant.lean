/-
  The listeners of a process stay in step with its waiting tokens.

  * `Registered`: what the registry is for;
  * `Safe`: the steps on which the code keeps to it;
  * `Inv`: the invariant of safe runs, between transactions as well as while
    they are under way, with a lemma for each kind of step;
  * `Inv.step`: the step lemma.
-/
import Jbpm.Jms.ListenerRegistry

namespace Jbpm

open Lib

namespace ListenerRegistry

/-! ## What the registry is for -/

/-- The listener waits for its transaction to commit. -/
def Pending (s : ListenerRegistry) (l : ℕ) : Prop :=
  ∃ t x, s.tx t = some x ∧ l ∈ x.requestListeners

/-- No transaction is under way. -/
def Quiescent (s : ListenerRegistry) : Prop := ∀ t, s.tx t = none

/-- The open listeners are the registered ones, but for those that are at work on
    a message or wait for a commit; there is one for every start activity and,
    between transactions, one for every waiting token; and none is left when the
    process is disabled. -/
structure Registered (receiveActions : List ℕ) (s : ListenerRegistry) : Prop where
  start : s.enabled = true →
    (s.startListeners.map fun l => (s.listener l).kind).Perm (receiveActions.map .start)
  start_iff : ∀ l a, (s.listener l).kind = .start a →
    ((s.listener l).status = .opened ∧ (s.listener l).busy = false ↔ l ∈ s.startListeners)
  request_iff : ∀ l k b, (s.listener l).kind = .request k b →
    ((s.listener l).status = .opened ∧ (b = true → (s.listener l).busy = false) ↔
      s.requestListeners k = some l ∧ ¬ Pending s l)
  waiting : s.enabled = true → Quiescent s → ∀ k b, s.waiting k = some b ↔
    ∃ l, s.requestListeners k = some l ∧ s.listener l = ⟨.request k b, .opened, false⟩
  disabled : s.enabled = false → ∀ l, (s.listener l).status ≠ .opened

/-! ## The steps on which the code keeps to it -/

/-- The transaction has not touched a listener or a waiting token. -/
def Untouched (x : ListenerTx) : Prop :=
  x.listener = none ∧ x.requestListeners = [] ∧ x.writes = []

/-- Nothing of the transaction is left in the registry, and the listener whose
    message it delivers stays. -/
def Harmless (s : ListenerRegistry) (o : Outcome) (x : ListenerTx) : Prop :=
  (o.commits = false → x.requestListeners = [] ∧ x.taken = []) ∧
    ∀ l, x.listener = some l → (s.listener l).kind.oneShot = false

/-- A reception is created where none is registered; the listener of another
    transaction that may still roll back is left alone; a transaction commits
    and its message is acknowledged, or it is harmless; and nothing is under way
    when the process is enabled or disabled. -/
def Safe (s : ListenerRegistry) : Op → Prop
  | .receive _ k _ => s.enabled = true ∧ s.requestListeners k = none
  | .cancelReception t k => ∀ u x, s.tx u = some x → u ≠ t →
      ∀ l ∈ x.requestListeners, s.requestListeners k ≠ some l
  | .finish t o => o = .committed ∨ ∀ x, s.tx t = some x → Harmless s o x
  | .enable _ _ | .disable => ∀ t x, s.tx t = some x → Untouched x
  | _ => True

/-! ## The invariant -/

/-- The part of the invariant that is about the transaction `t`. -/
structure TxInv (s : ListenerRegistry) (t : ℕ) (x : ListenerTx) : Prop where
  at_work : ∀ l, x.listener = some l → (s.listener l).busy = true ∧
    (s.listener l).status ≠ .created ∧ ∀ u y, u ≠ t → s.tx u = some y → y.listener ≠ some l
  nodup : x.requestListeners.Nodup
  pending : ∀ l ∈ x.requestListeners, ∃ k b, s.listener l = ⟨.request k b, .created, false⟩ ∧
    s.requestListeners k = some l ∧ x.view s.waiting k = some b ∧
    (x.writes.lookup k = none → ∀ u y, u ≠ t → s.tx u = some y → y.writes.lookup k = none)
  unshared : ∀ u y, u ≠ t → s.tx u = some y → ∀ l ∈ x.requestListeners, l ∉ y.requestListeners
  /-- a token that ceases to wait has no listener, unless another transaction
      changed that -/
  left : x.stale = false → ∀ k, x.writes.lookup k = some none →
    ∀ l, s.requestListeners k = some l → Pending s l
  /-- a token that begins to wait has one -/
  came : ∀ k b, x.writes.lookup k = some (some b) →
    ∃ l ∈ x.requestListeners, s.requestListeners k = some l
  taken : ∀ k ∈ x.taken, (x.writes.lookup k).isSome = true

/-- The invariant; while the process is being enabled some tokens still lack
    their listeners. -/
structure Inv (receiveActions : List ℕ) (missing : RequestKey → Prop) (s : ListenerRegistry) :
    Prop where
  fresh : ∀ l, s.next ≤ l → (s.listener l).status = .closed ∧ (s.listener l).busy = false
  busy : ∀ l, (s.listener l).busy = true → ∃ t x, s.tx t = some x ∧ x.listener = some l
  start_nodup : s.startListeners.Nodup
  start_kinds : s.enabled = true →
    (s.startListeners.map fun l => (s.listener l).kind).Perm (receiveActions.map .start)
  start_reg : ∀ l ∈ s.startListeners, ∃ a, s.listener l = ⟨.start a, .opened, false⟩
  start_open : ∀ l a, (s.listener l).kind = .start a → (s.listener l).status = .opened →
    l ∈ s.startListeners ∨ (s.listener l).busy = true
  request_reg : ∀ k l, s.requestListeners k = some l → ∃ b, (s.listener l).kind = .request k b ∧
    (b = true → (s.listener l).busy = false) ∧
    (Pending s l ∨ (s.listener l).status = .opened ∧ s.waiting k = some b)
  request_open : ∀ l k b, (s.listener l).kind = .request k b → (s.listener l).status = .opened →
    s.requestListeners k = some l ∨ (s.listener l).busy = true ∧ b = true
  waiting : s.enabled = true → ∀ k b, s.waiting k = some b →
    missing k ∨ (∃ l, s.requestListeners k = some l) ∨ ∃ t x, s.tx t = some x ∧ k ∈ x.taken
  tx : ∀ t x, s.tx t = some x → TxInv s t x
  disabled : s.enabled = false → s.startListeners = [] ∧ (∀ k, s.requestListeners k = none) ∧
    ∀ l, (s.listener l).status ≠ .opened
  connected : s.enabled = true → s.connected = true

theorem inv_init (receiveActions : List ℕ) (waiting : RequestKey → Option Bool) :
    Inv receiveActions (fun _ => False) (init waiting) := by
  constructor <;> simp [init]

/-- What the invariant says for the reader of the registry. -/
theorem Inv.registered {receiveActions : List ℕ} {s : ListenerRegistry}
    (h : Inv receiveActions (fun _ => False) s) : Registered receiveActions s where
  start := h.start_kinds
  start_iff := by
    intro l a hk
    constructor
    · rintro ⟨ho, hb⟩
      rcases h.start_open l a hk ho with hl | hl
      · exact hl
      · simp [hb] at hl
    · intro hl
      obtain ⟨a', ha'⟩ := h.start_reg l hl
      simp [ha']
  request_iff := by
    intro l k b hk
    constructor
    · rintro ⟨ho, hb⟩
      have hreg : s.requestListeners k = some l := by
        rcases h.request_open l k b hk ho with hl | ⟨hl, rfl⟩
        · exact hl
        · simp [hb rfl] at hl
      refine ⟨hreg, ?_⟩
      rintro ⟨t, x, hx, hl⟩
      obtain ⟨_, _, hc, -⟩ := (h.tx t x hx).pending l hl
      simp [hc] at ho
    · rintro ⟨hreg, hp⟩
      obtain ⟨b', hk', hb, ho⟩ := h.request_reg k l hreg
      cases hk.symm.trans hk'
      exact ⟨(ho.resolve_left hp).1, hb⟩
  waiting := by
    intro he hq k b
    constructor
    · intro hw
      rcases h.waiting he k b hw with hm | ⟨l, hl⟩ | ⟨t, x, hx, -⟩
      · exact hm.elim
      · obtain ⟨b', hk, -, hp | ⟨ho, hw'⟩⟩ := h.request_reg k l hl
        · obtain ⟨t, x, hx, -⟩ := hp
          simp [hq t] at hx
        · cases hw.symm.trans hw'
          refine ⟨l, hl, ?_⟩
          have hb : (s.listener l).busy = false := by
            by_contra hb
            obtain ⟨t, x, hx, -⟩ := h.busy l (by simpa using hb)
            simp [hq t] at hx
          rw [← hk, ← ho, ← hb]
      · simp [hq t] at hx
    · rintro ⟨l, hl, hk⟩
      obtain ⟨b', hk', -, hp | ⟨-, hw⟩⟩ := h.request_reg k l hl
      · obtain ⟨t, x, hx, -⟩ := hp
        simp [hq t] at hx
      · simp only [hk, ListenerKind.request.injEq, true_and] at hk'
        rw [hw, hk']
  disabled := fun he => (h.disabled he).2.2

/-! ## Listeners that the invariant knows of are not fresh -/

section
variable {receiveActions : List ℕ} {missing : RequestKey → Prop} {s : ListenerRegistry}

theorem Inv.lt_next (h : Inv receiveActions missing s) {l : ℕ}
    (hl : (s.listener l).status ≠ .closed) : l < s.next := by
  by_contra hn
  exact hl (h.fresh l (by omega)).1

theorem Inv.lt_next_of_pending (h : Inv receiveActions missing s) :
    ∀ l, Pending s l → l < s.next := by
  rintro l ⟨t, x, hx, hl⟩
  obtain ⟨_, _, hc, -⟩ := (h.tx t x hx).pending l hl
  exact h.lt_next (by simp [hc])

theorem Inv.lt_next_of_start (h : Inv receiveActions missing s) :
    ∀ l ∈ s.startListeners, l < s.next := by
  intro l hl
  obtain ⟨a, ha⟩ := h.start_reg l hl
  exact h.lt_next (by simp [ha])

theorem Inv.lt_next_of_request (h : Inv receiveActions missing s) :
    ∀ k l, s.requestListeners k = some l → l < s.next := by
  intro k l hl
  obtain ⟨b, -, -, hp | ⟨ho, -⟩⟩ := h.request_reg k l hl
  · exact h.lt_next_of_pending l hp
  · exact h.lt_next (by simp [ho])

theorem Inv.listener_ne (h : Inv receiveActions missing s) {l : ℕ}
    (hl : (s.listener l).busy = false) : ∀ t x, s.tx t = some x → x.listener ≠ some l := by
  intro t x hx he
  have hb := ((h.tx t x hx).at_work l he).1
  simp [hl] at hb

/-! ## The steps -/

theorem Inv.perm (h : Inv receiveActions missing s) {as : List ℕ} (hp : receiveActions.Perm as) :
    Inv as missing s :=
  { h with start_kinds := fun he => (h.start_kinds he).trans (hp.map _) }

theorem Inv.addStartListener (h : Inv receiveActions missing s) (he : s.enabled = true) (a : ℕ) :
    Inv (receiveActions ++ [a]) missing (s.addStartListener a .opened) := by
  generalize hs' : s.addStartListener a .opened = s'
  have hS : s'.startListeners = s.startListeners ++ [s.next] := by rw [← hs']; rfl
  have hL : s'.listener =
      Function.update s.listener s.next ⟨.start a, .opened, false⟩ := by rw [← hs']; rfl
  have hn : s'.next = s.next + 1 := by rw [← hs']; rfl
  have hR : s'.requestListeners = s.requestListeners := by rw [← hs']; rfl
  have hT : s'.tx = s.tx := by rw [← hs']; rfl
  have hW : s'.waiting = s.waiting := by rw [← hs']; rfl
  have hE : s'.enabled = true := by rw [← hs']; exact he
  have hC : s'.connected = s.connected := by rw [← hs']; rfl
  have hP : ∀ l, Pending s' l ↔ Pending s l := by simp only [Pending, hT, implies_true]
  have hfresh := h.fresh s.next (Nat.le_refl _)
  have hreq := h.lt_next_of_request
  have hsta := h.lt_next_of_start
  constructor
  case fresh => have := h.fresh; simp only [hL, hn, Function.update_apply]; grind
  case busy => have := h.busy; simp only [hL, hT, Function.update_apply]; grind
  case start_nodup => have := h.start_nodup; rw [hS]; grind
  case start_kinds =>
    intro _
    have hkinds : s.startListeners.map (fun l => (s'.listener l).kind) =
        s.startListeners.map fun l => (s.listener l).kind := by
      refine List.map_congr_left fun l hl => ?_
      rw [hL, Function.update_of_ne (Nat.ne_of_lt (hsta l hl))]
    rw [hS, List.map_append, List.map_append, hkinds]
    refine (h.start_kinds he).append ?_
    simp [hL]
  case start_reg =>
    have := h.start_reg
    simp only [hS, hL, Function.update_apply]; grind
  case start_open => have := h.start_open; simp only [hS, hL, Function.update_apply]; grind
  case request_reg =>
    have := h.request_reg
    simp only [hR, hL, hP, hW, Function.update_apply]; grind
  case request_open => have := h.request_open; simp only [hR, hL, Function.update_apply]; grind
  case waiting => simpa only [hE, hW, hR, hT, he] using h.waiting
  case tx =>
    intro t x hx
    rw [hT] at hx
    have hx' := h.tx t x hx
    have hpend : ∀ l ∈ x.requestListeners, l < s.next :=
      fun l hl => h.lt_next_of_pending l ⟨t, x, hx, hl⟩
    constructor
    case at_work => have := hx'.at_work; simp only [hL, hT, Function.update_apply]; grind
    case nodup => exact hx'.nodup
    case pending => have := hx'.pending; simp only [hL, hR, hW, hT, Function.update_apply]; grind
    case unshared => simpa only [hT] using hx'.unshared
    case left => simpa only [hR, hP] using hx'.left
    case came => simpa only [hR] using hx'.came
    case taken => exact hx'.taken
  case disabled => simp [hE]
  case connected => rw [hC]; exact fun _ => h.connected he

/-- A transaction that has done nothing yet. -/
theorem TxInv.new {t l : ℕ} (hb : (s.listener l).busy = true)
    (hc : (s.listener l).status ≠ .created)
    (hl : ∀ u y, u ≠ t → s.tx u = some y → y.listener ≠ some l) :
    TxInv s t ⟨some l, [], [], false, []⟩ := by
  constructor <;> simp [hb, hc]
  exact hl

theorem beginTx_tx (t : ℕ) (l : Option ℕ) (u : ℕ) (x : ListenerTx) (ht : s.tx t = none) :
    (s.beginTx t l).tx u = some x ↔
      u = t ∧ x = ⟨l, [], [], false, []⟩ ∨ s.tx u = some x := by
  simp only [ListenerRegistry.beginTx, Function.update_apply]
  grind

theorem Inv.beginTx (h : Inv receiveActions missing s) {t : ℕ} (ht : s.tx t = none) :
    Inv receiveActions missing (s.beginTx t none) := by
  have hT := fun u x => s.beginTx_tx t none u x ht
  have hP : ∀ l, Pending (s.beginTx t none) l ↔ Pending s l := by
    intro l
    simp only [Pending, hT]
    grind
  constructor
  case fresh => exact h.fresh
  case busy => have := h.busy; simp only [beginTx_listener, hT]; grind
  case start_nodup => exact h.start_nodup
  case start_kinds => exact h.start_kinds
  case start_reg => exact h.start_reg
  case start_open => exact h.start_open
  case request_reg => simpa [hP] using h.request_reg
  case request_open => exact h.request_open
  case waiting => have := h.waiting; simp only [beginTx_waiting, hT]; grind
  case tx =>
    intro u x hx
    rcases (hT u x).1 hx with ⟨rfl, rfl⟩ | hx
    · constructor <;> simp
    · have hx' := h.tx u x hx
      constructor
      case at_work => have := hx'.at_work; simp only [beginTx_listener, hT]; grind
      case nodup => exact hx'.nodup
      case pending => have := hx'.pending; simp only [hT]; grind
      case unshared => have := hx'.unshared; simp only [hT]; grind
      case left => simpa [hP] using hx'.left
      case came => exact hx'.came
      case taken => exact hx'.taken
  case disabled => exact h.disabled
  case connected => exact h.connected

/-- What a transaction may have noted of the token whose listener it creates. -/
def Noted (s : ListenerRegistry) (t : ℕ) (x : ListenerTx) (k : RequestKey) (oneShot : Bool)
    (writes : List (RequestKey × Option Bool)) : Prop :=
  writes = (k, some oneShot) :: x.writes ∨
    writes = x.writes ∧ x.writes.lookup k = none ∧ s.waiting k = some oneShot ∧
      ∀ u y, u ≠ t → s.tx u = some y → y.writes.lookup k = none

theorem Inv.jmsReceive (h : Inv receiveActions missing s) (he : s.enabled = true) {t : ℕ}
    {x : ListenerTx} {k : RequestKey} {oneShot : Bool} {writes : List (RequestKey × Option Bool)}
    (hx : s.tx t = some x) (hk : s.requestListeners k = none)
    (hw : Noted s t x k oneShot writes) :
    Inv receiveActions (fun k' => missing k' ∧ k' ≠ k)
      (({ s with tx := Function.update s.tx t (some { x with writes }) }).jmsReceive t k oneShot) := by
  generalize hs' : ({ s with tx := Function.update s.tx t (some { x with writes })
    } : ListenerRegistry).jmsReceive t k oneShot = s'
  have hS : s'.startListeners = s.startListeners := by rw [← hs']; rfl
  have hR : s'.requestListeners = Function.update s.requestListeners k (some s.next) := by
    rw [← hs']; rfl
  have hL : s'.listener = Function.update s.listener s.next ⟨.request k oneShot, .created, false⟩ := by
    rw [← hs']; rfl
  have hn : s'.next = s.next + 1 := by rw [← hs']; rfl
  have hT : s'.tx = Function.update s.tx t
      (some { x with requestListeners := x.requestListeners ++ [s.next], writes }) := by
    rw [← hs']
    simp [ListenerRegistry.jmsReceive, modifyTx, addRequestListener]
  have hW : s'.waiting = s.waiting := by rw [← hs']; rfl
  have hE : s'.enabled = true := by rw [← hs']; exact he
  have hC : s'.connected = s.connected := by rw [← hs']; rfl
  have hP : ∀ l, Pending s' l ↔ Pending s l ∨ l = s.next := by
    intro l
    simp only [Pending, hT, Function.update_apply]
    grind
  have hfresh := h.fresh s.next (Nat.le_refl _)
  have hreq := h.lt_next_of_request
  have hsta := h.lt_next_of_start
  clear hs'
  constructor
  case fresh => have := h.fresh; simp only [hL, hn, Function.update_apply]; grind
  case busy => have := h.busy; simp only [hL, hT, Function.update_apply]; grind
  case start_nodup => rw [hS]; exact h.start_nodup
  case start_kinds =>
    intro _
    have hkinds : s.startListeners.map (fun l => (s'.listener l).kind) =
        s.startListeners.map fun l => (s.listener l).kind := by
      refine List.map_congr_left fun l hl => ?_
      rw [hL, Function.update_of_ne (Nat.ne_of_lt (hsta l hl))]
    rw [hS, hkinds]
    exact h.start_kinds he
  case start_reg => have := h.start_reg; simp only [hS, hL, Function.update_apply]; grind
  case start_open => have := h.start_open; simp only [hS, hL, Function.update_apply]; grind
  case request_reg =>
    have := h.request_reg
    simp only [hR, hL, hP, hW, Function.update_apply]; grind
  case request_open => have := h.request_open; simp only [hR, hL, Function.update_apply]; grind
  case waiting =>
    have := h.waiting he
    simp only [hW, hR, hT, Function.update_apply]; grind
  case tx =>
    intro u y hy
    have hpend : ∀ u y, s.tx u = some y → ∀ l ∈ y.requestListeners, l < s.next :=
      fun u y hy l hl => h.lt_next_of_pending l ⟨u, y, hy, hl⟩
    simp only [hT, Function.update_apply] at hy
    by_cases hut : u = t
    · subst hut
      simp only [if_true, Option.some.injEq] at hy
      subst hy
      have hx' := h.tx u x hx
      have hpx := hpend u x hx
      constructor
      case at_work => have := hx'.at_work; simp only [hL, hT, Function.update_apply]; grind
      case nodup => have := hx'.nodup; grind
      case pending =>
        have := hx'.pending
        simp only [hL, hR, hW, hT, ListenerTx.view, Function.update_apply] at this ⊢
        rcases hw with rfl | ⟨rfl, hw⟩ <;> grind
      case unshared => have := hx'.unshared; simp only [hT, Function.update_apply]; grind
      case left =>
        have := hx'.left
        simp only [hR, hP, Function.update_apply]
        rcases hw with rfl | ⟨rfl, hw⟩ <;> grind
      case came =>
        have := hx'.came
        simp only [hR, Function.update_apply]
        rcases hw with rfl | ⟨rfl, hw⟩ <;> grind
      case taken => have := hx'.taken; rcases hw with rfl | ⟨rfl, hw⟩ <;> grind
    · simp only [hut, if_false] at hy
      have hy' := h.tx u y hy
      have hpy := hpend u y hy
      constructor
      case at_work => have := hy'.at_work; simp only [hL, hT, Function.update_apply]; grind
      case nodup => exact hy'.nodup
      case pending =>
        have := hy'.pending
        simp only [hL, hR, hW, hT, ListenerTx.view, Function.update_apply] at this ⊢
        rcases hw with rfl | ⟨rfl, hw⟩ <;> grind
      case unshared => have := hy'.unshared; simp only [hT, Function.update_apply]; grind
      case left => have := hy'.left; simp only [hR, hP, Function.update_apply]; grind
      case came => have := hy'.came; simp only [hR, Function.update_apply]; grind
      case taken => exact hy'.taken
  case disabled => simp [hE]
  case connected => rw [hC]; exact fun _ => h.connected he

theorem lookup_cons (k k' : RequestKey) (v : Option Bool) (ws : List (RequestKey × Option Bool)) :
    ((k, v) :: ws).lookup k' = if k' = k then some v else ws.lookup k' := by
  by_cases h : k' = k
  · simp [h]
  · rw [List.lookup_cons, if_neg h, beq_false_of_ne h]

/-- A start listener goes to work: until its clone is registered, its receive
    action has no listener. -/
theorem Inv.startBusy (h : Inv receiveActions missing s) {t l a : ℕ} (ht : s.tx t = none)
    (hl : s.listener l = ⟨.start a, .opened, false⟩) :
    ∃ as, (a :: as).Perm receiveActions ∧ s.enabled = true ∧
      Inv as missing (({ s with startListeners := s.startListeners.erase l, listener := setBusy l true s.listener }
        ).beginTx t (some l)) := by
  have hmem : l ∈ s.startListeners := by
    rcases h.start_open l a (by simp [hl]) (by simp [hl]) with hm | hb
    · exact hm
    · simp [hl] at hb
  have he : s.enabled = true := by
    by_contra he
    simp [(h.disabled (by simpa using he)).1] at hmem
  have hkinds : ((s.startListeners.erase l).map fun l => (s.listener l).kind).Perm
      ((receiveActions.erase a).map .start) ∧ (a :: receiveActions.erase a).Perm receiveActions := by
    have hp := h.start_kinds he
    have hcons := (List.perm_cons_erase hmem).map fun l => (s.listener l).kind
    simp only [List.map_cons, hl] at hcons
    have ha : a ∈ receiveActions := by
      have := (hcons.symm.trans hp).subset List.mem_cons_self
      simpa using this
    have hact := List.perm_cons_erase ha
    exact ⟨((hcons.symm.trans hp).trans (hact.map _)).cons_inv, hact.symm⟩
  refine ⟨_, hkinds.2, he, ?_⟩
  generalize hs' : ({ s with startListeners := s.startListeners.erase l, listener := setBusy l true s.listener }
    : ListenerRegistry).beginTx t (some l) = s'
  have hS : s'.startListeners = s.startListeners.erase l := by rw [← hs']; rfl
  have hR : s'.requestListeners = s.requestListeners := by rw [← hs']; rfl
  have hL : s'.listener = Function.update s.listener l ⟨.start a, .opened, true⟩ := by
    rw [← hs']
    simp [setBusy, hl]
  have hn : s'.next = s.next := by rw [← hs']; rfl
  have hT : ∀ u x, s'.tx u = some x ↔ u = t ∧ x = ⟨some l, [], [], false, []⟩ ∨ s.tx u = some x := by
    intro u x
    rw [← hs']
    exact beginTx_tx t (some l) u x ht
  have hW : s'.waiting = s.waiting := by rw [← hs']; rfl
  have hE : s'.enabled = true := by rw [← hs']; exact he
  have hC : s'.connected = s.connected := by rw [← hs']; rfl
  have hP : ∀ l, Pending s' l ↔ Pending s l := by
    intro l
    simp only [Pending, hT]
    grind
  have hnext := h.lt_next_of_start l hmem
  have hidle := h.listener_ne (by simp [hl] : (s.listener l).busy = false)
  clear hs'
  constructor
  case fresh => have := h.fresh; simp only [hL, hn, Function.update_apply]; grind
  case busy => have := h.busy; simp only [hL, hT, Function.update_apply]; grind
  case start_nodup => rw [hS]; exact h.start_nodup.erase l
  case start_kinds =>
    intro _
    rw [hS, List.map_congr_left fun l' _ => ?_]
    · exact hkinds.1
    · simp only [hL, Function.update_apply]; grind
  case start_reg =>
    have := h.start_reg
    simp only [hS, h.start_nodup.mem_erase_iff, hL, Function.update_apply]; grind
  case start_open =>
    have := h.start_open
    simp only [hS, h.start_nodup.mem_erase_iff, hL, Function.update_apply]; grind
  case request_reg => have := h.request_reg; simp only [hR, hL, hP, hW, Function.update_apply]; grind
  case request_open => have := h.request_open; simp only [hR, hL, Function.update_apply]; grind
  case waiting => have := h.waiting he; simp only [hW, hR, hT]; grind
  case tx =>
    intro u x hx
    rcases (hT u x).1 hx with ⟨rfl, rfl⟩ | hx
    · exact .new (by simp [hL]) (by simp [hL]) (by simp only [hT]; grind)
    · have hx' := h.tx u x hx
      constructor
      case at_work => have := hx'.at_work; simp only [hL, hT, Function.update_apply]; grind
      case nodup => exact hx'.nodup
      case pending => have := hx'.pending; simp only [hL, hR, hW, hT, Function.update_apply]; grind
      case unshared => have := hx'.unshared; simp only [hT]; grind
      case left => simpa only [hR, hP] using hx'.left
      case came => simpa only [hR] using hx'.came
      case taken => exact hx'.taken
  case disabled => simp [hE]
  case connected => rw [hC]; exact fun _ => h.connected he

theorem Inv.startMessage (h : Inv receiveActions missing s) {t l a : ℕ} (ht : s.tx t = none)
    (hl : s.listener l = ⟨.start a, .opened, false⟩) :
    Inv receiveActions missing (s.startMessage t l a) := by
  obtain ⟨as, hp, he, hi⟩ := h.startBusy ht hl
  exact (hi.addStartListener he a).perm ((List.perm_append_singleton a as).trans hp)

/-- A registered listener that is open. -/
theorem Inv.open_registered (h : Inv receiveActions missing s) {l : ℕ} {k : RequestKey} {b : Bool}
    (hl : s.listener l = ⟨.request k b, .opened, false⟩) :
    s.requestListeners k = some l ∧ s.waiting k = some b ∧ s.enabled = true := by
  have hR : s.requestListeners k = some l := by
    rcases h.request_open l k b (by simp [hl]) (by simp [hl]) with hr | ⟨hb, -⟩
    · exact hr
    · simp [hl] at hb
  refine ⟨hR, ?_, ?_⟩
  · obtain ⟨b', hk, -, ⟨t, x, hx, hm⟩ | ⟨-, hw⟩⟩ := h.request_reg k l hR
    · obtain ⟨_, _, hc, -⟩ := (h.tx t x hx).pending l hm
      simp [hl] at hc
    · simp only [hl, ListenerKind.request.injEq, true_and] at hk
      rw [hw, hk]
  · by_contra he
    simp [(h.disabled (by simpa using he)).2.1] at hR

theorem Inv.requestMessage (h : Inv receiveActions missing s) {t l : ℕ} {k : RequestKey} {b : Bool}
    (ht : s.tx t = none) (hl : s.listener l = ⟨.request k b, .opened, false⟩) :
    Inv receiveActions missing (s.requestMessage t l k b) := by
  obtain ⟨hreg, hwait, he⟩ := h.open_registered hl
  generalize hs' : s.requestMessage t l k b = s'
  have hS : s'.startListeners = s.startListeners := by
    rw [← hs', ListenerRegistry.requestMessage]; split <;> rfl
  have hR : s'.requestListeners =
      if b then Function.update s.requestListeners k none else s.requestListeners := by
    rw [← hs', ListenerRegistry.requestMessage]; cases b <;> simp [hreg]
  have hL : s'.listener = Function.update s.listener l ⟨.request k b, .opened, true⟩ := by
    rw [← hs', ListenerRegistry.requestMessage]; split <;> simp [setBusy, hl]
  have hn : s'.next = s.next := by rw [← hs', ListenerRegistry.requestMessage]; split <;> rfl
  have hT : ∀ u x, s'.tx u = some x ↔ s.tx u = some x ∨ u = t ∧ x =
     (if b then ⟨some l, [], [(k, none)], false, [k]⟩ else ⟨some l, [], [], false, []⟩) := by
    intro u x
    rw [← hs', ListenerRegistry.requestMessage]
    cases b <;>
    simp [hreg, take, leave, ListenerTx.view, hwait, Function.update_apply] <;> grind
  have hW : s'.waiting = s.waiting := by rw [← hs', ListenerRegistry.requestMessage]; split <;> rfl
  have hE : s'.enabled = true := by rw [← hs', ListenerRegistry.requestMessage]; split <;> exact he
  have hC : s'.connected = s.connected := by rw [← hs', ListenerRegistry.requestMessage]; split <;> rfl
  have hP : ∀ l, Pending s' l ↔ Pending s l := by
    intro l
    simp only [Pending, hT]
    cases b <;> grind
  have hnext := h.lt_next_of_request k l hreg
  have hidle := h.listener_ne (by simp [hl] : (s.listener l).busy = false)
  clear hs'
  constructor
  case fresh => have := h.fresh; simp only [hL, hn, Function.update_apply]; grind
  case busy => have := h.busy; simp only [hL, hT, Function.update_apply]; cases b <;> grind
  case start_nodup => rw [hS]; exact h.start_nodup
  case start_kinds =>
    intro _
    rw [hS, List.map_congr_left fun l' _ => ?_]
    · exact h.start_kinds he
    · simp only [hL, Function.update_apply]; grind
  case start_reg => have := h.start_reg; simp only [hS, hL, Function.update_apply]; grind
  case start_open => have := h.start_open; simp only [hS, hL, Function.update_apply]; grind
  case request_reg =>
    have := h.request_reg
    simp only [hR, hL, hP, hW, Function.update_apply]; cases b <;> grind
  case request_open =>
    have := h.request_open
    simp only [hR, hL, Function.update_apply]; cases b <;> grind
  case waiting => have := h.waiting he; simp only [hW, hR, hT]; cases b <;> grind
  case tx =>
    intro u x hx
    rcases (hT u x).1 hx with hx | ⟨rfl, rfl⟩
    · have hx' := h.tx u x hx
      constructor
      case at_work => have := hx'.at_work; simp only [hL, hT, Function.update_apply]; grind
      case nodup => exact hx'.nodup
      case pending => have := hx'.pending; simp only [hL, hR, hW, hT, Function.update_apply]; cases b <;> grind
      case unshared => have := hx'.unshared; simp only [hT]; cases b <;> grind
      case left => have := hx'.left; simp only [hR, hP]; cases b <;> grind
      case came => have := hx'.came; have := hx'.pending; simp only [hR]; cases b <;> grind
      case taken => exact hx'.taken
    · cases b
      · exact .new (by simp [hL]) (by simp [hL]) (by simp only [hT]; grind)
      · constructor
        case at_work => simp only [hL, hT]; grind
        all_goals simp [hR, lookup_cons]
  case disabled => simp [hE]
  case connected => rw [hC]; exact fun _ => h.connected he

theorem Inv.request_inj (h : Inv receiveActions missing s) {l : ℕ} {k k' : RequestKey}
    (hl : s.requestListeners k = some l) (hl' : s.requestListeners k' = some l) : k = k' := by
  obtain ⟨b, hk, -⟩ := h.request_reg k l hl
  obtain ⟨b', hk', -⟩ := h.request_reg k' l hl'
  rw [hk] at hk'
  cases hk'
  rfl

/-- The token is waiting, and ceases to do so, or is not. -/
theorem leave_eq (k : RequestKey) (x : ListenerTx) : ∃ ws, s.leave k x = { x with writes := ws } ∧
    (x.view s.waiting k = none ∧ ws = x.writes ∨
      (x.view s.waiting k).isSome = true ∧ ws = (k, none) :: x.writes) := by
  by_cases hv : (x.view s.waiting k).isSome = true
  · exact ⟨_, if_pos hv, .inr ⟨hv, rfl⟩⟩
  · exact ⟨x.writes, if_neg hv, .inl ⟨by simpa using hv, rfl⟩⟩

/-- The record of a transaction that cancels the reception of `k`, where `ws` is what it
    has noted of the tokens then. -/
structure CancelledTx (s : ListenerRegistry) (k : RequestKey) (ws : List (RequestKey × Option Bool))
    (x x' : ListenerTx) : Prop where
  listener : x'.listener = x.listener
  writes : x'.writes = ws
  stale : x'.stale = x.stale
  requestListeners : ∀ l, l ∈ x'.requestListeners ↔
    l ∈ x.requestListeners ∧ s.requestListeners k ≠ some l
  nodup : x'.requestListeners.Nodup
  taken : ∀ k', k' ∈ x'.taken ↔
    k' ∈ x.taken ∨ k' = k ∧ (s.requestListeners k).isSome ∧ (s.waiting k).isSome

/-- What cancelling a reception does: its listener is closed and not registered any more. -/
structure Cancelled (s : ListenerRegistry) (t : ℕ) (k : RequestKey) (x' : ListenerTx)
    (s' : ListenerRegistry) : Prop where
  startListeners : s'.startListeners = s.startListeners
  requestListeners : s'.requestListeners = Function.update s.requestListeners k none
  listener : s'.listener = fun l =>
    if s.requestListeners k = some l then { s.listener l with status := .closed }
    else s.listener l
  next : s'.next = s.next
  waiting : s'.waiting = s.waiting
  enabled : s'.enabled = s.enabled
  connected : s'.connected = s.connected
  tx : ∀ u y, s'.tx u = some y ↔ u ≠ t ∧ s.tx u = some y ∨ u = t ∧ y = x'

theorem cancelledTx_take {k : RequestKey} {x : ListenerTx} {ws : List (RequestKey × Option Bool)}
    {l : ℕ} (hnd : x.requestListeners.Nodup) (hk : s.requestListeners k = some l) :
    CancelledTx s k ws x
      (s.take k { x with writes := ws, requestListeners := x.requestListeners.erase l }) := by
  constructor
  case listener => simp only [take]; split <;> rfl
  case writes => simp only [take]; split <;> rfl
  case stale => simp only [take]; split <;> rfl
  case requestListeners =>
    intro l'
    have : l' ∈ x.requestListeners.erase l ↔ _ := hnd.mem_erase_iff
    simp only [take]
    split <;> grind
  case nodup =>
    have := hnd.erase l
    simp only [take]
    split <;> simpa
  case taken => simp only [take]; split <;> grind

theorem Inv.cancelled (h : Inv receiveActions missing s) {t : ℕ} (k : RequestKey) {x : ListenerTx}
    {ws : List (RequestKey × Option Bool)} (hx : s.tx t = some x)
    (hle : s.leave k x = { x with writes := ws }) :
    ∃ x', CancelledTx s k ws x x' ∧ Cancelled s t k x' (s.cancelReception t k) := by
  have hnd := (h.tx t x hx).nodup
  rw [ListenerRegistry.cancelReception]
  rcases hk : s.requestListeners k with _ | l
  · have htx : CancelledTx s k ws x { x with writes := ws } :=
      ⟨rfl, rfl, rfl, by simp [hk], hnd, by simp [hk]⟩
    refine ⟨_, htx, ⟨rfl, ?_, ?_, rfl, rfl, rfl, rfl, fun u y => ?_⟩⟩
    · simp only [modifyTx]
      rw [← hk, Function.update_eq_self]
    · simp [modifyTx, hk]
    · simp only [modifyTx, Function.update_apply, hx, hle, Option.map_some]
      grind
  · refine ⟨_, cancelledTx_take hnd hk, ⟨rfl, rfl, ?_, rfl, rfl, rfl, rfl, fun u y => ?_⟩⟩
    · funext l'
      simp only [modifyTx, setStatus, hk, Function.update_apply, Option.some.injEq]
      grind
    · simp only [modifyTx, Function.update_apply, hx, hle, Option.map_some]
      grind

section
variable {s' : ListenerRegistry} {t : ℕ} {k : RequestKey} {x x' : ListenerTx}
  {ws : List (RequestKey × Option Bool)}

theorem Cancelled.pending_iff (hc : Cancelled s t k x' s') (hx' : CancelledTx s k ws x x')
    (hx : s.tx t = some x)
    (hs : ∀ u y, s.tx u = some y → u ≠ t →
      ∀ l ∈ y.requestListeners, s.requestListeners k ≠ some l) (l : ℕ) :
    Pending s' l ↔ Pending s l ∧ s.requestListeners k ≠ some l := by
  have hmem := hx'.requestListeners
  simp only [Pending, hc.tx]
  grind

/-- Other transactions do not have the listener. -/
theorem Inv.cancelled_other (h : Inv receiveActions missing s) (hc : Cancelled s t k x' s')
    (hx' : CancelledTx s k ws x x') (hx : s.tx t = some x)
    (hws : x.view s.waiting k = none ∧ ws = x.writes ∨
      (x.view s.waiting k).isSome = true ∧ ws = (k, none) :: x.writes)
    (hs : ∀ u y, s.tx u = some y → u ≠ t →
      ∀ l ∈ y.requestListeners, s.requestListeners k ≠ some l)
    {u : ℕ} {y : ListenerTx} (hut : u ≠ t) (hy : s.tx u = some y) : TxInv s' u y := by
  have hP := hc.pending_iff hx' hx hs
  have hinj := fun l k' => @Inv.request_inj _ _ _ h l k k'
  obtain ⟨-, hR, hL, -, hW, -, -, hT⟩ := hc
  obtain ⟨hx1, hx2, hx3, hx4, hx5, hx6⟩ := hx'
  have hy' := h.tx u y hy
  have hxx := h.tx t x hx
  constructor
  case at_work => have := hy'.at_work; simp only [hL, hT]; grind
  case nodup => exact hy'.nodup
  case pending =>
    have := hy'.pending
    simp only [hL, hR, hW, hT, Function.update_apply]; grind [lookup_cons]
  case unshared => have := hy'.unshared; simp only [hT]; grind
  case left => have := hy'.left; simp only [hR, hP, Function.update_apply]; grind
  case came => have := hy'.came; simp only [hR, Function.update_apply]; grind
  case taken => exact hy'.taken

/-- The transaction that cancels the reception notes that the token does not wait. -/
theorem Inv.cancelled_own (h : Inv receiveActions missing s) (hc : Cancelled s t k x' s')
    (hx' : CancelledTx s k ws x x') (hx : s.tx t = some x)
    (hws : x.view s.waiting k = none ∧ ws = x.writes ∨
      (x.view s.waiting k).isSome = true ∧ ws = (k, none) :: x.writes)
    (hs : ∀ u y, s.tx u = some y → u ≠ t →
      ∀ l ∈ y.requestListeners, s.requestListeners k ≠ some l) : TxInv s' t x' := by
  have hP := hc.pending_iff hx' hx hs
  have hinj := fun l k' => @Inv.request_inj _ _ _ h l k k'
  obtain ⟨-, hR, hL, -, hW, -, -, hT⟩ := hc
  obtain ⟨hx1, hx2, hx3, hx4, hx5, hx6⟩ := hx'
  have hy' := h.tx t x hx
  constructor
  case at_work => have := hy'.at_work; simp only [hL, hT]; grind
  case nodup => exact hx5
  case pending =>
    have := hy'.pending
    simp only [hL, hR, hW, hT, ListenerTx.view, hx2, Function.update_apply] at this ⊢
    grind [lookup_cons]
  case unshared => have := hy'.unshared; simp only [hT]; grind
  case left =>
    have := hy'.left
    simp only [hR, hP, Function.update_apply]; grind [lookup_cons]
  case came =>
    have := hy'.came
    have := hy'.pending
    simp only [hR, Function.update_apply, ListenerTx.view] at *; grind [lookup_cons]
  case taken =>
    intro k' hk'
    rw [hx2]
    rcases (hx6 k').1 hk' with hk' | ⟨rfl, -, hw⟩
    · have := hy'.taken k' hk'
      rcases hws with ⟨-, rfl⟩ | ⟨-, rfl⟩ <;> grind [lookup_cons]
    · rcases hws with ⟨hv, rfl⟩ | ⟨-, rfl⟩
      · rcases hl : x.writes.lookup k' with _ | v
        · simp only [ListenerTx.view, hl, Option.getD_none] at hv
          simp [hv] at hw
        · rfl
      · simp

end

theorem Inv.cancelReception (h : Inv receiveActions missing s) {t : ℕ} {k : RequestKey}
    (ht : s.tx t ≠ none)
    (hs : ∀ u x, s.tx u = some x → u ≠ t →
      ∀ l ∈ x.requestListeners, s.requestListeners k ≠ some l) :
    Inv receiveActions missing (s.cancelReception t k) := by
  obtain ⟨x, hx⟩ := Option.ne_none_iff_exists'.1 ht
  obtain ⟨ws, hle, hws⟩ := s.leave_eq k x
  obtain ⟨x', hx', hc⟩ := h.cancelled k hx hle
  have hP := hc.pending_iff hx' hx hs
  have hinj := fun l k' => @Inv.request_inj _ _ _ h l k k'
  have hother : ∀ u y, u ≠ t → s.tx u = some y → TxInv (s.cancelReception t k) u y :=
    fun u y hut hy => h.cancelled_other hc hx' hx hws hs hut hy
  have hown := h.cancelled_own hc hx' hx hws hs
  generalize s.cancelReception t k = s' at hc hP hother hown
  obtain ⟨hS, hR, hL, hn, hW, hE, hC, hT⟩ := hc
  obtain ⟨hx1, -, -, -, -, hx6⟩ := hx'
  constructor
  case fresh => have := h.fresh; simp only [hL, hn]; grind
  case busy => have := h.busy; simp only [hL, hT]; grind
  case start_nodup => rw [hS]; exact h.start_nodup
  case start_kinds =>
    intro he
    rw [hS, List.map_congr_left fun l' _ => ?_]
    · exact h.start_kinds (hE ▸ he)
    · simp only [hL]; grind
  case start_reg =>
    have := h.start_reg
    have := h.request_reg k
    simp only [hS, hL]; grind
  case start_open => have := h.start_open; simp only [hS, hL]; grind
  case request_reg =>
    have := h.request_reg
    simp only [hR, hL, hP, hW, Function.update_apply]; grind
  case request_open => have := h.request_open; simp only [hR, hL, Function.update_apply]; grind
  case waiting =>
    intro he k' b hw
    rw [hW] at hw
    rcases h.waiting (hE ▸ he) k' b hw with hm | hm | hm
    · exact .inl hm
    · simp only [hR, hT, Function.update_apply]; grind
    · simp only [hT]; grind
  case tx =>
    intro u y hy
    rcases (hT u y).1 hy with ⟨hut, hy⟩ | ⟨rfl, rfl⟩
    · exact hother u y hut hy
    · exact hown
  case disabled =>
    intro he
    have := h.disabled (hE ▸ he)
    simp only [hS, hR, hL, Function.update_apply]; grind
  case connected => rw [hC, hE]; exact h.connected

theorem setStatus_apply (l : ℕ) (st : ConsumerStatus) (m : ℕ → Listener) (l' : ℕ) :
    setStatus l st m l' = if l' = l then { m l' with status := st } else m l' := by
  simp only [setStatus, Function.update_apply]
  grind

/-- Listeners that are not closed can all be opened. -/
theorem openRequestListeners_eq (ls : List ℕ) (m : ℕ → Listener)
    (h : ∀ l ∈ ls, (m l).status ≠ .closed) :
    openRequestListeners ls m =
      (true, fun l => if l ∈ ls then { m l with status := .opened } else m l) := by
  induction ls generalizing m with
  | nil => simp [openRequestListeners]
  | cons l ls ih =>
    rw [openRequestListeners, if_neg (h l List.mem_cons_self), ih]
    · simp only [setStatus_apply, Prod.mk.injEq, true_and]
      funext l'
      grind
    · intro l' hl'
      have := h l' (List.mem_cons_of_mem l hl')
      simp only [setStatus_apply]
      grind

theorem afterDelivery_apply (listener : Option ℕ) (ok : Bool) (m : ℕ → Listener) (l : ℕ) :
    afterDelivery listener ok m l =
      if listener = some l then
        { m l with
          busy := false
          status := if ok = true ∧ (m l).kind.oneShot = true then .closed else (m l).status }
      else m l := by
  rcases listener with _ | l'
  · rfl
  · simp only [afterDelivery, setBusy, setStatus, Option.some.injEq]
    split <;> simp only [Function.update_apply] <;> grind

/-- The listeners after a safe transaction: its own are open, and the one whose
    message it delivered is closed, if a message ends its reception. -/
theorem Inv.finish_listener (h : Inv receiveActions missing s) {t : ℕ} {x : ListenerTx} {o : Outcome}
    (hx : s.tx t = some x) (hs : o = .committed ∨ Harmless s o x) :
    (s.finish t o).listener = fun l =>
      if l ∈ x.requestListeners then { s.listener l with status := .opened }
      else if x.listener = some l then
        { s.listener l with
          busy := false
          status := if (s.listener l).kind.oneShot = true then .closed else (s.listener l).status }
      else s.listener l := by
  have hx' := h.tx t x hx
  have hcr : ∀ l ∈ x.requestListeners, (s.listener l).status = .created ∧ x.listener ≠ some l := by
    intro l hl
    obtain ⟨k, b, hc, -⟩ := hx'.pending l hl
    exact ⟨by simp [hc], fun he => (hx'.at_work l he).2.1 (by simp [hc])⟩
  have hopen := openRequestListeners_eq x.requestListeners s.listener fun l hl => by
    simp [(hcr l hl).1]
  have hm : (if o.commits then s.commit x else s).listener = s.listener := by split <;> rfl
  rw [finish, hx]
  simp only [hm]
  funext l
  rw [afterDelivery_apply]
  rcases hs with rfl | ⟨ho, hl⟩
  · simp only [hopen, reduceCtorEq, if_false]
    grind
  · have hls : o = .rolledBack → x.requestListeners = [] := fun he => (ho (by rw [he]; rfl)).1
    by_cases hr : o = .rolledBack
    · simp only [hr, hls hr, closeRequestListeners, List.foldl_nil]
      grind
    · simp only [hr, hopen, if_false]
      grind

theorem lookup_any {ws : List (RequestKey × Option Bool)} {p : RequestKey → Bool}
    (h : (ws.any fun w => p w.1) = false) {k : RequestKey} (hk : p k = true) : ws.lookup k = none := by
  rw [List.lookup_eq_none_iff]
  intro w hw
  have := (List.any_eq_false.1 h) w hw
  rw [bne_iff_ne]
  rintro rfl
  exact this hk

/-- What the end of a transaction does to the registry and to the other transactions: those
    that overlap with it are stale if it commits. -/
structure Finished (s : ListenerRegistry) (t : ℕ) (x : ListenerTx) (o : Outcome)
    (s' : ListenerRegistry) : Prop where
  startListeners : s'.startListeners = s.startListeners
  requestListeners : s'.requestListeners = s.requestListeners
  next : s'.next = s.next
  enabled : s'.enabled = s.enabled
  connected : s'.connected = s.connected
  waiting : s'.waiting = if o.commits then x.view s.waiting else s.waiting
  listener : s'.listener = fun l =>
    if l ∈ x.requestListeners then { s.listener l with status := .opened }
    else if x.listener = some l then
      { s.listener l with
        busy := false
        status := if (s.listener l).kind.oneShot = true then .closed else (s.listener l).status }
    else s.listener l
  tx : ∀ u y', s'.tx u = some y' → u ≠ t ∧ ∃ y, s.tx u = some y ∧
    y'.listener = y.listener ∧ y'.requestListeners = y.requestListeners ∧ y'.writes = y.writes ∧
    y'.taken = y.taken ∧ (y'.stale = false → y.stale = false ∧
      (o.commits = true → ∀ k, (x.writes.lookup k).isSome = true → y.writes.lookup k = none))
  others : ∀ u y, u ≠ t → s.tx u = some y → ∃ y', s'.tx u = some y' ∧
    y'.listener = y.listener ∧ y'.requestListeners = y.requestListeners ∧ y'.writes = y.writes ∧
    y'.taken = y.taken

theorem Inv.finished (h : Inv receiveActions missing s) {t : ℕ} {x : ListenerTx} {o : Outcome}
    (hx : s.tx t = some x) (hs : o = .committed ∨ Harmless s o x) :
    Finished s t x o (s.finish t o) where
  startListeners := by rw [ListenerRegistry.finish, hx]; dsimp only; split <;> rfl
  requestListeners := by rw [ListenerRegistry.finish, hx]; dsimp only; split <;> rfl
  next := by rw [ListenerRegistry.finish, hx]; dsimp only; split <;> rfl
  enabled := by rw [ListenerRegistry.finish, hx]; dsimp only; split <;> rfl
  connected := by rw [ListenerRegistry.finish, hx]; dsimp only; split <;> rfl
  waiting := by rw [ListenerRegistry.finish, hx]; dsimp only; split <;> rfl
  listener := h.finish_listener hx hs
  tx := by
    intro u y' hy'
    rw [ListenerRegistry.finish, hx] at hy'
    dsimp only at hy'
    by_cases hut : u = t
    · simp [hut] at hy'
    · rw [Function.update_of_ne hut] at hy'
      refine ⟨hut, ?_⟩
      by_cases ho : o.commits = true
      · simp only [ho, if_true, commit, Option.map_eq_some_iff] at hy'
        obtain ⟨y, hy, rfl⟩ := hy'
        refine ⟨y, hy, rfl, rfl, rfl, rfl, ?_⟩
        intro hf
        simp only [Bool.or_eq_false_iff] at hf
        exact ⟨hf.1, fun _ k hk => lookup_any (p := fun k => (x.writes.lookup k).isSome) hf.2 hk⟩
      · rw [if_neg ho] at hy'
        exact ⟨y', hy', rfl, rfl, rfl, rfl, fun hf => ⟨hf, fun he => absurd he ho⟩⟩
  others := by
    intro u y hut hy
    rw [ListenerRegistry.finish, hx]
    dsimp only
    rw [Function.update_of_ne hut]
    by_cases ho : o.commits = true
    · simp [ho, commit, hy]
    · simp [ho, hy]

section
variable {s' : ListenerRegistry} {t : ℕ} {x : ListenerTx} {o : Outcome}

theorem Finished.pending_iff (hf : Finished s t x o s') (hx : s.tx t = some x)
    (hun : ∀ u y, u ≠ t → s.tx u = some y → ∀ l ∈ x.requestListeners, l ∉ y.requestListeners)
    (l : ℕ) : Pending s' l ↔ Pending s l ∧ l ∉ x.requestListeners := by
  constructor
  · rintro ⟨u, y', hy', hl⟩
    obtain ⟨hut, y, hy, -, hr, -⟩ := hf.tx u y' hy'
    rw [hr] at hl
    exact ⟨⟨u, y, hy, hl⟩, fun hl' => hun u y hut hy l hl' hl⟩
  · rintro ⟨⟨u, y, hy, hl⟩, hl'⟩
    have hut : u ≠ t := by
      rintro rfl
      cases hx.symm.trans hy
      exact hl' hl
    obtain ⟨y', hy', -, hr, -⟩ := hf.others u y hut hy
    exact ⟨u, y', hy', hr ▸ hl⟩

/-- A transaction that has created listeners commits. -/
theorem commits_of_mem (hno : o.commits = false → x.requestListeners = [] ∧ x.taken = [])
    {l : ℕ} (hl : l ∈ x.requestListeners) : o.commits = true := by
  by_contra ho
  simp [(hno (by simpa using ho)).1] at hl

/-- What the database says of a token that no listener waits for a commit of. -/
theorem Inv.finished_reg (h : Inv receiveActions missing s) (hf : Finished s t x o s')
    (hx : s.tx t = some x) (hst : o.commits = true → x.stale = false)
    (hno : o.commits = false → x.requestListeners = [] ∧ x.taken = []) {k : RequestKey} {l : ℕ}
    (hl : s.requestListeners k = some l) :
    Pending s' l ∨ ∃ b, (s.listener l).kind = .request k b ∧
      (l ∈ x.requestListeners ∨ (s.listener l).status = .opened) ∧ s'.waiting k = some b := by
  have hx' := h.tx t x hx
  rw [hf.pending_iff hx hx'.unshared]
  obtain ⟨b, hk, -, hpd⟩ := h.request_reg k l hl
  by_cases hlx : l ∈ x.requestListeners
  · obtain ⟨k', b', hc, hR', hv, -⟩ := hx'.pending l hlx
    cases h.request_inj hl hR'
    refine .inr ⟨b', by simp [hc], .inl hlx, ?_⟩
    rw [hf.waiting, if_pos (commits_of_mem hno hlx), hv]
  · rcases hpd with hpd | ⟨hop, hw⟩
    · exact .inl ⟨hpd, hlx⟩
    · have hnp : ¬ Pending s l := by
        rintro ⟨u, y, hy, hly⟩
        obtain ⟨_, _, hc, -⟩ := (h.tx u y hy).pending l hly
        simp [hc] at hop
      refine .inr ⟨b, hk, .inr hop, ?_⟩
      rw [hf.waiting]
      split
      · rename_i ho
        rcases hlk : x.writes.lookup k with _ | _ | b'
        · simp [ListenerTx.view, hlk, hw]
        · exact absurd (hx'.left (hst ho) k hlk l hl) hnp
        · obtain ⟨l', hl', hr'⟩ := hx'.came k b' hlk
          cases hl.symm.trans hr'
          exact absurd hl' hlx
      · exact hw

/-- A token that waits in the database has a listener, or one is taken, as before. -/
theorem Inv.finished_waiting (h : Inv receiveActions missing s) (hf : Finished s t x o s')
    (hx : s.tx t = some x) (hno : o.commits = false → x.requestListeners = [] ∧ x.taken = [])
    (he : s.enabled = true) {k : RequestKey} {b : Bool} (hw : s'.waiting k = some b) :
    missing k ∨ (∃ l, s'.requestListeners k = some l) ∨ ∃ u y, s'.tx u = some y ∧ k ∈ y.taken := by
  have hx' := h.tx t x hx
  have hold : s.waiting k = some b → missing k ∨ (∃ l, s'.requestListeners k = some l) ∨
      ∃ u y, s'.tx u = some y ∧ k ∈ y.taken ∨ u = t ∧ k ∈ x.taken := by
    intro hw
    rcases h.waiting he k b hw with hm | ⟨l, hl⟩ | ⟨u, y, hy, hk⟩
    · exact .inl hm
    · exact .inr (.inl ⟨l, by rw [hf.requestListeners, hl]⟩)
    · by_cases hut : u = t
      · subst hut
        cases hx.symm.trans hy
        exact .inr (.inr ⟨u, x, .inr ⟨rfl, hk⟩⟩)
      · obtain ⟨y', hy', -, -, -, ht⟩ := hf.others u y hut hy
        exact .inr (.inr ⟨u, y', .inl ⟨hy', ht ▸ hk⟩⟩)
  rw [hf.waiting] at hw
  split at hw
  · rename_i ho
    rcases hlk : x.writes.lookup k with _ | _ | b'
    · simp only [ListenerTx.view, hlk, Option.getD_none] at hw
      have := hx'.taken k
      have := hold hw
      grind
    · simp [ListenerTx.view, hlk] at hw
    · obtain ⟨l, -, hl⟩ := hx'.came k b' hlk
      exact .inr (.inl ⟨l, by rw [hf.requestListeners, hl]⟩)
  · have := hold hw
    have := (hno (by grind)).2
    grind

/-- Another transaction finds its listeners as they were. -/
theorem Inv.finished_pending (h : Inv receiveActions missing s) (hf : Finished s t x o s')
    (hx : s.tx t = some x) {u : ℕ} {y y' : ListenerTx} (hut : u ≠ t) (hy : s.tx u = some y)
    (hyw : y'.writes = y.writes) {l : ℕ} (hl : l ∈ y.requestListeners) :
    ∃ k b, s'.listener l = ⟨.request k b, .created, false⟩ ∧ s'.requestListeners k = some l ∧
      y'.view s'.waiting k = some b ∧
      (y'.writes.lookup k = none → ∀ v z', v ≠ u → s'.tx v = some z' →
        z'.writes.lookup k = none) := by
  have hx' := h.tx t x hx
  have hun := hx'.unshared u y hut hy
  obtain ⟨k, b, hc, hr, hv, hn⟩ := (h.tx u y hy).pending l hl
  refine ⟨k, b, ?_, by rw [hf.requestListeners, hr], ?_, ?_⟩
  · have := hx'.at_work
    simp only [hf.listener]; grind
  · simp only [ListenerTx.view, hyw, hf.waiting] at hv ⊢
    rcases hlk : y.writes.lookup k with _ | v
    · have := hn hlk t x (Ne.symm hut) hx
      simp only [hlk, Option.getD_none] at hv ⊢
      split <;> simp [ListenerTx.view, this, hv]
    · simpa [hlk] using hv
  · intro hlk v z' hvu hz'
    obtain ⟨hvt, z, hz, -, -, hzw, -⟩ := hf.tx v z' hz'
    rw [hzw]
    exact hn (hyw ▸ hlk) v z hvu hz

theorem Inv.finished_tx (h : Inv receiveActions missing s) (hf : Finished s t x o s')
    (hx : s.tx t = some x) (hno : o.commits = false → x.requestListeners = [] ∧ x.taken = [])
    {u : ℕ} {y' : ListenerTx} (hy' : s'.tx u = some y') : TxInv s' u y' := by
  have hx' := h.tx t x hx
  obtain ⟨hut, y, hy, hyl, hyr, hyw, hyt, hys⟩ := hf.tx u y' hy'
  have hy₀ := h.tx u y hy
  constructor
  case at_work =>
    have := hy₀.at_work
    have := hx'.at_work
    have := hx'.pending
    have := hf.tx
    simp only [hf.listener]; grind
  case nodup => rw [hyr]; exact hy₀.nodup
  case pending => exact fun l hl => h.finished_pending hf hx hut hy hyw (hyr ▸ hl)
  case unshared =>
    intro v z' hvu hz' l hl
    obtain ⟨hvt, z, hz, -, hzr, -⟩ := hf.tx v z' hz'
    rw [hzr]
    exact hy₀.unshared v z hvu hz l (hyr ▸ hl)
  case left =>
    intro hst' k hlk l hl
    rw [hf.requestListeners] at hl
    rw [hyw] at hlk
    obtain ⟨hst₀, hov⟩ := hys hst'
    have hp := hy₀.left hst₀ k hlk l hl
    refine (hf.pending_iff hx hx'.unshared l).2 ⟨hp, fun hlx => ?_⟩
    obtain ⟨k', b', hc, hr, hv, hn⟩ := hx'.pending l hlx
    cases h.request_inj hl hr
    by_cases hxk : (x.writes.lookup k).isSome = true
    · simp [hov (commits_of_mem hno hlx) k hxk] at hlk
    · rw [hn (Option.not_isSome_iff_eq_none.1 hxk) u y hut hy] at hlk
      cases hlk
  case came =>
    intro k b hlk
    rw [hyr, hf.requestListeners]
    exact hy₀.came k b (hyw ▸ hlk)
  case taken => rw [hyt, hyw]; exact hy₀.taken

end

theorem Inv.finish (h : Inv receiveActions missing s) {t : ℕ} {x : ListenerTx} {o : Outcome}
    (hx : s.tx t = some x) (hst : o.commits = true → x.stale = false)
    (hs : o = .committed ∨ Harmless s o x) : Inv receiveActions missing (s.finish t o) := by
  have hno : o.commits = false → x.requestListeners = [] ∧ x.taken = [] := by
    rcases hs with rfl | hs
    · intro he; cases he
    · exact hs.1
  have hf := h.finished hx hs
  generalize s.finish t o = s' at hf
  have hx' := h.tx t x hx
  have hL := hf.listener
  have hcr : ∀ l ∈ x.requestListeners, x.listener ≠ some l := by
    intro l hl he
    obtain ⟨k, b, hc, -⟩ := hx'.pending l hl
    exact (hx'.at_work l he).2.1 (by simp [hc])
  constructor
  case fresh =>
    have := h.fresh
    have hpn := h.lt_next_of_pending
    have : ∀ l ∈ x.requestListeners, l < s.next := fun l hl => hpn l ⟨t, x, hx, hl⟩
    simp only [hL, hf.next]; grind
  case busy =>
    intro l hb
    have hb' : (s.listener l).busy = true ∧ x.listener ≠ some l := by
      have := hx'.pending
      simp only [hL] at hb; grind
    obtain ⟨u, y, hy, hl⟩ := h.busy l hb'.1
    have hut : u ≠ t := by
      rintro rfl
      cases hx.symm.trans hy
      exact hb'.2 hl
    obtain ⟨y', hy', hl', -⟩ := hf.others u y hut hy
    exact ⟨u, y', hy', hl' ▸ hl⟩
  case start_nodup => rw [hf.startListeners]; exact h.start_nodup
  case start_kinds =>
    intro he
    rw [hf.startListeners, List.map_congr_left fun l' _ => ?_]
    · exact h.start_kinds (hf.enabled ▸ he)
    · simp only [hL]; grind
  case start_reg =>
    have := h.start_reg
    have := hx'.pending
    have := hx'.at_work
    simp only [hf.startListeners, hL]; grind
  case start_open =>
    have := h.start_open
    have := hx'.pending
    simp only [hf.startListeners, hL]; grind [ListenerKind.oneShot]
  case request_reg =>
    intro k l hl
    rw [hf.requestListeners] at hl
    obtain ⟨b, hk, hb, -⟩ := h.request_reg k l hl
    have hwork := hx'.at_work l
    refine ⟨b, by simp only [hL]; grind, by simp only [hL]; grind, ?_⟩
    rcases h.finished_reg hf hx hst hno hl with hp | ⟨b', hk', ho, hw⟩
    · exact .inl hp
    · cases hk.symm.trans hk'
      refine .inr ⟨?_, hw⟩
      have hshot : x.listener = some l → (s.listener l).kind.oneShot = false := by
        intro he
        cases b
        · simp [hk, ListenerKind.oneShot]
        · simp [hb rfl] at hwork
          exact absurd he hwork
      simp only [hL]; grind
  case request_open =>
    have := h.request_open
    have := hx'.pending
    simp only [hf.requestListeners, hL]; grind [ListenerKind.oneShot]
  case waiting => exact fun he k b hw => h.finished_waiting hf hx hno (hf.enabled ▸ he) hw
  case tx => exact fun u y' hy' => h.finished_tx hf hx hno hy'
  case disabled =>
    intro he
    have := h.disabled (hf.enabled ▸ he)
    have := hx'.pending
    simp only [hf.startListeners, hf.requestListeners, hL]; grind
  case connected => rw [hf.connected, hf.enabled]; exact h.connected

theorem Inv.disable (h : Inv receiveActions missing s)
    (hu : ∀ t x, s.tx t = some x → Untouched x) : Inv receiveActions missing s.disable := by
  have hb : ∀ l, (s.listener l).busy = false := by
    intro l
    by_contra hb
    obtain ⟨t, x, hx, hl⟩ := h.busy l (by simpa using hb)
    simp [(hu t x hx).1] at hl
  have hclosed : ∀ l, (s.disable.listener l).status ≠ .opened := by
    intro l ho
    simp only [ListenerRegistry.disable] at ho
    split at ho
    · cases ho
    · rename_i hr
      rcases hk : (s.listener l).kind with a | ⟨k, b⟩
      · have := h.start_open l a hk ho
        simp only [isRegistered, hk] at hr
        simp [hr, hb] at this
      · have := h.request_open l k b hk ho
        simp only [isRegistered, hk] at hr
        simp [hr, hb] at this
  have hstatus : ∀ l, (s.disable.listener l).busy = (s.listener l).busy ∧
      ((s.listener l).status = .closed → (s.disable.listener l).status = .closed) := by
    intro l
    simp only [ListenerRegistry.disable]
    grind
  constructor
  case fresh => have := h.fresh; grind [ListenerRegistry.disable]
  case busy => have := h.busy; grind [ListenerRegistry.disable]
  case start_nodup => simp [ListenerRegistry.disable]
  case start_kinds => simp [ListenerRegistry.disable]
  case start_reg => simp [ListenerRegistry.disable]
  case start_open => exact fun l a _ ho => absurd ho (hclosed l)
  case request_reg => simp [ListenerRegistry.disable]
  case request_open => exact fun l k b _ ho => absurd ho (hclosed l)
  case waiting => simp [ListenerRegistry.disable]
  case tx =>
    intro t x hx
    obtain ⟨hl, hr, hw⟩ := hu t x hx
    have ht := (h.tx t x hx).taken
    simp only [hw, List.lookup_nil] at ht
    constructor <;> simp [hl, hr, hw]
    exact fun k hk => by simpa using ht k hk
  case disabled => exact fun _ => ⟨rfl, fun _ => rfl, hclosed⟩
  case connected => simp [ListenerRegistry.disable]

theorem Inv.closeJmsConnection (h : Inv receiveActions missing s) (he : s.enabled = false)
    (hb : ∀ l, (s.listener l).busy = false) :
    Inv receiveActions missing s.closeJmsConnection := by
  obtain ⟨hS, hR, -⟩ := h.disabled he
  have hne : ¬ s.closeJmsConnection.enabled = true := by simp [ListenerRegistry.closeJmsConnection, he]
  constructor
  case fresh => exact fun l hl => ⟨rfl, (h.fresh l hl).2⟩
  case busy => exact h.busy
  case start_nodup => exact h.start_nodup
  case start_kinds => exact fun he' => absurd he' hne
  case start_reg => simp [ListenerRegistry.closeJmsConnection, hS]
  case start_open => simp [ListenerRegistry.closeJmsConnection]
  case request_reg => simp [ListenerRegistry.closeJmsConnection, hR]
  case request_open => simp [ListenerRegistry.closeJmsConnection]
  case waiting => exact fun he' => absurd he' hne
  case tx =>
    intro t x hx
    have hx' := h.tx t x hx
    have hl : ∀ l, x.listener ≠ some l := fun l => h.listener_ne (hb l) t x hx
    have hr : ∀ l, l ∉ x.requestListeners := by
      intro l hl
      obtain ⟨k, b, -, hr, -⟩ := hx'.pending l hl
      simp [hR] at hr
    constructor
    case at_work => exact fun l he => absurd he (hl l)
    case nodup => exact hx'.nodup
    case pending => exact fun l he => absurd he (hr l)
    case unshared => exact hx'.unshared
    case left => exact hx'.left
    case came => exact hx'.came
    case taken => exact hx'.taken
  case disabled => exact fun _ => ⟨hS, hR, by simp [ListenerRegistry.closeJmsConnection]⟩
  case connected => exact fun he' => absurd he' hne

theorem Inv.mono (h : Inv receiveActions missing s) {missing' : RequestKey → Prop}
    (hm : ∀ k b, s.waiting k = some b → missing k → missing' k) :
    Inv receiveActions missing' s :=
  { h with waiting := fun he k b hw => (h.waiting he k b hw).imp_left (hm k b hw) }

/-- The process is enabled, but has no listener yet. -/
theorem Inv.enabling (h : Inv receiveActions missing s) (he : s.enabled = false) :
    Inv [] (fun _ => True) { s with connected := true, enabled := true } := by
  obtain ⟨hS, hR, hL⟩ := h.disabled he
  exact { h with
    start_kinds := fun _ => by simp [hS]
    waiting := fun _ _ _ _ => .inl trivial
    tx := fun t x hx =>
      let hx' := h.tx t x hx
      ⟨hx'.at_work, hx'.nodup, hx'.pending, hx'.unshared, hx'.left, hx'.came, hx'.taken⟩
    disabled := fun hf => by cases hf
    connected := fun _ => rfl }

theorem Inv.addStartListeners (h : Inv receiveActions missing s) (he : s.enabled = true)
    (as : List ℕ) :
    Inv (receiveActions ++ as) missing (as.foldl (fun s a => s.addStartListener a .opened) s) := by
  induction as generalizing s receiveActions with
  | nil => simpa using h
  | cons a as ih =>
    have := ih (h.addStartListener he a) (by exact he)
    simpa using this

theorem Inv.jmsReceives (h : Inv receiveActions missing s) (he : s.enabled = true) {t : ℕ} {x : ListenerTx}
    (hx : s.tx t = some x) (hw : x.writes = []) (tokens : List (RequestKey × Bool))
    (hn : (tokens.map Prod.fst).Nodup)
    (hk : ∀ e ∈ tokens, s.requestListeners e.1 = none ∧ s.waiting e.1 = some e.2)
    (hu : ∀ u y, u ≠ t → s.tx u = some y → y.writes = []) :
    Inv receiveActions (fun k => missing k ∧ k ∉ tokens.map Prod.fst)
      (tokens.foldl (fun s e => s.jmsReceive t e.1 e.2) s) := by
  induction tokens generalizing s x missing with
  | nil => simpa using h
  | cons e tokens ih =>
    obtain ⟨hne, hn'⟩ := List.nodup_cons.1 hn
    have hsx : ({ s with tx := Function.update s.tx t (some { x with writes := x.writes }) } : ListenerRegistry) = s := by
      rw [← hx, Function.update_eq_self]
    have h' := h.jmsReceive he hx (hk e List.mem_cons_self).1
      (.inr ⟨rfl, by simp [hw], (hk e List.mem_cons_self).2, fun u y hut hy => by simp [hu u y hut hy]⟩)
    rw [hsx] at h'
    have hT : (s.jmsReceive t e.1 e.2).tx = Function.update s.tx t
        (some { x with requestListeners := x.requestListeners ++ [s.next] }) := by
      simp [ListenerRegistry.jmsReceive, modifyTx, addRequestListener, hx]
    have := ih h' he (x := { x with requestListeners := x.requestListeners ++ [s.next] }) (by simp [hT]) hw hn'
      (fun e' he' => by
        have hne' : e'.1 ≠ e.1 := fun h => hne (h ▸ List.mem_map_of_mem he')
        have := hk e' (List.mem_cons_of_mem e he')
        simpa [ListenerRegistry.jmsReceive, modifyTx, addRequestListener, hne'] using this)
      (fun u y hut hy => by
        rw [hT, Function.update_of_ne hut] at hy
        exact hu u y hut hy)
    simpa [and_assoc] using this

theorem Inv.enable (h : Inv receiveActions missing s) {t : ℕ} {tokens : List (RequestKey × Bool)}
    (hl : Legal s (.enable t tokens)) (hu : ∀ t x, s.tx t = some x → Untouched x) (as : List ℕ) :
    Inv as (fun _ => False) (s.enable as t tokens) := by
  obtain ⟨ht, hc, hn, htok⟩ := hl
  obtain ⟨x, hx⟩ := Option.ne_none_iff_exists'.1 ht
  have he : s.enabled = false := by
    by_contra he
    simp [h.connected (by simpa using he)] at hc
  have h₁ := (h.enabling he).addStartListeners rfl as
  generalize hs₁ : as.foldl (fun s a => s.addStartListener a .opened)
    ({ s with connected := true, enabled := true } : ListenerRegistry) = s₁ at h₁
  have hfold : ∀ (as : List ℕ) (s : ListenerRegistry),
      let s' := as.foldl (fun s a => s.addStartListener a .opened) s
      s'.enabled = s.enabled ∧ s'.tx = s.tx ∧ s'.requestListeners = s.requestListeners ∧
        s'.waiting = s.waiting := by
    intro as
    induction as with
    | nil => simp
    | cons a as ih => intro s; exact ih _
  have hfold' : ∀ (es : List (RequestKey × Bool)) (s : ListenerRegistry),
      (es.foldl (fun s e => s.jmsReceive t e.1 e.2) s).waiting = s.waiting := by
    intro es
    induction es with
    | nil => exact fun _ => rfl
    | cons e es ih => intro s; exact ih _
  obtain ⟨hE, hT, hR, hW⟩ := hfold as { s with connected := true, enabled := true }
  rw [hs₁] at hE hT hR hW
  have h₂ := h₁.jmsReceives hE (hT ▸ hx) (hu t x hx).2.2 tokens hn
    (fun e he' => ⟨by rw [hR]; exact (h.disabled he).2.1 e.1, by rw [hW]; exact (htok e.1 e.2).1 he'⟩)
    (fun u y _ hy => (hu u y (hT ▸ hy)).2.2)
  rw [ListenerRegistry.enable, hs₁]
  refine h₂.mono ?_
  rintro k b hw ⟨-, hk⟩
  rw [hfold', hW] at hw
  exact hk (List.mem_map_of_mem ((htok k b).2 hw))

/-- **The step lemma.** -/
theorem Inv.step (h : Inv receiveActions (fun _ => False) s) {o : Op} (hl : Legal s o)
    (hs : Safe s o) : Inv receiveActions (fun _ => False) (step receiveActions s o) := by
  cases o with
  | beginTx t => exact h.beginTx hl
  | deliver t l =>
    obtain ⟨ht, ho, hb⟩ := hl
    simp only [ListenerRegistry.step, onMessage]
    split
    · rename_i a hk
      exact h.startMessage ht (by rw [← hk, ← ho, ← hb])
    · rename_i k b hk
      exact h.requestMessage ht (by rw [← hk, ← ho, ← hb])
  | receive t k b =>
    obtain ⟨x, hx⟩ := Option.ne_none_iff_exists'.1 hl
    have hr : s.receive t k b = ({ s with
        tx := Function.update s.tx t (some { x with writes := (k, some b) :: x.writes })
      } : ListenerRegistry).jmsReceive t k b := by
      simp only [ListenerRegistry.receive, if_pos (h.connected hs.1), modifyTx, hx, Option.map_some]
    rw [ListenerRegistry.step, hr]
    exact (h.jmsReceive hs.1 hx hs.2 (.inl rfl)).mono fun _ _ _ hf => hf.1
  | cancelReception t k => exact h.cancelReception hl hs
  | finish t o =>
    obtain ⟨x, hx, hst⟩ := hl
    exact h.finish hx hst (hs.imp_right fun hs => hs x hx)
  | enable t tokens => exact h.enable hl hs receiveActions
  | disable => exact h.disable hs
  | closeJmsConnection => exact h.closeJmsConnection hl.1 hl.2

end

end ListenerRegistry

end Jbpm
