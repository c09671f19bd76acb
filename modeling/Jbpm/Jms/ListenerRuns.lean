/-
  Runs of deliveries, transactions and the life cycle of a process, and what
  they leave of its listeners.

  * `closed_of_run`: nothing is open without a connection, in any run;
  * `registered_of_safe`: the listeners of safe runs;
  * `not_registered`: one run for each way to lose or leak a listener.
-/
import Jbpm.Jms.ListenerInvariant

namespace Jbpm

open Lib

namespace ListenerRegistry

/-! ## The connection -/

theorem enable_connected (receiveActions : List ℕ) (s : ListenerRegistry) (t : ℕ)
    (tokens : List (RequestKey × Bool)) :
    (s.enable receiveActions t tokens).connected = true := by
  have hstart : ∀ (as : List ℕ) (s : ListenerRegistry),
      (as.foldl (fun s a => s.addStartListener a .opened) s).connected = s.connected := by
    intro as
    induction as with
    | nil => exact fun _ => rfl
    | cons a as ih => intro s; exact ih _
  have hreceive : ∀ (es : List (RequestKey × Bool)) (s : ListenerRegistry),
      (es.foldl (fun s e => s.jmsReceive t e.1 e.2) s).connected = s.connected := by
    intro es
    induction es with
    | nil => exact fun _ => rfl
    | cons e es ih => intro s; exact ih _
  rw [enable, hreceive, hstart]

/-- Nothing that is closed is opened again. -/
theorem openRequestListeners_closed (ls : List ℕ) (m : ℕ → Listener)
    (h : ∀ l, (m l).status = .closed) : (openRequestListeners ls m).2 = m := by
  cases ls with
  | nil => rfl
  | cons l ls => rw [openRequestListeners, if_pos (h l)]

theorem closeRequestListeners_closed (ls : List ℕ) (m : ℕ → Listener)
    (h : ∀ l, (m l).status = .closed) : ∀ l, (closeRequestListeners ls m l).status = .closed := by
  induction ls generalizing m with
  | nil => exact h
  | cons l' ls ih =>
    refine ih _ fun l => ?_
    dsimp only
    rw [setStatus_apply]
    split
    · rfl
    · exact h l

theorem afterDelivery_closed (listener : Option ℕ) (ok : Bool) (m : ℕ → Listener)
    (h : ∀ l, (m l).status = .closed) : ∀ l, (afterDelivery listener ok m l).status = .closed := by
  intro l
  rw [afterDelivery_apply]
  split
  · dsimp only
    split
    · rfl
    · exact h l
  · exact h l

/-- Without a connection all consumers are closed, whatever happened before. -/
theorem closed_of_run {receiveActions : List ℕ} {waiting : RequestKey → Option Bool}
    {os : List Op} {s : ListenerRegistry} (h : Run (Steps receiveActions) (init waiting) os s) :
    s.connected = false → ∀ l, (s.listener l).status = .closed := by
  induction h with
  | nil => exact fun _ _ => rfl
  | @snoc os s o s' hr hl ih =>
    obtain ⟨hl, rfl⟩ := hl
    cases o with
    | beginTx t => exact ih
    | deliver t l =>
      intro hc
      have hs : s.connected = false := by
        rw [← hc, step, onMessage]
        split
        · rfl
        · simp only [requestMessage]; split <;> rfl
      have ho := hl.2.1
      rw [ih hs l] at ho
      cases ho
    | receive t k b =>
      intro hc
      by_cases hs : s.connected = true
      · rw [step, receive, if_pos hs] at hc
        have : s.connected = false := hc
        simp [hs] at this
      · rw [step, receive, if_neg hs]
        exact ih (by simpa using hs)
    | cancelReception t k =>
      intro hc l
      have hs : s.connected = false := by
        rw [← hc, step, cancelReception]; split <;> rfl
      rw [step, cancelReception]
      split
      · exact ih hs l
      · simp only [modifyTx, setStatus_apply]
        split
        · rfl
        · exact ih hs l
    | finish t o =>
      intro hc l
      obtain ⟨x, hx, -⟩ := hl
      have hs : s.connected = false := by
        rw [← hc, step, finish, hx]; dsimp only; split <;> rfl
      have hm : (if o.commits then s.commit x else s).listener = s.listener := by split <;> rfl
      rw [step, finish, hx]
      refine afterDelivery_closed _ _ _ ?_ l
      rw [hm]
      split
      · exact closeRequestListeners_closed _ _ (ih hs)
      · rw [openRequestListeners_closed _ _ (ih hs)]
        exact ih hs
    | enable t tokens =>
      intro hc
      rw [step, enable_connected] at hc
      cases hc
    | disable =>
      intro hc l
      have := ih hc l
      simp only [step, disable]
      split
      · rfl
      · exact this
    | closeJmsConnection => exact fun _ _ => rfl

/-! ## Transactions that commit nothing -/

/-- The transactions of these steps commit nothing. -/
def Op.undone : Op → Bool
  | .finish _ o => !o.commits
  | .enable .. | .disable | .closeJmsConnection => false
  | _ => true

theorem step_undone (receiveActions : List ℕ) (s : ListenerRegistry) {o : Op}
    (ho : o.undone = true) : (step receiveActions s o).waiting = s.waiting ∧
      (step receiveActions s o).enabled = s.enabled := by
  cases o with
  | beginTx t => exact ⟨rfl, rfl⟩
  | deliver t l =>
    rw [step, onMessage]
    split
    · exact ⟨rfl, rfl⟩
    · simp only [requestMessage]; split <;> exact ⟨rfl, rfl⟩
  | receive t k b => rw [step, receive]; split <;> exact ⟨rfl, rfl⟩
  | cancelReception t k => rw [step, cancelReception]; split <;> exact ⟨rfl, rfl⟩
  | finish t o =>
    rw [step, finish]
    simp only [Op.undone, Bool.not_eq_true'] at ho
    simp only [ho]
    split <;> exact ⟨rfl, rfl⟩
  | enable t tokens => cases ho
  | disable => cases ho
  | closeJmsConnection => cases ho

/-! ## Safe runs -/

/-- A listener waits, open and registered, for a message to the token. -/
def Listening (s : ListenerRegistry) (k : RequestKey) (oneShot : Bool) : Prop :=
  ∃ l, s.requestListeners k = some l ∧ s.listener l = ⟨.request k oneShot, .opened, false⟩

/-- **Listener registry.**  In every run of safe steps the listeners are
    `Registered`; a stretch of such a run that commits nothing leaves the same
    tokens listening; and in every run whatsoever no listener is open once the
    connection is closed. -/
theorem registered_of_safe {receiveActions : List ℕ} {waiting : RequestKey → Option Bool}
    {os : List Op} {s : ListenerRegistry}
    (h : Run (guard Safe (Steps receiveActions)) (init waiting) os s) :
    Registered receiveActions s ∧
      (∀ os' s', Run (guard Safe (Steps receiveActions)) s os' s' →
        (∀ o ∈ os', o.undone = true) → s.enabled = true → Quiescent s → Quiescent s' →
          ∀ k b, Listening s k b ↔ Listening s' k b) ∧
      ∀ os' s', Run (Steps receiveActions) (init waiting) os' s' →
        s'.connected = false → ∀ l, (s'.listener l).status = .closed := by
  have hstep : ∀ s o s', Inv receiveActions (fun _ => False) s →
      guard Safe (Steps receiveActions) s o s' → Inv receiveActions (fun _ => False) s' := by
    rintro s o s' hi ⟨hs, hl, rfl⟩
    exact hi.step hl hs
  have hi := h.inv (inv_init receiveActions waiting) hstep
  refine ⟨hi.registered, ?_, fun _ _ h' => closed_of_run h'⟩
  intro os' s' h' ho he hq hq' k b
  have hkeep : s'.waiting = s.waiting ∧ s'.enabled = s.enabled := by
    clear hq'
    induction h' with
    | nil => exact ⟨rfl, rfl⟩
    | snoc _ hl ih =>
      obtain ⟨-, -, rfl⟩ := hl
      obtain ⟨hw, he⟩ := ih fun o hm => ho o (List.mem_append_left _ hm)
      obtain ⟨hw', he'⟩ := step_undone receiveActions _ (ho _ (List.mem_append_right _ List.mem_cons_self))
      exact ⟨hw'.trans hw, he'.trans he⟩
  have hi' := h'.inv hi hstep
  rw [Listening, Listening, ← hi.registered.waiting he hq,
    ← hi'.registered.waiting (hkeep.2.trans he) hq', hkeep.1]

/-- The process is enabled. -/
def startUp : List Op := [.beginTx 0, .enable 0 [], .finish 0 .committed]

/-- A first message creates an instance that waits for a second one. -/
def firstMessage : List Op :=
  startUp ++ [.deliver 1 0, .receive 1 ⟨7, 1⟩ true, .finish 1 .committed]

def run (os : List Op) : ListenerRegistry := os.foldl (step [5]) (init fun _ => none)

theorem legal_enable : Legal (run [.beginTx 0]) (.enable 0 []) :=
  ⟨nofun, rfl, .nil, by simp [run, init, step, beginTx]⟩

theorem registered_of_safe_twoMessages :
    Registered [5] (run (firstMessage ++ [.deliver 2 2, .finish 2 .committed])) := by
  have hu : Safe (run [.beginTx 0]) (.enable 0 []) := by
    intro t x hx
    simp only [run, List.foldl, step, beginTx, init, Function.update_apply] at hx
    split at hx
    · cases hx
      exact ⟨rfl, rfl, rfl⟩
    · cases hx
  have h : Run (guard Safe (Steps [5])) (init fun _ => none)
      (firstMessage ++ [.deliver 2 2, .finish 2 .committed])
      (run (firstMessage ++ [.deliver 2 2, .finish 2 .committed])) :=
    .guard_of_allowed ⟨⟨trivial, rfl⟩, ⟨hu, legal_enable⟩, ⟨.inl rfl, ⟨_, rfl, fun _ => rfl⟩⟩,
      ⟨trivial, rfl, rfl, rfl⟩, ⟨⟨rfl, rfl⟩, fun h => by cases h⟩, ⟨.inl rfl, ⟨_, rfl, fun _ => rfl⟩⟩,
      ⟨trivial, rfl, rfl, rfl⟩, ⟨.inl rfl, ⟨_, rfl, fun _ => rfl⟩⟩, trivial⟩
  exact (registered_of_safe h).1

/-! ## Runs that lose or leak a listener -/

theorem quiescent_created : Quiescent
    (run (startUp ++ [.beginTx 1, .receive 1 ⟨7, 1⟩ true, .finish 1 .rolledBack]))
  | 0 => rfl
  | 1 => rfl
  | _ + 2 => rfl

theorem quiescent_cancelled : Quiescent
    (run (firstMessage ++ [.beginTx 2, .cancelReception 2 ⟨7, 1⟩, .finish 2 .rolledBack]))
  | 0 => rfl
  | 1 => rfl
  | 2 => rfl
  | _ + 3 => rfl

/-- **Listeners get lost and leak.**  A start listener and a one-shot request
    listener whose delivery fails stay open and unregistered; a rolled-back
    transaction leaves the listener it created registered and closed, and the
    reception it cancelled without a listener. -/
theorem not_registered :
    (∃ s, Run (Steps [5]) (init fun _ => none)
      (startUp ++ [.deliver 1 0, .finish 1 .rolledBack]) s ∧ ¬ Registered [5] s) ∧
    (∃ s, Run (Steps [5]) (init fun _ => none)
      (firstMessage ++ [.deliver 2 2, .finish 2 .rolledBack]) s ∧ ¬ Registered [5] s) ∧
    (∃ s, Run (Steps [5]) (init fun _ => none)
      (startUp ++ [.beginTx 1, .receive 1 ⟨7, 1⟩ true, .finish 1 .rolledBack]) s ∧
        ¬ Registered [5] s) ∧
    (∃ s, Run (Steps [5]) (init fun _ => none)
      (firstMessage ++ [.beginTx 2, .cancelReception 2 ⟨7, 1⟩, .finish 2 .rolledBack]) s ∧
        ¬ Registered [5] s) := by
  refine ⟨⟨_, .of_allowed ⟨rfl, legal_enable, ⟨_, rfl, fun _ => rfl⟩, ⟨rfl, rfl, rfl⟩,
      ⟨_, rfl, nofun⟩, trivial⟩, ?_⟩,
    ⟨_, .of_allowed ⟨rfl, legal_enable, ⟨_, rfl, fun _ => rfl⟩, ⟨rfl, rfl, rfl⟩, nofun,
      ⟨_, rfl, fun _ => rfl⟩, ⟨rfl, rfl, rfl⟩, ⟨_, rfl, nofun⟩, trivial⟩, ?_⟩,
    ⟨_, .of_allowed ⟨rfl, legal_enable, ⟨_, rfl, fun _ => rfl⟩, rfl, nofun, ⟨_, rfl, nofun⟩,
      trivial⟩, ?_⟩,
    ⟨_, .of_allowed ⟨rfl, legal_enable, ⟨_, rfl, fun _ => rfl⟩, ⟨rfl, rfl, rfl⟩, nofun,
      ⟨_, rfl, fun _ => rfl⟩, rfl, nofun, ⟨_, rfl, nofun⟩, trivial⟩, ?_⟩⟩
  · intro h
    have hmem : 0 ∈ [1] := (h.start_iff 0 5 rfl).1 ⟨rfl, rfl⟩
    simp at hmem
  · intro h
    cases ((h.request_iff 2 ⟨7, 1⟩ true rfl).1 ⟨rfl, fun _ => rfl⟩).1
  · intro h
    have hp : ¬ Pending (run (startUp ++
        [.beginTx 1, .receive 1 ⟨7, 1⟩ true, .finish 1 .rolledBack])) 1 := by
      rintro ⟨t, x, hx, -⟩
      cases (quiescent_created t).symm.trans hx
    cases ((h.request_iff 1 ⟨7, 1⟩ true rfl).2 ⟨rfl, hp⟩).1
  · intro h
    obtain ⟨l, hl, -⟩ := (h.waiting rfl quiescent_cancelled ⟨7, 1⟩ true).1 rfl
    cases hl

end ListenerRegistry

end Jbpm
