/-
  Matching replies with requests: the table of outstanding requests of
  `IntegrationControl`, the deliveries that file requests in it and the reply
  activities that take them out.

  The table lives in memory and is shared by all transactions; a rollback does
  not touch it.  `Control.history` records, newest first, what happened to
  every request; `unanswered` reads off it which request a key must find, and
  `Matched` says that the code answered as it should.

  * `unanswered`, `Matched`: what the table is for;
  * `Good`: the history is matched and the table holds the unanswered requests;
  * `matched_of_safe`: every run whose steps are `Safe` stays `Good`.
-/
import Jbpm.Jms.OutstandingRequest
import Jbpm.Lib.Run

namespace Jbpm

open Lib OutstandingRequest

/-- Faults of the request table. -/
inductive RequestFault
  | conflictingRequest
  | missingRequest
  deriving DecidableEq

/-- What happened to a request in the transaction `tx`. -/
inductive RequestEvent
  | filed (tx : ℕ) (k : Key) (r : OutstandingRequest)
  | conflicting (tx : ℕ) (k : Key) (r : OutstandingRequest)
  | sent (tx : ℕ) (k : Key) (r : OutstandingRequest)
  | sendFailed (tx : ℕ) (k : Key) (r : OutstandingRequest)
  | missing (tx : ℕ) (k : Key)
  | committed (tx : ℕ)
  | rolledBack (tx : ℕ)
  deriving DecidableEq

/-- The transaction in which `e` files the request `r`. -/
def RequestEvent.filer (r : OutstandingRequest) : RequestEvent → Option ℕ
  | .filed tx _ r' => if r' = r then some tx else none
  | _ => none

structure IntegrationControl where
  outstandingRequests : List (Key × OutstandingRequest)
  history : List RequestEvent

namespace IntegrationControl

/-! ## The table -/

abbrev Requests := List (Key × OutstandingRequest)

/-- `addOutstandingRequest`: the table is updated before the old value of the
    key is looked at. -/
def addOutstandingRequest (k : Key) (r : OutstandingRequest) (t : Requests) :
    Except RequestFault Unit × Requests :=
  (if (Key.hashing.get k t).isSome then .error .conflictingRequest else .ok (),
    Key.hashing.put k r t)

def removeOutstandingRequest (k : Key) (t : Requests) :
    Except RequestFault OutstandingRequest × Requests :=
  (match Key.hashing.get k t with
    | some r => .ok r
    | none => .error .missingRequest,
    Key.hashing.remove k t)

/-! ## Deliveries and replies -/

/-- What transactions do to the table, in the order of the interleaving. -/
inductive Op
  /-- the delivery `tx` of a two-way request reaches its receiver -/
  | deliver (tx : ℕ) (k : Key) (r : OutstandingRequest)
  /-- a reply activity runs in `tx`; `sendable` tells whether the provider
      accepts the response -/
  | reply (tx : ℕ) (k : Key) (sendable : Bool)
  | commit (tx : ℕ)
  | rollback (tx : ℕ)

def Op.tx : Op → ℕ
  | deliver tx _ _ | reply tx _ _ | commit tx | rollback tx => tx

/-- `deliverRequest` up to the point where control passes to the receiver. -/
def deliverRequest (tx : ℕ) (k : Key) (r : OutstandingRequest) (s : IntegrationControl) :
    IntegrationControl :=
  match addOutstandingRequest k r s.outstandingRequests with
  | (.ok (), t) => ⟨t, .filed tx k r :: s.history⟩
  | (.error _, t) => ⟨t, .conflicting tx k r :: s.history⟩

/-- `jmsReply`: the request leaves the table before the response is sent. -/
def jmsReply (tx : ℕ) (k : Key) (sendable : Bool) (s : IntegrationControl) :
    IntegrationControl :=
  match removeOutstandingRequest k s.outstandingRequests with
  | (.ok r, t) => ⟨t, (if sendable then .sent tx k r else .sendFailed tx k r) :: s.history⟩
  | (.error _, t) => ⟨t, .missing tx k :: s.history⟩

/-- One step.  Neither end of a transaction looks at the table. -/
def step (s : IntegrationControl) : Op → IntegrationControl
  | .deliver tx k r => s.deliverRequest tx k r
  | .reply tx k sendable => s.jmsReply tx k sendable
  | .commit tx => ⟨s.outstandingRequests, .committed tx :: s.history⟩
  | .rollback tx => ⟨s.outstandingRequests, .rolledBack tx :: s.history⟩

/-- What the provider and the transaction service grant: an ended transaction
    does nothing more, and a message is delivered again only after its delivery
    was rolled back. -/
def Legal (s : IntegrationControl) (o : Op) : Prop :=
  .committed o.tx ∉ s.history ∧ .rolledBack o.tx ∉ s.history ∧
    match o with
    | .deliver _ _ r => ∀ e ∈ s.history, ∀ tx ∈ e.filer r, .rolledBack tx ∈ s.history
    | _ => True

instance (s : IntegrationControl) : (o : Op) → Decidable (Legal s o)
  | .deliver .. | .reply .. | .commit .. | .rollback .. => inferInstanceAs (Decidable (_ ∧ _ ∧ _))

def init : IntegrationControl := ⟨[], []⟩

/-- The runs of deliveries, replies and ends of transactions. -/
abbrev Steps : IntegrationControl → Op → IntegrationControl → Prop :=
  guard Legal fun s o s' => s' = s.step o

/-! ## What the table is for -/

/-- The unanswered requests after `h`: those that were filed by a transaction
    that is not rolled back and got no reply. -/
def unanswered : List RequestEvent → Key → Option OutstandingRequest
  | [] => fun _ => none
  | .filed _ k r :: h => Function.update (unanswered h) k (some r)
  | .sent _ k _ :: h => Function.update (unanswered h) k none
  | .rolledBack tx :: h => fun k => (unanswered h k).filter fun r => .filed tx k r ∉ h
  | _ :: h => unanswered h

/-- The request `r` got a reply. -/
def Answered (h : List RequestEvent) (r : OutstandingRequest) : Prop := ∃ tx k, .sent tx k r ∈ h

/-- Every answer given in `h` is right: a request is filed where none is
    unanswered and refused where one is; a reply goes to the unanswered request
    of its key, which had no reply before, and misses it where there is none. -/
def Matched : List RequestEvent → Prop
  | [] => True
  | .filed _ k _ :: h => unanswered h k = none ∧ Matched h
  | .conflicting _ k _ :: h => unanswered h k ≠ none ∧ Matched h
  | .sent _ k r :: h => unanswered h k = some r ∧ ¬ Answered h r ∧ Matched h
  | .sendFailed _ k r :: h => unanswered h k = some r ∧ Matched h
  | .missing _ k :: h => unanswered h k = none ∧ Matched h
  | .committed _ :: h | .rolledBack _ :: h => Matched h

/-- The history is matched, and the table holds the unanswered requests. -/
def Good (s : IntegrationControl) : Prop :=
  Matched s.history ∧ Hashing.Represents s.outstandingRequests (unanswered s.history)

/-! ## Runs that meet the table's purpose -/

/-- No other unanswered request is taken for the one of `k`. -/
def Distinguished (s : IntegrationControl) (k : Key) : Prop :=
  ∀ k' r, unanswered s.history k' = some r →
    k'.hashCode = k.hashCode → k'.equals k = true → k' = k

/-- The steps on which the code does what the table is for: a request arrives
    while no request of its key is unanswered, no other key collides with the
    key, a response that is due is accepted by the provider, and a delivery that
    filed a request is not rolled back. -/
def Safe (s : IntegrationControl) : Op → Prop
  | .deliver _ k _ => unanswered s.history k = none ∧ Distinguished s k
  | .reply _ k sendable => Distinguished s k ∧ (unanswered s.history k ≠ none → sendable = true)
  | .commit _ => True
  | .rollback tx => ∀ k r, .filed tx k r ∉ s.history

/-- The invariant of safe runs. -/
structure Inv (s : IntegrationControl) : Prop where
  good : Good s
  /-- no transaction that filed a request is rolled back -/
  kept : ∀ tx k r, .filed tx k r ∈ s.history → .rolledBack tx ∉ s.history
  /-- a request is filed under one key -/
  once : ∀ tx k tx' k' r, .filed tx k r ∈ s.history → .filed tx' k' r ∈ s.history → k = k'
  waiting : ∀ k r, unanswered s.history k = some r →
    (∃ tx, .filed tx k r ∈ s.history) ∧ ¬ Answered s.history r
  asked : ∀ r, Answered s.history r → ∃ tx k, .filed tx k r ∈ s.history

theorem inv_init : Inv init where
  good := ⟨trivial, .nil⟩
  kept := by simp [init]
  once := by simp [init]
  waiting := by simp [init, unanswered]
  asked := by simp [init, Answered]

section
variable {s : IntegrationControl} {tx : ℕ} {k : Key} {r : OutstandingRequest}

theorem Distinguished.faithful (h : Distinguished s k)
    (hr : Hashing.Represents s.outstandingRequests (unanswered s.history)) :
    Key.hashing.Faithful k s.outstandingRequests := by
  rintro ⟨k', r⟩ he hh
  simp only [Hashing.hits, Key.hashing, Bool.and_eq_true, beq_iff_eq] at hh
  exact h k' r ((hr.mem_iff k' r).1 he) hh.1 hh.2

/-- In a safe run the table finds the unanswered request of a key. -/
theorem Inv.get_eq (h : Inv s) (hd : Distinguished s k) :
    Key.hashing.get k s.outstandingRequests = unanswered s.history k :=
  h.good.2.get_eq (Key.equals_self k) (hd.faithful h.good.2)

/-- A request that may be delivered was not filed before. -/
theorem Inv.fresh (h : Inv s) (hl : Legal s (.deliver tx k r)) :
    ∀ tx' k', .filed tx' k' r ∉ s.history :=
  fun tx' k' hf => h.kept tx' k' r hf (hl.2.2 _ hf tx' (by simp [RequestEvent.filer]))

theorem Inv.deliver (h : Inv s) (hl : Legal s (.deliver tx k r))
    (hs : Safe s (.deliver tx k r)) : Inv (s.deliverRequest tx k r) := by
  obtain ⟨hk, hd⟩ := hs
  have hfr := h.fresh hl
  have hna : ¬ Answered s.history r := fun ha => by
    obtain ⟨tx', k', hf⟩ := h.asked r ha; exact hfr tx' k' hf
  have hstep : s.deliverRequest tx k r =
      ⟨Key.hashing.put k r s.outstandingRequests, .filed tx k r :: s.history⟩ := by
    simp [deliverRequest, addOutstandingRequest, h.get_eq hd, hk]
  rw [hstep]
  refine ⟨⟨⟨hk, h.good.1⟩, h.good.2.put (Key.equals_self k) (hd.faithful h.good.2)⟩, ?_, ?_, ?_, ?_⟩
  · intro tx' k' r' hf
    simp only [List.mem_cons, RequestEvent.filed.injEq, reduceCtorEq, false_or] at hf ⊢
    rcases hf with ⟨rfl, -, -⟩ | hf
    · exact hl.2.1
    · exact h.kept tx' k' r' hf
  · intro tx₁ k₁ tx₂ k₂ r' h₁ h₂
    simp only [List.mem_cons, RequestEvent.filed.injEq] at h₁ h₂
    rcases h₁ with ⟨-, rfl, rfl⟩ | h₁ <;> rcases h₂ with ⟨-, rfl, hr⟩ | h₂
    · rfl
    · exact absurd h₂ (hfr tx₂ k₂)
    · exact absurd (hr ▸ h₁) (hfr tx₁ k₁)
    · exact h.once tx₁ k₁ tx₂ k₂ r' h₁ h₂
  · intro k' r' hu
    have hans : ∀ r'', Answered (.filed tx k r :: s.history) r'' ↔ Answered s.history r'' := by
      simp [Answered]
    rw [hans]
    by_cases hkk : k' = k
    · subst hkk
      simp only [unanswered, Function.update_self, Option.some.injEq] at hu
      subst hu
      exact ⟨⟨tx, List.mem_cons_self⟩, hna⟩
    · simp only [unanswered, Function.update_of_ne hkk] at hu
      obtain ⟨⟨tx', hf⟩, ha⟩ := h.waiting k' r' hu
      exact ⟨⟨tx', List.mem_cons_of_mem _ hf⟩, ha⟩
  · rintro r' ⟨tx', k', ha⟩
    simp only [List.mem_cons, reduceCtorEq, false_or] at ha
    obtain ⟨tx'', k'', hf⟩ := h.asked r' ⟨tx', k', ha⟩
    exact ⟨tx'', k'', List.mem_cons_of_mem _ hf⟩

/-- An event that neither files nor answers a request, nor rolls a filing
    back, keeps the rest of the invariant. -/
theorem Inv.cons_of (h : Inv s) {e : RequestEvent} {t : Requests}
    (hg : Good ⟨t, e :: s.history⟩) (hu : unanswered (e :: s.history) = unanswered s.history)
    (hf : ∀ tx k r, e ≠ .filed tx k r) (hse : ∀ tx k r, e ≠ .sent tx k r)
    (hrb : ∀ tx, e = .rolledBack tx → ∀ k r, .filed tx k r ∉ s.history) :
    Inv ⟨t, e :: s.history⟩ := by
  have hmem : ∀ tx k r, .filed tx k r ∈ e :: s.history ↔ .filed tx k r ∈ s.history :=
    fun tx k r => List.mem_cons.trans (or_iff_right fun he => hf tx k r he.symm)
  have hans : ∀ r, Answered (e :: s.history) r ↔ Answered s.history r := fun r =>
    exists_congr fun tx => exists_congr fun k =>
      List.mem_cons.trans (or_iff_right fun he => hse tx k r he.symm)
  refine ⟨hg, ?_, ?_, ?_, ?_⟩
  · intro tx k r h₁ h₂
    simp only [hmem] at h₁
    rcases List.mem_cons.1 h₂ with h₂ | h₂
    · exact hrb tx h₂.symm k r h₁
    · exact h.kept tx k r h₁ h₂
  · intro tx k tx' k' r h₁ h₂
    simp only [hmem] at h₁ h₂
    exact h.once tx k tx' k' r h₁ h₂
  · intro k r hk
    simp only [hu] at hk
    simp only [hmem, hans]
    exact h.waiting k r hk
  · intro r hr
    simp only [hans] at hr
    simp only [hmem]
    exact h.asked r hr

/-- Removing a key that no unanswered request has changes nothing. -/
theorem Inv.represents_remove (h : Inv s) (hd : Distinguished s k)
    (hk : unanswered s.history k = none) :
    Hashing.Represents (Key.hashing.remove k s.outstandingRequests) (unanswered s.history) := by
  have := h.good.2.remove (Key.equals_self k) (hd.faithful h.good.2)
  rwa [← hk, Function.update_eq_self] at this

theorem Inv.reply (h : Inv s) {sendable : Bool} (hs : Safe s (.reply tx k sendable)) :
    Inv (s.jmsReply tx k sendable) := by
  obtain ⟨hd, hse⟩ := hs
  unfold jmsReply removeOutstandingRequest
  rw [h.get_eq hd]
  rcases hk : unanswered s.history k with _ | r
  · exact h.cons_of ⟨⟨hk, h.good.1⟩, h.represents_remove hd hk⟩ rfl (by simp) (by simp) (by simp)
  · obtain ⟨⟨tx₀, hf₀⟩, hna⟩ := h.waiting k r hk
    simp only [hse (by simp [hk]), if_true]
    refine ⟨⟨⟨hk, hna, h.good.1⟩, h.good.2.remove (Key.equals_self k) (hd.faithful h.good.2)⟩,
      ?_, ?_, ?_, ?_⟩
    · intro tx' k' r' hf
      simp only [List.mem_cons, reduceCtorEq, false_or] at hf ⊢
      exact h.kept tx' k' r' hf
    · intro tx₁ k₁ tx₂ k₂ r' h₁ h₂
      simp only [List.mem_cons, reduceCtorEq, false_or] at h₁ h₂
      exact h.once tx₁ k₁ tx₂ k₂ r' h₁ h₂
    · intro k' r' hu
      have hkk : k' ≠ k := by rintro rfl; simp [unanswered] at hu
      simp only [unanswered, Function.update_of_ne hkk] at hu
      obtain ⟨⟨tx', hf⟩, ha⟩ := h.waiting k' r' hu
      refine ⟨⟨tx', List.mem_cons_of_mem _ hf⟩, ?_⟩
      rintro ⟨tx'', k'', hm⟩
      simp only [List.mem_cons, RequestEvent.sent.injEq] at hm
      rcases hm with ⟨-, -, rfl⟩ | hm
      · exact hkk (h.once tx' k' tx₀ k r' hf hf₀)
      · exact ha ⟨tx'', k'', hm⟩
    · rintro r' ⟨tx', k', ha⟩
      simp only [List.mem_cons, RequestEvent.sent.injEq] at ha
      rcases ha with ⟨-, -, rfl⟩ | ha
      · exact ⟨tx₀, k, List.mem_cons_of_mem _ hf₀⟩
      · obtain ⟨tx'', k'', hf⟩ := h.asked r' ⟨tx', k', ha⟩
        exact ⟨tx'', k'', List.mem_cons_of_mem _ hf⟩

theorem unanswered_rolledBack (h : ∀ k r, .filed tx k r ∉ s.history) :
    unanswered (.rolledBack tx :: s.history) = unanswered s.history := by
  funext k
  cases hk : unanswered s.history k <;> simp [unanswered, h, hk]

end

/-- **The step lemma.** -/
theorem Inv.step {s : IntegrationControl} {o : Op} (h : Inv s) (hl : Legal s o) (hs : Safe s o) :
    Inv (s.step o) := by
  cases o with
  | deliver tx k r => exact h.deliver hl hs
  | reply tx k sendable => exact h.reply hs
  | commit tx => exact h.cons_of h.good rfl (by simp) (by simp) (by simp)
  | rollback tx =>
    have hu := unanswered_rolledBack hs
    refine h.cons_of ⟨h.good.1, hu ▸ h.good.2⟩ hu (by simp) (by simp) fun tx' he => ?_
    cases he; exact hs

/-- A request is delivered, its delivery commits, and a reply answers it. -/
def roundTrip : List Op :=
  [.deliver 0 ⟨1, "a", none⟩ ⟨"q", "m"⟩, .commit 0, .reply 1 ⟨1, "a", none⟩ true]

/-- The table holds a request that is not the unanswered one of its key. -/
theorem not_good_of_mem {s : IntegrationControl} {k : Key} {r : OutstandingRequest}
    (h : (k, r) ∈ s.outstandingRequests) (hu : unanswered s.history k ≠ some r) : ¬ Good s :=
  fun hg => hu ((hg.2.mem_iff k r).1 h)

end IntegrationControl

end Jbpm
