/-
  The synchronisation of task-nodes with the tasks of a token.

  * `State.mine`, `completed`: the task instances that count for a stay of a token in a task-node,
    and whether they are completed;
  * `unsync`, `leave_eq_some`: what leaving does to the task instances;
  * `Inv`: while the token waits, the tasks that count signal until they end;
  * `synchronised_of_run`: the token leaves when they are completed, once.
-/
import Mathlib.Data.List.Forall2
import Mathlib.Tactic.ByContra
import Jbpm.Taskmgmt.TaskNode

namespace Jbpm

namespace TaskNode

variable {A K V : Type}

/-! ## The tasks that count -/

def Signal.isFirst : Signal → Bool
  | .first | .firstWait => true
  | _ => false

def Signal.isLast : Signal → Bool
  | .last | .lastWait => true
  | _ => false

/-- `first`, `last`, `first-wait` or `last-wait` -/
def Signal.isSync (g : Signal) : Bool := g.isFirst || g.isLast

/-- The modes that go on if there is nothing to wait for. -/
def Signal.isPlain : Signal → Bool
  | .first | .last => true
  | _ => false

/-- The first or the last task has ended. -/
def completed (g : Signal) (is : List (Instance A K)) : Bool :=
  if g.isFirst then is.any (·.end_) else g.isLast && !is.isEmpty && is.all (·.end_)

theorem completed_mono {g : Signal} {is js : List (Instance A K)}
    (h : List.Forall₂ (fun i j => i.end_ = true → j.end_ = true) is js)
    (hc : completed g is = true) : completed g js = true := by
  have hany : is.any (·.end_) = true → js.any (·.end_) = true := by
    clear hc
    induction h with
    | nil => exact id
    | cons hij _ ih =>
      intro ha
      rw [List.any_cons, Bool.or_eq_true] at ha ⊢
      exact ha.imp hij ih
  have hall : is.all (·.end_) = true → js.all (·.end_) = true := by
    clear hc hany
    induction h with
    | nil => exact id
    | cons hij _ ih =>
      intro ha
      rw [List.all_cons, Bool.and_eq_true] at ha ⊢
      exact ha.imp hij ih
  have hempty : js.isEmpty = is.isEmpty := by cases h <;> rfl
  rw [completed] at hc ⊢
  split
  · rename_i hg
    rw [if_pos hg] at hc
    exact hany hc
  · rename_i hg
    rw [if_neg hg, Bool.and_eq_true] at hc
    rw [hempty, Bool.and_eq_true]
    exact ⟨hc.1, hall hc.2⟩

/-- Open tasks do not complete a stay. -/
theorem completed_append {g : Signal} {is js : List (Instance A K)} (h : completed g is = false)
    (hj : ∀ j ∈ js, j.end_ = false) : completed g (is ++ js) = false := by
  have hany : js.any (·.end_) = false :=
    List.any_eq_false.2 fun j hj' => by rw [hj j hj']; exact Bool.false_ne_true
  rw [completed] at h ⊢
  split
  · rename_i hg
    rw [if_pos hg] at h
    rw [List.any_append, h, hany]
    rfl
  · rename_i hg
    rw [if_neg hg] at h
    rcases js with _ | ⟨j, js⟩
    · rwa [List.append_nil]
    · rw [List.all_append, List.all_cons, hj j List.mem_cons_self]
      simp

theorem completed_eq_false_of_forall₂ {R : Instance A K → Instance A K → Prop} {g : Signal}
    {is js : List (Instance A K)} (h : List.Forall₂ R is js)
    (hR : ∀ i j, R i j → j.end_ = true → i.end_ = true) (hc : completed g is = false) :
    completed g js = false := by
  refine Bool.eq_false_iff.2 fun ht => ?_
  rw [completed_mono (List.Forall₂.imp hR h).flip ht] at hc
  cases hc

/-- What `left` says of a stay remains true when the task instances grow. -/
theorem left_of_forall₂ {g : Signal} {is js : List (Instance A K)} {m : ℕ}
    (h : List.Forall₂ (fun i j => i.end_ = true → j.end_ = true) is js)
    (hl : m = 1 ∧ completed g is = true ∨ m = 0 ∧ is = [] ∧ g.isPlain = true) :
    m = 1 ∧ completed g js = true ∨ m = 0 ∧ js = [] ∧ g.isPlain = true := by
  rcases hl with ⟨hm, hc⟩ | ⟨hm, rfl, hp⟩
  · exact .inl ⟨hm, completed_mono h hc⟩
  · exact .inr ⟨hm, by cases h; rfl, hp⟩

/-- A task instance goes on: what it was created as stays, and its end is final. -/
structure Grows (i j : Instance A K) : Prop where
  token : j.token = i.token
  task : j.task = i.task
  stay : j.stay = i.stay
  signals : j.signals = i.signals
  ended : i.end_ = true → j.end_ = true

theorem Grows.refl (i : Instance A K) : Grows i i := ⟨rfl, rfl, rfl, rfl, id⟩

theorem Grows.trans {i j k : Instance A K} (h : Grows i j) (h' : Grows j k) : Grows i k :=
  ⟨h'.token.trans h.token, h'.task.trans h.task, h'.stay.trans h.stay,
    h'.signals.trans h.signals, fun he => h'.ended (h.ended he)⟩

theorem forall₂_set {R : Instance A K → Instance A K → Prop} (hR : ∀ i, R i i)
    {l : List (Instance A K)} {n : ℕ} {i j : Instance A K} (hi : l[n]? = some i) (hij : R i j) :
    List.Forall₂ R l (l.set n j) := by
  induction l generalizing n with
  | nil => cases hi
  | cons x l ih =>
    cases n with
    | zero =>
      obtain rfl : x = i := by simpa using hi
      exact .cons hij (List.forall₂_same.2 fun i _ => hR i)
    | succ n => exact .cons (hR x) (ih (by simpa using hi))

variable [DecidableEq K]

/-- The task instances that were created to signal, in one stay of a token. -/
def State.mine (s : State A K V) (t : K) (k : ℕ) : List (Instance A K) :=
  s.instances.filter fun i => decide (i.token = t ∧ i.stay = k) && i.signals

theorem mem_mine {s : State A K V} {t : K} {k : ℕ} {i : Instance A K} :
    i ∈ s.mine t k ↔ i ∈ s.instances ∧ i.token = t ∧ i.stay = k ∧ i.signals = true := by
  simp [State.mine, and_assoc]

/-- The task instances that count go on as all do. -/
theorem mine_of_forall₂ {R : Instance A K → Instance A K → Prop}
    (hR : ∀ i j, R i j → Grows i j) {s : State A K V} (s' : State A K V)
    (h : List.Forall₂ R s.instances s'.instances) (t : K) (k : ℕ) :
    List.Forall₂ (fun i j => (i ∈ s.mine t k) ∧ R i j) (s.mine t k) (s'.mine t k) := by
  refine (List.forall₂_and_left _ _).2 ⟨fun i hi => hi, List.rel_filter (fun i j hij => ?_) h⟩
  have hg := hR i j hij
  show (decide (i.token = t ∧ i.stay = k) && i.signals) = true ↔
    (decide (j.token = t ∧ j.stay = k) && j.signals) = true
  rw [hg.token, hg.stay, hg.signals]

/-! ## The invariant -/

/-- A task instance that signals was created so, in the stay of its token in the task-node
    where the token still is, and is open; and the other way round.  As long as a token waits
    in a task-node (for the tokens in `P`), the tasks are not completed; afterwards the token
    has left by their completion, or at once, because there were none. -/
structure Inv (D : Definition A V) (P : K → Prop) (s : State A K V) : Prop where
  flag : ∀ i ∈ s.instances, i.isSignalling = true →
    i.signals = true ∧ i.stay = s.stays i.token ∧ i.end_ = false ∧
      ∃ N a, s.node i.token = some N ∧ i.task = some a ∧ (D.task a).taskNode = some N
  on : ∀ i ∈ s.instances, s.node i.token ≠ none → i.signals = true →
    i.stay = s.stays i.token → i.end_ = false → i.isSignalling = true
  stay : ∀ i ∈ s.instances, i.stay ≤ s.stays i.token
  nodeOf : ∀ t k N, s.nodeOf t k = some N → k ≤ s.stays t
  leftBy : ∀ t k, s.stays t < k → s.leftBy t k = 0
  here : ∀ t N, s.node t = some N →
    s.nodeOf t (s.stays t) = some N ∧ s.leftBy t (s.stays t) = 0
  waiting : ∀ t N, P t → s.node t = some N →
    completed (D.node N).signal (s.mine t (s.stays t)) = false
  left : ∀ t k N, s.nodeOf t k = some N → (k = s.stays t → s.node t = none) →
    (D.node N).signal.isSync = true →
      s.leftBy t k = 1 ∧ completed (D.node N).signal (s.mine t k) = true ∨
        s.leftBy t k = 0 ∧ s.mine t k = [] ∧ (D.node N).signal.isPlain = true

variable {D : Definition A V} {P : K → Prop} {s : State A K V} {n : ℕ} {i j : Instance A K}

theorem Inv.mono {Q : K → Prop} (h : Inv D P s) (hQ : ∀ t, Q t → P t) : Inv D Q s :=
  { h with waiting := fun t N ht => h.waiting t N (hQ t ht) }

/-- One task instance goes on: it may end, if it does not signal any more then, and for the
    tokens in `P` only if it did not signal before. -/
theorem Inv.set (h : Inv D P s) (hi : s.instances[n]? = some i) (hg : Grows i j)
    (hsig : j.isSignalling = true → i.isSignalling = true ∧ j.end_ = i.end_)
    (hon : i.isSignalling = true → j.end_ = false → j.isSignalling = true)
    (hend : P i.token → i.isSignalling = true → j.end_ = i.end_) :
    Inv D P { s with instances := s.instances.set n j } := by
  have hmem : i ∈ s.instances := List.mem_of_getElem? hi
  have hgrow := forall₂_set Grows.refl hi hg
  constructor
  · intro x hx hxs
    rcases List.mem_or_eq_of_mem_set hx with hx | rfl
    · exact h.flag x hx hxs
    · obtain ⟨his, he⟩ := hsig hxs
      rw [hg.signals, hg.stay, hg.token, hg.task, he]
      exact h.flag i hmem his
  · intro x hx hn hs hk he
    rcases List.mem_or_eq_of_mem_set hx with hx | rfl
    · exact h.on x hx hn hs hk he
    · rw [hg.token] at hn hk
      rw [hg.signals] at hs
      rw [hg.stay] at hk
      have hie : i.end_ = false := Bool.eq_false_iff.2 fun hie => by
        rw [hg.ended hie] at he
        cases he
      exact hon (h.on i hmem hn hs hk hie) he
  · intro x hx
    rcases List.mem_or_eq_of_mem_set hx with hx | rfl
    · exact h.stay x hx
    · rw [hg.stay, hg.token]
      exact h.stay i hmem
  · exact h.nodeOf
  · exact h.leftBy
  · exact h.here
  · intro t N ht hN
    have hR := forall₂_set (R := fun x y => Grows x y ∧ (y = x ∨ x = i ∧ y = j))
      (fun x => ⟨.refl x, .inl rfl⟩) hi ⟨hg, .inr ⟨rfl, rfl⟩⟩
    refine completed_eq_false_of_forall₂
      (mine_of_forall₂ (fun _ _ hxy => hxy.1) { s with instances := s.instances.set n j }
        hR t (s.stays t)) ?_ (h.waiting t N ht hN)
    rintro x y ⟨hx, -, rfl | ⟨rfl, rfl⟩⟩
    · exact id
    · obtain ⟨hmx, rfl, hk, hs⟩ := mem_mine.1 hx
      intro hye
      by_contra hxe
      have hxe := Bool.eq_false_iff.2 hxe
      have hsx := h.on x hmx (by rw [hN]; exact Option.some_ne_none N) hs hk hxe
      rw [hend ht hsx, hxe] at hye
      cases hye
  · intro t k N hN hk hsync
    refine left_of_forall₂ ?_ (h.left t k N hN hk hsync)
    exact (mine_of_forall₂ (fun _ _ hxy => hxy) { s with instances := s.instances.set n j }
      hgrow t k).imp fun _ _ hxy => hxy.2.ended

variable [DecidableEq A]

/-! ## Leaving -/

/-- The loop of `removeTaskInstanceSynchronization` ends this task instance. -/
def ends (M : TaskNode A) (i : Instance A K) : Bool :=
  !i.end_ && M.endTasks && contains (M.tasks.getD []) i.task

/-- The loop throws at this task instance. -/
def stuck (M : TaskNode A) (t : K) (i : Instance A K) : Bool :=
  decide (i.token = t) && !i.end_ && M.endTasks &&
    (M.tasks.isNone || ends M i && i.isSuspended)

/-- The task instance after the loop. -/
def unsync (M : TaskNode A) (t : K) (i : Instance A K) : Instance A K :=
  if i.token = t then
    let j := { i with toTaskInstance := i.toTaskInstance.stopSignalling, isBlocking := false }
    if ends M i then { j with toTaskInstance := j.toTaskInstance.markAsEnded } else j
  else i

theorem removeSynchronization_eq (M : TaskNode A) (t : K) (i : Instance A K) :
    removeSynchronization M t i = if stuck M t i then none else some (unsync M t i) := by
  by_cases ht : i.token = t
  · rcases he : i.end_ with _ | _
    · rcases hM : M.endTasks with _ | _
      · simp [removeSynchronization, stuck, unsync, ends, ht, he, hM]
      · rcases hl : M.tasks with _ | l
        · simp [removeSynchronization, stuck, TaskInstance.stopSignalling, ht, he, hM, hl]
        · rcases hc : contains l i.task with _ | _
          · simp [removeSynchronization, stuck, unsync, ends, TaskInstance.stopSignalling, ht, he,
              hM, hl, hc]
          · rcases hs : i.isSuspended with _ | _ <;>
              simp [removeSynchronization, stuck, unsync, ends, Instance.end_?,
                TaskInstance.stopSignalling, ht, he, hM, hl, hc, hs]
    · simp [removeSynchronization, stuck, unsync, ends, TaskInstance.stopSignalling, ht, he]
  · simp [removeSynchronization, stuck, unsync, ht]

theorem removeTaskInstanceSynchronization_eq (M : TaskNode A) (t : K) (is : List (Instance A K)) :
    removeTaskInstanceSynchronization M t is =
      if is.any (stuck M t) then none else some (is.map (unsync M t)) := by
  induction is with
  | nil => rfl
  | cons i is ih =>
    rw [removeTaskInstanceSynchronization, removeSynchronization_eq, ih]
    rcases hi : stuck M t i with _ | _
    · rcases his : is.any (stuck M t) with _ | _ <;> simp [hi, his]
    · simp [hi]

/-- Leaving works if no open task of the token is blocking, and the tasks to be ended can
    be. -/
theorem leave_eq_some {t : K} {N : V} {s s' : State A K V} :
    leave D t N s = some s' ↔
      hasBlockingTaskInstances t s.instances = false ∧
        s.instances.any (stuck (D.node N) t) = false ∧
          s' = { s with
            instances := s.instances.map (unsync (D.node N) t)
            node := Function.update s.node t none } := by
  rw [leave, removeTaskInstanceSynchronization_eq]
  rcases hasBlockingTaskInstances t s.instances with _ | _
  · rcases s.instances.any (stuck (D.node N) t) with _ | _ <;> simp [eq_comm]
  · simp

theorem unsync_of_ne {M : TaskNode A} {t : K} {i : Instance A K} (h : i.token ≠ t) :
    unsync M t i = i := if_neg h

theorem grows_unsync (M : TaskNode A) (t : K) (i : Instance A K) : Grows i (unsync M t i) := by
  rw [unsync]
  split
  · split
    · exact ⟨rfl, rfl, rfl, rfl, fun _ => rfl⟩
    · exact ⟨rfl, rfl, rfl, rfl, id⟩
  · exact .refl i

theorem isSignalling_unsync {M : TaskNode A} {t : K} {i : Instance A K} (h : i.token = t) :
    (unsync M t i).isSignalling = false := by
  rw [unsync, if_pos h]
  simp only []
  split <;> rfl

theorem forall₂_unsync (M : TaskNode A) (t : K) (is : List (Instance A K)) :
    List.Forall₂ (fun i j => Grows i j ∧ (i.token ≠ t → j = i)) is (is.map (unsync M t)) :=
  List.forall₂_map_right_iff.2
    (List.forall₂_same.2 fun i _ => ⟨grows_unsync M t i, unsync_of_ne⟩)

/-- A token leaves its task-node.  `b` is how many times it has then left it by the completion
    of a task. -/
theorem Inv.leave {t : K} {N : V} {s' : State A K V} (h : Inv D (· ≠ t) s)
    (hN : s.node t = some N) (hl : TaskNode.leave D t N s = some s') (b : ℕ)
    (hb : (D.node N).signal.isSync = true →
      b = 1 ∧ completed (D.node N).signal (s.mine t (s.stays t)) = true ∨
        b = 0 ∧ s.mine t (s.stays t) = [] ∧ (D.node N).signal.isPlain = true) :
    Inv D (fun _ => True) { s' with
      leftBy := Function.update s'.leftBy t (Function.update (s'.leftBy t) (s'.stays t) b) } := by
  obtain ⟨-, -, rfl⟩ := leave_eq_some.1 hl
  have hR := forall₂_unsync (D.node N) t s.instances
  have hgrow (u : K) (k : ℕ) := (mine_of_forall₂ (fun _ _ hxy => hxy.1)
    { s with instances := s.instances.map (unsync (D.node N) t) } hR u k)
  constructor
  · intro y hy hys
    obtain ⟨x, hx, rfl⟩ := List.mem_map.1 hy
    by_cases hxt : x.token = t
    · rw [isSignalling_unsync hxt] at hys
      cases hys
    · rw [unsync_of_ne hxt] at hys ⊢
      simp only [Function.update_of_ne hxt]
      exact h.flag x hx hys
  · intro y hy hn hs hk he
    obtain ⟨x, hx, rfl⟩ := List.mem_map.1 hy
    by_cases hxt : x.token = t
    · simp only [(grows_unsync _ t x).token, hxt, Function.update_self, ne_eq,
        not_true_eq_false] at hn
    · rw [unsync_of_ne hxt] at hn hs hk he ⊢
      simp only [Function.update_of_ne hxt] at hn
      exact h.on x hx hn hs hk he
  · intro y hy
    obtain ⟨x, hx, rfl⟩ := List.mem_map.1 hy
    simp only [(grows_unsync _ t x).stay, (grows_unsync _ t x).token]
    exact h.stay x hx
  · exact h.nodeOf
  · intro u k hk
    simp only []
    by_cases hu : u = t
    · subst hu
      rw [Function.update_self, Function.update_of_ne (show k ≠ s.stays u from Nat.ne_of_gt hk)]
      exact h.leftBy u k hk
    · rw [Function.update_of_ne hu]
      exact h.leftBy u k hk
  · intro u M hM
    have hu : u ≠ t := by
      rintro rfl
      simp only [Function.update_self] at hM
      cases hM
    simp only [Function.update_of_ne hu] at hM ⊢
    exact h.here u M hM
  · intro u M _ hM
    have hu : u ≠ t := by
      rintro rfl
      simp only [Function.update_self] at hM
      cases hM
    simp only [Function.update_of_ne hu] at hM
    refine completed_eq_false_of_forall₂ (hgrow u _) ?_ (h.waiting u M hu hM)
    rintro x y ⟨hx, -, hxy⟩ hye
    rwa [hxy ((mem_mine.1 hx).2.1 ▸ hu)] at hye
  · intro u k M hM hk hsync
    by_cases hu : u = t
    · subst hu
      by_cases hku : k = s.stays u
      · subst hku
        obtain rfl : N = M := Option.some.inj ((h.here u N hN).1.symm.trans hM)
        simp only [Function.update_self]
        exact left_of_forall₂ ((hgrow u _).imp fun _ _ hxy => hxy.2.1.ended) (hb hsync)
      · simp only [Function.update_self, Function.update_of_ne hku]
        exact left_of_forall₂ ((hgrow u _).imp fun _ _ hxy => hxy.2.1.ended)
          (h.left u k M hM (fun hk => absurd hk hku) hsync)
    · simp only [Function.update_of_ne hu] at hk ⊢
      exact left_of_forall₂ ((hgrow u _).imp fun _ _ hxy => hxy.2.1.ended)
        (h.left u k M hM hk hsync)

/-! ## Steps -/

/-- A task instance that signals is created only for a task of the task-node in which its
    token is. -/
def Fits (D : Definition A V) (s : State A K V) : Op A K V → Prop
  | .create t a => (createTaskInstance D t a s).isSignalling = true →
      ∃ N a', s.node t = some N ∧ a = some a' ∧ (D.task a').taskNode = some N
  | _ => True

omit [DecidableEq A] in
/-- Whether the end of a task instance that signals makes its token leave. -/
theorem triggersSignal_eq {a : A} {N : V} (ha : i.task = some a)
    (hN : (D.task a).taskNode = some N) (is : List (Instance A K)) :
    triggersSignal D i is = completionTriggersSignal (D.node N) i.token is := by
  have hstart : (D.task a).isStart = false := Bool.eq_false_iff.2 fun h => by
    rw [D.taskNode_start a h] at hN
    cases hN
  simp only [triggersSignal, ha, hstart, hN, Bool.false_or]

omit [DecidableEq A] in
/-- If the last completion is not reached, the tasks of the stay are not completed. -/
theorem Inv.not_completed {t : K} {N : V} (h : Inv D P s) (hN : s.node t = some N)
    (ht : completionTriggersSignal (D.node N) t s.instances = false) :
    completed (D.node N).signal (s.mine t (s.stays t)) = false := by
  have hlast (hl : isLastToComplete t s.instances = false) :
      (s.mine t (s.stays t)).all (·.end_) = false := by
    obtain ⟨x, hx, hxo⟩ := List.all_eq_false.1 hl
    obtain ⟨⟨rfl, hsig⟩, he⟩ : (x.token = t ∧ x.isSignalling = true) ∧ x.end_ = false := by
      simpa using hxo
    obtain ⟨hs, hk, -, -⟩ := h.flag x hx hsig
    exact List.all_eq_false.2 ⟨x, mem_mine.2 ⟨hx, rfl, hk, hs⟩, by rw [he]; exact Bool.false_ne_true⟩
  rcases hg : (D.node N).signal <;> simp only [completionTriggersSignal, hg] at ht
  · rfl
  · rfl
  · cases ht
  · cases ht
  · rw [completed, hlast ht, Bool.and_false]
    rfl
  · rw [completed, hlast ht, Bool.and_false]
    rfl

omit [DecidableEq A] in
/-- If the completion of a task makes the token leave, the tasks of the stay are completed. -/
theorem Inv.completed_of_triggers {t : K} {N : V} (h : Inv D P s) (hN : s.node t = some N)
    (ht : completionTriggersSignal (D.node N) t s.instances = true)
    (hi : i ∈ s.mine t (s.stays t)) (he : i.end_ = true) :
    completed (D.node N).signal (s.mine t (s.stays t)) = true := by
  have hany : (s.mine t (s.stays t)).any (·.end_) = true := List.any_eq_true.2 ⟨i, hi, he⟩
  have hempty : (s.mine t (s.stays t)).isEmpty = false := by
    rw [List.isEmpty_eq_false_iff]
    exact List.ne_nil_of_mem hi
  have hall (hl : isLastToComplete t s.instances = true) :
      (s.mine t (s.stays t)).all (·.end_) = true := by
    refine List.all_eq_true.2 fun x hx => ?_
    obtain ⟨hxs, hxt, hk, hs⟩ := mem_mine.1 hx
    by_contra hxe
    have hxe := Bool.eq_false_iff.2 hxe
    have hsig := h.on x hxs (by rw [hxt, hN]; exact Option.some_ne_none N) hs (hxt ▸ hk) hxe
    have hx := List.all_eq_true.1 hl x hxs
    simp [hxt, hsig, hxe] at hx
  rcases hg : (D.node N).signal <;> simp only [completionTriggersSignal, hg] at ht
  · cases ht
  · cases ht
  · exact hany
  · exact hany
  · rw [completed, hempty, hall ht]
    rfl
  · rw [completed, hempty, hall ht]
    rfl

/-- What the end of a task instance does: it has ended and does not signal any more, and that is
    all, or its token has left its task-node. -/
theorem end_cases {s' : State A K V} (hs : TaskNode.end_ D n i s = some s') :
    i.end_ = false ∧ i.isSuspended = false ∧ ∃ e : Instance A K,
      Grows i e ∧ e.end_ = true ∧ e.isSignalling = false ∧
        (s' = { s with instances := s.instances.set n e } ∧ (i.isSignalling = true →
            s.node i.token ≠ none → triggersSignal D e (s.instances.set n e) = false) ∨
          i.isSignalling = true ∧ triggersSignal D e (s.instances.set n e) = true ∧
            ∃ N s₂, s.node i.token = some N ∧
              leave D i.token N { s with instances := s.instances.set n e } = some s₂ ∧
                s' = { s₂ with
                  leftBy := Function.update s₂.leftBy i.token (Function.update (s₂.leftBy i.token)
                    (s₂.stays i.token) (s₂.leftBy i.token (s₂.stays i.token) + 1)) }) := by
  rw [TaskNode.end_, Instance.end_?] at hs
  split at hs
  · cases hs
  rename_i hopen
  simp only [Option.bind_eq_bind, Option.bind_some] at hs
  rw [Bool.or_eq_true, not_or, Bool.not_eq_true, Bool.not_eq_true] at hopen
  refine ⟨hopen.1, hopen.2, ?_⟩
  split at hs
  · rename_i hon
    refine ⟨{ i with toTaskInstance := i.toTaskInstance.markAsEnded.stopSignalling },
      ⟨rfl, rfl, rfl, rfl, fun _ => rfl⟩, rfl, rfl, ?_⟩
    split at hs
    · rename_i ht
      rcases hN : s.node i.token with _ | N
      · simp only [signalToken, hN] at hs
        exact .inl ⟨(Option.some.inj hs).symm, fun _ h => absurd rfl h⟩
      · simp only [signalToken, hN, Option.bind_eq_bind, Option.bind_eq_some_iff] at hs
        obtain ⟨s₂, hl, hs⟩ := hs
        exact .inr ⟨hon, ht, N, s₂, rfl, hl, (Option.some.inj hs).symm⟩
    · rename_i ht
      exact .inl ⟨(Option.some.inj hs).symm, fun _ _ => Bool.eq_false_iff.2 ht⟩
  · rename_i hoff
    exact ⟨{ i with toTaskInstance := i.toTaskInstance.markAsEnded },
      ⟨rfl, rfl, rfl, rfl, fun _ => rfl⟩, rfl, Bool.eq_false_iff.2 hoff,
      .inl ⟨(Option.some.inj hs).symm, fun h => absurd h hoff⟩⟩

/-- A task instance that is completed or cancelled, `i` being what `end` finds. -/
theorem Inv.end_ {i₀ : Instance A K} {s' : State A K V} (h : Inv D (fun _ => True) s)
    (hi₀ : s.instances[n]? = some i₀) (hg : Grows i₀ i) (hsig : i.isSignalling = i₀.isSignalling)
    (hs : TaskNode.end_ D n i s = some s') : Inv D (fun _ => True) s' := by
  obtain ⟨-, -, e, hge, hee, heoff, hs⟩ := end_cases hs
  have hge := hg.trans hge
  -- the tasks may be completed now, but the token has not left yet
  have h₁ : Inv D (fun t => i₀.isSignalling = true → t ≠ i₀.token)
      { s with instances := s.instances.set n e } := by
    refine (h.mono fun _ _ => trivial).set hi₀ hge (fun h => ?_) (fun _ h => ?_)
      fun hP hon => absurd rfl (hP hon)
    · rw [heoff] at h
      cases h
    · rw [hee] at h
      cases h
  by_cases hon : i₀.isSignalling = true
  · obtain ⟨hsi, hki, -, N, a, hN, ha, haN⟩ := h.flag i₀ (List.mem_of_getElem? hi₀) hon
    rw [triggersSignal_eq (hge.task.trans ha) haN, hge.token, hg.token] at hs
    rcases hs with ⟨rfl, ht⟩ | ⟨-, ht, M, s₂, hM, hl, rfl⟩
    · refine { h₁ with waiting := fun u M _ hM => ?_ }
      by_cases hu : u = i₀.token
      · subst hu
        obtain rfl : N = M := Option.some.inj (hN.symm.trans hM)
        exact h₁.not_completed hM (ht (hsig.trans hon) (by rw [hN]; exact Option.some_ne_none N))
      · exact h₁.waiting u M (fun _ => hu) hM
    · obtain rfl : N = M := Option.some.inj (hN.symm.trans hM)
      have hmine : e ∈ State.mine { s with instances := s.instances.set n e } i₀.token
          (s.stays i₀.token) :=
        mem_mine.2 ⟨List.mem_set (List.getElem?_eq_some_iff.1 hi₀).1 e, hge.token,
          hge.stay.trans hki, hge.signals.trans hsi⟩
      refine (h₁.mono fun _ hu _ => hu).leave hN hl _ fun _ =>
        .inl ⟨?_, h₁.completed_of_triggers hN ht hmine hee⟩
      obtain ⟨-, -, rfl⟩ := leave_eq_some.1 hl
      rw [(h.here _ N hN).2]
  · rcases hs with ⟨rfl, -⟩ | ⟨hon', -⟩
    · exact h₁.mono fun _ _ hon' => absurd hon' hon
    · exact absurd (hsig ▸ hon') hon

omit [DecidableEq A] in
/-- Task instances are created, on tokens that are in the task-node of their task if they
    signal. -/
theorem Inv.append {t : K} {is : List (Instance A K)} (h : Inv D P s)
    (his : ∀ i ∈ is, i.token = t ∧ i.stay = s.stays t ∧ i.end_ = false ∧
      i.signals = i.isSignalling ∧ (i.isSignalling = true →
        ∃ N a, s.node t = some N ∧ i.task = some a ∧ (D.task a).taskNode = some N)) :
    Inv D P { s with instances := s.instances ++ is } := by
  have hmine (u : K) (k : ℕ) : State.mine { s with instances := s.instances ++ is } u k =
      s.mine u k ++ is.filter fun i => decide (i.token = u ∧ i.stay = k) && i.signals :=
    List.filter_append _ _
  constructor
  · intro x hx hxs
    rcases List.mem_append.1 hx with hx | hx
    · exact h.flag x hx hxs
    · obtain ⟨ht, hk, he, hs, hN⟩ := his x hx
      rw [ht]
      exact ⟨hs.trans hxs, hk, he, hN hxs⟩
  · intro x hx hn hs hk he
    rcases List.mem_append.1 hx with hx | hx
    · exact h.on x hx hn hs hk he
    · exact (his x hx).2.2.2.1 ▸ hs
  · intro x hx
    rcases List.mem_append.1 hx with hx | hx
    · exact h.stay x hx
    · obtain ⟨ht, hk, -⟩ := his x hx
      exact Nat.le_of_eq (hk.trans (congrArg s.stays ht.symm))
  · exact h.nodeOf
  · exact h.leftBy
  · exact h.here
  · intro u N hu hN
    rw [hmine]
    exact completed_append (h.waiting u N hu hN) fun x hx => (his x (List.mem_filter.1 hx).1).2.2.1
  · intro u k N hN hk hsync
    have hnone : (is.filter fun i => decide (i.token = u ∧ i.stay = k) && i.signals) = [] := by
      refine List.filter_eq_nil_iff.2 fun x hx hxp => ?_
      obtain ⟨ht, hkx, -, hs, hn⟩ := his x hx
      obtain ⟨⟨hxu, hxk⟩, hxs⟩ : (x.token = u ∧ x.stay = k) ∧ x.signals = true := by
        simpa using hxp
      obtain ⟨M, -, hM, -⟩ := hn (hs ▸ hxs)
      have htu : u = t := hxu.symm.trans ht
      subst htu
      rw [hk (hxk.symm.trans hkx)] at hM
      cases hM
    rw [hmine, hnone, List.append_nil]
    exact h.left u k N hN hk hsync

omit [DecidableEq A] [DecidableEq K] in
theorem createTaskInstance_spec (D : Definition A V) (t : K) (a : Option A) (s : State A K V) :
    (createTaskInstance D t a s).token = t ∧ (createTaskInstance D t a s).stay = s.stays t ∧
      (createTaskInstance D t a s).end_ = false ∧
        (createTaskInstance D t a s).signals = (createTaskInstance D t a s).isSignalling ∧
          (createTaskInstance D t a s).task = a :=
  ⟨rfl, rfl, rfl, rfl, rfl⟩

omit [DecidableEq A] in
theorem Inv.create {t : K} {a : Option A} (h : Inv D P s) (hf : Fits D s (.create t a)) :
    Inv D P { s with instances := s.instances ++ [createTaskInstance D t a s] } := by
  refine h.append (t := t) fun i hi => ?_
  obtain rfl := List.mem_singleton.1 hi
  obtain ⟨ht, hk, he, hs, ha⟩ := createTaskInstance_spec D t a s
  refine ⟨ht, hk, he, hs, fun hon => ?_⟩
  obtain ⟨N, a', hN, ha', haN⟩ := hf hon
  exact ⟨N, a', hN, ha.trans ha', haN⟩

omit [DecidableEq A] in
/-- There are no task instances of a new stay. -/
theorem Inv.mine_entered (h : Inv D P s) (t : K) (N : V) :
    (s.entered t N).mine t ((s.entered t N).stays t) = [] := by
  have hstays : (s.entered t N).stays t = s.stays t + 1 := Function.update_self ..
  rw [hstays]
  refine List.filter_eq_nil_iff.2 fun x hx hxp => ?_
  obtain ⟨⟨hxt, hxk⟩, -⟩ : (x.token = t ∧ x.stay = s.stays t + 1) ∧ x.signals = true := by
    simpa using hxp
  have hle := h.stay x hx
  rw [hxt] at hle
  omega

omit [DecidableEq A] in
theorem Inv.entered {t : K} {N : V} (h : Inv D (fun _ => True) s) (ht : s.node t = none) :
    Inv D (fun _ => True) (s.entered t N) := by
  have hne (u : K) (M : V) (hM : s.node u = some M) : u ≠ t := by
    rintro rfl
    rw [ht] at hM
    cases hM
  have hnew := h.mine_entered t N
  constructor
  · intro x hx hxs
    obtain ⟨hs, hk, he, M, a, hM, ha⟩ := h.flag x hx hxs
    have hxt := hne _ _ hM
    simp only [State.entered, Function.update_of_ne hxt]
    exact ⟨hs, hk, he, M, a, hM, ha⟩
  · intro x hx hn hs hk he
    by_cases hxt : x.token = t
    · have hle := h.stay x hx
      simp only [State.entered, hxt, Function.update_self] at hk hle
      omega
    · simp only [State.entered, Function.update_of_ne hxt] at hn hk
      exact h.on x hx hn hs hk he
  · intro x hx
    have hle := h.stay x hx
    by_cases hxt : x.token = t
    · simp only [State.entered, hxt, Function.update_self] at hle ⊢
      omega
    · simpa only [State.entered, Function.update_of_ne hxt] using hle
  · intro u k M hM
    by_cases hu : u = t
    · subst hu
      simp only [State.entered, Function.update_self] at hM ⊢
      by_cases hk : k = s.stays u + 1
      · exact Nat.le_of_eq hk
      · rw [Function.update_of_ne hk] at hM
        exact Nat.le_succ_of_le (h.nodeOf u k M hM)
    · simp only [State.entered, Function.update_of_ne hu] at hM ⊢
      exact h.nodeOf u k M hM
  · intro u k hk
    by_cases hu : u = t
    · subst hu
      simp only [State.entered, Function.update_self] at hk
      exact h.leftBy u k (by omega)
    · simp only [State.entered, Function.update_of_ne hu] at hk
      exact h.leftBy u k hk
  · intro u M hM
    by_cases hu : u = t
    · subst hu
      simp only [State.entered, Function.update_self] at hM ⊢
      exact ⟨hM, h.leftBy u _ (Nat.lt_succ_self _)⟩
    · simp only [State.entered, Function.update_of_ne hu] at hM ⊢
      exact h.here u M hM
  · intro u M _ hM
    by_cases hu : u = t
    · subst hu
      rw [hnew, completed]
      split
      · rfl
      · rw [List.isEmpty_nil, Bool.not_true, Bool.and_false, Bool.false_and]
    · simp only [State.entered, Function.update_of_ne hu] at hM ⊢
      exact h.waiting u M trivial hM
  · intro u k M hM hk hsync
    by_cases hu : u = t
    · subst hu
      simp only [State.entered, Function.update_self] at hM hk
      by_cases hks : k = s.stays u + 1
      · cases hk hks
      · rw [Function.update_of_ne hks] at hM
        exact h.left u k M hM (fun _ => ht) hsync
    · simp only [State.entered, Function.update_of_ne hu] at hM hk
      exact h.left u k M hM hk hsync

/-- A token goes on without the completion of a task. -/
theorem Inv.leaveAtOnce {t : K} {N : V} {s' : State A K V} (h : Inv D (fun _ => True) s)
    (hN : s.node t = some N) (hl : TaskNode.leave D t N s = some s')
    (hb : (D.node N).signal.isSync = true →
      s.mine t (s.stays t) = [] ∧ (D.node N).signal.isPlain = true) :
    Inv D (fun _ => True) s' := by
  have h' := (h.mono (Q := (· ≠ t)) fun _ _ => trivial).leave hN hl
    (s.leftBy t (s.stays t)) fun hsync => .inr ⟨(h.here t N hN).2, hb hsync⟩
  obtain ⟨-, -, rfl⟩ := leave_eq_some.1 hl
  simpa only [Function.update_eq_self] using h'

/-- The tasks that `execute` creates. -/
def created (D : Definition A V) (N : V) (condition : A → Bool) : List A :=
  if (D.node N).createTasks then ((D.node N).tasks.getD []).filter condition else []

omit [DecidableEq K] [DecidableEq A] in
theorem taskNode_created {N : V} {condition : A → Bool} {a : A}
    (h : a ∈ created D N condition) : (D.task a).taskNode = some N := by
  rw [created] at h
  split at h
  · have hm := (List.mem_filter.1 h).1
    rcases hl : (D.node N).tasks with _ | l
    · rw [hl] at hm
      cases hm
    · rw [hl] at hm
      exact (D.mem_tasks a N).1 ⟨l, hl, hm⟩
  · cases h

/-- The state in which `execute` decides whether to continue. -/
def State.filled (s : State A K V) (D : Definition A V) (t : K) (N : V)
    (condition : A → Bool) : State A K V :=
  { s with instances := s.instances ++
      (created D N condition).map fun a => createTaskInstance D t (some a) s }

omit [DecidableEq A] in
theorem Inv.filled {t : K} {N : V} {condition : A → Bool} (h : Inv D P s)
    (hN : s.node t = some N) : Inv D P (s.filled D t N condition) := by
  refine h.append (t := t) fun i hi => ?_
  obtain ⟨a, ha, rfl⟩ := List.mem_map.1 hi
  obtain ⟨ht, hk, he, hs, ha'⟩ := createTaskInstance_spec D t (some a) s
  exact ⟨ht, hk, he, hs, fun _ => ⟨N, a, hN, ha', taskNode_created ha⟩⟩

theorem execute_eq (t : K) (N : V) (condition : A → Bool) (s : State A K V) :
    execute D t N condition s = match (D.node N).signal with
      | .unsynchronized => leave D t N (s.filled D t N condition)
      | .firstWait | .lastWait | .never => some (s.filled D t N condition)
      | .first | .last =>
        if getSignallingTasks t (s.filled D t N condition).instances = [] then
          leave D t N (s.filled D t N condition)
        else some (s.filled D t N condition) := rfl

omit [DecidableEq A] in
/-- A token that has just entered has no tasks to wait for, if none of its task instances
    signals. -/
theorem Inv.mine_eq_nil {t : K} {N : V} {condition : A → Bool} (h : Inv D P s)
    (hN : s.node t = some N) (hnew : s.mine t (s.stays t) = []) :
    (s.filled D t N condition).mine t (s.stays t) = [] ↔
      getSignallingTasks t (s.filled D t N condition).instances = [] := by
  rw [getSignallingTasks, State.mine, List.filter_eq_nil_iff, List.filter_eq_nil_iff]
  constructor
  · intro hm x hx hxs
    obtain ⟨hon, hxt⟩ : x.isSignalling = true ∧ x.token = t := by simpa using hxs
    obtain ⟨hs, hk, -⟩ := (h.filled hN).flag x hx hon
    exact hm x hx (by simp [hxt, hs, show x.stay = s.stays t from hxt ▸ hk])
  · intro hg x hx hxs
    obtain ⟨⟨hxt, hk⟩, hs⟩ : (x.token = t ∧ x.stay = s.stays t) ∧ x.signals = true := by
      simpa using hxs
    rcases List.mem_append.1 hx with hx' | hx'
    · have hm : x ∈ s.mine t (s.stays t) := mem_mine.2 ⟨hx', hxt, hk, hs⟩
      rw [hnew] at hm
      cases hm
    · obtain ⟨a, -, rfl⟩ := List.mem_map.1 hx'
      have hon : (createTaskInstance D t (some a) s).isSignalling = true := hs
      exact hg _ hx (by simpa [hxt] using hon)

theorem Inv.execute {t : K} {N : V} {condition : A → Bool} {s' : State A K V}
    (h : Inv D (fun _ => True) s) (hN : s.node t = some N) (hnew : s.mine t (s.stays t) = [])
    (hs : TaskNode.execute D t N condition s = some s') : Inv D (fun _ => True) s' := by
  have hf : Inv D (fun _ => True) (s.filled D t N condition) := h.filled hN
  have hplain (hg : (D.node N).signal.isPlain = true) (hs : (if getSignallingTasks t
      (s.filled D t N condition).instances = [] then TaskNode.leave D t N
        (s.filled D t N condition) else some (s.filled D t N condition)) = some s') :
      Inv D (fun _ => True) s' := by
    split at hs
    · rename_i hnone
      exact hf.leaveAtOnce hN hs fun _ => ⟨(h.mine_eq_nil hN hnew).2 hnone, hg⟩
    · obtain rfl := Option.some.inj hs
      exact hf
  rw [execute_eq] at hs
  rcases hg : (D.node N).signal <;> simp only [hg] at hs
  · refine hf.leaveAtOnce hN hs fun hsync => ?_
    rw [hg] at hsync
    cases hsync
  · exact Option.some.inj hs ▸ hf
  · exact hplain (by rw [hg]; rfl) hs
  · exact Option.some.inj hs ▸ hf
  · exact hplain (by rw [hg]; rfl) hs
  · exact Option.some.inj hs ▸ hf

omit [DecidableEq A] in
theorem Inv.setSuspended {b : Bool} {s' : State A K V} (h : Inv D P s)
    (hi : s.instances[n]? = some i) (hs : TaskNode.setSuspended n i b s = some s') :
    Inv D P s' := by
  rw [TaskNode.setSuspended] at hs
  split at hs
  · obtain rfl := Option.some.inj hs
    exact h.set hi ⟨rfl, rfl, rfl, rfl, id⟩ (fun hon => ⟨hon, rfl⟩) (fun hon _ => hon) fun _ _ => rfl
  · cases hs

theorem enter_eq_some {t : K} {N : V} {condition : A → Bool} {s' : State A K V} :
    enter D t N condition s = some s' ↔
      s.node t = none ∧ execute D t N condition (s.entered t N) = some s' := by
  rw [enter]
  rcases s.node t with _ | M <;> simp

omit [DecidableEq A] in
theorem node_entered (s : State A K V) (t : K) (N : V) : (s.entered t N).node t = some N :=
  Function.update_self ..

/-- **Step.** -/
theorem Inv.step {op : Op A K V} {s' : State A K V} (h : Inv D (fun _ => True) s)
    (hf : Fits D s op) (hs : TaskNode.step D s op = some s') : Inv D (fun _ => True) s' := by
  cases op with
  | enter t N condition =>
    obtain ⟨ht, hs⟩ := enter_eq_some.1 hs
    exact (h.entered ht).execute (node_entered s t N) (h.mine_entered t N) hs
  | create t a =>
    obtain rfl := Option.some.inj hs
    exact h.create hf
  | end_ n =>
    simp only [TaskNode.step, Option.bind_eq_bind, Option.bind_eq_some_iff] at hs
    obtain ⟨i, hi, hs⟩ := hs
    exact h.end_ hi (.refl i) rfl hs
  | cancel n =>
    simp only [TaskNode.step, Option.bind_eq_bind, Option.bind_eq_some_iff] at hs
    obtain ⟨i, hi, hs⟩ := hs
    exact h.end_ (i := { i with toTaskInstance := i.toTaskInstance.markAsCancelled }) hi
      ⟨rfl, rfl, rfl, rfl, id⟩ rfl hs
  | suspend n =>
    simp only [TaskNode.step, Option.bind_eq_bind, Option.bind_eq_some_iff] at hs
    obtain ⟨i, hi, hs⟩ := hs
    exact h.setSuspended hi hs
  | resume n =>
    simp only [TaskNode.step, Option.bind_eq_bind, Option.bind_eq_some_iff] at hs
    obtain ⟨i, hi, hs⟩ := hs
    exact h.setSuspended hi hs

omit [DecidableEq A] in
theorem inv_init : Inv D (fun _ => True) (State.init : State A K V) where
  flag _ h := nomatch h
  on _ h := nomatch h
  stay _ h := nomatch h
  nodeOf _ _ _ h := nomatch h
  leftBy _ _ _ := rfl
  here _ _ h := nomatch h
  waiting _ _ _ h := nomatch h
  left _ _ _ h := nomatch h

/-! ## What holds in every state -/

/-- Another open task instance of the token keeps it from leaving: it is blocking, or
    suspended and so cannot be ended with the others. -/
def Hindered (s : State A K V) (n : ℕ) (t : K) : Prop :=
  ∃ m j, m ≠ n ∧ s.instances[m]? = some j ∧ j.token = t ∧ j.end_ = false ∧
    (j.isBlocking = true ∨ j.isSuspended = true)

/-- The operation completes the task instance number `n`. -/
def Op.Completes (op : Op A K V) (n : ℕ) : Prop := op = .end_ n ∨ op = .cancel n

/-- The synchronisation of the task-nodes with the task instances. -/
structure Synchronised (D : Definition A V) (s : State A K V) : Prop where
  /-- The token has left exactly once by the completion of a task if the first task, or the
      last one, has been completed, and not at all before. -/
  exact_ : ∀ t k N, s.nodeOf t k = some N → (D.node N).signal.isSync = true →
    s.leftBy t k = if completed (D.node N).signal (s.mine t k) then 1 else 0
  /-- Before, it waits, unless there was nothing to wait for. -/
  waits : ∀ t N, s.nodeOf t (s.stays t) = some N → (D.node N).signal.isSync = true →
    s.leftBy t (s.stays t) = 0 →
      s.node t = some N ∨ s.mine t (s.stays t) = [] ∧ (D.node N).signal.isPlain = true
  /-- Without tasks that signal, the plain modes continue at once; otherwise the token
      stays. -/
  enters : ∀ t N condition s', step D s (.enter t N condition) = some s' →
    (D.node N).signal.isSync = true → (s'.node t = none ↔ (D.node N).signal.isPlain = true ∧
      ∀ a ∈ created D N condition, (D.task a).isSignalling = false)
  /-- An open task instance that is not suspended can be completed. -/
  completes : ∀ op n i, op.Completes n → s.instances[n]? = some i → i.end_ = false →
    i.isSuspended = false → ¬ Hindered s n i.token → step D s op ≠ none
  /-- A token does not leave while a blocking task instance is open. -/
  blocks : ∀ op n i s', op.Completes n → s.instances[n]? = some i → step D s op = some s' →
    (∃ m j, m ≠ n ∧ s.instances[m]? = some j ∧ j.token = i.token ∧ j.end_ = false ∧
      j.isBlocking = true) → s'.node i.token = s.node i.token
  /-- With end-tasks, the remaining tasks of the node end as the token leaves. -/
  endTasks : ∀ op n s' t N, op.Completes n → step D s op = some s' → s.node t = some N →
    s'.node t = none → (D.node N).endTasks = true →
      ∀ j ∈ s'.instances, j.token = t → contains ((D.node N).tasks.getD []) j.task = true →
        j.end_ = true

omit [DecidableEq A] [DecidableEq K] in
theorem mem_set_cases {l : List (Instance A K)} {x e : Instance A K} (h : x ∈ l.set n e) :
    x = e ∨ ∃ m, m ≠ n ∧ l[m]? = some x := by
  obtain ⟨m, hm⟩ := List.mem_iff_getElem?.1 h
  rw [List.getElem?_set] at hm
  split at hm
  · split at hm
    · exact .inl (Option.some.inj hm).symm
    · cases hm
  · rename_i hne
    exact .inr ⟨m, fun he => hne he.symm, hm⟩

/-- What `step` does with a completion. -/
theorem step_of_completes {op : Op A K V} (hop : op.Completes n)
    (hi : s.instances[n]? = some i) : ∃ i' : Instance A K, Grows i i' ∧
      i'.isSignalling = i.isSignalling ∧ i'.end_ = i.end_ ∧ i'.isSuspended = i.isSuspended ∧
        TaskNode.step D s op = TaskNode.end_ D n i' s := by
  rcases hop with rfl | rfl
  · exact ⟨i, .refl i, rfl, rfl, rfl, by simp [TaskNode.step, hi]⟩
  · exact ⟨{ i with toTaskInstance := i.toTaskInstance.markAsCancelled },
      ⟨rfl, rfl, rfl, rfl, id⟩, rfl, rfl, rfl, by simp [TaskNode.step, hi]⟩

theorem Inv.end_ne_none {i₀ : Instance A K} (h : Inv D P s) (hi₀ : s.instances[n]? = some i₀)
    (hg : Grows i₀ i) (hsig : i.isSignalling = i₀.isSignalling) (he : i.end_ = false)
    (hsusp : i.isSuspended = false) (hfree : ¬ Hindered s n i₀.token) :
    TaskNode.end_ D n i s ≠ none := by
  rw [TaskNode.end_, Instance.end_?, he, hsusp]
  simp only [Bool.or_self, Bool.false_eq_true, if_false, Option.bind_eq_bind, Option.bind_some]
  split
  · rename_i hon
    obtain ⟨-, -, -, N, a, hN, ha, haN⟩ := h.flag i₀ (List.mem_of_getElem? hi₀) (hsig ▸ hon)
    split
    · generalize hx : ({ i with toTaskInstance := i.toTaskInstance.markAsEnded.stopSignalling } :
        Instance A K) = e
      have hee : e.end_ = true := by rw [← hx]; rfl
      have hothers : ∀ x ∈ s.instances.set n e, x.token = i₀.token → x.end_ = false →
          x.isBlocking = false ∧ x.isSuspended = false := by
        intro x hx hxt hxe
        rcases mem_set_cases hx with rfl | ⟨m, hm, hxm⟩
        · rw [hee] at hxe
          cases hxe
        · constructor <;> refine Bool.eq_false_iff.2 fun hb => hfree ⟨m, x, hm, hxm, hxt, hxe, ?_⟩
          · exact .inl hb
          · exact .inr hb
      obtain ⟨l, hl, -⟩ := (D.mem_tasks a N).2 haN
      have hleave := (leave_eq_some (D := D) (t := i₀.token) (N := N)
        (s := { s with instances := s.instances.set n e })).2 ⟨?_, ?_, rfl⟩
      · rw [signalToken, hg.token, hN]
        simp only [hleave]
        exact Option.some_ne_none _
      · refine List.any_eq_false.2 fun x hx hb => ?_
        obtain ⟨⟨hxe, hxb⟩, hxt⟩ : (x.end_ = false ∧ x.isBlocking = true) ∧
          x.token = i₀.token := by simpa using hb
        rw [(hothers x hx hxt hxe).1] at hxb
        cases hxb
      · refine List.any_eq_false.2 fun x hx hb => ?_
        obtain ⟨⟨⟨hxt, hxe⟩, -⟩, -, hxs⟩ : ((x.token = i₀.token ∧ x.end_ = false) ∧
            (D.node N).endTasks = true) ∧ ends (D.node N) x = true ∧ x.isSuspended = true := by
          simpa [stuck, hl] using hb
        rw [(hothers x hx hxt hxe).2] at hxs
        cases hxs
    · exact Option.some_ne_none _
  · exact Option.some_ne_none _

omit [DecidableEq A] in
/-- Whether a task of the node that signals is created as a token enters. -/
theorem filled_signalling_eq_nil {t : K} {N : V} {condition : A → Bool}
    (hnew : s.mine t (s.stays t) = []) :
    (s.filled D t N condition).mine t (s.stays t) = [] ↔
      ∀ a ∈ created D N condition, (D.task a).isSignalling = false := by
  have hmine : (s.filled D t N condition).mine t (s.stays t) = s.mine t (s.stays t) ++
      ((created D N condition).map fun a => createTaskInstance D t (some a) s).filter
        fun i => decide (i.token = t ∧ i.stay = s.stays t) && i.signals :=
    List.filter_append _ _
  rw [hmine, hnew, List.nil_append, List.filter_eq_nil_iff]
  constructor
  · intro h a ha
    have hi := h _ (List.mem_map_of_mem ha)
    obtain ⟨ht, hk, -⟩ := createTaskInstance_spec D t (some a) s
    rw [ht, hk] at hi
    simpa [createTaskInstance] using hi
  · intro h i hi
    obtain ⟨a, ha, rfl⟩ := List.mem_map.1 hi
    simp [createTaskInstance, h a ha]

theorem leave_node {t : K} {N : V} {s' : State A K V} (h : leave D t N s = some s') :
    s'.node t = none := by
  obtain ⟨-, -, rfl⟩ := leave_eq_some.1 h
  exact Function.update_self ..

theorem Inv.enters {t : K} {N : V} {condition : A → Bool} {s' : State A K V}
    (h : Inv D (fun _ => True) s)
    (hs : TaskNode.step D s (.enter t N condition) = some s')
    (hsync : (D.node N).signal.isSync = true) :
    s'.node t = none ↔ (D.node N).signal.isPlain = true ∧
      ∀ a ∈ created D N condition, (D.task a).isSignalling = false := by
  obtain ⟨ht, hs⟩ := enter_eq_some.1 hs
  have hN := node_entered s t N
  have hnew := h.mine_entered t N
  have hstay : ((s.entered t N).filled D t N condition).node t ≠ none := by
    show (s.entered t N).node t ≠ none
    rw [hN]
    exact Option.some_ne_none N
  have hplain (hs : (if getSignallingTasks t
      ((s.entered t N).filled D t N condition).instances = [] then
        TaskNode.leave D t N ((s.entered t N).filled D t N condition)
      else some ((s.entered t N).filled D t N condition)) = some s') :
      s'.node t = none ↔ ∀ a ∈ created D N condition, (D.task a).isSignalling = false := by
    rw [← filled_signalling_eq_nil hnew, (h.entered ht).mine_eq_nil hN hnew]
    split at hs
    · rename_i hnone
      exact ⟨fun _ => hnone, fun _ => leave_node hs⟩
    · rename_i hsome
      obtain rfl := Option.some.inj hs
      exact ⟨fun h => absurd h hstay, fun h => absurd h hsome⟩
  rw [execute_eq] at hs
  rcases hg : (D.node N).signal <;> simp only [hg] at hs
  · rw [hg] at hsync
    cases hsync
  · rw [hg] at hsync
    cases hsync
  · rw [hplain hs]
    exact (and_iff_right rfl).symm
  · obtain rfl := Option.some.inj hs
    exact ⟨fun h => absurd h hstay, fun h => nomatch h.1⟩
  · rw [hplain hs]
    exact (and_iff_right rfl).symm
  · obtain rfl := Option.some.inj hs
    exact ⟨fun h => absurd h hstay, fun h => nomatch h.1⟩

omit [DecidableEq A] in
theorem Inv.exact_ {t : K} {k : ℕ} {N : V} (h : Inv D (fun _ => True) s)
    (hN : s.nodeOf t k = some N) (hsync : (D.node N).signal.isSync = true) :
    s.leftBy t k = if completed (D.node N).signal (s.mine t k) then 1 else 0 := by
  by_cases hin : k = s.stays t ∧ s.node t ≠ none
  · obtain ⟨rfl, hne⟩ := hin
    obtain ⟨M, hM⟩ := Option.ne_none_iff_exists'.1 hne
    obtain ⟨hof, hleft⟩ := h.here t M hM
    obtain rfl : M = N := Option.some.inj (hof.symm.trans hN)
    rw [h.waiting t M trivial hM, hleft]
    rfl
  · rcases h.left t k N hN (fun hk => by_contra fun hne => hin ⟨hk, hne⟩) hsync with
      ⟨hm, hc⟩ | ⟨hm, hnil, hplain⟩
    · rw [hm, hc, if_pos rfl]
    · have hnot : completed (D.node N).signal ([] : List (Instance A K)) = false := by
        cases (D.node N).signal <;> rfl
      rw [hm, hnil, hnot]
      rfl

omit [DecidableEq A] in
theorem Inv.waits {t : K} {N : V} (h : Inv D (fun _ => True) s)
    (hN : s.nodeOf t (s.stays t) = some N) (hsync : (D.node N).signal.isSync = true)
    (hleft : s.leftBy t (s.stays t) = 0) :
    s.node t = some N ∨ s.mine t (s.stays t) = [] ∧ (D.node N).signal.isPlain = true := by
  rcases hM : s.node t with _ | M
  · rcases h.left t _ N hN (fun _ => hM) hsync with ⟨hone, -⟩ | ⟨-, hnone⟩
    · rw [hleft] at hone
      cases hone
    · exact .inr hnone
  · exact .inl ((h.here t M hM).1.symm.trans hN)

/-- A completion by which the token leaves. -/
theorem leave_of_completes {op : Op A K V} {s' : State A K V} (hop : op.Completes n)
    (hi : s.instances[n]? = some i) (hs : TaskNode.step D s op = some s')
    (hne : s'.node i.token ≠ s.node i.token) : ∃ N s₂ e,
      s.node i.token = some N ∧ Grows i e ∧ e.end_ = true ∧
        leave D i.token N { s with instances := s.instances.set n e } = some s₂ ∧
          s'.instances = s₂.instances := by
  obtain ⟨i', hg, -, -, -, hstep⟩ := step_of_completes (D := D) hop hi
  rw [hstep] at hs
  obtain ⟨-, -, e, hge, hee, -, hs⟩ := end_cases hs
  rcases hs with ⟨rfl, -⟩ | ⟨-, -, N, s₂, hN, hl, rfl⟩
  · exact absurd rfl hne
  · rw [hg.token] at hN hl
    exact ⟨N, s₂, e, hN, hg.trans hge, hee, hl, rfl⟩

theorem node_of_completes {op : Op A K V} {s' : State A K V} {t : K} (hop : op.Completes n)
    (hi : s.instances[n]? = some i) (hs : TaskNode.step D s op = some s') (ht : t ≠ i.token) :
    s'.node t = s.node t := by
  obtain ⟨i', hg, -, -, -, hstep⟩ := step_of_completes (D := D) hop hi
  rw [hstep] at hs
  obtain ⟨-, -, e, -, -, -, hs⟩ := end_cases hs
  rcases hs with ⟨rfl, -⟩ | ⟨-, -, N, s₂, -, hl, rfl⟩
  · rfl
  · obtain ⟨-, -, rfl⟩ := leave_eq_some.1 hl
    rw [hg.token]
    exact Function.update_of_ne ht _ _

theorem node_eq_of_blocking {op : Op A K V} {s' : State A K V} (hop : op.Completes n)
    (hi : s.instances[n]? = some i) (hs : TaskNode.step D s op = some s')
    (hb : ∃ m j, m ≠ n ∧ s.instances[m]? = some j ∧ j.token = i.token ∧ j.end_ = false ∧
      j.isBlocking = true) : s'.node i.token = s.node i.token := by
  by_contra hne
  obtain ⟨N, s₂, e, -, -, -, hl, -⟩ := leave_of_completes hop hi hs hne
  obtain ⟨m, j, hm, hj, hjt, hje, hjb⟩ := hb
  have hfree := (leave_eq_some.1 hl).1
  have hmem : j ∈ s.instances.set n e :=
    List.mem_of_getElem? ((List.getElem?_set_ne hm.symm).trans hj)
  have hno := List.any_eq_false.1 hfree j hmem
  simp [hje, hjb, hjt] at hno

theorem ended_of_endTasks {op : Op A K V} {s' : State A K V} {t : K} {N : V} (hop : op.Completes n)
    (hs : TaskNode.step D s op = some s') (hN : s.node t = some N) (hleft : s'.node t = none)
    (hend : (D.node N).endTasks = true) (hj : j ∈ s'.instances) (hjt : j.token = t)
    (hc : contains ((D.node N).tasks.getD []) j.task = true) : j.end_ = true := by
  have hsome : ∃ i, s.instances[n]? = some i := by
    rcases hop with rfl | rfl <;>
      simp only [TaskNode.step, Option.bind_eq_bind, Option.bind_eq_some_iff] at hs <;>
      exact hs.imp fun _ h => h.1
  obtain ⟨i, hi⟩ := hsome
  have ht : t = i.token := by
    by_contra ht
    rw [node_of_completes hop hi hs ht, hN] at hleft
    cases hleft
  subst ht
  obtain ⟨M, s₂, e, hM, -, -, hl, his⟩ := leave_of_completes hop hi hs (by
    rw [hleft, hN]
    exact (Option.some_ne_none N).symm)
  obtain rfl : M = N := Option.some.inj (hM.symm.trans hN)
  obtain ⟨-, -, rfl⟩ := leave_eq_some.1 hl
  rw [his] at hj
  obtain ⟨x, -, rfl⟩ := List.mem_map.1 hj
  have hg := grows_unsync (D.node M) i.token x
  rw [hg.token] at hjt
  rw [hg.task] at hc
  rcases hx : x.end_ with _ | _
  · simp [unsync, ends, hjt, hend, hc, hx, TaskInstance.markAsEnded]
  · exact hg.ended hx

/-- A task-node with two tasks that signal. -/
def twoTasks (g : Signal) (isBlocking : Bool) : Definition Bool Unit where
  task _ := { taskNode := some (), isSignalling := true, isBlocking := isBlocking, isStart := false }
  node _ := { signal := g, createTasks := true, endTasks := true, tasks := some [false, true] }
  mem_tasks a _ := ⟨fun _ => rfl, fun _ => ⟨_, rfl, by cases a <;> decide⟩⟩
  taskNode_start _ h := nomatch h

end TaskNode

end Jbpm
