/-
  The life cycle of a task instance.

  * `Call`, `Script`: the operations, with what the listeners, the task controller and
    the execution do to the task instance when they are called;
  * `Call.exec`: an operation, on the flags of the task instance;
  * `Valid`: how the flags should agree;
  * `Call.safe`: when an operation keeps them so (`valid_of_run`).
-/
import Jbpm.Lib.Run

namespace Jbpm

/-- A task instance.  Of the dates, only whether they are set. -/
structure TaskInstance where
  actorId : Option String
  previousActorId : Option String
  create : Bool
  start : Bool
  end_ : Bool
  isCancelled : Bool
  isSuspended : Bool
  isOpen : Bool
  isSignalling : Bool
  deriving DecidableEq

namespace TaskInstance

/-- `new TaskInstance()`.  `setTask` sets `isSignalling`. -/
def new (isSignalling : Bool) : TaskInstance where
  actorId := none
  previousActorId := none
  create := false
  start := false
  end_ := false
  isCancelled := false
  isSuspended := false
  isOpen := true
  isSignalling := isSignalling

inductive Exn where
  /-- `task instance .. was already created` -/
  | alreadyCreated
  /-- `task instance .. is already started` -/
  | alreadyStarted
  /-- `task instance .. is already ended` -/
  | alreadyEnded
  /-- `task instance .. is suspended` -/
  | suspended
  /-- `a task that is not open cannot be suspended`, or `resumed` -/
  | notOpen
  /-- `task node does not have leaving transition ..`, or that the node of the task cannot
      be asked -/
  | noLeavingTransition
  /-- what was called has thrown -/
  | callback
  deriving DecidableEq

/-- The argument of `end` and `cancel`: none or a transition, or the name of a transition,
    which the node of the task has or does not have. -/
inductive Leaving where
  | transition
  | name (found : Bool)
  deriving DecidableEq

mutual

/-- The operations on a task instance.  Each comes with what is run on its way: the listeners
    of the event, the submission of the variables, the decision whether to signal the token
    together with the signal.  What is not there (a task without event listeners) does
    nothing. -/
inductive Call where
  | create (event : Script)
  | setActorId (actorId : Option String) (event : Script)
  | start (event : Script)
  | suspend
  | resume
  | end_ (leaving : Leaving) (event submit signal : Script)
  | cancel (leaving : Leaving) (event submit signal : Script)
  /-- `setSignalling(false)`, by the node or the end of the token -/
  | removeSignalling

/-- What is run may call the task instance again.  It may go on after an exception or not,
    and throws itself or not. -/
inductive Script where
  | done (throws : Bool)
  | call (c : Call) (rest : Script)

end

/-- Whether a script throws. -/
def Script.throws : Script → Bool
  | .done throws => throws
  | .call _ rest => rest.throws

variable (s : TaskInstance)

def markAsCancelled : TaskInstance := { s with isCancelled := true, isOpen := false }

/-- The first two assignments of `end(transition)`. -/
def markAsEnded : TaskInstance := { s with end_ := true, isOpen := false }

/-- `setSignalling(false)` -/
def stopSignalling : TaskInstance := { s with isSignalling := false }

/-- `end(transition)` -/
def endWith (event submitVariables signal : TaskInstance → Except Exn Unit × TaskInstance) :
    Except Exn Unit × TaskInstance :=
  if s.end_ then (.error .alreadyEnded, s)
  else if s.isSuspended then (.error .suspended, s)
  else
    match event s.markAsEnded with
    | (.error e, s) => (.error e, s)
    | (.ok (), s) =>
      match submitVariables s with
      | (.error e, s) => (.error e, s)
      | (.ok (), s) =>
        if s.isSignalling then signal s.stopSignalling else (.ok (), s)

/-- `end()`, `end(transition)` and `end(transitionName)` -/
def endLeaving (leaving : Leaving)
    (event submitVariables signal : TaskInstance → Except Exn Unit × TaskInstance) :
    Except Exn Unit × TaskInstance :=
  if leaving = .name false then (.error .noLeavingTransition, s)
  else endWith s event submitVariables signal

mutual

def Call.exec : Call → TaskInstance → Except Exn Unit × TaskInstance
  | .create event, s =>
    if s.create then (.error .alreadyCreated, s) else event.run { s with create := true }
  | .setActorId actorId event, s =>
    event.run { s with previousActorId := s.actorId, actorId := actorId }
  | .start event, s =>
    if s.start then (.error .alreadyStarted, s) else event.run { s with start := true }
  | .suspend, s =>
    if s.isOpen then (.ok (), { s with isSuspended := true }) else (.error .notOpen, s)
  | .resume, s =>
    if s.isOpen then (.ok (), { s with isSuspended := false }) else (.error .notOpen, s)
  | .end_ leaving event submit signal, s =>
    endLeaving s leaving (fun s => event.run s) (fun s => submit.run s) (fun s => signal.run s)
  | .cancel leaving event submit signal, s =>
    endLeaving s.markAsCancelled leaving (fun s => event.run s) (fun s => submit.run s)
      (fun s => signal.run s)
  | .removeSignalling, s => (.ok (), s.stopSignalling)

def Script.run : Script → TaskInstance → Except Exn Unit × TaskInstance
  | .done throws, s => (if throws then .error .callback else .ok (), s)
  | .call c rest, s => rest.run (c.exec s).2

end

/-! ## Agreement of the flags -/

/-- How the flags should agree between two operations. -/
structure Valid : Prop where
  open_iff : s.isOpen = true ↔ s.end_ = false
  cancelled : s.isCancelled = true → s.end_ = true
  suspended : s.isSuspended = true → s.isOpen = true ∧
    (Call.resume.exec s).1 = .ok () ∧ (Call.resume.exec s).2.isSuspended = false
  signalling : s.end_ = true → s.isSignalling = false

/-- What holds of the flags in the middle of an operation as well. -/
structure Agree : Prop where
  open_iff : s.isOpen = true ↔ s.end_ = false
  cancelled : s.isCancelled = true → s.end_ = true
  suspended : s.isSuspended = true → s.isOpen = true

/-- What happens to the flags over a part of an operation: the end of the task instance is
    final, and so is that it was not cancelled; signalling is not turned on, and turned off
    at the end. -/
structure Keeps (s' : TaskInstance) : Prop where
  agree : Agree s'
  ended : s.end_ = true → s'.end_ = true
  notCancelled : s.end_ = true → s.isCancelled = false → s'.isCancelled = false
  signalling : s'.isSignalling = true → s.isSignalling = true
  off : s'.end_ = true → s'.isSignalling = true → s.end_ = true

/-- `end` meets nothing that keeps it from turning signalling off: neither the listeners nor
    the submission of the variables throw.  The last arguments tell whether what these
    and the signal do is safe. -/
def endSafe (leaving : Leaving) (event submit : Script)
    (eventSafe submitSafe signalSafe : TaskInstance → Bool) : Bool :=
  let s₂ := (event.run s.markAsEnded).2
  let s₃ := (submit.run s₂).2
  leaving = .name false || s.end_ || s.isSuspended ||
    ((!s.isSignalling || !event.throws && !submit.throws) && eventSafe s.markAsEnded &&
      (event.throws || submitSafe s₂ &&
        (submit.throws || !s₃.isSignalling || signalSafe s₃.stopSignalling)))

mutual

/-- Every cancellation, also one made on the way, finds the task instance in a state in which
    `end` goes through, or has already cancelled it; and what is called before signalling is
    turned off does not throw. -/
def Call.safe : Call → TaskInstance → Bool
  | .create event, s => s.create || event.safe { s with create := true }
  | .setActorId actorId event, s =>
    event.safe { s with previousActorId := s.actorId, actorId := actorId }
  | .start event, s => s.start || event.safe { s with start := true }
  | .suspend, _ | .resume, _ | .removeSignalling, _ => true
  | .end_ leaving event submit signal, s =>
    endSafe s leaving event submit (fun s => event.safe s) (fun s => submit.safe s)
      (fun s => signal.safe s)
  | .cancel leaving event submit signal, s =>
    (if s.end_ then s.isCancelled else !s.isSuspended && leaving != .name false) &&
      endSafe s.markAsCancelled leaving event submit (fun s => event.safe s)
        (fun s => submit.safe s) (fun s => signal.safe s)

def Script.safe : Script → TaskInstance → Bool
  | .done _, _ => true
  | .call c rest, s => c.safe s && rest.safe (c.exec s).2

end

/-! ## Operations keep the flags in agreement -/

section
variable {s} {s' s'' : TaskInstance}

theorem Keeps.refl (h : Agree s) : Keeps s s := ⟨h, id, fun _ => id, id, fun h _ => h⟩

theorem Keeps.trans (h : Keeps s s') (h' : Keeps s' s'') : Keeps s s'' where
  agree := h'.agree
  ended he := h'.ended (h.ended he)
  notCancelled he hc := h'.notCancelled (h.ended he) (h.notCancelled he hc)
  signalling hs := h.signalling (h'.signalling hs)
  off he hs := h.off (h'.off he hs) (h'.signalling hs)

/-- The dates of creation and start, the actor, and the suspension of an open task instance do
    not matter. -/
theorem Keeps.of_flags (h : Agree s) (he : s'.end_ = s.end_) (hc : s'.isCancelled = s.isCancelled)
    (ho : s'.isOpen = s.isOpen) (hs : s'.isSuspended = true → s'.isOpen = true)
    (hg : s'.isSignalling = s.isSignalling) : Keeps s s' where
  agree := ⟨by rw [ho, he]; exact h.open_iff, by rw [hc, he]; exact h.cancelled, hs⟩
  ended := by rw [he]; exact id
  notCancelled _ := by rw [hc]; exact id
  signalling := by rw [hg]; exact id
  off he' _ := he ▸ he'

theorem Keeps.stopSignalling (h : Agree s) : Keeps s s.stopSignalling :=
  ⟨⟨h.open_iff, h.cancelled, h.suspended⟩, id, fun _ => id, (nomatch ·), fun _ => (nomatch ·)⟩

theorem Valid.agree (h : Valid s) : Agree s :=
  ⟨h.open_iff, h.cancelled, fun hs => (h.suspended hs).1⟩

theorem Script.run_eq (x : Script) (s : TaskInstance) :
    x.run s = (if x.throws then .error .callback else .ok (), (x.run s).2) := by
  match x with
  | .done throws => rfl
  | .call c rest =>
    rw [Script.run, Script.throws]
    exact rest.run_eq _

/-- A script that keeps the flags in agreement where it is safe. -/
def Script.Sound (x : Script) : Prop := ∀ s, x.safe s = true → Agree s → Keeps s (x.run s).2

/-- The end of a task instance that can end, seen from a state `s₀` in which it was not
    marked as cancelled yet. -/
theorem keeps_endWith {s₀ : TaskInstance} {leaving : Leaving} {event submit signal : Script}
    (he : event.Sound) (hb : submit.Sound) (hg : signal.Sound)
    (hend : s.end_ = false) (hsusp : s.isSuspended = false) (hend₀ : s₀.end_ = false)
    (hl : leaving ≠ .name false)
    (hs : endSafe s leaving event submit event.safe submit.safe signal.safe = true) :
    Keeps s₀ (endWith s event.run submit.run signal.run).2 := by
  simp only [endSafe, hl, hend, hsusp, Bool.or_eq_true, Bool.and_eq_true, Bool.not_eq_true',
    decide_false, Bool.or_false, Bool.false_or] at hs
  obtain ⟨⟨hthrows, hes⟩, hrest⟩ := hs
  have hagree : Agree s.markAsEnded := by
    refine ⟨by simp [markAsEnded], fun _ => rfl, fun h => ?_⟩
    rw [markAsEnded, hsusp] at h
    cases h
  have h₁ := he _ hes hagree
  -- what is called in between leaves the task instance ended
  have hfinal {t : TaskInstance} (hk : Keeps s.markAsEnded t) (hoff : t.isSignalling = false) :
      Keeps s₀ t := by
    refine ⟨hk.agree, fun h => ?_, fun h => ?_, fun h => ?_, fun _ h => ?_⟩
    · rw [hend₀] at h
      cases h
    · rw [hend₀] at h
      cases h
    · rw [hoff] at h
      cases h
    · rw [hoff] at h
      cases h
  have hquiet {t : TaskInstance} (hk : Keeps s.markAsEnded t)
      (hx : event.throws = true ∨ submit.throws = true) : t.isSignalling = false := by
    have hsig : s.isSignalling = false := by
      rcases hthrows with h | ⟨he, hb⟩
      · exact h
      · rw [he, hb] at hx
        rcases hx with h | h <;> cases h
    refine Bool.eq_false_iff.2 fun ht => ?_
    have h := hk.signalling ht
    rw [markAsEnded, hsig] at h
    cases h
  rw [endWith, hend, hsusp]
  simp only [Bool.false_eq_true, if_false]
  rw [event.run_eq]
  rcases hev : event.throws with _ | _
  · rw [hev] at hrest
    obtain ⟨hss, hrest⟩ := hrest.resolve_left Bool.false_ne_true
    have h₂ := h₁.trans (hb _ hss h₁.agree)
    simp only [Bool.false_eq_true, if_false]
    rw [submit.run_eq]
    rcases hsb : submit.throws with _ | _
    · simp only [Bool.false_eq_true, if_false]
      split
      · rename_i hon
        rw [hsb, hon] at hrest
        have h₃ : Keeps s.markAsEnded (stopSignalling _) :=
          h₂.trans (.stopSignalling h₂.agree)
        have h₄ := hg _ (by simpa using hrest) h₃.agree
        exact hfinal (h₃.trans h₄) (Bool.eq_false_iff.2 fun ht => nomatch h₄.signalling ht)
      · rename_i hoff
        exact hfinal h₂ (Bool.eq_false_iff.2 hoff)
    · simp only [if_true]
      exact hfinal h₂ (hquiet h₂ (.inr hsb))
  · simp only [if_true]
    exact hfinal h₁ (hquiet h₁ (.inl hev))

theorem keeps_endLeaving {leaving : Leaving} {event submit signal : Script}
    (he : event.Sound) (hb : submit.Sound) (hg : signal.Sound) (h : Agree s)
    (hs : endSafe s leaving event submit event.safe submit.safe signal.safe = true) :
    Keeps s (endLeaving s leaving event.run submit.run signal.run).2 := by
  rw [endLeaving]
  split
  · exact .refl h
  · rename_i hl
    rcases hend : s.end_ with _ | _
    · rcases hsusp : s.isSuspended with _ | _
      · exact keeps_endWith he hb hg hend hsusp hend hl hs
      · rw [endWith, hend, hsusp]
        exact .refl h
    · rw [endWith, hend]
      exact .refl h

/-- Cancelling a task instance that was cancelled before changes nothing. -/
theorem keeps_cancel {leaving : Leaving} {event submit signal : Script}
    (he : event.Sound) (hb : submit.Sound) (hg : signal.Sound) (h : Agree s)
    (hc : if s.end_ then s.isCancelled = true
      else s.isSuspended = false ∧ leaving ≠ .name false)
    (hs : endSafe s.markAsCancelled leaving event submit event.safe submit.safe signal.safe
      = true) :
    Keeps s (endLeaving s.markAsCancelled leaving event.run submit.run signal.run).2 := by
  rcases hend : s.end_ with _ | _
  · rw [hend] at hc
    obtain ⟨hsusp, hl⟩ := hc
    rw [endLeaving, if_neg hl]
    exact keeps_endWith he hb hg hend hsusp hend hl hs
  · rw [hend] at hc
    have hopen : s.isOpen = false := Bool.eq_false_iff.2 fun ho => by
      rw [h.open_iff.1 ho] at hend
      cases hend
    have hsame : s.markAsCancelled = s := by
      rw [markAsCancelled, ← hc, ← hopen]
    rw [hsame, endLeaving, endWith, hend]
    split <;> exact .refl h

mutual

/-- **Step.**  An operation that is safe keeps the flags in agreement. -/
theorem Call.keeps (c : Call) (s : TaskInstance) (hs : c.safe s = true) (h : Agree s) :
    Keeps s (c.exec s).2 := by
  match c with
  | .create event =>
    rw [Call.exec]
    split
    · exact .refl h
    · rename_i hc
      rw [Call.safe, Bool.eq_false_iff.2 hc] at hs
      have hk : Keeps s { s with create := true } := .of_flags h rfl rfl rfl h.suspended rfl
      exact hk.trans (event.sound _ hs hk.agree)
  | .setActorId actorId event =>
    have hk : Keeps s { s with previousActorId := s.actorId, actorId := actorId } :=
      .of_flags h rfl rfl rfl h.suspended rfl
    exact hk.trans (event.sound _ hs hk.agree)
  | .start event =>
    rw [Call.exec]
    split
    · exact .refl h
    · rename_i hc
      rw [Call.safe, Bool.eq_false_iff.2 hc] at hs
      have hk : Keeps s { s with start := true } := .of_flags h rfl rfl rfl h.suspended rfl
      exact hk.trans (event.sound _ hs hk.agree)
  | .suspend =>
    rw [Call.exec]
    split
    · rename_i ho
      exact .of_flags h rfl rfl rfl (fun _ => ho) rfl
    · exact .refl h
  | .resume =>
    rw [Call.exec]
    split
    · exact .of_flags h rfl rfl rfl (nomatch ·) rfl
    · exact .refl h
  | .end_ leaving event submit signal =>
    exact keeps_endLeaving event.sound submit.sound signal.sound h hs
  | .cancel leaving event submit signal =>
    rw [Call.safe, Bool.and_eq_true] at hs
    refine keeps_cancel event.sound submit.sound signal.sound h ?_ hs.2
    rcases hend : s.end_ with _ | _
    · simpa [hend] using hs.1
    · simpa [hend] using hs.1
  | .removeSignalling => exact .stopSignalling h

theorem Script.sound (x : Script) : x.Sound := by
  intro s hs h
  match x with
  | .done _ => exact .refl h
  | .call c rest =>
    rw [Script.safe, Bool.and_eq_true] at hs
    have hc := c.keeps s hs.1 h
    exact hc.trans (rest.sound _ hs.2 hc.agree)

end

theorem Keeps.valid (h : Keeps s s') (hv : Valid s) : Valid s' where
  open_iff := h.agree.open_iff
  cancelled := h.agree.cancelled
  suspended hs := by
    have ho := h.agree.suspended hs
    refine ⟨ho, ?_, ?_⟩ <;> rw [Call.exec, if_pos ho]
  signalling he := Bool.eq_false_iff.2 fun hs => by
    have hend := h.off he hs
    have hoff := hv.signalling hend
    rw [h.signalling hs] at hoff
    cases hoff

end

/-! ## Runs -/

theorem valid_new (isSignalling : Bool) : Valid (new isSignalling) where
  open_iff := iff_of_true rfl rfl
  cancelled h := nomatch h
  suspended h := nomatch h
  signalling h := nomatch h

/-- The operations that are safe in the state they are called in. -/
abbrev SafeRun (s : TaskInstance) (cs : List Call) (s' : TaskInstance) : Prop :=
  Lib.Run (Lib.guard (fun s c => Call.safe c s = true) fun s c s' => s' = (c.exec s).2) s cs s'

theorem SafeRun.keeps {s s' : TaskInstance} {cs : List Call} (h : SafeRun s cs s') (hs : Agree s) :
    Keeps s s' :=
  Lib.Run.inv (I := Keeps s) (.refl hs)
    (fun t c _ ht ⟨hc, he⟩ => he ▸ ht.trans (c.keeps t hc ht.agree)) h

/-- **Life cycle.**  In every state reached the flags agree, and from then on a task instance
    that has ended without being cancelled is never cancelled. -/
theorem valid_of_run {isSignalling : Bool} {cs : List Call} {s : TaskInstance}
    (h : SafeRun (new isSignalling) cs s) :
    Valid s ∧ ∀ cs' s', SafeRun s cs' s' →
      s.end_ = true → s.isCancelled = false → s'.isCancelled = false := by
  have hk := h.keeps (valid_new isSignalling).agree
  exact ⟨hk.valid (valid_new isSignalling), fun _ _ h' => (h'.keeps hk.agree).notCancelled⟩

/-- Assigned, suspended, resumed and ended, with a listener that tries to cancel the cancelled
    task instance again and fails. -/
theorem valid_of_run_cancelled :
    let cs : List Call :=
      [.create (.done false), .setActorId (some "bert") (.done true), .start (.done false),
        .suspend, .resume,
        .cancel .transition
          (.call (.cancel (.name false) (.done false) (.done false) (.done false)) (.done false))
          (.done false) (.done false),
        .end_ .transition (.done false) (.done false) (.done false)]
    let s := cs.foldl (fun s c => (c.exec s).2) (new true)
    s.isCancelled = true ∧ (Valid s ∧ ∀ cs' s', SafeRun s cs' s' →
      s.end_ = true → s.isCancelled = false → s'.isCancelled = false) :=
  ⟨by decide, valid_of_run (Lib.Run.of_allowed (by decide))⟩

/-- A suspended task instance that is cancelled is neither open nor ended, and cannot be
    resumed. -/
theorem not_valid : ¬ Valid (([.create (.done false), .suspend,
    .cancel .transition (.done false) (.done false) (.done false)] : List Call).foldl
      (fun s c => (c.exec s).2) (new true)) := fun h => nomatch h.open_iff.2 rfl

end TaskInstance

end Jbpm
