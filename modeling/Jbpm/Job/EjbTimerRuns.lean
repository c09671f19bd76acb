/-
  Runs with timers in the EJB timer service.

  * `Consistent`: a transaction in progress in which both stores say the same;
  * `mem_completed_foldl`: the jobs that stay when a transaction completes;
  * `Inv.transaction`, `Inv.fire`: the two kinds of steps;
  * `timers_correspond`: the runs in which both stores say the same at the end of every
    transaction.
-/
import Mathlib.Data.List.Perm.Basic
import Jbpm.Job.EjbTimers

namespace Jbpm

open Lib

namespace EjbTimers

variable {W A : Type}

/-! ## A transaction in progress -/

/-- The jobs for which a timer is pending: those that stay, apart from the one that has fired. -/
def pending (fired : Option ℕ) (s : Session A) : List (Timer A) :=
  s.completed.filter fun t => some t.id ≠ fired

/-- The two stores say the same, as far as the transaction has come. -/
structure Consistent (fired : Option ℕ) (s : EjbSession A) : Prop where
  perm : s.timers.Perm ((pending fired s.toSession).map .of)
  nodup : (s.jobs.map Timer.id).Nodup
  id_lt : ∀ t ∈ s.jobs, t.id < s.nextId
  fired_lt : ∀ id, fired = some id → id < s.nextId

theorem foldl_cancelTimers (isMatch : TimerInfo → Bool) (entities : List (Timer A))
    (timers : List EjbTimer) :
    entities.foldl (cancelTimers isMatch) timers = timers.filter fun x =>
      !(entities.any fun t => x.info.timerId = t.id && isMatch x.info) := by
  induction entities generalizing timers with
  | nil => simp
  | cons t entities ih =>
    rw [List.foldl_cons, ih, cancelTimers, List.filter_filter]
    refine List.filter_congr fun x _ => ?_
    rw [List.any_cons, Bool.not_or, Bool.and_comm]

variable {fired : Option ℕ} {s : EjbSession A} {calls : List (Call A)}

/-- The entities whose timers match are found among others. -/
theorem perm_cancel {isMatch : TimerInfo → Bool} {entities : List (Timer A)}
    (h : Consistent fired s) (hfound : ∀ t ∈ s.jobs, isMatch (.of t) → t ∈ entities) :
    (entities.foldl (cancelTimers isMatch) s.timers).Perm
      (((pending fired s.toSession).filter fun t => !isMatch (.of t)).map .of) := by
  rw [foldl_cancelTimers]
  refine (h.perm.filter _).trans (List.Perm.of_eq ?_)
  rw [List.filter_map]
  refine congrArg _ (List.filter_congr fun t ht => ?_)
  have ht' : t ∈ s.jobs := (List.mem_filter.1 (List.mem_filter.1 ht).1).1
  change (!entities.any fun t' => decide (t.id = t'.id) && isMatch (.of t)) = !isMatch (.of t)
  cases hm : isMatch (.of t) with
  | true =>
    have hany : (entities.any fun t' => decide (t.id = t'.id) && true) = true :=
      List.any_eq_true.2 ⟨t, hfound t ht' hm, by simp⟩
    rw [hany]
  | false => simp

theorem matchesName_iff {timerName : Option String} {token : ℕ} {t : Timer A} :
    TimerInfo.matchesName timerName token (.of t) ↔
      t.name.isSome ∧ t.name = timerName ∧ t.token = some token := by
  unfold TimerInfo.matchesName TimerInfo.of
  rw [Bool.and_eq_true, Bool.and_eq_true, and_assoc]
  exact and_congr_right fun _ => and_congr decide_eq_true_iff decide_eq_true_iff

/-- Both sides have the same rule for names. -/
theorem matchesName_eq (timerName : Option String) (token : ℕ) (t : Timer A) :
    (timerName.isSome && t.name = timerName && t.token = some token) =
      TimerInfo.matchesName timerName token (.of t) := by
  rw [Bool.eq_iff_iff, matchesName_iff, Bool.and_eq_true, Bool.and_eq_true, decide_eq_true_iff,
    decide_eq_true_iff, and_assoc]
  refine and_congr_left fun h => ?_
  rw [h.1]

theorem Consistent.deleteTimersByName (h : Consistent fired s) (timerName : Option String)
    (token : ℕ) : Consistent fired (Call.entity s (.deleteTimersByName timerName token)) := by
  refine ⟨?_, ?_, fun t ht => h.id_lt t (List.mem_filter.1 ht).1, h.fired_lt⟩
  · refine (perm_cancel h fun t ht hm => ?_).trans (List.Perm.of_eq (congrArg _ ?_))
    · obtain ⟨-, hname, htoken⟩ := matchesName_iff.1 hm
      split
      · exact List.mem_filter.2 ⟨ht, decide_eq_true htoken⟩
      · exact List.mem_filter.2 ⟨ht, by rw [decide_eq_true htoken, decide_eq_true hname]; rfl⟩
    · simp only [pending, Session.completed, Call.entity, Session.cancelTimersByName,
        matchesName_eq, List.filter_filter]
      refine List.filter_congr fun t _ => ?_
      rw [Bool.and_comm, Bool.and_assoc]
  · exact h.nodup.sublist (List.filter_sublist.map _)

theorem Consistent.deleteTimersByProcessInstance (h : Consistent fired s) (p : ℕ) :
    Consistent fired (Call.entity s (.deleteTimersByProcessInstance p)) := by
  refine ⟨?_, h.nodup, h.id_lt, h.fired_lt⟩
  refine (perm_cancel h fun t ht hm => ?_).trans (List.Perm.of_eq (congrArg _ ?_))
  · exact List.mem_filter.2 ⟨ht, hm⟩
  · simp only [pending, Session.completed, Call.entity, Session.deleteJobsForProcessInstance,
      List.filter_filter, List.all_cons]
    refine List.filter_congr fun t _ => ?_
    have hp : (!TimerInfo.matchesProcessInstance p (.of t)) =
        decide (t.processInstance ≠ some p) := (decide_not).symm
    rw [hp, ← Bool.and_assoc, ← Bool.and_assoc, Bool.and_comm (decide (t.processInstance ≠ some p))]

theorem Consistent.createTimer (h : Consistent fired s) {t : Timer A}
    (hlive : ∀ p ∈ s.deleting, t.processInstance ≠ some p) :
    Consistent fired (Call.entity s (.createTimer t)) := by
  have hfired : some s.nextId ≠ fired := fun heq => absurd (h.fired_lt _ heq.symm) (by omega)
  refine ⟨?_, ?_, ?_, fun id hid => Nat.lt_succ_of_lt (h.fired_lt id hid)⟩
  · have hkeep : (s.deleting.all fun p => t.processInstance ≠ some p) = true :=
      List.all_eq_true.2 fun p hp => decide_eq_true (hlive p hp)
    have hpending : pending fired (Call.entity s (.createTimer t)).toSession =
        pending fired s.toSession ++ [{ t with id := s.nextId }] := by
      simp only [pending, Session.completed, Call.entity, Session.saveJob, List.filter_append]
      refine congrArg _ ?_
      rw [List.filter_filter, List.filter_eq_self]
      intro t' ht'
      rw [List.mem_singleton.1 ht', hkeep, decide_eq_true hfired]
      rfl
    rw [hpending, List.map_append]
    exact h.perm.append_right _
  · change ((s.jobs ++ [{ t with id := s.nextId }]).map Timer.id).Nodup
    rw [List.map_append, List.map_singleton, List.nodup_append_comm, List.singleton_append,
      List.nodup_cons]
    refine ⟨fun hmem => ?_, h.nodup⟩
    obtain ⟨t', ht', heq⟩ := List.mem_map.1 hmem
    exact absurd (h.id_lt t' ht') (by rw [heq]; exact Nat.lt_irrefl _)
  · intro t' ht'
    rcases List.mem_append.1 ht' with ht' | ht'
    · exact Nat.lt_succ_of_lt (h.id_lt t' ht')
    · rw [List.mem_singleton.1 ht']
      exact Nat.lt_succ_self _

theorem Orderly.tail {call : Call A} (h : Orderly (call :: calls)) : Orderly calls := by
  rintro before p after rfl t ht
  exact h (call :: before) p after rfl t ht

/-- A timer is not created for a process instance whose jobs are being deleted. -/
theorem Consistent.foldl (h : Consistent fired s) (hcalls : Orderly calls)
    (hlive : ∀ t, .createTimer t ∈ calls → ∀ p ∈ s.deleting, t.processInstance ≠ some p) :
    Consistent fired (calls.foldl Call.entity s) := by
  induction calls generalizing s with
  | nil => exact h
  | cons call calls ih =>
    have htail : ∀ t, .createTimer t ∈ calls → ∀ p ∈ s.deleting, t.processInstance ≠ some p :=
      fun t ht => hlive t (List.mem_cons_of_mem _ ht)
    cases call with
    | createTimer t =>
      exact ih (h.createTimer (hlive t List.mem_cons_self)) hcalls.tail htail
    | deleteTimersByName timerName token =>
      exact ih (h.deleteTimersByName timerName token) hcalls.tail htail
    | deleteTimersByProcessInstance p =>
      refine ih (h.deleteTimersByProcessInstance p) hcalls.tail fun t ht q hq => ?_
      rcases List.mem_cons.1 hq with rfl | hq
      · exact hcalls [] q calls rfl t ht
      · exact htail t ht q hq

/-- The job session is called in the same way by both services. -/
theorem toSession_foldl (calls : List (Call A)) (s : EjbSession A) :
    (calls.foldl Call.entity s).toSession = calls.foldl Call.db s.toSession := by
  induction calls generalizing s with
  | nil => rfl
  | cons call calls ih =>
    rw [List.foldl_cons, List.foldl_cons, ih]
    cases call <;> rfl

/-! ## Which jobs stay -/

section
variable {s : Session A} {t : Timer A}

theorem mem_completed :
    t ∈ s.completed ↔ t ∈ s.jobs ∧ ∀ p ∈ s.deleting, t.processInstance ≠ some p := by
  rw [Session.completed, List.mem_filter, List.all_eq_true]
  simp only [decide_eq_true_eq]

theorem mem_completed_db (ht : t.id < s.nextId) (call : Call A) :
    t ∈ (Call.db s call).completed ↔ t ∈ s.completed ∧ ¬ call.deletes t := by
  rw [mem_completed, mem_completed]
  cases call with
  | createTimer timer =>
    have hne : t ≠ { timer with id := s.nextId } := fun heq => by
      rw [heq] at ht
      exact absurd ht (Nat.lt_irrefl _)
    simp [Call.db, Session.saveJob, Call.deletes, hne]
  | deleteTimersByName timerName token =>
    have hkeep : t ∈ (s.cancelTimersByName timerName token).jobs ↔
        t ∈ s.jobs ∧ ¬ (Call.deleteTimersByName timerName token).deletes t := by
      rw [Session.cancelTimersByName, List.mem_filter, matchesName_eq, Call.deletes,
        ← matchesName_iff, Bool.not_eq_true', Bool.not_eq_true]
    exact ⟨fun h => ⟨⟨(hkeep.1 h.1).1, h.2⟩, (hkeep.1 h.1).2⟩,
      fun h => ⟨hkeep.2 ⟨h.1.1, h.2⟩, h.1.2⟩⟩
  | deleteTimersByProcessInstance p =>
    simp only [Call.db, Session.deleteJobsForProcessInstance, Call.deletes, List.forall_mem_cons]
    exact ⟨fun h => ⟨⟨h.1, h.2.2⟩, h.2.1⟩, fun h => ⟨h.1.1, h.2, h.1.2⟩⟩

theorem nextId_db (s : Session A) (call : Call A) : s.nextId ≤ (Call.db s call).nextId := by
  cases call with
  | createTimer timer => exact Nat.le_succ _
  | _ => exact Nat.le_refl _

theorem nextId_foldl (s : Session A) (calls : List (Call A)) :
    s.nextId ≤ (calls.foldl Call.db s).nextId := by
  induction calls generalizing s with
  | nil => exact Nat.le_refl _
  | cons call calls ih => exact Nat.le_trans (nextId_db s call) (ih _)

theorem mem_completed_foldl (ht : t.id < s.nextId) (calls : List (Call A)) :
    t ∈ (calls.foldl Call.db s).completed ↔ t ∈ s.completed ∧ ¬ ∃ call ∈ calls, call.deletes t := by
  induction calls generalizing s with
  | nil => simp
  | cons call calls ih =>
    rw [List.foldl_cons, ih (Nat.lt_of_lt_of_le ht (nextId_db s call)), mem_completed_db ht,
      and_assoc, List.exists_mem_cons_iff, not_or]

/-- No job appears with the number of another one. -/
theorem mem_jobs_foldl (ht : t.id < s.nextId) {calls : List (Call A)}
    (h : t ∈ (calls.foldl Call.db s).jobs) : t ∈ s.jobs := by
  induction calls generalizing s with
  | nil => exact h
  | cons call calls ih =>
    have hmem := ih (Nat.lt_of_lt_of_le ht (nextId_db s call)) h
    cases call with
    | createTimer timer =>
      rcases List.mem_append.1 hmem with hmem | hmem
      · exact hmem
      · rw [List.mem_singleton.1 hmem] at ht
        exact absurd ht (Nat.lt_irrefl _)
    | deleteTimersByName timerName token => exact (List.mem_filter.1 hmem).1
    | deleteTimersByProcessInstance p => exact hmem

end

/-! ## A job that is written back -/

section
variable {l : List (Timer A)} {t t' : Timer A}

theorem eq_of_id (h : (l.map Timer.id).Nodup) (ht : t ∈ l) (ht' : t' ∈ l) (hid : t'.id = t.id) :
    t' = t :=
  List.inj_on_of_nodup_map h ht' ht hid

theorem perm_cons_filter (h : (l.map Timer.id).Nodup) (ht : t ∈ l) :
    l.Perm (t :: l.filter (·.id ≠ t.id)) := by
  induction l with
  | nil => cases ht
  | cons a l ih =>
    rw [List.map_cons, List.nodup_cons] at h
    rcases List.mem_cons.1 ht with rfl | hmem
    · have hall : l.filter (·.id ≠ t.id) = l := List.filter_eq_self.2 fun b hb =>
        decide_eq_true fun heq => h.1 (heq ▸ List.mem_map_of_mem hb)
      rw [List.filter_cons_of_neg (by simp), hall]
    · have hne : a.id ≠ t.id := fun heq => h.1 (heq ▸ List.mem_map_of_mem hmem)
      rw [List.filter_cons_of_pos (by simpa using hne)]
      exact ((ih h.2 hmem).cons a).trans (List.Perm.swap ..)

/-- What a job is written back to, in a list of jobs. -/
def replaced (t : Timer A) (l : List (Timer A)) : List (Timer A) :=
  l.map fun a => if a.id = t.id then t else a

theorem perm_replaced (h : (l.map Timer.id).Nodup) (ht : t ∈ l) (hid : t'.id = t.id) :
    (replaced t' l).Perm (t' :: l.filter (·.id ≠ t.id)) := by
  refine ((perm_cons_filter h ht).map _).trans ?_
  rw [List.map_cons, if_pos hid.symm]
  refine List.Perm.of_eq (congrArg _ ?_)
  rw [List.map_congr_left (g := id), List.map_id]
  intro a ha
  have hne := of_decide_eq_true (List.mem_filter.1 ha).2
  rw [if_neg (hid ▸ hne), id]

theorem map_id_replaced (t : Timer A) (l : List (Timer A)) :
    (replaced t l).map Timer.id = l.map Timer.id := by
  rw [replaced, List.map_map]
  refine List.map_congr_left fun a _ => ?_
  rw [Function.comp_apply]
  split
  · next h => exact h.symm
  · rfl

theorem replaced_of_notMem (h : ∀ a ∈ l, a.id ≠ t.id) : replaced t l = l := by
  rw [replaced, List.map_congr_left (g := id), List.map_id]
  intro a ha
  rw [if_neg (h a ha), id]

theorem completed_update {s : Session A} (h : ∀ a ∈ s.jobs, a.id = t.id → a = t)
    (hid : t'.id = t.id) (hp : t'.processInstance = t.processInstance) :
    (s.update t').completed = replaced t' s.completed := by
  rw [Session.completed, Session.update, List.filter_map, replaced, Session.completed]
  refine congrArg _ (List.filter_congr fun a ha => ?_)
  rw [Function.comp_apply]
  split
  · next heq => rw [hp, h a ha (heq.trans hid)]
  · rfl

end

/-! ## The end of a transaction -/

theorem NeverAgain.cons {h : List Event} {ev : Event} (hh : NeverAgain h)
    (hev : ∀ id, ev = .executed id → .deleted id ∉ h ∧ .completed id ∉ h) :
    NeverAgain (ev :: h) := by
  rintro (_ | ⟨ev', later⟩) earlier id heq
  · obtain ⟨rfl, rfl⟩ := List.cons.inj heq
    exact hev id rfl
  · exact hh later earlier id (List.cons.inj heq).2

theorem NeverAgain.deleted {h : List Event} (hh : NeverAgain h) (ids : List ℕ) :
    NeverAgain (ids.map .deleted ++ h) := by
  induction ids with
  | nil => exact hh
  | cons id ids ih => exact ih.cons fun _ heq => nomatch heq

/-- What holds between the steps of a run. -/
structure Inv (s : State W A) (db : Store W A) : Prop extends Corresponds s db where
  id_lt : ∀ t ∈ s.jobs, t.id < s.nextId
  past : ∀ id, .deleted id ∈ s.history ∨ .completed id ∈ s.history →
    id < s.nextId ∧ ∀ t ∈ s.jobs, t.id ≠ id

section
variable {s : State W A} {db : Store W A} {e : EjbSession A} {w : W} {events : List Event}

theorem Inv.commit (h : Inv s db) (hperm : e.timers.Perm (e.completed.map .of))
    (hnodup : (e.completed.map Timer.id).Nodup) (hlt : ∀ t ∈ e.completed, t.id < e.nextId)
    (hnext : s.nextId ≤ e.nextId)
    (hids : ∀ t ∈ e.completed, t.id < s.nextId → t.id ∈ s.jobs.map Timer.id)
    (hnever : NeverAgain (events ++ s.history))
    (hevents : ∀ id, .deleted id ∈ events ∨ .completed id ∈ events →
      id < s.nextId ∧ ∀ t ∈ e.completed, t.id ≠ id) :
    Inv (s.commit e w events) (e.toSession.commit w) := by
  refine ⟨⟨hperm, hnodup, ?_, rfl⟩, hlt, fun id hid => ?_⟩
  · change NeverAgain (_ ++ events ++ s.history)
    rw [List.append_assoc]
    exact hnever.deleted _
  · have hold : .deleted id ∈ s.history ∨ .completed id ∈ s.history →
        id < e.nextId ∧ ∀ t ∈ e.completed, t.id ≠ id := by
      intro hmem
      obtain ⟨hid', hnone⟩ := h.past id hmem
      refine ⟨Nat.lt_of_lt_of_le hid' hnext, fun t ht heq => ?_⟩
      obtain ⟨t', ht', heq'⟩ := List.mem_map.1 (hids t ht (heq ▸ hid'))
      exact hnone t' ht' (heq'.trans heq)
    have hnew : .deleted id ∈ events ∨ .completed id ∈ events →
        id < e.nextId ∧ ∀ t ∈ e.completed, t.id ≠ id := fun hmem =>
      ⟨Nat.lt_of_lt_of_le (hevents id hmem).1 hnext, (hevents id hmem).2⟩
    simp only [State.commit, List.mem_append] at hid
    rcases hid with ((hid | hid) | hid) | ((hid | hid) | hid)
    · obtain ⟨id', hid', heq⟩ := List.mem_map.1 hid
      obtain rfl := Event.deleted.inj heq
      obtain ⟨hjob, hgone⟩ := List.mem_filter.1 hid'
      obtain ⟨t, ht, rfl⟩ := List.mem_map.1 hjob
      refine ⟨Nat.lt_of_lt_of_le (h.id_lt t ht) hnext, fun t' ht' heq' => ?_⟩
      exact of_decide_eq_true hgone (heq' ▸ List.mem_map_of_mem ht')
    · exact hnew (.inl hid)
    · exact hold (.inl hid)
    · obtain ⟨_, _, heq⟩ := List.mem_map.1 hid
      cases heq
    · exact hnew (.inr hid)
    · exact hold (.inr hid)

theorem pending_none (s : Session A) : pending none s = s.completed :=
  List.filter_eq_self.2 fun _ _ => rfl

theorem completed_begin (s : Store W A) : s.begin.completed = s.jobs :=
  List.filter_eq_self.2 fun _ _ => rfl

theorem Inv.begin (h : Inv s db) : Consistent none (s.begin s.timers) := by
  refine ⟨?_, h.nodup, h.id_lt, fun _ hid => (Option.some_ne_none _ hid.symm).elim⟩
  rw [pending_none]
  exact (completed_begin s.toStore).symm ▸ h.perm

/-- A transaction of a client. -/
theorem Inv.transaction (h : Inv s db) (c : Runtime W A) (change : W → W) {calls : List (Call A)}
    {commits : Bool} (hcalls : commits → Orderly calls) :
    Inv (exec c s (.transaction change calls commits))
      (execDb c db (.transaction change calls commits)) := by
  have hdb := h.eq_db
  subst hdb
  have hsession : (calls.foldl Call.entity (s.begin s.timers)).toSession =
      calls.foldl Call.db s.toStore.begin := toSession_foldl ..
  have hnext : s.nextId ≤ (calls.foldl Call.db s.toStore.begin).nextId :=
    nextId_foldl s.toStore.begin calls
  unfold exec execDb
  cases commits with
  | false =>
    simp only [Bool.false_eq_true, if_false, State.rollback]
    rw [← hsession] at hnext ⊢
    refine ⟨⟨h.perm, h.nodup, h.neverAgain, rfl⟩, fun t ht => ?_, fun id hid => ?_⟩
    · exact Nat.lt_of_lt_of_le (h.id_lt t ht) hnext
    · exact ⟨Nat.lt_of_lt_of_le (h.past id hid).1 hnext, (h.past id hid).2⟩
  | true =>
    have he := h.begin.foldl (hcalls rfl) fun _ _ _ hp => nomatch hp
    simp only [if_true]
    rw [← hsession]
    have hsub := List.filter_sublist (l := (calls.foldl Call.entity (s.begin s.timers)).jobs)
      (p := fun t => (calls.foldl Call.entity (s.begin s.timers)).deleting.all
        fun p => t.processInstance ≠ some p)
    refine h.commit ?_ (he.nodup.sublist (hsub.map _)) (fun t ht => he.id_lt t (hsub.subset ht))
      (hsession ▸ hnext) (fun t ht hlt => ?_) h.neverAgain fun _ hid => by simp at hid
    · rw [← pending_none]
      exact he.perm
    · have ht' := hsub.subset ht
      rw [hsession] at ht'
      exact List.mem_map_of_mem (mem_jobs_foldl hlt ht')

/-- A timer that is executed without an exception changes its due date only, if it repeats. -/
theorem outcome_ok {c : Runtime W A} {now : ℕ} {t t' : Timer A} {w : W}
    (h : c.outcome now t w = .ok t') :
    ∃ d, t' = t.due d ∧ (t.repeat_ = none → d = t.dueDate) := by
  unfold Runtime.outcome at h
  split at h
  · cases h
  · unfold Runtime.reschedule at h
    cases hrepeat : t.repeat_ with
    | none =>
      rw [hrepeat] at h
      exact ⟨t.dueDate, (Except.ok.inj h).symm, fun _ => rfl⟩
    | some repeat_ =>
      rw [hrepeat] at h
      dsimp only at h
      split at h
      · cases hd : c.newDuration repeat_ with
        | error e =>
          rw [hd] at h
          cases h
        | ok d =>
          rw [hd] at h
          exact ⟨_, (Except.ok.inj h).symm, fun hnone => nomatch hnone⟩
      · exact ⟨t.dueDate, (Except.ok.inj h).symm, fun hnone => nomatch hnone⟩

/-- The job of a pending timer is there. -/
theorem Inv.getJob (h : Inv s db) {x : EjbTimer} (hx : x ∈ s.timers) :
    ∃ t ∈ s.jobs, s.getJob x.info.timerId = some t ∧ x = .of t := by
  obtain ⟨t, ht, rfl⟩ := List.mem_map.1 (h.perm.mem_iff.1 hx)
  obtain ⟨t', ht'⟩ : ∃ t', s.getJob t.id = some t' :=
    Option.isSome_iff_exists.1 (List.find?_isSome.2 ⟨t, ht, by simp⟩)
  have hid : t'.id = t.id := by simpa using List.find?_some ht'
  obtain rfl := eq_of_id h.nodup ht (List.mem_of_find?_eq_some ht') hid
  exact ⟨t', ht, ht', rfl⟩

/-- When a timer has fired. -/
theorem Inv.erase (h : Inv s db) {t : Timer A} (ht : t ∈ s.jobs) :
    Consistent (some t.id) (s.begin (s.timers.erase (.of t))) := by
  refine ⟨?_, h.nodup, h.id_lt, fun id hid => Option.some_inj.1 hid ▸ h.id_lt t ht⟩
  have hperm : s.timers.Perm (.of t :: (s.jobs.filter (·.id ≠ t.id)).map .of) :=
    h.perm.trans ((perm_cons_filter h.nodup ht).map _)
  have herase := hperm.erase (EjbTimer.of t)
  rw [List.erase_cons_head] at herase
  refine herase.trans (List.Perm.of_eq (congrArg _ ?_))
  rw [pending, show (s.begin (s.timers.erase (.of t))).toSession.completed = s.jobs from
    completed_begin s.toStore]
  exact List.filter_congr fun a _ => by simp

/-- A timer that repeats is in both stores again; one that does not is in neither. -/
theorem timers_after {t t' : Timer A} {e : EjbSession A} (he : Consistent (some t.id) e)
    (hown : ∀ a ∈ e.jobs, a.id = t.id → a = t) {d : ℕ} (ht' : t' = t.due d)
    (hstays : t ∈ e.completed ↔ t.repeat_ ≠ none) :
    (if t'.repeat_.isSome then e.timers ++ [.of t'] else e.timers).Perm
      ((e.update t').completed.map .of) := by
  subst ht'
  have hupdate : (e.update (t.due d)).completed = replaced (t.due d) e.completed :=
    completed_update hown rfl rfl
  rw [hupdate, show (t.due d).repeat_ = t.repeat_ from rfl]
  have hnodup : (e.completed.map Timer.id).Nodup :=
    he.nodup.sublist (List.filter_sublist.map _)
  have hpending : pending (some t.id) e.toSession = e.completed.filter (·.id ≠ t.id) :=
    List.filter_congr fun a _ => by simp
  have hperm := he.perm
  rw [hpending] at hperm
  cases hrepeat : t.repeat_ with
  | none =>
    have hnone : ∀ a ∈ e.completed, a.id ≠ t.id := fun a ha hid =>
      hstays.1 (hown a (mem_completed.1 ha).1 hid ▸ ha) hrepeat
    rw [List.filter_eq_self.2 fun a ha => decide_eq_true (hnone a ha)] at hperm
    have hsame : replaced (t.due d) e.completed = e.completed := replaced_of_notMem hnone
    rw [hsame]
    exact hperm
  | some repeat_ =>
    have hmem : t ∈ e.completed := hstays.2 (by rw [hrepeat]; exact Option.some_ne_none _)
    have hreplaced : (replaced (t.due d) e.completed).Perm _ := perm_replaced hnodup hmem rfl
    exact ((hperm.append_right _).trans (List.perm_append_singleton ..)).trans
      (hreplaced.map _).symm

/-- The job executor deletes what is gone, or writes the same back. -/
theorem commit_executed {t t' : Timer A} {session : Session A} (w : W)
    (hown : ∀ a ∈ session.jobs, a.id = t.id → a = t) {d : ℕ} (ht' : t' = t.due d)
    (hstays : t ∈ session.completed ↔ t.repeat_ ≠ none) :
    (if t.repeat_.isNone then (session.deleteJob t.id).commit w
      else (session.update t').commit w) = (session.update t').commit w := by
  subst ht'
  split
  · next hnone =>
    have hgone : ∀ a ∈ session.completed, a.id ≠ t.id := fun a ha hid =>
      hstays.1 (hown a (mem_completed.1 ha).1 hid ▸ ha) (Option.isNone_iff_eq_none.1 hnone)
    have hupdate : (session.update (t.due d)).completed = replaced (t.due d) session.completed :=
      completed_update hown rfl rfl
    have hsame : replaced (t.due d) session.completed = session.completed :=
      replaced_of_notMem hgone
    have hdelete : (session.deleteJob t.id).completed = session.completed := by
      rw [Session.completed, Session.deleteJob, List.filter_comm]
      exact List.filter_eq_self.2 fun a ha => decide_eq_true (hgone a ha)
    rw [Session.commit, Session.commit, hupdate, hsame, hdelete]
    rfl
  · rfl

/-- A pending timer fires. -/
theorem Inv.fire (h : Inv s db) {c : Runtime W A} {x : EjbTimer} (hx : x ∈ s.timers) {now : ℕ}
    (hfine : Fine c s (.fire x now)) :
    Inv (exec c s (.fire x now)) (execDb c db (.fire x now)) := by
  have hdb := h.eq_db
  subst hdb
  obtain ⟨t, ht, hget, rfl⟩ := h.getJob hx
  obtain ⟨horderly, ⟨t', hok⟩, hdeletes⟩ := hfine t hget
  obtain ⟨d, ht', -⟩ := outcome_ok hok
  have hid : t.id < s.nextId := h.id_lt t ht
  obtain ⟨e, hedef⟩ : ∃ e, e = (c.execute now t s.world).calls.foldl Call.entity
    (s.begin (s.timers.erase (.of t))) := ⟨_, rfl⟩
  have hsession : (c.execute now t s.world).calls.foldl Call.db s.toStore.begin = e.toSession := by
    rw [hedef]
    exact (toSession_foldl (c.execute now t s.world).calls
      (s.begin (s.timers.erase (.of t)))).symm
  have he : Consistent (some t.id) e := by
    rw [hedef]
    exact (h.erase ht).foldl horderly fun _ _ _ hp => nomatch hp
  have hold : ∀ a ∈ e.jobs, a.id < s.nextId → a ∈ s.jobs := fun a ha hlt => by
    rw [← hsession] at ha
    exact mem_jobs_foldl hlt ha
  have hown : ∀ a ∈ e.jobs, a.id = t.id → a = t := fun a ha heq =>
    eq_of_id h.nodup ht (hold a ha (heq ▸ hid)) heq
  have hstays : t ∈ e.completed ↔ t.repeat_ ≠ none := by
    rw [← hsession, mem_completed_foldl hid, completed_begin]
    exact (and_iff_right ht).trans (not_congr hdeletes)
  have hexec : exec c s (.fire (.of t) now) = s.commit ⟨e.update t',
      if t'.repeat_.isSome then e.timers ++ [.of t'] else e.timers⟩ (c.execute now t s.world).world
        ((if t'.repeat_.isSome then [] else [.completed t.id]) ++ [.executed t.id]) := by
    unfold exec
    dsimp only
    unfold ejbTimeout
    rw [hget, hedef]
    dsimp only
    rw [hok]
  have hexecDb : execDb c s.toStore (.fire (.of t) now) =
      (e.update t').commit (c.execute now t s.world).world := by
    unfold execDb
    dsimp only
    unfold executeJob
    rw [hget]
    dsimp only
    rw [hok, hsession]
    exact commit_executed _ hown ht' hstays
  rw [hexec, hexecDb]
  have hupdate : (e.update t').completed = replaced t' e.completed :=
    completed_update hown (by rw [ht']; rfl) (by rw [ht']; rfl)
  have hids : (e.update t').completed.map Timer.id = e.completed.map Timer.id := by
    rw [hupdate, map_id_replaced]
  have hmem : ∀ a ∈ (e.update t').completed, ∃ b ∈ e.completed, b.id = a.id := fun a ha => by
    rw [← List.mem_map, ← hids]
    exact List.mem_map_of_mem ha
  have hsub : e.completed.Sublist e.jobs := List.filter_sublist
  have hpast : .deleted t.id ∉ s.history ∧ .completed t.id ∉ s.history :=
    ⟨fun hin => (h.past t.id (.inl hin)).2 t ht rfl, fun hin => (h.past t.id (.inr hin)).2 t ht rfl⟩
  have hrepeat : t'.repeat_ = t.repeat_ := by rw [ht']; rfl
  refine h.commit (timers_after he hown ht' hstays) ?_ (fun a ha => ?_) ?_ (fun a ha hlt => ?_)
    ?_ ?_
  · rw [hids]
    exact he.nodup.sublist (hsub.map _)
  · obtain ⟨b, hb, heq⟩ := hmem a ha
    exact heq ▸ he.id_lt b (hsub.subset hb)
  · have hnext := nextId_foldl s.toStore.begin (c.execute now t s.world).calls
    rwa [hsession] at hnext
  · obtain ⟨b, hb, heq⟩ := hmem a ha
    rw [← heq] at hlt ⊢
    exact List.mem_map_of_mem (hold b (hsub.subset hb) hlt)
  · have hexecuted : NeverAgain (.executed t.id :: s.history) :=
      h.neverAgain.cons fun id hid' => Event.executed.inj hid' ▸ hpast
    split
    · exact hexecuted
    · exact hexecuted.cons fun _ hid' => nomatch hid'
  · intro id hid'
    split at hid'
    · simp at hid'
    · next hnone =>
      simp only [List.mem_append, List.mem_singleton, reduceCtorEq, or_self, false_or, or_false,
        Event.completed.injEq] at hid'
      subst hid'
      refine ⟨hid, fun a ha heq => ?_⟩
      obtain ⟨b, hb, heq'⟩ := hmem a ha
      have hbt := hown b (hsub.subset hb) (heq'.trans heq)
      refine hstays.1 (hbt ▸ hb) ?_
      rwa [hrepeat, Option.not_isSome_iff_eq_none] at hnone

theorem Inv.next (h : Inv s db) {c : Runtime W A} {l : Step W A} {s' : State W A}
    (hfine : Fine c s l) (hnext : Next c s l s') : Inv s' (execDb c db l) := by
  rw [hnext.2]
  cases l with
  | transaction change calls commits => exact h.transaction c change hfine
  | fire x now => exact h.fire hnext.1 hfine

end

theorem inv_initial (w : W) (nextId : ℕ) : Inv (initial (A := A) w nextId) ⟨w, [], nextId⟩ where
  perm := .nil
  nodup := List.nodup_nil
  neverAgain := fun later earlier id heq => by simp [initial] at heq
  eq_db := rfl
  id_lt := fun _ ht => nomatch ht
  past := fun _ hid => by simp [initial] at hid

/-- In the runs in which no timer is created for a process instance whose timers have been deleted
    before, every execution succeeds, and just the timers that do not repeat delete themselves. -/
theorem timers_correspond (c : Runtime W A) {w : W} {nextId : ℕ} {steps : List (Step W A)}
    {s : State W A} (h : Run (guard (Fine c) (Next c)) (initial w nextId) steps s) :
    Corresponds s (steps.foldl (execDb c) ⟨w, [], nextId⟩) := by
  suffices Inv s (steps.foldl (execDb c) ⟨w, [], nextId⟩) from this.toCorresponds
  induction h with
  | nil => exact inv_initial w nextId
  | snoc _ hl ih =>
    rw [List.foldl_append]
    exact ih.next hl.1 hl.2

section

def reminder : Timer Unit := ⟨0, some "reminder", none, some 1, some 1, 100, none, 1, ()⟩

/-- All timers make the same calls. -/
def calling (calls : List (Call Unit)) : Runtime Unit Unit :=
  ⟨fun _ _ _ => ⟨(), calls, none⟩, .error⟩

def reminded : List (Step Unit Unit) :=
  [.transaction id [.createTimer reminder] true, .fire (.of { reminder with id := 1 }) 200]

/-- The reminder is cancelled when its token leaves the node. -/
theorem timers_correspond_reminder :
    Corresponds (reminded.foldl (exec (calling [.deleteTimersByName (some "reminder") 1]))
        (initial () 1))
      (reminded.foldl (execDb (calling [.deleteTimersByName (some "reminder") 1]))
        ⟨(), [], 1⟩) := by
  refine timers_correspond _ (Run.guard_of_allowed ⟨⟨?_, trivial⟩, ⟨?_, ?_⟩, trivial⟩)
  · rintro - before p after heq
    cases before <;> simp at heq
  · intro timer htimer
    obtain rfl : { reminder with id := 1 } = timer := Option.some_inj.1 htimer
    refine ⟨fun before p after heq => ?_, ⟨_, rfl⟩, iff_of_true ?_ rfl⟩
    · cases before <;> simp [calling] at heq
    · exact ⟨_, List.mem_singleton_self _, rfl, rfl, rfl⟩
  · exact List.mem_singleton_self _

/-- The job of a reminder that is not cancelled stays when it has been executed. -/
theorem executed_stays : ∃ s : State Unit Unit,
    Run (Next (calling [])) (initial () 1) reminded s ∧ ∀ db, ¬ Corresponds s db := by
  refine ⟨_, Run.of_allowed ⟨trivial, List.mem_singleton_self _, trivial⟩, fun db h => ?_⟩
  exact absurd h.perm.length_eq (by decide)

end

end EjbTimers

end Jbpm
