/-
  Exclusive jobs.  A thread that acquires an exclusive job locks, in the same
  transaction, the exclusive jobs of the process instance that it may acquire; it
  does not see those that are locked by others.

  * `HeldOnce`: the exclusive jobs of a process instance have one owner;
  * `SeesAll`: an acquisition leaves out no job that somebody else holds;
  * `exclusive_jobs`: runs of such acquisitions, and what becomes of the others.
-/
import Mathlib.Algebra.GroupWithZero.Nat
import Jbpm.Job.JobExecutorInvariant

namespace Jbpm

open Lib Lib.Optimistic

namespace JobExecutor

variable {E M : Type} {c : Config E} {s : State E M}

/-- No two exclusive jobs of a process instance are locked by different owners. -/
def HeldOnce (t : ℕ → Option Job) : Prop :=
  ∀ k k', ∀ r ∈ t k, ∀ r' ∈ t k', r.isExclusive = true → r'.isExclusive = true →
    r.processInstance.isSome = true → r.processInstance = r'.processInstance →
    ∀ o ∈ r.lockOwner, ∀ o' ∈ r'.lockOwner, o = o'

/-- The session changes the row. -/
def Writes (es : List (Entity Job)) (k : ℕ) : Prop :=
  ∃ x ∈ es, x.current ≠ some x.loaded ∧ x.loaded.id = k

/-- When an exclusive job is locked, the exclusive jobs of its process instance
    that are not locked with it are in no other hands. -/
def SeesAll (c : Config E) (s : State E M) : Step E M → Prop
  | .commitAcquisition e => ∀ es, s.phase e = .acquiring es → ∀ x ∈ es,
      x.current ≠ some x.loaded → x.loaded.isExclusive = true →
      x.loaded.processInstance.isSome = true → ∀ k, ∀ r ∈ s.jobs k, ¬ Writes es k →
      r.isExclusive = true → r.processInstance = x.loaded.processInstance →
      ∀ o ∈ r.lockOwner, o = c.getName e
  | _ => True

/-! ## Steps that take no lock -/

/-- The two rows are alike in exclusiveness, process instance and lock. -/
def LikeLocked (r r' : Job) : Prop :=
  r.isExclusive = r'.isExclusive ∧ r.processInstance = r'.processInstance ∧
    r.lockOwner = r'.lockOwner

theorem SameRow.likeLocked {j r : Job} (h : SameRow j r) : LikeLocked j r :=
  ⟨h.isExclusive, h.processInstance, h.lockOwner⟩

theorem LikeLocked.symm {r r' : Job} (h : LikeLocked r r') : LikeLocked r' r :=
  ⟨h.1.symm, h.2.1.symm, h.2.2.symm⟩

theorem LikeLocked.trans {r r' r'' : Job} (h : LikeLocked r r') (h' : LikeLocked r' r'') :
    LikeLocked r r'' :=
  ⟨h.1.trans h'.1, h.2.1.trans h'.2.1, h.2.2.trans h'.2.2⟩

/-- Locked rows that are like locked rows before. -/
theorem HeldOnce.mono {t t' : ℕ → Option Job} (h : HeldOnce t)
    (ht : ∀ k, ∀ r' ∈ t' k, r'.lockOwner = none ∨ ∃ k₀, ∃ r ∈ t k₀, LikeLocked r r') :
    HeldOnce t' := by
  intro k k' r hr r' hr' hx hx' hp hpp o ho o' ho'
  rcases ht k r hr with hn | ⟨k₁, r₁, hr₁, hl₁⟩
  · rw [hn] at ho
    cases ho
  rcases ht k' r' hr' with hn | ⟨k₂, r₂, hr₂, hl₂⟩
  · rw [hn] at ho'
    cases ho'
  exact h k₁ k₂ r₁ hr₁ r₂ hr₂ (hl₁.1.trans hx) (hl₂.1.trans hx') (hl₁.2.1 ▸ hp)
    (hl₁.2.1.trans (hpp.trans hl₂.2.1.symm)) o (hl₁.2.2 ▸ ho) o' (hl₂.2.2 ▸ ho')

theorem executed_likeLocked {now : ℕ} {o : Outcome} {j j' : Job} (h : j' ∈ c.executed now o j) :
    LikeLocked j j' := by
  unfold Config.executed at h
  split at h
  · cases h
  · split at h
    · split at h <;> cases h
      exact ⟨rfl, rfl, rfl⟩
    · cases h
      exact ⟨rfl, rfl, rfl⟩

theorem bump_likeLocked (j : Job) : LikeLocked j (Row.bump j) := ⟨rfl, rfl, rfl⟩

/-- What an execution writes was locked by the same owner before. -/
theorem HeldOnce.flush {t t' : ℕ → Option Job} (h : HeldOnce t) {now : ℕ} {o : Outcome} {j : Job}
    (hu : UpToDate SameRow t j) (hf : flush t (c.executedEntity now o j) = some t') :
    HeldOnce t' := by
  rcases flush_eq_some hf with ⟨-, rfl⟩ | ⟨-, r, hr, hv, rfl⟩
  · exact h
  refine h.mono fun k r' hr' => .inr ?_
  by_cases hk : k = Row.key (c.executedEntity now o j).loaded
  · subst hk
    rw [Function.update_self, Option.mem_def, Option.map_eq_some_iff] at hr'
    obtain ⟨j', hj', rfl⟩ := hr'
    have hs : SameRow j r := (hu r hr).2 hv.symm
    exact ⟨_, r, hr, hs.likeLocked.symm.trans
      ((executed_likeLocked hj').trans (bump_likeLocked j'))⟩
  · rw [Function.update_of_ne hk] at hr'
    exact ⟨k, r', hr', rfl, rfl, rfl⟩

theorem HeldOnce.cancel (h : HeldOnce s.jobs) (p : Job → Bool) : HeldOnce (s.cancel p).jobs :=
  h.mono fun k r' hr' => .inr ⟨k, r', (Option.filter_eq_some_iff.mp hr').1, rfl, rfl, rfl⟩

theorem HeldOnce.setSuspended (h : HeldOnce s.jobs) (token : ℕ) (b : Bool) :
    HeldOnce (s.setSuspended token b).jobs := by
  refine h.mono fun k r' hr' => .inr ?_
  obtain ⟨r, hr, rfl⟩ := Option.map_eq_some_iff.mp hr'
  refine ⟨k, r, hr, ?_⟩
  split <;> exact ⟨rfl, rfl, rfl⟩

theorem HeldOnce.create (h : HeldOnce s.jobs) (kind : Job.Kind) (dueDate : ℕ)
    (processInstance token : Option ℕ) (isExclusive : Bool) :
    HeldOnce (s.create kind dueDate processInstance token isExclusive).jobs := by
  refine h.mono fun k r' hr' => ?_
  simp only [State.create] at hr'
  by_cases hk : k = s.nextId
  · subst hk
    rw [Function.update_self] at hr'
    cases hr'
    exact .inl rfl
  · rw [Function.update_of_ne hk] at hr'
    exact .inr ⟨k, r', hr', rfl, rfl, rfl⟩

theorem HeldOnce.unlock {t t' : ℕ → Option Job} (h : HeldOnce t) {es : List (Entity Job)}
    (hes : ∀ x ∈ es, x.current = some x.loaded.unlock) (hf : flushAll t es = some t') :
    HeldOnce t' := by
  refine h.mono fun k r' hr' => ?_
  rcases flushAll_get hf hr' with hr | ⟨x, hx, -, -, j, hj, rfl⟩
  · exact .inr ⟨k, r', hr, rfl, rfl, rfl⟩
  · rw [hes x hx] at hj
    cases hj
    exact .inl rfl

/-! ## Acquisitions -/

/-- Before an acquisition all is well; then all is well after it exactly if it
    has left out no job that somebody else holds. -/
theorem heldOnce_acquisition_iff (hi : Inv c s) (h : HeldOnce s.jobs) {e : E}
    {es : List (Entity Job)} (hp : s.phase e = .acquiring es) {t : ℕ → Option Job}
    (hf : flushAll s.jobs es = some t) :
    HeldOnce t ↔ SeesAll c s (.commitAcquisition e) := by
  have ho := hi.phase e
  rw [hp] at ho
  obtain ⟨hn, hes⟩ := ho
  constructor
  · intro ht es' hp' x hx hd hex hpi k r hr hw hrx hrp o hro
    cases hp.symm.trans hp'
    obtain ⟨-, t', hc⟩ := hes x hx
    have hxt := flushAll_written hf hn hx hd
    rw [hc] at hxt
    have hrt : t k = some r := by
      rw [flushAll_of_unchanged hf fun y hy hyd hyk => hw ⟨y, hy, hyd, hyk⟩]
      exact hr
    exact ht k _ r hrt _ hxt hrx hex (hrp ▸ hpi) hrp o hro _ rfl
  · intro hsee k k' r hr r' hr' hrx hrx' hpi hpp o ho o' ho'
    have hold : ∀ k, ∀ r ∈ t k, ¬ Writes es k → r ∈ s.jobs k := by
      intro k r hr hw
      rw [flushAll_of_unchanged hf fun y hy hyd hyk => hw ⟨y, hy, hyd, hyk⟩] at hr
      exact hr
    have hnew : ∀ k, ∀ r ∈ t k, Writes es k → ∃ x ∈ es, x.current ≠ some x.loaded ∧
        x.loaded.isExclusive = r.isExclusive ∧ x.loaded.processInstance = r.processInstance ∧
        r.lockOwner = some (c.getName e) := by
      rintro k r hr ⟨x, hx, hd, rfl⟩
      obtain ⟨-, t', hc⟩ := hes x hx
      have hxt := flushAll_written hf hn hx hd
      rw [hc] at hxt
      cases Option.mem_unique hr hxt
      exact ⟨x, hx, hd, rfl, rfl, rfl⟩
    by_cases hw : Writes es k <;> by_cases hw' : Writes es k'
    · obtain ⟨-, -, -, -, -, hl⟩ := hnew k r hr hw
      obtain ⟨-, -, -, -, -, hl'⟩ := hnew k' r' hr' hw'
      rw [hl] at ho
      rw [hl'] at ho'
      cases ho
      cases ho'
      rfl
    · obtain ⟨x, hx, hd, hex, hpx, hl⟩ := hnew k r hr hw
      rw [hl] at ho
      cases ho
      exact (hsee es hp x hx hd (hex.trans hrx) (hpx ▸ hpi) k' r' (hold k' r' hr' hw') hw' hrx'
        (hpp.symm.trans hpx.symm) o' ho').symm
    · obtain ⟨x, hx, hd, hex, hpx, hl⟩ := hnew k' r' hr' hw'
      rw [hl] at ho'
      cases ho'
      exact hsee es hp x hx hd (hex.trans hrx') (by rw [hpx, ← hpp]; exact hpi) k r
        (hold k r hr hw) hw hrx (hpp.trans hpx.symm) o ho
    · exact h k k' r (hold k r hr hw) r' (hold k' r' hr' hw') hrx hrx' hpi hpp o ho o' ho'

variable [DecidableEq E] [DecidableEq M]

theorem HeldOnce.step (hi : Inv c s) (h : HeldOnce s.jobs) {l : Step E M} (hs : SeesAll c s l) :
    HeldOnce (s.step c l).jobs := by
  cases l with
  | tick e t => exact h
  | getFirstAcquirableJob e job => exact h
  | findExclusiveJobs e js =>
    simp only [State.step]
    split <;> exact h
  | commitAcquisition e =>
    simp only [State.step]
    split
    · rename_i es hp
      unfold State.commitAcquisition
      split
      · rename_i t hf
        exact (heldOnce_acquisition_iff hi h hp hf).mpr hs
      · exact h
    · exact h
  | load e =>
    simp only [State.step, State.load]
    split
    · split <;> exact h
    · exact h
  | commitExecution e o =>
    simp only [State.step]
    split
    · rename_i job since js hp
      have hu := hi.read e
      rw [hp] at hu
      simp only [State.commitExecution]
      split
      · exact h
      · split
        · rename_i t hf
          exact h.flush (hu job (.head _)).2 hf
        · exact h
    · exact h
  | abandon e => exact h
  | findOverdueJobs m treshold js => exact h
  | commitUnlock m =>
    simp only [State.step]
    split
    · rename_i es hm
      unfold State.commitUnlock
      split
      · rename_i t hf
        exact h.unlock (fun x hx => (hi.monitor m es hm x hx).1) hf
      · exact h
    · exact h
  | abandonUnlock m => exact h
  | create kind dueDate processInstance token isExclusive =>
    exact h.create kind dueDate processInstance token isExclusive
  | suspendJobs token => exact h.setSuspended token true
  | resumeJobs token => exact h.setSuspended token false
  | cancelTimersByName name token => exact h.cancel _
  | deleteJobsForProcessInstance processInstance => exact h.cancel _

/-- **Exclusive jobs.**  In every run whose acquisitions leave out no job that
    somebody else holds, the exclusive jobs of a process instance have one owner;
    after any run, an acquisition that leaves one out gives them two. -/
theorem exclusive_jobs {s₀ : State E M} (h₀ : Initial s₀) (hs : HeldOnce s₀.jobs) :
    (∀ ls s, Run (guard (SeesAll c) (Steps c)) s₀ ls s → HeldOnce s.jobs) ∧
    ∀ ls s e es t, Run (Steps c) s₀ ls s → HeldOnce s.jobs → s.phase e = .acquiring es →
      flushAll s.jobs es = some t → (HeldOnce t ↔ SeesAll c s (.commitAcquisition e)) := by
  constructor
  · intro ls s hr
    have : Inv c s ∧ HeldOnce s.jobs := by
      refine hr.inv (I := fun s => Inv c s ∧ HeldOnce s.jobs) ⟨h₀.inv, hs⟩ fun s l s' h hl => ?_
      obtain ⟨hsee, hl, rfl⟩ := hl
      exact ⟨h.1.step hl, h.2.step h.1 hsee⟩
    exact this.2
  · intro ls s e es t hr h hp hf
    exact heldOnce_acquisition_iff (inv_of_run h₀ hr) h hp hf

/-! ## Two threads -/

theorem neZero_two : NeZero 2 := ⟨by decide⟩

attribute [local instance] neZero_two

/-- Two threads of one host; the mapping lacks the query of the lock monitor. -/
def twoThreads : Config (Fin 2) where
  getName e := if e = 0 then "JbpmJobExecutor:10.0.0.1:1" else "JbpmJobExecutor:10.0.0.1:2"
  maxLockTime := 600000
  newDuration _ := none
  findJobsWithOverdueLockTime := none

/-- An exclusive job of the process instance 7. -/
def exclusiveJob (id : ℕ) : Job := .created id .executeNode 0 (some 7) (some 7) true

def createExclusive : Step (Fin 2) Unit := .create .executeNode 0 (some 7) (some 7) true

/-- The second thread acquires a job that was created after the first one has
    acquired its own. -/
def createdLater : List (Step (Fin 2) Unit) :=
  [createExclusive, .getFirstAcquirableJob 0 (exclusiveJob 0),
    .findExclusiveJobs 0 [exclusiveJob 0], .commitAcquisition 0,
    createExclusive, .getFirstAcquirableJob 1 (exclusiveJob 1),
    .findExclusiveJobs 1 [exclusiveJob 1], .commitAcquisition 1]

theorem run_createdLater :
    Run (Steps twoThreads) .empty createdLater
      (createdLater.foldl (fun s l => s.step twoThreads l) .empty) := by
  have h : Allowed (fun s l => State.Legal s twoThreads l) (fun s l => State.step s twoThreads l)
      .empty createdLater :=
    ⟨trivial, ⟨trivial, rfl, by decide, by decide⟩, ⟨by decide, by decide⟩, trivial,
      trivial, ⟨trivial, rfl, by decide, by decide⟩, ⟨by decide, by decide⟩, trivial, trivial⟩
  exact Run.of_allowed h

/-- The two jobs of the process instance are locked by both threads. -/
theorem not_heldOnce :
    ∃ ls s, Run (Steps twoThreads) (.empty : State (Fin 2) Unit) ls s ∧ ¬ HeldOnce s.jobs := by
  refine ⟨_, _, run_createdLater, fun h => ?_⟩
  have := h 0 1 (Row.bump ((exclusiveJob 0).lock "JbpmJobExecutor:10.0.0.1:1" 0)) rfl
    (Row.bump ((exclusiveJob 1).lock "JbpmJobExecutor:10.0.0.1:2" 0)) rfl rfl rfl rfl rfl _ rfl _ rfl
  exact absurd this (by decide)

/-- The first thread alone. -/
def createdFirst : List (Step (Fin 2) Unit) :=
  [createExclusive, .getFirstAcquirableJob 0 (exclusiveJob 0),
    .findExclusiveJobs 0 [exclusiveJob 0], .commitAcquisition 0]

theorem run_createdFirst :
    Run (guard (SeesAll twoThreads) (Steps twoThreads)) .empty createdFirst
      (createdFirst.foldl (fun s l => s.step twoThreads l) .empty) := by
  have hunlocked : ∀ (k : ℕ), ∀ r ∈ ((createdFirst.take 3).foldl (fun s l => s.step twoThreads l)
      (.empty : State (Fin 2) Unit)).jobs k, ∀ o ∈ r.lockOwner, o = twoThreads.getName 0 := by
    rintro (_ | k) r hr o ho
    · cases hr
      cases ho
    · cases hr
  have h : Allowed (fun s l => SeesAll twoThreads s l ∧ State.Legal s twoThreads l)
      (fun s l => State.step s twoThreads l) .empty createdFirst :=
    ⟨⟨trivial, trivial⟩, ⟨trivial, trivial, rfl, by decide, by decide⟩,
      ⟨trivial, by decide, by decide⟩,
      ⟨fun _ _ _ _ _ _ _ k r hr _ _ _ => hunlocked k r hr, trivial⟩, trivial⟩
  exact Run.guard_of_allowed h

theorem exclusive_jobs_createdFirst :
    HeldOnce (createdFirst.foldl (fun s l => s.step twoThreads l)
      (.empty : State (Fin 2) Unit)).jobs :=
  (exclusive_jobs initial_empty (by rintro k k' r ⟨⟩)).1 _ _ run_createdFirst

end JobExecutor

end Jbpm
