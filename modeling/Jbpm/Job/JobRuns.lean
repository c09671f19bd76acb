/-
  What runs of the job executors do with a job.  An executor loads a job again by
  its number before it executes it, and looks neither at the owner of the lock nor
  at the due date or the retries of what it has loaded.

  * `Undisturbed`: the job is loaded as it was acquired, and a failed execution
    leaves nothing behind;
  * `Once`: what the history of undisturbed runs looks like;
  * `once_of_undisturbed`: the theorem;
  * `not_once`: two threads of one name.
-/
import Mathlib.Data.List.Nodup
import Jbpm.Job.ExclusiveJobs

namespace Jbpm

open Lib Lib.Optimistic

/-- A timer with a repeat. -/
def Job.isRepeating (j : Job) : Bool :=
  match j.kind with
  | .timer _ (some _) _ => true
  | _ => false

namespace JobExecutor

variable {E M : Type} {c : Config E} {s : State E M}

/-- The step does not meet a job that was changed since its acquisition; and if an
    execution throws and is committed, then it has had no effects. -/
def Undisturbed (c : Config E) (s : State E M) : Step E M → Prop
  | .load e => ∀ job js, s.phase e = .acquired (job :: js) → ∀ r ∈ s.jobs job.id,
      r.version = job.version
  | .commitExecution e o => ∀ job since js, s.phase e = .executing job since js →
      c.lockedTooLong (s.clock e) job = false → o.succeeded = false → o.hasEffects = false
  | _ => True

/-- An event may come after an earlier one: nothing is committed of a job that was
    cancelled, and effects of a job are followed by effects of the same job only if
    it is a repeating timer, at a later due date. -/
def Event.After : Event E → Event E → Prop
  | .executed _ job _ _, .cancelled id => job.id ≠ id
  | .executed _ job _ o, .executed _ job' _ o' =>
    job'.id = job.id → o'.hasEffects = true → o.hasEffects = true →
      job'.isRepeating = true ∧ job'.dueDate < job.dueDate
  | _, _ => True

/-- Every execution that is committed was made by a thread that held the lock when
    it loaded the job, at or after the due date; jobs have effects once, or once
    per due date, and none after they are cancelled; and no job is tried that has
    no retries left. -/
structure Once (c : Config E) (h : List (Event E)) : Prop where
  held : ∀ e job since o, .executed e job since o ∈ h →
    job.lockOwner = some (c.getName e) ∧ job.dueDate ≤ since
  effects : h.Pairwise Event.After
  retries : ∀ e job, .loaded e job ∈ h → 0 < job.retries

/-- Together with what the table says about the jobs of the history. -/
structure OnceInv (c : Config E) (s : State E M) : Prop where
  inv : Inv c s
  once : Once c s.history
  executing : ∀ e job since js, s.phase e = .executing job since js →
    Held (c.getName e) since job
  executed : ∀ e job since o, .executed e job since o ∈ s.history → job.id < s.nextId ∧
    (o.hasEffects = true → ∀ r ∈ s.jobs job.id, job.isRepeating = true ∧ job.dueDate < r.dueDate)
  cancelled : ∀ id, .cancelled id ∈ s.history → id < s.nextId ∧ s.jobs id = none

/-! ## Steps that leave the due dates alone -/

/-- The rows of a table are those of another one, with the same due dates. -/
def SameDueDates (n : ℕ) (t t' : ℕ → Option Job) : Prop :=
  ∀ k < n, ∀ r' ∈ t' k, ∃ r ∈ t k, r.dueDate = r'.dueDate

theorem SameDueDates.refl (n : ℕ) (t : ℕ → Option Job) : SameDueDates n t t :=
  fun _ _ r hr => ⟨r, hr, rfl⟩

theorem SameDueDates.flushAll {t t' : ℕ → Option Job} {es : List (Entity Job)}
    (hu : ∀ x ∈ es, UpToDate SameRow t x.loaded)
    (hd : ∀ x ∈ es, ∀ j ∈ x.current, j.dueDate = x.loaded.dueDate)
    (hf : flushAll t es = some t') (n : ℕ) : SameDueDates n t t' := by
  refine (flushAll_inv (I := fun t' => SameDueDates n t t' ∧
    ∀ x ∈ es, UpToDate SameRow t' x.loaded) (fun x hx t₁ t₂ h hf => ?_)
    ⟨.refl n t, hu⟩ hf).1
  refine ⟨fun k hk r' hr' => ?_, fun y hy => (h.2 y hy).flush hf⟩
  rcases flush_eq_some hf with ⟨-, rfl⟩ | ⟨-, r, hr, hv, rfl⟩
  · exact h.1 k hk r' hr'
  · by_cases hxk : k = Row.key x.loaded
    · subst hxk
      rw [Function.update_self, Option.mem_def, Option.map_eq_some_iff] at hr'
      obtain ⟨j, hj, rfl⟩ := hr'
      obtain ⟨r₀, hr₀, hd₀⟩ := h.1 _ hk r hr
      have hs : SameRow x.loaded r := (h.2 x hx r hr).2 hv.symm
      exact ⟨r₀, hr₀, hd₀.trans (hs.dueDate.symm.trans (hd x hx j hj).symm)⟩
    · rw [Function.update_of_ne hxk] at hr'
      exact h.1 k hk r' hr'

/-- Steps that keep the due dates and record no execution. -/
theorem OnceInv.of_sameDueDates {s' : State E M} (h : OnceInv c s) (hi : Inv c s')
    (ht : SameDueDates s.nextId s.jobs s'.jobs) (hn : s.nextId ≤ s'.nextId)
    (hh : s'.history = s.history)
    (he : ∀ e job since js, s'.phase e = .executing job since js → Held (c.getName e) since job) :
    OnceInv c s' where
  inv := hi
  once := hh ▸ h.once
  executing := he
  executed e job since o hm := by
    rw [hh] at hm
    obtain ⟨hid, hr⟩ := h.executed e job since o hm
    refine ⟨Nat.lt_of_lt_of_le hid hn, fun ho r' hr' => ?_⟩
    obtain ⟨r, hr₀, hd⟩ := ht job.id hid r' hr'
    exact hd ▸ hr ho r hr₀
  cancelled id hm := by
    rw [hh] at hm
    obtain ⟨hid, hnone⟩ := h.cancelled id hm
    refine ⟨Nat.lt_of_lt_of_le hid hn, ?_⟩
    rcases hj : s'.jobs id with _ | r'
    · rfl
    · obtain ⟨r, hr, -⟩ := ht id hid r' hj
      rw [hnone] at hr
      cases hr

theorem SameDueDates.filter (n : ℕ) (t : ℕ → Option Job) (p : Job → Bool) :
    SameDueDates n t fun k => (t k).filter p :=
  fun _ _ r' hr' => ⟨r', (Option.filter_eq_some_iff.mp hr').1, rfl⟩

/-- The jobs in execution after a thread has gone on to another phase. -/
theorem OnceInv.executing_setPhase [DecidableEq E] (h : OnceInv c s) {e : E} {p : Phase}
    (hp : ∀ job since js, p = .executing job since js → Held (c.getName e) since job) :
    ∀ e' job since js, (s.setPhase e p).phase e' = .executing job since js →
      Held (c.getName e') since job := by
  intro e' job since js hj
  change Function.update s.phase e p e' = _ at hj
  by_cases he : e' = e
  · subst he
    rw [Function.update_self] at hj
    exact hp job since js hj
  · rw [Function.update_of_ne he] at hj
    exact h.executing e' job since js hj

theorem OnceInv.setPhase [DecidableEq E] (h : OnceInv c s) {e : E} {p : Phase}
    (hi : Inv c (s.setPhase e p))
    (hp : ∀ job since js, p = .executing job since js → Held (c.getName e) since job) :
    OnceInv c (s.setPhase e p) :=
  h.of_sameDueDates hi (.refl _ _) (Nat.le_refl _) rfl (h.executing_setPhase hp)

theorem OnceInv.cancel (h : OnceInv c s) (p : Job → Bool) : OnceInv c (s.cancel p) where
  inv := h.inv.cancel p
  once := by
    have hex : ∀ x : Event E, x ∈ (s.cancel p).history → (∃ id, x = .cancelled id) ∨ x ∈ s.history := by
      intro x hx
      rcases List.mem_append.mp hx with hx | hx
      · obtain ⟨id, -, rfl⟩ := List.mem_map.mp hx
        exact .inl ⟨id, rfl⟩
      · exact .inr hx
    refine ⟨fun e job since o hm => ?_, ?_, fun e job hm => ?_⟩
    · rcases hex _ hm with ⟨id, hid⟩ | hm
      · cases hid
      · exact h.once.held e job since o hm
    · refine List.pairwise_append.mpr ⟨?_, h.once.effects, fun x hx y _ => ?_⟩
      · exact List.pairwise_map.mpr (List.pairwise_of_forall fun _ _ => trivial)
      · obtain ⟨id, -, rfl⟩ := List.mem_map.mp hx
        trivial
    · rcases hex _ hm with ⟨id, hid⟩ | hm
      · cases hid
      · exact h.once.retries e job hm
  executing := h.executing
  executed e job since o hm := by
    rcases List.mem_append.mp hm with hm | hm
    · obtain ⟨id, -, hid⟩ := List.mem_map.mp hm
      cases hid
    · obtain ⟨hid, hr⟩ := h.executed e job since o hm
      exact ⟨hid, fun ho r hr' => hr ho r (Option.filter_eq_some_iff.mp hr').1⟩
  cancelled id hm := by
    rcases List.mem_append.mp hm with hm | hm
    · obtain ⟨k, hk, hid⟩ := List.mem_map.mp hm
      cases hid
      obtain ⟨hk, hp⟩ := List.mem_filter.mp hk
      refine ⟨List.mem_range.mp hk, ?_⟩
      show (s.jobs id).filter _ = none
      rcases hj : s.jobs id with _ | r
      · rfl
      · simp only [hj, Option.any_some] at hp
        simp [hp]
    · obtain ⟨hid, hnone⟩ := h.cancelled id hm
      refine ⟨hid, ?_⟩
      show (s.jobs id).filter _ = none
      rw [hnone]
      rfl

/-! ## Loading and executing -/

/-- A job that is loaded as it was acquired is held. -/
theorem OnceInv.load [DecidableEq E] (h : OnceInv c s) {e : E} {job : Job} {js : List Job}
    (hp : s.phase e = .acquired (job :: js))
    (hu : ∀ r ∈ s.jobs job.id, r.version = job.version) : OnceInv c (s.load e job js) := by
  have hi := h.inv.load hp
  have ho := h.inv.phase e
  have hread := h.inv.read e
  rw [hp] at ho hread
  unfold State.load at hi ⊢
  split at hi
  · rename_i r hr
    have hs : SameRow job r := ((hread job (.head _)).2 r hr).2 (hu r hr).symm
    obtain ⟨h₁, h₂, h₃⟩ := ho job (.head _)
    have hheld : Held (c.getName e) (s.clock e) r :=
      ⟨hs.lockOwner.symm.trans h₁, hs.retries ▸ h₂, hs.dueDate ▸ h₃⟩
    refine ⟨hi, ⟨fun e' job' since o hm => ?_, ?_, fun e' job' hm => ?_⟩,
      h.executing_setPhase (p := .executing r (s.clock e) js) fun _ _ _ hj => ?_,
      fun e' job' since o hm => ?_, fun id hm => ?_⟩
    · rcases List.mem_cons.mp hm with hm | hm
      · cases hm
      · exact h.once.held e' job' since o hm
    · exact List.pairwise_cons.mpr ⟨fun _ _ => trivial, h.once.effects⟩
    · rcases List.mem_cons.mp hm with hm | hm
      · cases hm
        exact hheld.2.1
      · exact h.once.retries e' job' hm
    · cases hj
      exact hheld
    · rcases List.mem_cons.mp hm with hm | hm
      · cases hm
      · exact h.executed e' job' since o hm
    · rcases List.mem_cons.mp hm with hm | hm
      · cases hm
      · exact h.cancelled id hm
  · exact h.setPhase hi (by simp)

theorem lt_nextDueDate {r : String} (h : (c.newDuration r).isSome = true) (now dueDate : ℕ) :
    now < c.nextDueDate now r dueDate := by
  obtain ⟨d, hd⟩ := Option.isSome_iff_exists.mp h
  rw [Config.nextDueDate, hd]
  exact d.lt_reschedule now dueDate

/-- What is left of a job that was due: the failed job, or the timer with a later
    due date. -/
theorem executed_eq_some {now : ℕ} {o : Outcome} {j j' : Job} (hdue : j.dueDate ≤ now)
    (hleg : match j.kind with
      | .timer _ (some r) _ =>
        o.succeeded = true → j.dueDate ≤ now → (c.newDuration r).isSome = true
      | _ => True)
    (h : j' ∈ c.executed now o j) :
    (o.succeeded = false ∧ j' = j.fail o.stackTrace) ∨
      (j.isRepeating = true ∧ j.dueDate < j'.dueDate) := by
  unfold Config.executed at h
  split at h
  · cases h
  split at h
  · rename_i hsucc
    split at h
    · rename_i name r t hk
      cases h
      rw [hk] at hleg
      refine .inr ⟨by rw [Job.isRepeating, hk], ?_⟩
      exact Nat.lt_of_le_of_lt hdue (lt_nextDueDate (hleg hsucc hdue) now j.dueDate)
    · cases h
  · rename_i hsucc
    cases h
    exact .inl ⟨by simpa using hsucc, rfl⟩

/-- Executing a job that was due changes it. -/
theorem executed_ne {now : ℕ} {o : Outcome} {j : Job} (hdue : j.dueDate ≤ now)
    (hleg : match j.kind with
      | .timer _ (some r) _ =>
        o.succeeded = true → j.dueDate ≤ now → (c.newDuration r).isSome = true
      | _ => True) : c.executed now o j ≠ some j := by
  intro h
  rcases executed_eq_some hdue hleg h with ⟨-, hj⟩ | ⟨-, hlt⟩
  · have : j.retries = j.retries - 1 := congrArg Job.retries hj
    omega
  · omega

theorem OnceInv.commitExecution [DecidableEq E] [DecidableEq M] (h : OnceInv c s) {e : E}
    {job : Job} {since : ℕ} {js : List Job} (hp : s.phase e = .executing job since js)
    {o : Outcome} (hl : s.Legal c (.commitExecution e o))
    (hu : Undisturbed c s (.commitExecution e o)) :
    OnceInv c (s.commitExecution c e job since js o) := by
  have hi := h.inv.commitExecution hp o
  have ho := h.inv.phase e
  have hread := h.inv.read e
  rw [hp] at ho hread
  have hheld := h.executing e job since js hp
  have hdue : job.dueDate ≤ s.clock e := Nat.le_trans hheld.2.2 ho.1
  simp only [State.Legal, hp] at hl
  unfold State.commitExecution at hi ⊢
  by_cases hlock : c.lockedTooLong (s.clock e) job = true
  · rw [if_pos hlock] at hi ⊢
    exact h.setPhase hi (by simp)
  rw [if_neg hlock] at hi ⊢
  dsimp only at hi ⊢
  rcases hf : flush s.jobs (c.executedEntity (s.clock e) o job) with _ | t
  · rw [hf] at hi
    exact h.setPhase hi (by simp)
  · rw [hf] at hi
    dsimp only at hi ⊢
    rcases flush_eq_some hf with ⟨hc, -⟩ | ⟨-, r, hr, hv, rfl⟩
    · exact absurd hc (executed_ne hdue hl)
    have hs : SameRow job r := ((hread job (.head _)).2 r hr).2 hv.symm
    have hnew : ∀ j ∈ Function.update s.jobs job.id ((c.executed (s.clock e) o job).map Row.bump)
        job.id, (o.succeeded = false ∧ job.dueDate = j.dueDate) ∨
          (job.isRepeating = true ∧ job.dueDate < j.dueDate) := by
      intro j hj
      rw [Function.update_self, Option.mem_def, Option.map_eq_some_iff] at hj
      obtain ⟨j, hj, rfl⟩ := hj
      rcases executed_eq_some hdue hl hj with ⟨hf, rfl⟩ | hr
      · exact .inl ⟨hf, rfl⟩
      · exact .inr hr
    refine ⟨hi, ⟨fun e' job' since' o' hm => ?_, ?_, fun e' job' hm => ?_⟩,
      h.executing_setPhase (by simp), fun e' job' since' o' hm => ?_, fun id hm => ?_⟩
    · rcases List.mem_cons.mp hm with hm | hm
      · cases hm
        exact ⟨hheld.1, hheld.2.2⟩
      · exact h.once.held e' job' since' o' hm
    · refine List.pairwise_cons.mpr ⟨fun x hx => ?_, h.once.effects⟩
      rcases x with _ | ⟨e', job', since', o'⟩ | id
      · trivial
      · intro hid ho' _
        have := (h.executed e' job' since' o' hx).2 ho' r (hid ▸ hr)
        exact ⟨this.1, hs.dueDate ▸ this.2⟩
      · rintro rfl
        have := (h.cancelled _ hx).2
        rw [show s.jobs job.id = some r from hr] at this
        cases this
    · rcases List.mem_cons.mp hm with hm | hm
      · cases hm
      · exact h.once.retries e' job' hm
    · rcases List.mem_cons.mp hm with hm | hm
      · cases hm
        refine ⟨(hread job (.head _)).1, fun hoe j hj => ?_⟩
        rcases hnew j hj with ⟨hfail, -⟩ | hj
        · rw [hu job since js hp (by simpa using hlock) hfail] at hoe
          cases hoe
        · exact hj
      · obtain ⟨hid, hrow⟩ := h.executed e' job' since' o' hm
        refine ⟨hid, fun hoe j hj => ?_⟩
        by_cases hk : job'.id = job.id
        · obtain ⟨hrep, hlt⟩ := hrow hoe r (hk ▸ hr)
          have hlt : job'.dueDate < job.dueDate := hs.dueDate ▸ hlt
          rw [hk] at hj
          rcases hnew j hj with ⟨-, hd⟩ | ⟨-, hd⟩
          · exact ⟨hrep, hd ▸ hlt⟩
          · exact ⟨hrep, Nat.lt_trans hlt hd⟩
        · change j ∈ Function.update s.jobs job.id _ job'.id at hj
          rw [Function.update_of_ne hk] at hj
          exact hrow hoe j hj
    · rcases List.mem_cons.mp hm with hm | hm
      · cases hm
      · obtain ⟨hid, hnone⟩ := h.cancelled id hm
        refine ⟨hid, ?_⟩
        have hk : id ≠ job.id := by
          rintro rfl
          rw [show s.jobs job.id = some r from hr] at hnone
          cases hnone
        show Function.update s.jobs job.id _ id = none
        rw [Function.update_of_ne hk]
        exact hnone

/-! ## Runs -/

variable [DecidableEq E] [DecidableEq M]

theorem OnceInv.step (h : OnceInv c s) {l : Step E M} (hl : s.Legal c l)
    (hu : Undisturbed c s l) : OnceInv c (s.step c l) := by
  have hi := h.inv.step hl
  cases l with
  | tick e t => exact h.of_sameDueDates hi (.refl _ _) (Nat.le_refl _) rfl h.executing
  | getFirstAcquirableJob e job => exact h.setPhase hi (by simp)
  | findExclusiveJobs e js =>
    simp only [State.step] at hi ⊢
    split
    · rename_i job hp
      simp only [hp] at hi
      exact h.setPhase hi (by simp)
    · exact h
  | commitAcquisition e =>
    simp only [State.step] at hi ⊢
    split
    · rename_i es hp
      simp only [hp] at hi
      have ho := h.inv.phase e
      have hread := h.inv.read e
      rw [hp] at ho hread
      unfold State.commitAcquisition at hi ⊢
      rcases hf : flushAll s.jobs es with _ | t
      · rw [hf] at hi
        exact h.setPhase hi (by simp)
      · rw [hf] at hi
        refine h.of_sameDueDates hi
          (.flushAll (fun x hx => (hread _ (List.mem_map_of_mem hx)).2) (fun x hx j hj => ?_) hf _)
          (Nat.le_refl _) rfl (h.executing_setPhase (by simp))
        obtain ⟨-, t', hc⟩ := ho.2 x hx
        rw [hc] at hj
        cases hj
        rfl
    · exact h
  | load e =>
    simp only [State.step]
    split
    · rename_i job js hp
      exact h.load hp (hu job js hp)
    · exact h
  | commitExecution e o =>
    simp only [State.step]
    split
    · rename_i job since js hp
      exact h.commitExecution hp hl hu
    · exact h
  | abandon e => exact h.setPhase hi (by simp)
  | findOverdueJobs m treshold js =>
    exact h.of_sameDueDates hi (.refl _ _) (Nat.le_refl _) rfl h.executing
  | commitUnlock m =>
    simp only [State.step] at hi ⊢
    split
    · rename_i es hm
      simp only [hm] at hi
      unfold State.commitUnlock at hi ⊢
      rcases hf : flushAll s.jobs es with _ | t
      · rw [hf] at hi
        exact h.of_sameDueDates hi (.refl _ _) (Nat.le_refl _) rfl h.executing
      · rw [hf] at hi
        refine h.of_sameDueDates hi
          (.flushAll (fun x hx => (h.inv.monitor m es hm x hx).2.2) (fun x hx j hj => ?_) hf _)
          (Nat.le_refl _) rfl h.executing
        rw [(h.inv.monitor m es hm x hx).1] at hj
        cases hj
        rfl
    · exact h
  | abandonUnlock m =>
    exact h.of_sameDueDates hi (.refl _ _) (Nat.le_refl _) rfl h.executing
  | create kind dueDate processInstance token isExclusive =>
    refine h.of_sameDueDates hi (fun k hk r hr => ⟨r, ?_, rfl⟩) (Nat.le_succ _) rfl h.executing
    have hne : k ≠ s.nextId := Nat.ne_of_lt hk
    simp only [State.step, State.create] at hr
    rwa [Function.update_of_ne hne] at hr
  | suspendJobs token =>
    refine h.of_sameDueDates hi (fun k _ r hr => ?_) (Nat.le_refl _) rfl h.executing
    obtain ⟨r₀, hr₀, rfl⟩ := Option.map_eq_some_iff.mp hr
    exact ⟨r₀, hr₀, by split <;> rfl⟩
  | resumeJobs token =>
    refine h.of_sameDueDates hi (fun k _ r hr => ?_) (Nat.le_refl _) rfl h.executing
    obtain ⟨r₀, hr₀, rfl⟩ := Option.map_eq_some_iff.mp hr
    exact ⟨r₀, hr₀, by split <;> rfl⟩
  | cancelTimersByName name token => exact h.cancel _
  | deleteJobsForProcessInstance processInstance => exact h.cancel _

omit [DecidableEq E] [DecidableEq M] in
theorem Initial.onceInv (h : Initial s) : OnceInv c s where
  inv := h.inv
  once := by
    rw [h.history]
    exact ⟨by simp, .nil, by simp⟩
  executing e job since js hp := by
    rw [h.phase e] at hp
    cases hp
  executed e job since o hm := by
    rw [h.history] at hm
    cases hm
  cancelled id hm := by
    rw [h.history] at hm
    cases hm

/-- **Jobs take effect at most once per due occurrence** in every undisturbed run. -/
theorem once_of_undisturbed {s₀ : State E M} (h₀ : Initial s₀) {ls : List (Step E M)}
    (hr : Run (guard (Undisturbed c) (Steps c)) s₀ ls s) : Once c s.history :=
  (hr.inv (I := fun s => OnceInv c s) h₀.onceInv fun s l s' h hl => by
    obtain ⟨hu, hl, rfl⟩ := hl
    exact h.step hl hu).once

/-! ## Threads with different names -/

/-- The jobs that a thread has in hand under its lock are those of the table. -/
structure Locked (c : Config E) (s : State E M) : Prop where
  ids : ∀ e, ((s.phase e).jobs.map Job.id).Nodup
  unchanged : ∀ e, ∀ j ∈ (s.phase e).jobs, j.lockOwner = some (c.getName e) →
    ∀ r ∈ s.jobs j.id, r.version = j.version
  executing : ∀ e job since js, s.phase e = .executing job since js →
    job.lockOwner = some (c.getName e)
  monitor : ∀ m, s.monitor m = none

namespace Locked

omit [DecidableEq M] in
/-- A thread goes on with the table as others that hold locks have it. -/
theorem commit (h : Locked c s) {e : E} {t : ℕ → Option Job} {y : List (Event E)} {p : Phase}
    (ht : ∀ e' ≠ e, ∀ j ∈ (s.phase e').jobs, j.lockOwner = some (c.getName e') →
      t j.id = s.jobs j.id)
    (hn : (p.jobs.map Job.id).Nodup)
    (hu : ∀ j ∈ p.jobs, j.lockOwner = some (c.getName e) → ∀ r ∈ t j.id, r.version = j.version)
    (hx : ∀ job since js, p = .executing job since js → job.lockOwner = some (c.getName e)) :
    Locked c ({ s with jobs := t, history := y }.setPhase e p) where
  ids e' := by
    show ((Function.update s.phase e p e').jobs.map Job.id).Nodup
    by_cases he : e' = e
    · subst he
      rw [Function.update_self]
      exact hn
    · rw [Function.update_of_ne he]
      exact h.ids e'
  unchanged e' := by
    show ∀ j ∈ (Function.update s.phase e p e').jobs, _ → ∀ r ∈ t j.id, _
    by_cases he : e' = e
    · subst he
      rw [Function.update_self]
      exact hu
    · rw [Function.update_of_ne he]
      intro j hj ho
      rw [ht e' he j hj ho]
      exact h.unchanged e' j hj ho
  executing e' job since js hp := by
    change Function.update s.phase e p e' = _ at hp
    by_cases he : e' = e
    · subst he
      rw [Function.update_self] at hp
      exact hx job since js hp
    · rw [Function.update_of_ne he] at hp
      exact h.executing e' job since js hp
  monitor := h.monitor

omit [DecidableEq M] in
theorem setPhase (h : Locked c s) {e : E} {p : Phase} (hn : (p.jobs.map Job.id).Nodup)
    (hu : ∀ j ∈ p.jobs, j.lockOwner = some (c.getName e) →
      ∀ r ∈ s.jobs j.id, r.version = j.version)
    (hx : ∀ job since js, p = .executing job since js → job.lockOwner = some (c.getName e)) :
    Locked c (s.setPhase e p) :=
  h.commit (y := s.history) (fun _ _ _ _ _ => rfl) hn hu hx

omit [DecidableEq E] [DecidableEq M] in
/-- Changes of the table that leave the versions alone. -/
theorem setJobs (h : Locked c s) {t : ℕ → Option Job} {n : ℕ} {y : List (Event E)}
    (ht : ∀ e, ∀ j ∈ (s.phase e).jobs, ∀ r' ∈ t j.id, ∃ r ∈ s.jobs j.id, r'.version = r.version) :
    Locked c { s with jobs := t, nextId := n, history := y } where
  ids := h.ids
  unchanged e j hj ho r' hr' := by
    obtain ⟨r, hr, hv⟩ := ht e j hj r' hr'
    exact hv.trans (h.unchanged e j hj ho r hr)
  executing := h.executing
  monitor := h.monitor

omit [DecidableEq E] [DecidableEq M] in
/-- Nobody has read the job of another thread without its lock. -/
theorem owner (h : Locked c s) (hi : Inv c s) {e : E} {j : Job} (hj : j ∈ (s.phase e).jobs)
    (ho : j.lockOwner = some (c.getName e)) {x r : Job} (hx : UpToDate SameRow s.jobs x)
    (hid : x.id = j.id) (hr : s.jobs x.id = some r) (hv : r.version = x.version) :
    x.lockOwner = some (c.getName e) := by
  have hrj : s.jobs j.id = some r := hid ▸ hr
  have hsx : SameRow x r := (hx r hr).2 hv.symm
  have hsj : SameRow j r := ((hi.read e j hj).2 r hrj).2 (h.unchanged e j hj ho r hrj).symm
  rw [hsx.lockOwner, ← hsj.lockOwner, ho]

omit [DecidableEq M] in
theorem commitAcquisition (hname : Function.Injective c.getName) (h : Locked c s) (hi : Inv c s)
    {e : E} {es : List (Entity Job)} (hp : s.phase e = .acquiring es) :
    Locked c (s.commitAcquisition e es) := by
  have ho := hi.phase e
  have hread := hi.read e
  have hunch := h.unchanged e
  rw [hp] at ho hread hunch
  unfold State.commitAcquisition
  rcases hf : flushAll s.jobs es with _ | t
  · exact h.setPhase .nil (by simp [Phase.jobs]) (by simp)
  have hids : (es.filterMap committed).map Job.id |>.Sublist (es.map fun x => x.loaded.id) := by
    clear hf hunch hread ho hp
    induction es with
    | nil => exact .slnil
    | cons x es ih =>
      rw [List.filterMap_cons]
      split
      · exact .cons _ ih
      · rename_i j hj
        rw [List.map_cons, List.map_cons, show j.id = x.loaded.id from key_committed hj]
        exact .cons_cons _ ih
  refine h.commit (y := s.history) (fun e' he j hj hjo => ?_) (ho.1.sublist hids)
    (fun j hj hjo r hr => ?_) (by simp)
  · refine flushAll_of_unchanged hf fun x hx hd hk => ?_
    obtain ⟨r, hr, hv⟩ := flushAll_read hf ho.1 hx hd
    have hl := hread x.loaded (List.mem_map_of_mem hx)
    have hxo := h.owner hi hj hjo hl.2 hk hr hv
    rcases (ho.2 x hx).1.1 with hn | hn
    · rw [hn] at hxo
      cases hxo
    · rw [hn] at hxo
      exact he (hname (Option.some.inj hxo)).symm
  · obtain ⟨x, hx, hc⟩ := List.mem_filterMap.mp hj
    have hk : j.id = x.loaded.id := key_committed hc
    by_cases hd : x.current = some x.loaded
    · rw [committed, if_pos hd] at hc
      cases hc
      have hsame : t x.loaded.id = s.jobs x.loaded.id := by
        refine flushAll_of_unchanged hf fun y hy hyd hyk => ?_
        have : y = x := List.inj_on_of_nodup_map ho.1 hy hx hyk
        exact hyd (this ▸ hd)
      rw [hsame] at hr
      exact hunch _ (List.mem_map_of_mem hx) hjo r hr
    · rw [committed, if_neg hd] at hc
      have hw := flushAll_written hf ho.1 hx hd
      rw [hc] at hw
      rw [hk] at hr
      cases Option.mem_unique hr hw
      rfl

omit [DecidableEq M] in
theorem load (h : Locked c s) (hi : Inv c s) {e : E} {job : Job} {js : List Job}
    (hp : s.phase e = .acquired (job :: js)) : Locked c (s.load e job js) := by
  have hids := h.ids e
  have hunch := h.unchanged e
  have ho := hi.phase e
  have hread := hi.read e
  rw [hp] at hids hunch ho hread
  unfold State.load
  rcases hr : s.jobs job.id with _ | r
  · exact h.setPhase .nil (by simp [Phase.jobs]) (by simp)
  have hrid : r.id = job.id := hi.keyed _ _ hr
  have hjob := ho job (.head _)
  have hv : r.version = job.version := hunch job (.head _) hjob.1 r hr
  have hs : SameRow job r := ((hread job (.head _)).2 r hr).2 hv.symm
  refine h.commit (fun _ _ _ _ _ => rfl) ?_ (fun j hj hjo r' hr' => ?_) fun j since js hj => ?_
  · simpa only [Phase.jobs, List.map_cons, hrid] using hids
  · rcases List.mem_cons.mp hj with rfl | hj
    · rw [hrid, hr] at hr'
      cases hr'
      rfl
    · exact hunch j (.tail _ hj) hjo r' hr'
  · cases hj
    exact hs.lockOwner.symm.trans hjob.1

omit [DecidableEq M] in
theorem commitExecution (hname : Function.Injective c.getName) (h : Locked c s) (hi : Inv c s)
    {e : E} {job : Job} {since : ℕ} {js : List Job} (hp : s.phase e = .executing job since js)
    (o : Outcome) : Locked c (s.commitExecution c e job since js o) := by
  have hids := h.ids e
  have hunch := h.unchanged e
  have hread := hi.read e
  have hown := h.executing e job since js hp
  rw [hp] at hids hunch hread
  have hjs : ∀ js' : List Job, js'.Sublist js → (js'.map Job.id).Nodup ∧
      ∀ j ∈ js', j.lockOwner = some (c.getName e) → ∀ r ∈ s.jobs j.id, r.version = j.version :=
    fun js' hs => ⟨(List.nodup_cons.mp hids).2.sublist (hs.map _),
      fun j hj => hunch j (.tail _ (hs.subset hj))⟩
  unfold State.commitExecution
  split
  · exact h.setPhase (hjs js (.refl _)).1 (hjs js (.refl _)).2 (by simp)
  have hrest := hjs (if job.lockTime.isNone then [] else js) (by split <;> simp)
  have hne : ∀ j ∈ (if job.lockTime.isNone then [] else js), j.id ≠ job.id := by
    intro j hj hjid
    have hjjs : j ∈ js := by
      split at hj
      · cases hj
      · exact hj
    exact (List.nodup_cons.mp hids).1 (hjid ▸ List.mem_map_of_mem hjjs)
  dsimp only
  split
  · rename_i t hf
    have hold : ∀ k, k ≠ job.id → t k = s.jobs k := by
      intro k hk
      rcases flush_eq_some hf with ⟨-, rfl⟩ | ⟨-, r, -, -, rfl⟩
      · rfl
      · exact Function.update_of_ne hk _ _
    refine h.commit (fun e' he j hj hjo => ?_) hrest.1 (fun j hj hjo r hr => ?_) (by simp)
    · rcases flush_eq_some hf with ⟨-, rfl⟩ | ⟨-, r, hr, hv, rfl⟩
      · rfl
      · refine Function.update_of_ne (fun hk => he ?_) _ _
        have := h.owner hi hj hjo (hread job (.head _)).2 hk.symm hr hv
        exact (hname (Option.some.inj (hown.symm.trans this))).symm
    · rw [hold _ (hne j hj)] at hr
      exact hrest.2 j hj hjo r hr
  · exact h.setPhase hrest.1 hrest.2 (by simp)

theorem step (hname : Function.Injective c.getName)
    (hquery : c.findJobsWithOverdueLockTime = none) (h : Locked c s) (hi : Inv c s) {l : Step E M}
    (hl : s.Legal c l) : Locked c (s.step c l) := by
  cases l with
  | tick e t => exact ⟨h.ids, h.unchanged, h.executing, h.monitor⟩
  | getFirstAcquirableJob e job =>
    refine h.setPhase (by simp [Phase.jobs]) (fun j hj _ r hr => ?_) (by simp)
    cases List.mem_singleton.mp hj
    cases Option.mem_unique hr hl.2.1
    rfl
  | findExclusiveJobs e js =>
    have hi' := hi.step hl
    have hunch := h.unchanged e
    simp only [State.Legal] at hl
    simp only [State.step] at hi' ⊢
    rcases hp : s.phase e with js' | job | es | ⟨j, t, js'⟩ <;> simp only [hp] at hl hi' ⊢
    rw [hp] at hunch
    have ho := hi'.phase e
    simp only [State.setPhase, Function.update_self] at ho
    refine h.setPhase ?_ (fun j hj hjo r hr => ?_) (by simp)
    · rw [Phase.jobs, List.map_map]
      exact ho.1
    · obtain ⟨x, hx, rfl⟩ := List.mem_map.mp hj
      obtain ⟨j, hjs, rfl⟩ := List.mem_map.mp hx
      have hcase : (lockEntity (c.getName e) (s.clock e)
          (if j.id = job.id then job else j)).loaded = job ∨
          s.jobs (if j.id = job.id then job else j).id = some (if j.id = job.id then job else j) := by
        split
        · exact .inl rfl
        · rename_i hne
          split at hl
          · exact .inr (hl.1.2.1 j hjs).1
          · rw [hl, List.mem_singleton] at hjs
            exact absurd (congrArg Job.id hjs) hne
      rcases hcase with hj | hj
      · rw [hj] at hjo hr ⊢
        exact hunch job (.head _) hjo r hr
      · cases Option.mem_unique hr hj
        rfl
  | commitAcquisition e =>
    simp only [State.step]
    split
    · rename_i es hp
      exact h.commitAcquisition hname hi hp
    · exact h
  | load e =>
    simp only [State.step]
    split
    · rename_i job js hp
      exact h.load hi hp
    · exact h
  | commitExecution e o =>
    simp only [State.step]
    split
    · rename_i job since js hp
      exact h.commitExecution hname hi hp o
    · exact h
  | abandon e => exact h.setPhase .nil (by simp [Phase.jobs]) (by simp)
  | findOverdueJobs m treshold js =>
    simp only [State.Legal, hquery] at hl
    exact hl.2.elim
  | commitUnlock m =>
    simp only [State.Legal, h.monitor m] at hl
    cases hl
  | abandonUnlock m =>
    refine ⟨h.ids, h.unchanged, h.executing, fun m' => ?_⟩
    show Function.update s.monitor m none m' = none
    by_cases hm : m' = m
    · subst hm
      rw [Function.update_self]
    · rw [Function.update_of_ne hm, h.monitor m']
  | create kind dueDate processInstance token isExclusive =>
    refine h.setJobs (y := s.history) fun e j hj r hr => ⟨r, ?_, rfl⟩
    have hne : j.id ≠ s.nextId := Nat.ne_of_lt (hi.read e j hj).1
    rwa [Function.update_of_ne hne] at hr
  | suspendJobs token =>
    refine h.setJobs (y := s.history) (n := s.nextId) fun e j hj r' hr' => ?_
    obtain ⟨r, hr, rfl⟩ := Option.map_eq_some_iff.mp hr'
    exact ⟨r, hr, by split <;> rfl⟩
  | resumeJobs token =>
    refine h.setJobs (y := s.history) (n := s.nextId) fun e j hj r' hr' => ?_
    obtain ⟨r, hr, rfl⟩ := Option.map_eq_some_iff.mp hr'
    exact ⟨r, hr, by split <;> rfl⟩
  | cancelTimersByName name token =>
    exact h.setJobs (n := s.nextId) fun e j hj r hr =>
      ⟨r, (Option.filter_eq_some_iff.mp hr).1, rfl⟩
  | deleteJobsForProcessInstance processInstance =>
    exact h.setJobs (n := s.nextId) fun e j hj r hr =>
      ⟨r, (Option.filter_eq_some_iff.mp hr).1, rfl⟩

end Locked

/-- If an execution throws and is committed, then it has had no effects. -/
def FailsClean (c : Config E) (s : State E M) : Step E M → Prop
  | .commitExecution e o => ∀ job since js, s.phase e = .executing job since js →
      c.lockedTooLong (s.clock e) job = false → o.succeeded = false → o.hasEffects = false
  | _ => True

omit [DecidableEq E] [DecidableEq M] in
theorem Locked.undisturbed (h : Locked c s) (hi : Inv c s) {l : Step E M} (hl : FailsClean c s l) :
    Undisturbed c s l := by
  cases l with
  | load e =>
    intro job js hp r hr
    have ho := hi.phase e
    have hunch := h.unchanged e
    rw [hp] at ho hunch
    exact hunch job (.head _) (ho job (.head _)).1 r hr
  | commitExecution e o => exact hl
  | _ => trivial

omit [DecidableEq E] [DecidableEq M] in
theorem Initial.locked (h : Initial s) : Locked c s where
  ids e := by simp [h.phase e, Phase.jobs]
  unchanged e := by simp [h.phase e, Phase.jobs]
  executing e job since js hp := by
    rw [h.phase e] at hp
    cases hp
  monitor := h.monitor

/-- If no two threads have the same name and the query of the lock monitor is
    missing, then no thread finds a job changed that it has acquired. -/
theorem once_of_names {s₀ : State E M} (h₀ : Initial s₀) (hname : Function.Injective c.getName)
    (hquery : c.findJobsWithOverdueLockTime = none) {ls : List (Step E M)}
    (hr : Run (guard (FailsClean c) (Steps c)) s₀ ls s) : Once c s.history :=
  (hr.inv (I := fun s => Locked c s ∧ OnceInv c s) ⟨h₀.locked, h₀.onceInv⟩ fun s l s' h hl => by
    obtain ⟨hf, hl, rfl⟩ := hl
    exact ⟨h.1.step hname hquery h.2.inv hl, h.2.step hl (h.1.undisturbed h.2.inv hf)⟩).2.once

/-- **Executions of jobs.**  Undisturbed runs execute jobs at most once per due
    occurrence; as long as the names of the threads differ and the query of the
    lock monitor is missing, only executions that throw can disturb a run. -/
theorem jobs_once {s₀ : State E M} (h₀ : Initial s₀) :
    (∀ ls s, Run (guard (Undisturbed c) (Steps c)) s₀ ls s → Once c s.history) ∧
    (Function.Injective c.getName → c.findJobsWithOverdueLockTime = none →
      ∀ ls s, Run (guard (FailsClean c) (Steps c)) s₀ ls s → Once c s.history) :=
  ⟨fun _ _ hr => once_of_undisturbed h₀ hr,
    fun hname hquery _ _ hr => once_of_names h₀ hname hquery hr⟩

/-! ## Two threads of one name -/

attribute [local instance] neZero_two

/-- The first threads of two virtual machines on one host. -/
def oneName : Config (Fin 2) where
  getName _ := "JbpmJobExecutor:10.0.0.1:1"
  maxLockTime := 600000
  newDuration _ := none
  findJobsWithOverdueLockTime := none

def nodeJob : Job := .created 0 .executeNode 0 (some 7) (some 7) false

def lockedJob (version lockTime : ℕ) : Job :=
  { nodeJob with
    version := version, lockOwner := some "JbpmJobExecutor:10.0.0.1:1", lockTime := some lockTime }

/-- Both threads acquire the job; the second one fails at it and uses up its
    retries before the first one loads it. -/
def acquiredTwice : List (Step (Fin 2) Unit) :=
  [.create .executeNode 0 (some 7) (some 7) false,
    .getFirstAcquirableJob 0 nodeJob, .findExclusiveJobs 0 [nodeJob], .commitAcquisition 0,
    .tick 1 1,
    .getFirstAcquirableJob 1 (lockedJob 1 0), .findExclusiveJobs 1 [lockedJob 1 0],
    .commitAcquisition 1,
    .load 1, .commitExecution 1 ⟨false, false, false, "at"⟩,
    .load 0]

theorem run_acquiredTwice :
    Run (Steps oneName) .empty acquiredTwice
      (acquiredTwice.foldl (fun s l => s.step oneName l) .empty) := by
  have h : Allowed (fun s l => State.Legal s oneName l) (fun s l => State.step s oneName l)
      .empty acquiredTwice :=
    ⟨trivial, ⟨trivial, rfl, by decide, by decide⟩, rfl, trivial, Nat.zero_le 1,
      ⟨trivial, rfl, by decide, by decide⟩, rfl, trivial, trivial, trivial, trivial, trivial⟩
  exact Run.of_allowed h

/-- The first thread tries the job without a retry left. -/
theorem not_once :
    ∃ ls s, Run (Steps oneName) (.empty : State (Fin 2) Unit) ls s ∧ ¬ Once oneName s.history := by
  refine ⟨_, _, run_acquiredTwice, fun h => ?_⟩
  have := h.retries 0 (Row.bump ((lockedJob 2 1).fail "at")) (.head _)
  exact absurd this (by decide)

/-- The steps of one thread that executes the job. -/
def acquiredOnce : List (Step (Fin 2) Unit) :=
  [.create .executeNode 0 (some 7) (some 7) false,
    .getFirstAcquirableJob 0 nodeJob, .findExclusiveJobs 0 [nodeJob], .commitAcquisition 0,
    .load 0, .commitExecution 0 ⟨true, false, true, ""⟩]

theorem run_acquiredOnce :
    Run (guard (FailsClean twoThreads) (Steps twoThreads)) .empty acquiredOnce
      (acquiredOnce.foldl (fun s l => s.step twoThreads l) .empty) := by
  have h : Allowed (fun s l => FailsClean twoThreads s l ∧ State.Legal s twoThreads l)
      (fun s l => State.step s twoThreads l) .empty acquiredOnce :=
    ⟨⟨trivial, trivial⟩, ⟨trivial, trivial, rfl, by decide, by decide⟩, ⟨trivial, rfl⟩,
      ⟨trivial, trivial⟩, ⟨trivial, trivial⟩, ⟨fun _ _ _ _ _ h => (nomatch h), trivial⟩,
      trivial⟩
  exact Run.guard_of_allowed h

theorem jobs_once_acquiredOnce :
    Once twoThreads (acquiredOnce.foldl (fun s l => s.step twoThreads l)
      (.empty : State (Fin 2) Unit)).history :=
  (jobs_once initial_empty).2 (by unfold Function.Injective; decide) rfl _ _ run_acquiredOnce

end JobExecutor

end Jbpm
