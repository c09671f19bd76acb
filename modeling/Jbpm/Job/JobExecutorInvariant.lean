/-
  What holds in every state of the job executors: no thread has a job in hand
  that is newer than the row of the table, and two versions of a row with the
  same number differ at most in the flag of suspension, which is written by bulk
  updates.
-/
import Jbpm.Job.JobExecutor

namespace Jbpm

open Lib Lib.Optimistic

namespace JobExecutor

variable {E M : Type} {c : Config E} {s : State E M}

/-- The rows are the same but for the suspension. -/
def SameRow (j r : Job) : Prop := { j with isSuspended := r.isSuspended } = r

theorem SameRow.refl (j : Job) : SameRow j j := rfl

theorem SameRow.kind {j r : Job} (h : SameRow j r) : j.kind = r.kind := by
  rw [← h]

theorem SameRow.dueDate {j r : Job} (h : SameRow j r) : j.dueDate = r.dueDate := by
  rw [← h]

theorem SameRow.lockOwner {j r : Job} (h : SameRow j r) : j.lockOwner = r.lockOwner := by
  rw [← h]

theorem SameRow.retries {j r : Job} (h : SameRow j r) : j.retries = r.retries := by
  rw [← h]

theorem SameRow.isExclusive {j r : Job} (h : SameRow j r) : j.isExclusive = r.isExclusive := by
  rw [← h]

theorem SameRow.processInstance {j r : Job} (h : SameRow j r) :
    j.processInstance = r.processInstance := by
  rw [← h]

/-- The jobs as a thread has read or written them. -/
def Phase.jobs : Phase → List Job
  | .acquired js => js
  | .found j => [j]
  | .acquiring es => es.map Entity.loaded
  | .executing j _ js => j :: js

/-- The job may be acquired by the thread, by what has been read of it. -/
def Acquirable (owner : String) (now : ℕ) (j : Job) : Prop :=
  (j.lockOwner = none ∨ j.lockOwner = some owner) ∧ 0 < j.retries ∧ j.dueDate ≤ now

/-- The job was acquired by the thread when it was due. -/
def Held (owner : String) (now : ℕ) (j : Job) : Prop :=
  j.lockOwner = some owner ∧ 0 < j.retries ∧ j.dueDate ≤ now

/-- What a thread has in hand in the phases of its work. -/
def Phase.Ok (owner : String) (now : ℕ) : Phase → Prop
  | .acquired js => ∀ j ∈ js, Held owner now j
  | .found j => Acquirable owner now j
  | .acquiring es => (es.map fun x => x.loaded.id).Nodup ∧
      ∀ x ∈ es, Acquirable owner now x.loaded ∧ ∃ t, x.current = some (x.loaded.lock owner t)
  | .executing _ since js => since ≤ now ∧ ∀ j ∈ js, Held owner now j

structure Inv (c : Config E) (s : State E M) : Prop where
  keyed : Keyed s.jobs
  bound : ∀ k, ∀ r ∈ s.jobs k, k < s.nextId
  phase : ∀ e, (s.phase e).Ok (c.getName e) (s.clock e)
  read : ∀ e, ∀ j ∈ (s.phase e).jobs, j.id < s.nextId ∧ UpToDate SameRow s.jobs j
  monitor : ∀ m, ∀ es ∈ s.monitor m, ∀ x ∈ es, x.current = some x.loaded.unlock ∧
    x.loaded.id < s.nextId ∧ UpToDate SameRow s.jobs x.loaded

theorem acquirable_of_isAcquirable {owner : String} {now : ℕ} {j : Job}
    (h : j.isAcquirable owner now = true) : Acquirable owner now j := by
  simp only [Job.isAcquirable, Bool.and_eq_true, Bool.or_eq_true, Option.isNone_iff_eq_none,
    beq_iff_eq, decide_eq_true_eq] at h
  exact ⟨h.1.1.1, h.1.1.2, h.1.2⟩

theorem Held.mono {owner : String} {t t' : ℕ} {j : Job} (h : Held owner t j) (ht : t ≤ t') :
    Held owner t' j :=
  ⟨h.1, h.2.1, Nat.le_trans h.2.2 ht⟩

theorem Acquirable.mono {owner : String} {t t' : ℕ} {j : Job} (h : Acquirable owner t j)
    (ht : t ≤ t') : Acquirable owner t' j :=
  ⟨h.1, h.2.1, Nat.le_trans h.2.2 ht⟩

theorem Phase.Ok.mono {owner : String} {t t' : ℕ} {p : Phase} (h : p.Ok owner t) (ht : t ≤ t') :
    p.Ok owner t' := by
  cases p with
  | acquired js => exact fun j hj => (h j hj).mono ht
  | found j => exact Acquirable.mono h ht
  | acquiring es => exact ⟨h.1, fun x hx => ⟨(h.2 x hx).1.mono ht, (h.2 x hx).2⟩⟩
  | executing j since js => exact ⟨Nat.le_trans h.1 ht, fun j hj => (h.2 j hj).mono ht⟩

namespace Inv

/-! ## The parts of a state -/

theorem setJobs (h : Inv c s) {t : ℕ → Option Job} {n : ℕ} (hk : Keyed t) (hn : s.nextId ≤ n)
    (hb : ∀ k, ∀ r ∈ t k, k < n)
    (hu : ∀ j : Job, j.id < s.nextId → UpToDate SameRow s.jobs j → UpToDate SameRow t j) :
    Inv c { s with jobs := t, nextId := n } where
  keyed := hk
  bound := hb
  phase := h.phase
  read e j hj := ⟨Nat.lt_of_lt_of_le (h.read e j hj).1 hn, hu j (h.read e j hj).1 (h.read e j hj).2⟩
  monitor m es hes x hx :=
    have hx := h.monitor m es hes x hx
    ⟨hx.1, Nat.lt_of_lt_of_le hx.2.1 hn, hu x.loaded hx.2.1 hx.2.2⟩

theorem setHistory (h : Inv c s) (es : List (Event E)) : Inv c { s with history := es } where
  keyed := h.keyed
  bound := h.bound
  phase := h.phase
  read := h.read
  monitor := h.monitor

theorem tick [DecidableEq E] (h : Inv c s) {e : E} {t : ℕ} (ht : s.clock e ≤ t) :
    Inv c { s with clock := Function.update s.clock e t } where
  keyed := h.keyed
  bound := h.bound
  phase e' := by
    show (s.phase e').Ok _ (Function.update s.clock e t e')
    by_cases he : e' = e
    · subst he
      rw [Function.update_self]
      exact (h.phase e').mono ht
    · rw [Function.update_of_ne he]
      exact h.phase e'
  read := h.read
  monitor := h.monitor

theorem setPhase [DecidableEq E] (h : Inv c s) {e : E} {p : Phase} (hp : p.Ok (c.getName e) (s.clock e))
    (hr : ∀ j ∈ p.jobs, j.id < s.nextId ∧ UpToDate SameRow s.jobs j) : Inv c (s.setPhase e p) where
  keyed := h.keyed
  bound := h.bound
  phase e' := by
    show (Function.update s.phase e p e').Ok _ _
    by_cases he : e' = e
    · subst he
      rw [Function.update_self]
      exact hp
    · rw [Function.update_of_ne he]
      exact h.phase e'
  read e' := by
    show ∀ j ∈ (Function.update s.phase e p e').jobs, _
    by_cases he : e' = e
    · subst he
      rw [Function.update_self]
      exact hr
    · rw [Function.update_of_ne he]
      exact h.read e'
  monitor := h.monitor

theorem setMonitor [DecidableEq M] (h : Inv c s) {m : M} {es : Option (List (Entity Job))}
    (hes : ∀ es' ∈ es, ∀ x ∈ es', x.current = some x.loaded.unlock ∧ x.loaded.id < s.nextId ∧
      UpToDate SameRow s.jobs x.loaded) : Inv c (s.setMonitor m es) where
  keyed := h.keyed
  bound := h.bound
  phase := h.phase
  read := h.read
  monitor m' := by
    show ∀ es' ∈ Function.update s.monitor m es m', _
    by_cases hm : m' = m
    · subst hm
      rw [Function.update_self]
      exact hes
    · rw [Function.update_of_ne hm]
      exact h.monitor m'

/-- A flush writes no row that was not there. -/
theorem flushAll (h : Inv c s) {es : List (Entity Job)} {t : ℕ → Option Job}
    (ht : flushAll s.jobs es = some t) (hes : ∀ x ∈ es, x.loaded.id < s.nextId) :
    Inv c { s with jobs := t } := by
  refine h.setJobs (h.keyed.flushAll ht) (Nat.le_refl _) (fun k r hr => ?_) fun j _ hj => hj.flushAll ht
  rcases flushAll_get ht hr with h' | ⟨x, hx, -, hk, -⟩
  · exact h.bound k r h'
  · exact hk ▸ hes x hx

theorem flush (h : Inv c s) {x : Entity Job} {t : ℕ → Option Job} (ht : flush s.jobs x = some t)
    (hx : x.loaded.id < s.nextId) : Inv c { s with jobs := t } :=
  have hx' : ∀ y ∈ [x], y.loaded.id < s.nextId := by simpa using hx
  h.flushAll (by simp [Optimistic.flushAll, ht]) hx'

theorem cancel (h : Inv c s) (p : Job → Bool) : Inv c (s.cancel p) := by
  have hf : ∀ k, ∀ r ∈ (s.jobs k).filter fun j => !p j, r ∈ s.jobs k :=
    fun k r hr => (Option.filter_eq_some_iff.mp hr).1
  exact (h.setJobs (fun k r hr => h.keyed k r (hf k r hr)) (Nat.le_refl _)
    (fun k r hr => h.bound k r (hf k r hr)) fun j _ hj => hj.mono (hf j.id)).setHistory _

theorem setSuspended (h : Inv c s) (token : ℕ) (b : Bool) : Inv c (s.setSuspended token b) := by
  refine h.setJobs (fun k r hr => ?_) (Nat.le_refl _) (fun k r hr => ?_) fun j _ hj =>
    hj.map (f := fun r => if r.token = some token then { r with isSuspended := b } else r)
      (fun r => ?_) (fun r hr => ?_) fun k => rfl
  · obtain ⟨r', hr', rfl⟩ := Option.map_eq_some_iff.mp hr
    rw [← h.keyed k r' hr']
    split <;> rfl
  · obtain ⟨r', hr', -⟩ := Option.map_eq_some_iff.mp hr
    exact h.bound k r' hr'
  · split <;> rfl
  · split
    · exact congrArg (fun r : Job => { r with isSuspended := b }) hr
    · exact hr

theorem create (h : Inv c s) (kind : Job.Kind) (dueDate : ℕ) (processInstance token : Option ℕ)
    (isExclusive : Bool) : Inv c (s.create kind dueDate processInstance token isExclusive) := by
  refine h.setJobs (fun k r hr => ?_) (Nat.le_succ _) (fun k r hr => ?_) fun j hj hu =>
    hu.mono fun r hr => ?_
  · by_cases hk : k = s.nextId
    · subst hk
      rw [Function.update_self] at hr
      cases hr
      rfl
    · rw [Function.update_of_ne hk] at hr
      exact h.keyed k r hr
  · by_cases hk : k = s.nextId
    · omega
    · rw [Function.update_of_ne hk] at hr
      have := h.bound k r hr
      omega
  · have hk : Row.key j ≠ s.nextId := Nat.ne_of_lt hj
    rwa [Function.update_of_ne hk] at hr

/-! ## The steps of a thread -/

theorem lock [DecidableEq E] (h : Inv c s) {e : E} {job : Job} (hj : s.phase e = .found job)
    {js : List Job} (hd : (js.map Job.id).Nodup)
    (hr : ∀ j ∈ js, j = job ∨ s.jobs j.id = some j ∧ Acquirable (c.getName e) (s.clock e) j) :
    Inv c (s.setPhase e (.acquiring (js.map fun j =>
      lockEntity (c.getName e) (s.clock e) (if j.id = job.id then job else j)))) := by
  have hp := h.phase e
  have hu := h.read e
  rw [hj] at hp hu
  have hread : ∀ j ∈ js, Acquirable (c.getName e) (s.clock e) (if j.id = job.id then job else j) ∧
      (if j.id = job.id then job else j).id < s.nextId ∧
      UpToDate SameRow s.jobs (if j.id = job.id then job else j) := by
    intro j hjs
    split
    · exact ⟨hp, hu job (.head _)⟩
    · rename_i hne
      rcases hr j hjs with rfl | ⟨hj', ha⟩
      · exact absurd rfl hne
      · exact ⟨ha, h.bound _ j hj', .of_read SameRow.refl h.keyed hj'⟩
  refine h.setPhase ⟨?_, ?_⟩ ?_
  · have hid : ∀ j : Job, (if j.id = job.id then job else j).id = j.id := by
      intro j
      split
      · rename_i he
        exact he.symm
      · rfl
    rw [List.map_map]
    exact (List.map_congr_left (f := _ ∘ _) fun j _ => hid j).symm ▸ hd
  · intro x hx
    obtain ⟨j, hjs, rfl⟩ := List.mem_map.mp hx
    exact ⟨(hread j hjs).1, s.clock e, rfl⟩
  · intro j' hj'
    obtain ⟨x, hx, rfl⟩ := List.mem_map.mp hj'
    obtain ⟨j, hjs, rfl⟩ := List.mem_map.mp hx
    exact (hread j hjs).2

/-- What a thread has locked it holds. -/
theorem held_of_committed {owner : String} {now t : ℕ} {x : Entity Job} {j : Job}
    (ha : Acquirable owner now x.loaded) (hc : x.current = some (x.loaded.lock owner t))
    (hj : j ∈ committed x) : Held owner now j := by
  unfold committed at hj
  split at hj
  · rename_i hd
    cases hj
    have ho : (x.loaded.lock owner t).lockOwner = x.loaded.lockOwner :=
      congrArg Job.lockOwner (Option.some.inj (hc.symm.trans hd))
    exact ⟨ho.symm, ha.2⟩
  · rw [hc] at hj
    cases hj
    exact ⟨rfl, ha.2⟩

theorem commitAcquisition [DecidableEq E] (h : Inv c s) {e : E} {es : List (Entity Job)}
    (hp : s.phase e = .acquiring es) : Inv c (s.commitAcquisition e es) := by
  have ho := h.phase e
  have hu := h.read e
  rw [hp] at ho hu
  unfold State.commitAcquisition
  split
  · rename_i jobs hf
    have hid : ∀ x ∈ es, x.loaded.id < s.nextId := fun x hx => (hu _ (List.mem_map_of_mem hx)).1
    refine (h.flushAll hf hid).setPhase (fun j hj => ?_) fun j hj => ?_
    · obtain ⟨x, hx, hc⟩ := List.mem_filterMap.mp hj
      obtain ⟨ha, t, hc'⟩ := ho.2 x hx
      exact held_of_committed ha hc' hc
    · obtain ⟨x, hx, hc⟩ := List.mem_filterMap.mp hj
      have hl := hu _ (List.mem_map_of_mem hx)
      refine ⟨?_, .committed SameRow.refl hf hx hl.2 hc⟩
      rw [show j.id = x.loaded.id from key_committed hc]
      exact hl.1
  · exact h.setPhase (by simp [Phase.Ok]) (by simp [Phase.jobs])

theorem load [DecidableEq E] (h : Inv c s) {e : E} {job : Job} {js : List Job}
    (hp : s.phase e = .acquired (job :: js)) : Inv c (s.load e job js) := by
  have ho := h.phase e
  have hu := h.read e
  rw [hp] at ho hu
  unfold State.load
  split
  · rename_i j hj
    refine (h.setHistory (.loaded e j :: s.history)).setPhase
      ⟨Nat.le_refl _, fun j' hj' => ho j' (.tail _ hj')⟩ fun j' hj' => ?_
    rcases List.mem_cons.mp hj' with rfl | hj'
    · have hk : j'.id = job.id := h.keyed _ _ hj
      exact ⟨hk ▸ h.bound _ _ hj, .of_read SameRow.refl h.keyed hj⟩
    · exact hu j' (.tail _ hj')
  · exact h.setPhase (by simp [Phase.Ok]) (by simp [Phase.jobs])

theorem commitExecution [DecidableEq E] (h : Inv c s) {e : E} {job : Job} {since : ℕ}
    {js : List Job} (hp : s.phase e = .executing job since js) (o : Outcome) :
    Inv c (s.commitExecution c e job since js o) := by
  have ho := h.phase e
  have hu := h.read e
  rw [hp] at ho hu
  have hjs : ∀ js' : List Job, js' ⊆ js → (Phase.acquired js').Ok (c.getName e) (s.clock e) ∧
      ∀ j ∈ js', j.id < s.nextId ∧ UpToDate SameRow s.jobs j :=
    fun js' hs => ⟨fun j hj => ho.2 j (hs hj), fun j hj => hu j (.tail _ (hs hj))⟩
  unfold State.commitExecution
  split
  · exact h.setPhase (hjs js fun _ hj => hj).1 (hjs js fun _ hj => hj).2
  · have hrest := hjs (if job.lockTime.isNone then [] else js) (by split <;> simp)
    dsimp only
    split
    · rename_i jobs hf
      exact ((h.flush hf (hu job (.head _)).1).setHistory _).setPhase hrest.1 fun j hj =>
        ⟨(hrest.2 j hj).1, (hrest.2 j hj).2.flush hf⟩
    · exact h.setPhase hrest.1 hrest.2

theorem commitUnlock [DecidableEq M] (h : Inv c s) {m : M} {es : List (Entity Job)}
    (hm : s.monitor m = some es) : Inv c (s.commitUnlock m es) := by
  unfold State.commitUnlock
  split
  · rename_i jobs hf
    exact (h.flushAll hf fun x hx => (h.monitor m es hm x hx).2.1).setMonitor (by simp)
  · exact h.setMonitor (by simp)

/-! ## All steps -/

theorem nodup_ids {t : ℕ → Option Job} {js : List Job} (hn : js.Nodup)
    (hj : ∀ j ∈ js, t j.id = some j) : (js.map Job.id).Nodup := by
  induction js with
  | nil => exact .nil
  | cons j js ih =>
    rw [List.nodup_cons] at hn
    rw [List.map_cons, List.nodup_cons]
    refine ⟨fun hm => ?_, ih hn.2 fun j' hj' => hj j' (.tail _ hj')⟩
    obtain ⟨j', hj', hid⟩ := List.mem_map.mp hm
    have : some j' = some j := by rw [← hj j' (.tail _ hj'), ← hj j (.head _), hid]
    cases this
    exact hn.1 hj'

theorem step [DecidableEq E] [DecidableEq M] (h : Inv c s) {l : Step E M} (hl : s.Legal c l) :
    Inv c (s.step c l) := by
  cases l with
  | tick e t => exact h.tick hl
  | getFirstAcquirableJob e job =>
    obtain ⟨-, hj, ha, -⟩ := hl
    refine h.setPhase (acquirable_of_isAcquirable ha) fun j hm => ?_
    cases List.mem_singleton.mp hm
    exact ⟨h.bound _ _ hj, .of_read SameRow.refl h.keyed hj⟩
  | findExclusiveJobs e js =>
    simp only [State.Legal] at hl
    simp only [State.step]
    split at hl
    · rename_i job hj
      split at hl
      · obtain ⟨⟨hn, hf, -⟩, -⟩ := hl
        refine h.lock hj (nodup_ids hn fun j hj => (hf j hj).1) fun j hjs => .inr ⟨(hf j hjs).1, ?_⟩
        have := (hf j hjs).2
        simp only [Job.isExclusiveFor, Bool.and_eq_true] at this
        exact acquirable_of_isAcquirable this.1.1.1
      · subst hl
        exact h.lock hj (by simp) fun j hjs => .inl (List.mem_singleton.mp hjs)
    · cases hl
  | commitAcquisition e =>
    simp only [State.Legal] at hl
    simp only [State.step]
    split at hl
    · rename_i es hp
      exact h.commitAcquisition hp
    · cases hl
  | load e =>
    simp only [State.Legal] at hl
    simp only [State.step]
    split at hl
    · rename_i job js hp
      exact h.load hp
    · cases hl
  | commitExecution e o =>
    simp only [State.Legal] at hl
    simp only [State.step]
    split at hl
    · rename_i job since js hp
      exact h.commitExecution hp o
    · cases hl
  | abandon e => exact h.setPhase (by simp [Phase.Ok]) (by simp [Phase.jobs])
  | findOverdueJobs m treshold js =>
    obtain ⟨-, hl⟩ := hl
    split at hl
    · refine h.setMonitor fun es hes x hx => ?_
      cases hes
      obtain ⟨j, hj, rfl⟩ := List.mem_map.mp hx
      have hr := (hl.2.1 j hj).1
      exact ⟨rfl, h.bound _ _ hr, .of_read SameRow.refl h.keyed hr⟩
    · cases hl
  | commitUnlock m =>
    simp only [State.step]
    split
    · rename_i es hm
      exact h.commitUnlock hm
    · exact h
  | abandonUnlock m => exact h.setMonitor (by simp)
  | create kind dueDate processInstance token isExclusive => exact h.create ..
  | suspendJobs token => exact h.setSuspended token true
  | resumeJobs token => exact h.setSuspended token false
  | cancelTimersByName name token => exact h.cancel _
  | deleteJobsForProcessInstance processInstance => exact h.cancel _

end Inv

/-- A state before any thread has read a job. -/
structure Initial (s : State E M) : Prop where
  keyed : Keyed s.jobs
  bound : ∀ k, ∀ r ∈ s.jobs k, k < s.nextId
  phase : ∀ e, s.phase e = .acquired []
  monitor : ∀ m, s.monitor m = none
  history : s.history = []

/-- Nothing has happened yet, and there are no jobs. -/
def State.empty : State E M := ⟨fun _ => none, 0, fun _ => 0, fun _ => .acquired [], fun _ => none, []⟩

theorem initial_empty : Initial (State.empty : State E M) where
  keyed := by rintro k r ⟨⟩
  bound := by rintro k r ⟨⟩
  phase _ := rfl
  monitor _ := rfl
  history := rfl

theorem Initial.inv (h : Initial s) : Inv c s where
  keyed := h.keyed
  bound := h.bound
  phase e := by simp [h.phase e, Phase.Ok]
  read e := by simp [h.phase e, Phase.jobs]
  monitor m := by simp [h.monitor m]

/-- **The invariant of the job table** holds in every run. -/
theorem inv_of_run [DecidableEq E] [DecidableEq M] {s₀ : State E M} (h₀ : Initial s₀)
    {ls : List (Step E M)} (hr : Run (Steps c) s₀ ls s) : Inv c s :=
  hr.inv h₀.inv fun s l s' h hl => by
    obtain ⟨hl, rfl⟩ := hl
    exact h.step hl

end JobExecutor

end Jbpm
