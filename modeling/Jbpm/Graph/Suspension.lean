/-
  Suspending and resuming tokens, with their jobs, their task instances and their
  children.

  * `Token.setSuspended_eq`: the flags of everything that belongs to a subtree are set;
  * `Token.suspend_resume`: afterwards nothing in the subtree is suspended, which is the
    state before if and only if nothing was suspended then.
-/
import Jbpm.Graph.TokenTree

namespace Jbpm

namespace Suspension

structure TaskInstance where
  token : Option ℕ
  isOpen : Bool
  isSuspended : Bool
  deriving DecidableEq

structure Job where
  token : Option ℕ
  isSuspended : Bool
  deriving DecidableEq

/-- The tokens, the task instances of the process instance if it has a task management
    instance, and the jobs in the database. -/
structure Execution where
  isSuspended : ℕ → Bool
  taskInstances : Option (List TaskInstance)
  jobs : List Job
  hasJobSession : Bool

/-- `suspend()` and `resume()`; the task instance has to be open. -/
def TaskInstance.setSuspended (flag : Bool) (ti : TaskInstance) : Option TaskInstance :=
  if ti.isOpen then some { ti with isSuspended := flag } else none

namespace TaskMgmtInstance

/-- `suspend(token)` and `resume(token)` -/
def setSuspended (flag : Bool) (token : ℕ) (taskInstances : List TaskInstance) :
    Option (List TaskInstance) :=
  taskInstances.mapM fun ti =>
    if ti.token = some token ∧ ti.isOpen then ti.setSuspended flag else some ti

end TaskMgmtInstance

namespace JobSession

/-- The bulk updates `JobSession.suspendJobs` and `JobSession.resumeJobs`. -/
def setSuspended (flag : Bool) (token : ℕ) (jobs : List Job) : List Job :=
  jobs.map fun job => if job.token = some token then { job with isSuspended := flag } else job

end JobSession

namespace Token

/-- What happens to a token itself. -/
def setOwn (flag : Bool) (t : ℕ) (e : Execution) : Option Execution := do
  let e := { e with isSuspended := Function.update e.isSuspended t flag }
  let e := if e.hasJobSession then { e with jobs := JobSession.setSuspended flag t e.jobs } else e
  match e.taskInstances with
  | none => some e
  | some tis =>
    (TaskMgmtInstance.setSuspended flag t tis).map fun tis => { e with taskInstances := some tis }

variable (T : TokenTree)

def setSuspended (flag : Bool) (t : ℕ) (e : Execution) : Option Execution := do
  let e ← setOwn flag t e
  (T.children t).attach.foldlM (fun e c => setSuspended flag c.1.2 e) e
termination_by T.size - t
decreasing_by
  have hp := T.parent_of_mem c.2
  have := T.parent_lt hp
  have := T.lt_size hp
  omega

def suspend : ℕ → Execution → Option Execution := setSuspended T true
def resume : ℕ → Execution → Option Execution := setSuspended T false

end Token

/-! ## The flags of a set of tokens -/

/-- What belongs to a token in `P`. -/
def Of (P : ℕ → Prop) (token : Option ℕ) : Prop := ∃ t, token = some t ∧ P t

section Flags

open Classical

noncomputable def TaskInstance.setWhere (P : ℕ → Prop) (flag : Bool) (ti : TaskInstance) :
    TaskInstance :=
  if Of P ti.token ∧ ti.isOpen then { ti with isSuspended := flag } else ti

noncomputable def Job.setWhere (P : ℕ → Prop) (flag : Bool) (job : Job) : Job :=
  if Of P job.token then { job with isSuspended := flag } else job

/-- Sets the flags of the tokens in `P`, of their jobs and of their open task instances. -/
noncomputable def Execution.setWhere (P : ℕ → Prop) (flag : Bool) (e : Execution) : Execution where
  isSuspended t := if P t then flag else e.isSuspended t
  taskInstances := e.taskInstances.map (List.map (TaskInstance.setWhere P flag))
  jobs := if e.hasJobSession then e.jobs.map (Job.setWhere P flag) else e.jobs
  hasJobSession := e.hasJobSession

end Flags

/-- No token in `P` is suspended, and nothing that is suspended together with them. -/
structure Execution.Active (P : ℕ → Prop) (e : Execution) : Prop where
  token : ∀ t, P t → e.isSuspended t = false
  task : ∀ tis, e.taskInstances = some tis → ∀ ti ∈ tis, Of P ti.token → ti.isOpen →
    ti.isSuspended = false
  job : e.hasJobSession → ∀ job ∈ e.jobs, Of P job.token → job.isSuspended = false

section SetWhere

variable {P Q : ℕ → Prop} {a b : Bool}

theorem Of.or_iff {token : Option ℕ} : Of (fun t => P t ∨ Q t) token ↔ Of P token ∨ Of Q token := by
  simp only [Of, and_or_left, exists_or]

theorem TaskInstance.setWhere_setWhere (h : a = b ∨ ∀ t, P t → Q t) (ti : TaskInstance) :
    (ti.setWhere P a).setWhere Q b = ti.setWhere (fun t => P t ∨ Q t) b := by
  obtain ⟨token, _ | _, flag⟩ := ti
  · simp [setWhere]
  · by_cases hQ : Of Q token
    · by_cases hP : Of P token <;> simp [setWhere, Of.or_iff, hQ, hP]
    · by_cases hP : Of P token
      · have hab : a = b := h.resolve_right fun h => hQ (hP.imp fun t ht => ⟨ht.1, h t ht.2⟩)
        simp [setWhere, Of.or_iff, hQ, hP, hab]
      · simp [setWhere, Of.or_iff, hQ, hP]

theorem Job.setWhere_setWhere (h : a = b ∨ ∀ t, P t → Q t) (job : Job) :
    (job.setWhere P a).setWhere Q b = job.setWhere (fun t => P t ∨ Q t) b := by
  obtain ⟨token, flag⟩ := job
  by_cases hQ : Of Q token
  · by_cases hP : Of P token <;> simp [setWhere, Of.or_iff, hQ, hP]
  · by_cases hP : Of P token
    · have hab : a = b := h.resolve_right fun h => hQ (hP.imp fun t ht => ⟨ht.1, h t ht.2⟩)
      simp [setWhere, Of.or_iff, hQ, hP, hab]
    · simp [setWhere, Of.or_iff, hQ, hP]

theorem TaskInstance.setWhere_eq_iff (ti : TaskInstance) :
    ti.setWhere P a = ti ↔ (Of P ti.token → ti.isOpen → ti.isSuspended = a) := by
  obtain ⟨token, _ | _, flag⟩ := ti
  · simp [setWhere]
  · by_cases hP : Of P token <;> simp [setWhere, hP, eq_comm]

theorem Job.setWhere_eq_iff (job : Job) :
    job.setWhere P a = job ↔ (Of P job.token → job.isSuspended = a) := by
  obtain ⟨token, flag⟩ := job
  rw [setWhere]
  split
  · next h => simp [h, eq_comm]
  · next h => simp [h]

theorem map_eq_self_iff {α : Type} {f : α → α} {l : List α} : l.map f = l ↔ ∀ x ∈ l, f x = x := by
  rw [← List.map_inj_left, List.map_id']

namespace Execution

variable {e e' : Execution}

theorem eq_of_eq (h₁ : ∀ t, e.isSuspended t = e'.isSuspended t)
    (h₂ : e.taskInstances = e'.taskInstances) (h₃ : e.jobs = e'.jobs)
    (h₄ : e.hasJobSession = e'.hasJobSession) : e = e' := by
  obtain ⟨s, tis, jobs, session⟩ := e
  obtain ⟨s', tis', jobs', session'⟩ := e'
  obtain rfl : s = s' := funext h₁
  cases h₂
  cases h₃
  cases h₄
  rfl

/-- A later setting replaces an earlier one of fewer tokens, and adds tokens to one of the
    same flag. -/
theorem setWhere_setWhere (h : a = b ∨ ∀ t, P t → Q t) :
    (e.setWhere P a).setWhere Q b = e.setWhere (fun t => P t ∨ Q t) b := by
  refine eq_of_eq (fun t => ?_) ?_ ?_ rfl
  · by_cases hQ : Q t
    · simp [setWhere, hQ]
    · by_cases hP : P t
      · have hab : a = b := h.resolve_right fun h => hQ (h t hP)
        simp [setWhere, hQ, hP, hab]
      · simp [setWhere, hQ, hP]
  · simp only [setWhere, Option.map_map]
    refine congrArg (Option.map · e.taskInstances) (funext fun tis => ?_)
    rw [Function.comp_apply, List.map_map]
    exact List.map_congr_left fun ti _ => TaskInstance.setWhere_setWhere h ti
  · cases hs : e.hasJobSession with
    | false => simp [setWhere, hs]
    | true =>
      simp only [setWhere, hs, if_true, List.map_map]
      exact List.map_congr_left fun job _ => Job.setWhere_setWhere h job

theorem setWhere_eq_iff : e.setWhere P false = e ↔ e.Active P := by
  constructor
  · intro h
    refine ⟨fun t ht => ?_, fun tis htis ti hti hP => ?_, fun hs job hjob hP => ?_⟩
    · rw [← h]
      exact if_pos ht
    · have htasks := congrArg taskInstances h
      simp only [setWhere, htis, Option.map_some, Option.some.injEq] at htasks
      exact (TaskInstance.setWhere_eq_iff ti).1 (map_eq_self_iff.1 htasks ti hti) hP
    · have hjobs := congrArg jobs h
      simp only [setWhere, hs, if_true] at hjobs
      exact (Job.setWhere_eq_iff job).1 (map_eq_self_iff.1 hjobs job hjob) hP
  · rintro ⟨htoken, htask, hjob⟩
    refine eq_of_eq (fun t => ?_) ?_ ?_ rfl
    · by_cases ht : P t
      · rw [htoken t ht]
        exact if_pos ht
      · exact if_neg ht
    · simp only [setWhere]
      cases htis : e.taskInstances with
      | none => rfl
      | some tis =>
        exact congrArg some (map_eq_self_iff.2 fun ti hti =>
          (TaskInstance.setWhere_eq_iff ti).2 (htask tis htis ti hti))
    · simp only [setWhere]
      split
      · next hs => exact map_eq_self_iff.2 fun job hj => (Job.setWhere_eq_iff job).2 (hjob hs job hj)
      · rfl

end Execution

end SetWhere

/-! ## Subtrees -/

/-- A token and the tokens that its children, their children and so on refer to. -/
inductive Below (T : TokenTree) : ℕ → ℕ → Prop
  | self (t : ℕ) : Below T t t
  | child {t x : ℕ} {c : String × ℕ} (hc : c ∈ T.children t) (hx : Below T c.2 x) : Below T t x

theorem below_iff {T : TokenTree} {t x : ℕ} :
    Below T t x ↔ x = t ∨ ∃ c ∈ T.children t, Below T c.2 x := by
  constructor
  · rintro (_ | ⟨hc, hx⟩)
    · exact .inl rfl
    · exact .inr ⟨_, hc, hx⟩
  · rintro (rfl | ⟨c, hc, hx⟩)
    · exact .self x
    · exact .child hc hx

namespace Token

variable {T : TokenTree} {a : Bool} {t : ℕ} {e : Execution}

theorem of_eq_iff {token : Option ℕ} : Of (· = t) token ↔ token = some t := by
  simp [Of]

theorem taskMgmtInstance_setSuspended (tis : List TaskInstance) :
    TaskMgmtInstance.setSuspended a t tis = some (tis.map (TaskInstance.setWhere (· = t) a)) := by
  have hone : (fun ti : TaskInstance => if ti.token = some t ∧ ti.isOpen then ti.setSuspended a
      else some ti) = fun ti => pure (ti.setWhere (· = t) a) := by
    funext ti
    simp only [TaskInstance.setWhere, of_eq_iff]
    split
    · next h => exact if_pos h.2
    · rfl
  rw [TaskMgmtInstance.setSuspended, hone, List.mapM_pure]
  rfl

theorem jobSession_setSuspended (jobs : List Job) :
    JobSession.setSuspended a t jobs = jobs.map (Job.setWhere (· = t) a) := by
  refine List.map_congr_left fun job _ => ?_
  simp only [Job.setWhere, of_eq_iff]

theorem setOwn_eq : setOwn a t e = some (e.setWhere (· = t) a) := by
  obtain ⟨flags, _ | tis, jobs, _ | _⟩ := e <;>
    simp [setOwn, Execution.setWhere, jobSession_setSuspended, taskMgmtInstance_setSuspended,
      Function.update_apply, funext_iff]

theorem foldlM_children (hone : ∀ c ∈ T.children t, ∀ e,
      setSuspended T a c.2 e = some (e.setWhere (Below T c.2) a))
    (cs : List { c // c ∈ T.children t }) (P : ℕ → Prop) :
    cs.foldlM (fun e c => setSuspended T a c.1.2 e) (e.setWhere P a) =
      some (e.setWhere (fun x => P x ∨ ∃ c ∈ cs, Below T c.1.2 x) a) := by
  induction cs generalizing P with
  | nil => simp
  | cons c cs ih =>
    rw [List.foldlM_cons, hone c.1 c.2, Execution.setWhere_setWhere (.inl rfl)]
    refine (ih _).trans ?_
    simp only [List.exists_mem_cons_iff, or_assoc]

/-- The flags of a subtree are set. -/
theorem setSuspended_eq (a : Bool) (t : ℕ) (e : Execution) :
    setSuspended T a t e = some (e.setWhere (Below T t) a) := by
  induction hn : T.size - t using Nat.strong_induction_on generalizing t e with
  | h n ih =>
    have hone : ∀ c ∈ T.children t, ∀ e,
        setSuspended T a c.2 e = some (e.setWhere (Below T c.2) a) := fun c hc e => by
      have hp := T.parent_of_mem hc
      have := T.parent_lt hp
      have := T.lt_size hp
      exact ih (T.size - c.2) (by omega) c.2 e rfl
    rw [setSuspended, setOwn_eq]
    refine (foldlM_children hone _ _).trans ?_
    have hbelow : (fun x => x = t ∨ ∃ c ∈ (T.children t).attach, Below T c.1.2 x) = Below T t := by
      funext x
      rw [below_iff]
      simp
    rw [hbelow]

/-- Nothing of the subtree is suspended any more and all else is as it was, so everything is as it
    was if and only if nothing of the subtree was suspended. -/
theorem suspend_resume (T : TokenTree) (t : ℕ) (e : Execution) :
    (suspend T t e).bind (resume T t) = some (e.setWhere (Below T t) false) ∧
      (e.setWhere (Below T t) false = e ↔ e.Active (Below T t)) := by
  refine ⟨?_, Execution.setWhere_eq_iff⟩
  rw [suspend, resume, setSuspended_eq, Option.bind_some, setSuspended_eq,
    Execution.setWhere_setWhere (.inr fun _ => id)]
  simp only [or_self]

/-- A task instance that was suspended by itself is resumed with its token. -/
theorem suspend_resume_ne : ∃ e : Execution,
    (suspend .root 0 e).bind (resume .root 0) ≠ some e ∧
      e.taskInstances = some [⟨some 0, true, true⟩] := by
  refine ⟨⟨fun _ => false, some [⟨some 0, true, true⟩], [], true⟩, fun h => ?_, rfl⟩
  rw [suspend, resume, setSuspended_eq, Option.bind_some, setSuspended_eq, Option.some.injEq] at h
  have htasks := congrArg Execution.taskInstances h
  simp [Execution.setWhere, TaskInstance.setWhere, Of, Below.self] at htasks

end Token

end Suspension

end Jbpm
